/-! # Dataflow: forward analyses of a graph of blocks

An analysis gives each block a state on entry. The first block starts with a given state; a state
flows through a block to its end and is joined into the entry of every block that control can pass
to from there. A block that no state reaches has none.

`Dataflow.solve` sweeps over the blocks until a sweep changes nothing. Every sweep before that
raises an entry, so with states that can be raised at most `height` times the sweeps end within the
number of blocks times `height + 1`. -/

namespace ResumableVM

/-- A block as an analysis sees it. -/
structure FlowBlock (α : Type) where
  /-- The state at the end of the block, from the state on entry. -/
  flow : α → α
  successors : List Nat

/-- A forward analysis with states of type `α`. -/
structure Dataflow (α : Type) where
  blocks : Array (FlowBlock α)
  /-- The state on entry to the first block. -/
  start : α
  join : α → α → α
  /-- How often a state can be raised. -/
  height : Nat

namespace Dataflow

variable {α : Type}

/-- States on entry to each block, for the blocks that have one. -/
abbrev Entries (α : Type) := Array (Option α)

/-- Only the first block has a state. -/
def initial (d : Dataflow α) : Entries α :=
  (Array.replicate d.blocks.size none).setIfInBounds 0 (some d.start)

/-- A state joined into an entry. -/
def merge (d : Dataflow α) (incoming : α) : Option α → Option α
  | none => some incoming
  | some s => some (d.join s incoming)

/-- The entry of a block, sent through it to its successors. -/
def propagate (d : Dataflow α) (entries : Entries α) (b : Nat) : Entries α :=
  match entries[b]?.join, d.blocks[b]? with
  | some s, some block =>
    let out := block.flow s
    block.successors.foldl (fun es t => es.modify t (d.merge out)) entries
  | _, _ => entries

/-- Every block in turn. -/
def sweep (d : Dataflow α) (entries : Entries α) : Entries α :=
  (List.range d.blocks.size).foldl d.propagate entries

/-- Sweeps until one changes nothing, or a number of them. -/
def iterate [DecidableEq α] (d : Dataflow α) : Nat → Entries α → Entries α
  | 0, entries => entries
  | fuel + 1, entries =>
    let next := d.sweep entries
    if next = entries then entries else iterate d fuel next

/-- The states on entry to the blocks. -/
def solve [DecidableEq α] (d : Dataflow α) : Entries α :=
  d.iterate (d.blocks.size * (d.height + 1) + 1) d.initial

end Dataflow

end ResumableVM
