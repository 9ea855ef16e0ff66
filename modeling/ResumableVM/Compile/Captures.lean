import ResumableVM.Compile.Dataflow
import ResumableVM.Graph.Basic

/-! # Captures: which registers are held in cells

A register is captured from the closure operation that captures it to the operation that closes it,
along any path. Where paths meet, a register captured on one of them counts as captured; the others
move it into a cell as they get there. -/

namespace ResumableVM

/-- How a register holds its value. -/
inductive SlotState where
  | plain
  | captured
deriving DecidableEq, Repr, Inhabited

/-- Captured on either side. -/
def SlotState.join : SlotState → SlotState → SlotState
  | plain, plain => plain
  | _, _ => captured

/-- The state of every register. -/
abbrev SlotStates := List SlotState

namespace SlotStates

/-- The state of a register. -/
def of (states : SlotStates) (r : Nat) : SlotState := states[r]?.getD .plain

theorem of_set (states : SlotStates) (s : SlotState) {r : Nat} (h : r < states.length) :
    of (states.set r s) r = s := by simp [of, h]

theorem of_set_of_ne (states : SlotStates) (s : SlotState) {i j : Nat} (h : i ≠ j) :
    of (states.set i s) j = of states j := by simp [of, h]

/-- The states with some registers changed. -/
def setAll (states : SlotStates) (rs : List Nat) (s : SlotState) : SlotStates :=
  rs.foldl (fun states r => states.set r s) states

/-- Registers that are plain here and captured there. -/
def newlyCaptured (here there : SlotStates) : List Nat :=
  ((here.zip there).zipIdx.filter fun ((a, b), _) => a == .plain && b == .captured).map (·.2)

end SlotStates

namespace Procedure

/-- The states after an operation, from those before it. -/
def captureFlow (p : Procedure) (states : SlotStates) : Op → SlotStates
  | .closure _ proto => states.setAll (p.capturedBy proto) .captured
  | .close rs => states.setAll rs .plain
  | _ => states

/-- The operations of a block. -/
def opsOf (p : Procedure) (b : Nat) : List Op := (p.blocks[b]?.map Block.ops).getD []

/-- The blocks that control can pass to from a block. -/
def successorsOf (p : Procedure) (b : Nat) : List Nat :=
  (p.blocks[b]?.map (·.exit.successors)).getD []

/-- The analysis of captured registers. -/
def captureAnalysis (p : Procedure) : Dataflow SlotStates where
  blocks := (p.blocks.map fun b => ⟨b.ops.foldl p.captureFlow, b.exit.successors⟩).toArray
  start := List.replicate p.registers .plain
  join := List.zipWith SlotState.join
  height := p.registers

/-- The states on entry to each block that can be reached. -/
def captures (p : Procedure) : Dataflow.Entries SlotStates := p.captureAnalysis.solve

/-- The states at each point of a block: before each operation, then before the exit. -/
def statesAlong (p : Procedure) (states : SlotStates) : List Op → List SlotStates
  | [] => [states]
  | op :: ops => states :: statesAlong p (p.captureFlow states op) ops

end Procedure

end ResumableVM
