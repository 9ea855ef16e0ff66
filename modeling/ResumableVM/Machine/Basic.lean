import ResumableVM.Machine.Activation
import ResumableVM.Machine.Channel
import ResumableVM.Routine.Library

/-! # Machine: what lasts from one host call to the next

A machine has limits, a library, a store with the table of globals, the result channel, the depth of
calls and counters of what was dispatched. Between host calls the depth is zero. -/

namespace ResumableVM

/-- Limits of a machine. -/
structure Limits where
  /-- The number of calls that may be nested; a tail call nests none. -/
  maxCallDepth : Nat
  /-- The number of values that an index operation looks into. -/
  maxIndexChain : Nat
deriving DecidableEq, Repr

/-- Two hundred nested calls, and two thousand tables in a chain. -/
def Limits.standard : Limits := ⟨200, 2000⟩

/-- How deeply calls are nested. -/
structure CallDepth where
  current : Nat
  /-- The largest depth since it was last reset. -/
  highWater : Nat
deriving DecidableEq, Repr

namespace CallDepth

/-- No call. -/
def zero : CallDepth := ⟨0, 0⟩

/-- One call deeper, if the limit allows it. -/
def enter? (d : CallDepth) (limit : Nat) : Option CallDepth :=
  if d.current < limit then some ⟨d.current + 1, max d.highWater (d.current + 1)⟩ else none

/-- As many calls deeper as the limit allows, up to a number; whether it allowed all comes back. -/
def enterMany (limit : Nat) : Nat → CallDepth → CallDepth × Bool
  | 0, d => (d, true)
  | n + 1, d =>
    match d.enter? limit with
    | some d => enterMany limit n d
    | none => (d, false)

/-- One call less deep. -/
def leave (d : CallDepth) : CallDepth := { d with current := d.current - 1 }

/-- Some calls less deep. -/
def leaveMany (d : CallDepth) : Nat → CallDepth
  | 0 => d
  | n + 1 => leaveMany d.leave n

theorem current_enter? {d e : CallDepth} {limit : Nat} (h : d.enter? limit = some e) :
    d.current < limit ∧ e.current = d.current + 1 := by
  unfold enter? at h
  split at h
  · next hlt => exact ⟨hlt, by simp [← Option.some.inj h]⟩
  · cases h

theorem current_leaveMany (n : Nat) (d : CallDepth) :
    (d.leaveMany n).current = d.current - n := by
  induction n generalizing d with
  | zero => rfl
  | succ n ih => rw [leaveMany, ih]; simp only [leave]; omega

/-- The high-water mark is the present depth again. -/
def reset (d : CallDepth) : CallDepth := { d with highWater := d.current }

end CallDepth

/-- How often each kind of dispatch took place. -/
structure Counters where
  /-- Functions invoked, those of tail calls included. -/
  invocations : Nat := 0
  tailCalls : Nat := 0
  index : Nat := 0
  length : Nat := 0
  /-- Arithmetic requests; arithmetic on known numbers makes none. -/
  arithmetic : Nat := 0
  /-- Handlers called. -/
  handlers : Nat := 0
deriving DecidableEq, Repr

/-- What lasts from one host call to the next. -/
structure Machine where
  limits : Limits
  library : Library
  globals : TableId
  store : Store
  channel : Channel
  depth : CallDepth
  counters : Counters

namespace Machine

/-- The table of globals: every routine under its name. -/
def globalsOf (l : Library) : Table :=
  l.entries.foldl (fun t (name, id) => t.setString name (.routine id)) .empty

/-- A machine with a library. -/
def withLibrary (limits : Limits) (l : Library) : Machine :=
  let (globals, store) := Store.empty.addTable (globalsOf l)
  ⟨limits, l, globals, store, .empty, .zero, {}⟩

/-- A machine with the standard library. -/
def standard (limits : Limits) : Machine := withLibrary limits .standard

/-- One request counted. -/
def count (m : Machine) : Request → Machine
  | .call _ _ => m
  | .index _ _ => { m with counters.index := m.counters.index + 1 }
  | .length _ => { m with counters.length := m.counters.length + 1 }
  | .arith _ _ _ => { m with counters.arithmetic := m.counters.arithmetic + 1 }

/-- What becomes of a request. -/
def resolve (m : Machine) (q : Request) : Resolution := m.store.resolve m.limits.maxIndexChain q

/-- A call of a handler counted; a plain call has none. -/
def countHandler (m : Machine) : Request → Machine
  | .call _ _ => m
  | _ => { m with counters.handlers := m.counters.handlers + 1 }

/-- An invocation counted, and the handler if one is called. -/
def countInvocation (m : Machine) : Callee → Machine
  | .direct _ => { m with counters.invocations := m.counters.invocations + 1 }
  | .handler _ =>
    { m with
      counters.invocations := m.counters.invocations + 1
      counters.handlers := m.counters.handlers + 1 }

/-- Counters and high-water mark start again. -/
def resetStatistics (m : Machine) : Machine := { m with counters := {}, depth := m.depth.reset }

end Machine

end ResumableVM
