import ResumableVM.Machine.Window

/-! # Frame: one call of a compiled procedure

A frame holds the registers, the arguments past the parameters, the results kept for the next
spreading call or return, and the resumption point of the question that is under way. -/

namespace ResumableVM

/-- One call of a compiled procedure. -/
structure Frame where
  window : Window
  varargs : List Value
  /-- Results that were kept together. -/
  multi : List Value
  /-- The resumption point of the question under way, a number without a bound as in the code; 0
  before the first. -/
  point : Nat
deriving Inhabited

namespace Frame

/-- The frame of a call with the given arguments: missing ones are nil, and those past the
parameters are kept only by a procedure that reads them. -/
def start (code : Code) (args : List Value) : Frame :=
  let count := min code.params code.registers
  let bound := (List.range count).map fun i => Slot.plain (valueAt args i)
  { window := ⟨(bound ++ List.replicate (code.registers - count) (Slot.plain .nil)).toArray⟩
    varargs := if code.isVararg then args.drop count else []
    multi := []
    point := 0 }

/-- The value of a source. -/
def read (f : Frame) (st : Store) : Source → Except Defect Value
  | .slot s => f.window.get st s
  | .const c => .ok c.toValue

/-- The values of arguments. -/
def arguments (f : Frame) (st : Store) (args : SourceList) : Except Defect (List Value) := do
  let fixed ← args.fixed.mapM (f.read st)
  pure (fixed ++ if args.spread then f.multi else [])

/-- The frame with another value in a register. -/
def write (f : Frame) (st : Store) (s : SlotRef) (v : Value) : Except Defect (Frame × Store) := do
  let (window, st) ← f.window.set st s v
  pure ({ f with window := window }, st)

/-- The frame with values in some registers, nil where there are not enough. -/
def writeAll (f : Frame) (st : Store) : List SlotRef → List Value → Except Defect (Frame × Store)
  | [], _ => .ok (f, st)
  | s :: slots, vs => do
    let (f, st) ← f.write st s (vs.headD .nil)
    writeAll f st slots vs.tail

/-- The frame after receiving values. -/
def receive (f : Frame) (st : Store) (receiver : Receiver) (vs : List Value) :
    Except Defect (Frame × Store) :=
  match receiver with
  | .discard => .ok (f, st)
  | .one dst => f.write st dst (vs.headD .nil)
  | .fixed dsts => f.writeAll st dsts vs
  | .multi => .ok ({ f with multi := vs }, st)

end Frame

end ResumableVM
