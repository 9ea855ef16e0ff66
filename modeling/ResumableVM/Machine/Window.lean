import ResumableVM.Store.Basic

/-! # Window: the registers of a frame

A register holds its value in place, or a cell that it shares with closures. An access says which of
the two it expects; a register in the other mode is a defect, as code that was compiled here never
makes such an access. -/

namespace ResumableVM

/-- A register. -/
inductive Slot where
  | plain (v : Value)
  | boxed (cell : CellId)
deriving DecidableEq, Inhabited

/-- The registers of a frame. -/
structure Window where
  slots : Array Slot
deriving Inhabited

namespace Window

/-- Registers that hold nil. -/
def ofSize (size : Nat) : Window := ⟨Array.replicate size (.plain .nil)⟩

/-- The number of registers. -/
def size (w : Window) : Nat := w.slots.size

/-- A register that has to exist. -/
def slot (w : Window) (r : Nat) : Except Defect Slot :=
  match w.slots[r]? with
  | some s => .ok s
  | none => .error (.outOfBounds w.slots.size r)

/-- The window with one register replaced. -/
def put (w : Window) (r : Nat) (s : Slot) : Window := ⟨w.slots.setIfInBounds r s⟩

/-- The value of a register. -/
def get (w : Window) (st : Store) (s : SlotRef) : Except Defect Value := do
  match ← w.slot s.register, s.mode with
  | .plain v, .direct => .ok v
  | .boxed cell, .boxed => .ok (st.cell cell)
  | _, _ => .error (.readMode s.register)

/-- Another value for a register. A value in a cell changes for everyone who shares the cell. -/
def set (w : Window) (st : Store) (s : SlotRef) (v : Value) : Except Defect (Window × Store) :=
  match w.slots[s.register]?, s.mode with
  | some (.plain _), .direct => .ok (w.put s.register (.plain v), st)
  | some (.boxed cell), .boxed => .ok (w, st.setCell cell v)
  | some _, _ => .error (.writeMode s.register)
  | none, _ => .error (.outOfBounds w.slots.size s.register)

/-- A plain register moves into a new cell. -/
def capture (w : Window) (st : Store) (r : Nat) : Except Defect (Window × Store) :=
  match w.slots[r]? with
  | some (.plain v) =>
    let (cell, st) := st.addCell v
    .ok (w.put r (.boxed cell), st)
  | some (.boxed _) => .error (.alreadyCaptured r)
  | none => .error (.outOfBounds w.slots.size r)

/-- A register leaves its cell and keeps the value. -/
def uncapture (w : Window) (st : Store) (r : Nat) : Except Defect Window :=
  match w.slots[r]? with
  | some (.boxed cell) => .ok (w.put r (.plain (st.cell cell)))
  | some (.plain _) => .error (.notCaptured r)
  | none => .error (.outOfBounds w.slots.size r)

/-- The cell of a register. -/
def cell (w : Window) (r : Nat) : Except Defect CellId := do
  match ← w.slot r with
  | .boxed cell => .ok cell
  | .plain _ => .error (.captureOfPlain r)

end Window

end ResumableVM
