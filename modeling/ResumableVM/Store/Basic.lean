import ResumableVM.Code.Basic
import ResumableVM.Table

/-! # Store: the objects of a machine

Tables, closures and cells live in the store and are named by their places; an object never moves
and is never removed. Values of every kind but tables can share a metatable, which the store keeps
too. -/

namespace ResumableVM

/-- Compiled code with its capture cells. -/
structure Closure where
  code : Code
  upvalues : Array CellId

/-- Code that returns nothing. -/
def Code.inert : Code where
  name := ""
  params := 0
  isVararg := false
  registers := 0
  instrs := #[.ret ⟨[], false⟩]
  resumeTable := none
  upvalues := []
  nested := []
  returns := ⟨[], false⟩

/-- The closure that stands for one that does not exist. -/
instance : Inhabited Closure := ⟨⟨.inert, #[]⟩⟩

/-- The objects, and the metatables that kinds of values share. -/
structure Store where
  tables : Array Table
  closures : Array Closure
  cells : Array Value
  kindMetatable : Kind → Option TableId

namespace Store

/-- No objects. -/
def empty : Store := ⟨#[], #[], #[], fun _ => none⟩

/-- The table at a place. -/
def table (st : Store) (id : TableId) : Table := st.tables[id.index]?.getD default

/-- The closure at a place. -/
def closure (st : Store) (id : ClosureId) : Closure := st.closures[id.index]?.getD default

/-- The value in a cell. -/
def cell (st : Store) (id : CellId) : Value := st.cells[id.index]?.getD .nil

/-- A new table. -/
def addTable (st : Store) (t : Table) : TableId × Store :=
  (⟨st.tables.size⟩, { st with tables := st.tables.push t })

/-- A new closure. -/
def addClosure (st : Store) (c : Closure) : ClosureId × Store :=
  (⟨st.closures.size⟩, { st with closures := st.closures.push c })

/-- A new cell. -/
def addCell (st : Store) (v : Value) : CellId × Store :=
  (⟨st.cells.size⟩, { st with cells := st.cells.push v })

/-- Another value in a cell. -/
def setCell (st : Store) (id : CellId) (v : Value) : Store :=
  { st with cells := st.cells.setIfInBounds id.index v }

/-- A table changed in place. -/
def modifyTable (st : Store) (id : TableId) (f : Table → Table) : Store :=
  { st with tables := st.tables.modify id.index f }

theorem table_addTable (st : Store) (t : Table) :
    (st.addTable t).2.table (st.addTable t).1 = t := by simp [addTable, table]

theorem table_addTable_of_lt (st : Store) (t : Table) {id : TableId}
    (h : id.index < st.tables.size) : (st.addTable t).2.table id = st.table id := by
  simp [addTable, table, Array.getElem?_push_lt, h]

theorem cell_addCell (st : Store) (v : Value) : (st.addCell v).2.cell (st.addCell v).1 = v := by
  simp [addCell, cell]

theorem cell_addCell_of_lt (st : Store) (v : Value) {id : CellId}
    (h : id.index < st.cells.size) : (st.addCell v).2.cell id = st.cell id := by
  simp [addCell, cell, Array.getElem?_push_lt, h]

theorem cell_setCell (st : Store) (v : Value) {id : CellId} (h : id.index < st.cells.size) :
    (st.setCell id v).cell id = v := by simp [setCell, cell, h]

theorem cell_setCell_of_ne (st : Store) (v : Value) {i j : CellId} (h : i ≠ j) :
    (st.setCell i v).cell j = st.cell j := by
  have : i.index ≠ j.index := fun e => h (by cases i; cases j; simp_all)
  simp [setCell, cell, this]

theorem table_modifyTable (st : Store) (f : Table → Table) {id : TableId}
    (h : id.index < st.tables.size) : (st.modifyTable id f).table id = f (st.table id) := by
  simp [modifyTable, table, h, Array.getElem_modify]

theorem table_modifyTable_of_ne (st : Store) (f : Table → Table) {i j : TableId} (h : i ≠ j) :
    (st.modifyTable i f).table j = st.table j := by
  have : i.index ≠ j.index := fun e => h (by cases i; cases j; simp_all)
  simp [modifyTable, table, Array.getElem?_modify, this]

/-- A table with a value mapped to another. -/
def rawSet (st : Store) (id : TableId) (k v : Value) : Except Failure Store := do
  let key ← Table.keyFor k
  pure (st.modifyTable id (·.set key v))

/-- A table with another metatable. -/
def setMetatable (st : Store) (id : TableId) (m : Option TableId) : Store :=
  st.modifyTable id (·.withMetatable m)

/-- Another metatable for all values of a kind. -/
def setKindMetatable (st : Store) (kind : Kind) (m : Option TableId) : Store :=
  { st with kindMetatable := fun k => if k = kind then m else st.kindMetatable k }

/-- The metatable of a value: a table's own, otherwise that of its kind. -/
def metatableOf (st : Store) : Value → Option TableId
  | .table id => (st.table id).metatable
  | v => st.kindMetatable v.kind

/-- The handler of a value for an event, or nil. -/
def handler (st : Store) (v : Value) (event : Event) : Value :=
  match st.metatableOf v with
  | some m => (st.table m).getString event.key
  | none => .nil

/-- The handler for two operands: that of the first, otherwise that of the second. -/
def binaryHandler (st : Store) (a b : Value) (event : Event) : Value :=
  let h := st.handler a event
  if h.isNil then st.handler b event else h

end Store

end ResumableVM
