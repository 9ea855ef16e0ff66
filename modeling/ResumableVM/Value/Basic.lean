import ResumableVM.Types.ValueType

/-! # Value: what registers, tables and cells hold

Tables, closures and capture cells are objects with an identity. A value names a table or a closure
by its place in the store, so copying a value aliases the object and two values are the same object
exactly when they are equal. -/

namespace ResumableVM

/-- Place of a table in the store. -/
structure TableId where
  index : Nat
deriving DecidableEq, Hashable, Repr, Inhabited

/-- Place of a closure in the store. -/
structure ClosureId where
  index : Nat
deriving DecidableEq, Hashable, Repr, Inhabited

/-- Place of a capture cell in the store. -/
structure CellId where
  index : Nat
deriving DecidableEq, Hashable, Repr, Inhabited

/-- Place of a routine in the library. -/
structure RoutineId where
  index : Nat
deriving DecidableEq, Hashable, Repr, Inhabited

/-- What can be called without the help of a metatable. -/
inductive Function where
  | closure (id : ClosureId)
  | routine (id : RoutineId)
deriving DecidableEq, Hashable, Repr

/-- A value. -/
inductive Value where
  | nil
  | boolean (b : Bool)
  | integer (n : Int64)
  | float (x : Float)
  | string (s : String)
  | table (id : TableId)
  | function (f : Function)
deriving DecidableEq, Inhabited

/-- The kinds of values that a metatable can be shared by. -/
inductive Kind where
  | nil
  | boolean
  | number
  | string
  | table
  | function
deriving DecidableEq, Repr

namespace Kind

/-- Every kind. -/
def all : List Kind := [nil, boolean, number, string, table, function]

/-- The kind's name in messages. -/
def display : Kind → String
  | nil => "nil"
  | boolean => "boolean"
  | number => "number"
  | string => "string"
  | table => "table"
  | function => "function"

end Kind

namespace Value

/-- The kind of a value. -/
def kind : Value → Kind
  | nil => .nil
  | boolean _ => .boolean
  | integer _ | float _ => .number
  | string _ => .string
  | table _ => .table
  | function _ => .function

/-- The name of a value's type in messages. -/
def typeName (v : Value) : String := v.kind.display

/-- The most precise static type of a value. -/
def staticType : Value → ValueType
  | nil => .nil
  | boolean _ => .boolean
  | integer _ => .integer
  | float _ => .float
  | string _ => .string
  | table _ => .table
  | function _ => .function

/-- The value is nil. -/
def isNil : Value → Bool
  | nil => true
  | _ => false

/-- Every value counts as true but nil and false. -/
def isTruthy : Value → Bool
  | nil | boolean false => false
  | _ => true

/-- A closure as a value. -/
def closure (id : ClosureId) : Value := function (.closure id)

/-- A routine as a value. -/
def routine (id : RoutineId) : Value := function (.routine id)

theorem isNil_iff {v : Value} : v.isNil = true ↔ v = nil := by cases v <;> simp [isNil]

end Value

/-- The value at a position, nil past the end. -/
def valueAt (vs : List Value) (i : Nat) : Value := vs[i]?.getD .nil

end ResumableVM
