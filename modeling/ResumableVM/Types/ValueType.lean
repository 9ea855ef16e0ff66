import ResumableVM.Types.Comparison

/-! # ValueType: static types of single values

The types form a tree. `any` is its root, `number` stands above `integer` and `float`, and every
other type hangs from `any` directly. There is no least type, so incomparable types have no meet.
`dynamic` is the gradual type: below `any` for subtyping, consistent with every type.

`supertypes_eq` ties the list of supertypes to `parent?`; the remaining operations are read off that
list. -/

namespace ResumableVM

/-- Static type of a single value. -/
inductive ValueType where
  | any
  | nil
  | boolean
  | number
  | integer
  | float
  | string
  | table
  | function
  | dynamic
deriving DecidableEq, Repr, Inhabited

namespace ValueType

/-- Every type, root first. -/
def all : List ValueType :=
  [any, nil, boolean, number, integer, float, string, table, function, dynamic]

/-- The immediate supertype; the root has none. -/
def parent? : ValueType → Option ValueType
  | any => none
  | integer | float => some number
  | _ => some any

/-- The type itself and everything above it, upwards. -/
def supertypes : ValueType → List ValueType
  | any => [any]
  | integer => [integer, number, any]
  | float => [float, number, any]
  | t => [t, any]

theorem supertypes_eq (t : ValueType) :
    t.supertypes = t :: (t.parent?.map supertypes).getD [] := by
  cases t <;> rfl

/-- Reflexive subtyping. -/
def isSubtypeOf (s t : ValueType) : Bool := s.supertypes.contains t

/-- The type of some representation of numbers. -/
def isNumeric (t : ValueType) : Bool := t.isSubtypeOf number

/-- Least upper bound: the first supertype of `s` that stands above `t`. -/
def join (s t : ValueType) : ValueType := (s.supertypes.find? t.isSubtypeOf).getD any

/-- Greatest lower bound: the lower of two comparable types. -/
def meet? (s t : ValueType) : Option ValueType :=
  if s.isSubtypeOf t then some s
  else if t.isSubtypeOf s then some t
  else none

/-- Position of `s` relative to `t` in the subtyping order. -/
def compare (s t : ValueType) : Comparison :=
  if s = t then .equal
  else if s.isSubtypeOf t then .lesser
  else if t.isSubtypeOf s then .greater
  else .incomparable

/-- Gradual consistency: equal, or one side is `dynamic`. -/
def isConsistentWith (s t : ValueType) : Bool := s == t || s == dynamic || t == dynamic

/-- Gradual subtyping: a subtype, or one side is `dynamic`. -/
def isConsistentSubtypeOf (s t : ValueType) : Bool :=
  s == dynamic || t == dynamic || s.isSubtypeOf t

/-- The letter that stands for the type in compact signatures. -/
def tag : ValueType → Char
  | any => 'A'
  | nil => '-'
  | boolean => 'B'
  | number => 'N'
  | integer => 'i'
  | float => 'f'
  | string => 'S'
  | table => 'T'
  | function => 'F'
  | dynamic => '?'

/-- The type's name in messages. -/
def display : ValueType → String
  | any => "any"
  | nil => "nil"
  | boolean => "boolean"
  | number => "number"
  | integer => "integer"
  | float => "float"
  | string => "string"
  | table => "table"
  | function => "function"
  | dynamic => "dynamic"

/-- The type's name in documents. -/
def name : ValueType → String
  | any => "Any"
  | nil => "Nil"
  | boolean => "Boolean"
  | number => "Number"
  | integer => "Integer"
  | float => "Float"
  | string => "String"
  | table => "Table"
  | function => "Function"
  | dynamic => "Dynamic"

/-- The type with a given name in documents. -/
def ofName? (s : String) : Option ValueType := all.find? (·.name == s)

theorem mem_all (t : ValueType) : t ∈ all := by cases t <;> decide

theorem ofName?_name (t : ValueType) : ofName? t.name = some t := by cases t <;> rfl

theorem isSubtypeOf_refl (t : ValueType) : t.isSubtypeOf t = true := by cases t <;> rfl

theorem isSubtypeOf_any (t : ValueType) : t.isSubtypeOf any = true := by cases t <;> rfl

end ValueType

end ResumableVM
