/-! # Operator: the operators of procedures and the events they raise

An operation on operands that it is not defined for raises an event: the operand's metatable may
hold a handler under the event's key. -/

namespace ResumableVM

/-- Events that a metatable can handle. -/
inductive Event where
  | index
  | call
  | length
  | add
  | subtract
  | multiply
  | divide
  | modulo
  | power
  | floorDivide
  | negate
  | equal
  | less
  | lessEqual
deriving DecidableEq, Repr

namespace Event

/-- Every event. -/
def all : List Event :=
  [index, call, length, add, subtract, multiply, divide, modulo, power, floorDivide, negate, equal,
    less, lessEqual]

/-- The key of the event's handler in a metatable. -/
def key : Event → String
  | index => "__index"
  | call => "__call"
  | length => "__len"
  | add => "__add"
  | subtract => "__sub"
  | multiply => "__mul"
  | divide => "__div"
  | modulo => "__mod"
  | power => "__pow"
  | floorDivide => "__idiv"
  | negate => "__unm"
  | equal => "__eq"
  | less => "__lt"
  | lessEqual => "__le"

/-- The event with a given key. -/
def ofKey? (s : String) : Option Event := all.find? (·.key == s)

end Event

/-- Arithmetic operators. Negation takes its operand twice. -/
inductive ArithOp where
  | add
  | subtract
  | multiply
  | divide
  | modulo
  | power
  | floorDivide
  | negate
deriving DecidableEq, Repr

namespace ArithOp

/-- Every operator. -/
def all : List ArithOp := [add, subtract, multiply, divide, modulo, power, floorDivide, negate]

/-- The event raised for an operand that is no number. -/
def event : ArithOp → Event
  | add => .add
  | subtract => .subtract
  | multiply => .multiply
  | divide => .divide
  | modulo => .modulo
  | power => .power
  | floorDivide => .floorDivide
  | negate => .negate

/-- The operator in listings. -/
def symbol : ArithOp → String
  | add => "+"
  | subtract => "-"
  | multiply => "*"
  | divide => "/"
  | modulo => "%"
  | power => "^"
  | floorDivide => "//"
  | negate => "-"

/-- The operator's name in documents. -/
def name : ArithOp → String
  | add => "Add"
  | subtract => "Sub"
  | multiply => "Mul"
  | divide => "Div"
  | modulo => "Mod"
  | power => "Pow"
  | floorDivide => "IDiv"
  | negate => "Unm"

/-- The operator with a given name. -/
def ofName? (s : String) : Option ArithOp := all.find? (·.name == s)

theorem ofName?_name (op : ArithOp) : ofName? op.name = some op := by cases op <;> rfl

end ArithOp

/-- Unary operators. -/
inductive UnaryOp where
  | negate
  | not
  | length
deriving DecidableEq, Repr

namespace UnaryOp

/-- Every operator. -/
def all : List UnaryOp := [negate, not, length]

/-- The operator's name in documents. -/
def name : UnaryOp → String
  | negate => "Neg"
  | not => "Not"
  | length => "Len"

/-- The operator with a given name. -/
def ofName? (s : String) : Option UnaryOp := all.find? (·.name == s)

theorem ofName?_name (op : UnaryOp) : ofName? op.name = some op := by cases op <;> rfl

end UnaryOp

/-- Comparison operators. -/
inductive CompareOp where
  | equal
  | notEqual
  | less
  | lessEqual
deriving DecidableEq, Repr

namespace CompareOp

/-- Every operator. -/
def all : List CompareOp := [equal, notEqual, less, lessEqual]

/-- The operator's name in documents and listings. -/
def name : CompareOp → String
  | equal => "Eq"
  | notEqual => "Ne"
  | less => "Lt"
  | lessEqual => "Le"

/-- The operator with a given name. -/
def ofName? (s : String) : Option CompareOp := all.find? (·.name == s)

theorem ofName?_name (op : CompareOp) : ofName? op.name = some op := by cases op <;> rfl

end CompareOp

end ResumableVM
