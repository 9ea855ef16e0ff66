import ResumableVM.Operator
import ResumableVM.Value.Basic

/-! # Graph: procedures as graphs of blocks

A procedure is a list of blocks over a fixed row of registers; block 0 is the entry. A block is a
list of operations and an exit. Nested procedures are listed beside the blocks and turned into
closures by an operation; each says which registers or upvalues of its parent it captures. -/

namespace ResumableVM

/-- A literal. -/
inductive Const where
  | nil
  | boolean (b : Bool)
  | integer (n : Int64)
  | float (x : Float)
  | string (s : String)
deriving DecidableEq, Inhabited

namespace Const

/-- The literal as a value. -/
def toValue : Const → Value
  | nil => .nil
  | boolean b => .boolean b
  | integer n => .integer n
  | float x => .float x
  | string s => .string s

/-- The literal's static type. -/
def staticType (c : Const) : ValueType := c.toValue.staticType

end Const

/-- A register or a literal. -/
inductive Operand where
  | register (r : Nat)
  | const (c : Const)
deriving DecidableEq

/-- Where results go. -/
inductive Results where
  /-- Into these registers, with nil for what is missing. -/
  | fixed (registers : List Nat)
  /-- Kept together for the next spreading call or return. -/
  | multi
deriving DecidableEq

/-- Arguments; `spread` appends the results that were kept together. -/
structure Args where
  fixed : List Operand
  spread : Bool
deriving DecidableEq

/-- What a nested procedure captures of its parent. -/
inductive CaptureSource where
  /-- A register, shared through a cell. -/
  | register (r : Nat)
  /-- One of the parent's own upvalues. -/
  | upvalue (i : Nat)
deriving DecidableEq

namespace CaptureSource

/-- The register that is captured, if it is one. -/
def register? : CaptureSource → Option Nat
  | register r => some r
  | upvalue _ => none

end CaptureSource

/-- Operations inside a block. -/
inductive Op where
  | move (dst src : Nat)
  | load (dst : Nat) (value : Const)
  | getUpvalue (dst index : Nat)
  | setUpvalue (index : Nat) (src : Operand)
  | newTable (dst : Nat)
  /-- Read: `dst = table[key]`, with handlers. -/
  | index (dst : Nat) (table key : Operand)
  /-- Write: `table[key] = value`, without handlers. -/
  | setIndex (table : Nat) (key value : Operand)
  | arith (dst : Nat) (op : ArithOp) (a b : Operand)
  | unary (dst : Nat) (op : UnaryOp) (src : Operand)
  | compare (dst : Nat) (op : CompareOp) (a b : Operand)
  | call (target : Nat) (args : Args) (results : Results)
  /-- A closure of a nested procedure. -/
  | closure (dst proto : Nat)
  /-- End of scope: the next capture of these registers gets a new cell. -/
  | close (registers : List Nat)
  | vararg (results : Results)
deriving DecidableEq

/-- How a block ends. -/
inductive Exit where
  | jump (target : Nat)
  | branch (cond ifTrue ifFalse : Nat)
  | ret (args : Args)
  | tailCall (target : Nat) (args : Args)
deriving DecidableEq

/-- A block. -/
structure Block where
  ops : List Op
  exit : Exit
deriving DecidableEq

/-- A procedure. -/
structure Procedure where
  name : String
  /-- Parameters occupy the first registers. -/
  params : Nat
  isVararg : Bool
  registers : Nat
  upvalues : List CaptureSource
  blocks : List Block
  nested : List Procedure
deriving BEq

namespace Operand

/-- The registers that an operand names. -/
def registers : Operand → List Nat
  | register r => [r]
  | const _ => []

end Operand

namespace Args

/-- The registers that arguments name, in order. -/
def registers (args : Args) : List Nat := args.fixed.flatMap Operand.registers

end Args

namespace Results

/-- The registers that results go to, in order. -/
def registers : Results → List Nat
  | fixed rs => rs
  | multi => []

end Results

namespace Op

/-- The registers that an operation names itself, in the order in which they are checked. -/
def registers : Op → List Nat
  | move dst src => [dst, src]
  | load dst _ | getUpvalue dst _ | newTable dst | closure dst _ => [dst]
  | setUpvalue _ src => src.registers
  | index dst table key => dst :: (table.registers ++ key.registers)
  | setIndex table key value => table :: (key.registers ++ value.registers)
  | arith dst _ a b | compare dst _ a b => dst :: (a.registers ++ b.registers)
  | unary dst _ src => dst :: src.registers
  | call target args results => target :: (args.registers ++ results.registers)
  | close rs => rs
  | vararg results => results.registers

end Op

namespace Exit

/-- The blocks that control can pass to. -/
def successors : Exit → List Nat
  | jump target => [target]
  | branch _ ifTrue ifFalse => [ifTrue, ifFalse]
  | ret _ | tailCall _ _ => []

/-- The registers that an exit names, in order. -/
def registers : Exit → List Nat
  | jump _ => []
  | branch cond _ _ => [cond]
  | ret args => args.registers
  | tailCall target args => target :: args.registers

end Exit

namespace Block

/-- Every register that a block names. -/
def registers (b : Block) : List Nat := b.ops.flatMap Op.registers ++ b.exit.registers

end Block

namespace Procedure

/-- The registers of its parent that a procedure captures, in upvalue order. -/
def capturedRegisters (p : Procedure) : List Nat := p.upvalues.filterMap CaptureSource.register?

/-- The registers that the closure operation for a nested procedure captures. -/
def capturedBy (p : Procedure) (proto : Nat) : List Nat :=
  (p.nested[proto]?.map capturedRegisters).getD []

end Procedure

end ResumableVM
