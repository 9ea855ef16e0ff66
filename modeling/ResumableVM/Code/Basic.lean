import ResumableVM.Graph.Basic
import ResumableVM.Types.TypeSeq

/-! # Code: compiled procedures

Instructions stand in a row. They refer to registers by slots whose mode was settled when the code
was made: a direct slot holds its value in place, a boxed slot holds a cell that closures share.

An instruction that may suspend is a question: its answer arrives in the result channel, and the
instruction after it receives the answer. Every question has a resumption point of its own, and the
resumption table says at which instruction each point goes on; point 0 is the entry. -/

namespace ResumableVM

/-- How a register is accessed. -/
inductive SlotMode where
  | direct
  | boxed
deriving DecidableEq, Repr, Inhabited

/-- A register with its access mode. -/
structure SlotRef where
  register : Nat
  mode : SlotMode
deriving DecidableEq, Repr

/-- A slot or a literal. -/
inductive Source where
  | slot (s : SlotRef)
  | const (c : Const)
deriving DecidableEq

/-- Arguments; `spread` appends the results that the frame kept. -/
structure SourceList where
  fixed : List Source
  spread : Bool
deriving DecidableEq

/-- Where an answer or the varargs go. -/
inductive Receiver where
  | discard
  | one (dst : SlotRef)
  | fixed (dsts : List SlotRef)
  /-- The frame keeps them all. -/
  | multi
deriving DecidableEq

/-- What an instruction that may suspend asks for. -/
inductive Question where
  | arith (op : ArithOp) (a b : Source)
  | length (src : Source)
  | index (table key : Source)
  | call (target : SlotRef) (args : SourceList)
deriving DecidableEq

/-- Instructions. -/
inductive Instr where
  | move (dst : SlotRef) (src : Source)
  | getUpvalue (dst : SlotRef) (index : Nat)
  | setUpvalue (index : Nat) (src : Source)
  | newTable (dst : SlotRef)
  | setIndex (table : SlotRef) (key value : Source)
  /-- Move a plain register into a new cell. -/
  | capture (register : Nat)
  /-- Take a register's value out of its cell. -/
  | uncapture (register : Nat)
  | closure (dst : SlotRef) (proto : Nat)
  /-- Ask; the answer goes to the result channel. Resumption points are numbered without a bound, so
  that no two questions of a procedure share one, however many it has; a number of 32 bits is the
  same for fewer than 2^32 of them. -/
  | ask (question : Question) (point : Nat)
  /-- Arithmetic on operands whose types are known to be numbers. -/
  | arithRaw (op : ArithOp) (dst : SlotRef) (a b : Source)
  | not (dst : SlotRef) (src : Source)
  | compare (op : CompareOp) (dst : SlotRef) (a b : Source)
  /-- Receive the answer of the question before. -/
  | receive (receiver : Receiver)
  | vararg (receiver : Receiver)
  | jump (target : Nat)
  | jumpIfFalse (cond : SlotRef) (target : Nat)
  | ret (args : SourceList)
  | tailCall (target : SlotRef) (args : SourceList)
deriving DecidableEq

/-- The resumption point of an instruction, if it may suspend. -/
def Instr.point? : Instr → Option Nat
  | ask _ point => some point
  | _ => none

/-- A compiled procedure. -/
structure Code where
  name : String
  params : Nat
  isVararg : Bool
  registers : Nat
  instrs : Array Instr
  /-- Where each resumption point goes on; a procedure that never suspends has no table. -/
  resumeTable : Option (Array Nat)
  upvalues : List CaptureSource
  nested : List Code
  /-- The shape of everything the procedure returns. -/
  returns : TypeSeq
deriving Inhabited

namespace Code

/-- The procedure may suspend. -/
def isResumable (code : Code) : Bool := code.resumeTable.isSome

/-- The number of resumption points, the entry included. -/
def pointCount (code : Code) : Nat := (code.resumeTable.map Array.size).getD 1

end Code

end ResumableVM
