import ResumableVM.Compile.Captures
import ResumableVM.Types.TypeSeq

/-! # RegisterTypes: static types of registers

Parameters start with any type, the other registers as nil; where paths meet the types are joined.
Any closure may write a captured register at any call, so a register that is captured before or
after an operation has any type after it, and a read through a cell gives any type. The compiler
uses the types to find arithmetic whose operands are known to be numbers. -/

namespace ResumableVM

/-- What is known of the registers at a point. -/
structure RegisterInfo where
  states : SlotStates
  types : TypeSeq
deriving DecidableEq

namespace RegisterInfo

/-- The static type of a register. -/
def typeOf (info : RegisterInfo) (r : Nat) : ValueType :=
  match info.states.of r with
  | .captured => .any
  | .plain => info.types.get r

/-- The static type of an operand. -/
def operandType (info : RegisterInfo) : Operand → ValueType
  | .register r => info.typeOf r
  | .const c => c.staticType

end RegisterInfo

/-- The type of the result of primitive arithmetic. -/
def ArithOp.resultType (op : ArithOp) (a b : ValueType) : ValueType :=
  if !a.isNumeric || !b.isNumeric then .any
  else match op with
    | divide | power => .float
    | _ =>
      if a = .float ∨ b = .float then .float
      else if a = .integer ∧ b = .integer then .integer
      else .number

namespace UnaryOp

/-- The type of the result of a unary operator. -/
def resultType : UnaryOp → ValueType → ValueType
  | not, _ => .boolean
  | negate, t => if t.isNumeric then t else .any
  | length, t => if t = .string then .integer else .any

end UnaryOp

namespace Op

/-- What an operation writes to registers, by type. -/
def writtenTypes (info : RegisterInfo) : Op → List (Nat × ValueType)
  | move dst src => [(dst, info.typeOf src)]
  | load dst value => [(dst, value.staticType)]
  | getUpvalue dst _ | index dst _ _ => [(dst, .any)]
  | newTable dst => [(dst, .table)]
  | closure dst _ => [(dst, .function)]
  | compare dst _ _ _ => [(dst, .boolean)]
  | arith dst op a b => [(dst, op.resultType (info.operandType a) (info.operandType b))]
  | unary dst op src => [(dst, op.resultType (info.operandType src))]
  | call _ _ results | vararg results => results.registers.map (·, .any)
  | setUpvalue _ _ | setIndex _ _ _ | close _ => []

end Op

/-- Types with any type in place of those of captured registers. -/
def SlotStates.forget : SlotStates → List ValueType → List ValueType
  | .captured :: states, _ :: ts => .any :: forget states ts
  | .plain :: states, t :: ts => t :: forget states ts
  | _, ts => ts

/-- Any type for every register that is captured before or after. -/
def forgetCaptured (before after : SlotStates) (types : TypeSeq) : TypeSeq :=
  { types with fixed := SlotStates.forget (before.zipWith SlotState.join after) types.fixed }

namespace Procedure

/-- What is known after an operation. -/
def typeFlow (p : Procedure) (info : RegisterInfo) (op : Op) : RegisterInfo :=
  let after := p.captureFlow info.states op
  let written := (op.writtenTypes info).foldl (fun types (r, t) => types.set r t) info.types
  ⟨after, forgetCaptured info.states after written⟩

/-- What is known at the end of some operations. -/
def typeFlowAll (p : Procedure) (info : RegisterInfo) (ops : List Op) : RegisterInfo :=
  ops.foldl p.typeFlow info

/-- The analysis of register types over given states of the registers. -/
def typeAnalysis (p : Procedure) (captures : Dataflow.Entries SlotStates) : Dataflow TypeSeq where
  blocks := (p.blocks.zipIdx.map fun (b, i) =>
    let states := captures[i]?.join.getD []
    ⟨fun types => (p.typeFlowAll ⟨states, types⟩ b.ops).types, b.exit.successors⟩).toArray
  start := .ofList (List.replicate (min p.params p.registers) .any ++
    List.replicate (p.registers - p.params) .nil)
  join := TypeSeq.join
  height := 3 * p.registers

/-- The types on entry to each block that can be reached. -/
def registerTypes (p : Procedure) (captures : Dataflow.Entries SlotStates) :
    Dataflow.Entries TypeSeq := (p.typeAnalysis captures).solve

end Procedure

end ResumableVM
