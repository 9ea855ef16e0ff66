import ResumableVM.Graph.Basic
import ResumableVM.Graph.Error

/-! # Check: the rules a procedure must keep

A procedure has a block to start in and registers for its parameters; its operations and exits name
registers, upvalues, nested procedures and blocks that exist; varargs are read only where there are
any. `Procedure.check` reports the first rule that is broken, block by block in order; the
procedures nested in it are not looked into, apart from what they capture where a closure is made of
them. -/

namespace ResumableVM.Procedure

/-- A register exists. -/
def checkRegister (p : Procedure) (r : Nat) : Except GraphError Unit :=
  if r < p.registers then .ok () else .error (.invalidRegister p.name r p.registers)

/-- An upvalue exists. -/
def checkUpvalue (p : Procedure) (i : Nat) : Except GraphError Unit :=
  if i < p.upvalues.length then .ok () else .error (.invalidUpvalue p.name i)

/-- What a nested procedure captures exists. -/
def checkSource (p : Procedure) : CaptureSource → Except GraphError Unit
  | .register r => p.checkRegister r
  | .upvalue i => p.checkUpvalue i

/-- What an operation names apart from registers exists. -/
def checkReferences (p : Procedure) : Op → Except GraphError Unit
  | .getUpvalue _ i | .setUpvalue i _ => p.checkUpvalue i
  | .closure _ proto =>
    match p.nested[proto]? with
    | some n => n.upvalues.forM p.checkSource
    | none => .error (.invalidNested p.name proto)
  | .vararg _ => if p.isVararg then .ok () else .error (.varargOutside p.name)
  | _ => .ok ()

/-- An operation names only what exists. -/
def checkOp (p : Procedure) (op : Op) : Except GraphError Unit := do
  op.registers.forM p.checkRegister
  p.checkReferences op

/-- A block exists. -/
def checkTarget (p : Procedure) (b : Nat) : Except GraphError Unit :=
  if b < p.blocks.length then .ok () else .error (.invalidBlock p.name b)

/-- A block names only what exists. -/
def checkBlock (p : Procedure) (b : Block) : Except GraphError Unit := do
  b.ops.forM p.checkOp
  b.exit.registers.forM p.checkRegister
  b.exit.successors.forM p.checkTarget

/-- The procedure keeps the rules. -/
def check (p : Procedure) : Except GraphError Unit := do
  if p.blocks.isEmpty then .error (.noBlocks p.name)
  else if p.registers < p.params then .error (.tooManyParameters p.name p.params p.registers)
  else p.blocks.forM p.checkBlock

end ResumableVM.Procedure
