import ResumableVM.Error
import ResumableVM.Graph.Basic
import ResumableVM.Graph.Error

/-! # Builder: procedures made step by step

A builder holds an unfinished procedure and a selected block that operations are appended to. Unless
it was fixed, the number of registers is inferred when the procedure is built: enough for the
parameters, for every register that is named, and for every register that a nested procedure
captures, up to the largest number of sixteen bits. -/

namespace ResumableVM

/-- A block whose exit may still be open. -/
structure OpenBlock where
  ops : List Op
  exit : Option Exit

/-- An unfinished procedure. -/
structure Builder where
  name : String
  params : Nat
  isVararg : Bool
  /-- The number of registers, when it is not to be inferred. -/
  registers : Option Nat
  upvalues : List CaptureSource
  blocks : List OpenBlock
  nested : List Procedure
  /-- The selected block. -/
  current : Nat

namespace Builder

/-- The largest number of sixteen bits. -/
def largest : Nat := 65535

/-- A procedure with one empty block, which is selected. -/
def start (name : String) (params : Nat) : Builder :=
  ⟨name, params, false, none, [], [⟨[], none⟩], [], 0⟩

/-- Accept more arguments than there are parameters. -/
def acceptVarargs (b : Builder) : Builder := { b with isVararg := true }

/-- Fix the number of registers. -/
def fixRegisters (b : Builder) (count : Nat) : Builder := { b with registers := some count }

/-- Declare an upvalue; its index, in sixteen bits, comes back. -/
def capture (b : Builder) (source : CaptureSource) : Nat × Builder :=
  (b.upvalues.length % (largest + 1), { b with upvalues := b.upvalues ++ [source] })

/-- Add a nested procedure; its index comes back. -/
def nest (b : Builder) (p : Procedure) : Nat × Builder :=
  (b.nested.length, { b with nested := b.nested ++ [p] })

/-- Add an empty block without selecting it; its index comes back. -/
def newBlock (b : Builder) : Nat × Builder :=
  (b.blocks.length, { b with blocks := b.blocks ++ [⟨[], none⟩] })

/-- Select a block. -/
def switchTo (b : Builder) (block : Nat) : Builder := { b with current := block }

/-- Change the selected block, which has to exist. -/
def modifyCurrent (b : Builder) (f : OpenBlock → OpenBlock) : Except Defect Builder :=
  if b.current < b.blocks.length then .ok { b with blocks := b.blocks.modify b.current f }
  else .error (.outOfBounds b.blocks.length b.current)

/-- Append an operation to the selected block. -/
def push (b : Builder) (op : Op) : Except Defect Builder :=
  b.modifyCurrent fun block => { block with ops := block.ops ++ [op] }

/-- End the selected block. -/
def terminate (b : Builder) (exit : Exit) : Except Defect Builder :=
  b.modifyCurrent fun block => { block with exit := some exit }

/-- The blocks, each of which must have an exit; `i` is the index of the first. -/
def finishBlocks (name : String) (i : Nat) : List OpenBlock → Except GraphError (List Block)
  | [] => .ok []
  | ⟨_, none⟩ :: _ => .error (.unterminatedBlock name i)
  | ⟨ops, some exit⟩ :: rest => do pure (⟨ops, exit⟩ :: (← finishBlocks name (i + 1) rest))

/-- Room for a register, as far as sixteen bits go. -/
def makeRoom (count r : Nat) : Nat := max count (min (r + 1) largest)

/-- The number of registers that a procedure needs. -/
def needed (params : Nat) (blocks : List Block) (nested : List Procedure) : Nat :=
  (blocks.flatMap Block.registers ++ nested.flatMap Procedure.capturedRegisters).foldl makeRoom
    params

/-- The finished procedure. -/
def build (b : Builder) : Except GraphError Procedure := do
  let blocks ← finishBlocks b.name 0 b.blocks
  pure {
    name := b.name
    params := b.params
    isVararg := b.isVararg
    registers := b.registers.getD (needed b.params blocks b.nested)
    upvalues := b.upvalues
    blocks := blocks
    nested := b.nested }

end Builder

end ResumableVM
