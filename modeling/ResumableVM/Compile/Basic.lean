import ResumableVM.Compile.Lower
import ResumableVM.Graph.Check

/-! # Compile: from procedures to code

A procedure that keeps the rules is compiled, and so is everything nested in it; the first procedure
that breaks one is reported, an outer one before those inside. -/

namespace ResumableVM

namespace Procedure

/-- The join of the shapes that a procedure returns; one that never returns may return anything. -/
def returnType (shapes : List TypeSeq) : TypeSeq :=
  match shapes with
  | [] => .vararg
  | shape :: rest => rest.foldl TypeSeq.join shape

/-- The code of a procedure, given the code of those nested in it. -/
def assemble (p : Procedure) (nested : List Code) : Code :=
  let prologue := p.prologue
  let blocks := p.lowerBlocks
  let lines := prologue ++ (blocks.map (·.1)).flatten
  let starts := Assembly.starts prologue.length (blocks.map (·.1))
  { name := p.name
    params := p.params
    isVararg := p.isVararg
    registers := p.registers
    instrs := (Assembly.link starts 0 1 lines).toArray
    resumeTable := Assembly.resumeTable lines
    upvalues := p.upvalues
    nested := nested
    returns := returnType (blocks.filterMap (·.2)) }

mutual

/-- The code of a procedure. -/
def compile : Procedure → Except GraphError Code
  | p@⟨_, _, _, _, _, _, nested⟩ => do
    p.check
    let codes ← compileAll nested
    pure (p.assemble codes)

/-- The code of some procedures, in order. -/
def compileAll : List Procedure → Except GraphError (List Code)
  | [] => pure []
  | p :: ps => do
    let code ← compile p
    let codes ← compileAll ps
    pure (code :: codes)

end

end Procedure

end ResumableVM
