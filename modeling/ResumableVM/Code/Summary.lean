import ResumableVM.Code.Basic
import ResumableVM.Json.Basic

/-! # Code summaries

What a compiled procedure is like, as a document: its name and sizes, the shape of what it returns,
and the same for the procedures nested in it. The members are in alphabetical order. -/

namespace ResumableVM.Code

mutual

/-- The summary of a procedure. -/
def summary : Code → Json
  | ⟨name, params, isVararg, registers, instrs, resumeTable, upvalues, nested, returns⟩ =>
    .ofMembers [
      ("instructions", .ofNat instrs.size),
      ("name", .ofString name),
      ("nested", .array (summaries nested)),
      ("params", .ofNat params),
      ("registers", .ofNat registers),
      ("resume_points", .ofNat ((resumeTable.map Array.size).getD 1)),
      ("returns", .ofString returns.display),
      ("upvalues", .ofNat upvalues.length),
      ("vararg", .boolean isVararg)]

/-- The summaries of some procedures, in order. -/
def summaries : List Code → List Json
  | [] => []
  | code :: codes => summary code :: summaries codes

end

end ResumableVM.Code
