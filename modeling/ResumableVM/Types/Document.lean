import ResumableVM.Json.Decoder
import ResumableVM.Json.Writer
import ResumableVM.Types.TypeSeq

/-! # Types in documents

A type is written by its name, a shape as a record of its run and its tail flag. -/

namespace ResumableVM

namespace ValueType

/-- A type by its name. -/
def decoder : Decoder ValueType := Decoder.unitVariant ofName?

/-- The type as a document. -/
def toJson (t : ValueType) : Json := .ofString t.name

end ValueType

namespace TypeSeq

/-- A shape as a record. -/
def decoder : Decoder TypeSeq
  | depth + 1, j => do
    match ← Decoder.fields ["fixed", "has_tail"] (depth + 1) j with
    | [fixed, hasTail] =>
      pure ⟨← Decoder.required (Decoder.list ValueType.decoder) depth fixed,
        ← Decoder.required Decoder.boolean depth hasTail⟩
    | _ => none
  | 0, _ => none

/-- The shape as a document. -/
def toJson (a : TypeSeq) : Json :=
  .ofMembers [("fixed", .array (a.fixed.map ValueType.toJson)), ("has_tail", .boolean a.hasTail)]

end TypeSeq

end ResumableVM
