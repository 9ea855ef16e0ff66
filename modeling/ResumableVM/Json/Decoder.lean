import ResumableVM.Json.Reader

/-! # Json decoders

A decoder takes a value of some type from a document. Its first argument is the number of containers
that may still be opened on the way down, so that a decoder for a recursive type ends; a part of the
document that no decoder looks at may be as deep as it likes.

A record is an object, or an array of its fields in order. In an object unknown keys are skipped and
no known key may stand twice. A variant is its name alone, or an object with its name as the only
key. -/

namespace ResumableVM

/-- A reader of documents for values of type `α`, given how many containers may be opened. -/
abbrev Decoder (α : Type) := Nat → Json → Option α

namespace Decoder

/-- The number of nested containers that a document may have. -/
def depthLimit : Nat := 127

/-- A natural number below a bound. -/
def natural (bound : Nat) : Decoder Nat
  | _, .number (.integer n) => if 0 ≤ n ∧ n < bound then some n.toNat else none
  | _, _ => none

/-- A number of sixteen bits. -/
def word16 : Decoder Nat := natural UInt16.size

/-- A number of sixty-four bits. -/
def word64 : Decoder Nat := natural UInt64.size

/-- A signed integer of sixty-four bits. -/
def integer64 : Decoder Int64
  | _, .number (.integer n) => signedWord? n
  | _, _ => none

/-- A double; integers are converted. -/
def float : Decoder Float
  | _, .number (.integer n) => some (Float.ofInt n)
  | _, .number (.real x) => some x
  | _, _ => none

/-- A truth value. -/
def boolean : Decoder Bool
  | _, .boolean b => some b
  | _, _ => none

/-- A string. -/
def string : Decoder String
  | _, .string text => text
  | _, _ => none

/-- A list of values. -/
def list {α : Type} (d : Decoder α) : Decoder (List α)
  | depth + 1, .array items => items.mapM (d depth)
  | _, _ => none

/-- The member of an object with a given key; the key must not stand twice. -/
def member? (members : List (JsonText × Json)) (name : String) : Option (Option Json) :=
  match members.filter (·.1 == some name) with
  | [] => some none
  | [(_, j)] => some (some j)
  | _ => none

/-- The fields of a record by name, in order; an absent field is `none`. -/
def fields (names : List String) : Decoder (List (Option Json))
  | _ + 1, .object members =>
    if members.all (·.1.isSome) then names.mapM (member? members) else none
  | _ + 1, .array items =>
    if items.length ≤ names.length then
      some (items.map some ++ List.replicate (names.length - items.length) none)
    else none
  | _, _ => none

/-- The value of a field that must be present. -/
def required {α : Type} (d : Decoder α) (depth : Nat) (field : Option Json) : Option α :=
  field.bind (d depth)

/-- The value of a field that may be absent. -/
def withDefault {α : Type} (d : Decoder α) (default : α) (depth : Nat) : Option Json → Option α
  | none => some default
  | some j => d depth j

/-- The name of a variant, and what it carries if it is written as an object. -/
def variant? : Nat → Json → Option (String × Option Json)
  | _, .string (some name) => some (name, none)
  | _ + 1, .object [(some name, payload)] => some (name, some payload)
  | _, _ => none

/-- A variant that carries nothing is its name, or carries null. -/
def isUnit : Option Json → Bool
  | none => true
  | some .null => true
  | _ => false

/-- A variant that carries nothing, found by name. -/
def unitVariant {α : Type} (ofName? : String → Option α) : Decoder α := fun depth j => do
  let (name, payload) ← variant? depth j
  if isUnit payload then ofName? name else none

/-- The value of a whole text. -/
def ofText? {α : Type} (d : Decoder α) (text : String) : Option α :=
  (Json.ofText? text).bind (d depthLimit)

end Decoder

end ResumableVM
