/-! # Json: documents as trees

A document is read in two stages: its text becomes a tree, and a decoder takes from the tree what it
asks for. A part that nobody asks for only has to be well-formed, so the tree also has room for what
is well-formed without having a value: a string with an escape that names no character, and a number
beyond the range of doubles. -/

namespace ResumableVM

/-- A number in a document. Integers of 64 bits are kept exactly; `-0` is a real. -/
inductive JsonNumber where
  | integer (n : Int)
  | real (x : Float)
  /-- A well-formed number that no double can hold. -/
  | excessive
deriving DecidableEq

/-- The text of a string, or nothing when an escape in it names no character. -/
abbrev JsonText := Option String

/-- A document. -/
inductive Json where
  | null
  | boolean (b : Bool)
  | number (n : JsonNumber)
  | string (text : JsonText)
  | array (items : List Json)
  | object (members : List (JsonText × Json))
deriving Inhabited

namespace Json

/-- A string document. -/
def ofString (s : String) : Json := string (some s)

/-- A natural number. -/
def ofNat (n : Nat) : Json := number (.integer n)

/-- An integer. -/
def ofInt (n : Int) : Json := number (.integer n)

/-- An object with the given members in order. -/
def ofMembers (members : List (String × Json)) : Json :=
  object (members.map fun (k, v) => (some k, v))

end Json

end ResumableVM
