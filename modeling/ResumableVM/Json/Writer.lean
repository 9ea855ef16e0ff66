import ResumableVM.Json.Number

/-! # Json writer: from a tree to text

`compact` writes a document without white space. `pretty` puts every item and every member on a line
of its own, two spaces deeper than its container; an empty container stays on one line. -/

namespace ResumableVM.Json

/-- Two hexadecimal digits. -/
def hexPair (n : Nat) : List Char := [Nat.digitChar (n / 16), Nat.digitChar (n % 16)]

/-- One character of a string: the quote, the backslash and the controls are escaped. -/
def escapeChar (c : Char) : List Char :=
  match c with
  | '"' => ['\\', '"']
  | '\\' => ['\\', '\\']
  | '\x08' => ['\\', 'b']
  | '\x0c' => ['\\', 'f']
  | '\n' => ['\\', 'n']
  | '\r' => ['\\', 'r']
  | '\t' => ['\\', 't']
  | c => if c.toNat < 0x20 then '\\' :: 'u' :: '0' :: '0' :: hexPair c.toNat else [c]

/-- A string with its quotes. A string without text is written as a lone half of a pair. -/
def stringText : JsonText → List Char
  | some s => '"' :: s.toList.flatMap escapeChar ++ ['"']
  | none => ['"', '\\', 'u', 'd', '8', '0', '0', '"']

/-- The text of a document that is no container. -/
def scalarText : Json → List Char
  | boolean true => ['t', 'r', 'u', 'e']
  | boolean false => ['f', 'a', 'l', 's', 'e']
  | number n => n.text
  | string s => stringText s
  | _ => ['n', 'u', 'l', 'l']

mutual

/-- The characters of a document without white space. -/
def compactChars : Json → List Char
  | array [] => ['[', ']']
  | array (j :: js) => '[' :: compactChars j ++ compactItems js ++ [']']
  | object [] => ['\x7b', '\x7d']
  | object ((k, j) :: ms) =>
    '\x7b' :: stringText k ++ ':' :: compactChars j ++ compactMembers ms ++ ['\x7d']
  | j => scalarText j

/-- The items after the first. -/
def compactItems : List Json → List Char
  | [] => []
  | j :: js => ',' :: compactChars j ++ compactItems js

/-- The members after the first. -/
def compactMembers : List (JsonText × Json) → List Char
  | [] => []
  | (k, j) :: ms => ',' :: stringText k ++ ':' :: compactChars j ++ compactMembers ms

end

/-- A new line, indented. -/
def newLine (depth : Nat) : List Char := '\n' :: List.replicate (2 * depth) ' '

mutual

/-- The characters of a document with one item or member a line. -/
def prettyChars (depth : Nat) : Json → List Char
  | array [] => ['[', ']']
  | array (j :: js) =>
    '[' :: newLine (depth + 1) ++ prettyChars (depth + 1) j ++ prettyItems (depth + 1) js ++
      newLine depth ++ [']']
  | object [] => ['\x7b', '\x7d']
  | object ((k, j) :: ms) =>
    '\x7b' :: newLine (depth + 1) ++ stringText k ++ ':' :: ' ' :: prettyChars (depth + 1) j ++
      prettyMembers (depth + 1) ms ++ newLine depth ++ ['\x7d']
  | j => scalarText j

/-- The items after the first. -/
def prettyItems (depth : Nat) : List Json → List Char
  | [] => []
  | j :: js => ',' :: newLine depth ++ prettyChars depth j ++ prettyItems depth js

/-- The members after the first. -/
def prettyMembers (depth : Nat) : List (JsonText × Json) → List Char
  | [] => []
  | (k, j) :: ms =>
    ',' :: newLine depth ++ stringText k ++ ':' :: ' ' :: prettyChars depth j ++
      prettyMembers depth ms

end

/-- The text of a document on one line. -/
def compact (j : Json) : String := String.ofList (compactChars j)

/-- The text of a document on many lines. -/
def pretty (j : Json) : String := String.ofList (prettyChars 0 j)

end ResumableVM.Json
