import ResumableVM.Json.Number

/-! # Json tokens

The text of a document is scanned one character at a time. `Scan` says what the scanner is inside
of, and `Scan.step` takes one character and gives the tokens that it completes: none or one when a
token ends by itself, and the unfinished word or number too when the character ends it. -/

namespace ResumableVM.Json

/-- The smallest meaningful pieces of a document. -/
inductive Token where
  | openArray
  | closeArray
  | openObject
  | closeObject
  | comma
  | colon
  | null
  | boolean (b : Bool)
  | number (n : JsonNumber)
  | string (text : JsonText)

/-- White space between tokens. -/
def isBlank (c : Char) : Bool := c == ' ' || c == '\n' || c == '\t' || c == '\r'

/-- A character that can stand in a number. -/
def isNumberChar (c : Char) : Bool :=
  c.isDigit || c == '+' || c == '-' || c == '.' || c == 'e' || c == 'E'

/-- Where the scanner stands inside a string. -/
inductive Place where
  | plain
  | escape
  /-- Inside a four-digit escape: the digits read so far and their value. -/
  | code (count value : Nat)

/-- The part of a string that has been read. -/
structure OpenString where
  /-- Characters in reverse. -/
  done : List Char
  /-- The first half of a surrogate pair that waits for the second. -/
  high : Option Nat
  /-- Some escape named no character. -/
  broken : Bool
  place : Place

namespace OpenString

/-- The string just after its opening quote. -/
def start : OpenString := ⟨[], none, false, .plain⟩

/-- One more character. A half pair before it stays alone. -/
def push (s : OpenString) (c : Char) : OpenString :=
  ⟨c :: s.done, none, s.broken || s.high.isSome, .plain⟩

/-- One more escape by code. The two halves of a surrogate pair make one character. -/
def pushCode (s : OpenString) (n : Nat) : OpenString :=
  let isHigh := 0xD800 ≤ n && n < 0xDC00
  let isLow := 0xDC00 ≤ n && n < 0xE000
  match s.high with
  | some h =>
    if isLow then
      ⟨Char.ofNat (0x10000 + (h - 0xD800) * 0x400 + (n - 0xDC00)) :: s.done, none, s.broken, .plain⟩
    else ⟨s.done, none, true, .plain⟩
  | none =>
    if isHigh then ⟨s.done, some n, s.broken, .plain⟩
    else if isLow then ⟨s.done, none, true, .plain⟩
    else ⟨Char.ofNat n :: s.done, none, s.broken, .plain⟩

/-- The whole string. -/
def finish (s : OpenString) : JsonText :=
  if s.broken || s.high.isSome then none else some (String.ofList s.done.reverse)

/-- The character that a one-letter escape names. -/
def escaped? : Char → Option Char
  | '"' => some '"'
  | '\\' => some '\\'
  | '/' => some '/'
  | 'b' => some '\x08'
  | 'f' => some '\x0c'
  | 'n' => some '\n'
  | 'r' => some '\r'
  | 't' => some '\t'
  | _ => none

end OpenString

/-- What the scanner is inside of. -/
inductive Scan where
  | between
  /-- The letters of a word, in reverse. -/
  | word (done : List Char)
  /-- The characters of a number, in reverse. -/
  | number (done : List Char)
  | string (s : OpenString)

namespace Scan

/-- The token that a word is. -/
def word? (letters : List Char) : Option Token :=
  if letters = ['n', 'u', 'l', 'l'] then some .null
  else if letters = ['t', 'r', 'u', 'e'] then some (.boolean true)
  else if letters = ['f', 'a', 'l', 's', 'e'] then some (.boolean false)
  else none

/-- The token that an unfinished word or number is, if the text may end or go on elsewhere here. -/
def close : Scan → Option (List Token)
  | between => some []
  | word done => (word? done.reverse).map ([·])
  | number done => (JsonNumber.ofText? done.reverse).map fun n => [.number n]
  | string _ => none

/-- One character outside of all tokens. -/
def begin (c : Char) : Option (List Token × Scan) :=
  if isBlank c then some ([], between)
  else if c == '"' then some ([], string .start)
  else if c.isDigit || c == '-' then some ([], number [c])
  else if c.isAlpha then some ([], word [c])
  else match c with
    | '[' => some ([.openArray], between)
    | ']' => some ([.closeArray], between)
    | '\x7b' => some ([.openObject], between)
    | '\x7d' => some ([.closeObject], between)
    | ',' => some ([.comma], between)
    | ':' => some ([.colon], between)
    | _ => none

/-- One character inside a string. -/
def inString (s : OpenString) (c : Char) : Option (List Token × Scan) :=
  match s.place with
  | .plain =>
    if c == '"' then some ([.string s.finish], between)
    else if c == '\\' then some ([], string { s with place := .escape })
    else if c.toNat < 0x20 then none
    else some ([], string (s.push c))
  | .escape =>
    if c == 'u' then some ([], string { s with place := .code 0 0 })
    else (OpenString.escaped? c).map fun d => ([], string (s.push d))
  | .code count value =>
    if !Numeral.isHexDigit c then none
    else
      let n := 16 * value + Numeral.hexDigit c
      if count = 3 then some ([], string (s.pushCode n))
      else some ([], string { s with place := .code (count + 1) n })

/-- One character. -/
def step (s : Scan) (c : Char) : Option (List Token × Scan) :=
  let restart : Option (List Token × Scan) := do
    let done ← s.close
    let (more, next) ← begin c
    pure (done ++ more, next)
  match s with
  | between => begin c
  | word done => if c.isAlpha then some ([], word (c :: done)) else restart
  | number done => if isNumberChar c then some ([], number (c :: done)) else restart
  | string o => inString o c

/-- One more character after the tokens `done`, which are in reverse. -/
def feed (state : List Token × Scan) (c : Char) : Option (List Token × Scan) := do
  let (tokens, next) ← state.2.step c
  pure (tokens.reverse ++ state.1, next)

end Scan

/-- The tokens of a text. -/
def tokens? (cs : List Char) : Option (List Token) := do
  let (done, s) ← cs.foldlM Scan.feed ([], .between)
  let last ← s.close
  pure (done.reverse ++ last)

end ResumableVM.Json
