import ResumableVM.Numeric.Numeral
import ResumableVM.Toml.Parser

/-! # Toml texts: strings and keys

A string stands between double quotes, where a backslash escapes, or between single quotes, where
nothing does. Three quotes on either side let it run over several lines; a line end right after the
opening quotes is dropped, and one or two quotes may stand inside and before the closing ones. A key
is a row of names and strings with points between. -/

namespace ResumableVM.Toml

open Toml.Parser

/-- The largest number of parts of a key. -/
def keyLimit : Nat := 79

/-- The character that a code stands for. -/
def charOfCode? (n : Nat) : Option Char := if n.isValidChar then some (Char.ofNat n) else none

/-- The character of a code with a number of hexadecimal digits. -/
def codeOf (count : Nat) : Parser (List Char) := fun cs =>
  let digits := cs.take count
  if digits.length = count ∧ digits.all Numeral.isHexDigit then do
    let c ← charOfCode? (Numeral.valueOf 16 Numeral.hexDigit digits)
    pure ([c], cs.drop count)
  else none

/-- What an escape stands for; the backslash has been taken. -/
def escape : Parser (List Char)
  | 'b' :: cs => some (['\x08'], cs)
  | 't' :: cs => some (['\t'], cs)
  | 'n' :: cs => some (['\n'], cs)
  | 'f' :: cs => some (['\x0c'], cs)
  | 'r' :: cs => some (['\r'], cs)
  | '"' :: cs => some (['"'], cs)
  | '\\' :: cs => some (['\\'], cs)
  | 'u' :: cs => codeOf 4 cs
  | 'U' :: cs => codeOf 8 cs
  | _ => none

/-- A string on one line between double quotes. -/
def basicString : Parser String := do
  word ['"']
  let parts ← many do
    match ← peek? with
    | some '"' => pure none
    | some '\\' =>
      skip 1
      some <$> escape
    | _ => do
      let c ← satisfy isPrinted
      pure (some [c])
  word ['"']
  pure (String.ofList parts.flatten)

/-- A string on one line between single quotes. -/
def literalString : Parser String := do
  word ['\'']
  let cs ← takeWhile fun c => isPrinted c && c != '\''
  word ['\'']
  pure (String.ofList cs)

/-- Quotes in a row. -/
def quotes (quote : Char) : Parser Nat := fun cs => some ((cs.takeWhile (· == quote)).length, cs)

/-- A line end after a backslash, with all blanks and line ends around it. -/
def joinLines : Parser (List Char) := do
  blanks
  newline
  let _ ← many do
    if ← seesNewline then
      newline
      pure (some ())
    else if ((← peek?).map isBlank).getD false then
      blanks
      pure (some ())
    else pure none
  pure []

/-- A piece of a string on several lines. -/
def piece (quote : Char) (escapes : Bool) : Parser (Option (List Char)) := do
  let row ← quotes quote
  if 3 ≤ row then pure none
  else if 0 < row then
    skip row
    pure (some (List.replicate row quote))
  else if ← seesNewline then
    newline
    pure (some ['\n'])
  else if escapes && (← sees ['\\']) then
    skip 1
    some <$> (joinLines <|> escape)
  else do
    let c ← satisfy isPrinted
    pure (some [c])

/-- A string on several lines between three quotes of a kind. -/
def longString (quote : Char) (escapes : Bool) : Parser String := do
  word [quote, quote, quote]
  if ← seesNewline then newline
  let parts ← many (piece quote escapes)
  let inside := min (← quotes quote) 5 - 3
  skip inside
  word [quote, quote, quote]
  pure (String.ofList (parts.flatten ++ List.replicate inside quote))

/-- A string of any form. -/
def anyString : Parser String := do
  if ← sees ['"', '"', '"'] then longString '"' true
  else if ← sees ['\'', '\'', '\''] then longString '\'' false
  else if ← sees ['"'] then basicString
  else literalString

/-- A character of a name. -/
def isNameChar (c : Char) : Bool := c.isAlphanum || c == '_' || c == '-'

/-- One part of a key. -/
def keyPart : Parser String := do
  match ← peek? with
  | some '"' => basicString
  | some '\'' => literalString
  | _ => do
    let cs ← takeWhile isNameChar
    if cs.isEmpty then failure else pure (String.ofList cs)

/-- A part of a key with blanks around it. -/
def spacedPart : Parser String := do
  blanks
  let part ← keyPart
  blanks
  pure part

/-- The parts of a key: those before the last, and the last. -/
def key : Parser (List String × String) := do
  let first ← spacedPart
  let others ← many do
    if ← accept ['.'] then some <$> spacedPart else pure none
  let parts := first :: others
  if parts.length ≤ keyLimit then pure (parts.dropLast, others.getLastD first) else failure

end ResumableVM.Toml
