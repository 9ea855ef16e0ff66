import ResumableVM.Toml.Basic
import ResumableVM.Toml.Text

/-! # Toml scalars: numbers, truth values and moments

Digits may be grouped by single underscores between them. An integer has 64 bits, and a real number
must not be too large for a double. -/

namespace ResumableVM.Toml

open Toml.Parser

/-- Digits with single underscores between them, and at least one. -/
def isGrouped (isDigit : Char → Bool) : List Char → Bool
  | [] => false
  | [c] => isDigit c
  | c :: '_' :: cs => isDigit c && isGrouped isDigit cs
  | c :: cs => isDigit c && isGrouped isDigit cs

/-- A row of digits, without the underscores. -/
def digitRow (isDigit : Char → Bool) : Parser (List Char) := do
  let cs ← takeWhile fun c => isDigit c || c == '_'
  if isGrouped isDigit cs then pure (cs.filter (· != '_')) else failure

/-- A row of decimal digits. -/
def decimals : Parser (List Char) := digitRow Char.isDigit

/-- The sign of a number, as written. -/
def sign : Parser (List Char)
  | '+' :: cs => some (['+'], cs)
  | '-' :: cs => some (['-'], cs)
  | cs => some ([], cs)

/-- The digits before the point: no zero stands first in a longer row. -/
def wholePart : Parser (List Char) := do
  let digits ← decimals
  if digits.length ≠ 1 ∧ digits.head? = some '0' then failure else pure digits

/-- The point and the digits after it. -/
def fraction : Parser (List Char) := do
  if ← accept ['.'] then return '.' :: (← decimals)
  pure []

/-- The exponent. -/
def exponent : Parser (List Char) := do
  if (← peek?).any Numeral.isExponentMark then
    skip 1
    let s ← sign
    return 'e' :: s ++ (← decimals)
  pure []

/-- An integer in the digits of a base. -/
def radixInteger (base : Nat) (isDigit : Char → Bool) : Parser Toml := do
  skip 2
  let digits ← digitRow isDigit
  match signedWord? (Numeral.valueOf base Numeral.hexDigit digits) with
  | some n => pure (.integer n)
  | none => failure

/-- The words for an infinity and for no number at all. -/
def specialReal (negative : Bool) : Parser Toml := do
  let infinity := Float.ofBits 0x7FF0000000000000
  if ← accept ['i', 'n', 'f'] then
    return .real (if negative then -infinity else infinity)
  word ['n', 'a', 'n']
  pure (.real Binary64.nan)

/-- The real number that digits spell; one too large upward is refused. -/
def realOf (text : List Char) : Option Toml := do
  let x ← Numeral.float? text
  if Binary64.isInfinite x ∧ ¬ Binary64.isNegative x then none else some (.real x)

/-- A number in decimal notation; its sign has been taken. -/
def decimalNumber (s : List Char) : Parser Toml := do
  let whole ← wholePart
  let frac ← fraction
  let exp ← exponent
  if frac.isEmpty ∧ exp.isEmpty then
    match Numeral.integer64? (s ++ whole) with
    | some n => pure (.integer n)
    | none => failure
  else
    match realOf (s ++ whole ++ frac ++ exp) with
    | some v => pure v
    | none => failure

/-- A number. -/
def numeral : Parser Toml := do
  if ← sees ['0', 'x'] then radixInteger 16 Numeral.isHexDigit
  else if ← sees ['0', 'o'] then radixInteger 8 fun c => '0' ≤ c && c ≤ '7'
  else if ← sees ['0', 'b'] then radixInteger 2 fun c => c == '0' || c == '1'
  else do
    let s ← sign
    if (← peek?).any Char.isDigit then decimalNumber s else specialReal (s == ['-'])

/-! ## Moments -/

/-- Exactly so many digits, with a value in a range. -/
def field (count low high : Nat) : Parser (List Char) := fun cs =>
  let digits := cs.take count
  let n := Numeral.valueOf 10 Numeral.decimalDigit digits
  if digits.length = count ∧ digits.all Char.isDigit ∧ low ≤ n ∧ n ≤ high then
    some (digits, cs.drop count)
  else none

/-- The number of days of a month. -/
def daysOf (year month : Nat) : Nat :=
  let isLeap := year % 4 = 0 ∧ (year % 100 ≠ 0 ∨ year % 400 = 0)
  if month = 2 then (if isLeap then 29 else 28)
  else if month = 4 ∨ month = 6 ∨ month = 9 ∨ month = 11 then 30
  else 31

/-- A date. -/
def date : Parser (List Char) := do
  let year ← field 4 0 9999
  word ['-']
  let month ← field 2 1 12
  word ['-']
  let value := Numeral.valueOf 10 Numeral.decimalDigit
  let day ← field 2 1 (daysOf (value year) (value month))
  pure (year ++ '-' :: month ++ '-' :: day)

/-- A part of a second. -/
def secondPart : Parser (List Char) := do
  word ['.']
  let digits ← takeWhile Char.isDigit
  if digits.isEmpty then failure else pure ('.' :: digits)

/-- A time of day. -/
def time : Parser (List Char) := do
  let hour ← field 2 0 23
  word [':']
  let minute ← field 2 0 59
  word [':']
  let second ← field 2 0 60
  let part ← attempt secondPart
  pure (hour ++ ':' :: minute ++ ':' :: second ++ part.getD [])

/-- A distance from universal time. -/
def offset : Parser (List Char) := do
  let c ← satisfy fun c => c == 'Z' || c == 'z' || c == '+' || c == '-'
  if c.isAlpha then return ['Z']
  let hours ← field 2 0 23
  word [':']
  let minutes ← field 2 0 59
  pure (c :: hours ++ ':' :: minutes)

/-- The time that follows a date. -/
def timeAfterDate : Parser (List Char) := do
  let _ ← satisfy fun c => c == 'T' || c == 't' || c == ' '
  let t ← time
  let o ← attempt offset
  pure ('T' :: t ++ o.getD [])

/-- A date, with a time or without. -/
def dateForm : Parser (List Char) := do
  let d ← date
  let t ← attempt timeAfterDate
  pure (d ++ t.getD [])

/-- A date, a time, or both. -/
def dateOrTime : Parser Toml := do pure (.moment (String.ofList (← dateForm <|> time)))

/-- A truth value. -/
def truth : Parser Toml := do
  if ← accept ['t', 'r', 'u', 'e'] then return .boolean true
  word ['f', 'a', 'l', 's', 'e']
  pure (.boolean false)

/-- A scalar that is no string. -/
def scalar : Parser Toml := dateOrTime <|> truth <|> numeral

end ResumableVM.Toml
