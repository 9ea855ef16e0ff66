import ResumableVM.Numeric.Binary64

/-! # Numeral: numbers read from text

Readers for the numerals that occur in strings, arguments and documents. Each takes the whole text
of one numeral: `integer64?` a decimal integer with an optional sign, `hexadecimal?` the digits of a
64-bit word, `float?` a decimal fraction with an optional exponent, or one of the words for the
values that have no digits. -/

namespace ResumableVM.Numeral

/-- The value of a row of digits in a base. -/
def valueOf (base : Nat) (digitOf : Char → Nat) (cs : List Char) : Nat :=
  cs.foldl (fun n c => base * n + digitOf c) 0

/-- The value of a decimal digit. -/
def decimalDigit (c : Char) : Nat := c.toNat - '0'.toNat

/-- A hexadecimal digit, in either case. -/
def isHexDigit (c : Char) : Bool :=
  c.isDigit || ('a' ≤ c && c ≤ 'f') || ('A' ≤ c && c ≤ 'F')

/-- The value of a hexadecimal digit. -/
def hexDigit (c : Char) : Nat :=
  if c.isDigit then decimalDigit c
  else if 'a' ≤ c then c.toNat - 'a'.toNat + 10
  else c.toNat - 'A'.toNat + 10

/-- A non-empty row of decimal digits. -/
def natural? (cs : List Char) : Option Nat :=
  if !cs.isEmpty && cs.all Char.isDigit then some (valueOf 10 decimalDigit cs) else none

/-- A leading sign, and what follows it; no sign counts as plus. -/
def splitSign : List Char → Bool × List Char
  | '+' :: cs => (false, cs)
  | '-' :: cs => (true, cs)
  | cs => (false, cs)

/-- A decimal integer in the range of 64 bits. -/
def integer64? (cs : List Char) : Option Int64 := do
  let (negative, digits) := splitSign cs
  let n ← natural? digits
  signedWord? (if negative then -n else n)

/-- The digits of a 64-bit word in base sixteen; one plus sign may stand before them. -/
def hexadecimal? (cs : List Char) : Option UInt64 :=
  let digits := match cs with
    | '+' :: rest => rest
    | _ => cs
  if !digits.isEmpty && digits.all isHexDigit then unsignedWord? (valueOf 16 hexDigit digits)
  else none

/-- The double nearest to `m * 10 ^ e`. Beyond the range of doubles the answer is known from the
number of digits alone. -/
def scaled (m : Nat) (e : Int) : Float :=
  let lead : Int := (Nat.toDigits 10 m).length + e
  if m = 0 ∨ lead < -330 then 0.0
  else if 310 < lead then Float.ofBits 0x7FF0000000000000
  else Float.ofScientific m (e < 0) e.natAbs

/-- The number with its sign set. -/
def signed (negative : Bool) (x : Float) : Float := if negative then -x else x

/-- The words for the values without digits, in any case. -/
def word? (cs : List Char) : Option Float :=
  let w := cs.map Char.toLower
  if w = ['i', 'n', 'f'] ∨ w = ['i', 'n', 'f', 'i', 'n', 'i', 't', 'y'] then
    some (Float.ofBits 0x7FF0000000000000)
  else if w = ['n', 'a', 'n'] then some Binary64.nan
  else none

/-- The exponent after the letter that announces it: a sign and digits. -/
def exponent? (cs : List Char) : Option Int := do
  let (negative, digits) := splitSign cs
  let n ← natural? digits
  pure (if negative then -(n : Int) else n)

/-- Digits with a point among them; one digit at least. -/
def mantissa? (cs : List Char) : Option (Nat × Nat) :=
  let whole := cs.takeWhile Char.isDigit
  match cs.dropWhile Char.isDigit with
  | [] => (natural? whole).map (·, 0)
  | '.' :: places =>
    if places.all Char.isDigit then (natural? (whole ++ places)).map (·, places.length) else none
  | _ => none

/-- A letter that announces an exponent. -/
def isExponentMark (c : Char) : Bool := c == 'e' || c == 'E'

/-- A decimal fraction with an optional exponent. -/
def decimal? (cs : List Char) : Option Float := do
  let (m, places) ← mantissa? (cs.takeWhile (!isExponentMark ·))
  let e ← match cs.dropWhile (!isExponentMark ·) with
    | [] => some 0
    | _ :: rest => exponent? rest
  pure (scaled m (e - places))

/-- A double: a sign, then digits or a word. -/
def float? (cs : List Char) : Option Float :=
  let (negative, rest) := splitSign cs
  (word? rest <|> decimal? rest).map (signed negative)

end ResumableVM.Numeral
