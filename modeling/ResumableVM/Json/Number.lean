import ResumableVM.Json.Basic
import ResumableVM.Numeric.Layout
import ResumableVM.Numeric.Numeral

/-! # JsonNumber: numbers in documents

The grammar is strict: no plus sign, no zero before another digit, a digit on both sides of the
point, a digit in the exponent. The value keeps as many leading digits as fit into 64 bits and
counts the rest as powers of ten; the kept digits are rounded to a double, which is then scaled by
powers of ten of at most `10 ^ 308`. -/

namespace ResumableVM.JsonNumber

/-- Leading digits as long as their value stays below `2 ^ 64`, and the digits left over. -/
def gather (n : Nat) : List Char → Nat × List Char
  | [] => (n, [])
  | c :: cs =>
    let m := 10 * n + Numeral.decimalDigit c
    if m < UInt64.size then gather m cs else (n, c :: cs)

/-- The number `x * 10 ^ e`, in steps of at most `10 ^ 308`; beyond the range of doubles there is no
answer. -/
def scale : Nat → Float → Int → Option Float
  | 0, _, _ => some 0.0
  | fuel + 1, x, e =>
    if e.natAbs ≤ 308 then
      let power := Float.ofScientific 1 false e.natAbs
      let y := if 0 ≤ e then x * power else x / power
      if Binary64.isInfinite y then none else some y
    else if Binary64.isZero x then some x
    else if 0 ≤ e then none
    else scale fuel (x / Float.ofScientific 1 false 308) (e + 308)

/-- The number with significand `n` and decimal exponent `e`. -/
def ofParts (negative : Bool) (n : Nat) (e : Int) : JsonNumber :=
  match scale 4 (Float.ofNat n) e with
  | some x => real (Numeral.signed negative x)
  | none => excessive

/-- An integer where 64 bits hold it, and a real elsewhere. -/
def ofInteger (negative : Bool) (n : Nat) : JsonNumber :=
  if !negative then integer n
  else if n = 0 ∨ (signedWord? (-n)).isNone then real (-(Float.ofNat n))
  else integer (-n)

/-- The digits of the whole part: at least one, and no zero before another digit. -/
def isWhole : List Char → Bool
  | [] => false
  | ['0'] => true
  | c :: cs => '1' ≤ c && c ≤ '9' && cs.all Char.isDigit

/-- The largest exponent that is counted out; a larger one decides by its sign. -/
def exponentBound : Nat := 2147483647

/-- The number with the given significand whose exponent, `start` included, is written in `cs`. -/
def withExponent (negative : Bool) (n : Nat) (start : Int) (cs : List Char) :
    Option JsonNumber := do
  let (down, digits) := Numeral.splitSign cs
  let e ← Numeral.natural? digits
  if exponentBound < e then
    pure (if n ≠ 0 ∧ !down then excessive else real (Numeral.signed negative 0.0))
  else pure (ofParts negative n (if down then start - e else start + e))

/-- The number written as a whole part and what follows it. -/
def unsigned? (negative : Bool) (cs : List Char) : Option JsonNumber :=
  let whole := cs.takeWhile Char.isDigit
  let (n, dropped) := gather 0 whole
  if !isWhole whole then none
  else match cs.dropWhile Char.isDigit with
    | [] => some (if dropped.isEmpty then ofInteger negative n
        else ofParts negative n dropped.length)
    | '.' :: rest =>
      let places := rest.takeWhile Char.isDigit
      let (m, unused) := gather n places
      let e : Int := dropped.length - (places.length - unused.length : Nat)
      if places.isEmpty then none
      else match rest.dropWhile Char.isDigit with
        | [] => some (ofParts negative m e)
        | c :: tail => if Numeral.isExponentMark c then withExponent negative m e tail else none
    | c :: tail =>
      if Numeral.isExponentMark c then withExponent negative n dropped.length tail else none

/-- The number with a given text. -/
def ofText? : List Char → Option JsonNumber
  | '-' :: cs => unsigned? true cs
  | cs => unsigned? false cs

/-- The text of a number. A real keeps a mark that it is one. -/
def text : JsonNumber → List Char
  | integer n => (integerText n).toList
  | real x => if Binary64.isFinite x then (documentText x).toList else ['n', 'u', 'l', 'l']
  | excessive => ['1', 'e', '9', '9', '9']

end ResumableVM.JsonNumber
