import ResumableVM.Numeric.Word

/-! # Binary64: double-precision numbers through their bits

A double is a sign, a significand `m` and an exponent `e`: its magnitude is `m * 2 ^ e`. Comparison,
conversion to integers and the remainder are defined on that exact reading, so that they can be
computed and reasoned about in integers; the rounded operations (sum, product, quotient, power) are
those of `Float`.

`rank` orders the doubles that are numbers: both zeros have rank 0, and one number is below another
exactly when its rank is. -/

namespace ResumableVM.Binary64

/-- The sign bit. -/
def signBit : Nat := 0x8000000000000000

/-- The lowest bit of the exponent. In a significand it is the leading bit, which is not stored. -/
def exponentBit : Nat := 0x10000000000000

/-- The bits without the sign. -/
def magnitude (x : Float) : Nat := x.toBits.toNat % signBit

/-- The sign bit is set. -/
def isNegative (x : Float) : Bool := signBit ≤ x.toBits.toNat

/-- The magnitude of an infinity. -/
def infinityBits : Nat := 0x7FF0000000000000

/-- Not a number. -/
def isNaN (x : Float) : Bool := infinityBits < magnitude x

/-- An infinity of either sign. -/
def isInfinite (x : Float) : Bool := magnitude x == infinityBits

/-- Neither an infinity nor a NaN. -/
def isFinite (x : Float) : Bool := magnitude x < infinityBits

/-- A zero of either sign. -/
def isZero (x : Float) : Bool := magnitude x == 0

/-- The signed magnitude, which orders the numbers. -/
def rank (x : Float) : Int := if isNegative x then -(magnitude x : Int) else magnitude x

/-- Equality of numbers: the zeros are equal, a NaN equals nothing. -/
def equal (x y : Float) : Bool := !isNaN x && !isNaN y && rank x == rank y

/-- Order of two numbers; a NaN is unordered. -/
def compare? (x y : Float) : Option Ordering :=
  if isNaN x || isNaN y then none else some (Ord.compare (rank x) (rank y))

/-- Whether `x < y` as numbers. -/
def less (x y : Float) : Bool := compare? x y == some .lt

/-- The significand of a finite double. -/
def significand (x : Float) : Nat :=
  let field : Nat := magnitude x / exponentBit
  if field = 0 then magnitude x else magnitude x % exponentBit + exponentBit

/-- The exponent of a finite double. -/
def exponent (x : Float) : Int :=
  let field : Nat := magnitude x / exponentBit
  if field = 0 then -1074 else (field : Int) - 1075

/-- The double of the given sign and magnitude `m * 2 ^ e`, for a magnitude that some finite double
has. -/
def ofScaled (negative : Bool) (m : Nat) (e : Int) : Float :=
  let sign := if negative then signBit else 0
  if m = 0 then Float.ofBits (UInt64.ofNat sign)
  else
    let target := max (e + m.log2 - 52) (-1074)
    let shifted := if target ≤ e then m <<< (e - target).toNat else m >>> (target - e).toNat
    let bits :=
      if shifted < exponentBit then shifted
      else (target + 1075).toNat * exponentBit + (shifted - exponentBit)
    Float.ofBits (UInt64.ofNat (sign + bits))

/-- Not a number, as the invalid operations yield it. -/
def nan : Float := Float.ofBits 0x7FF8000000000000

/-- The integer that a finite double is, if it is one. -/
def toInt? (x : Float) : Option Int :=
  if !isFinite x then none
  else
    let m := significand x
    let e := exponent x
    let signed (n : Nat) : Int := if isNegative x then -(n : Int) else n
    if 0 ≤ e then some (signed (m <<< e.toNat))
    else
      let unit := 1 <<< (-e).toNat
      if m % unit = 0 then some (signed (m / unit)) else none

/-- The 64-bit integer that a double is exactly. -/
def toInt64? (x : Float) : Option Int64 := (toInt? x).bind signedWord?

/-- The double nearest to a 64-bit integer, ties to even. -/
def ofInt64 (n : Int64) : Float := Float.ofInt n.toInt

/-- The remainder of truncated division, exactly; it has the sign of `x`. -/
def remainder (x y : Float) : Float :=
  if isNaN x || isNaN y || isInfinite x || isZero y then nan
  else if isInfinite y then x
  else
    let e := min (exponent x) (exponent y)
    let m := significand x <<< (exponent x - e).toNat
    let n := significand y <<< (exponent y - e).toNat
    ofScaled (isNegative x) (m % n) e

end ResumableVM.Binary64
