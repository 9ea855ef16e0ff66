import ResumableVM.Numeric.Binary64

/-! # Shortest: the fewest decimal digits that name a double

A positive double is the only one inside an interval of reals, the reals that round to it; the ends
belong to the interval when the significand is even. `Shortest.digits` tries one digit, two digits,
and so on. On each decimal grid it looks at the two neighbours of the value: the first grid with a
neighbour inside the interval wins, of two such neighbours the nearer. What happens at an exact tie
is for the caller to say.

All quantities are multiples of a quarter of the last place, given as fractions of naturals, so the
search is exact. -/

namespace ResumableVM

/-- What is taken when two neighbours are equally near. -/
inductive TieRule where
  | toEven
  | upward
deriving DecidableEq, Repr

/-- The decimal `digits * 10 ^ exponent`. -/
structure Decimal where
  digits : Nat
  exponent : Int
deriving DecidableEq, Repr

namespace Shortest

/-- A positive value with the ends of the interval of reals that round to it, as numerators over one
denominator. -/
structure Interval where
  value : Nat
  low : Nat
  high : Nat
  denominator : Nat
  /-- The ends themselves round to the value. -/
  closed : Bool

/-- The interval of a positive finite double. -/
def intervalOf (x : Float) : Interval :=
  let m := Binary64.significand x
  let e := Binary64.exponent x - 2
  let below := if m = Binary64.exponentBit ∧ -1074 < Binary64.exponent x then 1 else 2
  let scale := 1 <<< e.toNat
  ⟨4 * m * scale, (4 * m - below) * scale, (4 * m + 2) * scale, 1 <<< (-e).toNat, m % 2 == 0⟩

/-- The power `10 ^ k` as a numerator and a denominator. -/
def powerOfTen (k : Int) : Nat × Nat := (Nat.pow 10 k.toNat, Nat.pow 10 (-k).toNat)

/-- The power of ten at or below `n / d`: the largest `k` of those near the estimate with
`10 ^ k ≤ n / d`. -/
def leadingPower (n d : Nat) : Int :=
  let estimate := ((n.log2 : Int) - d.log2) * 30103 / 100000
  let fits (k : Int) : Bool := (powerOfTen k).1 * d ≤ n * (powerOfTen k).2
  if fits (estimate + 1) then estimate + 1
  else if fits estimate then estimate
  else if fits (estimate - 1) then estimate - 1
  else estimate - 2

/-- The candidate on the grid of multiples of `10 ^ k`, if one of the value's neighbours there lies
in the interval. -/
def onGrid? (tie : TieRule) (i : Interval) (k : Int) : Option Nat :=
  let (up, down) := powerOfTen k
  -- in units of `up / down` the value is `value * down / (denominator * up)`
  let unit := i.denominator * up
  let lower := i.value * down / unit
  let inside (c : Nat) : Bool :=
    let scaled := c * unit
    if i.closed then i.low * down ≤ scaled && scaled ≤ i.high * down
    else i.low * down < scaled && scaled < i.high * down
  let beyond := 2 * (i.value * down - lower * unit)
  match inside lower && lower != 0, inside (lower + 1) with
  | true, false => some lower
  | false, true => some (lower + 1)
  | false, false => none
  | true, true =>
    if beyond < unit then some lower
    else if unit < beyond then some (lower + 1)
    else match tie with
      | .toEven => some (if lower % 2 = 0 then lower else lower + 1)
      | .upward => some (lower + 1)

/-- The digits without zeros at the end. -/
def trim : Nat → Decimal → Decimal
  | 0, d => d
  | fuel + 1, d =>
    if d.digits % 10 = 0 ∧ d.digits ≠ 0 then trim fuel ⟨d.digits / 10, d.exponent + 1⟩ else d

/-- The shortest decimal that names a positive finite double. Seventeen digits always suffice. -/
def digits (tie : TieRule) (x : Float) : Decimal :=
  let i := intervalOf x
  let top := leadingPower i.value i.denominator
  let tryCount (n : Nat) : Option Decimal :=
    (onGrid? tie i (top - n)).map fun c => trim 18 ⟨c, top - n⟩
  ((List.range 18).findSome? tryCount).getD ⟨0, 0⟩

end Shortest

end ResumableVM
