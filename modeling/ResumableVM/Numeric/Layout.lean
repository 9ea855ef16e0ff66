import ResumableVM.Numeric.Shortest

/-! # Layout: how a decimal is written out

A decimal is a row of digits with a point somewhere before, inside or after it. `Layout.plain`
writes it positionally and `Layout.scientific` with an exponent; `displayText` and `documentText`
are the two texts of a double, one for messages and one for documents. -/

namespace ResumableVM

/-- Decimal digits of a natural number. -/
def naturalText (n : Nat) : String := String.ofList (Nat.toDigits 10 n)

/-- Decimal digits of an integer, with a minus sign where needed. -/
def integerText (n : Int) : String :=
  if n < 0 then "-" ++ naturalText n.natAbs else naturalText n.natAbs

namespace Layout

/-- A row of `count` zeros. -/
def zeros (count : Nat) : List Char := List.replicate count '0'

/-- Positional notation, with no point after a whole number. -/
def plain (d : Decimal) : List Char :=
  let row := Nat.toDigits 10 d.digits
  if 0 ≤ d.exponent then row ++ zeros d.exponent.toNat
  else
    let places := (-d.exponent).toNat
    if places < row.length then
      row.take (row.length - places) ++ '.' :: row.drop (row.length - places)
    else '0' :: '.' :: zeros (places - row.length) ++ row

/-- The exponent of the leading digit. -/
def leadingExponent (d : Decimal) : Int := d.exponent + (Nat.toDigits 10 d.digits).length - 1

/-- One digit, the rest after a point, and an exponent with its sign. -/
def scientific (d : Decimal) : List Char :=
  let e := leadingExponent d
  let sign := if e < 0 then '-' else '+'
  let mantissa := match Nat.toDigits 10 d.digits with
    | c :: c' :: rest => c :: '.' :: c' :: rest
    | row => row
  mantissa ++ 'e' :: sign :: Nat.toDigits 10 e.natAbs

/-- A plain number that shows it is not an integer. -/
def plainWithPoint (d : Decimal) : List Char :=
  plain d ++ if 0 ≤ d.exponent then ['.', '0'] else []

end Layout

/-- A minus sign where the sign bit is set. -/
def signText (x : Float) : List Char := if Binary64.isNegative x then ['-'] else []

/-- The text of a double in messages: whole numbers in full and with `.0`, other numbers by their
shortest digits and never with an exponent; of two shortest decimals the upper wins a tie. -/
def displayText (x : Float) : String :=
  if Binary64.isNaN x then "NaN"
  else if Binary64.isInfinite x then String.ofList (signText x ++ ['i', 'n', 'f'])
  else match Binary64.toInt? x with
    | some n => String.ofList (signText x ++ Nat.toDigits 10 n.natAbs ++ ['.', '0'])
    | none => String.ofList (signText x ++ Layout.plain (Shortest.digits .upward x))

/-- The text of a finite double in documents: the shortest digits, positional while the leading
digit stands between the fifth place after the point and the sixteenth before it; a tie goes to the
even digit. -/
def documentText (x : Float) : String :=
  if Binary64.isZero x then String.ofList (signText x ++ ['0', '.', '0'])
  else
    let d := Shortest.digits .toEven x
    let e := Layout.leadingExponent d
    String.ofList (signText x ++
      if -5 ≤ e ∧ e ≤ 15 then Layout.plainWithPoint d else Layout.scientific d)

end ResumableVM
