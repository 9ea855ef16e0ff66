import ResumableVM.Numeric.Layout
import ResumableVM.Numeric.Numeral
import ResumableVM.Text.Blank
import ResumableVM.Value.Basic

/-! # Number: values as numbers

Integers and floats are two representations of one kind. An integer and a float are equal when the
float is exactly that integer; a string that spells a number converts to it. -/

namespace ResumableVM

/-- A number in one of its two representations. -/
inductive Number where
  | integer (n : Int64)
  | float (x : Float)
deriving DecidableEq

namespace Number

/-- The number as a double, rounded to nearest. -/
def toFloat : Number → Float
  | integer n => Binary64.ofInt64 n
  | float x => x

/-- The integer that the number is exactly. -/
def toInt64? : Number → Option Int64
  | integer n => some n
  | float x => Binary64.toInt64? x

/-- The number as a value. -/
def toValue : Number → Value
  | integer n => .integer n
  | float x => .float x

/-- A letter that no decimal numeral has. -/
def isForeignLetter (c : Char) : Bool := c.isAlpha && !Numeral.isExponentMark c

/-- The number that a string spells: blanks around it are skipped, `0x` announces the digits of a
64-bit word, an integer in range is one, and any other decimal numeral is a float. The words for
infinities and NaN are no numerals here. -/
def ofString? (s : String) : Option Number :=
  let decimal (cs : List Char) : Option Number :=
    match Numeral.integer64? cs with
    | some n => some (integer n)
    | none => if cs.any isForeignLetter then none else (Numeral.float? cs).map float
  match Blank.trim s.toList with
  | '0' :: 'x' :: digits | '0' :: 'X' :: digits =>
    (Numeral.hexadecimal? digits).map fun w => integer w.toInt64
  | cs => decimal cs

end Number

namespace Value

/-- The value as a number; strings that spell one are converted. -/
def toNumber? : Value → Option Number
  | integer n => some (.integer n)
  | float x => some (.float x)
  | string s => Number.ofString? s
  | _ => none

/-- The integer that the value represents exactly. -/
def toInt64? (v : Value) : Option Int64 := v.toNumber?.bind Number.toInt64?

/-- Primitive equality: numbers by value, strings by content, objects by identity. -/
def rawEquals : Value → Value → Bool
  | float x, float y => Binary64.equal x y
  | integer n, float x | float x, integer n => Binary64.toInt64? x == some n
  | v, w => v == w

/-- The text of a value. Objects are shown by their place in the store. -/
def display : Value → String
  | nil => "nil"
  | boolean b => if b then "true" else "false"
  | integer n => integerText n.toInt
  | float x => displayText x
  | string s => s
  | table id => "table: " ++ naturalText id.index
  | function (.closure id) => "function: " ++ naturalText id.index
  | function (.routine id) => "builtin: #" ++ naturalText id.index

end Value

end ResumableVM
