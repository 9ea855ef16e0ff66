import ResumableVM.Error
import ResumableVM.Operator
import ResumableVM.Value.Number

/-! # Arithmetic on numbers

Two integers stay integers and wrap around at 64 bits; with a float among the operands the result is
a float. Quotient and power are always floats. Floor division and the remainder that goes with it
round toward negative infinity, for integers as for floats. -/

namespace ResumableVM

/-- Division rounding down: the truncated quotient, less one when the signs differ and a remainder
is left. -/
def floorDiv (x y : Int64) : Int64 :=
  let q := x / y
  if x % y ≠ 0 ∧ x ^^^ y < 0 then q - 1 else q

/-- The remainder of division rounding down: the truncated remainder, moved to the divisor's side.
-/
def floorMod (x y : Int64) : Int64 :=
  let r := x % y
  if r ≠ 0 ∧ r ^^^ y < 0 then r + y else r

/-- The remainder of floats; it lies on the divisor's side of zero. -/
def floatMod (x y : Float) : Float :=
  if Binary64.isInfinite y && Binary64.isFinite x then
    if !Binary64.less x 0.0 == Binary64.less 0.0 y then x else y
  else
    let r := Binary64.remainder x y
    let isZero := Binary64.isZero r
    if !isZero && Binary64.less r 0.0 != Binary64.less y 0.0 then r + y else r

namespace ArithOp

/-- The operator on two floats. -/
def onFloats (op : ArithOp) (x y : Float) : Float :=
  match op with
  | add => x + y
  | subtract => x - y
  | multiply => x * y
  | divide => x / y
  | modulo => floatMod x y
  | power => x.pow y
  | floorDivide => (x / y).floor
  | negate => -x

/-- The operator on two integers. -/
def onIntegers (op : ArithOp) (x y : Int64) : Except Error Number :=
  match op with
  | add => .ok (.integer (x + y))
  | subtract => .ok (.integer (x - y))
  | multiply => .ok (.integer (x * y))
  | negate => .ok (.integer (-x))
  | floorDivide =>
    if y = 0 then .error (.divisionByZero op.symbol) else .ok (.integer (floorDiv x y))
  | modulo => if y = 0 then .error (.divisionByZero op.symbol) else .ok (.integer (floorMod x y))
  | divide | power => .ok (.float (op.onFloats (Binary64.ofInt64 x) (Binary64.ofInt64 y)))

/-- The operator on two numbers. -/
def apply (op : ArithOp) : Number → Number → Except Error Number
  | .integer x, .integer y => op.onIntegers x y
  | a, b => .ok (.float (op.onFloats a.toFloat b.toFloat))

end ArithOp

/-- Arithmetic without handlers: an answer only when both operands are numbers or spell one. -/
def rawArithmetic? (op : ArithOp) (a b : Value) : Option (Except Error Value) := do
  let x ← a.toNumber?
  let y ← b.toNumber?
  pure ((op.apply x y).map Number.toValue)

/-- The operand to blame when arithmetic is undefined: the first that is no number. -/
def arithmeticCulprit (a b : Value) : Value := if a.toNumber?.isNone then a else b

/-- Order of two numbers or two strings, if the values are such: integers exactly, numbers with a
float among them as floats, strings by their characters. A NaN makes the order undefined. -/
def rawCompare? : Value → Value → Option (Option Ordering)
  | .integer x, .integer y => some (some (compare x.toInt y.toInt))
  | .integer x, .float y => some (Binary64.compare? (Binary64.ofInt64 x) y)
  | .float x, .integer y => some (Binary64.compare? x (Binary64.ofInt64 y))
  | .float x, .float y => some (Binary64.compare? x y)
  | .string s, .string t => some (some (compare s t))
  | _, _ => none

end ResumableVM
