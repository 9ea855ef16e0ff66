/-! # Comparison: outcomes of comparing in a partial order

Two elements of a partial order are equal, one lies below the other, or they are incomparable. -/

namespace ResumableVM

/-- Outcome of comparing two elements of a partially ordered set. -/
inductive Comparison where
  | equal
  | lesser
  | greater
  | incomparable
deriving DecidableEq, Repr, Inhabited

namespace Comparison

/-- The elements are comparable. -/
def isDefined (c : Comparison) : Bool := c != incomparable

/-- The outcome with the two elements exchanged. -/
def reverse : Comparison → Comparison
  | lesser => greater
  | greater => lesser
  | c => c

theorem reverse_reverse (c : Comparison) : c.reverse.reverse = c := by cases c <;> rfl

end Comparison

end ResumableVM
