import ResumableVM.Types.ValueType

/-! # TypeSeq: static shapes of value sequences

A shape describes something that yields zero or more values: arguments, results, or the registers of
a procedure. It is a fixed run of types and a flag that says whether any number of further values of
any type may follow. Reading past the run gives `any` when more may follow and `nil` otherwise, as a
missing value is observed when the program runs.

`get` is the view of a shape: every operation below looks at the two shapes position by position as
far as the longer run, and settles all later positions by the two flags. -/

namespace ResumableVM

/-- Static shape of a sequence of values. -/
structure TypeSeq where
  /-- Types of the leading values. -/
  fixed : List ValueType
  /-- Further values may follow. -/
  hasTail : Bool
deriving DecidableEq, Repr, Inhabited

namespace TypeSeq

/-- No values. -/
def empty : TypeSeq := ⟨[], false⟩

/-- Any number of values of any type. -/
def vararg : TypeSeq := ⟨[], true⟩

/-- Exactly these values. -/
def ofList (ts : List ValueType) : TypeSeq := ⟨ts, false⟩

/-- The same run, with more values allowed after it. -/
def withTail (a : TypeSeq) : TypeSeq := { a with hasTail := true }

/-- Nothing is known but that values may follow. -/
def isTailOnly (a : TypeSeq) : Bool := a.fixed.isEmpty && a.hasTail

/-- The number of values, when it is known. -/
def exactLength? (a : TypeSeq) : Option Nat := if a.hasTail then none else some a.fixed.length

/-- The type of every position past the fixed run. -/
def filler (a : TypeSeq) : ValueType := if a.hasTail then .any else .nil

/-- The type at a position. -/
def get (a : TypeSeq) (i : Nat) : ValueType := a.fixed[i]?.getD a.filler

/-- The run of a shape, continued to a length. -/
def padded (a : TypeSeq) (n : Nat) : List ValueType :=
  a.fixed ++ List.replicate (n - a.fixed.length) a.filler

/-- The types of two shapes side by side, as far as the longer run. -/
def sideBySide (a b : TypeSeq) : List (ValueType × ValueType) :=
  let n := max a.fixed.length b.fixed.length
  (a.padded n).zip (b.padded n)

/-- Every sequence of shape `a` has shape `b`. -/
def isSubsumedBy (a b : TypeSeq) : Bool :=
  (sideBySide a b).all (fun (s, t) => s.isSubtypeOf t) && (b.hasTail || !a.hasTail)

/-- Least upper bound. -/
def join (a b : TypeSeq) : TypeSeq :=
  ⟨(sideBySide a b).map fun (s, t) => s.join t, a.hasTail || b.hasTail⟩

/-- Greatest lower bound; there is none when some position has none. -/
def meet? (a b : TypeSeq) : Option TypeSeq := do
  let fixed ← (sideBySide a b).mapM fun (s, t) => s.meet? t
  pure ⟨fixed, a.hasTail && b.hasTail⟩

/-- Comparison of the two tails alone. -/
def compareTails (a b : TypeSeq) : Comparison :=
  match a.hasTail, b.hasTail with
  | true, false => .greater
  | false, true => .lesser
  | _, _ => .equal

/-- Pointwise comparison: incomparable if some position is, otherwise as the first position that
differs says; when none differs, as the tails say. -/
def comparePointwise (a b : TypeSeq) : Comparison :=
  let outcomes := (sideBySide a b).map fun (s, t) => s.compare t
  if outcomes.contains .incomparable then .incomparable
  else (outcomes.find? (· != .equal)).getD (compareTails a b)

/-- Gradual consistency, position by position; the tails must agree. -/
def isConsistentWith (a b : TypeSeq) : Bool :=
  (sideBySide a b).all (fun (s, t) => s.isConsistentWith t) && a.hasTail == b.hasTail

/-- Gradual subtyping, position by position. -/
def isConsistentSubtypeOf (a b : TypeSeq) : Bool :=
  (sideBySide a b).all (fun (s, t) => s.isConsistentSubtypeOf t) && (b.hasTail || !a.hasTail)

/-- The shape with the type at one position of its run replaced. -/
def set (a : TypeSeq) (i : Nat) (t : ValueType) : TypeSeq := { a with fixed := a.fixed.set i t }

/-- The compact signature: a letter for each type, and `+` when more values may follow. -/
def display (a : TypeSeq) : String :=
  String.ofList (a.fixed.map ValueType.tag ++ if a.hasTail then ['+'] else [])

theorem get_of_length_le (a : TypeSeq) {i : Nat} (h : a.fixed.length ≤ i) : a.get i = a.filler := by
  simp [get, List.getElem?_eq_none h]

theorem length_padded (a : TypeSeq) {n : Nat} (h : a.fixed.length ≤ n) :
    (a.padded n).length = n := by
  simp [padded]; omega

theorem getElem?_padded (a : TypeSeq) {i n : Nat} (h : i < n) :
    (a.padded n)[i]? = some (a.get i) := by
  simp only [padded, List.getElem?_append, List.getElem?_replicate, get]
  split <;> simp_all

/-- Both shapes are looked at position by position. -/
theorem sideBySide_eq (a b : TypeSeq) :
    sideBySide a b =
      (List.range (max a.fixed.length b.fixed.length)).map fun i => (a.get i, b.get i) := by
  apply List.ext_getElem?
  intro i
  by_cases h : i < max a.fixed.length b.fixed.length
  · simp [sideBySide, List.getElem?_zip_eq_some, getElem?_padded, h]
  · have ha := length_padded a (Nat.le_max_left a.fixed.length b.fixed.length)
    have hb := length_padded b (Nat.le_max_right a.fixed.length b.fixed.length)
    rw [List.getElem?_eq_none, List.getElem?_eq_none] <;> simp [sideBySide, ha, hb] <;> omega

theorem get_join (a b : TypeSeq) {i : Nat} (h : i < max a.fixed.length b.fixed.length) :
    (a.join b).get i = (a.get i).join (b.get i) := by
  simp [join, get, sideBySide_eq, h]

end TypeSeq

end ResumableVM
