import ResumableVM.Proofs.RoundedIntegers
import ResumableVM.Store.Comparison

/-! # NumberOrder: comparing integers and floats

Two integers are compared as integers. With a float among the operands the comparison is one of
doubles, so an integer is rounded first; equality is that of the exact numbers. The two disagree
about an integer and a float that is the double nearest to it without being it (`Value.Blurred`):
none of the two is less, and they are not equal. Only integers beyond `2 ^ 53` are blurred
(`Value.Blurred.exists_large`).

Everywhere else the order of numbers is total and agrees with equality
(`Store.numbers_ordered_unless_blurred`). Rounding keeps the order, so `<` is transitive whatever is
blurred; `≤` is not. -/

namespace ResumableVM

namespace Value

/-- The numbers that can be compared: integers, and floats other than NaN. -/
inductive IsNumber : Value → Prop
  | integer (n : Int64) : IsNumber (.integer n)
  | float {x : Float} (h : Binary64.isNaN x = false) : IsNumber (.float x)

/-- The rank of the double of a number. -/
def rank : Value → Int
  | .integer n => Binary64.rank (Binary64.ofInt64 n)
  | .float x => Binary64.rank x
  | _ => 0

/-- Order of two numbers: integers exactly, others by their doubles. -/
def compareNumbers : Value → Value → Ordering
  | .integer m, .integer n => compare m.toInt n.toInt
  | a, b => compare a.rank b.rank

/-- An integer and a float that is the double of it, but another number. -/
def Blurred : Value → Value → Prop
  | .integer n, .float x | .float x, .integer n =>
    Binary64.rank (Binary64.ofInt64 n) = Binary64.rank x ∧ Binary64.toInt64? x ≠ some n
  | _, _ => False

variable {a b c : Value}

theorem Blurred.symm (h : Blurred a b) : Blurred b a := by
  cases a <;> cases b <;> exact h

/-- The doubles of integers up to `2 ^ 53` are these integers. -/
theorem Blurred.exists_large (h : Blurred a b) :
    ∃ n : Int64, (a = .integer n ∨ b = .integer n) ∧ 2 ^ 53 < n.toInt.natAbs := by
  have hlarge {n : Int64} {x : Float} (hrank : Binary64.rank (Binary64.ofInt64 n) = Binary64.rank x)
      (hne : Binary64.toInt64? x ≠ some n) : 2 ^ 53 < n.toInt.natAbs := by
    by_contra hsmall
    refine hne ?_
    rw [← Binary64.toInt64?_eq_of_rank_eq hrank]
    exact Binary64.toInt64?_ofInt64 (Nat.not_lt.1 hsmall)
  unfold Blurred at h
  split at h
  · next n x => exact ⟨n, .inl rfl, hlarge h.1 h.2⟩
  · next x n => exact ⟨n, .inr rfl, hlarge h.1 h.2⟩
  · exact h.elim

/-- A larger integer has no smaller double. -/
theorem rank_integer_le {m n : Int64} (h : m.toInt ≤ n.toInt) :
    rank (.integer m) ≤ rank (.integer n) :=
  Binary64.rank_ofInt64_le h

theorem compareNumbers_swap (ha : a.IsNumber) (hb : b.IsNumber) :
    compareNumbers b a = (compareNumbers a b).swap := by
  have hswap (i j : Int) : compare j i = (compare i j).swap := Std.OrientedCmp.eq_swap
  rcases ha with m | hx <;> rcases hb with n | hy <;> exact hswap _ _

/-- The order goes by the doubles, and among integers of the same double by the integers. -/
theorem compareNumbers_eq_lt_iff (ha : a.IsNumber) (hb : b.IsNumber) :
    compareNumbers a b = .lt ↔
      a.rank < b.rank ∨ ∃ m n : Int64, a = .integer m ∧ b = .integer n ∧ m.toInt < n.toInt := by
  rcases ha with m | hx <;> rcases hb with n | hy
  · have hmono := fun h => rank_integer_le (m := n) (n := m) h
    simp only [compareNumbers, Int.compare_eq_lt, integer.injEq]
    constructor
    · exact fun h => .inr ⟨m, n, rfl, rfl, h⟩
    · rintro (h | ⟨m, n, rfl, rfl, h⟩)
      · omega
      · exact h
  all_goals simp [compareNumbers, Int.compare_eq_lt]

theorem compareNumbers_eq_gt_iff (ha : a.IsNumber) (hb : b.IsNumber) :
    compareNumbers a b = .gt ↔ compareNumbers b a = .lt := by
  rw [compareNumbers_swap ha hb, Ordering.swap_eq_lt]

theorem compareNumbers_lt_trans (ha : a.IsNumber) (hb : b.IsNumber) (hc : c.IsNumber)
    (hab : compareNumbers a b = .lt) (hbc : compareNumbers b c = .lt) :
    compareNumbers a c = .lt := by
  rw [compareNumbers_eq_lt_iff ha hb] at hab
  rw [compareNumbers_eq_lt_iff hb hc] at hbc
  rw [compareNumbers_eq_lt_iff ha hc]
  rcases hab with hab | ⟨m, n, rfl, rfl, hmn⟩
  · rcases hbc with hbc | ⟨m, n, rfl, rfl, hmn⟩
    · exact .inl (hab.trans hbc)
    · exact .inl (hab.trans_le (rank_integer_le hmn.le))
  · rcases hbc with hbc | ⟨n', k, hn, rfl, hnk⟩
    · exact .inl ((rank_integer_le hmn.le).trans_lt hbc)
    · obtain rfl := integer.inj hn
      exact .inr ⟨m, k, rfl, rfl, hmn.trans hnk⟩

/-- What is not blurred keeps the order when equal numbers are allowed: two integers can only change
places where a float between them is the double of both. -/
theorem compareNumbers_le_trans (ha : a.IsNumber) (hb : b.IsNumber) (hc : c.IsNumber)
    (hab : compareNumbers a b ≠ .gt) (hbc : compareNumbers b c ≠ .gt) (hnab : ¬Blurred a b)
    (hnbc : ¬Blurred b c) : compareNumbers a c ≠ .gt := by
  rw [ne_eq, compareNumbers_eq_gt_iff ha hb, compareNumbers_eq_lt_iff hb ha, not_or, not_lt] at hab
  rw [ne_eq, compareNumbers_eq_gt_iff hb hc, compareNumbers_eq_lt_iff hc hb, not_or, not_lt] at hbc
  rw [ne_eq, compareNumbers_eq_gt_iff ha hc, compareNumbers_eq_lt_iff hc ha]
  rintro (hca | ⟨k, m, rfl, rfl, hkm⟩)
  · exact (hab.1.trans hbc.1).not_gt hca
  · have hle := rank_integer_le hkm.le
    cases hb with
    | integer n =>
      have hmn : ¬n.toInt < m.toInt := fun h => hab.2 ⟨n, m, rfl, rfl, h⟩
      have hnk : ¬k.toInt < n.toInt := fun h => hbc.2 ⟨k, n, rfl, rfl, h⟩
      omega
    | @float x hx =>
      have hm : Binary64.toInt64? x = some m := not_not.1 fun h =>
        hnab ⟨le_antisymm hab.1 (hbc.1.trans hle), h⟩
      have hk : Binary64.toInt64? x = some k := not_not.1 fun h =>
        hnbc ⟨le_antisymm (hle.trans hab.1) hbc.1, h⟩
      obtain rfl := Option.some.inj (hm.symm.trans hk)
      exact hkm.false

theorem Blurred.compareNumbers_eq (h : Blurred a b) : compareNumbers a b = .eq := by
  unfold Blurred at h
  split at h
  · exact Int.compare_eq_eq.2 h.1
  · exact Int.compare_eq_eq.2 h.1.symm
  · exact h.elim

/-- Numbers are equal when neither is less, except where they are blurred. -/
theorem rawEquals_iff_compareNumbers (ha : a.IsNumber) (hb : b.IsNumber) :
    a.rawEquals b = true ↔ compareNumbers a b = .eq ∧ ¬Blurred a b := by
  have hexact {n : Int64} {x : Float} : Binary64.toInt64? x = some n ↔
      Binary64.rank (Binary64.ofInt64 n) = Binary64.rank x ∧
        ¬(Binary64.rank (Binary64.ofInt64 n) = Binary64.rank x ∧
          Binary64.toInt64? x ≠ some n) := by
    have := @Binary64.rank_ofInt64_of_toInt64? x n
    tauto
  cases ha with
  | integer m =>
    cases hb with
    | integer n => simp [rawEquals, compareNumbers, Blurred, Int64.toInt_inj]
    | @float y hy =>
      simp only [rawEquals, compareNumbers, rank, beq_iff_eq, Int.compare_eq_eq, Blurred]
      exact hexact
  | @float x hx =>
    cases hb with
    | integer n =>
      simp only [rawEquals, compareNumbers, rank, beq_iff_eq, Int.compare_eq_eq, Blurred]
      exact hexact.trans (and_congr_left fun _ => eq_comm)
    | @float y hy =>
      simp [rawEquals, Binary64.equal, compareNumbers, rank, Blurred, hx, hy]

theorem rawCompare?_eq (ha : a.IsNumber) (hb : b.IsNumber) :
    rawCompare? a b = some (some (compareNumbers a b)) := by
  rcases ha with m | hx <;> rcases hb with n | hy <;>
    simp [rawCompare?, Binary64.compare?, compareNumbers, rank, Binary64.isNaN_ofInt64, *]

end Value

namespace Store

variable (st : Store) {a b c : Value}

theorem order_number (ha : a.IsNumber) (hb : b.IsNumber) (event : Event) :
    st.order a b event = .ok (some (Value.compareNumbers a b)) := by
  rw [order, Value.rawCompare?_eq ha hb]

theorem less_number (ha : a.IsNumber) (hb : b.IsNumber) :
    st.less a b = .ok (decide (Value.compareNumbers a b = .lt)) := by
  rw [less, st.order_number ha hb]
  cases Value.compareNumbers a b <;> rfl

theorem lessEqual_number (ha : a.IsNumber) (hb : b.IsNumber) :
    st.lessEqual a b = .ok (decide (Value.compareNumbers a b ≠ .gt)) := by
  rw [lessEqual, st.order_number ha hb]
  cases Value.compareNumbers a b <;> rfl

theorem equal_number (ha : a.IsNumber) (hb : b.IsNumber) : st.equal a b = .ok (a.rawEquals b) := by
  unfold equal
  cases hraw : a.rawEquals b with
  | true => rfl
  | false => cases ha <;> cases hb <;> rfl

/-- Two numbers that are not blurred are ordered in one way. -/
theorem trichotomy_of_not_blurred (ha : a.IsNumber) (hb : b.IsNumber) (h : ¬a.Blurred b) :
    (st.less a b = .ok true ∧ st.equal a b = .ok false ∧ st.less b a = .ok false) ∨
      (st.less a b = .ok false ∧ st.equal a b = .ok true ∧ st.less b a = .ok false) ∨
      (st.less a b = .ok false ∧ st.equal a b = .ok false ∧ st.less b a = .ok true) := by
  have hswap := Value.compareNumbers_swap ha hb
  have heq : a.rawEquals b = decide (Value.compareNumbers a b = .eq) := by
    rw [Bool.eq_iff_iff, Value.rawEquals_iff_compareNumbers ha hb, decide_eq_true_iff]
    exact and_iff_left h
  rw [st.less_number ha hb, st.less_number hb ha, st.equal_number ha hb, heq, hswap]
  cases Value.compareNumbers a b with
  | lt => exact .inl ⟨rfl, rfl, rfl⟩
  | eq => exact .inr (.inl ⟨rfl, rfl, rfl⟩)
  | gt => exact .inr (.inr ⟨rfl, rfl, rfl⟩)

/-- Two numbers that are blurred are not ordered. -/
theorem unordered_of_blurred (ha : a.IsNumber) (hb : b.IsNumber) (h : a.Blurred b) :
    st.less a b = .ok false ∧ st.equal a b = .ok false ∧ st.less b a = .ok false := by
  have hraw : a.rawEquals b = false :=
    Bool.eq_false_iff.2 fun heq => ((Value.rawEquals_iff_compareNumbers ha hb).1 heq).2 h
  rw [st.less_number ha hb, st.less_number hb ha, st.equal_number ha hb, hraw,
    h.compareNumbers_eq, h.symm.compareNumbers_eq]
  exact ⟨rfl, rfl, rfl⟩

theorem lessEqual_iff (ha : a.IsNumber) (hb : b.IsNumber) :
    st.lessEqual a b = .ok true ↔
      st.less a b = .ok true ∨ st.equal a b = .ok true ∨ a.Blurred b := by
  have heq := Value.rawEquals_iff_compareNumbers ha hb
  have hblurred := @Value.Blurred.compareNumbers_eq a b
  rw [st.lessEqual_number ha hb, st.less_number ha hb, st.equal_number ha hb]
  simp only [Except.ok.injEq, decide_eq_true_eq, heq]
  cases hcmp : Value.compareNumbers a b with
  | lt => simp
  | eq => simp [em']
  | gt =>
    rw [hcmp] at hblurred
    simpa using hblurred

/-- **Numbers are totally ordered unless they are blurred**: of two numbers that are not, exactly one
is less, or they are equal. Of an integer and the float that blurs it none is less and they are not
equal, yet each is at most the other. The relation `<` is always transitive, and `≤` where nothing is
blurred, as nothing up to `2 ^ 53` is. -/
theorem numbers_ordered_unless_blurred (ha : a.IsNumber) (hb : b.IsNumber) (hc : c.IsNumber) :
    (¬a.Blurred b →
      (st.less a b = .ok true ∧ st.equal a b = .ok false ∧ st.less b a = .ok false) ∨
      (st.less a b = .ok false ∧ st.equal a b = .ok true ∧ st.less b a = .ok false) ∨
      (st.less a b = .ok false ∧ st.equal a b = .ok false ∧ st.less b a = .ok true)) ∧
    (a.Blurred b →
      st.less a b = .ok false ∧ st.equal a b = .ok false ∧ st.less b a = .ok false) ∧
    (∃ le, st.lessEqual a b = .ok le ∧
      (le = true ↔ st.less a b = .ok true ∨ st.equal a b = .ok true ∨ a.Blurred b)) ∧
    (st.less a b = .ok true → st.less b c = .ok true → st.less a c = .ok true) ∧
    (st.lessEqual a b = .ok true → st.lessEqual b c = .ok true →
      st.lessEqual a c = .ok true ∨ a.Blurred b ∨ b.Blurred c) ∧
    (a.Blurred b → ∃ n : Int64, (a = .integer n ∨ b = .integer n) ∧ 2 ^ 53 < n.toInt.natAbs) := by
  refine ⟨st.trichotomy_of_not_blurred ha hb, st.unordered_of_blurred ha hb,
    ⟨_, st.lessEqual_number ha hb, ?_⟩, ?_, ?_, Value.Blurred.exists_large⟩
  · rw [← st.lessEqual_iff ha hb, st.lessEqual_number ha hb, Except.ok.injEq]
  · rw [st.less_number ha hb, st.less_number hb hc, st.less_number ha hc]
    simp only [Except.ok.injEq, decide_eq_true_eq]
    exact Value.compareNumbers_lt_trans ha hb hc
  · rw [st.lessEqual_number ha hb, st.lessEqual_number hb hc, st.lessEqual_number ha hc]
    simp only [Except.ok.injEq, decide_eq_true_eq]
    intro hab hbc
    by_cases hblurred : a.Blurred b ∨ b.Blurred c
    · exact .inr hblurred
    · rw [not_or] at hblurred
      exact .inl (Value.compareNumbers_le_trans ha hb hc hab hbc hblurred.1 hblurred.2)

/-- One half is between zero and one. -/
theorem numbers_ordered_one_half :
    Value.IsNumber (.integer 0) ∧ Value.IsNumber (.float (Float.ofBits 0x3FE0000000000000)) ∧
      empty.less (.integer 0) (.float (Float.ofBits 0x3FE0000000000000)) = .ok true ∧
      empty.less (.integer 0) (.integer 1) = .ok true := by
  have hhalf : Value.IsNumber (.float (Float.ofBits 0x3FE0000000000000)) :=
    .float (by decide +kernel)
  have hfirst : empty.less (.integer 0) (.float (Float.ofBits 0x3FE0000000000000)) = .ok true := by
    decide +kernel
  have hlast : empty.less (.float (Float.ofBits 0x3FE0000000000000)) (.integer 1) = .ok true := by
    decide +kernel
  obtain ⟨-, -, -, htrans, -, -⟩ :=
    empty.numbers_ordered_unless_blurred (.integer 0) hhalf (.integer 1)
  exact ⟨.integer 0, hhalf, hfirst, htrans hfirst hlast⟩

/-- `2 ^ 53 + 1` and the float `2 ^ 53` are blurred: no order between them and no equality, though
each is at most the other; and through the float `2 ^ 53 + 1` is at most `2 ^ 53`, which it is not.
-/
theorem not_ordered_above_two_pow :
    empty.less (.integer 9007199254740993) (.float (Float.ofBits 0x4340000000000000)) = .ok false ∧
      empty.equal (.integer 9007199254740993) (.float (Float.ofBits 0x4340000000000000))
        = .ok false ∧
      empty.less (.float (Float.ofBits 0x4340000000000000)) (.integer 9007199254740993)
        = .ok false ∧
      empty.lessEqual (.integer 9007199254740993) (.float (Float.ofBits 0x4340000000000000))
        = .ok true ∧
      empty.lessEqual (.float (Float.ofBits 0x4340000000000000)) (.integer 9007199254740992)
        = .ok true ∧
      empty.lessEqual (.integer 9007199254740993) (.integer 9007199254740992) = .ok false := by
  decide +kernel

end Store

end ResumableVM
