import ResumableVM.Proofs.Shapes

/-! # PointwiseComparison: comparing value sequences

Two shapes are compared position by position: incomparable if they are at some position, otherwise
as at the first where they differ, and otherwise as their tails. The tails compare as the fillers
do, so the comparison is that of all positions up to the first behind both runs, and `summary` says
how the outcomes at these positions make one (`comparePointwise_eq`). What it does to the outcomes
it does to the comparison: it turns with them (`summary_map_reverse`), is one of them
(`summary_cases`), and is equal only if all are (`summary_eq_equal_iff`). -/

namespace ResumableVM

namespace Comparison

/-- **The outcome of a row of comparisons**: incomparable if some outcome is, otherwise the first
that is not equal. -/
def summary (outcomes : List Comparison) : Comparison :=
  if outcomes.contains .incomparable then .incomparable
  else (outcomes.find? (· != .equal)).getD .equal

variable {outcomes : List Comparison}

theorem summary_of_not_mem (h : incomparable ∉ outcomes) :
    summary outcomes = (outcomes.find? (· != .equal)).getD .equal := by
  rw [summary, if_neg (by simpa using h)]

/-- A last outcome matters where all others are equal. -/
theorem summary_concat {c : Comparison} (hc : c ≠ .incomparable) :
    summary (outcomes ++ [c]) =
      if outcomes.contains .incomparable then .incomparable
      else (outcomes.find? (· != .equal)).getD c := by
  have hcontains : (outcomes ++ [c]).contains .incomparable = outcomes.contains .incomparable := by
    simp [hc.symm]
  rw [summary, hcontains, List.find?_append]
  split
  · rfl
  · cases outcomes.find? (· != .equal) with
    | some d => rfl
    | none => cases c <;> rfl

/-- The summary is one of the outcomes, if there are any. -/
theorem summary_cases (outcomes : List Comparison) :
    summary outcomes = .equal ∨ summary outcomes ∈ outcomes := by
  by_cases h : incomparable ∈ outcomes
  · have hsummary : summary outcomes = .incomparable := if_pos (by simpa using h)
    exact .inr (hsummary ▸ h)
  · rw [summary_of_not_mem h]
    cases hfind : outcomes.find? (· != .equal) with
    | none => exact .inl rfl
    | some c => exact .inr (List.mem_of_find?_eq_some hfind)

theorem summary_eq_incomparable_iff :
    summary outcomes = .incomparable ↔ incomparable ∈ outcomes := by
  constructor
  · intro h
    rcases summary_cases outcomes with hequal | hmem
    · rw [h] at hequal
      cases hequal
    · exact h ▸ hmem
  · exact fun h => if_pos (by simpa using h)

theorem summary_eq_equal_iff : summary outcomes = .equal ↔ ∀ c ∈ outcomes, c = .equal := by
  constructor
  · intro h
    have hcomparable : incomparable ∉ outcomes := fun hmem => by
      rw [summary_eq_incomparable_iff.mpr hmem] at h
      cases h
    rw [summary_of_not_mem hcomparable] at h
    cases hfind : outcomes.find? (· != .equal) with
    | none => simpa using hfind
    | some c =>
      -- The first that is not equal would be the outcome.
      rw [hfind, Option.getD_some] at h
      have := List.find?_some hfind
      simp [h] at this
  · intro h
    rcases summary_cases outcomes with hequal | hmem
    · exact hequal
    · exact h _ hmem

theorem reverse_eq_iff {c d : Comparison} : c.reverse = d ↔ c = d.reverse :=
  ⟨fun h => h ▸ (reverse_reverse c).symm, fun h => h ▸ reverse_reverse d⟩

/-- **When all outcomes are turned round, so is the summary.** -/
theorem summary_map_reverse (outcomes : List Comparison) :
    summary (outcomes.map reverse) = (summary outcomes).reverse := by
  have hmem : incomparable ∈ outcomes.map reverse ↔ incomparable ∈ outcomes := by
    simp only [List.mem_map, reverse_eq_iff]
    exact ⟨fun ⟨c, hc, h⟩ => (show c = incomparable from h) ▸ hc, fun h => ⟨_, h, rfl⟩⟩
  by_cases h : incomparable ∈ outcomes
  · rw [summary_eq_incomparable_iff.mpr h, summary_eq_incomparable_iff.mpr (hmem.mpr h)]
    rfl
  · have htest : ((· != .equal) ∘ reverse : Comparison → Bool) = (· != .equal) := by
      funext c
      cases c <;> rfl
    rw [summary_of_not_mem h, summary_of_not_mem (mt hmem.mp h), List.find?_map, htest]
    cases outcomes.find? (· != .equal) <;> rfl

end Comparison

namespace ValueType

variable {s t : ValueType}

theorem isSubtypeOf_antisymm (h : s.isSubtypeOf t = true) (h' : t.isSubtypeOf s = true) :
    s = t := by
  rcases isSubtypeOf_iff.mp h with rfl | rfl | ⟨rfl, rfl | rfl⟩
  · rfl
  · -- nothing stands above the root
    rcases isSubtypeOf_iff.mp h' with heq | heq | ⟨-, heq | heq⟩
    · exact heq.symm
    · exact heq
    · cases heq
    · cases heq
  · cases h'
  · cases h'

theorem compare_eq_equal_iff : s.compare t = .equal ↔ s = t := by
  unfold compare
  split
  · simp [*]
  · repeat' split
    all_goals simp [*]

theorem compare_of_isSubtypeOf (h : s.isSubtypeOf t = true) :
    s.compare t = .equal ∨ s.compare t = .lesser := by
  unfold compare
  rw [if_pos h]
  split
  · exact .inl rfl
  · exact .inr rfl

theorem compare_eq_incomparable_iff :
    s.compare t = .incomparable ↔ s.isSubtypeOf t = false ∧ t.isSubtypeOf s = false := by
  unfold compare
  split
  · next h => simp [h, isSubtypeOf_refl]
  · repeat' split
    all_goals simp [*]

/-- **Comparing the other way round** turns the outcome round. -/
theorem compare_eq_reverse (s t : ValueType) : s.compare t = (t.compare s).reverse := by
  unfold compare
  by_cases heq : s = t
  · simp [heq, Comparison.reverse]
  · have hne : t ≠ s := Ne.symm heq
    cases hst : s.isSubtypeOf t <;> cases hts : t.isSubtypeOf s
    case true.true => exact absurd (isSubtypeOf_antisymm hst hts) heq
    all_goals simp [heq, hne, Comparison.reverse]

end ValueType

namespace TypeSeq

open Comparison

variable {a b : TypeSeq}

/-- The outcomes at all positions up to the first behind both runs. -/
def outcomes (a b : TypeSeq) : List Comparison :=
  (List.range (span a b + 1)).map fun i => (a.get i).compare (b.get i)

/-- The tails compare as the fillers do. -/
theorem compareTails_eq : compareTails a b = a.filler.compare b.filler := by
  unfold compareTails filler
  cases a.hasTail <;> cases b.hasTail <;> rfl

/-- **What the outcomes have in common** the comparisons of all positions have. -/
theorem forall_mem_outcomes_iff {P : Comparison → Prop} :
    (∀ c ∈ outcomes a b, P c) ↔ ∀ i, P ((a.get i).compare (b.get i)) := by
  rw [forall_get_iff (P := fun s t => P (s.compare t))]
  obtain ⟨ha, hb⟩ := get_of_span_le (le_refl (span a b))
  simp only [outcomes, List.forall_mem_map, List.mem_range, Nat.lt_succ_iff_lt_or_eq, or_imp,
    forall_and, forall_eq, ha, hb]

/-- **Comparing shapes sums up the comparisons of all positions.** -/
theorem comparePointwise_eq (a b : TypeSeq) : a.comparePointwise b = summary (outcomes a b) := by
  have hrun : (sideBySide a b).map (fun p => p.1.compare p.2) =
      (List.range (span a b)).map fun i => (a.get i).compare (b.get i) := by
    rw [sideBySide_eq, List.map_map]
    rfl
  have htail : (a.get (span a b)).compare (b.get (span a b)) = compareTails a b := by
    obtain ⟨ha, hb⟩ := get_of_span_le (le_refl (span a b))
    rw [ha, hb, compareTails_eq]
  have hcomparable : compareTails a b ≠ .incomparable := by
    unfold compareTails
    split <;> simp
  rw [outcomes, List.range_succ, List.map_append, List.map_singleton, htail,
    summary_concat hcomparable, ← hrun]
  rfl

theorem comparePointwise_eq_reverse (a b : TypeSeq) :
    a.comparePointwise b = (b.comparePointwise a).reverse := by
  have hturned : outcomes a b = (outcomes b a).map reverse := by
    rw [outcomes, outcomes, List.map_map, span, span, max_comm]
    exact List.map_congr_left fun i _ => ValueType.compare_eq_reverse _ _
  rw [comparePointwise_eq, comparePointwise_eq, hturned, summary_map_reverse]

/-- A shape that is subsumed is equal or lesser. -/
theorem comparePointwise_of_isSubsumedBy (h : a.isSubsumedBy b = true) :
    a.comparePointwise b = .equal ∨ a.comparePointwise b = .lesser := by
  have hall : ∀ c ∈ outcomes a b, c = .equal ∨ c = .lesser :=
    forall_mem_outcomes_iff.mpr fun i =>
      ValueType.compare_of_isSubtypeOf (isSubsumedBy_iff.mp h i)
  rw [comparePointwise_eq]
  rcases summary_cases (outcomes a b) with hequal | hmem
  · exact .inl hequal
  · exact hall _ hmem

theorem comparePointwise_eq_equal_iff :
    a.comparePointwise b = .equal ↔ a.isSubsumedBy b = true ∧ b.isSubsumedBy a = true := by
  rw [comparePointwise_eq, summary_eq_equal_iff, forall_mem_outcomes_iff (P := (· = .equal)),
    isSubsumedBy_iff, isSubsumedBy_iff]
  simp only [ValueType.compare_eq_equal_iff]
  constructor
  · intro h
    exact ⟨fun i => h i ▸ ValueType.isSubtypeOf_refl _, fun i => h i ▸ ValueType.isSubtypeOf_refl _⟩
  · rintro ⟨hab, hba⟩ i
    exact ValueType.isSubtypeOf_antisymm (hab i) (hba i)

theorem comparePointwise_eq_incomparable_iff :
    a.comparePointwise b = .incomparable ↔
      ∃ i, (a.get i).compare (b.get i) = .incomparable := by
  have hforall := forall_mem_outcomes_iff (a := a) (b := b) (P := (· ≠ .incomparable))
  rw [comparePointwise_eq, summary_eq_incomparable_iff, ← not_iff_not, not_exists, ← hforall]
  exact ⟨fun h c hc heq => h (heq ▸ hc), fun h hmem => h _ hmem rfl⟩

/-! ### The main result -/

/-- **Comparison agrees with subsumption**, and with itself the other way round. A shape that is
subsumed is equal or lesser, and one that subsumes is equal or greater; equal are the shapes that
subsume each other; and shapes are incomparable exactly if they are so at some position, in the runs
or past them. -/
theorem comparison_agrees (a b : TypeSeq) :
    a.comparePointwise b = (b.comparePointwise a).reverse ∧
    (a.isSubsumedBy b = true → a.comparePointwise b = .equal ∨ a.comparePointwise b = .lesser) ∧
    (b.isSubsumedBy a = true → a.comparePointwise b = .equal ∨ a.comparePointwise b = .greater) ∧
    (a.comparePointwise b = .equal ↔ a.isSubsumedBy b = true ∧ b.isSubsumedBy a = true) ∧
    (a.comparePointwise b = .incomparable ↔
      ∃ i, (a.get i).isSubtypeOf (b.get i) = false ∧ (b.get i).isSubtypeOf (a.get i) = false) := by
  refine ⟨comparePointwise_eq_reverse a b, comparePointwise_of_isSubsumedBy, fun h => ?_,
    comparePointwise_eq_equal_iff, ?_⟩
  · rw [comparePointwise_eq_reverse]
    rcases comparePointwise_of_isSubsumedBy h with h | h <;> rw [h]
    · exact .inl rfl
    · exact .inr rfl
  · simp only [comparePointwise_eq_incomparable_iff, ValueType.compare_eq_incomparable_iff]

/-- The first difference decides only if no later position is incomparable: behind the shorter run
stands nil, which no string is. -/
example : comparePointwise (.ofList [.integer]) (.ofList [.number]) = .lesser ∧
    comparePointwise (.ofList [.integer]) (.ofList [.number, .string]) = .incomparable := by
  decide

end TypeSeq

end ResumableVM
