import ResumableVM.Proofs.Shapes

/-! # Consistency: gradual subtyping of value sequences

The gradual type is consistent with every type, and gradual subtyping is subtyping up to
consistency: on the way from the one type to the other there is a third, consistent with the first
and below the second, or above the first and consistent with the second (`wayBelow`, `wayAbove`).
For shapes both relations are those of the types at every position (`isConsistentWith_iff`,
`isConsistentSubtypeOf_iff`), so the shape on the way is made of the types on the way, position by
position. Past both runs no type is gradual, and the shape has the tail of the one that it is
consistent with. -/

namespace ResumableVM

namespace ValueType

variable {s t u : ValueType}

theorem isConsistentWith_iff : s.isConsistentWith t = true ↔ s = t ∨ s = dynamic ∨ t = dynamic := by
  simp [isConsistentWith, or_assoc]

theorem isConsistentSubtypeOf_iff :
    s.isConsistentSubtypeOf t = true ↔ s = dynamic ∨ t = dynamic ∨ s.isSubtypeOf t = true := by
  simp [isConsistentSubtypeOf, or_assoc]

theorem isConsistentWith_refl (t : ValueType) : t.isConsistentWith t = true :=
  isConsistentWith_iff.mpr (.inl rfl)

theorem isConsistentWith_comm (s t : ValueType) : s.isConsistentWith t = t.isConsistentWith s := by
  rw [Bool.eq_iff_iff, isConsistentWith_iff, isConsistentWith_iff, eq_comm (a := s),
    or_comm (a := s = dynamic)]

/-- Off the gradual type, gradual subtyping is subtyping. -/
theorem isConsistentSubtypeOf_eq (hs : s ≠ dynamic) (ht : t ≠ dynamic) :
    s.isConsistentSubtypeOf t = s.isSubtypeOf t := by
  rw [Bool.eq_iff_iff, isConsistentSubtypeOf_iff]
  simp [hs, ht]

/-! ### Types on the way -/

/-- A type consistent with the first and below the second. -/
def wayBelow (s t : ValueType) : ValueType :=
  if s = dynamic then t else if t = dynamic then dynamic else s

/-- A type above the first and consistent with the second. -/
def wayAbove (s t : ValueType) : ValueType :=
  if s = dynamic then dynamic else if t = dynamic then s else t

theorem wayBelow_spec (h : s.isConsistentSubtypeOf t = true) :
    s.isConsistentWith (wayBelow s t) = true ∧ (wayBelow s t).isSubtypeOf t = true := by
  unfold wayBelow
  split
  · next hs => exact ⟨isConsistentWith_iff.mpr (.inr (.inl hs)), isSubtypeOf_refl t⟩
  · next hs =>
    split
    · next ht => exact ⟨isConsistentWith_iff.mpr (.inr (.inr rfl)), ht ▸ isSubtypeOf_refl _⟩
    · next ht => exact ⟨isConsistentWith_refl s, isConsistentSubtypeOf_eq hs ht ▸ h⟩

theorem wayAbove_spec (h : s.isConsistentSubtypeOf t = true) :
    s.isSubtypeOf (wayAbove s t) = true ∧ (wayAbove s t).isConsistentWith t = true := by
  unfold wayAbove
  split
  · next hs => exact ⟨hs ▸ isSubtypeOf_refl _, isConsistentWith_iff.mpr (.inr (.inl rfl))⟩
  · next hs =>
    split
    · next ht => exact ⟨isSubtypeOf_refl s, isConsistentWith_iff.mpr (.inr (.inr ht))⟩
    · next ht => exact ⟨isConsistentSubtypeOf_eq hs ht ▸ h, isConsistentWith_refl t⟩

/-- Below the gradual type there is no other, and above it only the root. -/
theorem isSubtypeOf_dynamic_iff : s.isSubtypeOf dynamic = true ↔ s = dynamic := by
  cases s <;> decide

theorem dynamic_isSubtypeOf_iff : dynamic.isSubtypeOf t = true ↔ t = dynamic ∨ t = any := by
  cases t <;> decide

theorem isConsistentSubtypeOf_of_below (hu : s.isConsistentWith u = true)
    (ht : u.isSubtypeOf t = true) : s.isConsistentSubtypeOf t = true := by
  rw [isConsistentSubtypeOf_iff]
  rcases isConsistentWith_iff.mp hu with rfl | rfl | rfl
  · exact .inr (.inr ht)
  · exact .inl rfl
  · rcases dynamic_isSubtypeOf_iff.mp ht with rfl | rfl
    · exact .inr (.inl rfl)
    · exact .inr (.inr (isSubtypeOf_any s))

theorem isConsistentSubtypeOf_of_above (hu : s.isSubtypeOf u = true)
    (ht : u.isConsistentWith t = true) : s.isConsistentSubtypeOf t = true := by
  rw [isConsistentSubtypeOf_iff]
  rcases isConsistentWith_iff.mp ht with rfl | rfl | rfl
  · exact .inr (.inr hu)
  · exact .inl (isSubtypeOf_dynamic_iff.mp hu)
  · exact .inr (.inl rfl)

end ValueType

namespace TypeSeq

open ValueType (wayBelow wayAbove)

variable {a b c : TypeSeq}

/-! ### Every position -/

theorem filler_ne_dynamic (a : TypeSeq) : a.filler ≠ .dynamic := by
  unfold filler
  split <;> decide

/-- The fillers are consistent when the tails agree. -/
theorem filler_isConsistentWith_iff :
    a.filler.isConsistentWith b.filler = true ↔ (a.hasTail == b.hasTail) = true := by
  unfold filler
  cases a.hasTail <;> cases b.hasTail <;> decide

theorem filler_isConsistentSubtypeOf_iff :
    a.filler.isConsistentSubtypeOf b.filler = true ↔ (b.hasTail || !a.hasTail) = true := by
  rw [ValueType.isConsistentSubtypeOf_eq (filler_ne_dynamic a) (filler_ne_dynamic b),
    filler_isSubtypeOf_iff]

/-- **Consistency is that of the types at every position.** -/
theorem isConsistentWith_iff :
    a.isConsistentWith b = true ↔ ∀ i, (a.get i).isConsistentWith (b.get i) = true := by
  rw [isConsistentWith, Bool.and_eq_true, ← filler_isConsistentWith_iff, all_sideBySide_iff]

/-- **Gradual subtyping is that of the types at every position.** -/
theorem isConsistentSubtypeOf_iff :
    a.isConsistentSubtypeOf b = true ↔ ∀ i, (a.get i).isConsistentSubtypeOf (b.get i) = true := by
  rw [isConsistentSubtypeOf, Bool.and_eq_true, ← filler_isConsistentSubtypeOf_iff,
    all_sideBySide_iff]

theorem isConsistentWith_refl (a : TypeSeq) : a.isConsistentWith a = true :=
  isConsistentWith_iff.mpr fun i => (a.get i).isConsistentWith_refl

theorem isConsistentWith_comm (a b : TypeSeq) : a.isConsistentWith b = b.isConsistentWith a := by
  rw [Bool.eq_iff_iff, isConsistentWith_iff, isConsistentWith_iff]
  simp only [ValueType.isConsistentWith_comm]

/-- Off the gradual type, gradual subtyping is subsumption. -/
theorem isConsistentSubtypeOf_eq (ha : ∀ i, a.get i ≠ .dynamic) (hb : ∀ i, b.get i ≠ .dynamic) :
    a.isConsistentSubtypeOf b = a.isSubsumedBy b := by
  rw [Bool.eq_iff_iff, isConsistentSubtypeOf_iff, isSubsumedBy_iff]
  exact forall_congr' fun i => by rw [ValueType.isConsistentSubtypeOf_eq (ha i) (hb i)]

/-! ### Shapes on the way -/

/-- A shape consistent with the first and below the second. -/
theorem get_wayBelow (a b : TypeSeq) (i : Nat) :
    (pointwise wayBelow a b a.hasTail).get i = wayBelow (a.get i) (b.get i) := by
  refine get_pointwise ?_ i
  rw [wayBelow, if_neg (filler_ne_dynamic a), if_neg (filler_ne_dynamic b)]
  rfl

/-- A shape above the first and consistent with the second. -/
theorem get_wayAbove (a b : TypeSeq) (i : Nat) :
    (pointwise wayAbove a b b.hasTail).get i = wayAbove (a.get i) (b.get i) := by
  refine get_pointwise ?_ i
  rw [wayAbove, if_neg (filler_ne_dynamic a), if_neg (filler_ne_dynamic b)]
  rfl

/-- **Gradual subtyping factors** through consistency first. -/
theorem factors_below : a.isConsistentSubtypeOf b = true ↔
    ∃ c : TypeSeq, a.isConsistentWith c = true ∧ c.isSubsumedBy b = true := by
  constructor
  · intro h
    have hspec (i : Nat) := ValueType.wayBelow_spec (isConsistentSubtypeOf_iff.mp h i)
    refine ⟨pointwise wayBelow a b a.hasTail, isConsistentWith_iff.mpr fun i => ?_,
      isSubsumedBy_iff.mpr fun i => ?_⟩ <;> rw [get_wayBelow]
    · exact (hspec i).1
    · exact (hspec i).2
  · rintro ⟨c, hac, hcb⟩
    exact isConsistentSubtypeOf_iff.mpr fun i => ValueType.isConsistentSubtypeOf_of_below
      (isConsistentWith_iff.mp hac i) (isSubsumedBy_iff.mp hcb i)

/-- **Gradual subtyping factors** through consistency last. -/
theorem factors_above : a.isConsistentSubtypeOf b = true ↔
    ∃ c : TypeSeq, a.isSubsumedBy c = true ∧ c.isConsistentWith b = true := by
  constructor
  · intro h
    have hspec (i : Nat) := ValueType.wayAbove_spec (isConsistentSubtypeOf_iff.mp h i)
    refine ⟨pointwise wayAbove a b b.hasTail, isSubsumedBy_iff.mpr fun i => ?_,
      isConsistentWith_iff.mpr fun i => ?_⟩ <;> rw [get_wayAbove]
    · exact (hspec i).1
    · exact (hspec i).2
  · rintro ⟨c, hac, hcb⟩
    exact isConsistentSubtypeOf_iff.mpr fun i => ValueType.isConsistentSubtypeOf_of_above
      (isSubsumedBy_iff.mp hac i) (isConsistentWith_iff.mp hcb i)

/-! ### The main result -/

/-- **Gradual subtyping of shapes is subsumption up to consistency**, on either side. Consistency is
reflexive and symmetric, and where no position is gradual, gradual subtyping is subsumption. -/
theorem gradual_subtyping_factors :
    (∀ a b : TypeSeq, a.isConsistentSubtypeOf b = true ↔
      ∃ c : TypeSeq, a.isConsistentWith c = true ∧ c.isSubsumedBy b = true) ∧
    (∀ a b : TypeSeq, a.isConsistentSubtypeOf b = true ↔
      ∃ c : TypeSeq, a.isSubsumedBy c = true ∧ c.isConsistentWith b = true) ∧
    (∀ a : TypeSeq, a.isConsistentWith a = true) ∧
    (∀ a b : TypeSeq, a.isConsistentWith b = b.isConsistentWith a) ∧
    (∀ a b : TypeSeq, (∀ i, a.get i ≠ .dynamic) → (∀ i, b.get i ≠ .dynamic) →
      a.isConsistentSubtypeOf b = a.isSubsumedBy b) :=
  ⟨fun _ _ => factors_below, fun _ _ => factors_above, isConsistentWith_refl,
    isConsistentWith_comm, fun _ _ => isConsistentSubtypeOf_eq⟩

/-- Consistency does not compose: the gradual type is consistent with types that are not with each
other. -/
example : isConsistentWith (.ofList [.string]) (.ofList [.dynamic]) = true ∧
    isConsistentWith (.ofList [.dynamic]) (.ofList [.table]) = true ∧
    isConsistentSubtypeOf (.ofList [.string]) (.ofList [.table]) = false := by
  decide

end TypeSeq

end ResumableVM
