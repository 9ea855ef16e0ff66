import ResumableVM.Proofs.Acceptance
import ResumableVM.Proofs.RegisterTypes

/-! # Shapes: the order of value sequences

A shape lies below another when it does so at every position, however far past both runs
(`isSubsumedBy_iff`): behind the runs only the fillers are left, and the tails say how those compare.
Least upper bounds are taken position by position (`get_join_everywhere`), and so are greatest lower
bounds (`get_of_meet?`). Two types that stand above a third are comparable, as the types form a tree;
so where two shapes have a lower bound, they have a meet at every position and there is a greatest
one (`exists_meet?_iff`). -/

namespace ResumableVM

namespace ValueType

variable {s t u : ValueType}

/-- The join with a subtype changes nothing. -/
theorem join_eq_left (h : t.isSubtypeOf s = true) : s.join t = s := by
  unfold join
  rw [supertypes_eq, List.find?_cons_of_pos h, Option.getD_some]

/-- **The join is least** among the types above both. -/
theorem join_isSubtypeOf (hs : s.isSubtypeOf u = true) (ht : t.isSubtypeOf u = true) :
    (s.join t).isSubtypeOf u = true := by
  rcases isSubtypeOf_iff.mp hs with rfl | rfl | ⟨rfl, hnum⟩
  · rw [join_eq_left ht]
    exact isSubtypeOf_refl s
  · exact isSubtypeOf_any _
  · -- two representations of numbers, or all numbers
    have htnum : t = number ∨ t = integer ∨ t = float := by
      rcases isSubtypeOf_iff.mp ht with h | h | h
      · exact Or.inl h
      · cases h
      · exact Or.inr h.2
    rcases hnum with rfl | rfl <;> rcases htnum with rfl | rfl | rfl <;> decide

/-- Types above a third are comparable. -/
theorem comparable_of_isSubtypeOf (hs : u.isSubtypeOf s = true) (ht : u.isSubtypeOf t = true) :
    s.isSubtypeOf t = true ∨ t.isSubtypeOf s = true := by
  rcases isSubtypeOf_iff.mp hs with rfl | rfl | ⟨rfl, hu⟩
  · exact Or.inl ht
  · exact Or.inr (isSubtypeOf_any t)
  · rcases isSubtypeOf_iff.mp ht with rfl | rfl | ⟨rfl, -⟩
    · exact Or.inr hs
    · exact Or.inl (isSubtypeOf_any _)
    · exact Or.inl (isSubtypeOf_refl _)

/-- The meet lies below both types. -/
theorem meet?_isSubtypeOf (h : s.meet? t = some u) :
    u.isSubtypeOf s = true ∧ u.isSubtypeOf t = true := by
  unfold meet? at h
  split at h
  · next hst => cases h; exact ⟨isSubtypeOf_refl s, hst⟩
  · split at h
    · next hts => cases h; exact ⟨hts, isSubtypeOf_refl t⟩
    · cases h

/-- **Where there is a lower bound there is a meet**, and it is the greatest. -/
theorem exists_meet?_of_isSubtypeOf (hs : u.isSubtypeOf s = true) (ht : u.isSubtypeOf t = true) :
    ∃ m, s.meet? t = some m ∧ u.isSubtypeOf m = true := by
  unfold meet?
  by_cases hst : s.isSubtypeOf t = true
  · exact ⟨s, if_pos hst, hs⟩
  · have hts := (comparable_of_isSubtypeOf hs ht).resolve_left hst
    exact ⟨t, by rw [if_neg hst, if_pos hts], ht⟩

end ValueType

namespace TypeSeq

variable {a b c m : TypeSeq}

/-- The length of the longer run. -/
def span (a b : TypeSeq) : Nat := max a.fixed.length b.fixed.length

theorem get_of_span_le {i : Nat} (h : span a b ≤ i) : a.get i = a.filler ∧ b.get i = b.filler :=
  ⟨get_of_length_le a (le_trans (le_max_left _ _) h),
    get_of_length_le b (le_trans (le_max_right _ _) h)⟩

/-- **What holds at every position** holds as far as the longer run, and of the fillers. -/
theorem forall_get_iff {P : ValueType → ValueType → Prop} :
    (∀ i, P (a.get i) (b.get i)) ↔
      (∀ i < span a b, P (a.get i) (b.get i)) ∧ P a.filler b.filler := by
  constructor
  · intro h
    obtain ⟨ha, hb⟩ := get_of_span_le (le_refl (span a b))
    exact ⟨fun i _ => h i, ha ▸ hb ▸ h (span a b)⟩
  · rintro ⟨hrun, hfiller⟩ i
    by_cases hi : i < span a b
    · exact hrun i hi
    · obtain ⟨ha, hb⟩ := get_of_span_le (not_lt.mp hi)
      rwa [ha, hb]

/-- A test of two runs side by side, and of the fillers, is one of every position. -/
theorem all_sideBySide_iff {f : ValueType → ValueType → Bool} :
    (sideBySide a b).all (fun (s, t) => f s t) = true ∧ f a.filler b.filler = true ↔
      ∀ i, f (a.get i) (b.get i) = true := by
  rw [forall_get_iff (P := fun s t => f s t = true), sideBySide_eq]
  simp only [List.all_map, List.all_eq_true, List.mem_range, Function.comp, span]

/-! ### Subsumption -/

/-- The tails say how the fillers compare. -/
theorem filler_isSubtypeOf_iff :
    a.filler.isSubtypeOf b.filler = true ↔ (b.hasTail || !a.hasTail) = true := by
  unfold filler
  cases a.hasTail <;> cases b.hasTail <;> decide

/-- **Subsumption is subtyping at every position.** -/
theorem isSubsumedBy_iff :
    a.isSubsumedBy b = true ↔ ∀ i, (a.get i).isSubtypeOf (b.get i) = true := by
  rw [isSubsumedBy, Bool.and_eq_true, ← filler_isSubtypeOf_iff, all_sideBySide_iff]

theorem isSubsumedBy_refl (a : TypeSeq) : a.isSubsumedBy a = true :=
  isSubsumedBy_iff.mpr fun i => (a.get i).isSubtypeOf_refl

theorem isSubsumedBy_trans (hab : a.isSubsumedBy b = true) (hbc : b.isSubsumedBy c = true) :
    a.isSubsumedBy c = true :=
  isSubsumedBy_iff.mpr fun i =>
    ValueType.isSubtypeOf_trans (isSubsumedBy_iff.mp hab i) (isSubsumedBy_iff.mp hbc i)

/-! ### Shapes made of two -/

/-- The shape made of two, position by position. -/
def pointwise (f : ValueType → ValueType → ValueType) (a b : TypeSeq) (hasTail : Bool) : TypeSeq :=
  ⟨(sideBySide a b).map fun (s, t) => f s t, hasTail⟩

/-- **A shape made position by position** is so past both runs too, if the tail is right. -/
theorem get_pointwise {f : ValueType → ValueType → ValueType} {hasTail : Bool}
    (h : (pointwise f a b hasTail).filler = f a.filler b.filler) (i : Nat) :
    (pointwise f a b hasTail).get i = f (a.get i) (b.get i) := by
  by_cases hi : i < span a b
  · simp [pointwise, get, sideBySide_eq, show i < max a.fixed.length b.fixed.length from hi]
  · obtain ⟨ha, hb⟩ := get_of_span_le (not_lt.mp hi)
    have hlen : (pointwise f a b hasTail).fixed.length = span a b := by
      simp [pointwise, sideBySide_eq, span]
    rw [ha, hb, ← h, get_of_length_le]
    omega

/-! ### Least upper bounds -/

theorem filler_join : (a.join b).filler = a.filler.join b.filler := by
  unfold filler join
  cases a.hasTail <;> cases b.hasTail <;> rfl

/-- **The join is taken position by position**, past both runs too. -/
theorem get_join_everywhere (a b : TypeSeq) (i : Nat) :
    (a.join b).get i = (a.get i).join (b.get i) :=
  get_pointwise filler_join i

theorem isSubsumedBy_join_left (a b : TypeSeq) : a.isSubsumedBy (a.join b) = true :=
  isSubsumedBy_iff.mpr fun i => by
    rw [get_join_everywhere]
    exact ValueType.isSubtypeOf_join_left _ _

theorem isSubsumedBy_join_right (a b : TypeSeq) : b.isSubsumedBy (a.join b) = true :=
  isSubsumedBy_iff.mpr fun i => by
    rw [get_join_everywhere]
    exact ValueType.isSubtypeOf_join_right _ _

theorem join_isSubsumedBy (ha : a.isSubsumedBy c = true) (hb : b.isSubsumedBy c = true) :
    (a.join b).isSubsumedBy c = true :=
  isSubsumedBy_iff.mpr fun i => by
    rw [get_join_everywhere]
    exact ValueType.join_isSubtypeOf (isSubsumedBy_iff.mp ha i) (isSubsumedBy_iff.mp hb i)

/-! ### Greatest lower bounds -/

theorem filler_meet (h : m.hasTail = (a.hasTail && b.hasTail)) :
    a.filler.meet? b.filler = some m.filler := by
  unfold filler
  rw [h]
  cases a.hasTail <;> cases b.hasTail <;> rfl

/-- What a meet consists of: the meets of the runs side by side, and the tail if both have one. -/
theorem meet?_eq_some_iff :
    a.meet? b = some m ↔
      ((List.range (span a b)).mapM fun i => (a.get i).meet? (b.get i)) = some m.fixed ∧
        m.hasTail = (a.hasTail && b.hasTail) := by
  have hmeet : a.meet? b =
      ((List.range (span a b)).mapM fun i => (a.get i).meet? (b.get i)).bind fun fixed =>
        some ⟨fixed, a.hasTail && b.hasTail⟩ := by
    unfold meet?
    rw [sideBySide_eq, List.mapM_map]
    rfl
  rw [hmeet]
  cases (List.range (span a b)).mapM fun i => (a.get i).meet? (b.get i) with
  | none => simp
  | some fixed =>
    cases m
    simp [eq_comm]

/-- The elements of a list that is made under `mapM`, one by one. -/
theorem getElem?_of_mapM {α β : Type} {f : α → Option β} {l : List α} {r : List β}
    (h : l.mapM f = some r) : r.length = l.length ∧
      ∀ (i : Nat) (x : α), l[i]? = some x → ∃ y, r[i]? = some y ∧ f x = some y := by
  rw [mapM_eq_some_iff] at h
  refine ⟨by simpa using (congrArg List.length h).symm, fun i x hi => ?_⟩
  have hget : (l.map f)[i]? = (r.map some)[i]? := by rw [h]
  rw [List.getElem?_map, List.getElem?_map, hi, Option.map_some] at hget
  obtain ⟨y, hy, heq⟩ := Option.map_eq_some_iff.mp hget.symm
  exact ⟨y, hy, heq.symm⟩

/-- **The meet is taken position by position**, past both runs too. -/
theorem get_of_meet? (h : a.meet? b = some m) (i : Nat) :
    (a.get i).meet? (b.get i) = some (m.get i) := by
  obtain ⟨hrun, htail⟩ := meet?_eq_some_iff.mp h
  obtain ⟨hlen, hget⟩ := getElem?_of_mapM hrun
  rw [List.length_range] at hlen
  by_cases hi : i < span a b
  · obtain ⟨t, ht, hmeet⟩ := hget i i (by simp [hi])
    rw [hmeet, get, ht, Option.getD_some]
  · obtain ⟨ha, hb⟩ := get_of_span_le (not_lt.mp hi)
    rw [ha, hb, filler_meet htail, get_of_length_le m (by omega)]

theorem meet?_isSubsumedBy (h : a.meet? b = some m) :
    m.isSubsumedBy a = true ∧ m.isSubsumedBy b = true :=
  ⟨isSubsumedBy_iff.mpr fun i => (ValueType.meet?_isSubtypeOf (get_of_meet? h i)).1,
    isSubsumedBy_iff.mpr fun i => (ValueType.meet?_isSubtypeOf (get_of_meet? h i)).2⟩

theorem isSubsumedBy_meet? (h : a.meet? b = some m) (ha : c.isSubsumedBy a = true)
    (hb : c.isSubsumedBy b = true) : c.isSubsumedBy m = true := by
  refine isSubsumedBy_iff.mpr fun i => ?_
  obtain ⟨t, ht, hc⟩ :=
    ValueType.exists_meet?_of_isSubtypeOf (isSubsumedBy_iff.mp ha i) (isSubsumedBy_iff.mp hb i)
  rwa [Option.some.inj ((get_of_meet? h i).symm.trans ht)]

/-- A list whose elements all have values has a value under `mapM`. -/
theorem exists_mapM {α β : Type} {f : α → Option β} :
    ∀ {l : List α}, (∀ x ∈ l, ∃ y, f x = some y) → ∃ r, l.mapM f = some r
  | [], _ => ⟨[], rfl⟩
  | x :: l, h => by
    obtain ⟨⟨y, hy⟩, hl⟩ := List.forall_mem_cons.mp h
    obtain ⟨ys, hys⟩ := exists_mapM hl
    exact ⟨y :: ys, by rw [List.mapM_cons, hy, hys]; rfl⟩

/-- **Two shapes have a meet exactly when some shape lies below both.** -/
theorem exists_meet?_iff :
    (∃ m, a.meet? b = some m) ↔
      ∃ c : TypeSeq, c.isSubsumedBy a = true ∧ c.isSubsumedBy b = true := by
  constructor
  · rintro ⟨m, h⟩
    exact ⟨m, meet?_isSubsumedBy h⟩
  · rintro ⟨c, ha, hb⟩
    obtain ⟨fixed, hfixed⟩ : ∃ fixed,
        ((List.range (span a b)).mapM fun i => (a.get i).meet? (b.get i)) = some fixed := by
      refine exists_mapM fun i _ => ?_
      obtain ⟨t, ht, -⟩ := ValueType.exists_meet?_of_isSubtypeOf (isSubsumedBy_iff.mp ha i)
        (isSubsumedBy_iff.mp hb i)
      exact ⟨t, ht⟩
    exact ⟨⟨fixed, a.hasTail && b.hasTail⟩, meet?_eq_some_iff.mpr ⟨hfixed, rfl⟩⟩

/-- **Subsumption is the pointwise order, with its bounds.** It is reflexive and transitive; the join
of two shapes is their least upper bound; they have a meet exactly when they have a lower bound, and
then it is the greatest. Joins and meets are those of the types at every position. -/
theorem subsumption_bounds :
    (∀ a b : TypeSeq,
      a.isSubsumedBy b = true ↔ ∀ i, (a.get i).isSubtypeOf (b.get i) = true) ∧
    (∀ a : TypeSeq, a.isSubsumedBy a = true) ∧
    (∀ a b c : TypeSeq, a.isSubsumedBy b = true → b.isSubsumedBy c = true →
      a.isSubsumedBy c = true) ∧
    (∀ a b : TypeSeq, a.isSubsumedBy (a.join b) = true ∧ b.isSubsumedBy (a.join b) = true ∧
      (∀ c : TypeSeq, a.isSubsumedBy c = true → b.isSubsumedBy c = true →
        (a.join b).isSubsumedBy c = true) ∧
      ∀ i, (a.join b).get i = (a.get i).join (b.get i)) ∧
    (∀ a b : TypeSeq, (∃ m, a.meet? b = some m) ↔
      ∃ c : TypeSeq, c.isSubsumedBy a = true ∧ c.isSubsumedBy b = true) ∧
    (∀ a b m : TypeSeq, a.meet? b = some m →
      m.isSubsumedBy a = true ∧ m.isSubsumedBy b = true ∧
      (∀ c : TypeSeq, c.isSubsumedBy a = true → c.isSubsumedBy b = true →
        c.isSubsumedBy m = true) ∧
      ∀ i, (a.get i).meet? (b.get i) = some (m.get i)) := by
  refine ⟨fun a b => isSubsumedBy_iff, isSubsumedBy_refl, fun a b c => isSubsumedBy_trans,
    fun a b => ⟨isSubsumedBy_join_left a b, isSubsumedBy_join_right a b,
      fun c => join_isSubsumedBy, get_join_everywhere a b⟩,
    fun a b => exists_meet?_iff, fun a b m h => ?_⟩
  obtain ⟨ha, hb⟩ := meet?_isSubsumedBy h
  exact ⟨ha, hb, fun c => isSubsumedBy_meet? h, get_of_meet? h⟩

/-- A run may be met past its end: what is missing there is nil, or anything. -/
example : meet? ⟨[.number], true⟩ ⟨[.integer, .nil], false⟩ = some ⟨[.integer, .nil], false⟩ := by
  decide

end TypeSeq

end ResumableVM
