import ResumableVM.Numeric.Layout
import ResumableVM.Proofs.NumericStrings
import ResumableVM.Proofs.ShortestDigits

/-! # NumberTexts: the text of a number tells which number it is

A row of digits with a point is read as a number again (`Layout.reading`). For the text of a finite
double that number rounds to the double (`roundsTo_reading`), so two doubles with one text are the same
(`displayText_injective`). The text of an integer has no point, and that of a double always has one,
or it names an infinity (`point_mem_magnitudeText`). -/

namespace ResumableVM

namespace Layout

/-! ### Reading a row of digits -/

/-- The number that a row of digits with at most one point is. -/
def reading (cs : List Char) : ℚ :=
  Nat.ofDigitChars 10 (cs.filter (· != '.')) 0 / 10 ^ ((cs.dropWhile (· != '.')).length - 1)

/-- There is no point. -/
def Pointless (cs : List Char) : Prop := ∀ c ∈ cs, (c != '.') = true

theorem pointless_of_isDigit {cs : List Char} (h : ∀ c ∈ cs, c.isDigit = true) : Pointless cs :=
  fun c hc => by
    have := h c hc
    by_contra hpoint
    rw [Bool.not_eq_true, bne_eq_false_iff_eq] at hpoint
    rw [hpoint] at this
    exact absurd this (by decide)

theorem pointless_toDigits (n : Nat) : Pointless (Nat.toDigits 10 n) :=
  pointless_of_isDigit fun _ => Nat.isDigit_of_mem_toDigits (by decide) (by decide)

theorem pointless_zeros (count : Nat) : Pointless (zeros count) :=
  pointless_of_isDigit fun c hc => by
    rw [List.eq_of_mem_replicate hc]
    decide

theorem reading_of_pointless {cs : List Char} (h : Pointless cs) :
    reading cs = Nat.ofDigitChars 10 cs 0 := by
  have hrest : cs.dropWhile (· != '.') = [] := List.dropWhile_eq_nil_iff.mpr h
  rw [reading, List.filter_eq_self.mpr h, hrest]
  simp

theorem reading_point {row rest : List Char} (hrow : Pointless row) (hrest : Pointless rest) :
    reading (row ++ '.' :: rest) = Nat.ofDigitChars 10 (row ++ rest) 0 / 10 ^ rest.length := by
  rw [reading, List.filter_append, List.filter_eq_self.mpr hrow, List.filter_cons_of_neg (by decide),
    List.filter_eq_self.mpr hrest, List.dropWhile_append_of_pos hrow,
    List.dropWhile_cons_of_neg (by decide), List.length_cons, Nat.add_sub_cancel]

/-- A whole number with `.0` behind it. -/
theorem reading_whole (n : Nat) : reading (Nat.toDigits 10 n ++ ['.', '0']) = n := by
  have hzero : Pointless ['0'] := pointless_zeros 1
  rw [reading_point (pointless_toDigits n) hzero, Nat.ofDigitChars_append,
    Nat.ofDigitChars_ten_toDigits]
  simp [Nat.ofDigitChars]

/-- **A decimal is read as what it is.** -/
theorem reading_plain (d : Decimal) : reading (plain d) = d.value := by
  have hrow := pointless_toDigits d.digits
  unfold plain Decimal.value
  dsimp only
  split
  · next hpos =>
    obtain ⟨e, he⟩ := Int.eq_ofNat_of_zero_le hpos
    rw [reading_of_pointless (List.forall_mem_append.mpr ⟨hrow, pointless_zeros _⟩),
      Nat.ofDigitChars_append, Nat.ofDigitChars_ten_toDigits, zeros, Nat.ofDigitChars_replicate_zero,
      he, Int.toNat_natCast, zpow_natCast]
    push_cast
    ring
  · next hneg =>
    obtain ⟨e, he⟩ := Int.eq_ofNat_of_zero_le (show 0 ≤ -d.exponent by omega)
    have hexponent : d.exponent = -(e : Int) := by omega
    rw [hexponent, neg_neg, Int.toNat_natCast, zpow_neg, zpow_natCast, ← div_eq_mul_inv]
    split
    · next hlt =>
      rw [reading_point (fun c hc => hrow c (List.mem_of_mem_take hc))
        (fun c hc => hrow c (List.mem_of_mem_drop hc)), List.take_append_drop,
        Nat.ofDigitChars_ten_toDigits, List.length_drop, Nat.sub_sub_self hlt.le]
    · next hge =>
      have hrest : Pointless (zeros (e - (Nat.toDigits 10 d.digits).length) ++
          Nat.toDigits 10 d.digits) := List.forall_mem_append.mpr ⟨pointless_zeros _, hrow⟩
      have hzero : Pointless ['0'] := pointless_zeros 1
      have hlength : (zeros (e - (Nat.toDigits 10 d.digits).length) ++
          Nat.toDigits 10 d.digits).length = e := by
        rw [List.length_append, zeros, List.length_replicate, Nat.sub_add_cancel (not_lt.mp hge)]
      have hdigits : Nat.ofDigitChars 10 (['0'] ++ (zeros (e - (Nat.toDigits 10 d.digits).length) ++
          Nat.toDigits 10 d.digits)) 0 = d.digits := by
        rw [Nat.ofDigitChars_append, Nat.ofDigitChars_append, zeros, Nat.ofDigitChars_replicate_zero]
        exact Nat.ofDigitChars_ten_toDigits
      have htext := reading_point hzero hrest
      rw [hdigits, hlength] at htext
      exact htext

end Layout

/-! ### The text of a double -/

variable {x y : Float}

open Binary64

/-- The text of a double that is no NaN, without its sign. -/
def magnitudeText (x : Float) : List Char :=
  if isInfinite x then ['i', 'n', 'f']
  else match toInt? x with
    | some n => Nat.toDigits 10 n.natAbs ++ ['.', '0']
    | none => Layout.plain (Shortest.digits .upward x)

theorem toList_displayText (h : isNaN x = false) :
    (displayText x).toList = signText x ++ magnitudeText x := by
  unfold displayText magnitudeText
  rw [h]
  split
  · next hnan => cases hnan
  split
  · exact String.toList_ofList
  cases toInt? x with
  | some n => exact String.toList_ofList.trans (List.append_assoc ..)
  | none => exact String.toList_ofList

theorem isFinite_of_not (hnan : isNaN x = false) (hinfinite : isInfinite x = false) :
    isFinite x = true := by
  simp only [isNaN, isInfinite, isFinite, decide_eq_false_iff_not, not_lt, beq_eq_false_iff_ne,
    decide_eq_true_eq] at *
  exact lt_of_le_of_ne hnan hinfinite

theorem isInfinite_of_isFinite (h : isFinite x = true) : isInfinite x = false := by
  simp only [isFinite, isInfinite, decide_eq_true_eq, beq_eq_false_iff_ne] at *
  exact h.ne

theorem magnitude_ne_zero (hfinite : isFinite x = true) (h : toInt? x = none) : magnitude x ≠ 0 := by
  intro hzero
  have hsome := (toInt?_eq_some_iff_magnitude (n := if isNegative x then -(0 : ℕ) else (0 : ℕ))
    hfinite).mpr ⟨0, by rw [hzero, scaledMagnitude_zero, Nat.zero_mul], rfl⟩
  rw [h] at hsome
  cases hsome

/-- **The text of a finite double** is read as a number that rounds to it. -/
theorem roundsTo_reading (hfinite : isFinite x = true) :
    RoundsTo (magnitude x) (Layout.reading (magnitudeText x)) := by
  unfold magnitudeText
  rw [isInfinite_of_isFinite hfinite]
  simp only [Bool.false_eq_true, if_false]
  split
  · next n hn =>
    obtain ⟨k, hk, hsign⟩ := (toInt?_eq_some_iff_magnitude hfinite).mp hn
    have habs : n.natAbs = k := by
      rw [← hsign]
      split <;> simp
    rw [Layout.reading_whole, habs]
    exact roundsTo_self (by exact_mod_cast hk.symm)
  · next hnone =>
    rw [Layout.reading_plain]
    exact Shortest.roundsTo_digits .upward (magnitude_ne_zero hfinite hnone) hfinite

/-- A natural number that rounds to a double of lower places than one is that double. -/
theorem significand_eq_of_roundsTo (hexponent : exponent x < 0) (hne : magnitude x ≠ 0) {n : Nat}
    (h : RoundsTo (magnitude x) n) : significand x = n * 2 ^ (-exponent x).toNat := by
  have hunits : unitsPerOne = 2 ^ (-exponent x).toNat * lastPlace x := by
    have := exponent_ge x
    rw [unitsPerOne, lastPlace, fractionBits_eq, ← pow_add]
    congr 1
    omega
  have hquarters : n * quartersPerOne = 4 * (n * 2 ^ (-exponent x).toNat) * lastPlace x := by
    rw [quartersPerOne, hunits]
    ring
  have hlow : midpointBefore (magnitude x) ≤ n * quartersPerOne := by exact_mod_cast h.low
  have hhigh : n * quartersPerOne ≤ midpoint (magnitude x) := by exact_mod_cast h.high
  have hplace : 0 < lastPlace x := Nat.two_pow_pos _
  rw [hquarters, midpointBefore_magnitude hne] at hlow
  rw [hquarters, midpoint_magnitude] at hhigh
  have hlow := Nat.le_of_mul_le_mul_right hlow hplace
  have hhigh := Nat.le_of_mul_le_mul_right hhigh hplace
  have hbelow : placeBelow x ≤ 2 := by
    unfold placeBelow
    split <;> decide
  omega

/-- No natural number rounds to a double that is no integer. -/
theorem toInt?_of_roundsTo_natCast (hfinite : isFinite x = true) {n : Nat}
    (h : RoundsTo (magnitude x) n) : toInt? x ≠ none := by
  intro hnone
  obtain ⟨k, hk⟩ : ∃ k : Nat, scaledMagnitude (magnitude x) = k * unitsPerOne := by
    rcases lt_or_ge (exponent x) 0 with hexponent | hexponent
    · exact ⟨n, (scaledMagnitude_eq_iff hexponent).mpr
        (significand_eq_of_roundsTo hexponent (magnitude_ne_zero hfinite hnone) h)⟩
    · exact ⟨_, scaledMagnitude_of_nonneg hexponent⟩
  have hsome := (toInt?_eq_some_iff_magnitude hfinite).mpr ⟨k, hk, rfl⟩
  rw [hnone] at hsome
  cases hsome

theorem point_mem_plain {d : Decimal} (h : d.exponent < 0) : '.' ∈ Layout.plain d := by
  unfold Layout.plain
  dsimp only
  rw [if_neg (not_le.mpr h)]
  split <;> simp

/-- **The text of a finite double has a point.** -/
theorem point_mem_magnitudeText (hfinite : isFinite x = true) : '.' ∈ magnitudeText x := by
  have hreading := roundsTo_reading hfinite
  unfold magnitudeText at hreading ⊢
  rw [isInfinite_of_isFinite hfinite] at hreading ⊢
  simp only [Bool.false_eq_true, if_false] at hreading ⊢
  cases hint : toInt? x with
  | some n => simp
  | none =>
    rw [hint] at hreading
    refine point_mem_plain (not_le.mp fun hpos => ?_)
    obtain ⟨e, he⟩ := Int.eq_ofNat_of_zero_le hpos
    refine toInt?_of_roundsTo_natCast (n := (Shortest.digits .upward x).digits * 10 ^ e) hfinite ?_ hint
    rw [Layout.reading_plain, Decimal.value, he, zpow_natCast] at hreading
    exact_mod_cast hreading

theorem mem_plain {d : Decimal} {c : Char} (h : c ∈ Layout.plain d) : c.isDigit = true ∨ c = '.' := by
  have hrow : ∀ c ∈ Nat.toDigits 10 d.digits, c.isDigit = true := fun _ =>
    Nat.isDigit_of_mem_toDigits (by decide) (by decide)
  have hzeros : ∀ count, ∀ c ∈ Layout.zeros count, c.isDigit = true := fun count c hc => by
    rw [List.eq_of_mem_replicate hc]
    decide
  unfold Layout.plain at h
  dsimp only at h
  split at h
  · exact .inl ((List.mem_append.mp h).elim (hrow c) (hzeros _ c))
  split at h
  · rcases List.mem_append.mp h with h | h
    · exact .inl (hrow c (List.mem_of_mem_take h))
    · rcases List.mem_cons.mp h with rfl | h
      · exact .inr rfl
      · exact .inl (hrow c (List.mem_of_mem_drop h))
  · rcases List.mem_cons.mp h with rfl | h
    · exact .inl (by decide)
    rcases List.mem_cons.mp h with rfl | h
    · exact .inr rfl
    exact .inl ((List.mem_append.mp h).elim (hzeros _ c) (hrow c))

/-- The text of a finite double is made of digits and a point. -/
theorem mem_magnitudeText (hfinite : isFinite x = true) {c : Char} (h : c ∈ magnitudeText x) :
    c.isDigit = true ∨ c = '.' := by
  unfold magnitudeText at h
  rw [isInfinite_of_isFinite hfinite] at h
  simp only [Bool.false_eq_true, if_false] at h
  split at h
  · rcases List.mem_append.mp h with h | h
    · exact .inl (Nat.isDigit_of_mem_toDigits (by decide) (by decide) h)
    · rcases List.mem_cons.mp h with rfl | h
      · exact .inr rfl
      · rw [List.mem_singleton.mp h]
        exact .inl (by decide)
  · exact mem_plain h

theorem magnitudeText_of_isInfinite (h : isInfinite x = true) : magnitudeText x = ['i', 'n', 'f'] := by
  rw [magnitudeText, if_pos h]

theorem minus_not_mem_magnitudeText (hnan : isNaN x = false) : '-' ∉ magnitudeText x := by
  intro h
  cases hinfinite : isInfinite x with
  | true =>
    rw [magnitudeText_of_isInfinite hinfinite] at h
    exact absurd h (by decide)
  | false =>
    rcases mem_magnitudeText (isFinite_of_not hnan hinfinite) h with h | h
    · exact absurd h (by decide)
    · exact absurd h (by decide)

/-- A sign is told from what follows it. -/
theorem sign_append_inj {a b : Bool} {s t : List Char} (hs : '-' ∉ s) (ht : '-' ∉ t)
    (h : (if a then ['-'] else []) ++ s = (if b then ['-'] else []) ++ t) : a = b ∧ s = t := by
  cases a <;> cases b
  · exact ⟨rfl, h⟩
  · have h : s = '-' :: t := h
    exact absurd (h ▸ List.mem_cons_self) hs
  · have h : '-' :: s = t := h
    exact absurd (h ▸ List.mem_cons_self) ht
  · exact ⟨rfl, (List.cons.inj h).2⟩

/-- The sign and the magnitude make a double. -/
theorem eq_of_magnitude_eq (hsign : isNegative x = isNegative y)
    (hmagnitude : magnitude x = magnitude y) : x = y := by
  have hx := x.toBits.toNat_lt
  have hy := y.toBits.toNat_lt
  have hsign : signBit ≤ x.toBits.toNat ↔ signBit ≤ y.toBits.toNat := decide_eq_decide.mp hsign
  have hbits : x.toBits = y.toBits := by
    refine UInt64.toNat_inj.mp ?_
    simp only [magnitude, signBit] at hmagnitude hsign
    omega
  obtain ⟨⟨xbits, _⟩⟩ := x
  obtain ⟨⟨ybits, _⟩⟩ := y
  cases show xbits = ybits from hbits
  rfl

/-- **Doubles with one text are the same.** -/
theorem displayText_injective (hx : isNaN x = false) (hy : isNaN y = false)
    (h : displayText x = displayText y) : x = y := by
  have htext := congrArg String.toList h
  rw [toList_displayText hx, toList_displayText hy] at htext
  obtain ⟨hsign, htext⟩ := sign_append_inj (minus_not_mem_magnitudeText hx)
    (minus_not_mem_magnitudeText hy) htext
  refine eq_of_magnitude_eq hsign ?_
  -- the text of an infinity has no point
  have hone : ∀ {x y : Float}, isNaN y = false → magnitudeText x = magnitudeText y →
      isInfinite x = true → isInfinite y = true := by
    intro x y hy htext hx
    by_contra hfinite
    have hpoint := point_mem_magnitudeText (isFinite_of_not hy (Bool.eq_false_of_not_eq_true hfinite))
    rw [← htext, magnitudeText_of_isInfinite hx] at hpoint
    exact absurd hpoint (by decide)
  cases hinfinite : isInfinite x with
  | true =>
    have hinfinite' := hone hy htext hinfinite
    exact (beq_iff_eq.mp hinfinite).trans (beq_iff_eq.mp hinfinite').symm
  | false =>
    have hinfinite' : isInfinite y = false := by
      by_contra hinfinite'
      rw [hone hx htext.symm (Bool.eq_true_of_not_eq_false hinfinite')] at hinfinite
      cases hinfinite
    have hreading := roundsTo_reading (isFinite_of_not hx hinfinite)
    rw [htext] at hreading
    exact hreading.unique (roundsTo_reading (isFinite_of_not hy hinfinite'))

/-! ### The text of an integer -/

theorem toDigits_injective {m n : Nat} (h : Nat.toDigits 10 m = Nat.toDigits 10 n) : m = n := by
  rw [← @Nat.ofDigitChars_ten_toDigits m, h, Nat.ofDigitChars_ten_toDigits]

theorem minus_not_mem_toDigits (n : Nat) : '-' ∉ Nat.toDigits 10 n := fun h =>
  absurd (Nat.isDigit_of_mem_toDigits (by decide) (by decide) h) (by decide)

theorem toList_integerText (m : Int) :
    (integerText m).toList = (if decide (m < 0) then ['-'] else []) ++ Nat.toDigits 10 m.natAbs := by
  unfold integerText naturalText
  by_cases h : m < 0 <;> simp [h]

/-- **Integers with one text are the same.** -/
theorem integerText_injective {m n : Int} (h : integerText m = integerText n) : m = n := by
  have htext := congrArg String.toList h
  rw [toList_integerText, toList_integerText] at htext
  obtain ⟨hsign, hdigits⟩ := sign_append_inj (minus_not_mem_toDigits _) (minus_not_mem_toDigits _) htext
  have habs := toDigits_injective hdigits
  have hsign : m < 0 ↔ n < 0 := decide_eq_decide.mp hsign
  omega

/-! ### What tells numbers from other texts -/

/-- A character of the text of a number. -/
def isNumeric (c : Char) : Bool := c.isDigit || ['-', '.', 'i', 'n', 'f'].contains c

theorem isNumeric_of_mem_displayText (hnan : isNaN x = false) :
    ∀ c ∈ (displayText x).toList, isNumeric c = true := by
  intro c h
  rw [toList_displayText hnan] at h
  rcases List.mem_append.mp h with h | h
  · unfold signText at h
    split at h
    · rw [List.mem_singleton.mp h]
      decide
    · cases h
  · cases hinfinite : isInfinite x with
    | true =>
      rw [magnitudeText_of_isInfinite hinfinite] at h
      simp only [List.mem_cons, List.not_mem_nil, or_false] at h
      rcases h with rfl | rfl | rfl <;> rfl
    | false =>
      rcases mem_magnitudeText (isFinite_of_not hnan hinfinite) h with h | rfl
      · simp [isNumeric, h]
      · decide

theorem isNumeric_of_mem_integerText (m : Int) : ∀ c ∈ (integerText m).toList, isNumeric c = true := by
  intro c h
  rcases mem_integerText h with rfl | h
  · decide
  · simp [isNumeric, h]

/-- The text of a double that is a number is not that of an integer. -/
theorem displayText_ne_integerText (hnan : isNaN x = false) (m : Int) :
    displayText x ≠ integerText m := by
  intro h
  have hmem : ∀ c ∈ magnitudeText x, c = '-' ∨ c.isDigit = true := fun c hc => by
    refine mem_integerText (m := m) ?_
    rw [← h, toList_displayText hnan]
    exact List.mem_append_right _ hc
  cases hinfinite : isInfinite x with
  | true => exact absurd (hmem 'i' (by rw [magnitudeText_of_isInfinite hinfinite]; decide)) (by decide)
  | false =>
    exact absurd (hmem '.' (point_mem_magnitudeText (isFinite_of_not hnan hinfinite))) (by decide)

theorem digit_mem_plain (d : Decimal) : ∃ c ∈ Layout.plain d, c.isDigit = true := by
  have hrow : ∀ c ∈ Nat.toDigits 10 d.digits, c.isDigit = true := fun _ =>
    Nat.isDigit_of_mem_toDigits (by decide) (by decide)
  obtain ⟨c, hc⟩ := List.exists_mem_of_ne_nil (Nat.toDigits 10 d.digits) (by simp)
  unfold Layout.plain
  dsimp only
  split
  · exact ⟨c, List.mem_append_left _ hc, hrow c hc⟩
  split
  · refine ⟨c, ?_, hrow c hc⟩
    rw [← List.take_append_drop ((Nat.toDigits 10 d.digits).length - (-d.exponent).toNat)
      (Nat.toDigits 10 d.digits)] at hc
    exact (List.mem_append.mp hc).elim (List.mem_append_left _)
      fun hc => List.mem_append_right _ (List.mem_cons_of_mem _ hc)
  · exact ⟨'0', List.mem_cons_self, by decide⟩

/-- The text of a double is not made of points. -/
theorem exists_ne_point (hnan : isNaN x = false) : ∃ c ∈ (displayText x).toList, c ≠ '.' := by
  rw [toList_displayText hnan]
  suffices h : ∃ c ∈ magnitudeText x, c ≠ '.' by
    obtain ⟨c, hc, hne⟩ := h
    exact ⟨c, List.mem_append_right _ hc, hne⟩
  have hne : ∀ c : Char, c.isDigit = true → c ≠ '.' := by
    rintro c h rfl
    exact absurd h (by decide)
  unfold magnitudeText
  split
  · exact ⟨'i', List.mem_cons_self, by decide⟩
  split
  · exact ⟨'0', by simp, by decide⟩
  · obtain ⟨c, hc, hdigit⟩ := digit_mem_plain (Shortest.digits .upward x)
    exact ⟨c, hc, hne c hdigit⟩

end ResumableVM
