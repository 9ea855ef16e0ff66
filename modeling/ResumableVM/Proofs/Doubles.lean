import Mathlib.Tactic
import ResumableVM.Numeric.Binary64

/-! # Doubles: a double as an exact number

The number that a finite double is, `Binary64.value`, is a whole number of units of `2 ^ -1074`:
`Binary64.scaled` is that number. The larger the magnitude, the more units
(`scaledMagnitude_strictMono`), so two doubles are the same number exactly when they have the same
rank (`scaled_eq_iff`): only the two zeros share one. The integer that a double is, if it is one, is
found exactly (`toInt?_eq_some_iff`). -/

namespace ResumableVM.Binary64

/-- The binary places after the point that a double can have. Irreducible, for the power below is
not to be computed. -/
@[irreducible]
def fractionBits : Nat := 1074

theorem fractionBits_eq : fractionBits = 1074 := by rw [fractionBits]

/-- The number of units of `2 ^ -1074` in one. -/
def unitsPerOne : Nat := 2 ^ fractionBits

theorem unitsPerOne_pos : 0 < unitsPerOne := Nat.two_pow_pos fractionBits

/-- The number of units of `2 ^ -1074` in a magnitude. -/
def scaledMagnitude (n : Nat) : Nat :=
  if n / exponentBit = 0 then n else (n % exponentBit + exponentBit) * 2 ^ (n / exponentBit - 1)

/-- The **number that a finite double is**: `m * 2 ^ e`, with its sign. -/
def value (x : Float) : ℚ :=
  (if isNegative x then -1 else 1) * significand x * 2 ^ exponent x

/-- The number that a finite double is, in units of `2 ^ -1074`. -/
def scaled (x : Float) : Int :=
  if isNegative x then -(scaledMagnitude (magnitude x) : Int) else scaledMagnitude (magnitude x)

theorem exponentBit_pos : 0 < exponentBit := by decide

/-- The units of a magnitude without an exponent. -/
theorem scaledMagnitude_of_lt {m : Nat} (h : m < exponentBit) : scaledMagnitude m = m := by
  rw [scaledMagnitude, if_pos (Nat.div_eq_of_lt h)]

/-- The units of a magnitude with the exponent `e + 1` and `m` for the rest of the significand. -/
theorem scaledMagnitude_mul_add (e : Nat) {m : Nat} (h : m < exponentBit) :
    scaledMagnitude (exponentBit * (e + 1) + m) = (m + exponentBit) * 2 ^ e := by
  have hfield : (exponentBit * (e + 1) + m) / exponentBit = e + 1 := by
    rw [Nat.mul_add_div exponentBit_pos, Nat.div_eq_of_lt h, Nat.add_zero]
  have hrest : (exponentBit * (e + 1) + m) % exponentBit = m := by
    rw [Nat.mul_add_mod, Nat.mod_eq_of_lt h]
  rw [scaledMagnitude, hfield, hrest, if_neg (Nat.succ_ne_zero e), Nat.add_sub_cancel]

/-- Every magnitude is of one of these forms. -/
theorem magnitude_cases (n : Nat) :
    n < exponentBit ∨ ∃ e m : Nat, m < exponentBit ∧ n = exponentBit * (e + 1) + m := by
  refine (Nat.lt_or_ge n exponentBit).imp_right fun h => ?_
  have hpos := Nat.div_pos h exponentBit_pos
  refine ⟨n / exponentBit - 1, n % exponentBit, Nat.mod_lt n exponentBit_pos, ?_⟩
  rw [Nat.sub_add_cancel hpos, Nat.div_add_mod]

/-- A larger magnitude has more units. -/
theorem scaledMagnitude_lt_succ (n : Nat) : scaledMagnitude n < scaledMagnitude (n + 1) := by
  rcases magnitude_cases n with h | ⟨e, m, h, rfl⟩
  · rcases Nat.lt_or_ge (n + 1) exponentBit with hnext | hnext
    · rw [scaledMagnitude_of_lt h, scaledMagnitude_of_lt hnext]
      exact Nat.lt_succ_self n
    · -- The first exponent begins; its unit is the same.
      have hn : n + 1 = exponentBit * (0 + 1) + 0 := by omega
      rw [scaledMagnitude_of_lt h, hn, scaledMagnitude_mul_add 0 exponentBit_pos]
      omega
  · rcases Nat.lt_or_ge (m + 1) exponentBit with hnext | hnext
    · rw [Nat.add_assoc, scaledMagnitude_mul_add e h, scaledMagnitude_mul_add e hnext]
      exact Nat.mul_lt_mul_of_pos_right (by omega) (Nat.two_pow_pos e)
    · -- The next exponent begins; its unit is twice as large.
      have hn : exponentBit * (e + 1) + m + 1 = exponentBit * (e + 1 + 1) + 0 := by
        rw [Nat.mul_add_one exponentBit (e + 1)]
        omega
      rw [hn, scaledMagnitude_mul_add e h, scaledMagnitude_mul_add (e + 1) exponentBit_pos,
        pow_succ', ← mul_assoc]
      exact Nat.mul_lt_mul_of_pos_right (by omega) (Nat.two_pow_pos e)

theorem scaledMagnitude_strictMono : StrictMono scaledMagnitude :=
  strictMono_nat_of_lt_succ scaledMagnitude_lt_succ

theorem scaledMagnitude_zero : scaledMagnitude 0 = 0 := rfl

theorem scaledMagnitude_eq_zero_iff {n : Nat} : scaledMagnitude n = 0 ↔ n = 0 :=
  scaledMagnitude_strictMono.injective.eq_iff' scaledMagnitude_zero

/-- **Doubles are the same number** exactly when they have the same rank. -/
theorem scaled_eq_iff {x y : Float} : scaled x = scaled y ↔ rank x = rank y := by
  have hinj := scaledMagnitude_strictMono.injective.eq_iff (a := magnitude x) (b := magnitude y)
  have hx := scaledMagnitude_eq_zero_iff (n := magnitude x)
  have hy := scaledMagnitude_eq_zero_iff (n := magnitude y)
  unfold scaled rank
  split <;> split <;> omega

/-- The significand and the exponent of a double give its number of units. -/
theorem scaledMagnitude_magnitude (x : Float) :
    scaledMagnitude (magnitude x) = significand x * 2 ^ (exponent x + 1074).toNat := by
  unfold scaledMagnitude significand exponent
  dsimp only
  split
  · simp
  · next h =>
    have hexp : ((magnitude x / exponentBit : Nat) - 1075 + 1074 : Int).toNat =
        magnitude x / exponentBit - 1 := by
      generalize magnitude x / exponentBit = e at h ⊢
      omega
    rw [hexp]

/-- The exponent is never lower than that of the smallest double. -/
theorem exponent_ge (x : Float) : -1074 ≤ exponent x := by
  unfold exponent
  dsimp only
  generalize magnitude x / exponentBit = e
  split <;> omega

/-- A double with an exponent of at least zero is an integer, whose magnitude the significand
gives. -/
theorem scaledMagnitude_of_nonneg {x : Float} (h : 0 ≤ exponent x) :
    scaledMagnitude (magnitude x) = significand x <<< (exponent x).toNat * unitsPerOne := by
  have hexp : (exponent x + 1074).toNat = (exponent x).toNat + fractionBits := by
    rw [fractionBits_eq]
    omega
  rw [scaledMagnitude_magnitude, hexp, pow_add, Nat.shiftLeft_eq, mul_assoc, unitsPerOne]

/-- A double with an exponent below zero is the integer of a magnitude when its significand is that
many times the unit. -/
theorem scaledMagnitude_eq_iff {x : Float} (h : exponent x < 0) {n : Nat} :
    scaledMagnitude (magnitude x) = n * unitsPerOne ↔
      significand x = n * 2 ^ (-exponent x).toNat := by
  have hge := exponent_ge x
  have hunits : unitsPerOne = 2 ^ (-exponent x).toNat * 2 ^ (exponent x + 1074).toNat := by
    rw [← pow_add, unitsPerOne, fractionBits_eq]
    congr 1
    omega
  rw [scaledMagnitude_magnitude, hunits, ← mul_assoc]
  exact Nat.mul_left_inj (Nat.two_pow_pos _).ne'

/-- The integer that a double is, by its magnitude. -/
theorem toInt?_eq_some_iff_magnitude {x : Float} (hfinite : isFinite x = true) {n : Int} :
    toInt? x = some n ↔ ∃ k : Nat, scaledMagnitude (magnitude x) = k * unitsPerOne ∧
      (if isNegative x then -(k : Int) else k) = n := by
  simp only [toInt?, hfinite, Bool.not_true, Bool.false_eq_true, if_false]
  rcases lt_or_ge (exponent x) 0 with hexp | hexp
  · simp only [if_neg (not_le.mpr hexp), scaledMagnitude_eq_iff hexp, Nat.one_shiftLeft]
    have hunit' := Nat.two_pow_pos (-exponent x).toNat
    generalize 2 ^ (-exponent x).toNat = unit at hunit' ⊢
    constructor
    · intro h
      split at h
      · next hdvd =>
        refine ⟨significand x / unit, ?_, Option.some.inj h⟩
        rw [Nat.div_mul_cancel (Nat.dvd_of_mod_eq_zero hdvd)]
      · cases h
    · rintro ⟨k, hk, hn⟩
      rw [hk, Nat.mul_mod_left, if_pos rfl, Nat.mul_div_cancel k hunit', hn]
  · simp only [if_pos hexp, scaledMagnitude_of_nonneg hexp,
      Nat.mul_left_inj unitsPerOne_pos.ne', Option.some.injEq, exists_eq_left']

/-- An integer with a sign and a magnitude, scaled. -/
theorem signed_eq_mul_iff {negative : Bool} {m unit : Nat} (hunit : 0 < unit) {n : Int} :
    (∃ k : Nat, m = k * unit ∧ (if negative then -(k : Int) else k) = n) ↔
      (if negative then -(m : Int) else m) = n * unit := by
  constructor
  · rintro ⟨k, rfl, rfl⟩
    cases negative <;> simp
  · intro h
    have hsize : m = n.natAbs * unit := by
      have := congrArg Int.natAbs h
      rw [Int.natAbs_mul, Int.natAbs_natCast] at this
      cases negative <;> simpa using this
    refine ⟨n.natAbs, hsize, ?_⟩
    have hunit' : (0 : Int) < unit := by exact_mod_cast hunit
    cases negative with
    | false =>
      have : 0 ≤ n * unit := by rw [← h]; simp
      have := nonneg_of_mul_nonneg_left this hunit'
      simp [abs_of_nonneg this]
    | true =>
      have : n * unit ≤ 0 := by rw [← h]; simp
      have := nonpos_of_mul_nonpos_left this hunit'
      simp [abs_of_nonpos this]

/-- The number that a double is, by its units. -/
theorem scaled_eq_value_mul (x : Float) : (scaled x : ℚ) = value x * unitsPerOne := by
  have hpow : (2 : ℚ) ^ (exponent x + 1074).toNat = 2 ^ exponent x * (unitsPerOne : ℚ) := by
    rw [← zpow_natCast, Int.toNat_of_nonneg (by have := exponent_ge x; omega), unitsPerOne,
      fractionBits_eq, zpow_add₀ two_ne_zero, Nat.cast_pow, Nat.cast_two, ← zpow_natCast]
    rfl
  have hmagnitude : (scaledMagnitude (magnitude x) : ℚ) =
      significand x * (2 ^ exponent x * unitsPerOne) := by
    rw [scaledMagnitude_magnitude, Nat.cast_mul, Nat.cast_pow, Nat.cast_two, hpow]
  unfold scaled value
  split <;> push_cast <;> rw [hmagnitude] <;> ring

/-- A double is an integer when it has as many units. -/
theorem value_eq_intCast_iff {x : Float} {n : Int} : value x = n ↔ scaled x = n * unitsPerOne := by
  have hunits : (unitsPerOne : ℚ) ≠ 0 := by exact_mod_cast unitsPerOne_pos.ne'
  rw [← mul_left_inj' hunits, ← scaled_eq_value_mul]
  exact_mod_cast Iff.rfl

/-- **The integer that a double is** is found exactly. -/
theorem toInt?_eq_some_iff {x : Float} {n : Int} :
    toInt? x = some n ↔ isFinite x = true ∧ value x = n := by
  rw [value_eq_intCast_iff]
  by_cases hfinite : isFinite x = true
  · rw [toInt?_eq_some_iff_magnitude hfinite, signed_eq_mul_iff unitsPerOne_pos]
    simp only [hfinite, true_and, scaled]
  · simp only [toInt?, hfinite, Bool.not_false, if_true, reduceCtorEq, Bool.false_eq_true,
      false_and]

/-- Doubles are the same number exactly when they have the same rank. -/
theorem value_eq_iff {x y : Float} : value x = value y ↔ rank x = rank y := by
  have hunits : (unitsPerOne : ℚ) ≠ 0 := by exact_mod_cast unitsPerOne_pos.ne'
  rw [← scaled_eq_iff, ← mul_left_inj' hunits, ← scaled_eq_value_mul, ← scaled_eq_value_mul]
  exact_mod_cast Iff.rfl

end ResumableVM.Binary64
