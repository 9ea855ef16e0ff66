import Mathlib.Data.Rat.Floor
import Mathlib.Tactic
import ResumableVM.Proofs.Keys
import ResumableVM.Value.Arithmetic

/-! # FloorDivision: division of integers that rounds down

Words are divided with the quotient rounded toward zero. It then lies above the exact one where a
remainder is left and the signs differ (`Overshoots`), and `floorDiv` and `floorMod` mend both. What
comes out is the largest integer below the exact quotient, and the remainder that goes with it: it
lies on the divisor's side of zero (`OnSide`), which alone makes the quotient the one that is
rounded down (`floor_eq_of_onSide`).

The difference and the sum that mend them are words (`floorDiv?_eq`, `floorMod?_eq`). Only one
quotient is none: that of the least word by `-1`. -/

namespace ResumableVM

/-! ### Whole numbers -/

/-- The remainder is zero or on the divisor's side of it, and nearer to it than the divisor. -/
def OnSide (b r : ℤ) : Prop := 0 ≤ r ∧ r < b ∨ b < r ∧ r ≤ 0

/-- The quotient that is rounded toward zero lies above the exact one. -/
def Overshoots (a b : ℤ) : Prop := a.tmod b ≠ 0 ∧ ¬(a < 0 ↔ b < 0)

variable {a b q r : ℤ}

/-- **A remainder on the divisor's side** is that of the quotient rounded down. -/
theorem floor_eq_of_onSide (h : a = b * q + r) (hr : OnSide b r) : ⌊(a / b : ℚ)⌋ = q := by
  have hb : (b : ℚ) ≠ 0 := by
    have : b ≠ 0 := by rcases hr with hr | hr <;> omega
    exact_mod_cast this
  have hquotient : (a / b : ℚ) = q + r / b := by
    rw [h]
    push_cast
    field_simp
  have hrest : 0 ≤ (r / b : ℚ) ∧ (r / b : ℚ) < 1 := by
    rcases hr with ⟨hpos, hlt⟩ | ⟨hlt, hneg⟩
    · have hb0 : (0 : ℚ) < b := by exact_mod_cast hpos.trans_lt hlt
      exact ⟨div_nonneg (by exact_mod_cast hpos) hb0.le,
        (div_lt_one hb0).mpr (by exact_mod_cast hlt)⟩
    · have hb0 : (b : ℚ) < 0 := by exact_mod_cast hlt.trans_le hneg
      exact ⟨div_nonneg_of_nonpos (by exact_mod_cast hneg) hb0.le,
        (div_lt_one_of_neg hb0).mpr (by exact_mod_cast hlt)⟩
  rw [hquotient, Int.floor_intCast_add, Int.floor_eq_zero_iff.mpr hrest, add_zero]

theorem OnSide.abs_lt (h : OnSide b r) : |r| < |b| := by
  rcases h with h | h
  · rw [abs_of_nonneg h.1, abs_of_nonneg (by omega)]
    exact h.2
  · rw [abs_of_nonpos h.2, abs_of_neg (by omega)]
    omega

theorem OnSide.sign_eq (h : OnSide b r) (hr : r ≠ 0) : r.sign = b.sign := by
  rcases h with h | h
  · rw [Int.sign_eq_one_of_pos (by omega), Int.sign_eq_one_of_pos (by omega)]
  · rw [Int.sign_eq_neg_one_of_neg (by omega), Int.sign_eq_neg_one_of_neg (by omega)]

/-- The remainder of the quotient rounded toward zero lies on the dividend's side. -/
theorem tmod_side (a b : ℤ) : (0 ≤ a → 0 ≤ a.tmod b) ∧ (a < 0 → a.tmod b ≤ 0) := by
  refine ⟨Int.tmod_nonneg b, fun h => ?_⟩
  have := Int.tmod_nonneg b (neg_nonneg.mpr h.le)
  rw [Int.neg_tmod] at this
  omega

theorem natAbs_tmod_lt (a : ℤ) (hb : b ≠ 0) : (a.tmod b).natAbs < b.natAbs := by
  rw [Int.natAbs_tmod]
  exact Nat.mod_lt _ (Int.natAbs_pos.mpr hb)

/-- The sign of the remainder tells as much as that of the dividend. -/
theorem overshoots_iff_tmod : Overshoots a b ↔ a.tmod b ≠ 0 ∧ ¬(a.tmod b < 0 ↔ b < 0) := by
  have := tmod_side a b
  unfold Overshoots
  omega

/-- Where the quotient overshoots, the divisor's side is one step down. -/
theorem onSide_add (hb : b ≠ 0) (h : Overshoots a b) : OnSide b (a.tmod b + b) := by
  have := overshoots_iff_tmod.mp h
  have := natAbs_tmod_lt a hb
  unfold OnSide
  omega

theorem onSide_tmod (hb : b ≠ 0) (h : ¬Overshoots a b) : OnSide b (a.tmod b) := by
  have := mt overshoots_iff_tmod.mpr h
  have := natAbs_tmod_lt a hb
  unfold OnSide
  omega

/-- **The quotient rounded down**, by the one rounded toward zero. -/
theorem floor_of_overshoots (hb : b ≠ 0) (h : Overshoots a b) : ⌊(a / b : ℚ)⌋ = a.tdiv b - 1 := by
  refine floor_eq_of_onSide ?_ (onSide_add hb h)
  rw [Int.tmod_def]
  ring

theorem floor_of_not_overshoots (hb : b ≠ 0) (h : ¬Overshoots a b) :
    ⌊(a / b : ℚ)⌋ = a.tdiv b := by
  refine floor_eq_of_onSide ?_ (onSide_tmod hb h)
  rw [Int.tmod_def]
  ring

/-- A remainder is left only by divisors that make the quotient small. -/
theorem natAbs_tdiv_le (h : a.tmod b ≠ 0) (hb : b ≠ 0) : 2 * (a.tdiv b).natAbs ≤ a.natAbs := by
  have hb2 : 2 ≤ b.natAbs := by
    have := natAbs_tmod_lt a hb
    omega
  rw [Int.natAbs_tdiv]
  calc 2 * (a.natAbs / b.natAbs) ≤ b.natAbs * (a.natAbs / b.natAbs) := Nat.mul_le_mul_right _ hb2
    _ ≤ a.natAbs := Nat.mul_div_le _ _

/-! ### Words -/

variable {x y : Int64}

/-- The sign of a bitwise difference says whether the signs differ. -/
theorem xor_lt_zero_iff : x ^^^ y < 0 ↔ ¬(x.toInt < 0 ↔ y.toInt < 0) := by
  have hsign (z : Int64) : z < 0 ↔ z.toBitVec.msb = true := by
    rw [Int64.lt_iff_toInt_lt, BitVec.msb_eq_toInt, decide_eq_true_iff, Int64.toInt_toBitVec]
    rfl
  have hword (z : Int64) : z.toInt < 0 ↔ z.toBitVec.msb = true := by
    rw [BitVec.msb_eq_toInt, decide_eq_true_iff, Int64.toInt_toBitVec]
  rw [hsign, hword, hword, Int64.toBitVec_xor, BitVec.msb_xor]
  cases x.toBitVec.msb <;> cases y.toBitVec.msb <;> decide

theorem mod_ne_zero_iff : x % y ≠ 0 ↔ x.toInt.tmod y.toInt ≠ 0 := by
  rw [ne_eq, ← Int64.toInt_inj, Int64.toInt_mod, Int64.toInt_zero]

/-- Both tests for a quotient that is too large. -/
theorem overshoots_iff : x % y ≠ 0 ∧ x ^^^ y < 0 ↔ Overshoots x.toInt y.toInt := by
  rw [mod_ne_zero_iff, xor_lt_zero_iff, Overshoots]

theorem overshoots_iff_mod : x % y ≠ 0 ∧ x % y ^^^ y < 0 ↔ Overshoots x.toInt y.toInt := by
  rw [mod_ne_zero_iff, xor_lt_zero_iff, Int64.toInt_mod, overshoots_iff_tmod]

/-- The floor of the exact quotient of two words. -/
def floorQuotient (x y : Int64) : ℤ := ⌊(x.toInt / y.toInt : ℚ)⌋

theorem toInt_ne_zero (hy : y ≠ 0) : y.toInt ≠ 0 := by
  rwa [ne_eq, ← Int64.toInt_zero, Int64.toInt_inj]

/-- **The quotient of words is the floor**, reduced to a word. -/
theorem floorDiv_eq (hy : y ≠ 0) : floorDiv x y = Int64.ofInt (floorQuotient x y) := by
  have hquotient : x / y = Int64.ofInt (x.toInt.tdiv y.toInt) := by
    rw [← Int64.toInt_inj, Int64.toInt_div, Int64.toInt_ofInt]
  unfold floorDiv floorQuotient
  by_cases h : Overshoots x.toInt y.toInt
  · rw [if_pos (overshoots_iff.mpr h), floor_of_overshoots (toInt_ne_zero hy) h, hquotient,
      Int64.ofInt_sub]
    rfl
  · rw [if_neg (mt overshoots_iff.mp h), floor_of_not_overshoots (toInt_ne_zero hy) h, hquotient]

/-- The quotient rounded toward zero is a word, but for that of the least word by `-1`. -/
theorem toInt_div_of_ne (h : ¬(x = Int64.minValue ∧ y = -1)) :
    (x / y).toInt = x.toInt.tdiv y.toInt := by
  rcases not_and_or.mp h with h | h
  · exact Int64.toInt_div_of_ne_left x y h
  · exact Int64.toInt_div_of_ne_right x y h

theorem floorQuotient_bounds (hy : y ≠ 0) (h : ¬(x = Int64.minValue ∧ y = -1)) :
    -2 ^ 63 ≤ floorQuotient x y ∧ floorQuotient x y < 2 ^ 63 := by
  have hy0 := toInt_ne_zero hy
  unfold floorQuotient
  by_cases hover : Overshoots x.toInt y.toInt
  · -- One step down is still far from the least word.
    have hhalf := natAbs_tdiv_le hover.1 hy0
    have hlower := x.le_toInt
    have hupper := x.toInt_lt
    rw [floor_of_overshoots hy0 hover]
    omega
  · rw [floor_of_not_overshoots hy0 hover, ← toInt_div_of_ne h]
    exact ⟨(x / y).le_toInt, (x / y).toInt_lt⟩

/-- **All floors but one are words.** -/
theorem toInt_ofInt_floorQuotient_iff (hy : y ≠ 0) :
    (Int64.ofInt (floorQuotient x y)).toInt = floorQuotient x y ↔
      ¬(x = Int64.minValue ∧ y = -1) := by
  constructor
  · rintro h ⟨rfl, rfl⟩
    have hfloor : floorQuotient Int64.minValue (-1) = 2 ^ 63 :=
      floor_of_not_overshoots (by decide) (by unfold Overshoots; decide)
    rw [hfloor] at h
    exact absurd h (by decide)
  · intro h
    obtain ⟨hlower, hupper⟩ := floorQuotient_bounds hy h
    exact Int64.toInt_ofInt_of_le hlower hupper

/-- A sum on the divisor's side is a word. -/
theorem toInt_mod_add (hy : y ≠ 0) (h : Overshoots x.toInt y.toInt) :
    (x % y + y).toInt = x.toInt.tmod y.toInt + y.toInt := by
  have hside := onSide_add (toInt_ne_zero hy) h
  have hlower := y.le_toInt
  have hupper := y.toInt_lt
  unfold OnSide at hside
  rw [Int64.toInt_add, Int64.toInt_mod, Int.bmod_eq_of_le (by omega) (by omega)]

/-- **The remainder of words is exact**, and lies on the divisor's side. -/
theorem toInt_floorMod (hy : y ≠ 0) :
    (floorMod x y).toInt = x.toInt - y.toInt * floorQuotient x y ∧
      OnSide y.toInt (floorMod x y).toInt := by
  have hy0 := toInt_ne_zero hy
  unfold floorMod floorQuotient
  by_cases h : Overshoots x.toInt y.toInt
  · rw [if_pos (overshoots_iff_mod.mpr h), toInt_mod_add hy h, floor_of_overshoots hy0 h]
    refine ⟨?_, onSide_add hy0 h⟩
    rw [Int.tmod_def]
    ring
  · rw [if_neg (mt overshoots_iff_mod.mp h), Int64.toInt_mod, floor_of_not_overshoots hy0 h]
    exact ⟨Int.tmod_def _ _, onSide_tmod hy0 h⟩

/-! ### Without wrapping around -/

/-- `floorDiv`, without a value where the difference is no word. -/
def floorDiv? (x y : Int64) : Option Int64 :=
  let q := x / y
  if x % y ≠ 0 ∧ x ^^^ y < 0 then signedWord? (q.toInt - 1) else some q

/-- `floorMod`, without a value where the sum is no word. -/
def floorMod? (x y : Int64) : Option Int64 :=
  let r := x % y
  if r ≠ 0 ∧ r ^^^ y < 0 then signedWord? (r.toInt + y.toInt) else some r

/-- **The difference is always a word.** -/
theorem floorDiv?_eq (hy : y ≠ 0) : floorDiv? x y = some (floorDiv x y) := by
  have hfloor := floorDiv_eq (x := x) hy
  unfold floorDiv?
  unfold floorDiv at hfloor ⊢
  by_cases h : Overshoots x.toInt y.toInt
  · -- A remainder is left, so the divisor is not `-1`.
    have hne : ¬(x = Int64.minValue ∧ y = -1) := by
      rintro ⟨rfl, rfl⟩
      exact h.1 (by decide)
    rw [if_pos (overshoots_iff.mpr h)] at hfloor
    simp only [if_pos (overshoots_iff.mpr h)]
    rw [signedWord?_eq_some_iff, hfloor, (toInt_ofInt_floorQuotient_iff hy).mpr hne,
      toInt_div_of_ne hne]
    exact (floor_of_overshoots (toInt_ne_zero hy) h).symm
  · simp only [if_neg (mt overshoots_iff.mp h)]

/-- **The sum is always a word.** -/
theorem floorMod?_eq (hy : y ≠ 0) : floorMod? x y = some (floorMod x y) := by
  unfold floorMod? floorMod
  by_cases h : Overshoots x.toInt y.toInt
  · simp only [if_pos (overshoots_iff_mod.mpr h)]
    rw [signedWord?_eq_some_iff, toInt_mod_add hy h, Int64.toInt_mod]
  · simp only [if_neg (mt overshoots_iff_mod.mp h)]

/-! ### The main result -/

/-- **Integers are divided rounding down, exactly.** The remainder is the one that goes with the
floor of the exact quotient, so it is zero or has the divisor's sign, and is smaller; the quotient
is this floor reduced to a word, which makes a difference only for the least word by `-1`; neither
computation leaves the words on its way; and there is no division by zero. -/
theorem floor_division_exact (x y : Int64) :
    (y = 0 →
      ArithOp.floorDivide.apply (.integer x) (.integer y) = .error (.divisionByZero "//") ∧
      ArithOp.modulo.apply (.integer x) (.integer y) = .error (.divisionByZero "%")) ∧
    (y ≠ 0 → ∃ q r : Int64,
      ArithOp.floorDivide.apply (.integer x) (.integer y) = .ok (.integer q) ∧
      ArithOp.modulo.apply (.integer x) (.integer y) = .ok (.integer r) ∧
      r.toInt = x.toInt - y.toInt * ⌊(x.toInt / y.toInt : ℚ)⌋ ∧
      (r = 0 ∨ r.toInt.sign = y.toInt.sign) ∧ |r.toInt| < |y.toInt| ∧
      q = Int64.ofInt ⌊(x.toInt / y.toInt : ℚ)⌋ ∧
      (q.toInt = ⌊(x.toInt / y.toInt : ℚ)⌋ ↔ ¬(x = Int64.minValue ∧ y = -1)) ∧
      floorDiv? x y = some q ∧ floorMod? x y = some r) := by
  constructor
  · rintro rfl
    exact ⟨rfl, rfl⟩
  · intro hy
    have hquotient := floorDiv_eq (x := x) hy
    obtain ⟨hexact, hside⟩ := toInt_floorMod (x := x) hy
    refine ⟨floorDiv x y, floorMod x y, ?_, ?_, hexact, ?_, hside.abs_lt, hquotient, ?_,
      floorDiv?_eq hy, floorMod?_eq hy⟩
    · simp only [ArithOp.apply, ArithOp.onIntegers, if_neg hy]
    · simp only [ArithOp.apply, ArithOp.onIntegers, if_neg hy]
    · refine or_iff_not_imp_left.mpr fun hr => hside.sign_eq ?_
      exact toInt_ne_zero hr
    · rw [hquotient]
      exact toInt_ofInt_floorQuotient_iff hy

/-- The signs differ and a remainder is left, at the end of the range. -/
example : floorDiv Int64.minValue 10 = -922337203685477581 ∧ floorMod Int64.minValue 10 = 2 := by
  decide

end ResumableVM
