import Mathlib
import ResumableVM.Proofs.FiniteDoubles
import ResumableVM.Proofs.Keys

/-! # RoundedIntegers: the double of an integer

A double has 53 binary digits, so an integer that needs more of them is rounded: to the nearest
double, and to the one with an even significand when two are as near.

* `scaled_ofInt`: the conversion, which goes through the unpacked form and its rounding, gives the
  integer `nearest i`. Dropping the last `k` digits is `halfEven`, and a shifted mantissa with its
  two residual bits says the same (`roundedMantissa_repeat`).
* `rank_ofInt64_le`: rounding keeps the order of the integers, but may make two of them equal.
* `rank_ofInt64_of_toInt64?`: it does not move an integer that is a double, as all are up to
  `2 ^ 53` (`toInt64?_ofInt64`). -/

namespace ResumableVM.Binary64

open Float.Model Float.Model.UnpackedFloat

/-! ## Dropping digits -/

/-- `m / 2 ^ k` rounded to the nearest integer; of two that are as near, to the even one. -/
def halfEven (m k : Nat) : Nat :=
  let q := m / 2 ^ k
  let r := m % 2 ^ k
  if 2 * r < 2 ^ k then q else if 2 * r = 2 ^ k then q + q % 2 else q + 1

theorem div_le_halfEven (m k : Nat) : m / 2 ^ k ≤ halfEven m k := by
  unfold halfEven
  dsimp only
  split_ifs <;> omega

theorem halfEven_le (m k : Nat) : halfEven m k ≤ m / 2 ^ k + 1 := by
  unfold halfEven
  dsimp only
  split_ifs <;> omega

/-- Rounding keeps the order. -/
theorem halfEven_mono {m n : Nat} (h : m ≤ n) (k : Nat) : halfEven m k ≤ halfEven n k := by
  have hdiv : m / 2 ^ k ≤ n / 2 ^ k := Nat.div_le_div_right h
  rcases hdiv.lt_or_eq with hlt | heq
  · have := halfEven_le m k
    have := div_le_halfEven n k
    omega
  · -- the quotients agree, so the remainders are ordered
    have hm := Nat.div_add_mod m (2 ^ k)
    have hn := Nat.div_add_mod n (2 ^ k)
    rw [heq] at hm
    unfold halfEven
    dsimp only
    rw [heq]
    split_ifs <;> omega

/-- What needs no rounding stays as it is. -/
theorem halfEven_mul_two_pow (c k : Nat) : halfEven (c * 2 ^ k) k = c := by
  have hpos := Nat.two_pow_pos k
  unfold halfEven
  dsimp only
  rw [Nat.mul_mod_left, Nat.mul_div_cancel c hpos, if_pos (by omega)]

theorem halfEven_zero (m : Nat) : halfEven m 0 = m := by
  have h := halfEven_mul_two_pow m 0
  rwa [pow_zero, mul_one] at h

/-- Zeros at the end of a number do not matter for its rounding. -/
theorem halfEven_mul_add (m k j : Nat) : halfEven (m * 2 ^ j) (k + j) = halfEven m k := by
  have hpos := Nat.two_pow_pos j
  have hlt : 2 * (m % 2 ^ k * 2 ^ j) < 2 ^ k * 2 ^ j ↔ 2 * (m % 2 ^ k) < 2 ^ k := by
    rw [← mul_assoc]
    exact Nat.mul_lt_mul_right hpos
  have heq : 2 * (m % 2 ^ k * 2 ^ j) = 2 ^ k * 2 ^ j ↔ 2 * (m % 2 ^ k) = 2 ^ k := by
    rw [← mul_assoc]
    exact Nat.mul_left_inj hpos.ne'
  unfold halfEven
  dsimp only
  rw [pow_add, Nat.mul_div_mul_right _ _ hpos, Nat.mul_mod_mul_right]
  simp only [hlt, heq]

/-! ## Rounding to 53 digits -/

theorem log2_mul_two_pow {n : Nat} (h : n ≠ 0) (k : Nat) : (n * 2 ^ k).log2 = n.log2 + k := by
  induction k with
  | zero => rw [pow_zero, mul_one, Nat.add_zero]
  | succ k ih =>
    have hne : n * 2 ^ k ≠ 0 := Nat.mul_ne_zero h (Nat.two_pow_pos k).ne'
    rw [pow_succ, ← mul_assoc, Nat.mul_comm _ 2, Nat.log2_two_mul hne, ih, Nat.add_assoc]

/-- The natural number of 53 binary digits that is nearest to `n`. -/
def rounded (n : Nat) : Nat := halfEven n (n.log2 - 52) * 2 ^ (n.log2 - 52)

theorem rounded_eq_self {n : Nat} (h : n < 2 ^ 53) : rounded n = n := by
  have hlog := log2_lt_of_lt h (by decide)
  rw [rounded, Nat.sub_eq_zero_of_le (by omega), halfEven_zero, pow_zero, mul_one]

theorem two_pow_eq_mul {a k : Nat} (h : k ≤ a) : 2 ^ a = 2 ^ (a - k) * 2 ^ k := by
  rw [← pow_add, Nat.sub_add_cancel h]

theorem rounded_le (n : Nat) : rounded n ≤ 2 ^ (n.log2 + 1) := by
  have hpow : 2 ^ (n.log2 + 1) = 2 ^ (n.log2 + 1 - (n.log2 - 52)) * 2 ^ (n.log2 - 52) :=
    two_pow_eq_mul (by omega)
  have hmono := halfEven_mono (@Nat.lt_log2_self n).le (n.log2 - 52)
  rw [hpow, halfEven_mul_two_pow] at hmono
  rw [rounded, hpow]
  exact Nat.mul_le_mul_right _ hmono

theorem two_pow_le_rounded {n : Nat} (h : n ≠ 0) : 2 ^ n.log2 ≤ rounded n := by
  have hpow : 2 ^ n.log2 = 2 ^ (n.log2 - (n.log2 - 52)) * 2 ^ (n.log2 - 52) :=
    two_pow_eq_mul (by omega)
  have hmono := halfEven_mono (Nat.log2_self_le h) (n.log2 - 52)
  rw [hpow, halfEven_mul_two_pow] at hmono
  rw [rounded, hpow]
  exact Nat.mul_le_mul_right _ hmono

/-- Rounding to 53 digits keeps the order, though numbers of different sizes lose different digits.
-/
theorem rounded_mono : Monotone rounded := by
  intro m n h
  rcases Nat.eq_zero_or_pos m with rfl | hm
  · rw [rounded_eq_self (by decide)]
    exact Nat.zero_le _
  · have hlog : m.log2 ≤ n.log2 := (Nat.le_log2 (by omega)).2 ((Nat.log2_self_le hm.ne').trans h)
    rcases hlog.lt_or_eq with hlt | heq
    · -- a power of two lies between them
      calc rounded m ≤ 2 ^ (m.log2 + 1) := rounded_le m
        _ ≤ 2 ^ n.log2 := Nat.pow_le_pow_right two_pos hlt
        _ ≤ rounded n := two_pow_le_rounded (by omega)
    · rw [rounded, rounded, heq]
      exact Nat.mul_le_mul_right _ (halfEven_mono h _)

/-- A number of 53 digits with zeros after them is not rounded. -/
theorem rounded_mul_two_pow {c : Nat} (h : c < 2 ^ 53) (j : Nat) :
    rounded (c * 2 ^ j) = c * 2 ^ j := by
  rcases Nat.eq_zero_or_pos c with rfl | hpos
  · rw [zero_mul, rounded_eq_self (by decide)]
  · have hlog := log2_lt_of_lt h (by decide)
    have hlog' := log2_mul_two_pow hpos.ne' j
    have hsplit : c * 2 ^ j = c * 2 ^ (j - (c.log2 + j - 52)) * 2 ^ (c.log2 + j - 52) := by
      rw [mul_assoc, ← two_pow_eq_mul (by omega)]
    rw [rounded, hlog']
    nth_rewrite 1 [hsplit]
    rw [halfEven_mul_two_pow, ← hsplit]

/-- The integer of 53 binary digits that is nearest to `i`. -/
def nearest (i : Int) : Int := if i < 0 then -(rounded i.natAbs : Int) else rounded i.natAbs

theorem nearest_mono : Monotone nearest := by
  intro i j h
  have hpos := @rounded_mono i.natAbs j.natAbs
  have hneg := @rounded_mono j.natAbs i.natAbs
  unfold nearest
  split_ifs <;> omega

/-! ## Rounding an unpacked form -/

/-- Shifting a mantissa to the right keeps the last digit dropped and whether there was any other
one before it. -/
theorem repeat_shiftRightOne (m n : Nat) :
    (n + 1).repeat ExtendedMantissa.shiftRightOne ⟨m, false, false⟩ =
      ⟨m / 2 ^ (n + 1), m / 2 ^ n % 2 != 0, m % 2 ^ n != 0⟩ := by
  induction n with
  | zero => simp [Nat.repeat, ExtendedMantissa.shiftRightOne, Nat.mod_one]
  | succ n ih =>
    have hdiv : m / 2 ^ (n + 1) / 2 = m / 2 ^ (n + 1 + 1) := by
      rw [Nat.div_div_eq_div_mul, ← pow_succ]
    have hmod : (m / 2 ^ n % 2 != 0 || m % 2 ^ n != 0) = (m % 2 ^ (n + 1) != 0) := by
      have hpos := Nat.two_pow_pos n
      rw [Nat.mod_pow_succ, Bool.eq_iff_iff]
      simp only [Bool.or_eq_true, bne_iff_ne, ne_eq, Nat.add_eq_zero_iff, Nat.mul_eq_zero]
      omega
    rw [Nat.repeat, ih, ExtendedMantissa.shiftRightOne, hdiv, hmod]

/-- The digits that a shift drops decide how its result is rounded. -/
theorem roundedMantissa_repeat (m k : Nat) :
    (k.repeat ExtendedMantissa.shiftRightOne ⟨m, false, false⟩).roundedMantissa = halfEven m k := by
  rcases k with _ | n
  · exact (halfEven_zero m).symm
  · have hpos := Nat.two_pow_pos n
    have hlow := Nat.mod_lt m hpos
    rw [repeat_shiftRightOne, halfEven, Nat.mod_pow_succ, pow_succ]
    rcases Nat.mod_two_eq_zero_or_one (m / 2 ^ n) with hbit | hbit <;> rw [hbit]
    · rw [if_pos (by omega)]
      cases m % 2 ^ n != 0 <;> rfl
    · rw [if_neg (by omega)]
      by_cases hrest : m % 2 ^ n = 0
      · rw [if_pos (by omega), hrest]
        rfl
      · rw [if_neg (by omega), bne_iff_ne.2 hrest]
        rfl

/-! ## The units of an unpacked form -/

/-- The number of units of `2 ^ -1074` in an unpacked form, with its sign. -/
def units : Float.Model.UnpackedFloat → Int
  | .finite s m e _ => s.apply (m * 2 ^ (e + 1074).toNat : Nat)
  | _ => 0

theorem ofBitVec_unpackSign (x : Float) :
    Sign.ofBitVec (@unpackSign .binary64 x.toBits.toBitVec) =
      if isNegative x then .negative else .positive := by
  have hbit : @unpackSign .binary64 x.toBits.toBitVec = 0#_ ↔ x.toBits.toNat < signBit := by
    rw [← BitVec.toNat_inj]
    simp only [unpackSign, BitVec.toNat_cast, BitVec.extractLsb_toNat, Nat.shiftRight_eq_div_pow,
      UInt64.toNat_toBitVec, signBit]
    have := x.toBits.toNat_lt
    change x.toBits.toNat / 2 ^ 63 % 2 ^ 1 = 0 ↔ _
    omega
  rw [Sign.ofBitVec, isNegative]
  simp only [hbit, decide_eq_true_eq, ← not_lt, ite_not]

/-- The unpacked form has the units of the double. -/
theorem scaled_eq_units {x : Float} (h : isFinite x = true) : scaled x = units (unpacked x) := by
  have hlt : magnitude x < infinityBits := by simpa [isFinite] using h
  have hones := mt (unpackExponent_eq_ones_iff x).1 (Nat.not_le.2 hlt)
  have hzero := unpackExponent_eq_zero_iff x
  have hsign (k : Nat) : Sign.apply (if isNegative x then .negative else .positive) (k : Int) =
      if isNegative x then -(k : Int) else k := by
    split <;> rfl
  have hbias : (Format.binary64.exponentBias : Int) + (52 : Nat) = 1075 := rfl
  rw [unpacked_eq, UnpackedFloat.unpack, scaled]
  simp only [if_neg hones, ofBitVec_unpackSign]
  by_cases hlow : magnitude x < exponentBit
  · have hrest : magnitude x % exponentBit = magnitude x := Nat.mod_eq_of_lt hlow
    have hexp : (@unpackExponent .binary64 x.toBits.toBitVec).toNat = 0 := by
      rw [toNat_unpackExponent, Nat.div_eq_of_lt hlow]
    rw [if_pos (hzero.2 hlow), scaledMagnitude_of_lt hlow]
    by_cases hm : magnitude x = 0
    · rw [dif_pos ((unpackMantissa_eq_zero_iff x).2 (hrest.trans hm)), hm]
      simp [units]
    · have hne := mt (unpackMantissa_eq_zero_iff x).1 (fun h => hm (hrest.symm.trans h))
      rw [dif_neg hne, units, hexp, hbias, hsign, toNat_unpackMantissa, hrest]
      simp
  · have hexp : ((magnitude x / exponentBit : Nat) - 1075 + 1074 : Int).toNat =
        magnitude x / exponentBit - 1 := by
      omega
    have hfield : magnitude x / exponentBit ≠ 0 := by
      have := Nat.div_pos (Nat.not_lt.1 hlow) exponentBit_pos
      omega
    rw [if_neg (mt hzero.1 hlow), units, hsign, hbias, toNat_leadingBit_append,
      toNat_unpackMantissa, toNat_unpackExponent, hexp, scaledMagnitude, if_neg hfield]
    rfl

/-- A form that is rounded to 53 bits, with its sign, the units that it has and a bound on its
exponent. -/
def IsNormal (s : Sign) (k : Nat) (b : Int) (u : Float.Model.UnpackedFloat) : Prop :=
  ∃ m e h, u = .finite s m e h ∧ m.log2 = 52 ∧ -1074 ≤ e ∧ e ≤ b ∧
    m * 2 ^ (e + 1074).toNat = k

namespace IsNormal

variable {s : Sign} {k : Nat} {b : Int} {u : Float.Model.UnpackedFloat}

theorem unpacked_packed (h : IsNormal s k b u) (hb : b < 972) : unpacked (packed u) = u := by
  obtain ⟨m, e, hpos, rfl, hm, hlow, hhigh, -⟩ := h
  exact unpacked_packed_finite hm hlow (by omega)

theorem neg (h : IsNormal s k b u) : IsNormal (-s) k b u.neg := by
  obtain ⟨m, e, hpos, rfl, hm, hlow, hhigh, hk⟩ := h
  exact ⟨m, e, hpos, rfl, hm, hlow, hhigh, hk⟩

theorem isFinite {x : Float} (h : IsNormal s k b (unpacked x)) : Binary64.isFinite x = true := by
  obtain ⟨m, e, hpos, hu, -⟩ := h
  rw [isFinite_eq, hu]
  rfl

theorem scaled_eq {x : Float} (h : IsNormal s k b (unpacked x)) : scaled x = s.apply k := by
  rw [scaled_eq_units h.isFinite]
  obtain ⟨m, e, hpos, hu, -, -, -, rfl⟩ := h
  rw [hu, units]

end IsNormal

/-- Rounding to 53 digits goes to the nearest number, to the even one of two that are as near. -/
theorem isNormal_rounded (s : Sign) {m : Nat} {e b : Int} (hm : 52 ≤ m.log2)
    (hlow : -1022 ≤ m.log2 + e) (hb : m.log2 + e - 51 ≤ b) :
    IsNormal s (halfEven m (m.log2 - 52) * 2 ^ (m.log2 + e + 1022).toNat) b
      (roundWithAccuracy .binary64 s m e .exact) := by
  obtain ⟨m', e', hpos, heq, hlog, he, he', hvalue⟩ :=
    @roundWithAccuracy_normal s m e .exact hm (by omega)
  refine ⟨m', e', hpos, heq, hlog, by omega, by omega, ?_⟩
  have hexp : (e' + 1074).toNat =
      (e' - (m.log2 + e - 52)).toNat + (m.log2 + e + 1022).toNat := by omega
  rw [hexp, pow_add, ← mul_assoc, hvalue]
  exact congrArg (· * _) (roundedMantissa_repeat m (m.log2 - 52))

/-! ## The conversion -/

/-- A word of 53 digits is converted directly. -/
theorem isNormal_toFloat {n : Nat} (hpos : n ≠ 0) (h : n < 2 ^ 53) :
    IsNormal .positive (n * unitsPerOne) 10 (unpacked n.toUInt64.toFloat) := by
  have hn : n.toUInt64.toNat = n := UInt64.toNat_ofNat_of_lt' (by simp [UInt64.size]; omega)
  have hsign : compare (n : Int) 0 = .gt := Int.compare_eq_gt.2 (by omega)
  have htarget : Format.binary64.targetExponent (totalExponent n 0)
      = max ((n.log2 : Int) + 1 + 0 - 53) (-1074) := rfl
  have hlog := log2_lt_of_lt h (by decide)
  have hshift : (0 - max ((n.log2 : Int) + 1 + 0 - 53) (-1074)).toNat = 52 - n.log2 := by omega
  have hlog' := log2_mul_two_pow hpos (52 - n.log2)
  have hform : UnpackedFloat.ofInt .binary64 (n.toUInt64.toNat : Int) = roundWithAccuracy .binary64
      .positive (n * 2 ^ (52 - n.log2)) (0 - (52 - n.log2 : Nat)) .exact := by
    rw [hn, UnpackedFloat.ofInt, UnpackedFloat.normalize]
    simp only [hsign, UnpackedFloat.round, decreaseExponent, Int.toNat_natCast, htarget, hshift,
      Nat.shiftLeft_eq]
  have hnormal := @isNormal_rounded .positive (n * 2 ^ (52 - n.log2)) (0 - (52 - n.log2 : Nat)) 10
    (by omega) (by omega) (by omega)
  have hunits : 52 - n.log2 + (n.log2 + 1022) = fractionBits := by
    rw [fractionBits_eq]
    omega
  rw [hlog', show n.log2 + (52 - n.log2) - 52 = 0 by omega, halfEven_zero,
    show ((n.log2 + (52 - n.log2) : Nat) + (0 - (52 - n.log2 : Nat)) + 1022 : Int).toNat
      = n.log2 + 1022 by omega, mul_assoc, ← pow_add, hunits] at hnormal
  show IsNormal .positive _ _
    (unpacked (packed (UnpackedFloat.ofInt .binary64 (n.toUInt64.toNat : Int))))
  rw [hform, hnormal.unpacked_packed (by decide)]
  exact hnormal

/-- The unpacked form of one. -/
theorem unpacked_one : unpacked Float.exactlyRepresentablePowersOfTen[0]
    = .finite .positive (2 ^ 52) (-52) (by decide) := rfl

theorem IsNormal.mul_one {s : Sign} {k : Nat} {x : Float} (h : IsNormal s k 10 (unpacked x)) :
    IsNormal s k 20 (unpacked (x * Float.exactlyRepresentablePowersOfTen[0])) := by
  obtain ⟨m, e, hpos, hu, hm, hlow, hhigh, rfl⟩ := h
  have hlog : (m * 2 ^ 52).log2 = 104 := by rw [log2_mul_two_pow hpos.ne', hm]
  have hnormal := @isNormal_rounded s (m * 2 ^ 52) (e + -52) 20 (by omega) (by omega) (by omega)
  have hsign : s * .positive = s := by cases s <;> rfl
  rw [hlog, show 104 - 52 = 52 from rfl, halfEven_mul_two_pow,
    show ((104 : Nat) + (e + -52) + 1022 : Int) = e + 1074 by omega] at hnormal
  rw [mul_eq, unpacked_one, hu]
  simp only [UnpackedFloat.mul, hsign]
  rw [hnormal.unpacked_packed (by decide)]
  exact hnormal

/-- A longer word goes through the product of its significand and `10 ^ 0`. -/
theorem isNormal_ofScientific {n : Nat} (hlow : 2 ^ 53 ≤ n) (h : n < UInt64.size) :
    IsNormal .positive (rounded n * unitsPerOne) 20
      (unpacked (packed (UnpackedFloat.ofScientific .binary64 n 0))) := by
  have hpos : n ≠ 0 := by omega
  have hlog : n.log2 < 64 := log2_lt_of_lt h (by decide)
  have hlog' : 53 ≤ n.log2 := (Nat.le_log2 hpos).2 hlow
  have hshift := log2_mul_two_pow hpos 53
  have hnormal := @isNormal_rounded (.positive * .positive) (n * 2 ^ 53) (-(53 : Nat) + 0) 20
    (by omega) (by omega) (by omega)
  have hunits : n.log2 + 1022 = n.log2 - 52 + fractionBits := by
    rw [fractionBits_eq]
    omega
  rw [hshift, show n.log2 + 53 - 52 = n.log2 - 52 + 53 by omega, halfEven_mul_add,
    show ((n.log2 + 53 : Nat) + (-(53 : Nat) + 0) + 1022 : Int).toNat = n.log2 + 1022 by omega,
    hunits, pow_add, ← mul_assoc] at hnormal
  unfold UnpackedFloat.ofScientific
  rw [dif_neg hpos]
  split_ifs with hhuge htiny hexp
  · exact absurd hhuge (by decide)
  · rw [show (2 : Int) ^ Format.binary64.exponentBits = 2048 from rfl] at htiny
    omega
  · simp only [UnpackedFloat.mul]
    rw [show Format.binary64.mantissaBits = 53 from rfl, Nat.shiftLeft_eq,
      show 10 ^ (0 : Int).toNat = 1 from rfl, Nat.mul_one, hnormal.unpacked_packed (by decide)]
    exact hnormal
  · exact absurd le_rfl hexp

theorem isNormal_ofNat {n : Nat} (hpos : n ≠ 0) (h : n < UInt64.size) :
    IsNormal .positive (rounded n * unitsPerOne) 20 (unpacked (Float.ofNat n)) := by
  show IsNormal .positive _ _ (unpacked (Float.ofScientific n false 0))
  rcases Nat.lt_or_ge n (2 ^ 53) with hn | hn
  · rw [Float.ofScientific, dif_pos ⟨hn, by omega⟩, rounded_eq_self hn]
    exact (isNormal_toFloat hpos hn).mul_one
  · rw [Float.ofScientific, dif_neg (fun h => hn.not_gt h.1)]
    exact isNormal_ofScientific hn h

/-- The double of a word is a number. -/
theorem isFinite_ofNat {n : Nat} (h : n < UInt64.size) : isFinite (Float.ofNat n) = true := by
  rcases Nat.eq_zero_or_pos n with rfl | hpos
  · decide +kernel
  · exact (isNormal_ofNat hpos.ne' h).isFinite

/-- The double of an integer whose digits fit into a word is a number. -/
theorem isFinite_ofInt {i : Int} (h : i.natAbs < UInt64.size) :
    isFinite (Float.ofInt i) = true := by
  cases i with
  | ofNat n => exact isFinite_ofNat h
  | negSucc n => exact isFinite_neg (isFinite_ofNat h)

/-- **The double of an integer** has the units of the nearest integer of 53 digits. -/
theorem scaled_ofInt {i : Int} (h : i.natAbs < UInt64.size) :
    scaled (Float.ofInt i) = nearest i * unitsPerOne := by
  rcases i with (_ | n) | n
  · decide +kernel
  · have hnormal := isNormal_ofNat (Nat.succ_ne_zero n) h
    have hsign : ¬Int.ofNat (n + 1) < 0 := Int.not_lt.2 (Int.natCast_nonneg (n + 1))
    show scaled (Float.ofNat (n + 1)) = _
    rw [hnormal.scaled_eq, nearest, if_neg hsign, ← Nat.cast_mul]
    rfl
  · have hnormal := isNormal_ofNat (Nat.succ_ne_zero n) h
    have hneg := hnormal.neg
    show scaled (-Float.ofNat (n + 1)) = _
    rw [← hneg.unpacked_packed (by decide), ← neg_eq] at hneg
    rw [hneg.scaled_eq, nearest, if_pos (Int.negSucc_lt_zero n), neg_mul, ← Nat.cast_mul]
    rfl

/-! ## Integers among the doubles -/

theorem significand_lt (x : Float) : significand x < 2 ^ 53 := by
  unfold significand
  have := Nat.mod_lt (magnitude x) exponentBit_pos
  dsimp only
  split_ifs with h
  · rw [exponentBit] at h
    omega
  · rw [exponentBit] at *
    omega

/-- An integer that is a double needs no rounding. -/
theorem nearest_eq_self {x : Float} {n : Int} (hfinite : isFinite x = true) (h : value x = n) :
    nearest n = n := by
  obtain ⟨k, hk, rfl⟩ := (toInt?_eq_some_iff_magnitude hfinite).1
    (toInt?_eq_some_iff.2 ⟨hfinite, h⟩)
  have hsig := significand_lt x
  have hrounded : rounded k = k := by
    rcases lt_or_ge (exponent x) 0 with hexp | hexp
    · have hle := Nat.le_mul_of_pos_right k (Nat.two_pow_pos (-exponent x).toNat)
      rw [← (scaledMagnitude_eq_iff hexp).1 hk] at hle
      exact rounded_eq_self (hle.trans_lt hsig)
    · rw [scaledMagnitude_of_nonneg hexp, Nat.mul_left_inj unitsPerOne_pos.ne',
        Nat.shiftLeft_eq] at hk
      rw [← hk, rounded_mul_two_pow hsig]
  have hzero : k = 0 → rounded k = 0 := fun h => hrounded.trans h
  cases isNegative x <;> simp [nearest, hrounded]

theorem scaled_lt_iff {x y : Float} : scaled x < scaled y ↔ rank x < rank y := by
  have hlt := scaledMagnitude_strictMono.lt_iff_lt (a := magnitude x) (b := magnitude y)
  have hgt := scaledMagnitude_strictMono.lt_iff_lt (a := magnitude y) (b := magnitude x)
  have hx := scaledMagnitude_eq_zero_iff (n := magnitude x)
  have hy := scaledMagnitude_eq_zero_iff (n := magnitude y)
  unfold scaled rank
  split <;> split <;> omega

theorem natAbs_toInt_lt (n : Int64) : n.toInt.natAbs < UInt64.size := by
  have hlow := n.le_toInt
  have hhigh := n.toInt_lt
  rw [UInt64.size]
  omega

theorem scaled_ofInt64 (n : Int64) : scaled (ofInt64 n) = nearest n.toInt * unitsPerOne :=
  scaled_ofInt (natAbs_toInt_lt n)

/-- The double of an integer is a number. -/
theorem isNaN_ofInt64 (n : Int64) : isNaN (ofInt64 n) = false :=
  ((isFinite_iff _).1 (isFinite_ofInt (natAbs_toInt_lt n))).1

/-- The doubles of integers are ordered as the integers, but two integers may share one. -/
theorem rank_ofInt64_le {m n : Int64} (h : m.toInt ≤ n.toInt) :
    rank (ofInt64 m) ≤ rank (ofInt64 n) := by
  refine le_of_not_gt fun hgt => ?_
  rw [← scaled_lt_iff, scaled_ofInt64, scaled_ofInt64] at hgt
  have hmono := mul_le_mul_of_nonneg_right (nearest_mono h) (Int.natCast_nonneg unitsPerOne)
  omega

/-- A double that is an integer is the double of this integer. -/
theorem rank_ofInt64_of_toInt64? {x : Float} {n : Int64} (h : toInt64? x = some n) :
    rank (ofInt64 n) = rank x := by
  obtain ⟨hfinite, hvalue⟩ := toInt64?_eq_some_iff.1 h
  rw [← scaled_eq_iff, scaled_ofInt64, nearest_eq_self hfinite hvalue]
  exact (value_eq_intCast_iff.1 hvalue).symm

/-- The integers up to `2 ^ 53` are doubles. -/
theorem toInt64?_ofInt64 {n : Int64} (h : n.toInt.natAbs ≤ 2 ^ 53) :
    toInt64? (ofInt64 n) = some n := by
  have hrounded : rounded n.toInt.natAbs = n.toInt.natAbs := by
    rcases h.lt_or_eq with hlt | heq
    · exact rounded_eq_self hlt
    · rw [heq]
      exact rounded_mul_two_pow (by decide : 1 < 2 ^ 53) 53
  have hnearest : nearest n.toInt = n.toInt := by
    rw [nearest, hrounded]
    split <;> omega
  refine toInt64?_eq_some_iff.2 ⟨isFinite_ofInt (natAbs_toInt_lt n), value_eq_intCast_iff.2 ?_⟩
  rw [scaled_ofInt64, hnearest]

end ResumableVM.Binary64
