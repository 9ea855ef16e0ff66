import Mathlib
import ResumableVM.Numeric.Binary64

/-! # FiniteDoubles: when a computed double is a number

A double is unpacked into a sign, a significand and an exponent; an operation is carried out on
these, and its result is rounded and packed again. The tests on the bits of a double are tests on
its unpacked form (`isFinite_eq` and the lemmas beside it).

* `roundWithAccuracy_normal`: a number with digits enough is rounded to 53 of them, so the powers of
  ten up to `10 ^ 308` are neither infinite nor zero (`finite_power`). Multiplying a number by such
  a double, or dividing by it, gives no NaN (`isNaN_mul`, `isNaN_div`). -/

namespace ResumableVM.Binary64

open Float.Model Float.Model.UnpackedFloat

/-! ## Tests on the unpacked form -/

/-- The unpacked form of a double. -/
def unpacked (x : Float) : Float.Model.UnpackedFloat := x.toModel.unpack

/-- The double with a given unpacked form, provided that the form is rounded. -/
def packed (u : Float.Model.UnpackedFloat) : Float := .ofModel (.pack u)

theorem mul_eq (x y : Float) : x * y = packed ((unpacked x).mul .binary64 (unpacked y)) := rfl

theorem div_eq (x y : Float) : x / y = packed ((unpacked x).div .binary64 (unpacked y)) := rfl

theorem neg_eq (x : Float) : -x = packed (unpacked x).neg := rfl

theorem unpacked_eq (x : Float) :
    unpacked x = UnpackedFloat.unpack .binary64 x.toBits.toBitVec := rfl

theorem unpacked_packed (u : Float.Model.UnpackedFloat) :
    unpacked (packed u) = UnpackedFloat.unpack .binary64 (UnpackedFloat.pack .binary64 u) := rfl

theorem toNat_unpackExponent (x : Float) :
    (@unpackExponent .binary64 x.toBits.toBitVec).toNat = magnitude x / exponentBit := by
  simp only [unpackExponent, BitVec.toNat_cast, BitVec.extractLsb_toNat,
    Nat.shiftRight_eq_div_pow, UInt64.toNat_toBitVec, magnitude, signBit, exponentBit]
  omega

theorem toNat_unpackMantissa (x : Float) :
    (@unpackMantissa .binary64 x.toBits.toBitVec).toNat = magnitude x % exponentBit := by
  simp only [unpackMantissa, BitVec.toNat_cast, BitVec.extractLsb_toNat,
    Nat.shiftRight_eq_div_pow, UInt64.toNat_toBitVec, magnitude, signBit, exponentBit]
  omega

theorem unpackExponent_eq_ones_iff (x : Float) :
    @unpackExponent .binary64 x.toBits.toBitVec = -1#_ ↔ infinityBits ≤ magnitude x := by
  rw [← BitVec.toNat_inj, toNat_unpackExponent, show (-1#11).toNat = 2047 from rfl]
  simp only [magnitude, infinityBits, exponentBit, signBit]
  omega

theorem unpackExponent_eq_zero_iff (x : Float) :
    @unpackExponent .binary64 x.toBits.toBitVec = 0#_ ↔ magnitude x < exponentBit := by
  rw [← BitVec.toNat_inj, toNat_unpackExponent, show (0#11).toNat = 0 from rfl]
  simp only [magnitude, exponentBit, signBit]
  omega

theorem unpackMantissa_eq_zero_iff (x : Float) :
    @unpackMantissa .binary64 x.toBits.toBitVec = 0#_
      ↔ magnitude x % exponentBit = 0 := by
  rw [← BitVec.toNat_inj, toNat_unpackMantissa, show (0#52).toNat = 0 from rfl]

theorem magnitude_eq_infinityBits {x : Float} (h : infinityBits ≤ magnitude x) :
    magnitude x % exponentBit = 0 ↔ magnitude x = infinityBits := by
  have hbound : magnitude x < signBit := Nat.mod_lt _ (by decide)
  simp only [infinityBits, exponentBit, signBit] at *
  omega

/-- The unpacked form says where the magnitude lies. -/
theorem unpacked_cases (x : Float) :
    (∃ s, unpacked x = .infinity s ∧ magnitude x = infinityBits) ∨
      (unpacked x = .notANumber ∧ infinityBits < magnitude x) ∨
      (∃ s, unpacked x = .zero s ∧ magnitude x = 0) ∨
      ∃ s m e h, unpacked x = .finite s m e h ∧ 0 < magnitude x ∧ magnitude x < infinityBits := by
  have hones := unpackExponent_eq_ones_iff x
  have hzero := unpackExponent_eq_zero_iff x
  have hmantissa := unpackMantissa_eq_zero_iff x
  have hspecial := @magnitude_eq_infinityBits x
  have hsmall : magnitude x < exponentBit → magnitude x % exponentBit = magnitude x :=
    Nat.mod_eq_of_lt
  have hpos : 0 < exponentBit := by decide
  have hlt : exponentBit < infinityBits := by decide
  obtain ⟨u, hu⟩ : ∃ u, unpacked x = u := ⟨_, rfl⟩
  rw [hu]
  rw [unpacked_eq, UnpackedFloat.unpack] at hu
  dsimp only at hu
  split_ifs at hu with h₁ h₂ h₃ h₄ <;> subst hu
  · exact .inl ⟨_, rfl, (hspecial (hones.1 h₁)).1 (hmantissa.1 h₂)⟩
  · have hne : magnitude x ≠ infinityBits := fun h =>
      h₂ (hmantissa.2 ((hspecial (hones.1 h₁)).2 h))
    exact .inr (.inl ⟨rfl, by have := hones.1 h₁; omega⟩)
  · have := hzero.1 h₃
    exact .inr (.inr (.inl ⟨_, rfl, by rw [← hsmall this]; exact hmantissa.1 h₄⟩))
  · have := hzero.1 h₃
    have hne : magnitude x ≠ 0 := fun h => h₄ (hmantissa.2 (by rw [h, Nat.zero_mod]))
    exact .inr (.inr (.inr ⟨_, _, _, _, rfl, by omega, by omega⟩))
  · have hlow : ¬magnitude x < exponentBit := fun h => h₃ (hzero.2 h)
    have hhigh : ¬infinityBits ≤ magnitude x := fun h => h₁ (hones.2 h)
    exact .inr (.inr (.inr ⟨_, _, _, _, rfl, by omega, by omega⟩))

theorem isFinite_eq (x : Float) : isFinite x = (unpacked x).isFinite := by
  rw [isFinite, Bool.eq_iff_iff, decide_eq_true_iff]
  rcases unpacked_cases x with ⟨s, h, hm⟩ | ⟨h, hm⟩ | ⟨s, h, hm⟩ | ⟨s, m, e, hpos, h, hm⟩ <;>
    rw [h]
  · exact iff_of_false (by omega) Bool.false_ne_true
  · exact iff_of_false (by omega) Bool.false_ne_true
  · exact iff_of_true (by rw [hm]; decide) rfl
  · exact iff_of_true (by omega) rfl

theorem isNaN_eq (x : Float) : isNaN x = (unpacked x).isNaN := by
  rw [isNaN, Bool.eq_iff_iff, decide_eq_true_iff]
  rcases unpacked_cases x with ⟨s, h, hm⟩ | ⟨h, hm⟩ | ⟨s, h, hm⟩ | ⟨s, m, e, hpos, h, hm⟩ <;>
    rw [h]
  · exact iff_of_false (by omega) Bool.false_ne_true
  · exact iff_of_true hm rfl
  · exact iff_of_false (by omega) Bool.false_ne_true
  · exact iff_of_false (by omega) Bool.false_ne_true

/-- A number other than zero, by its unpacked form. -/
theorem exists_finite {x : Float} (h : isFinite x = true) (hz : isZero x = false) :
    ∃ s m e hpos, unpacked x = .finite s m e hpos := by
  simp only [isFinite, isZero, decide_eq_true_eq, beq_eq_false_iff_ne] at h hz
  rcases unpacked_cases x with ⟨s, _, hm⟩ | ⟨_, hm⟩ | ⟨s, _, hm⟩ | ⟨s, m, e, hpos, hu, _⟩
  · omega
  · omega
  · omega
  · exact ⟨s, m, e, hpos, hu⟩

theorem isFinite_iff (x : Float) :
    isFinite x = true ↔ isNaN x = false ∧ isInfinite x = false := by
  simp only [isFinite, isNaN, isInfinite, decide_eq_true_eq, decide_eq_false_iff_not,
    beq_eq_false_iff_ne]
  omega

/-! ## Packing -/

theorem isNaN_unpack_packComponents (s : Sign) (e : BitVec 11) (m : BitVec 52) :
    (UnpackedFloat.unpack .binary64 (packComponents .binary64 s e m)).isNaN
      = decide (e = -1#11 ∧ m ≠ 0#52) := by
  unfold UnpackedFloat.unpack
  simp only [unpackExponent_packComponents, unpackMantissa_packComponents]
  split_ifs <;> simp_all [UnpackedFloat.isNaN]

theorem isFinite_unpack_packComponents (s : Sign) {e : BitVec 11} (m : BitVec 52)
    (he : e ≠ -1#11) :
    (UnpackedFloat.unpack .binary64 (packComponents .binary64 s e m)).isFinite = true := by
  unfold UnpackedFloat.unpack
  simp only [unpackExponent_packComponents, unpackMantissa_packComponents, if_neg he]
  split_ifs <;> rfl

/-- Every number has an exponent of 971 at most. -/
theorem exponent_lt_of_unpacked {x : Float} {s : Sign} {m : Nat} {e : Int} {h : 0 < m}
    (hu : unpacked x = .finite s m e h) : e < 972 := by
  have hbias : (Format.binary64.exponentBias : Int) + (52 : Nat) = 1075 := rfl
  have hlt : (@unpackExponent .binary64 x.toBits.toBitVec).toNat < 2048 :=
    (@unpackExponent .binary64 x.toBits.toBitVec).isLt
  have hones : (@unpackExponent .binary64 x.toBits.toBitVec).toNat = 2047 ↔
      @unpackExponent .binary64 x.toBits.toBitVec = -1#_ := BitVec.toNat_inj (y := -1#11)
  rw [unpacked_eq, UnpackedFloat.unpack] at hu
  simp only [hbias] at hu
  split_ifs at hu with hspecial hm hzero hm
  · obtain ⟨-, -, rfl⟩ := hu
    rw [hzero, show (0#11).toNat = 0 from rfl]
    omega
  · obtain ⟨-, -, rfl⟩ := hu
    have := mt hones.1 hspecial
    omega

theorem unpackSign_packComponents (s : Sign) (e : BitVec 11) (m : BitVec 52) :
    @unpackSign .binary64 (packComponents .binary64 s e m) = s.toBitVec := by
  apply BitVec.eq_of_getLsbD_eq
  intro i hi
  obtain rfl : i = 0 := by omega
  have happend : (s.toBitVec ++ e ++ m).getLsbD 63 = s.toBitVec.getLsbD 0 := by
    rw [BitVec.getLsbD_append, if_neg (by decide), BitVec.getLsbD_append, if_neg (by decide)]
  rw [← happend, unpackSign, BitVec.getLsbD_cast, BitVec.getLsbD_extractLsb]
  rfl

theorem ofBitVec_toBitVec (s : Sign) : Sign.ofBitVec s.toBitVec = s := by
  cases s <;> rfl

theorem toNat_exponentField {e : Int} (h : e < 972) :
    (BitVec.ofNat 11 (e + 1075).toNat).toNat = (e + 1075).toNat := by
  rw [BitVec.toNat_ofNat, Nat.mod_eq_of_lt (by omega)]

theorem exponentField_ne {e : Int} (h : e < 972) : BitVec.ofNat 11 (e + 1075).toNat ≠ -1#11 := by
  rw [ne_eq, ← BitVec.toNat_inj, toNat_exponentField h, show (-1#11).toNat = 2047 from rfl]
  omega

theorem pack_finite (s : Sign) (m : Nat) (e : Int) (h : 0 < m) :
    UnpackedFloat.pack .binary64 (.finite s m e h) =
      if 972 ≤ e then packedInfinity .binary64 s
      else if m.log2 = 52 then
        packComponents .binary64 s (BitVec.ofNat _ (e + 1075).toNat) (BitVec.ofNat _ m)
      else packComponents .binary64 s 0#_ (BitVec.ofNat _ m) := by
  have hbiased : e + Format.binary64.exponentBias + (52 : Nat) = e + 1075 := by
    rw [show Format.binary64.exponentBias = 1023 from rfl]
    omega
  have hlarge : 2 ^ 11 ≤ (e + 1075).toNat + 1 ↔ 972 ≤ e := by omega
  have hm : m.log2 + 1 = Format.binary64.mantissaBits ↔ m.log2 = 52 := by
    rw [show Format.binary64.mantissaBits = 53 from rfl]
    omega
  simp only [UnpackedFloat.pack, hbiased, hlarge, hm]

/-- Packing makes no NaN. -/
theorem isNaN_packed (u : Float.Model.UnpackedFloat) : isNaN (packed u) = u.isNaN := by
  rw [isNaN_eq, unpacked_packed]
  cases u with
  | infinity s => cases s <;> rfl
  | notANumber => rfl
  | zero s => cases s <;> rfl
  | finite s m e h =>
    rw [pack_finite, packedInfinity]
    split_ifs with hlarge <;>
      rw [isNaN_unpack_packComponents] <;> simp [UnpackedFloat.isNaN]
    exact fun h => absurd h (exponentField_ne (by omega))

theorem isFinite_neg {x : Float} (h : isFinite x = true) : isFinite (-x) = true := by
  rw [isFinite_eq] at h
  rw [neg_eq, isFinite_eq, unpacked_packed]
  cases hu : unpacked x with
  | infinity s => rw [hu] at h; cases h
  | notANumber => rw [hu] at h; cases h
  | zero s => cases s <;> rfl
  | finite s m e hpos =>
    have he := exponent_lt_of_unpacked hu
    rw [UnpackedFloat.neg, pack_finite, if_neg (by omega)]
    split_ifs
    · exact isFinite_unpack_packComponents _ _ (exponentField_ne he)
    · exact isFinite_unpack_packComponents _ _ (by decide)

/-- The leading bit, which is not stored, in front of the stored ones. -/
theorem toNat_leadingBit_append (v : BitVec 52) : (1#1 ++ v).toNat = v.toNat + 2 ^ 52 := by
  rw [BitVec.toNat_append, show (1#1).toNat = 1 from rfl, Nat.one_shiftLeft,
    ← Nat.two_pow_add_eq_or_of_lt v.isLt 1]
  omega

/-- Packing a number with 53 bits loses nothing. -/
theorem unpacked_packed_finite {s : Sign} {m : Nat} {e : Int} {h : 0 < m} (hm : m.log2 = 52)
    (hlow : -1074 ≤ e) (hhigh : e < 972) :
    unpacked (packed (.finite s m e h)) = .finite s m e h := by
  have hfield := toNat_exponentField hhigh
  have hzero : BitVec.ofNat 11 (e + 1075).toNat ≠ 0#11 := by
    intro heq
    rw [heq, show (0#11).toNat = 0 from rfl] at hfield
    omega
  have hbias : (Format.binary64.exponentBias : Int) + (52 : Nat) = 1075 := rfl
  have hmantissa : (1#1 ++ BitVec.ofNat 52 m).toNat = m := by
    have hlow := Nat.log2_self_le h.ne'
    have hhigh := @Nat.lt_log2_self m
    rw [hm] at hlow hhigh
    rw [toNat_leadingBit_append, BitVec.toNat_ofNat]
    omega
  rw [unpacked_packed, pack_finite, if_neg (by omega), if_pos hm, UnpackedFloat.unpack]
  simp only [unpackExponent_packComponents, unpackMantissa_packComponents,
    unpackSign_packComponents, if_neg (exponentField_ne hhigh), if_neg hzero, hfield, hbias,
    ofBitVec_toBitVec]
  congr 1
  omega

/-! ## Rounding -/

section Rounding

variable {s : Sign} {m : Nat} {e : Int} {a : Accuracy}

theorem mantissa_shiftToTargetExponent :
    (shiftToTargetExponent .binary64 m e a).1.mantissa
      = m / 2 ^ (max (m.log2 + 1 + e - 53) (-1074) - e).toNat := by
  have hrepeat (em : ExtendedMantissa) (n : Nat) :
      (n.repeat ExtendedMantissa.shiftRightOne em).mantissa = em.mantissa / 2 ^ n := by
    induction n with
    | zero => simp [Nat.repeat]
    | succ n ih =>
      rw [Nat.repeat, ExtendedMantissa.shiftRightOne, ih, Nat.div_div_eq_div_mul, pow_succ]
  have hmantissa : (ExtendedMantissa.ofMantissaAndAccuracy m a).mantissa = m := by
    rcases a with _ | (_ | _ | _) <;> rfl
  rw [← hmantissa, ← hrepeat, hmantissa]
  rfl

theorem exponent_shiftToTargetExponent :
    (shiftToTargetExponent .binary64 m e a).2 = max e (max (m.log2 + 1 + e - 53) (-1074)) := by
  have htarget : Format.binary64.targetExponent (totalExponent m e)
      = max (m.log2 + 1 + e - 53) (-1074) := rfl
  simp only [shiftToTargetExponent, shiftToExponent, htarget]
  omega

theorem roundedMantissa_bounds (em : ExtendedMantissa) :
    em.mantissa ≤ em.roundedMantissa ∧ em.roundedMantissa ≤ em.mantissa + 1 := by
  obtain ⟨m, r, s⟩ := em
  cases r <;> cases s <;>
    simp [ExtendedMantissa.roundedMantissa, ExtendedMantissa.accuracy,
      Accuracy.roundToNearestEven]
  omega

theorem log2_lt_of_lt {n k : Nat} (h : n < 2 ^ k) (hk : 0 < k) : n.log2 < k := by
  rcases Nat.eq_zero_or_pos n with rfl | hn
  · simpa using hk
  · exact (Nat.log2_lt (by omega)).2 h

theorem log2_le_of_le_succ {m n : Nat} (h : n ≤ m + 1) : n.log2 ≤ m.log2 + 1 := by
  have hlt : n < 2 ^ (m.log2 + 2) := by
    have := @Nat.lt_log2_self m
    rw [pow_succ]
    omega
  have := log2_lt_of_lt hlt (by omega)
  omega

theorem isNaN_roundWithAccuracy : (roundWithAccuracy .binary64 s m e a).isNaN = false := by
  unfold roundWithAccuracy
  dsimp only
  split_ifs <;> rfl

theorem log2_div_two_pow {k : Nat} (h : k ≤ m.log2) (hm : m ≠ 0) :
    (m / 2 ^ k).log2 = m.log2 - k := by
  have hpow : 2 ^ m.log2 = 2 ^ (m.log2 - k) * 2 ^ k := by rw [← pow_add, Nat.sub_add_cancel h]
  have hlow := Nat.log2_self_le hm
  have hhigh := @Nat.lt_log2_self m
  have hdiv : 2 ^ (m.log2 - k) ≤ m / 2 ^ k := by
    rw [Nat.le_div_iff_mul_le (Nat.two_pow_pos k), ← hpow]
    exact hlow
  refine (Nat.log2_eq_iff (by have := Nat.two_pow_pos (m.log2 - k); omega)).2 ⟨hdiv, ?_⟩
  rw [Nat.div_lt_iff_lt_mul (Nat.two_pow_pos k), pow_succ, Nat.mul_right_comm, ← hpow, ← pow_succ]
  exact hhigh

/-- A number with 53 bits at least, and not a tiny one, is rounded to 53 bits; its size in bits may
grow by one. -/
theorem roundWithAccuracy_normal (hm : 52 ≤ m.log2) (he : -1074 ≤ m.log2 + e - 52) :
    ∃ m' e' h, roundWithAccuracy .binary64 s m e a = .finite s m' e' h ∧ m'.log2 = 52 ∧
      m.log2 + e - 52 ≤ e' ∧ e' ≤ m.log2 + e - 51 ∧
      m' * 2 ^ (e' - (m.log2 + e - 52)).toNat = ((m.log2 - 52).repeat
        ExtendedMantissa.shiftRightOne (.ofMantissaAndAccuracy m a)).roundedMantissa := by
  have hm₁ := @mantissa_shiftToTargetExponent m e a
  have he₁ := @exponent_shiftToTargetExponent m e a
  have hem : (shiftToTargetExponent .binary64 m e a).1 =
      (max (m.log2 + 1 + e - 53) (-1074) - e).toNat.repeat ExtendedMantissa.shiftRightOne
        (.ofMantissaAndAccuracy m a) := rfl
  rw [show (max (m.log2 + 1 + e - 53) (-1074) - e).toNat = m.log2 - 52 by omega] at hm₁ hem
  rw [show max e (max (m.log2 + 1 + e - 53) (-1074)) = m.log2 + e - 52 by omega] at he₁
  unfold roundWithAccuracy
  rw [← hem]
  generalize shiftToTargetExponent .binary64 m e a = shifted at hm₁ he₁ ⊢
  obtain ⟨em, e₁⟩ := shifted
  dsimp only at hm₁ he₁ ⊢
  -- 53 bits remain, or rounding up makes `2 ^ 53` of them
  have hlog : em.mantissa.log2 = 52 := by
    rw [hm₁, log2_div_two_pow (by omega) (by rintro rfl; simp at hm)]
    omega
  have hpos : em.mantissa ≠ 0 := by
    intro h
    simp [h] at hlog
  have hr := roundedMantissa_bounds em
  have hlow : 52 ≤ em.roundedMantissa.log2 :=
    (Nat.le_log2 (by omega)).2 (((Nat.le_log2 hpos).1 hlog.ge).trans hr.1)
  have hhigh : em.roundedMantissa.log2 ≤ em.mantissa.log2 + 1 := log2_le_of_le_succ hr.2
  have hm₂ := @mantissa_shiftToTargetExponent em.roundedMantissa e₁ .exact
  have he₂ := @exponent_shiftToTargetExponent em.roundedMantissa e₁ .exact
  rw [show (max (em.roundedMantissa.log2 + 1 + e₁ - 53) (-1074) - e₁).toNat
    = em.roundedMantissa.log2 - 52 by omega] at hm₂
  have hlog₂ : (shiftToTargetExponent .binary64 em.roundedMantissa e₁ .exact).1.mantissa.log2
      = 52 := by
    rw [hm₂, log2_div_two_pow (by omega) (by omega)]
    omega
  have hne : (shiftToTargetExponent .binary64 em.roundedMantissa e₁ .exact).1.mantissa ≠ 0 := by
    intro h
    simp [h] at hlog₂
  rw [dif_neg hne]
  refine ⟨_, _, _, rfl, hlog₂, by omega, by omega, ?_⟩
  have he₃ : (shiftToTargetExponent .binary64 em.roundedMantissa e₁ .exact).2 - e₁
      = (em.roundedMantissa.log2 - 52 : Nat) := by omega
  rw [hm₂, ← he₁, he₃, Int.toNat_natCast]
  rcases hlow.eq_or_lt with heq | hlt
  · rw [← heq, Nat.sub_self, pow_zero, Nat.div_one, mul_one]
  · have htop := (Nat.log2_lt hpos).1 (hlog.trans_lt (Nat.lt_succ_self 52))
    have hbottom := (Nat.le_log2 (by omega)).1 hlt
    rw [show em.roundedMantissa.log2 - 52 = 1 by omega]
    omega

end Rounding

/-! ## Powers of ten -/

theorem log2_shiftLeft_le (m k : Nat) : (m <<< k).log2 ≤ m.log2 + k := by
  refine Nat.le_of_lt_succ (log2_lt_of_lt ?_ (Nat.succ_pos _))
  rw [Nat.shiftLeft_eq, Nat.succ_eq_add_one, Nat.add_right_comm, pow_add]
  exact Nat.mul_lt_mul_of_pos_right Nat.lt_log2_self (Nat.two_pow_pos k)

/-- Scaling a number by a number other than zero gives no NaN. -/
theorem isNaN_mul {x y : Float} (hx : isNaN x = false) (hy : isFinite y = true)
    (hzero : isZero y = false) : isNaN (x * y) = false := by
  obtain ⟨s, m, e, hpos, hu⟩ := exists_finite hy hzero
  rw [isNaN_eq] at hx
  rw [mul_eq, isNaN_packed, hu]
  cases hux : unpacked x with
  | infinity s => rfl
  | notANumber => rw [hux] at hx; cases hx
  | zero s => rfl
  | finite s m e hpos => exact isNaN_roundWithAccuracy

theorem isNaN_div {x y : Float} (hx : isNaN x = false) (hy : isFinite y = true)
    (hzero : isZero y = false) : isNaN (x / y) = false := by
  obtain ⟨s, m, e, hpos, hu⟩ := exists_finite hy hzero
  rw [isNaN_eq] at hx
  rw [div_eq, isNaN_packed, hu]
  cases hux : unpacked x with
  | infinity s => rfl
  | notANumber => rw [hux] at hx; cases hx
  | zero s => rfl
  | finite s m e hpos => exact isNaN_roundWithAccuracy

theorem isFinite_of_exists {x : Float} (h : ∃ s m e hpos, unpacked x = .finite s m e hpos) :
    isFinite x = true ∧ isZero x = false := by
  obtain ⟨s, m, e, hpos, hu⟩ := h
  rcases unpacked_cases x with ⟨s, h, -⟩ | ⟨h, -⟩ | ⟨s, h, -⟩ | ⟨_, _, _, _, _, hlow, hhigh⟩
  · rw [hu] at h; cases h
  · rw [hu] at h; cases h
  · rw [hu] at h; cases h
  · simp [isFinite, isZero, hhigh, hlow.ne']

theorem finite_ofScientific_ten {k : Nat} (h : k ≤ 307) :
    ∃ s m e hpos, unpacked (packed (UnpackedFloat.ofScientific .binary64 1 k))
      = .finite s m e hpos := by
  have hlt : 10 ^ k < 2 ^ 1023 :=
    (Nat.pow_le_pow_right (by decide) h).trans_lt (by decide +kernel)
  have hlog := log2_lt_of_lt hlt (by decide)
  have hshift : 1 <<< 53 * 10 ^ k = 10 ^ k <<< 53 := by
    rw [Nat.shiftLeft_eq, Nat.shiftLeft_eq, one_mul, Nat.mul_comm]
  have hhigh := log2_shiftLeft_le (10 ^ k) 53
  have hlow : 53 ≤ (10 ^ k <<< 53).log2 := by
    rw [Nat.shiftLeft_eq, Nat.le_log2 (by positivity)]
    exact Nat.le_mul_of_pos_left _ (by positivity)
  unfold UnpackedFloat.ofScientific
  rw [dif_neg one_ne_zero, if_neg (by simp; omega), if_neg (by simp; omega), if_pos (by omega)]
  simp only [UnpackedFloat.mul]
  rw [show Format.binary64.mantissaBits = 53 from rfl, Int.toNat_natCast, hshift]
  obtain ⟨m, e, hpos, heq, hm, he, he', -⟩ :=
    @roundWithAccuracy_normal (.positive * .positive) (10 ^ k <<< 53) (-(53 : Nat) + 0) .exact
      (by omega) (by omega)
  rw [heq]
  exact ⟨_, _, _, _, unpacked_packed_finite hm (by omega) (by omega)⟩

/-- The powers of ten up to `10 ^ 308` are numbers other than zero. -/
theorem finite_power {k : Nat} (h : k ≤ 308) :
    isFinite (Float.ofScientific 1 false k) = true ∧
      isZero (Float.ofScientific 1 false k) = false := by
  by_cases hsmall : k ≤ 22
  · have htable : ∀ k ≤ 22, isFinite (Float.ofScientific 1 false k) = true ∧
        isZero (Float.ofScientific 1 false k) = false := by decide +kernel
    exact htable k hsmall
  · rcases Nat.lt_or_ge 307 k with hk | hk
    · obtain rfl : k = 308 := by omega
      decide +kernel
    · rw [Float.ofScientific, dif_neg (fun h => hsmall h.2)]
      exact isFinite_of_exists (finite_ofScientific_ten hk)

end ResumableVM.Binary64
