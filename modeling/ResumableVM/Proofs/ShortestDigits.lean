import ResumableVM.Numeric.Shortest
import ResumableVM.Proofs.RoundedIntegers

/-! # ShortestDigits: the shortest decimal names one double

A real rounds to the double whose neighbours' midpoints it stands between, and a midpoint to the even
one of the two (`Binary64.RoundsTo`). So no real rounds to two doubles (`RoundsTo.unique`).

`Shortest.digits` looks for a decimal between those midpoints. The power of ten it starts from is at
or below the value (`zpow_leadingPower_le`); seventeen places further down the grid is finer than
half of the last place, so the search finds something, and what it finds rounds to the double
(`roundsTo_digits`). -/

namespace ResumableVM

namespace Binary64

/-! ### The reals that round to a double -/

/-- The number of quarters of `2 ^ -1074` in one. -/
def quartersPerOne : Nat := 4 * unitsPerOne

theorem quartersPerOne_pos : (0 : ℚ) < quartersPerOne := by
  exact_mod_cast Nat.mul_pos (by decide) unitsPerOne_pos

/-- The midpoint of a magnitude and the next one, in quarters of `2 ^ -1074`. -/
def midpoint (n : Nat) : Nat := 2 * (scaledMagnitude n + scaledMagnitude (n + 1))

/-- The midpoint of a magnitude and the one before. -/
def midpointBefore (n : Nat) : Nat := 2 * (scaledMagnitude (n - 1) + scaledMagnitude n)

/-- The number rounds to the double of a magnitude. -/
structure RoundsTo (n : Nat) (v : ℚ) : Prop where
  low : midpointBefore n ≤ v * quartersPerOne
  high : v * quartersPerOne ≤ midpoint n
  /-- A midpoint rounds to the even magnitude. -/
  inner : n % 2 = 1 → midpointBefore n < v * quartersPerOne ∧ v * quartersPerOne < midpoint n

theorem midpoint_le {m n : Nat} (h : m < n) : midpoint m ≤ midpointBefore n := by
  have h₁ := scaledMagnitude_strictMono.monotone (show m ≤ n - 1 by omega)
  have h₂ := scaledMagnitude_strictMono.monotone (show m + 1 ≤ n by omega)
  unfold midpoint midpointBefore
  omega

theorem midpoint_lt {m n : Nat} (h : m + 1 < n) : midpoint m < midpointBefore n := by
  have h₁ := scaledMagnitude_strictMono (show m < n - 1 by omega)
  have h₂ := scaledMagnitude_strictMono (show m + 1 < n by omega)
  unfold midpoint midpointBefore
  omega

/-- Nothing that rounds to a double rounds to a larger one. -/
theorem RoundsTo.not_lt {m n : Nat} {v : ℚ} (hm : RoundsTo m v) (hn : RoundsTo n v) : ¬ m < n := by
  intro hlt
  have hle : (midpointBefore n : ℚ) ≤ midpoint m := hn.low.trans hm.high
  rcases Nat.lt_or_ge (m + 1) n with hfar | hnear
  · exact absurd (by exact_mod_cast hle) (Nat.not_le.mpr (midpoint_lt hfar))
  · -- neighbours share a midpoint, which does not round to the odd one
    have hle' : (midpoint m : ℚ) ≤ midpointBefore n := by exact_mod_cast midpoint_le hlt
    rcases Nat.mod_two_eq_zero_or_one n with hparity | hparity
    · have := (hm.inner (by omega)).2
      linarith [hn.low]
    · have := (hn.inner hparity).1
      linarith [hm.high]

/-- **No number rounds to two doubles.** -/
theorem RoundsTo.unique {m n : Nat} {v : ℚ} (hm : RoundsTo m v) (hn : RoundsTo n v) : m = n :=
  Nat.le_antisymm (Nat.not_lt.mp (hn.not_lt hm)) (Nat.not_lt.mp (hm.not_lt hn))

/-- A double rounds to itself. -/
theorem roundsTo_self {n : Nat} {v : ℚ} (h : v * unitsPerOne = scaledMagnitude n) :
    RoundsTo n v := by
  have hv : v * quartersPerOne = (4 * scaledMagnitude n : ℕ) := by
    rw [quartersPerOne, Nat.cast_mul, ← mul_assoc, mul_right_comm, h]
    push_cast
    ring
  have hnext := scaledMagnitude_strictMono (Nat.lt_add_one n)
  have hbefore := scaledMagnitude_strictMono.monotone (Nat.sub_le n 1)
  refine ⟨?_, ?_, fun hodd => ?_⟩
  · rw [hv]
    exact_mod_cast show midpointBefore n ≤ 4 * scaledMagnitude n by unfold midpointBefore; omega
  · rw [hv]
    exact_mod_cast show 4 * scaledMagnitude n ≤ midpoint n by unfold midpoint; omega
  · have hbefore := scaledMagnitude_strictMono (show n - 1 < n by omega)
    rw [hv]
    constructor
    · exact_mod_cast show midpointBefore n < 4 * scaledMagnitude n by unfold midpointBefore; omega
    · exact_mod_cast show 4 * scaledMagnitude n < midpoint n by unfold midpoint; omega

/-! ### The neighbours of a double -/

/-- The last place of a double, in units of `2 ^ -1074`. -/
def lastPlace (x : Float) : Nat := 2 ^ (exponent x + 1074).toNat

/-- The double below is nearer where the last place gets smaller. -/
def placeBelow (x : Float) : Nat :=
  if significand x = exponentBit ∧ -1074 < exponent x then 1 else 2

theorem significand_of_lt {x : Float} (h : magnitude x < exponentBit) :
    significand x = magnitude x ∧ exponent x = -1074 := by
  simp [significand, exponent, Nat.div_eq_of_lt h]

theorem significand_of_eq {x : Float} {e m : Nat} (hm : m < exponentBit)
    (h : magnitude x = exponentBit * (e + 1) + m) :
    significand x = m + exponentBit ∧ exponent x = e - 1074 := by
  have hfield : magnitude x / exponentBit = e + 1 := by
    rw [h, Nat.mul_add_div exponentBit_pos, Nat.div_eq_of_lt hm, Nat.add_zero]
  have hrest : magnitude x % exponentBit = m := by
    rw [h, Nat.mul_add_mod, Nat.mod_eq_of_lt hm]
  simp only [significand, exponent, hfield, hrest, if_neg (Nat.succ_ne_zero e), true_and]
  push_cast
  ring

theorem lastPlace_of_lt {x : Float} (h : magnitude x < exponentBit) : lastPlace x = 1 := by
  rw [lastPlace, (significand_of_lt h).2]
  rfl

theorem lastPlace_of_eq {x : Float} {e m : Nat} (hm : m < exponentBit)
    (h : magnitude x = exponentBit * (e + 1) + m) : lastPlace x = 2 ^ e := by
  rw [lastPlace, (significand_of_eq hm h).2, sub_add_cancel, Int.toNat_natCast]

theorem scaledMagnitude_eq_mul_lastPlace (x : Float) :
    scaledMagnitude (magnitude x) = significand x * lastPlace x := scaledMagnitude_magnitude x

/-- The double above is one last place away. -/
theorem scaledMagnitude_above (x : Float) :
    scaledMagnitude (magnitude x + 1) = (significand x + 1) * lastPlace x := by
  rcases magnitude_cases (magnitude x) with h | ⟨e, m, hm, h⟩
  · rw [lastPlace_of_lt h, (significand_of_lt h).1, Nat.mul_one]
    rcases Nat.lt_or_ge (magnitude x + 1) exponentBit with hnext | hnext
    · exact scaledMagnitude_of_lt hnext
    · have hn : magnitude x + 1 = exponentBit * (0 + 1) + 0 := by omega
      rw [hn, scaledMagnitude_mul_add 0 exponentBit_pos]
      omega
  · rw [lastPlace_of_eq hm h, (significand_of_eq hm h).1, h]
    rcases Nat.lt_or_ge (m + 1) exponentBit with hnext | hnext
    · rw [Nat.add_assoc, scaledMagnitude_mul_add e hnext, Nat.add_right_comm]
    · have hn : exponentBit * (e + 1) + m + 1 = exponentBit * (e + 1 + 1) + 0 := by
        rw [Nat.mul_add_one exponentBit (e + 1)]
        omega
      rw [hn, scaledMagnitude_mul_add (e + 1) exponentBit_pos, pow_succ', ← mul_assoc]
      congr 1
      omega

/-- The double below is one last place away, or half of one. -/
theorem scaledMagnitude_below {x : Float} (h : magnitude x ≠ 0) :
    2 * scaledMagnitude (magnitude x - 1) + placeBelow x * lastPlace x =
      2 * significand x * lastPlace x := by
  rcases magnitude_cases (magnitude x) with hlt | ⟨e, m, hm, heq⟩
  · obtain ⟨hs, he⟩ := significand_of_lt hlt
    rw [lastPlace_of_lt hlt, scaledMagnitude_of_lt (by omega), placeBelow, hs, he, if_neg (by simp)]
    omega
  · obtain ⟨hs, he⟩ := significand_of_eq hm heq
    rw [lastPlace_of_eq hm heq, placeBelow, hs, he]
    rcases Nat.eq_zero_or_pos m with rfl | hpos
    · cases e with
      | zero =>
        -- the smallest exponent begins, and its unit is that of the numbers below
        rw [show magnitude x - 1 = exponentBit - 1 by omega,
          scaledMagnitude_of_lt (Nat.sub_lt exponentBit_pos one_pos), if_neg (by simp)]
        have := exponentBit_pos
        omega
      | succ e =>
        have hbefore : magnitude x - 1 = exponentBit * (e + 1) + (exponentBit - 1) := by
          have := exponentBit_pos
          rw [heq, Nat.mul_add_one exponentBit (e + 1)]
          omega
        rw [hbefore, scaledMagnitude_mul_add e (Nat.sub_lt exponentBit_pos one_pos),
          if_pos ⟨Nat.zero_add _, by push_cast; omega⟩, pow_succ' 2 e, ← mul_assoc, ← mul_assoc,
          ← mul_assoc, ← Nat.add_mul]
        refine congrArg (· * 2 ^ e) ?_
        have := exponentBit_pos
        omega
    · have hbefore : magnitude x - 1 = exponentBit * (e + 1) + (m - 1) := by omega
      rw [hbefore, scaledMagnitude_mul_add e (by omega), if_neg (by omega), ← mul_assoc,
        ← Nat.add_mul]
      refine congrArg (· * 2 ^ e) ?_
      omega

theorem midpoint_magnitude (x : Float) :
    midpoint (magnitude x) = (4 * significand x + 2) * lastPlace x := by
  rw [midpoint, scaledMagnitude_above, scaledMagnitude_eq_mul_lastPlace]
  ring

theorem midpointBefore_magnitude {x : Float} (h : magnitude x ≠ 0) :
    midpointBefore (magnitude x) = (4 * significand x - placeBelow x) * lastPlace x := by
  have hbelow := scaledMagnitude_below h
  rw [midpointBefore, scaledMagnitude_eq_mul_lastPlace, Nat.sub_mul]
  rw [show 4 * significand x * lastPlace x = 2 * (2 * significand x * lastPlace x) by ring,
    ← hbelow]
  have : 2 * significand x * lastPlace x = 2 * (significand x * lastPlace x) := mul_assoc ..
  omega

/-- Even magnitudes have even significands. -/
theorem significand_mod_two (x : Float) : significand x % 2 = magnitude x % 2 := by
  have heven : exponentBit % 2 = 0 := rfl
  rcases magnitude_cases (magnitude x) with h | ⟨e, m, hm, h⟩
  · rw [(significand_of_lt h).1]
  · have : exponentBit * (e + 1) % 2 = 0 := by rw [Nat.mul_mod, heven, Nat.zero_mul]
    rw [(significand_of_eq hm h).1, h]
    omega

end Binary64

/-- The number that a decimal is. -/
def Decimal.value (d : Decimal) : ℚ := d.digits * 10 ^ d.exponent

namespace Shortest

variable {tie : TieRule} {i : Interval} {k : Int} {c : Nat} {x : Float}

/-! ### The search -/

/-- The number lies in an interval. -/
structure Interval.Holds (i : Interval) (v : ℚ) : Prop where
  low : i.low ≤ v * i.denominator
  high : v * i.denominator ≤ i.high
  inner : i.closed = false → i.low < v * i.denominator ∧ v * i.denominator < i.high

theorem powerOfTen_snd_pos (k : Int) : (0 : ℚ) < (powerOfTen k).2 := by
  exact_mod_cast Nat.pow_pos (by decide)

theorem powerOfTen_fst (k : Int) : ((powerOfTen k).1 : ℚ) = 10 ^ k * (powerOfTen k).2 := by
  have hk : (k.toNat : Int) = k + (-k).toNat := by omega
  show ((10 ^ k.toNat : ℕ) : ℚ) = 10 ^ k * ((10 ^ (-k).toNat : ℕ) : ℚ)
  push_cast
  rw [← zpow_natCast, ← zpow_natCast, ← zpow_add₀ (by norm_num), hk]

/-- A multiple of `10 ^ k` lies in the interval, tested in naturals. -/
def isInside (i : Interval) (k : Int) (c : Nat) : Bool :=
  let scaled := c * (i.denominator * (powerOfTen k).1)
  if i.closed then i.low * (powerOfTen k).2 ≤ scaled && scaled ≤ i.high * (powerOfTen k).2
  else i.low * (powerOfTen k).2 < scaled && scaled < i.high * (powerOfTen k).2

/-- The multiple of `10 ^ k` at or below the value. -/
def lowerNeighbour (i : Interval) (k : Int) : Nat :=
  i.value * (powerOfTen k).2 / (i.denominator * (powerOfTen k).1)

theorem cast_scaled (i : Interval) (k : Int) (c : Nat) :
    ((c * (i.denominator * (powerOfTen k).1) : ℕ) : ℚ) =
      c * 10 ^ k * i.denominator * (powerOfTen k).2 := by
  push_cast
  rw [powerOfTen_fst]
  ring

theorem scaled_le_iff {n : Nat} : c * (i.denominator * (powerOfTen k).1) ≤ n * (powerOfTen k).2 ↔
    (c * 10 ^ k : ℚ) * i.denominator ≤ n := by
  rw [← Nat.cast_le (α := ℚ), cast_scaled, Nat.cast_mul,
    mul_le_mul_iff_of_pos_right (powerOfTen_snd_pos k)]

theorem le_scaled_iff {n : Nat} : n * (powerOfTen k).2 ≤ c * (i.denominator * (powerOfTen k).1) ↔
    (n : ℚ) ≤ c * 10 ^ k * i.denominator := by
  rw [← Nat.cast_le (α := ℚ), cast_scaled, Nat.cast_mul,
    mul_le_mul_iff_of_pos_right (powerOfTen_snd_pos k)]

/-- The test is right. -/
theorem isInside_iff : isInside i k c = true ↔ i.Holds (c * 10 ^ k) := by
  unfold isInside
  constructor
  · intro h
    split at h
    · next hclosed =>
      simp only [Bool.and_eq_true, decide_eq_true_eq, le_scaled_iff, scaled_le_iff] at h
      exact ⟨h.1, h.2, fun hopen => by rw [hclosed] at hopen; cases hopen⟩
    · simp only [Bool.and_eq_true, decide_eq_true_eq, ← not_le, le_scaled_iff, scaled_le_iff] at h
      simp only [not_le] at h
      exact ⟨h.1.le, h.2.le, fun _ => h⟩
  · intro h
    split
    · simp only [Bool.and_eq_true, decide_eq_true_eq, le_scaled_iff, scaled_le_iff]
      exact ⟨h.low, h.high⟩
    · next hopen =>
      simp only [Bool.and_eq_true, decide_eq_true_eq, ← not_le, le_scaled_iff, scaled_le_iff]
      simpa only [not_le] using h.inner (Bool.eq_false_of_not_eq_true hopen)

/-- What is found on a grid is a neighbour of the value in the interval. -/
theorem isInside_of_onGrid? (h : onGrid? tie i k = some c) : isInside i k c = true := by
  unfold onGrid? at h
  dsimp only at h
  split at h
  · next hlower _ =>
    cases h
    exact (Bool.and_eq_true_iff.mp hlower).1
  · next _ hupper =>
    cases h
    exact hupper
  · cases h
  · next hlower hupper =>
    have hlower := (Bool.and_eq_true_iff.mp hlower).1
    split at h
    · cases h
      exact hlower
    split at h
    · cases h
      exact hupper
    cases tie with
    | upward =>
      cases h
      exact hupper
    | toEven =>
      cases h
      split
      · exact hlower
      · exact hupper

/-- **On a grid that is finer than half of the interval** there is something to find. -/
theorem exists_onGrid? (hlow : i.low ≤ i.value) (hpos : 0 < i.denominator)
    (hfine : (i.value : ℚ) + 10 ^ k * i.denominator < i.high) : ∃ c, onGrid? tie i k = some c := by
  have hunit : 0 < i.denominator * (powerOfTen k).1 := Nat.mul_pos hpos (Nat.pow_pos (by decide))
  have hbelow : lowerNeighbour i k * 10 ^ k * (i.denominator : ℚ) ≤ i.value :=
    scaled_le_iff.mp (Nat.div_mul_le_self _ _)
  have habove : (i.value : ℚ) < (lowerNeighbour i k + 1 : ℕ) * 10 ^ k * i.denominator := by
    rw [← not_le, ← scaled_le_iff, not_le]
    exact (Nat.div_lt_iff_lt_mul hunit).mp (Nat.lt_add_one _)
  have hlow' : (i.low : ℚ) ≤ i.value := by exact_mod_cast hlow
  have hhigh : (lowerNeighbour i k + 1 : ℕ) * 10 ^ k * i.denominator < (i.high : ℚ) := by
    push_cast
    linarith
  have hupper : isInside i k (lowerNeighbour i k + 1) = true :=
    isInside_iff.mpr ⟨by linarith, hhigh.le, fun _ => ⟨by linarith, hhigh⟩⟩
  unfold onGrid?
  dsimp only
  split
  · exact ⟨_, rfl⟩
  · exact ⟨_, rfl⟩
  · next hnone => exact absurd (hupper.symm.trans hnone) (by decide)
  · split
    · exact ⟨_, rfl⟩
    split
    · exact ⟨_, rfl⟩
    cases tie <;> exact ⟨_, rfl⟩

/-! ### Where the search starts -/

/-- Powers of ten against powers of two, as far as doubles go. -/
theorem ten_pow_le_two_pow : ∀ j < 400, 10 ^ j ≤ 5 * 2 ^ (100000 * j / 30103) := by
  decide +kernel

theorem two_pow_le_ten_pow : ∀ j < 400, 2 ^ (100000 * j / 30103 + 1) ≤ 10 ^ (j + 1) := by
  decide +kernel

/-- A power of ten whose logarithm is estimated is at most five times the power of two. -/
theorem zpow_estimate_le (est log : Int) (hest : est * 100000 ≤ log * 30103) (hlow : -400 < est)
    (hhigh : est < 400) : (10 : ℚ) ^ est ≤ 5 * 2 ^ log := by
  rcases Int.le_total 0 est with hpos | hneg
  · obtain ⟨j, rfl⟩ := Int.eq_ofNat_of_zero_le hpos
    have hpow : (10 : ℚ) ^ j ≤ 5 * 2 ^ (100000 * j / 30103) := by
      exact_mod_cast ten_pow_le_two_pow j (by omega)
    have hlog : ((100000 * j / 30103 : ℕ) : Int) ≤ log := by omega
    have hmono := zpow_le_zpow_right₀ (one_le_two (α := ℚ)) hlog
    rw [zpow_natCast] at hmono ⊢
    linarith
  · obtain ⟨j, hj⟩ := Int.eq_ofNat_of_zero_le (neg_nonneg.mpr hneg)
    have hpow : (2 : ℚ) ^ (100000 * j / 30103 + 1) ≤ 10 ^ (j + 1) := by
      exact_mod_cast two_pow_le_ten_pow j (by omega)
    have hlog : -log ≤ ((100000 * j / 30103 : ℕ) : Int) := by omega
    have hmono := zpow_le_zpow_right₀ (one_le_two (α := ℚ)) hlog
    rw [zpow_natCast] at hmono
    rw [pow_succ, pow_succ] at hpow
    have hinv : (2 : ℚ) ^ (-log) ≤ 5 * 10 ^ (-est) := by
      rw [hj, zpow_natCast]
      linarith
    calc (10 : ℚ) ^ est = 2 ^ (-log) * (2 ^ log * 10 ^ est) := by
          rw [← mul_assoc, ← zpow_add₀ two_ne_zero, neg_add_cancel, zpow_zero, one_mul]
      _ ≤ 5 * 10 ^ (-est) * (2 ^ log * 10 ^ est) :=
          mul_le_mul_of_nonneg_right hinv (by positivity)
      _ = 5 * 2 ^ log * (10 ^ (-est) * 10 ^ est) := by ring
      _ = 5 * 2 ^ log := by rw [← zpow_add₀ (by norm_num), neg_add_cancel, zpow_zero, mul_one]

theorem powerOfTen_le_iff {n d : Nat} :
    (powerOfTen k).1 * d ≤ n * (powerOfTen k).2 ↔ (10 : ℚ) ^ k * d ≤ n := by
  have hdown := powerOfTen_snd_pos k
  rw [← Nat.cast_le (α := ℚ), Nat.cast_mul, Nat.cast_mul, powerOfTen_fst, mul_right_comm,
    mul_le_mul_iff_of_pos_right hdown]

/-- **The search starts** at a power of ten that is at or below the value. -/
theorem zpow_leadingPower_le {n d : Nat} (hn : n ≠ 0) (hnlog : n.log2 < 1100)
    (hdlog : d.log2 < 1100) : (10 : ℚ) ^ leadingPower n d * d ≤ n := by
  have hfallback : (10 : ℚ) ^ (((n.log2 : Int) - d.log2) * 30103 / 100000 - 1) * d ≤ n := by
    have hestimate := zpow_estimate_le (((n.log2 : Int) - d.log2) * 30103 / 100000)
      ((n.log2 : Int) - d.log2) (by omega) (by omega) (by omega)
    have hd : (d : ℚ) ≤ 2 * 2 ^ d.log2 := by
      rw [← pow_succ']
      exact_mod_cast Nat.lt_log2_self.le
    have hn : (2 : ℚ) ^ n.log2 ≤ n := by exact_mod_cast Nat.log2_self_le hn
    rw [zpow_sub_one₀ (by norm_num)]
    calc (10 : ℚ) ^ (((n.log2 : Int) - d.log2) * 30103 / 100000) * 10⁻¹ * d
        ≤ 5 * 2 ^ ((n.log2 : Int) - d.log2) * 10⁻¹ * (2 * 2 ^ d.log2) := by gcongr
      _ = 2 ^ ((n.log2 : Int) - d.log2) * 2 ^ d.log2 := by ring
      _ = 2 ^ n.log2 := by
        rw [← zpow_natCast, ← zpow_add₀ two_ne_zero, sub_add_cancel, zpow_natCast]
      _ ≤ n := hn
  unfold leadingPower
  dsimp only
  split
  · next h => exact powerOfTen_le_iff.mp (of_decide_eq_true h)
  split
  · next h => exact powerOfTen_le_iff.mp (of_decide_eq_true h)
  split
  · exact hfallback
  · next h => exact absurd (decide_eq_true (powerOfTen_le_iff.mpr hfallback)) h

/-! ### The interval of a double -/

theorem denominator_pos (x : Float) : 0 < (intervalOf x).denominator := by
  simp [intervalOf, Nat.one_shiftLeft]

/-- The scale of the interval: how many of its parts make a quarter of the last place. -/
def scaleOf (x : Float) : Nat := 1 <<< (Binary64.exponent x - 2).toNat

/-- A part of the interval is a quarter of the last place. -/
theorem scaleOf_mul (x : Float) : scaleOf x * Binary64.quartersPerOne =
    Binary64.lastPlace x * (intervalOf x).denominator := by
  have hge := Binary64.exponent_ge x
  simp only [scaleOf, intervalOf, Nat.one_shiftLeft, Binary64.quartersPerOne, Binary64.unitsPerOne,
    Binary64.lastPlace, Binary64.fractionBits_eq]
  rw [show 4 = 2 ^ 2 from rfl, ← pow_add, ← pow_add, ← pow_add]
  congr 1
  omega

theorem mul_le_mul_iff_of_ratio {s q l d : ℚ} (hq : 0 < q) (hd : 0 < d) (h : s * q = l * d)
    (n v : ℚ) : (n * s ≤ v * d ↔ n * l ≤ v * q) ∧ (v * d ≤ n * s ↔ v * q ≤ n * l) := by
  have hleft : n * s * q = n * l * d := by rw [mul_assoc, h, mul_assoc]
  have hright : v * d * q = v * q * d := mul_right_comm v d q
  constructor
  · rw [← mul_le_mul_iff_of_pos_right hq, hleft, hright, mul_le_mul_iff_of_pos_right hd]
  · rw [← mul_le_mul_iff_of_pos_right hq, hleft, hright, mul_le_mul_iff_of_pos_right hd]

/-- **What lies in the interval of a double rounds to it.** -/
theorem roundsTo_of_holds {v : ℚ} (hx : Binary64.magnitude x ≠ 0) (h : (intervalOf x).Holds v) :
    Binary64.RoundsTo (Binary64.magnitude x) v := by
  have hdenominator : (0 : ℚ) < (intervalOf x).denominator := by
    exact_mod_cast denominator_pos x
  have hscale : (scaleOf x * Binary64.quartersPerOne : ℚ) =
      Binary64.lastPlace x * (intervalOf x).denominator := by
    exact_mod_cast scaleOf_mul x
  have hratio := mul_le_mul_iff_of_ratio Binary64.quartersPerOne_pos hdenominator hscale
  have hlow : ((intervalOf x).low : ℚ) =
      (4 * Binary64.significand x - Binary64.placeBelow x : ℕ) * scaleOf x := by
    exact_mod_cast rfl
  have hhigh : ((intervalOf x).high : ℚ) = (4 * Binary64.significand x + 2 : ℕ) * scaleOf x := by
    exact_mod_cast rfl
  have hbefore : (Binary64.midpointBefore (Binary64.magnitude x) : ℚ) =
      (4 * Binary64.significand x - Binary64.placeBelow x : ℕ) * Binary64.lastPlace x := by
    exact_mod_cast Binary64.midpointBefore_magnitude hx
  have hbehind : (Binary64.midpoint (Binary64.magnitude x) : ℚ) =
      (4 * Binary64.significand x + 2 : ℕ) * Binary64.lastPlace x := by
    exact_mod_cast Binary64.midpoint_magnitude x
  refine ⟨?_, ?_, fun hodd => ?_⟩
  · rw [hbefore, ← (hratio _ _).1, ← hlow]
    exact h.low
  · rw [hbehind, ← (hratio _ _).2, ← hhigh]
    exact h.high
  · have hopen : (intervalOf x).closed = false := by
      show (Binary64.significand x % 2 == 0) = false
      rw [Binary64.significand_mod_two, hodd]
      rfl
    obtain ⟨hl, hh⟩ := h.inner hopen
    rw [hbefore, hbehind, ← not_le, ← not_le, ← (hratio _ _).1, ← (hratio _ _).2, ← hlow, ← hhigh,
      not_le, not_le]
    exact ⟨hl, hh⟩

/-! ### What is found -/

theorem value_trim : ∀ (fuel : Nat) (d : Decimal), (trim fuel d).value = d.value
  | 0, _ => rfl
  | fuel + 1, d => by
    unfold trim
    split
    · next h =>
      have hdigits : (d.digits : ℚ) = (d.digits / 10 : ℕ) * 10 := by
        exact_mod_cast (Nat.div_mul_cancel (Nat.dvd_of_mod_eq_zero h.1)).symm
      rw [value_trim fuel, Decimal.value, Decimal.value, hdigits, zpow_add_one₀ (by norm_num)]
      ring
    · rfl

theorem significand_ne_zero (hx : Binary64.magnitude x ≠ 0) : Binary64.significand x ≠ 0 := by
  rcases Binary64.magnitude_cases (Binary64.magnitude x) with h | ⟨e, m, hm, h⟩
  · rwa [(Binary64.significand_of_lt h).1]
  · rw [(Binary64.significand_of_eq hm h).1]
    have := Binary64.exponentBit_pos
    omega

theorem exponent_le (hfinite : Binary64.isFinite x = true) : Binary64.exponent x ≤ 971 := by
  have hlt : Binary64.magnitude x < Binary64.infinityBits := of_decide_eq_true hfinite
  rcases Binary64.magnitude_cases (Binary64.magnitude x) with h | ⟨e, m, hm, h⟩
  · rw [(Binary64.significand_of_lt h).2]
    decide
  · rw [(Binary64.significand_of_eq hm h).2]
    simp only [Binary64.exponentBit, Binary64.infinityBits] at h hlt
    omega

theorem log2_value_lt (hx : Binary64.magnitude x ≠ 0) (hfinite : Binary64.isFinite x = true) :
    (intervalOf x).value ≠ 0 ∧ (intervalOf x).value.log2 < 1100 := by
  have hvalue : (intervalOf x).value = 4 * Binary64.significand x * scaleOf x := rfl
  have hscale : scaleOf x = 2 ^ (Binary64.exponent x - 2).toNat := Nat.one_shiftLeft _
  have hne : (intervalOf x).value ≠ 0 := by
    rw [hvalue, hscale]
    exact Nat.mul_ne_zero (Nat.mul_ne_zero (by decide) (significand_ne_zero hx))
      (Nat.two_pow_pos _).ne'
  have hexponent := exponent_le hfinite
  have hsignificand := Binary64.significand_lt x
  have hlt : (intervalOf x).value < 2 ^ (55 + (Binary64.exponent x - 2).toNat) := by
    rw [hvalue, hscale, pow_add]
    exact Nat.mul_lt_mul_of_pos_right (by omega) (Nat.two_pow_pos _)
  refine ⟨hne, ((Nat.log2_lt hne).mpr hlt).trans_le ?_⟩
  omega

theorem log2_denominator_lt (x : Float) : (intervalOf x).denominator.log2 < 1100 := by
  have hge := Binary64.exponent_ge x
  rw [show (intervalOf x).denominator = 2 ^ (-(Binary64.exponent x - 2)).toNat from
    Nat.one_shiftLeft _, Nat.log2_two_pow]
  omega

/-- The grid seventeen places down from the value is fine enough. -/
theorem exists_onGrid?_intervalOf (tie : TieRule) (hx : Binary64.magnitude x ≠ 0)
    (hfinite : Binary64.isFinite x = true) :
    ∃ c, onGrid? tie (intervalOf x)
      (leadingPower (intervalOf x).value (intervalOf x).denominator - 17) = some c := by
  obtain ⟨hne, hlog⟩ := log2_value_lt hx hfinite
  have hstart := zpow_leadingPower_le hne hlog (log2_denominator_lt x)
  have hvalue : ((intervalOf x).value : ℚ) = 4 * Binary64.significand x * scaleOf x := by
    exact_mod_cast rfl
  have hhigh : ((intervalOf x).high : ℚ) = (4 * Binary64.significand x + 2) * scaleOf x := by
    exact_mod_cast rfl
  have hscale : (0 : ℚ) < scaleOf x := by
    rw [scaleOf, Nat.one_shiftLeft]
    exact_mod_cast Nat.two_pow_pos _
  have hsignificand : (4 * Binary64.significand x : ℚ) < 2 * 10 ^ 17 := by
    have := Binary64.significand_lt x
    exact_mod_cast show 4 * Binary64.significand x < 2 * 10 ^ 17 by omega
  refine exists_onGrid? (Nat.mul_le_mul_right _ (Nat.sub_le _ _)) (denominator_pos x) ?_
  rw [zpow_sub₀ (by norm_num), hhigh]
  rw [hvalue] at hstart ⊢
  have hbound : 4 * Binary64.significand x * (scaleOf x : ℚ) < 2 * 10 ^ 17 * scaleOf x :=
    mul_lt_mul_of_pos_right hsignificand hscale
  rw [div_mul_eq_mul_div, show ((10 : ℚ) ^ (17 : Int)) = 10 ^ 17 by norm_cast]
  have := (div_lt_iff₀ (show (0 : ℚ) < 10 ^ 17 by norm_num)).mpr
    ((hstart.trans_lt hbound).trans_eq (mul_right_comm 2 _ _))
  linarith

/-- **The shortest digits of a double** are a decimal that rounds to it. -/
theorem roundsTo_digits (tie : TieRule) (hx : Binary64.magnitude x ≠ 0)
    (hfinite : Binary64.isFinite x = true) :
    Binary64.RoundsTo (Binary64.magnitude x) (digits tie x).value := by
  obtain ⟨c, hc⟩ := exists_onGrid?_intervalOf tie hx hfinite
  unfold digits
  dsimp only
  cases hfound : (List.range 18).findSome? fun n : Nat =>
      (onGrid? tie (intervalOf x)
        (leadingPower (intervalOf x).value (intervalOf x).denominator - n)).map fun c =>
        trim 18 ⟨c, leadingPower (intervalOf x).value (intervalOf x).denominator - n⟩ with
  | none =>
    have hlast := List.findSome?_eq_none_iff.mp hfound 17 (by decide)
    rw [show ((17 : ℕ) : Int) = 17 from rfl, hc] at hlast
    cases hlast
  | some d =>
    obtain ⟨n, -, hn⟩ := List.exists_of_findSome?_eq_some hfound
    obtain ⟨c, hc, rfl⟩ := Option.map_eq_some_iff.mp hn
    rw [Option.getD_some, value_trim]
    exact roundsTo_of_holds hx (isInside_iff.mp (isInside_of_onGrid? hc))

end Shortest

end ResumableVM
