import ResumableVM.Proofs.Doubles
import ResumableVM.Table

/-! # Keys: primitive equality and the slots of a table

Two values name the same slot of a table exactly when they are primitively equal
(`Value.rawEquals_iff_key?_eq`), NaN apart, which equals nothing and names none. An integer and a
float name the same slot when the float is exactly that integer (`Value.integer_key?_eq_iff`). -/

namespace ResumableVM

theorem signedWord?_eq_some_iff {m : Int} {n : Int64} : signedWord? m = some n ↔ m = n.toInt := by
  have hmax := Int64.toInt_maxValue
  unfold signedWord?
  constructor
  · intro h
    split at h
    · next hrange =>
      obtain rfl := Option.some.inj h
      exact (Int64.toInt_ofInt_of_le hrange.1 (by omega)).symm
    · cases h
  · rintro rfl
    rw [if_pos ⟨Int64.le_toInt n, Int64.toInt_le n⟩, Int64.ofInt_toInt]

namespace Binary64

/-- **The word that a double is** exactly. -/
theorem toInt64?_eq_some_iff {x : Float} {n : Int64} :
    toInt64? x = some n ↔ isFinite x = true ∧ value x = n.toInt := by
  rw [← toInt?_eq_some_iff, toInt64?, Option.bind_eq_some_iff]
  constructor
  · rintro ⟨m, hm, hn⟩
    rwa [← signedWord?_eq_some_iff.mp hn]
  · exact fun h => ⟨n.toInt, h, signedWord?_eq_some_iff.mpr rfl⟩

theorem magnitude_eq_of_rank_eq {x y : Float} (h : rank x = rank y) :
    magnitude x = magnitude y := by
  unfold rank at h
  split at h <;> split at h <;> omega

/-- Doubles that are the same number are the same word, if any. -/
theorem toInt64?_eq_of_rank_eq {x y : Float} (h : rank x = rank y) :
    toInt64? x = toInt64? y := by
  have hvalue : value x = value y := value_eq_iff.mpr h
  have hfinite : isFinite x = isFinite y := by
    rw [isFinite, isFinite, magnitude_eq_of_rank_eq h]
  refine Option.ext fun n => ?_
  rw [toInt64?_eq_some_iff, toInt64?_eq_some_iff, hvalue, hfinite]

/-- A zero of either sign is an integer. -/
theorem toInt64?_of_magnitude_eq_zero {x : Float} (h : magnitude x = 0) : toInt64? x = some 0 := by
  have hfinite : isFinite x = true := by rw [isFinite, h]; decide
  have hscaled : scaled x = 0 := by rw [scaled, h, scaledMagnitude_zero]; simp
  refine toInt64?_eq_some_iff.mpr ⟨hfinite, value_eq_intCast_iff.mpr ?_⟩
  rw [hscaled, Int64.toInt_zero, zero_mul]

theorem isFinite_of_isNaN {x : Float} (h : isNaN x = true) : isFinite x = false := by
  simp only [isNaN, isFinite, decide_eq_true_eq, decide_eq_false_iff_not, not_lt] at h ⊢
  exact h.le

theorem toInt64?_of_isNaN {x : Float} (h : isNaN x = true) : toInt64? x = none := by
  simp [toInt64?, toInt?, isFinite_of_isNaN h]

/-- Doubles that are no integers are the same number only if they have the same bits. -/
theorem toBits_eq_of_rank_eq {x y : Float} (h : rank x = rank y) (hx : toInt64? x = none) :
    x.toBits = y.toBits := by
  have hmagnitude := magnitude_eq_of_rank_eq h
  -- The zeros are integers, and only they have a rank that does not tell their sign.
  have hpos : magnitude x ≠ 0 := fun h0 => by
    rw [toInt64?_of_magnitude_eq_zero h0] at hx
    cases hx
  have hsign : isNegative x = isNegative y := by
    unfold rank at h
    split at h <;> split at h <;> simp_all
  have hx64 := x.toBits.toNat_lt
  have hy64 := y.toBits.toNat_lt
  refine UInt64.toNat_inj.mp ?_
  have hsign : signBit ≤ x.toBits.toNat ↔ signBit ≤ y.toBits.toNat := decide_eq_decide.mp hsign
  simp only [magnitude, signBit] at hmagnitude hsign
  omega

end Binary64

namespace Value

/-- The value is a float that is not a number. -/
def isNaN : Value → Bool
  | float x => Binary64.isNaN x
  | _ => false

/-- Only nil and NaN name no slot. -/
theorem key?_eq_none_iff {v : Value} : v.key? = none ↔ v = nil ∨ v.isNaN = true := by
  cases v with
  | float x =>
    simp only [key?, isNaN, reduceCtorEq, false_or]
    split
    · simp [*]
    · split <;> simp [*]
  | _ => simp [key?, isNaN]

/-- The slot of a float that is a number. -/
theorem float_key? {x : Float} (h : Binary64.isNaN x = false) : (float x).key? =
    some (((Binary64.toInt64? x).map Key.integer).getD (.float x.toBits)) := by
  simp only [key?, h, Bool.false_eq_true, if_false]
  cases Binary64.toInt64? x <;> rfl

/-- The slot of a float that is a number is that of an integer or of its bits. -/
theorem float_key?_cases {x : Float} (h : Binary64.isNaN x = false) :
    (∃ n, (float x).key? = some (.integer n)) ∨ (float x).key? = some (.float x.toBits) := by
  rw [float_key? h]
  cases Binary64.toInt64? x with
  | some n => exact .inl ⟨n, rfl⟩
  | none => exact .inr rfl

/-- Floats are equal when they name the same slot. -/
theorem float_rawEquals_iff {x y : Float} (hx : Binary64.isNaN x = false)
    (hy : Binary64.isNaN y = false) :
    (float x).rawEquals (float y) = true ↔ (float x).key? = (float y).key? := by
  have hrank : (float x).rawEquals (float y) = true ↔
      Binary64.rank x = Binary64.rank y := by
    simp [rawEquals, Binary64.equal, hx, hy]
  rw [hrank, float_key? hx, float_key? hy, Option.some.injEq]
  constructor
  · intro h
    rw [← Binary64.toInt64?_eq_of_rank_eq h]
    cases hint : Binary64.toInt64? x with
    | some n => rfl
    | none => exact congrArg Key.float (Binary64.toBits_eq_of_rank_eq h hint)
  · intro h
    cases hintx : Binary64.toInt64? x with
    | some n =>
      cases hinty : Binary64.toInt64? y with
      | some m =>
        obtain rfl : n = m := by simpa [hintx, hinty] using h
        rw [← Binary64.value_eq_iff, (Binary64.toInt64?_eq_some_iff.mp hintx).2,
          (Binary64.toInt64?_eq_some_iff.mp hinty).2]
      | none => simp [hintx, hinty] at h
    | none =>
      cases hinty : Binary64.toInt64? y with
      | some m => simp [hintx, hinty] at h
      | none =>
        have hbits : x.toBits = y.toBits := by simpa [hintx, hinty] using h
        rw [Binary64.rank, Binary64.rank, Binary64.isNegative, Binary64.isNegative,
          Binary64.magnitude, Binary64.magnitude, hbits]

/-- An integer names the slot of a float that is the same word. -/
theorem integer_key?_eq_float_iff {n : Int64} {x : Float} (hx : Binary64.isNaN x = false) :
    (integer n).key? = (float x).key? ↔ Binary64.toInt64? x = some n := by
  rw [float_key? hx, key?, Option.some.injEq]
  cases Binary64.toInt64? x <;> simp [eq_comm]

/-- **Values are primitively equal exactly when they name the same slot**, NaN apart. -/
theorem rawEquals_iff_key?_eq {v w : Value} (hv : v.isNaN = false) (hw : w.isNaN = false) :
    v.rawEquals w = true ↔ v.key? = w.key? := by
  cases v with
  | float x =>
    cases w with
    | float y => exact float_rawEquals_iff hv hw
    | integer n =>
      rw [eq_comm (a := (float x).key?), integer_key?_eq_float_iff hv]
      exact beq_iff_eq
    | _ => rcases float_key?_cases hv with ⟨n, h⟩ | h <;> rw [h] <;> simp [rawEquals, key?]
  | integer n =>
    cases w with
    | float y =>
      rw [integer_key?_eq_float_iff hw]
      exact beq_iff_eq
    | _ => simp [rawEquals, key?]
  | _ =>
    cases w with
    | float y => rcases float_key?_cases hw with ⟨n, h⟩ | h <;> rw [h] <;> simp [rawEquals, key?]
    | _ => simp [rawEquals, key?]

/-- **An integer and a float name the same slot** exactly when the float is that integer. -/
theorem integer_key?_eq_iff {n : Int64} {x : Float} :
    (integer n).key? = (float x).key? ↔
      Binary64.isFinite x = true ∧ Binary64.value x = n.toInt := by
  cases hx : Binary64.isNaN x with
  | false => rw [integer_key?_eq_float_iff hx, Binary64.toInt64?_eq_some_iff]
  | true => simp [key?, hx, Binary64.isFinite_of_isNaN hx]

/-- Nothing is primitively equal to NaN. -/
theorem rawEquals_eq_false_of_isNaN {v w : Value} (hv : v.isNaN = true) :
    v.rawEquals w = false := by
  cases v with
  | float x =>
    cases w with
    | float y => simp [rawEquals, Binary64.equal, show Binary64.isNaN x = true from hv]
    | integer n => simp [rawEquals, Binary64.toInt64?_of_isNaN hv]
    | _ => rfl
  | _ => cases hv

/-- Off NaN, primitive equality is an equivalence. -/
theorem equivalence_rawEquals :
    Equivalence fun v w : {v : Value // v.isNaN = false} => v.1.rawEquals w.1 = true := by
  have hiff (v w : {v : Value // v.isNaN = false}) :
      v.1.rawEquals w.1 = true ↔ v.1.key? = w.1.key? := rawEquals_iff_key?_eq v.2 w.2
  simp only [hiff]
  exact ⟨fun _ => rfl, Eq.symm, Eq.trans⟩

end Value

end ResumableVM
