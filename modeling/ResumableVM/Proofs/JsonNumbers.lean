import Mathlib.Data.List.TakeWhile
import ResumableVM.Json.Token
import ResumableVM.Proofs.RoundedIntegers
import ResumableVM.Proofs.Keys

/-! # JsonNumbers: what a numeral is read as, and reading back what is written

Whatever a numeral is read as, it can be held: an integer fits into a word, signed or not, and a
real is finite (`held_of_ofText`). The digits of an integer that can be held are read as that
integer (`ofText?_text_integer`). -/

namespace ResumableVM.JsonNumber

/-- The integers that a signed or an unsigned word holds. -/
def FitsWord (n : Int) : Prop := Int64.minValue.toInt ≤ n ∧ n < UInt64.size

theorem FitsWord.natAbs_lt {n : Int} (h : FitsWord n) : n.natAbs < UInt64.size := by
  have hmin : Int64.minValue.toInt = -2 ^ 63 := rfl
  obtain ⟨hlow, hhigh⟩ := h
  simp only [UInt64.size] at *
  omega

/-- An integer is in the range of words, and a real is finite. -/
def Held : JsonNumber → Prop
  | integer n => FitsWord n
  | real x => Binary64.isFinite x = true
  | excessive => True

/-! ## Scaling -/

theorem isFinite_of_isZero {x : Float} (h : Binary64.isZero x = true) :
    Binary64.isFinite x = true := by
  simp only [Binary64.isZero, beq_iff_eq] at h
  simp only [Binary64.isFinite, h]
  decide

/-- Scaling never passes through a NaN, and stops at an infinity. -/
theorem isFinite_of_scale {fuel : Nat} {x y : Float} {e : Int} (hx : Binary64.isNaN x = false)
    (h : scale fuel x e = some y) : Binary64.isFinite y = true := by
  induction fuel generalizing x e with
  | zero =>
    obtain rfl : 0.0 = y := by simpa [scale] using h
    decide
  | succ fuel ih =>
    rw [scale] at h
    dsimp only at h
    split_ifs at h with hsmall hsign hinf hinf hzero hup
    · have hpower := Binary64.finite_power hsmall
      obtain rfl := Option.some.inj h
      exact (Binary64.isFinite_iff _).2
        ⟨Binary64.isNaN_mul hx hpower.1 hpower.2, by simpa using hinf⟩
    · have hpower := Binary64.finite_power hsmall
      obtain rfl := Option.some.inj h
      exact (Binary64.isFinite_iff _).2
        ⟨Binary64.isNaN_div hx hpower.1 hpower.2, by simpa using hinf⟩
    · obtain rfl := Option.some.inj h
      exact isFinite_of_isZero hzero
    · have hpower := Binary64.finite_power (le_refl 308)
      exact ih (Binary64.isNaN_div hx hpower.1 hpower.2) h

/-! ## Numbers that are held -/

theorem isFinite_signed {negative : Bool} {x : Float} (h : Binary64.isFinite x = true) :
    Binary64.isFinite (Numeral.signed negative x) = true := by
  cases negative with
  | false => exact h
  | true => exact Binary64.isFinite_neg h

theorem held_ofParts {negative : Bool} {n : Nat} {e : Int} (hn : n < UInt64.size) :
    (ofParts negative n e).Held := by
  unfold ofParts
  split
  · next x hx =>
    have hnat := (Binary64.isFinite_iff _).1 (Binary64.isFinite_ofNat hn)
    exact isFinite_signed (isFinite_of_scale hnat.1 hx)
  · trivial

theorem held_ofInteger {negative : Bool} {n : Nat} (hn : n < UInt64.size) :
    (ofInteger negative n).Held := by
  unfold ofInteger
  split_ifs with hsign hreal
  · have hmin : Int64.minValue.toInt ≤ 0 := by decide
    exact ⟨by omega, by exact_mod_cast hn⟩
  · exact Binary64.isFinite_neg (Binary64.isFinite_ofNat hn)
  · have hword : (signedWord? (-n)).isSome := by
      simpa [Option.isSome_iff_ne_none] using fun h => hreal (.inr h)
    obtain ⟨w, hw⟩ := Option.isSome_iff_exists.1 hword
    rw [signedWord?_eq_some_iff.1 hw]
    exact ⟨w.le_toInt, w.toInt_lt.trans (by decide)⟩

theorem gather_lt {n : Nat} (cs : List Char) (hn : n < UInt64.size) :
    (gather n cs).1 < UInt64.size := by
  induction cs generalizing n with
  | nil => exact hn
  | cons c cs ih =>
    rw [gather]
    split_ifs with hm
    · exact ih hm
    · exact hn

theorem held_of_withExponent {negative : Bool} {n : Nat} {start : Int} {cs : List Char}
    {m : JsonNumber} (hn : n < UInt64.size) (h : withExponent negative n start cs = some m) :
    m.Held := by
  simp only [withExponent, Option.bind_eq_bind, Option.bind_eq_some_iff, Option.pure_def] at h
  obtain ⟨e, -, h⟩ := h
  split_ifs at h with hlarge hexcessive <;> obtain rfl := Option.some.inj h
  · trivial
  · exact isFinite_signed (by decide)
  · exact held_ofParts hn
  · exact held_ofParts hn

theorem held_of_unsigned {negative : Bool} {cs : List Char} {m : JsonNumber}
    (h : unsigned? negative cs = some m) : m.Held := by
  unfold unsigned? at h
  have hwhole := gather_lt (n := 0) (cs.takeWhile Char.isDigit) (by decide)
  dsimp only at h
  split at h
  · cases h
  split at h
  · -- no point and no exponent
    obtain rfl := Option.some.inj h
    split
    · exact held_ofInteger hwhole
    · exact held_ofParts hwhole
  · next rest _ =>
    have hplaces := gather_lt (rest.takeWhile Char.isDigit) hwhole
    split_ifs at h with hempty
    split at h
    · obtain rfl := Option.some.inj h
      exact held_ofParts hplaces
    · split_ifs at h
      exact held_of_withExponent hplaces h
  · split_ifs at h
    exact held_of_withExponent hwhole h

theorem held_of_ofText {cs : List Char} {m : JsonNumber} (h : ofText? cs = some m) : m.Held := by
  unfold ofText? at h
  split at h <;> exact held_of_unsigned h

/-! ## The characters of a numeral -/

/-- Characters that can all stand in a number. -/
def NumberChars (cs : List Char) : Prop := ∀ c ∈ cs, Json.isNumberChar c = true

theorem NumberChars.of_isDigit {cs : List Char} (h : ∀ c ∈ cs, c.isDigit = true) :
    NumberChars cs := fun c hc => by simp [Json.isNumberChar, h c hc]

theorem NumberChars.append {cs ds : List Char} (h : NumberChars cs) (h' : NumberChars ds) :
    NumberChars (cs ++ ds) := fun c hc => (List.mem_append.1 hc).elim (h c) (h' c)

theorem NumberChars.cons {c : Char} {cs : List Char} (hc : Json.isNumberChar c = true)
    (h : NumberChars cs) : NumberChars (c :: cs) :=
  List.forall_mem_cons.2 ⟨hc, h⟩

theorem isNumberChar_of_isExponentMark {c : Char} (h : Numeral.isExponentMark c = true) :
    Json.isNumberChar c = true := by
  rw [Numeral.isExponentMark, Bool.or_eq_true] at h
  rcases h with h | h <;> simp [Json.isNumberChar, h]

/-- Digits first, then what is left. -/
theorem NumberChars.of_dropWhile {cs : List Char}
    (h : NumberChars (cs.dropWhile Char.isDigit)) : NumberChars cs := by
  rw [← @List.takeWhile_append_dropWhile _ Char.isDigit cs]
  exact .append (.of_isDigit fun c => List.mem_takeWhile_imp) h

theorem numberChars_of_withExponent {negative : Bool} {n : Nat} {start : Int} {cs : List Char}
    {m : JsonNumber} (h : withExponent negative n start cs = some m) : NumberChars cs := by
  simp only [withExponent, Option.bind_eq_bind, Option.bind_eq_some_iff] at h
  obtain ⟨e, he, -⟩ := h
  have hdigits : ∀ c ∈ (Numeral.splitSign cs).2, c.isDigit = true := by
    unfold Numeral.natural? at he
    split_ifs at he with hall
    simpa using (Bool.and_eq_true_iff.1 hall).2
  unfold Numeral.splitSign at hdigits
  split at hdigits
  · exact .cons (by decide) (.of_isDigit hdigits)
  · exact .cons (by decide) (.of_isDigit hdigits)
  · exact .of_isDigit hdigits

theorem numberChars_of_unsigned {negative : Bool} {cs : List Char} {m : JsonNumber}
    (h : unsigned? negative cs = some m) : NumberChars cs := by
  unfold unsigned? at h
  dsimp only at h
  split at h
  · cases h
  split at h
  · next heq => exact .of_dropWhile (by rw [heq]; simp [NumberChars])
  · next rest heq =>
    refine .of_dropWhile ?_
    rw [heq]
    refine .cons (by decide) (.of_dropWhile ?_)
    split_ifs at h
    split at h
    · next heq => rw [heq]; simp [NumberChars]
    · next heq =>
      split_ifs at h with hmark
      rw [heq]
      exact .cons (isNumberChar_of_isExponentMark hmark) (numberChars_of_withExponent h)
  · next heq =>
    split_ifs at h with hmark
    refine .of_dropWhile ?_
    rw [heq]
    exact .cons (isNumberChar_of_isExponentMark hmark) (numberChars_of_withExponent h)

/-- A numeral without a sign starts with a digit. -/
theorem exists_digit_of_unsigned {negative : Bool} {cs : List Char} {m : JsonNumber}
    (h : unsigned? negative cs = some m) : ∃ c ds, cs = c :: ds ∧ c.isDigit = true := by
  cases cs with
  | nil => cases h
  | cons c ds =>
    by_cases hc : c.isDigit = true
    · exact ⟨c, ds, rfl, hc⟩
    · simp [unsigned?, hc, isWhole] at h

/-- Every character of a numeral can stand in a number, and the first one begins a number. -/
theorem numberChars_of_ofText {cs : List Char} {m : JsonNumber} (h : ofText? cs = some m) :
    NumberChars cs ∧ ∃ c ds, cs = c :: ds ∧ (c.isDigit || c == '-') = true := by
  unfold ofText? at h
  split at h
  · exact ⟨.cons (by decide) (numberChars_of_unsigned h), _, _, rfl, by decide⟩
  · obtain ⟨c, ds, heq, hc⟩ := exists_digit_of_unsigned h
    exact ⟨numberChars_of_unsigned h, c, ds, heq, by simp [hc]⟩

/-! ## Integers read back -/

theorem le_ofDigitChars (cs : List Char) (n : Nat) : n ≤ Nat.ofDigitChars 10 cs n := by
  rw [Nat.ofDigitChars_eq_ofDigitChars_zero]
  have := Nat.le_mul_of_pos_left n (Nat.pow_pos (n := cs.length) (show 0 < 10 by decide))
  omega

/-- Digits whose value fits into a word are all gathered. -/
theorem gather_eq {n : Nat} {cs : List Char} (h : Nat.ofDigitChars 10 cs n < UInt64.size) :
    gather n cs = (Nat.ofDigitChars 10 cs n, []) := by
  induction cs generalizing n with
  | nil => rfl
  | cons c cs ih =>
    rw [Nat.ofDigitChars_cons] at h ⊢
    have hm : 10 * n + Numeral.decimalDigit c < UInt64.size := (le_ofDigitChars cs _).trans_lt h
    rw [gather, if_pos hm]
    exact ih h

theorem isDigit_toDigits {n : Nat} : ∀ c ∈ Nat.toDigits 10 n, c.isDigit := fun _ =>
  Nat.isDigit_of_mem_toDigits (by decide) (by decide)

/-- A positive number does not start with a zero. -/
theorem toDigits_eq_cons {n : Nat} (h : 0 < n) :
    ∃ c cs, Nat.toDigits 10 n = c :: cs ∧ '1' ≤ c ∧ c ≤ '9' := by
  induction n using Nat.strong_induction_on with
  | _ n ih =>
    by_cases hsmall : n < 10
    · refine ⟨n.digitChar, [], Nat.toDigits_of_lt_base hsmall, ?_⟩
      interval_cases n <;> decide
    · obtain ⟨c, cs, hcs, hc⟩ := ih (n / 10) (by omega) (by omega)
      exact ⟨c, _, by rw [Nat.toDigits_of_base_le (by decide) (by omega), hcs]; rfl, hc⟩

theorem isWhole_toDigits (n : Nat) : isWhole (Nat.toDigits 10 n) = true := by
  rcases Nat.eq_zero_or_pos n with rfl | hpos
  · rfl
  · have hdigits := @isDigit_toDigits n
    obtain ⟨c, cs, hcs, hlow, hhigh⟩ := toDigits_eq_cons hpos
    rw [hcs] at hdigits ⊢
    unfold isWhole
    split <;> simp_all

theorem unsigned?_toDigits {negative : Bool} {n : Nat} (h : n < UInt64.size) :
    unsigned? negative (Nat.toDigits 10 n) = some (ofInteger negative n) := by
  have htake : (Nat.toDigits 10 n).takeWhile Char.isDigit = Nat.toDigits 10 n :=
    List.takeWhile_eq_self_iff.2 isDigit_toDigits
  have hdrop : (Nat.toDigits 10 n).dropWhile Char.isDigit = [] :=
    List.dropWhile_eq_nil_iff.2 isDigit_toDigits
  have hgather : gather 0 (Nat.toDigits 10 n) = (n, []) := by
    rw [gather_eq] <;> rw [Nat.ofDigitChars_ten_toDigits]
    exact h
  simp only [unsigned?, htake, hdrop, hgather, isWhole_toDigits]
  rfl

/-- Without a minus sign the text is read as it stands. -/
theorem ofText?_of_isDigit {c : Char} {cs : List Char} (h : c.isDigit) :
    ofText? (c :: cs) = unsigned? false (c :: cs) := by
  unfold ofText?
  split
  · next heq =>
    obtain ⟨rfl, -⟩ := List.cons.inj heq
    exact absurd h (by decide)
  · rfl

/-- An integer that a word holds is read back. -/
theorem ofText?_text_integer {n : Int} (h : FitsWord n) :
    ofText? (text (integer n)) = some (integer n) := by
  have hsize := h.natAbs_lt
  simp only [text, integerText, naturalText]
  split_ifs with hneg
  · simp only [String.toList_append, String.toList_ofList]
    show unsigned? true (Nat.toDigits 10 n.natAbs) = _
    have hword : ∃ w, signedWord? (-(n.natAbs : Int)) = some w := by
      have hmax : Int64.maxValue.toInt = 2 ^ 63 - 1 := rfl
      exact ⟨_, if_pos ⟨by have := h.1; omega, by omega⟩⟩
    obtain ⟨w, hw⟩ := hword
    rw [unsigned?_toDigits hsize, ofInteger]
    simp only [hw]
    rw [if_neg (by simp), if_neg (by simp; omega)]
    congr
    omega
  · obtain ⟨c, cs, hcs⟩ := List.exists_cons_of_ne_nil (@Nat.toDigits_ne_nil n.natAbs 10)
    have hc : c.isDigit := isDigit_toDigits c (by rw [hcs]; exact List.mem_cons_self)
    rw [String.toList_ofList, hcs, ofText?_of_isDigit hc, ← hcs, unsigned?_toDigits hsize]
    simp only [ofInteger]
    congr
    simp; omega

end ResumableVM.JsonNumber
