import Mathlib.Tactic
import ResumableVM.Proofs.Keys
import ResumableVM.Value.Arithmetic

/-! # NumericStrings: strings that spell an integer

An integer is spelled by its decimal digits, with a minus sign where needed, or by the hexadecimal
digits of its word behind `0x`; there may be blanks at both ends (`Spells`). Such a string is the
integer wherever a number is wanted, up to the ends of the range: it converts to it
(`Spells.toNumber?_eq`), so arithmetic cannot tell the two apart.

The value of a row of digits is read from its end: the last digit counts as it is, what stands before
it counts as many times as the base (`valueOf_concat`), and that is how the digits of a number are
made. -/

namespace ResumableVM

namespace Blank

/-- Characters that are shown in ASCII are no blanks. -/
theorem isBlank_eq_false {c : Char} (hlow : 0x20 < c.toNat) (hhigh : c.toNat < 0x7F) :
    isBlank c = false := by
  simp [isBlank]
  omega

/-- A text with characters other than blanks at both ends. -/
def IsTrimmed (cs : List Char) : Prop :=
  ∃ first last, cs.head? = some first ∧ cs.getLast? = some last ∧
    isBlank first = false ∧ isBlank last = false

theorem IsTrimmed.of_forall {cs : List Char} (hne : cs ≠ []) (h : ∀ c ∈ cs, isBlank c = false) :
    IsTrimmed cs :=
  ⟨cs.head hne, cs.getLast hne, List.head?_eq_some_head hne, List.getLast?_eq_some_getLast hne,
    h _ (List.head_mem hne), h _ (List.getLast_mem hne)⟩

/-- Blanks at the front are skipped. -/
theorem dropWhile_append {before cs : List Char} {first : Char}
    (hbefore : ∀ c ∈ before, isBlank c = true) (hfirst : cs.head? = some first)
    (h : isBlank first = false) : (before ++ cs).dropWhile isBlank = cs := by
  obtain ⟨rest, rfl⟩ := List.head?_eq_some_iff.mp hfirst
  rw [List.dropWhile_append_of_pos hbefore, List.dropWhile_cons_of_neg (by simp [h])]

/-- **Trimming removes the blanks at the two ends**, and nothing else. -/
theorem trim_append {before cs after : List Char} (hbefore : ∀ c ∈ before, isBlank c = true)
    (hafter : ∀ c ∈ after, isBlank c = true) (h : IsTrimmed cs) :
    trim (before ++ cs ++ after) = cs := by
  obtain ⟨first, last, hhead, hlast, hfirst, hend⟩ := h
  have hhead' : (cs ++ after).head? = some first := by rw [List.head?_append, hhead, Option.some_or]
  have hlast' : cs.reverse.head? = some last := by rw [List.head?_reverse, hlast]
  have hafter' : ∀ c ∈ after.reverse, isBlank c = true := fun c hc =>
    hafter c (List.mem_reverse.mp hc)
  rw [trim, List.append_assoc, dropWhile_append hbefore hhead' hfirst, List.reverse_append,
    dropWhile_append hafter' hlast' hend, List.reverse_reverse]

end Blank

namespace Numeral

/-! ### Rows of digits -/

theorem valueOf_concat (base : Nat) (digitOf : Char → Nat) (cs : List Char) (c : Char) :
    valueOf base digitOf (cs ++ [c]) = base * valueOf base digitOf cs + digitOf c := by
  simp [valueOf]

theorem valueOf_zeros {base : Nat} {digitOf : Char → Nat} (h : digitOf '0' = 0) (count : Nat)
    (cs : List Char) :
    valueOf base digitOf (List.replicate count '0' ++ cs) = valueOf base digitOf cs := by
  unfold valueOf
  rw [List.foldl_append]
  congr 1
  induction count with
  | zero => rfl
  | succ count ih => rw [List.replicate_succ, List.foldl_cons, h, Nat.mul_zero, Nat.add_zero, ih]

theorem natural?_toDigits (n : Nat) : natural? (Nat.toDigits 10 n) = some n := by
  have hall : (Nat.toDigits 10 n).all Char.isDigit = true := List.all_eq_true.mpr fun c =>
    Nat.isDigit_of_mem_toDigits (by decide) (by decide)
  have hne : (Nat.toDigits 10 n).isEmpty = false := by simp
  have hvalue : valueOf 10 decimalDigit (Nat.toDigits 10 n) = n := Nat.ofDigitChars_ten_toDigits
  rw [natural?, hne, hall, hvalue]
  rfl

/-- A row of digits has no sign. -/
theorem splitSign_of_isDigit {c : Char} {cs : List Char} (h : c.isDigit = true) :
    splitSign (c :: cs) = (false, c :: cs) := by
  unfold splitSign
  split
  · next heq => cases (List.cons.inj heq).1; cases h
  · next heq => cases (List.cons.inj heq).1; cases h
  · rfl

/-- What is read of the digits of a magnitude behind a sign. -/
theorem integer64?_of_splitSign {cs : List Char} {negative : Bool} {m : Nat}
    (h : splitSign cs = (negative, Nat.toDigits 10 m)) :
    integer64? cs = signedWord? (if negative then -(m : Int) else m) := by
  rw [integer64?, h]
  dsimp only [Option.bind_eq_bind]
  rw [natural?_toDigits, Option.bind_some]

/-- **The decimal digits of a word** are read as the word. -/
theorem integer64?_integerText (n : Int64) : integer64? (integerText n.toInt).toList = some n := by
  unfold integerText naturalText
  split
  · next hneg =>
    simp only [String.toList_append, String.toList_ofList]
    rw [@integer64?_of_splitSign _ true n.toInt.natAbs rfl]
    exact signedWord?_eq_some_iff.mpr (by rw [if_pos rfl]; omega)
  · next hpos =>
    obtain ⟨c, cs, hcs⟩ := List.exists_cons_of_ne_nil
      (Nat.toDigits_ne_nil : Nat.toDigits 10 n.toInt.natAbs ≠ [])
    have hdigit : c.isDigit = true := Nat.isDigit_of_mem_toDigits (b := 10)
      (n := n.toInt.natAbs) (by decide) (by decide) (hcs ▸ List.mem_cons_self)
    have hsplit := @splitSign_of_isDigit _ cs hdigit
    rw [← hcs] at hsplit
    rw [String.toList_ofList, integer64?_of_splitSign hsplit]
    exact signedWord?_eq_some_iff.mpr (by rw [if_neg Bool.false_ne_true]; omega)

/-! ### Hexadecimal digits -/

/-- The digits above nine are letters in a row. -/
theorem toNat_digitChar {d : Nat} (hd : d < 16) :
    (Nat.digitChar d).toNat = if d < 10 then 48 + d else 87 + d := by
  interval_cases d <;> rfl

/-- Letters in upper case stand 32 places before those in lower case. -/
theorem toNat_toLower (c : Char) :
    c.toLower.toNat = if 65 ≤ c.toNat ∧ c.toNat ≤ 90 then c.toNat + 32 else c.toNat := by
  have hupper : (c.val ≥ 'A'.val ∧ c.val ≤ 'Z'.val) ↔ 65 ≤ c.toNat ∧ c.toNat ≤ 90 :=
    and_congr UInt32.le_iff_toNat_le UInt32.le_iff_toNat_le
  unfold Char.toLower
  split
  · next h =>
    have hle : c.val.toNat ≤ 90 := (hupper.mp h).2
    rw [if_pos (hupper.mp h)]
    show (c.val + 32).toNat = c.val.toNat + 32
    rw [UInt32.toNat_add]
    show (c.val.toNat + 32) % 2 ^ 32 = c.val.toNat + 32
    omega
  · next h => rw [if_neg fun hupper' => h (hupper.mpr hupper')]

theorem isDigit_iff {c : Char} : c.isDigit = true ↔ 48 ≤ c.toNat ∧ c.toNat ≤ 57 := by
  rw [Char.isDigit, Bool.and_eq_true, decide_eq_true_iff, decide_eq_true_iff]
  exact and_congr UInt32.le_iff_toNat_le UInt32.le_iff_toNat_le

theorem le_iff_toNat {c d : Char} : c ≤ d ↔ c.toNat ≤ d.toNat := UInt32.le_iff_toNat_le

/-- **A hexadecimal digit in either case** has the value of the digit in lower case. -/
theorem hexDigit_of_toLower {c : Char} {d : Nat} (hd : d < 16) (h : c.toLower = Nat.digitChar d) :
    isHexDigit c = true ∧ hexDigit c = d := by
  have hcode := congrArg Char.toNat h
  rw [toNat_toLower, toNat_digitChar hd] at hcode
  have ha : 'a'.toNat = 97 := rfl
  have hA : 'A'.toNat = 65 := rfl
  have h0 : '0'.toNat = 48 := rfl
  have hf : 'f'.toNat = 102 := rfl
  have hF : 'F'.toNat = 70 := rfl
  constructor
  · simp only [isHexDigit, Bool.or_eq_true, Bool.and_eq_true, decide_eq_true_eq, isDigit_iff,
      le_iff_toNat, ha, hA, hf, hF]
    split_ifs at hcode <;> omega
  · simp only [hexDigit, decimalDigit, isDigit_iff, le_iff_toNat, ha, hA, h0]
    split_ifs at hcode ⊢ <;> omega

/-- The hexadecimal digits of a number, in either case, after any number of zeros. -/
def SpellsHex (n : Nat) (cs : List Char) : Prop :=
  ∃ (zeros : Nat) (digits : List Char), cs = List.replicate zeros '0' ++ digits ∧
    digits.map Char.toLower = Nat.toDigits 16 n

/-- The digits of a number in either case are digits, and their value is the number. -/
theorem valueOf_hexDigits {n : Nat} {digits : List Char}
    (h : digits.map Char.toLower = Nat.toDigits 16 n) :
    digits ≠ [] ∧ (∀ c ∈ digits, isHexDigit c = true) ∧ valueOf 16 hexDigit digits = n := by
  induction n using Nat.strong_induction_on generalizing digits with
  | _ n ih =>
    rcases Nat.lt_or_ge n 16 with hsmall | hlarge
    · rw [Nat.toDigits_of_lt_base hsmall] at h
      obtain ⟨c, rfl, hc⟩ := List.map_eq_singleton_iff.mp h
      obtain ⟨hdigit, hvalue⟩ := hexDigit_of_toLower hsmall hc
      refine ⟨List.cons_ne_nil _ _, fun d hd => List.mem_singleton.mp hd ▸ hdigit, ?_⟩
      simp [valueOf, hvalue]
    · rw [Nat.toDigits_of_base_le (by decide) hlarge] at h
      obtain ⟨front, last, rfl, hfront, hlast⟩ := List.map_eq_append_iff.mp h
      obtain ⟨c, rfl, hc⟩ := List.map_eq_singleton_iff.mp hlast
      obtain ⟨-, hall, hvalue⟩ := ih (n / 16) (by omega) hfront
      obtain ⟨hdigit, hlow⟩ := hexDigit_of_toLower (Nat.mod_lt n (by decide)) hc
      refine ⟨by simp, fun d hd => ?_, ?_⟩
      · rcases List.mem_append.mp hd with hd | hd
        · exact hall d hd
        · exact List.mem_singleton.mp hd ▸ hdigit
      · rw [valueOf_concat, hvalue, hlow]
        omega

/-- Zeros before digits are digits, and leave the value as it is. -/
theorem SpellsHex.value {n : Nat} {cs : List Char} (h : SpellsHex n cs) :
    cs ≠ [] ∧ (∀ c ∈ cs, isHexDigit c = true) ∧ valueOf 16 hexDigit cs = n := by
  obtain ⟨zeros, digits, rfl, hdigits⟩ := h
  obtain ⟨hne, hall, hvalue⟩ := valueOf_hexDigits hdigits
  refine ⟨by simp [hne], fun c hc => ?_, (valueOf_zeros (by decide) zeros digits).trans hvalue⟩
  rcases List.mem_append.mp hc with hc | hc
  · exact List.eq_of_mem_replicate hc ▸ (by decide)
  · exact hall c hc

/-- **The hexadecimal digits of a word** are read as the word. -/
theorem hexadecimal?_of_spellsHex {w : UInt64} {cs : List Char} (h : SpellsHex w.toNat cs) :
    hexadecimal? cs = some w := by
  obtain ⟨hne, hall, hvalue⟩ := h.value
  have hread : (if !cs.isEmpty && cs.all isHexDigit then unsignedWord? (valueOf 16 hexDigit cs)
      else none) = some w := by
    rw [if_pos (by simpa using ⟨hne, hall⟩), hvalue, unsignedWord?, if_pos w.toNat_lt_size,
      UInt64.ofNat_toNat]
  unfold hexadecimal?
  split
  · -- a plus sign is no digit
    exact absurd (hall '+' List.mem_cons_self) (by decide)
  · exact hread

end Numeral

/-! ### Spellings -/

/-- The integer in digits: decimal ones, or the hexadecimal ones of its word. -/
inductive SpellsPlainly (n : Int64) : List Char → Prop
  | decimal : SpellsPlainly n (integerText n.toInt).toList
  | hexadecimal {w : UInt64} {x : Char} {digits : List Char} (hw : w.toInt64 = n)
      (hx : x = 'x' ∨ x = 'X') (hdigits : Numeral.SpellsHex w.toNat digits) :
      SpellsPlainly n ('0' :: x :: digits)

/-- The string is the integer in digits, with blanks around them. -/
def Spells (n : Int64) (s : String) : Prop :=
  ∃ before digits after : List Char, s = String.ofList (before ++ digits ++ after) ∧
    (∀ c ∈ before, Blank.isBlank c = true) ∧ (∀ c ∈ after, Blank.isBlank c = true) ∧
    SpellsPlainly n digits

/-- Every character of a decimal integer is a digit, but for the sign. -/
theorem mem_integerText {m : Int} {c : Char} (h : c ∈ (integerText m).toList) :
    c = '-' ∨ c.isDigit = true := by
  have hdigits : ∀ d ∈ Nat.toDigits 10 m.natAbs, d.isDigit = true := fun d =>
    Nat.isDigit_of_mem_toDigits (by decide) (by decide)
  unfold integerText naturalText at h
  split at h
  · simp only [String.toList_append, String.toList_ofList, List.mem_append] at h
    exact h.imp List.mem_singleton.mp (hdigits c)
  · rw [String.toList_ofList] at h
    exact .inr (hdigits c h)

theorem integerText_ne_nil (m : Int) : (integerText m).toList ≠ [] := by
  unfold integerText naturalText
  split <;> simp

theorem isBlank_of_isHexDigit {c : Char} (h : Numeral.isHexDigit c = true) :
    Blank.isBlank c = false := by
  simp only [Numeral.isHexDigit, Bool.or_eq_true, Bool.and_eq_true, decide_eq_true_eq,
    Numeral.isDigit_iff, Numeral.le_iff_toNat, show 'a'.toNat = 97 from rfl,
    show 'A'.toNat = 65 from rfl, show 'f'.toNat = 102 from rfl, show 'F'.toNat = 70 from rfl] at h
  exact Blank.isBlank_eq_false (by omega) (by omega)

theorem SpellsPlainly.isTrimmed {n : Int64} {cs : List Char} (h : SpellsPlainly n cs) :
    Blank.IsTrimmed cs := by
  cases h with
  | decimal =>
    refine .of_forall (integerText_ne_nil _) fun c hc => ?_
    rcases mem_integerText hc with rfl | hdigit
    · decide
    · exact isBlank_of_isHexDigit (by simp [Numeral.isHexDigit, hdigit])
  | hexadecimal _ hx hdigits =>
    obtain ⟨-, hall, -⟩ := hdigits.value
    refine .of_forall (List.cons_ne_nil _ _) fun c hc => ?_
    rcases List.mem_cons.mp hc with rfl | hc
    · decide
    rcases List.mem_cons.mp hc with rfl | hc
    · rcases hx with rfl | rfl <;> decide
    · exact isBlank_of_isHexDigit (hall c hc)

/-- A decimal numeral has no `0x` in front. -/
theorem Number.ofString?_of_integer64? {s : String} {n : Int64}
    (h : Numeral.integer64? (Blank.trim s.toList) = some n) : ofString? s = some (integer n) := by
  have hmarked : ∀ x digits, x = 'x' ∨ x = 'X' → Numeral.integer64? ('0' :: x :: digits) = none := by
    rintro x digits (rfl | rfl) <;> simp [Numeral.integer64?, Numeral.splitSign, Numeral.natural?]
  unfold ofString?
  dsimp only
  split
  · next heq =>
    rw [heq, hmarked _ _ (.inl rfl)] at h
    cases h
  · next heq =>
    rw [heq, hmarked _ _ (.inr rfl)] at h
    cases h
  · rw [h]

theorem Number.ofString?_of_hexadecimal? {s : String} {w : UInt64} {x : Char} {digits : List Char}
    (hs : Blank.trim s.toList = '0' :: x :: digits) (hx : x = 'x' ∨ x = 'X')
    (h : Numeral.hexadecimal? digits = some w) : ofString? s = some (integer w.toInt64) := by
  unfold ofString?
  rw [hs]
  rcases hx with rfl | rfl <;> exact congrArg (Option.map fun w => integer w.toInt64) h

/-- **A string that spells an integer converts to it.** -/
theorem Spells.toNumber?_eq {n : Int64} {s : String} (h : Spells n s) :
    (Value.string s).toNumber? = some (.integer n) := by
  obtain ⟨before, digits, after, rfl, hbefore, hafter, hdigits⟩ := h
  have htrim : Blank.trim (String.ofList (before ++ digits ++ after)).toList = digits := by
    rw [String.toList_ofList, Blank.trim_append hbefore hafter hdigits.isTrimmed]
  show Number.ofString? _ = _
  cases hdigits with
  | decimal =>
    refine Number.ofString?_of_integer64? ?_
    rw [htrim, Numeral.integer64?_integerText]
  | hexadecimal hw hx hdigits =>
    subst hw
    exact Number.ofString?_of_hexadecimal? htrim hx (Numeral.hexadecimal?_of_spellsHex hdigits)

/-- **A string that spells an integer behaves as that integer.** It converts to it, and arithmetic
with the string, on either side, gives what it gives with the integer: a value, an error, or no
answer at all. -/
theorem numeric_string_behaves_as_integer {n : Int64} {s : String} (h : Spells n s) :
    (Value.string s).toNumber? = some (.integer n) ∧
    ∀ (op : ArithOp) (v : Value),
      rawArithmetic? op (.string s) v = rawArithmetic? op (.integer n) v ∧
      rawArithmetic? op v (.string s) = rawArithmetic? op v (.integer n) := by
  have hnumber : (Value.string s).toNumber? = (Value.integer n).toNumber? := h.toNumber?_eq
  refine ⟨h.toNumber?_eq, fun op v => ?_⟩
  unfold rawArithmetic?
  rw [hnumber]
  exact ⟨rfl, rfl⟩

/-- The least integer between two blanks, and a negative integer by the digits of its word, in both
cases after two zeros. -/
theorem numeric_string_behaves_as_least_integer :
    (Spells Int64.minValue "\u2003-9223372036854775808\t" ∧
      rawArithmetic? .negate (.string "\u2003-9223372036854775808\t") (.integer 1) =
        some (.ok (.integer Int64.minValue))) ∧
    Spells (-81985529216486896) "0X00FedCBa9876543210" ∧
    rawArithmetic? .add (.integer 1) (.string "0X00FedCBa9876543210") =
      some (.ok (.integer (-81985529216486895))) := by
  have hleast : Spells Int64.minValue "\u2003-9223372036854775808\t" :=
    ⟨['\u2003'], _, ['\t'], rfl, List.all_eq_true.mp rfl, List.all_eq_true.mp rfl, .decimal⟩
  have hword : Spells (-81985529216486896) "0X00FedCBa9876543210" :=
    ⟨[], _, [], rfl, List.forall_mem_nil _, List.forall_mem_nil _,
      .hexadecimal (w := 0xFEDCBA9876543210) rfl (.inr rfl)
        ⟨2, "FedCBa9876543210".toList, rfl, by decide⟩⟩
  refine ⟨⟨hleast, ?_⟩, hword, ?_⟩
  · rw [((numeric_string_behaves_as_integer hleast).2 .negate (.integer 1)).1]
    rfl
  · rw [((numeric_string_behaves_as_integer hword).2 .add (.integer 1)).2]
    rfl

end ResumableVM
