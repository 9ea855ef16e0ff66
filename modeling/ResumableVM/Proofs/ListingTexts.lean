import ResumableVM.Code.Listing
import ResumableVM.Proofs.NumberTexts

/-! # ListingTexts: what stands in a line of a listing can be told from its text

A text is told from what follows it: a name or a number ends where a blank, a comma or a bracket
begins (`append_inj_of_head`), a slot in brackets and a quoted string end themselves. So two sources
whose texts begin one text are the same (`Source.text_append_inj`), and so are two lists of arguments
(`joined_append_inj`). -/

namespace ResumableVM

variable {s t u v : List Char}

theorem takeWhile_append {p : Char → Bool} (hs : ∀ c ∈ s, p c = true)
    (hu : ∀ c, u.head? = some c → p c = false) : (s ++ u).takeWhile p = s := by
  have hstop : u.takeWhile p = [] := by
    cases u with
    | nil => rfl
    | cons c cs => rw [List.takeWhile_cons_of_neg (by rw [hu c rfl]; decide)]
  rw [List.takeWhile_append_of_pos hs, hstop, List.append_nil]

/-- Characters of one kind are told from what follows, if that begins with another kind. -/
theorem append_inj_of_head {p : Char → Bool} (hs : ∀ c ∈ s, p c = true) (ht : ∀ c ∈ t, p c = true)
    (hu : ∀ c, u.head? = some c → p c = false) (hv : ∀ c, v.head? = some c → p c = false)
    (h : s ++ u = t ++ v) : s = t ∧ u = v := by
  have hst : s = t := by rw [← takeWhile_append hs hu, h, takeWhile_append ht hv]
  subst hst
  exact ⟨rfl, List.append_cancel_left h⟩

/-! ### Words -/

namespace Listing

/-- A character of a name or a number: no blank, comma, bracket or quote. -/
def isWordChar (c : Char) : Bool := !([' ', ',', '(', ')', '[', ']', '"'].contains c)

/-- A name or a number. -/
structure IsWord (cs : List Char) : Prop where
  ne_nil : cs ≠ []
  wordChar : ∀ c ∈ cs, isWordChar c = true

/-- No word goes on here. -/
def Ends (rest : List Char) : Prop := ∀ c, rest.head? = some c → isWordChar c = false

theorem ends_nil : Ends [] := fun _ h => by cases h

theorem ends_cons {c : Char} {cs : List Char} (h : isWordChar c = false) : Ends (c :: cs) :=
  fun _ heq => Option.some.inj heq ▸ h

theorem isWordChar_of_isNumeric {c : Char} (h : isNumeric c = true) : isWordChar c = true := by
  by_contra hne
  simp only [isWordChar, Bool.not_eq_true', Bool.not_eq_false, List.contains_iff_mem, List.mem_cons,
    List.not_mem_nil, or_false] at hne
  rcases hne with rfl | rfl | rfl | rfl | rfl | rfl | rfl <;> exact absurd h (by decide)

theorem isWordChar_toDigits (n : Nat) : ∀ c ∈ Nat.toDigits 10 n, isWordChar c = true := fun _ h =>
  isWordChar_of_isNumeric (by
    simp [isNumeric, Nat.isDigit_of_mem_toDigits (b := 10) (by decide) (by decide) h])

/-- **A natural number is told from what follows it.** -/
theorem natural_append_inj {m n : Nat} (hu : Ends u) (hv : Ends v)
    (h : Nat.toDigits 10 m ++ u = Nat.toDigits 10 n ++ v) : m = n ∧ u = v :=
  (append_inj_of_head (isWordChar_toDigits m) (isWordChar_toDigits n) hu hv h).imp_left
    toDigits_injective

end Listing

open Listing

/-! ### Slots -/

theorem SlotRef.toList_text (s : SlotRef) : s.text.toList =
    match s.mode with
    | .direct => 'r' :: Nat.toDigits 10 s.register
    | .boxed => '[' :: 'r' :: (Nat.toDigits 10 s.register ++ [']']) := by
  unfold text naturalText
  cases s.mode <;> simp

/-- **A slot is told from what follows it.** -/
theorem SlotRef.text_append_inj {a b : SlotRef} (hu : Ends u) (hv : Ends v)
    (h : a.text.toList ++ u = b.text.toList ++ v) : a = b ∧ u = v := by
  obtain ⟨r, mode⟩ := a
  obtain ⟨r', mode'⟩ := b
  rw [toList_text, toList_text] at h
  cases mode with
  | direct =>
    cases mode' with
    | direct =>
      obtain ⟨rfl, hrest⟩ := natural_append_inj hu hv (List.cons.inj h).2
      exact ⟨rfl, hrest⟩
    | boxed => cases (List.cons.inj h).1
  | boxed =>
    cases mode' with
    | direct => cases (List.cons.inj h).1
    | boxed =>
      simp only [List.cons_append, List.append_assoc, List.nil_append] at h
      have h := (List.cons.inj (List.cons.inj h).2).2
      obtain ⟨rfl, hrest⟩ := natural_append_inj (ends_cons rfl) (ends_cons rfl) h
      exact ⟨rfl, (List.cons.inj hrest).2⟩

/-! ### Quoted strings -/

namespace Quoted

/-- Characters with a short escape, and the letter of it. -/
def shortEscapes : List (Char × Char) :=
  [('"', '"'), ('\\', '\\'), ('\n', 'n'), ('\r', 'r'), ('\t', 't'), ('\x00', '0')]

/-- How a character is written. -/
inductive Writes : Char → List Char → Prop
  | short {c x : Char} (h : (c, x) ∈ shortEscapes) : Writes c ['\\', x]
  | plain {c : Char} (hquote : c ≠ '"') (hbackslash : c ≠ '\\') : Writes c [c]
  | codePoint (c : Char) : Writes c (Quoted.codePoint c)

theorem writes_encodeChar (c : Char) : Writes c (encodeChar c) := by
  unfold encodeChar
  split
  · exact .short (by decide)
  · exact .short (by decide)
  · exact .short (by decide)
  · exact .short (by decide)
  · exact .short (by decide)
  · exact .short (by decide)
  · next hquote hbackslash _ _ _ _ =>
    split
    · exact .plain hquote hbackslash
    · exact .codePoint c

theorem mem_toDigits_hex (n : Nat) : ∀ c ∈ Nat.toDigits 16 n, ∃ d < 16, c = Nat.digitChar d := by
  induction n using Nat.strong_induction_on with
  | _ n ih =>
    intro c hc
    rcases Nat.lt_or_ge n 16 with hsmall | hlarge
    · rw [Nat.toDigits_of_lt_base hsmall] at hc
      exact ⟨n, hsmall, List.mem_singleton.mp hc⟩
    · rw [Nat.toDigits_of_base_le (by decide) hlarge] at hc
      rcases List.mem_append.mp hc with hc | hc
      · exact ih (n / 16) (by omega) c hc
      · exact ⟨n % 16, Nat.mod_lt n (by decide), List.mem_singleton.mp hc⟩

theorem toLower_toDigits_hex (n : Nat) : (Nat.toDigits 16 n).map Char.toLower = Nat.toDigits 16 n := by
  refine (List.map_congr_left fun c hc => ?_).trans (List.map_id _)
  obtain ⟨d, hd, rfl⟩ := mem_toDigits_hex n c hc
  interval_cases d <;> rfl

theorem isHexDigit_toDigits_hex (n : Nat) : ∀ c ∈ Nat.toDigits 16 n, Numeral.isHexDigit c = true :=
  (Numeral.valueOf_hexDigits (toLower_toDigits_hex n)).2.1

/-- The digits in base sixteen are those of one number only. -/
theorem toDigits_hex_injective {m n : Nat} (h : Nat.toDigits 16 m = Nat.toDigits 16 n) : m = n := by
  rw [← (Numeral.valueOf_hexDigits (toLower_toDigits_hex m)).2.2, h,
    (Numeral.valueOf_hexDigits (toLower_toDigits_hex n)).2.2]

theorem shortEscapes_inj : ∀ p ∈ shortEscapes, ∀ q ∈ shortEscapes, p.2 = q.2 → p.1 = q.1 := by
  decide

theorem shortEscapes_ne : ∀ p ∈ shortEscapes, p.2 ≠ 'u' := by decide

/-- **A character is told from what follows it**, however it is written. -/
theorem Writes.append_inj {c d : Char} (hc : Writes c s) (hd : Writes d t) (h : s ++ u = t ++ v) :
    c = d ∧ u = v := by
  cases hc with
  | short hx =>
    cases hd with
    | short hy =>
      obtain ⟨hxy, hrest⟩ := List.cons.inj (List.cons.inj h).2
      exact ⟨shortEscapes_inj _ hx _ hy hxy, hrest⟩
    | plain _ hbackslash => exact absurd (List.cons.inj h).1.symm hbackslash
    | codePoint => exact absurd (List.cons.inj (List.cons.inj h).2).1 (shortEscapes_ne _ hx)
  | plain _ hbackslash =>
    cases hd with
    | short => exact absurd (List.cons.inj h).1 hbackslash
    | plain => exact List.cons.inj h
    | codePoint => exact absurd (List.cons.inj h).1 hbackslash
  | codePoint =>
    cases hd with
    | short hy => exact absurd (List.cons.inj (List.cons.inj h).2).1.symm (shortEscapes_ne _ hy)
    | plain _ hbackslash => exact absurd (List.cons.inj h).1.symm hbackslash
    | codePoint =>
      simp only [Quoted.codePoint, List.cons_append, List.append_assoc, List.nil_append] at h
      have h := (List.cons.inj (List.cons.inj (List.cons.inj h).2).2).2
      have hbrace : ∀ w, ∀ x, ('\x7d' :: w).head? = some x → Numeral.isHexDigit x = false := by
        rintro w x hx
        cases Option.some.inj hx
        decide
      obtain ⟨hdigits, hrest⟩ := append_inj_of_head (isHexDigit_toDigits_hex _)
        (isHexDigit_toDigits_hex _) (hbrace u) (hbrace v) h
      exact ⟨Char.toNat_inj.mp (toDigits_hex_injective hdigits), (List.cons.inj hrest).2⟩

/-- No character is written with a quote in front. -/
theorem Writes.ne_quote {c : Char} (hc : Writes c s) : s ++ u ≠ '"' :: v := by
  intro h
  cases hc with
  | short => cases (List.cons.inj h).1
  | plain hquote => exact hquote (List.cons.inj h).1
  | codePoint => cases (List.cons.inj h).1

/-- Characters are told from what follows the quote behind them. -/
theorem flatMap_encodeChar_inj : ∀ {cs ds : List Char},
    cs.flatMap encodeChar ++ '"' :: u = ds.flatMap encodeChar ++ '"' :: v → cs = ds ∧ u = v
  | [], [], h => ⟨rfl, (List.cons.inj h).2⟩
  | [], d :: ds, h => by
    rw [List.flatMap_cons, List.append_assoc] at h
    exact absurd h.symm (writes_encodeChar d).ne_quote
  | c :: cs, [], h => by
    rw [List.flatMap_cons, List.append_assoc] at h
    exact absurd h (writes_encodeChar c).ne_quote
  | c :: cs, d :: ds, h => by
    rw [List.flatMap_cons, List.flatMap_cons, List.append_assoc, List.append_assoc] at h
    obtain ⟨rfl, htail⟩ := (writes_encodeChar c).append_inj (writes_encodeChar d) h
    exact (flatMap_encodeChar_inj htail).imp_left (congrArg (c :: ·))

theorem toList_encode (s : String) :
    (encode s).toList = '"' :: (s.toList.flatMap encodeChar ++ ['"']) := by
  rw [encode, String.toList_ofList]
  rfl

/-- **A quoted string is told from what follows it.** -/
theorem encode_append_inj {a b : String} (h : (encode a).toList ++ u = (encode b).toList ++ v) :
    a = b ∧ u = v := by
  rw [toList_encode, toList_encode, List.cons_append, List.cons_append, List.append_assoc,
    List.append_assoc] at h
  exact (flatMap_encodeChar_inj (List.cons.inj h).2).imp_left String.toList_inj.mp

end Quoted

/-! ### Literals -/

/-- The literal is not NaN. -/
def Const.NotNaN (c : Const) : Prop := ∀ x, c = .float x → Binary64.isNaN x = false

namespace Const

variable {c d : Const}

/-- Literals that are written by a name. -/
def names : List Const := [.nil, .boolean true, .boolean false]

/-- A literal is written by a name, as a number or as a quoted string. -/
theorem name_or_number (c : Const) : c ∈ names ∨ (∃ n, c = .integer n) ∨ (∃ x, c = .float x) ∨
    ∃ s, c = .string s := by
  cases c with
  | nil => exact .inl (by decide)
  | boolean b => cases b <;> exact .inl (by decide)
  | integer n => exact .inr (.inl ⟨n, rfl⟩)
  | float x => exact .inr (.inr (.inl ⟨x, rfl⟩))
  | string s => exact .inr (.inr (.inr ⟨s, rfl⟩))

theorem names_inj : ∀ c ∈ names, ∀ d ∈ names, c.toValue.display = d.toValue.display → c = d := by
  decide

/-- Every name has a letter that no number has. -/
theorem letter_mem_name : ∀ c ∈ names, ∃ l ∈ c.toValue.display.toList, isNumeric l = false := by
  intro c hc
  simp only [names, List.mem_cons, List.not_mem_nil, or_false] at hc
  rcases hc with rfl | rfl | rfl
  · exact ⟨'l', by decide, rfl⟩
  · exact ⟨'t', by decide, rfl⟩
  · exact ⟨'l', by decide, rfl⟩

theorem isWord_name : ∀ c ∈ names, IsWord c.toValue.display.toList := by
  intro c hc
  simp only [names, List.mem_cons, List.not_mem_nil, or_false] at hc
  rcases hc with rfl | rfl | rfl <;> exact ⟨by decide, List.all_eq_true.mp rfl⟩

/-- The literal is written as a number. -/
def IsNumber (c : Const) : Prop := (∃ n, c = .integer n) ∨ ∃ x, c = .float x ∧ Binary64.isNaN x = false

theorem IsNumber.isNumeric (h : c.IsNumber) :
    ∀ l ∈ c.toValue.display.toList, ResumableVM.isNumeric l = true := by
  rcases h with ⟨n, rfl⟩ | ⟨x, rfl, hx⟩
  · exact isNumeric_of_mem_integerText n.toInt
  · exact isNumeric_of_mem_displayText hx

/-- A number is not written by a name. -/
theorem IsNumber.ne_name (h : c.IsNumber) (hd : d ∈ names) : c.toValue.display ≠ d.toValue.display := by
  intro heq
  obtain ⟨l, hl, hletter⟩ := letter_mem_name d hd
  exact absurd ((h.isNumeric l (heq ▸ hl)).symm.trans hletter) (by decide)

theorem IsNumber.display_injective (hc : c.IsNumber) (hd : d.IsNumber)
    (h : c.toValue.display = d.toValue.display) : c = d := by
  rcases hc with ⟨m, rfl⟩ | ⟨x, rfl, hx⟩
  · rcases hd with ⟨n, rfl⟩ | ⟨y, rfl, hy⟩
    · rw [Int64.toInt_inj.mp (integerText_injective h)]
    · exact absurd h.symm (displayText_ne_integerText hy m.toInt)
  · rcases hd with ⟨n, rfl⟩ | ⟨y, rfl, hy⟩
    · exact absurd h (displayText_ne_integerText hx n.toInt)
    · rw [displayText_injective hx hy h]

/-- The literal is written as a word. -/
def IsPlain (c : Const) : Prop := c ∈ names ∨ c.IsNumber

theorem isPlain_or_string (hc : c.NotNaN) : c.IsPlain ∨ ∃ s, c = .string s := by
  rcases c.name_or_number with h | h | ⟨x, rfl⟩ | h
  · exact .inl (.inl h)
  · exact .inl (.inr (.inl h))
  · exact .inl (.inr (.inr ⟨x, rfl, hc x rfl⟩))
  · exact .inr h

/-- **Literals with one text are the same**, apart from strings. -/
theorem IsPlain.display_injective (hc : c.IsPlain) (hd : d.IsPlain)
    (h : c.toValue.display = d.toValue.display) : c = d := by
  rcases hc with hc | hc
  · rcases hd with hd | hd
    · exact names_inj c hc d hd h
    · exact absurd h.symm (hd.ne_name hc)
  · rcases hd with hd | hd
    · exact absurd h (hc.ne_name hd)
    · exact hc.display_injective hd h

theorem IsPlain.isWord (h : c.IsPlain) : IsWord c.toValue.display.toList := by
  rcases h with h | h
  · exact isWord_name c h
  · refine ⟨?_, fun l hl => isWordChar_of_isNumeric (h.isNumeric l hl)⟩
    rcases h with ⟨n, rfl⟩ | ⟨x, rfl, hx⟩
    · exact integerText_ne_nil _
    · obtain ⟨l, hl, -⟩ := exists_ne_point hx
      exact List.ne_nil_of_mem hl

/-- No literal is written as a row of points. -/
theorem IsPlain.exists_ne_point (h : c.IsPlain) : ∃ l ∈ c.toValue.display.toList, l ≠ '.' := by
  rcases h with h | ⟨n, rfl⟩ | ⟨x, rfl, hx⟩
  · obtain ⟨l, hl, hletter⟩ := letter_mem_name c h
    exact ⟨l, hl, by rintro rfl; exact absurd hletter (by decide)⟩
  · obtain ⟨l, hl⟩ := List.exists_mem_of_ne_nil _ (integerText_ne_nil n.toInt)
    refine ⟨l, hl, ?_⟩
    rintro rfl
    rcases mem_integerText hl with h | h <;> exact absurd h (by decide)
  · exact ResumableVM.exists_ne_point hx

end Const

/-! ### Sources -/

/-- The source is not NaN. -/
def Source.NotNaN : Source → Prop
  | .slot _ => True
  | .const c => c.NotNaN

/-- A source whose text is a word. -/
inductive Source.IsPlain : Source → Prop
  | slot (r : Nat) : IsPlain (.slot ⟨r, .direct⟩)
  | const {c : Const} (h : c.IsPlain) : IsPlain (.const c)

namespace Source

variable {a b : Source}

theorem cases_of_notNaN (h : a.NotNaN) :
    a.IsPlain ∨ (∃ r, a = .slot ⟨r, .boxed⟩) ∨ ∃ s, a = .const (.string s) := by
  cases a with
  | slot s =>
    obtain ⟨r, mode⟩ := s
    cases mode with
    | direct => exact .inl (.slot r)
    | boxed => exact .inr (.inl ⟨r, rfl⟩)
  | const c =>
    rcases Const.isPlain_or_string (c := c) h with h | ⟨s, rfl⟩
    · exact .inl (.const h)
    · exact .inr (.inr ⟨s, rfl⟩)

theorem text_of_isPlain {c : Const} (h : c.IsPlain) : (Source.const c).text = c.toValue.display := by
  rcases h with h | ⟨n, rfl⟩ | ⟨x, rfl, -⟩
  · simp only [Const.names, List.mem_cons, List.not_mem_nil, or_false] at h
    rcases h with rfl | rfl | rfl <;> rfl
  · rfl
  · rfl

theorem toList_text_direct (r : Nat) :
    (Source.slot ⟨r, .direct⟩).text.toList = 'r' :: Nat.toDigits 10 r := SlotRef.toList_text _

theorem toList_text_boxed (r : Nat) : (Source.slot ⟨r, .boxed⟩).text.toList =
    '[' :: 'r' :: (Nat.toDigits 10 r ++ [']']) := SlotRef.toList_text _

theorem toList_text_string (s : String) : (Source.const (.string s)).text.toList =
    '"' :: (s.toList.flatMap Quoted.encodeChar ++ ['"']) := Quoted.toList_encode s

theorem IsPlain.isWord (h : a.IsPlain) : IsWord a.text.toList := by
  cases h with
  | slot r =>
    rw [toList_text_direct]
    exact ⟨List.cons_ne_nil _ _, List.forall_mem_cons.mpr ⟨rfl, isWordChar_toDigits r⟩⟩
  | const h =>
    rw [text_of_isPlain h]
    exact h.isWord

/-- No literal that is written as a word begins like a register. -/
theorem direct_ne_const {r : Nat} {c : Const} (h : c.IsPlain) :
    (Source.slot ⟨r, .direct⟩).text ≠ (Source.const c).text := by
  intro heq
  have heq := congrArg String.toList heq
  rw [toList_text_direct, text_of_isPlain h] at heq
  rcases h with h | h
  · simp only [Const.names, List.mem_cons, List.not_mem_nil, or_false] at h
    rcases h with rfl | rfl | rfl <;> cases (List.cons.inj heq).1
  · exact absurd (h.isNumeric 'r' (heq ▸ List.mem_cons_self)) (by decide)

/-- Words that are the same come from one source. -/
theorem IsPlain.text_injective (ha : a.IsPlain) (hb : b.IsPlain) (h : a.text = b.text) : a = b := by
  cases ha with
  | slot r =>
    cases hb with
    | slot r' =>
      have h := congrArg String.toList h
      rw [toList_text_direct, toList_text_direct] at h
      rw [toDigits_injective (List.cons.inj h).2]
    | const hd => exact absurd h (direct_ne_const hd)
  | const hc =>
    cases hb with
    | slot r => exact absurd h.symm (direct_ne_const hc)
    | const hd =>
      rw [text_of_isPlain hc, text_of_isPlain hd] at h
      rw [hc.display_injective hd h]

/-- A word does not begin with a bracket or a quote. -/
theorem IsPlain.ne_cons (h : a.IsPlain) {x : Char} (hx : isWordChar x = false) :
    a.text.toList ++ u ≠ x :: v := by
  intro heq
  obtain ⟨c, cs, hcs⟩ := List.exists_cons_of_ne_nil h.isWord.ne_nil
  have hword := h.isWord.wordChar c (hcs ▸ List.mem_cons_self)
  rw [hcs, List.cons_append] at heq
  rw [(List.cons.inj heq).1, hx] at hword
  cases hword

/-- **A source is told from what follows it.** -/
theorem text_append_inj (ha : a.NotNaN) (hb : b.NotNaN) (hu : Ends u) (hv : Ends v)
    (h : a.text.toList ++ u = b.text.toList ++ v) : a = b ∧ u = v := by
  rcases cases_of_notNaN ha with ha | ⟨r, rfl⟩ | ⟨s, rfl⟩ <;>
    rcases cases_of_notNaN hb with hb | ⟨r', rfl⟩ | ⟨s', rfl⟩
  · exact (append_inj_of_head ha.isWord.wordChar hb.isWord.wordChar hu hv h).imp_left fun htext =>
      ha.text_injective hb (String.toList_inj.mp htext)
  · rw [toList_text_boxed] at h
    exact absurd h (ha.ne_cons rfl)
  · rw [toList_text_string] at h
    exact absurd h (ha.ne_cons rfl)
  · rw [toList_text_boxed] at h
    exact absurd h.symm (hb.ne_cons rfl)
  · exact (SlotRef.text_append_inj hu hv h).imp_left (congrArg Source.slot)
  · rw [toList_text_boxed, toList_text_string] at h
    cases (List.cons.inj h).1
  · rw [toList_text_string] at h
    exact absurd h.symm (hb.ne_cons rfl)
  · rw [toList_text_boxed, toList_text_string] at h
    cases (List.cons.inj h).1
  · exact (Quoted.encode_append_inj h).imp_left (congrArg fun s => Source.const (.string s))

theorem text_injective (ha : a.NotNaN) (hb : b.NotNaN) (h : a.text.toList = b.text.toList) : a = b :=
  (text_append_inj ha hb ends_nil ends_nil (congrArg (· ++ []) h)).1

end Source

/-! ### Lists of sources -/

namespace Listing

/-- A part of a list: a source, or the points for what is spread. -/
def partText : Option Source → List Char
  | some a => a.text.toList
  | none => ['.', '.', '.']

/-- The parts of a list are not NaN. -/
def NotNaNs (ps : List (Option Source)) : Prop := ∀ a, some a ∈ ps → a.NotNaN

/-- The points are not a source. -/
theorem points_ne {a : Source} (ha : a.NotNaN) (hu : Ends u) (hv : Ends v) :
    ['.', '.', '.'] ++ u ≠ a.text.toList ++ v := by
  intro h
  rcases Source.cases_of_notNaN ha with ha | ⟨r, rfl⟩ | ⟨s, rfl⟩
  · have htext := (append_inj_of_head (List.all_eq_true.mp rfl) ha.isWord.wordChar hu hv h).1
    cases ha with
    | slot r =>
      rw [Source.toList_text_direct] at htext
      cases (List.cons.inj htext).1
    | const hc =>
      obtain ⟨l, hl, hne⟩ := hc.exists_ne_point
      rw [Source.text_of_isPlain hc] at htext
      rw [← htext] at hl
      simp at hl
      exact hne hl
  · rw [Source.toList_text_boxed] at h
    cases (List.cons.inj h).1
  · rw [Source.toList_text_string] at h
    cases (List.cons.inj h).1

theorem part_append_inj {p q : Option Source} (hp : ∀ a, p = some a → a.NotNaN)
    (hq : ∀ a, q = some a → a.NotNaN) (hu : Ends u) (hv : Ends v)
    (h : partText p ++ u = partText q ++ v) : p = q ∧ u = v := by
  cases p with
  | none =>
    cases q with
    | none => exact ⟨rfl, List.append_cancel_left h⟩
    | some b => exact absurd h (points_ne (hq b rfl) hu hv)
  | some a =>
    cases q with
    | none => exact absurd h.symm (points_ne (hp a rfl) hv hu)
    | some b => exact (Source.text_append_inj (hp a rfl) (hq b rfl) hu hv h).imp_left (congrArg some)

theorem underscore_not_mem {a : Source} (ha : a.IsPlain) : '_' ∉ a.text.toList := by
  intro h
  cases ha with
  | slot r =>
    rw [Source.toList_text_direct] at h
    rcases List.mem_cons.mp h with h | h
    · cases h
    · exact absurd (Nat.isDigit_of_mem_toDigits (by decide) (by decide) h) (by decide)
  | const hc =>
    rw [Source.text_of_isPlain hc] at h
    rcases hc with hc | hc
    · simp only [Const.names, List.mem_cons, List.not_mem_nil, or_false] at hc
      rcases hc with rfl | rfl | rfl <;> exact absurd h (by decide)
    · exact absurd (hc.isNumeric '_' h) (by decide)

/-- A part begins neither as the end of a list does nor with an underscore. -/
theorem exists_part_cons {p : Option Source} (hp : ∀ a, p = some a → a.NotNaN) :
    ∃ x xs, partText p = x :: xs ∧ x ≠ ')' ∧ x ≠ '_' := by
  cases p with
  | none => exact ⟨_, _, rfl, by decide, by decide⟩
  | some a =>
    rcases Source.cases_of_notNaN (hp a rfl) with ha | ⟨r, rfl⟩ | ⟨s, rfl⟩
    · obtain ⟨x, xs, hx⟩ := List.exists_cons_of_ne_nil ha.isWord.ne_nil
      have hmem : x ∈ a.text.toList := hx ▸ List.mem_cons_self
      refine ⟨x, xs, hx, ?_, ?_⟩
      · rintro rfl
        exact absurd (ha.isWord.wordChar _ hmem) (by decide)
      · rintro rfl
        exact underscore_not_mem ha hmem
    · exact ⟨_, _, Source.toList_text_boxed r, by decide, by decide⟩
    · exact ⟨_, _, Source.toList_text_string s, by decide, by decide⟩

/-- Parts with commas between them. -/
def joined (ps : List (Option Source)) : List Char := [',', ' '].intercalate (ps.map partText)

/-- A list ends here. -/
def Closes (rest : List Char) : Prop := ∀ c, rest.head? = some c → c = ')'

theorem closes_nil : Closes [] := fun _ h => by cases h

theorem closes_cons (cs : List Char) : Closes (')' :: cs) := fun _ h => by
  cases h
  rfl

theorem Closes.ends (h : Closes u) : Ends u := fun c hc => h c hc ▸ rfl

/-- What follows the first part of a list. -/
def joinedTail : List (Option Source) → List Char
  | [] => []
  | p :: ps => ',' :: ' ' :: joined (p :: ps)

theorem joined_cons (p : Option Source) (ps : List (Option Source)) :
    joined (p :: ps) = partText p ++ joinedTail ps := by
  cases ps with
  | nil => simp [joined, joinedTail]
  | cons q ps => simp [joined, joinedTail, List.intercalate_cons_cons]

/-- A list that has parts begins with the first. -/
theorem exists_joined_cons {p : Option Source} {ps : List (Option Source)}
    (hp : NotNaNs (p :: ps)) : ∃ x xs, joined (p :: ps) = x :: xs ∧ x ≠ ')' ∧ x ≠ '_' := by
  obtain ⟨x, xs, hx, hne⟩ := exists_part_cons fun a (ha : p = some a) => hp a (ha ▸ List.mem_cons_self)
  exact ⟨x, xs ++ joinedTail ps, by rw [joined_cons, hx, List.cons_append], hne⟩

theorem joined_cons_ne {p : Option Source} {ps : List (Option Source)} (hp : NotNaNs (p :: ps))
    (hu : Closes u) : joined (p :: ps) ++ v ≠ u := by
  obtain ⟨x, xs, hx, hne, -⟩ := exists_joined_cons hp
  rintro rfl
  exact hne (hu x (by rw [hx]; rfl))

/-- **A list is told from what follows it.** -/
theorem joined_append_inj : ∀ {ps qs : List (Option Source)}, NotNaNs ps → NotNaNs qs → Closes u →
    Closes v → joined ps ++ u = joined qs ++ v → ps = qs ∧ u = v
  | [], [], _, _, _, _, h => ⟨rfl, h⟩
  | [], q :: qs, _, hq, hu, _, h => absurd h.symm (joined_cons_ne hq hu)
  | p :: ps, [], hp, _, _, hv, h => absurd h (joined_cons_ne hp hv)
  | p :: ps, q :: qs, hp, hq, hu, hv, h => by
    have hends : ∀ {w : List Char} (ps : List (Option Source)), Closes w → Ends (joinedTail ps ++ w) :=
      fun ps hw => by
        cases ps with
        | nil => exact hw.ends
        | cons => exact ends_cons rfl
    rw [joined_cons, joined_cons, List.append_assoc, List.append_assoc] at h
    obtain ⟨rfl, htail⟩ := part_append_inj (fun a ha => hp a (ha ▸ List.mem_cons_self))
      (fun a ha => hq a (ha ▸ List.mem_cons_self)) (hends ps hu) (hends qs hv) h
    have hp' : NotNaNs ps := fun a ha => hp a (List.mem_cons_of_mem _ ha)
    have hq' : NotNaNs qs := fun a ha => hq a (List.mem_cons_of_mem _ ha)
    match ps, qs with
    | [], [] => exact ⟨rfl, htail⟩
    | [], _ :: _ =>
      have htail : u = ',' :: _ := htail
      exact absurd (hu ',' (by rw [htail]; rfl)) (by decide)
    | _ :: _, [] =>
      have htail : ',' :: _ = v := htail
      exact absurd (hv ',' (by rw [← htail]; rfl)) (by decide)
    | _ :: _, _ :: _ =>
      have htail := (List.cons.inj (List.cons.inj htail).2).2
      exact (joined_append_inj hp' hq' hu hv htail).imp_left (congrArg _)

end Listing

end ResumableVM
