import ResumableVM.Proofs.ListingTexts

/-! # Listings: instructions are told apart by their texts

The text of an instruction is its name, which takes twelve characters with the blanks behind it
(`Opcode.length_text`), and its operands. So instructions of one text have one name and the same
operands (`Instr.opcode_inj`). Where the operands can be read back (`Instr.Legible`: no literal is NaN,
and only several registers make a list of receivers), the instructions then are the same, or one
subtracts where the other negates, since both operators have one symbol
(`Instr.readsAs_of_text_eq`). -/

namespace ResumableVM

variable {u v : List Char}

open Listing

/-! ### Operands and what follows -/

theorem SlotRef.text_cons_inj {a b : SlotRef} {x : Char} (hx : isWordChar x = false)
    (h : a.text.toList ++ x :: u = b.text.toList ++ x :: v) : a = b ∧ u = v :=
  (text_append_inj (ends_cons hx) (ends_cons hx) h).imp_right fun h => (List.cons.inj h).2

theorem SlotRef.text_injective {a b : SlotRef} (h : a.text.toList = b.text.toList) : a = b :=
  (text_append_inj ends_nil ends_nil (congrArg (· ++ []) h)).1

theorem Source.text_cons_inj {a b : Source} (ha : a.NotNaN) (hb : b.NotNaN) {x : Char}
    (hx : isWordChar x = false) (h : a.text.toList ++ x :: u = b.text.toList ++ x :: v) :
    a = b ∧ u = v :=
  (text_append_inj ha hb (ends_cons hx) (ends_cons hx) h).imp_right fun h => (List.cons.inj h).2

theorem toList_naturalText (n : Nat) : (naturalText n).toList = Nat.toDigits 10 n := by
  simp [naturalText]

/-! ### Arguments -/

namespace SourceList

/-- The parts of arguments in a listing. -/
def parts (args : SourceList) : List (Option Source) :=
  args.fixed.map some ++ if args.spread then [none] else []

/-- No argument is NaN. -/
def NotNaN (args : SourceList) : Prop := ∀ a ∈ args.fixed, a.NotNaN

variable {a b : SourceList}

theorem toList_text (args : SourceList) : args.text.toList = joined args.parts := by
  rw [text, String.toList_intercalate, joined, parts]
  cases args.spread <;> simp [partText, Function.comp_def]

theorem notNaNs_parts (h : a.NotNaN) : NotNaNs a.parts := by
  intro x hx
  refine h x ?_
  cases hs : a.spread <;> simpa [parts, hs] using hx

theorem parts_injective (h : a.parts = b.parts) : a = b := by
  have hfixed : ∀ args : SourceList, args.parts.filterMap id = args.fixed := fun args => by
    cases hs : args.spread <;> simp [parts, hs]
  have hspread : ∀ args : SourceList, none ∈ args.parts ↔ args.spread = true := fun args => by
    cases hs : args.spread <;> simp [parts, hs]
  have hf : a.fixed = b.fixed := by rw [← hfixed a, h, hfixed]
  have hs : a.spread = b.spread := by rw [Bool.eq_iff_iff, ← hspread a, h, hspread]
  cases a
  cases b
  cases hf
  cases hs
  rfl

/-- **Arguments are told from what follows them.** -/
theorem text_append_inj (ha : a.NotNaN) (hb : b.NotNaN) (hu : Closes u) (hv : Closes v)
    (h : a.text.toList ++ u = b.text.toList ++ v) : a = b ∧ u = v := by
  rw [toList_text, toList_text] at h
  exact (joined_append_inj (notNaNs_parts ha) (notNaNs_parts hb) hu hv h).imp_left parts_injective

theorem text_cons_inj (ha : a.NotNaN) (hb : b.NotNaN)
    (h : a.text.toList ++ ')' :: u = b.text.toList ++ ')' :: v) : a = b ∧ u = v :=
  (text_append_inj ha hb (closes_cons _) (closes_cons _) h).imp_right fun h => (List.cons.inj h).2

theorem text_injective (ha : a.NotNaN) (hb : b.NotNaN) (h : a.text.toList = b.text.toList) : a = b :=
  (text_append_inj ha hb closes_nil closes_nil (congrArg (· ++ []) h)).1

end SourceList

/-! ### Receivers -/

namespace Receiver

/-- Only several registers make a list. -/
def Settled : Receiver → Prop
  | fixed dsts => 2 ≤ dsts.length
  | _ => True

/-- The parts of a receiver in a listing. -/
def parts : Receiver → List (Option Source)
  | discard => []
  | one dst => [some (.slot dst)]
  | fixed dsts => dsts.map (some ∘ .slot)
  | multi => [none]

variable {a b : Receiver}

theorem notNaNs_parts (a : Receiver) : NotNaNs a.parts := by
  intro x hx
  cases a with
  | discard => cases hx
  | one dst =>
    cases Option.some.inj (List.mem_singleton.mp hx)
    trivial
  | fixed dsts =>
    obtain ⟨s, -, hs⟩ := List.mem_map.mp hx
    cases Option.some.inj hs
    trivial
  | multi => cases List.mem_singleton.mp hx

theorem toList_text (ha : a ≠ discard) : a.text.toList = joined a.parts := by
  cases a with
  | discard => exact absurd rfl ha
  | one dst => exact (List.append_nil _).symm
  | fixed dsts =>
    rw [text, String.toList_intercalate, joined, parts]
    simp only [List.map_map]
    rfl
  | multi => rfl

theorem exists_parts_cons (ha : a.Settled) (hne : a ≠ discard) : ∃ p ps, a.parts = p :: ps := by
  cases a with
  | discard => exact absurd rfl hne
  | fixed dsts =>
    cases dsts with
    | nil => cases ha
    | cons dst dsts => exact ⟨_, _, rfl⟩
  | _ => exact ⟨_, _, rfl⟩

/-- The underscore stands for no registers only. -/
theorem text_ne_underscore (ha : a.Settled) (hne : a ≠ discard) : a.text ≠ discard.text := by
  intro h
  obtain ⟨p, ps, hparts⟩ := exists_parts_cons ha hne
  obtain ⟨x, xs, hx, -, hunderscore⟩ := exists_joined_cons (hparts ▸ notNaNs_parts a)
  rw [← hparts, ← toList_text hne, h] at hx
  exact hunderscore (List.cons.inj hx).1.symm

theorem slots_injective : Function.Injective (some ∘ Source.slot) := fun _ _ h => by
  cases h
  rfl

theorem fixed_parts_ne {dsts : List SlotRef} (hdsts : 2 ≤ dsts.length) (hb : b.parts.length ≤ 1) :
    (fixed dsts).parts ≠ b.parts := by
  intro h
  have hlength := congrArg List.length h
  rw [parts, List.length_map] at hlength
  omega

theorem parts_injective (ha : a.Settled) (hb : b.Settled) (h : a.parts = b.parts) : a = b := by
  cases a with
  | discard =>
    cases b with
    | discard => rfl
    | fixed dsts => exact absurd h.symm (fixed_parts_ne hb (Nat.zero_le 1))
    | _ => cases h
  | one dst =>
    cases b with
    | one dst' => cases h; rfl
    | fixed dsts => exact absurd h.symm (fixed_parts_ne hb le_rfl)
    | _ => cases h
  | fixed dsts =>
    cases b with
    | fixed dsts' => rw [List.map_injective_iff.mpr slots_injective h]
    | discard => exact absurd h (fixed_parts_ne ha (Nat.zero_le 1))
    | _ => exact absurd h (fixed_parts_ne ha le_rfl)
  | multi =>
    cases b with
    | multi => rfl
    | fixed dsts => exact absurd h.symm (fixed_parts_ne hb le_rfl)
    | _ => cases h

/-- **Receivers with one text are the same.** -/
theorem text_injective (ha : a.Settled) (hb : b.Settled) (h : a.text = b.text) : a = b := by
  by_cases hda : a = discard
  · by_contra hab
    exact text_ne_underscore hb (fun hdb => hab (hda.trans hdb.symm)) (hda ▸ h.symm)
  · have hdb : b ≠ discard := by
      rintro rfl
      exact text_ne_underscore ha hda h
    have h := congrArg String.toList h
    rw [toList_text hda, toList_text hdb] at h
    exact parts_injective ha hb (joined_append_inj (notNaNs_parts a) (notNaNs_parts b) closes_nil
      closes_nil (congrArg (· ++ []) h)).1

end Receiver

/-! ### Addresses -/

theorem fourDigits_injective {m n : Nat} (h : fourDigits m = fourDigits n) : m = n := by
  have hvalue : ∀ n, Nat.ofDigitChars 10 (fourDigits n).toList 0 = n := fun n => by
    rw [fourDigits, String.toList_append, String.toList_ofList, toList_naturalText,
      Nat.ofDigitChars_append, Nat.ofDigitChars_replicate_zero, Nat.mul_zero,
      Nat.ofDigitChars_ten_toDigits]
  rw [← hvalue m, h, hvalue]

/-! ### Operators -/

theorem ArithOp.isWordChar_symbol (op : ArithOp) : ∀ c ∈ op.symbol.toList, isWordChar c = true := by
  cases op <;> exact List.all_eq_true.mp rfl

theorem CompareOp.isWordChar_name (op : CompareOp) : ∀ c ∈ op.name.toList, isWordChar c = true := by
  cases op <;> exact List.all_eq_true.mp rfl

/-- **Operators with one symbol** are the same, or one subtracts and the other negates. -/
theorem ArithOp.eq_of_symbol_eq {a b : ArithOp} (h : a.symbol = b.symbol) :
    a = b ∨ a = .subtract ∧ b = .negate ∨ b = .subtract ∧ a = .negate := by
  cases a <;> cases b <;> revert h <;> decide

theorem ArithOp.symbol_cons_inj {a b : ArithOp}
    (h : a.symbol.toList ++ ' ' :: u = b.symbol.toList ++ ' ' :: v) :
    a.symbol = b.symbol ∧ u = v :=
  (append_inj_of_head a.isWordChar_symbol b.isWordChar_symbol (ends_cons rfl) (ends_cons rfl) h).imp
    String.toList_inj.mp fun h => (List.cons.inj h).2

/-- A left operand and its operator are told from what follows them. -/
theorem Source.symbol_cons_inj {a b : Source} {op op' : ArithOp} (ha : a.NotNaN) (hb : b.NotNaN)
    (h : a.text.toList ++ ' ' :: (op.symbol.toList ++ ' ' :: u) =
      b.text.toList ++ ' ' :: (op'.symbol.toList ++ ' ' :: v)) :
    a = b ∧ op.symbol = op'.symbol ∧ u = v :=
  (text_cons_inj ha hb rfl h).imp_right ArithOp.symbol_cons_inj

theorem CompareOp.name_cons_inj {a b : CompareOp}
    (h : a.name.toList ++ ' ' :: u = b.name.toList ++ ' ' :: v) : a = b ∧ u = v := by
  obtain ⟨hname, hrest⟩ := append_inj_of_head a.isWordChar_name b.isWordChar_name (ends_cons rfl)
    (ends_cons rfl) h
  refine ⟨Option.some.inj ?_, (List.cons.inj hrest).2⟩
  rw [← ofName?_name a, String.toList_inj.mp hname, ofName?_name]

/-! ### Opcodes -/

/-- The kinds of questions. -/
inductive QuestionKind where
  | arith | length | index | call
deriving DecidableEq

/-- The names of instructions in a listing. -/
inductive Opcode where
  | move | getUpvalue | setUpvalue | newTable | setIndex | capture | uncapture | closure
  | ask (kind : QuestionKind)
  | arithRaw | not | compare | receive | vararg | jump | jumpIfFalse | ret | tailCall
deriving DecidableEq

namespace Opcode

/-- Every name. -/
def all : List Opcode :=
  [move, getUpvalue, setUpvalue, newTable, setIndex, capture, uncapture, closure, ask .arith,
    ask .length, ask .index, ask .call, arithRaw, not, compare, receive, vararg, jump, jumpIfFalse,
    ret, tailCall]

theorem mem_all (a : Opcode) : a ∈ all := by
  cases a with
  | ask kind => cases kind <;> decide
  | _ => decide

/-- The name with the blanks behind it. -/
def text : Opcode → String
  | move => "MOVE        "
  | getUpvalue => "GETUPVAL    "
  | setUpvalue => "SETUPVAL    "
  | newTable => "NEWTABLE    "
  | setIndex => "SETINDEX    "
  | capture => "CAPTURE     "
  | uncapture => "UNCAPTURE   "
  | closure => "CLOSURE     "
  | ask .arith => "ARITH       "
  | ask .length => "LEN         "
  | ask .index => "INDEX       "
  | ask .call => "CALL        "
  | arithRaw => "ARITHRAW    "
  | not => "NOT         "
  | compare => "COMPARE     "
  | receive => "RECEIVE     "
  | vararg => "VARARG      "
  | jump => "JUMP        "
  | jumpIfFalse => "JUMPIFNOT   "
  | ret => "RETURN      "
  | tailCall => "TAILCALL    "

theorem length_text (a : Opcode) : a.text.toList.length = 12 := by
  have hall : ∀ a ∈ all, a.text.toList.length = 12 := by decide
  exact hall a a.mem_all

theorem text_injective {a b : Opcode} (h : a.text.toList = b.text.toList) : a = b := by
  have hall : ∀ a ∈ all, ∀ b ∈ all, a.text = b.text → a = b := by decide
  exact hall a a.mem_all b b.mem_all (String.toList_inj.mp h)

end Opcode

/-! ### Instructions -/

/-- No literal of the question is NaN. -/
def Question.NotNaN : Question → Prop
  | arith _ a b | index a b => a.NotNaN ∧ b.NotNaN
  | length src => src.NotNaN
  | call _ args => args.NotNaN

/-- The kind of a question. -/
def Question.kind : Question → QuestionKind
  | arith .. => .arith
  | length _ => .length
  | index .. => .index
  | call .. => .call

/-- What stands behind the name of an instruction that asks. -/
def Question.operands (point : Nat) : Question → List Char
  | arith op a b =>
    a.text.toList ++ ' ' :: (op.symbol.toList ++ ' ' ::
      (b.text.toList ++ ' ' :: '@' :: Nat.toDigits 10 point))
  | length src => src.text.toList ++ ' ' :: '@' :: Nat.toDigits 10 point
  | index table key =>
    table.text.toList ++ '[' :: (key.text.toList ++ ']' :: ' ' :: '@' :: Nat.toDigits 10 point)
  | call target args =>
    target.text.toList ++ '(' :: (args.text.toList ++ ')' :: ' ' :: '@' :: Nat.toDigits 10 point)

namespace Instr

/-- The instruction can be read back: no literal is NaN, and only several registers make a list of
receivers. -/
def Legible : Instr → Prop
  | move _ src | setUpvalue _ src | not _ src => src.NotNaN
  | setIndex _ a b | arithRaw _ _ a b | compare _ _ a b => a.NotNaN ∧ b.NotNaN
  | ask question _ => question.NotNaN
  | receive receiver | vararg receiver => receiver.Settled
  | ret args | tailCall _ args => args.NotNaN
  | getUpvalue _ _ | newTable _ | capture _ | uncapture _ | closure _ _ | jump _
  | jumpIfFalse _ _ => True

/-- The name of an instruction. -/
def opcode : Instr → Opcode
  | move .. => .move
  | getUpvalue .. => .getUpvalue
  | setUpvalue .. => .setUpvalue
  | newTable _ => .newTable
  | setIndex .. => .setIndex
  | capture _ => .capture
  | uncapture _ => .uncapture
  | closure .. => .closure
  | ask question _ => .ask question.kind
  | arithRaw .. => .arithRaw
  | not .. => .not
  | compare .. => .compare
  | receive _ => .receive
  | vararg _ => .vararg
  | jump _ => .jump
  | jumpIfFalse .. => .jumpIfFalse
  | ret _ => .ret
  | tailCall .. => .tailCall

/-- What stands behind the name in a listing. -/
def operands : Instr → List Char
  | move dst src | not dst src => dst.text.toList ++ ' ' :: src.text.toList
  | getUpvalue dst i => dst.text.toList ++ ' ' :: 'u' :: Nat.toDigits 10 i
  | setUpvalue i src => 'u' :: (Nat.toDigits 10 i ++ ' ' :: src.text.toList)
  | newTable dst => dst.text.toList
  | setIndex table key value =>
    table.text.toList ++ '[' :: (key.text.toList ++ ']' :: ' ' :: value.text.toList)
  | capture r | uncapture r => 'r' :: Nat.toDigits 10 r
  | closure dst proto =>
    dst.text.toList ++ ' ' :: 'p' :: 'r' :: 'o' :: 't' :: 'o' :: '#' :: Nat.toDigits 10 proto
  | ask question point => question.operands point
  | arithRaw op dst a b =>
    dst.text.toList ++ ' ' :: (a.text.toList ++ ' ' :: (op.symbol.toList ++ ' ' :: b.text.toList))
  | compare op dst a b =>
    dst.text.toList ++ ' ' :: (a.text.toList ++ ' ' :: (op.name.toList ++ ' ' :: b.text.toList))
  | receive receiver | vararg receiver => receiver.text.toList
  | jump target => (fourDigits target).toList
  | jumpIfFalse cond target => cond.text.toList ++ ' ' :: (fourDigits target).toList
  | ret args => args.text.toList
  | tailCall target args => target.text.toList ++ '(' :: (args.text.toList ++ [')'])

theorem toList_text (i : Instr) : i.text.toList = i.opcode.text.toList ++ i.operands := by
  unfold text
  cases i with
  | ask question point =>
    unfold Question.text
    cases question <;>
      simp [pointText, opcode, Question.kind, Opcode.text, operands, Question.operands,
        toList_naturalText]
  | _ => simp [opcode, Opcode.text, operands, toList_naturalText]

variable {i j : Instr}

/-- **Instructions of one text have one name and the same operands.** -/
theorem opcode_inj (h : i.text = j.text) : i.opcode = j.opcode ∧ i.operands = j.operands := by
  have h := congrArg String.toList h
  rw [toList_text, toList_text] at h
  exact (List.append_inj h (by rw [Opcode.length_text, Opcode.length_text])).imp_left
    Opcode.text_injective

/-- The first instruction subtracts and the second one negates; all else is the same. -/
inductive SharesMinus : Instr → Instr → Prop
  | ask (a b : Source) (point : Nat) :
    SharesMinus (.ask (.arith .subtract a b) point) (.ask (.arith .negate a b) point)
  | raw (dst : SlotRef) (a b : Source) :
    SharesMinus (.arithRaw .subtract dst a b) (.arithRaw .negate dst a b)

theorem SharesMinus.text_eq (h : i.SharesMinus j) : i.text = j.text := by cases h <;> rfl

/-- The instructions are the same, or one subtracts where the other negates. -/
def ReadsAs (i j : Instr) : Prop := i = j ∨ i.SharesMinus j ∨ j.SharesMinus i

theorem readsAs_ask {op op' : ArithOp} (h : op.symbol = op'.symbol) (a b : Source) (point : Nat) :
    (ask (.arith op a b) point).ReadsAs (ask (.arith op' a b) point) := by
  rcases ArithOp.eq_of_symbol_eq h with rfl | ⟨rfl, rfl⟩ | ⟨rfl, rfl⟩
  · exact .inl rfl
  · exact .inr (.inl (.ask a b point))
  · exact .inr (.inr (.ask a b point))

theorem readsAs_arithRaw {op op' : ArithOp} (h : op.symbol = op'.symbol) (dst : SlotRef)
    (a b : Source) : (arithRaw op dst a b).ReadsAs (arithRaw op' dst a b) := by
  rcases ArithOp.eq_of_symbol_eq h with rfl | ⟨rfl, rfl⟩ | ⟨rfl, rfl⟩
  · exact .inl rfl
  · exact .inr (.inl (.raw dst a b))
  · exact .inr (.inr (.raw dst a b))

/-- Questions of one kind with the same operands, at their points. -/
theorem readsAs_of_question {p q : Question} {m n : Nat} (hp : p.NotNaN) (hq : q.NotNaN)
    (hkind : p.kind = q.kind) (h : p.operands m = q.operands n) : (ask p m).ReadsAs (ask q n) := by
  cases p with
  | arith op a b =>
    cases q with
    | arith op' a' b' =>
      obtain ⟨rfl, hsymbol, hright⟩ := Source.symbol_cons_inj hp.1 hq.1 h
      obtain ⟨rfl, hpoint⟩ := Source.text_cons_inj hp.2 hq.2 rfl hright
      obtain rfl := toDigits_injective (List.cons.inj hpoint).2
      exact readsAs_ask hsymbol a b m
    | _ => cases hkind
  | length src =>
    cases q with
    | length src' =>
      obtain ⟨rfl, hpoint⟩ := Source.text_cons_inj hp hq rfl h
      obtain rfl := toDigits_injective (List.cons.inj hpoint).2
      exact .inl rfl
    | _ => cases hkind
  | index table key =>
    cases q with
    | index table' key' =>
      obtain ⟨rfl, hkey⟩ := Source.text_cons_inj hp.1 hq.1 rfl h
      obtain ⟨rfl, hpoint⟩ := Source.text_cons_inj hp.2 hq.2 rfl hkey
      obtain rfl := toDigits_injective (List.cons.inj (List.cons.inj hpoint).2).2
      exact .inl rfl
    | _ => cases hkind
  | call target args =>
    cases q with
    | call target' args' =>
      obtain ⟨rfl, hargs⟩ := SlotRef.text_cons_inj rfl h
      obtain ⟨rfl, hpoint⟩ := SourceList.text_cons_inj hp hq hargs
      obtain rfl := toDigits_injective (List.cons.inj (List.cons.inj hpoint).2).2
      exact .inl rfl
    | _ => cases hkind

/-- **Instructions of one text** are the same, or one subtracts where the other negates. -/
theorem readsAs_of_text_eq (hi : i.Legible) (hj : j.Legible) (htext : i.text = j.text) :
    i.ReadsAs j := by
  obtain ⟨hop, h⟩ := opcode_inj htext
  cases i with
  | ask p m =>
    cases j with
    | ask q n => exact readsAs_of_question hi hj (Opcode.ask.inj hop) h
    | _ => cases hop
  | arithRaw op dst a b =>
    cases j with
    | arithRaw op' dst' a' b' =>
      obtain ⟨rfl, hleft⟩ := SlotRef.text_cons_inj rfl h
      obtain ⟨rfl, hsymbol, hright⟩ := Source.symbol_cons_inj hi.1 hj.1 hleft
      obtain rfl := Source.text_injective hi.2 hj.2 hright
      exact readsAs_arithRaw hsymbol dst a b
    | _ => cases hop
  | compare op dst a b =>
    cases j with
    | compare op' dst' a' b' =>
      obtain ⟨rfl, hleft⟩ := SlotRef.text_cons_inj rfl h
      obtain ⟨rfl, hname⟩ := Source.text_cons_inj hi.1 hj.1 rfl hleft
      obtain ⟨rfl, hright⟩ := CompareOp.name_cons_inj hname
      exact .inl (by rw [Source.text_injective hi.2 hj.2 hright])
    | _ => cases hop
  | move dst src =>
    cases j with
    | move dst' src' =>
      obtain ⟨rfl, hsrc⟩ := SlotRef.text_cons_inj rfl h
      exact .inl (by rw [Source.text_injective hi hj hsrc])
    | _ => cases hop
  | not dst src =>
    cases j with
    | not dst' src' =>
      obtain ⟨rfl, hsrc⟩ := SlotRef.text_cons_inj rfl h
      exact .inl (by rw [Source.text_injective hi hj hsrc])
    | _ => cases hop
  | getUpvalue dst n =>
    cases j with
    | getUpvalue dst' n' =>
      obtain ⟨rfl, hindex⟩ := SlotRef.text_cons_inj rfl h
      exact .inl (by rw [toDigits_injective (List.cons.inj hindex).2])
    | _ => cases hop
  | setUpvalue n src =>
    cases j with
    | setUpvalue n' src' =>
      obtain ⟨rfl, hsrc⟩ := natural_append_inj (ends_cons rfl) (ends_cons rfl) (List.cons.inj h).2
      exact .inl (by rw [Source.text_injective hi hj (List.cons.inj hsrc).2])
    | _ => cases hop
  | newTable dst =>
    cases j with
    | newTable dst' => exact .inl (by rw [SlotRef.text_injective h])
    | _ => cases hop
  | setIndex table key value =>
    cases j with
    | setIndex table' key' value' =>
      obtain ⟨rfl, hkey⟩ := SlotRef.text_cons_inj rfl h
      obtain ⟨rfl, hvalue⟩ := Source.text_cons_inj hi.1 hj.1 rfl hkey
      exact .inl (by rw [Source.text_injective hi.2 hj.2 (List.cons.inj hvalue).2])
    | _ => cases hop
  | capture r =>
    cases j with
    | capture r' => exact .inl (by rw [toDigits_injective (List.cons.inj h).2])
    | _ => cases hop
  | uncapture r =>
    cases j with
    | uncapture r' => exact .inl (by rw [toDigits_injective (List.cons.inj h).2])
    | _ => cases hop
  | closure dst proto =>
    cases j with
    | closure dst' proto' =>
      obtain ⟨rfl, hproto⟩ := SlotRef.text_cons_inj rfl h
      have hdigits := @List.append_cancel_left _ ['p', 'r', 'o', 't', 'o', '#'] _ _ hproto
      exact .inl (by rw [toDigits_injective hdigits])
    | _ => cases hop
  | receive receiver =>
    cases j with
    | receive receiver' =>
      exact .inl (by rw [Receiver.text_injective hi hj (String.toList_inj.mp h)])
    | _ => cases hop
  | vararg receiver =>
    cases j with
    | vararg receiver' =>
      exact .inl (by rw [Receiver.text_injective hi hj (String.toList_inj.mp h)])
    | _ => cases hop
  | jump target =>
    cases j with
    | jump target' => exact .inl (by rw [fourDigits_injective (String.toList_inj.mp h)])
    | _ => cases hop
  | jumpIfFalse cond target =>
    cases j with
    | jumpIfFalse cond' target' =>
      obtain ⟨rfl, htarget⟩ := SlotRef.text_cons_inj rfl h
      exact .inl (by rw [fourDigits_injective (String.toList_inj.mp htarget)])
    | _ => cases hop
  | ret args =>
    cases j with
    | ret args' => exact .inl (by rw [SourceList.text_injective hi hj h])
    | _ => cases hop
  | tailCall target args =>
    cases j with
    | tailCall target' args' =>
      obtain ⟨rfl, hargs⟩ := SlotRef.text_cons_inj rfl h
      exact .inl (by rw [(SourceList.text_cons_inj hi hj hargs).1])
    | _ => cases hop

end Instr

end ResumableVM
