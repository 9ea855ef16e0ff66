import ResumableVM.Proofs.CoherentLines
import ResumableVM.Proofs.CompiledCode

/-! # WellFormedCode: where compiled code goes on

`Code.WellFormed` says what the code of a procedure is like: questions, receivers and the resumption
table belong together, targets lie in the code and are the first lines of blocks that can be reached,
all of them were filled in, and no instruction that control passes is the last. That is how lines are
laid out (`wellFormed_assemble`), and so is the code of every procedure nested in one that is compiled
(`wellFormedCode_of_compile`).

An instruction leads to the next one or to its target (`lands_execute`), so whatever a call carries
out, and wherever it is resumed, it stands at an instruction of its code (`lt_of_comesTo`). -/

namespace ResumableVM

/-! ### Well-formed code -/

/-- **Code is well formed** when questions, targets and the resumption table agree with each other
and with the blocks of the procedure. -/
structure Code.WellFormed (code : Code) (p : Procedure) : Prop where
  /-- Only code without questions has no table. -/
  table_eq_none_iff : code.resumeTable = none ↔ ∀ i ∈ code.instrs, i.point? = none
  /-- The first address of the table is the entry, and they grow. -/
  table : ∀ targets, code.resumeTable = some targets →
    targets[0]? = some 0 ∧ targets.toList.Pairwise (· < ·)
  /-- The questions have the points 1, 2, … in their order, and the table has no others. -/
  points : code.instrs.toList.filterMap Instr.point? = List.range' 1 (code.pointCount - 1)
  /-- A question is resumed at its receiver, which stands behind it. -/
  asks : ∀ {pc : Nat} {q : Question} {point : Nat}, code.instrs[pc]? = some (.ask q point) →
    code.ResumesAt point (pc + 1) ∧ ∃ receiver, code.instrs[pc + 1]? = some (.receive receiver)
  /-- A receiver stands behind its question. -/
  receives : ∀ {pc : Nat} {receiver : Receiver}, code.instrs[pc]? = some (.receive receiver) →
    ∃ before q point, pc = before + 1 ∧ code.instrs[before]? = some (.ask q point)
  /-- A jump goes to the first line of a block that can be reached, behind the prologue. -/
  jumps : ∀ {pc t : Nat}, code.instrs[pc]? = some (.jump t) →
    ∃ b lines, p.Reaches b ∧ p.blockLines[b]? = some lines ∧ lines ≠ [] ∧ t = p.startOf b ∧
      code.Holds p.starts t lines ∧ p.prologue.length ≤ t
  /-- A branch skips something. -/
  branches : ∀ {pc t : Nat} {cond : SlotRef}, code.instrs[pc]? = some (.jumpIfFalse cond t) →
    pc + 1 < t
  /-- What is named as a target stands in the code, and is no receiver. -/
  targets : ∀ {pc t : Nat} {i : Instr}, code.instrs[pc]? = some i → i.target? = some t →
    ∃ there, code.instrs[t]? = some there ∧ ∀ receiver, there ≠ .receive receiver
  /-- The draft of the code leaves all targets open, and each is filled in once. -/
  filled : ∃ draft fixups, Checked.draft 0 1 p.lines = (draft, fixups) ∧
    (∀ i ∈ draft, i.target? = none ∨ i.target? = some Checked.unknown) ∧
    fixups.foldlM (Checked.patch (Checked.addresses p)) draft = .ok code.instrs.toList ∧
    (fixups.map (·.1)).Nodup ∧
    ∀ pc, pc ∈ fixups.map (·.1) ↔ ∃ i t, code.instrs[pc]? = some i ∧ i.target? = some t
  /-- Behind an instruction that control passes there is another one. -/
  next : ∀ {pc : Nat} {i : Instr}, code.instrs[pc]? = some i → i.fallsThrough = true →
    pc + 1 < code.instrs.size

namespace Procedure

variable {p : Procedure} {codes : List Code} {pc : Nat}

theorem size_instrs : (p.assemble codes).instrs.size = p.lines.length := by
  simp only [assemble, List.size_toArray, Assembly.length_link]
  rfl

/-- What a line becomes. -/
theorem placed_line {line : Line} (h : p.lines[pc]? = some line) :
    line.Placed (p.assemble codes) p.starts pc := by
  have hplaced := (@holds_assemble p codes).get h
  rwa [Nat.zero_add] at hplaced

/-- Every instruction is what a line becomes. -/
theorem exists_line {i : Instr} (h : (p.assemble codes).instrs[pc]? = some i) :
    ∃ line point, p.lines[pc]? = some line ∧ i = Assembly.linkLine p.starts pc point line := by
  have hlink : (Assembly.link p.starts 0 1 p.lines)[pc]? = some i := by
    rw [← h, assemble, List.getElem?_toArray]
    rfl
  obtain ⟨line, point, hline, hi⟩ := Assembly.exists_line_of_link hlink
  exact ⟨line, point, hline, by rw [hi, Nat.zero_add]⟩

theorem fallsThrough_linkLine (starts : List Nat) (address point : Nat) (line : Line) :
    (Assembly.linkLine starts address point line).fallsThrough = line.fallsThrough := by
  cases line <;> rfl

/-! #### Points -/

theorem points_assemble :
    (p.assemble codes).instrs.toList.filterMap Instr.point? =
      List.range' 1 (Assembly.answerAddresses 0 p.lines).length :=
  Assembly.points_link p.starts 0 1 isPlain_lines

theorem resumeTable_assemble : (p.assemble codes).resumeTable = Assembly.resumeTable p.lines := rfl

theorem pointCount_assemble :
    (p.assemble codes).pointCount = (Assembly.answerAddresses 0 p.lines).length + 1 := by
  rw [Code.pointCount, resumeTable_assemble, Assembly.resumeTable]
  cases Assembly.answerAddresses 0 p.lines <;> rfl

theorem resumeTable_eq_none_iff : (p.assemble codes).resumeTable = none ↔
    ∀ i ∈ (p.assemble codes).instrs, i.point? = none := by
  have hpoints := @points_assemble p codes
  have hnone : (p.assemble codes).resumeTable = none ↔ Assembly.answerAddresses 0 p.lines = [] := by
    rw [resumeTable_assemble, Assembly.resumeTable]
    cases Assembly.answerAddresses 0 p.lines <;> simp
  rw [hnone, ← List.length_eq_zero_iff, ← @List.range'_eq_nil_iff 1 _ 1, ← hpoints,
    List.filterMap_eq_nil_iff]
  simp only [Array.mem_toList_iff]

theorem table_assemble {targets : Array Nat}
    (h : (p.assemble codes).resumeTable = some targets) :
    targets[0]? = some 0 ∧ targets.toList.Pairwise (· < ·) := by
  rw [resumeTable_assemble, Assembly.resumeTable] at h
  split at h
  · cases h
  · cases h
    exact ⟨rfl, .cons (fun _ hx => Assembly.lt_of_mem_answerAddresses hx)
      (Assembly.pairwise_answerAddresses p.lines 0)⟩

/-! #### Questions and receivers -/

theorem receive_of_ask {q : Question} {point : Nat}
    (h : (p.assemble codes).instrs[pc]? = some (.ask q point)) :
    ∃ receiver, (p.assemble codes).instrs[pc + 1]? = some (.receive receiver) := by
  obtain ⟨line, n, hline, hi⟩ := exists_line h
  have hfits := coherent_lines pc line hline
  cases line with
  | ask q' =>
    obtain ⟨receiver, hreceive⟩ := hfits
    exact ⟨receiver, placed_line hreceive⟩
  | instr i =>
    cases hi
    cases isPlain_lines _ (List.mem_of_getElem? hline)
  | jump b => cases hi
  | skipUnless c n => cases hi

theorem ask_of_receive {receiver : Receiver}
    (h : (p.assemble codes).instrs[pc]? = some (.receive receiver)) :
    ∃ before q point, pc = before + 1 ∧
      (p.assemble codes).instrs[before]? = some (.ask q point) := by
  obtain ⟨line, n, hline, hi⟩ := exists_line h
  have hfits := coherent_lines pc line hline
  cases line with
  | instr i =>
    cases hi
    obtain ⟨before, q, rfl, hask⟩ := hfits
    obtain ⟨point, hi, -⟩ := @placed_line p codes before _ hask
    exact ⟨before, q, point, rfl, hi⟩
  | ask q => cases hi
  | jump b => cases hi
  | skipUnless c n => cases hi

/-! #### Targets -/

/-- An instruction with a target is what a jump or a branch becomes. -/
theorem line_of_target {i : Instr} {t : Nat} (h : (p.assemble codes).instrs[pc]? = some i)
    (ht : i.target? = some t) :
    (∃ b, p.lines[pc]? = some (.jump b) ∧ i = .jump t ∧ t = p.startOf b) ∨
      ∃ cond n, p.lines[pc]? = some (.skipUnless cond n) ∧ i = .jumpIfFalse cond t ∧
        t = pc + 1 + n := by
  obtain ⟨line, n, hline, rfl⟩ := exists_line h
  cases line with
  | jump b => cases ht; exact .inl ⟨b, hline, rfl, rfl⟩
  | skipUnless cond n => cases ht; exact .inr ⟨cond, n, hline, rfl, rfl⟩
  | ask q => cases ht
  | instr i =>
    cases (coherent_lines.target?_eq_none i (List.mem_of_getElem? hline)).symm.trans ht

theorem jumps_assemble (hp : p.Valid) {t : Nat}
    (h : (p.assemble codes).instrs[pc]? = some (.jump t)) :
    ∃ b lines, p.Reaches b ∧ p.blockLines[b]? = some lines ∧ lines ≠ [] ∧ Coherent lines ∧
      t = p.startOf b ∧ (p.assemble codes).Holds p.starts t lines ∧ p.prologue.length ≤ t := by
  obtain ⟨b, hline, -, rfl⟩ | ⟨cond, n, -, hi, -⟩ := line_of_target h rfl
  · obtain ⟨hreaches, hlt⟩ := Checked.reaches_of_jump hp (List.mem_of_getElem? hline)
    obtain ⟨lines, hlines, hne, hcoherent⟩ := exists_blockLines hp hreaches hlt
    refine ⟨b, lines, hreaches, hlines, hne, hcoherent, rfl, holds_block hlines, ?_⟩
    rw [← startOf_zero hp.nonempty]
    rcases Nat.eq_zero_or_pos b with rfl | hpos
    · exact le_rfl
    · obtain ⟨first, hfirst, -⟩ := exists_blockLines hp Dataflow.Reaches.first hp.nonempty
      exact (Nat.le_add_right _ _).trans (startOf_add_le hpos hlt hfirst)
  · cases hi

/-- What coherent lines begin with is no receiver. -/
theorem not_receive_first {lines : List Line} (hcoherent : Coherent lines) (hne : lines ≠ [])
    {t : Nat} (h : (p.assemble codes).Holds p.starts t lines) :
    ∃ there, (p.assemble codes).instrs[t]? = some there ∧ ∀ receiver, there ≠ .receive receiver := by
  obtain ⟨line, lines, rfl⟩ := List.exists_cons_of_ne_nil hne
  have hfits := hcoherent 0 line rfl
  have hplaced := h.1
  cases line with
  | ask q =>
    obtain ⟨point, hi, -⟩ := hplaced
    exact ⟨_, hi, nofun⟩
  | jump b => exact ⟨_, hplaced, nofun⟩
  | skipUnless c n => exact ⟨_, hplaced, nofun⟩
  | instr i =>
    refine ⟨i, hplaced, ?_⟩
    rintro receiver rfl
    obtain ⟨j, q, hzero, -⟩ := hfits
    cases hzero

theorem targets_assemble (hp : p.Valid) {i : Instr} {t : Nat}
    (h : (p.assemble codes).instrs[pc]? = some i) (ht : i.target? = some t) :
    ∃ there, (p.assemble codes).instrs[t]? = some there ∧
      ∀ receiver, there ≠ .receive receiver := by
  obtain ⟨b, -, rfl, -⟩ | ⟨cond, n, hline, rfl, rfl⟩ := line_of_target h ht
  · obtain ⟨b, lines, -, -, hne, hcoherent, -, hholds, -⟩ := jumps_assemble hp h
    exact not_receive_first hcoherent hne hholds
  · obtain ⟨-, line, hthere, hlone⟩ := coherent_lines pc _ hline
    have hplaced : (p.assemble codes).Holds p.starts (pc + 1 + n) [line] :=
      ⟨placed_line hthere, trivial⟩
    exact not_receive_first (coherent_singleton hlone) (List.cons_ne_nil _ _) hplaced

theorem filled_assemble (hp : p.Valid) :
    ∃ draft fixups, Checked.draft 0 1 p.lines = (draft, fixups) ∧
      (∀ i ∈ draft, i.target? = none ∨ i.target? = some Checked.unknown) ∧
      fixups.foldlM (Checked.patch (Checked.addresses p)) draft =
        .ok (p.assemble codes).instrs.toList ∧
      (fixups.map (·.1)).Nodup ∧
      ∀ pc, pc ∈ fixups.map (·.1) ↔
        ∃ i t, (p.assemble codes).instrs[pc]? = some i ∧ i.target? = some t := by
  have hbare := coherent_lines (p := p).target?_eq_none
  refine ⟨_, _, rfl, Checked.target_draft 0 1 hbare, ?_, ?_, fun pc => ?_⟩
  · refine Checked.link_eq fun t ht => ?_
    obtain ⟨hreaches, hlt⟩ := Checked.reaches_of_jump hp ht
    exact Checked.getElem?_addresses hp hreaches hlt
  · exact (Checked.pairwise_draft p.lines 0 1).imp Nat.ne_of_lt
  · have hmem := Checked.mem_draft_iff p.starts 0 1 pc hbare
    rw [Nat.zero_add] at hmem
    rw [hmem, assemble, List.getElem?_toArray]
    rfl

/-- **The code of a procedure is well formed.** -/
theorem wellFormed_assemble (hp : p.Valid) (codes : List Code) : (p.assemble codes).WellFormed p where
  table_eq_none_iff := resumeTable_eq_none_iff
  table _ := table_assemble
  points := by rw [pointCount_assemble]; exact points_assemble
  asks h := ⟨resumesAt_of_ask h, receive_of_ask h⟩
  receives := ask_of_receive
  jumps h := by
    obtain ⟨b, lines, hreaches, hlines, hne, -, hrest⟩ := jumps_assemble hp h
    exact ⟨b, lines, hreaches, hlines, hne, hrest⟩
  branches {pc t cond} h := by
    obtain ⟨b, -, hi, -⟩ | ⟨cond', n, hline, -, rfl⟩ := line_of_target h rfl
    · cases hi
    · obtain ⟨hpos, -⟩ := coherent_lines pc _ hline
      omega
  targets := targets_assemble hp
  filled := filled_assemble hp
  next {pc i} h hfalls := by
    obtain ⟨line, point, hline, rfl⟩ := exists_line h
    rw [fallsThrough_linkLine] at hfalls
    rw [size_instrs]
    exact closed_lines hp pc line hline hfalls

end Procedure

/-! ### Where calls go -/

namespace Activation

/-- A call that goes on after an instruction stands behind it or at its target. -/
def Lands (a : Activation) (i : Instr) : Progress Activation → Prop
  | .runs a' | .asks a' _ => a'.pc = a.pc ∧ i.fallsThrough = true ∨ i.target? = some a'.pc
  | .returns _ | .tailCalls _ _ | .fails _ => True

section Steps

variable {a : Activation} {st st' : Store} {received : List Value} {i : Instr}
  {pr : Progress Activation}

theorem lands_goOn {x : Except Defect (Frame × Store)} (h : a.goOn <$> x = .ok (st', pr))
    (hfalls : i.fallsThrough = true) : a.Lands i pr := by
  obtain ⟨after, -, heq⟩ := map_eq_ok_iff.mp h
  cases heq
  exact .inl ⟨rfl, hfalls⟩

theorem lands_setIndex {t : Value} {key value : Source}
    (h : a.setIndex st t key value = .ok (st', pr)) (hfalls : i.fallsThrough = true) :
    a.Lands i pr := by
  cases t with
  | table id =>
    obtain ⟨k, -, h⟩ := bind_eq_ok_iff.mp h
    obtain ⟨v, -, h⟩ := bind_eq_ok_iff.mp h
    split at h
    · cases h; exact .inl ⟨rfl, hfalls⟩
    · cases h; trivial
  | _ => cases h; trivial

/-- **Where a call goes** when it carries out an instruction. -/
theorem lands_execute (h : a.execute st received i = .ok (st', pr)) : a.Lands i pr := by
  cases i with
  | jump target => cases h; exact .inr rfl
  | jumpIfFalse cond target =>
    obtain ⟨v, -, h⟩ := bind_eq_ok_iff.mp h
    cases h
    by_cases hv : v.isTruthy = true
    · rw [if_pos hv]; exact .inl ⟨rfl, rfl⟩
    · rw [if_neg hv]; exact .inr rfl
  | ret args =>
    obtain ⟨vs, -, h⟩ := bind_eq_ok_iff.mp h
    cases h
    trivial
  | tailCall target args =>
    obtain ⟨t, -, h⟩ := bind_eq_ok_iff.mp h
    obtain ⟨vs, -, h⟩ := bind_eq_ok_iff.mp h
    cases h
    trivial
  | ask question point =>
    obtain ⟨r, -, h⟩ := bind_eq_ok_iff.mp h
    cases h
    exact .inl ⟨rfl, rfl⟩
  | capture r =>
    obtain ⟨w, -, h⟩ := bind_eq_ok_iff.mp h
    cases h
    exact .inl ⟨rfl, rfl⟩
  | uncapture r =>
    obtain ⟨w, -, h⟩ := bind_eq_ok_iff.mp h
    cases h
    exact .inl ⟨rfl, rfl⟩
  | setUpvalue index src =>
    obtain ⟨v, -, h⟩ := bind_eq_ok_iff.mp h
    obtain ⟨cell, -, h⟩ := bind_eq_ok_iff.mp h
    cases h
    exact .inl ⟨rfl, rfl⟩
  | setIndex table key value =>
    obtain ⟨t, -, h⟩ := bind_eq_ok_iff.mp h
    exact lands_setIndex h rfl
  | closure dst proto =>
    obtain ⟨code, -, h⟩ := bind_eq_ok_iff.mp h
    obtain ⟨cells, -, h⟩ := bind_eq_ok_iff.mp h
    exact lands_goOn h rfl
  | arithRaw op dst x y =>
    obtain ⟨v, -, h⟩ := bind_eq_ok_iff.mp h
    obtain ⟨w, -, h⟩ := bind_eq_ok_iff.mp h
    unfold arithRaw at h
    split at h
    · exact lands_goOn h rfl
    · cases h; trivial
    · cases h; trivial
  | compare op dst x y =>
    obtain ⟨v, -, h⟩ := bind_eq_ok_iff.mp h
    obtain ⟨w, -, h⟩ := bind_eq_ok_iff.mp h
    unfold compare at h
    split at h
    · exact lands_goOn h rfl
    · cases h; trivial
  | newTable dst => exact lands_goOn h rfl
  | receive receiver => exact lands_goOn h rfl
  | vararg receiver => exact lands_goOn h rfl
  | move dst src | getUpvalue dst src | not dst src =>
    obtain ⟨v, -, h⟩ := bind_eq_ok_iff.mp h
    exact lands_goOn h rfl

theorem lands_advance (h : a.advance st received = .ok (st', pr)) :
    ∃ i, a.closure.code.instrs[a.pc]? = some i ∧ Lands ⟨a.closure, a.frame, a.pc + 1⟩ i pr := by
  obtain ⟨i, hi, h⟩ := bind_eq_ok_iff.mp h
  refine ⟨i, ?_, lands_execute h⟩
  unfold instr at hi
  split at hi
  · next hget => cases hi; exact hget
  · cases hi

end Steps

/-- What a call comes to: it carries out instructions, in any store and whatever the result channel
holds; and it goes on wherever its code says that some saved frame does. -/
inductive ComesTo (a : Activation) : Activation → Prop
  | start : ComesTo a a
  | runs {b c : Activation} {st st' : Store} {received : List Value} (h : ComesTo a b)
      (hb : b.advance st received = .ok (st', .runs c)) : ComesTo a c
  | asks {b c : Activation} {st st' : Store} {received : List Value} {request : Request}
      (h : ComesTo a b) (hb : b.advance st received = .ok (st', .asks c request)) : ComesTo a c
  | revived {b : Activation} {point pc : Nat} (h : ComesTo a b)
      (hpc : Run.resumeAddress b.closure.code point = .ok pc) : ComesTo a (b.atPc pc)

end Activation

namespace Code.WellFormed

variable {code : Code} {p : Procedure} (h : code.WellFormed p)
include h

/-- There is an instruction where an instruction leads. -/
theorem lt_of_lands {a b : Activation} {i : Instr} {pr : Progress Activation}
    (hi : code.instrs[a.pc]? = some i) (hpr : pr = .runs b ∨ ∃ request, pr = .asks b request)
    (hlands : Activation.Lands ⟨a.closure, a.frame, a.pc + 1⟩ i pr) :
    b.pc < code.instrs.size := by
  have hcases : b.pc = a.pc + 1 ∧ i.fallsThrough = true ∨ i.target? = some b.pc := by
    obtain rfl | ⟨request, rfl⟩ := hpr <;> exact hlands
  obtain ⟨hpc, hfalls⟩ | htarget := hcases
  · rw [hpc]
    exact h.next hi hfalls
  · obtain ⟨there, hthere, -⟩ := h.targets hi htarget
    exact (Array.getElem?_eq_some_iff.mp hthere).1

/-- Every point but that of the entry is the point of a question, and goes on behind it. -/
theorem exists_ask {targets : Array Nat} (htable : code.resumeTable = some targets) {point pc : Nat}
    (htarget : targets[point + 1]? = some pc) :
    ∃ q address, code.instrs[address]? = some (.ask q (point + 1)) ∧ pc = address + 1 := by
  have hmem : point + 1 ∈ code.instrs.toList.filterMap Instr.point? := by
    have hlt := (Array.getElem?_eq_some_iff.mp htarget).1
    rw [h.points, List.mem_range'_1, Code.pointCount, htable, Option.map_some, Option.getD_some]
    omega
  obtain ⟨i, hi, hpoint⟩ := List.mem_filterMap.mp hmem
  obtain ⟨address, haddress⟩ := List.mem_iff_getElem?.mp hi
  rw [Array.getElem?_toList] at haddress
  cases i with
  | ask q point' =>
    cases hpoint
    obtain ⟨⟨targets', htable', -, htarget'⟩, -⟩ := h.asks haddress
    cases htable.symm.trans htable'
    exact ⟨q, address, haddress, Option.some.inj (htarget.symm.trans htarget')⟩
  | _ => cases hpoint

/-- There is an instruction wherever a saved frame goes on. -/
theorem lt_of_resumeAddress (hpos : 0 < code.instrs.size) {point pc : Nat}
    (hpc : Run.resumeAddress code point = .ok pc) : pc < code.instrs.size := by
  unfold Run.resumeAddress at hpc
  split at hpc
  · cases hpc; exact hpos
  · next targets htable =>
    split at hpc
    · next pc' htarget =>
      cases hpc
      cases point with
      | zero => cases (h.table targets htable).1.symm.trans htarget; exact hpos
      | succ point =>
        obtain ⟨q, address, hask, rfl⟩ := h.exists_ask htable htarget
        obtain ⟨-, receiver, hreceive⟩ := h.asks hask
        exact (Array.getElem?_eq_some_iff.mp hreceive).1
    · cases hpc

/-- **No call runs past the end of its code**, whatever it does. -/
theorem lt_of_comesTo {a b : Activation} (hcode : a.closure.code = code)
    (hstart : a.pc < code.instrs.size) (hb : a.ComesTo b) :
    b.closure = a.closure ∧ b.pc < code.instrs.size := by
  induction hb with
  | start => exact ⟨rfl, hstart⟩
  | runs _ hb ih =>
    obtain ⟨i, hi, hlands⟩ := Activation.lands_advance hb
    obtain ⟨_, -, -, hsame⟩ := Activation.follows_advance hb
    rw [ih.1, hcode] at hi
    exact ⟨hsame.trans ih.1, h.lt_of_lands hi (.inl rfl) hlands⟩
  | asks _ hb ih =>
    obtain ⟨i, hi, hlands⟩ := Activation.lands_advance hb
    obtain ⟨_, -, -, hsame, -⟩ := Activation.follows_advance hb
    rw [ih.1, hcode] at hi
    exact ⟨hsame.trans ih.1, h.lt_of_lands hi (.inr ⟨_, rfl⟩) hlands⟩
  | revived _ hpc ih =>
    rw [ih.1, hcode] at hpc
    exact ⟨ih.1, h.lt_of_resumeAddress (Nat.zero_lt_of_lt hstart) hpc⟩

end Code.WellFormed

/-! ### Nested procedures -/

/-- The procedure that is nested at the end of a path of positions. -/
def Procedure.nestedAt (p : Procedure) : List Nat → Option Procedure
  | [] => some p
  | i :: path => p.nested[i]?.bind (nestedAt · path)

/-- The code that is nested at the end of a path of positions. -/
def Code.nestedAt (code : Code) : List Nat → Option Code
  | [] => some code
  | i :: path => code.nested[i]?.bind (nestedAt · path)

namespace Procedure

variable {p : Procedure} {code : Code}

theorem exists_nestedAt : ∀ {path : List Nat} {p q : Procedure} {code : Code},
    p.compile = .ok code → p.nestedAt path = some q →
    ∃ c, code.nestedAt path = some c ∧ q.compile = .ok c
  | [], p, q, code, h, hq => by
    cases hq
    exact ⟨code, rfl, h⟩
  | i :: path, p, q, code, h, hq => by
    obtain ⟨n, hn, hq⟩ := Option.bind_eq_some_iff.mp hq
    obtain ⟨-, codes, hcodes, rfl⟩ := compile_eq_ok_iff.mp h
    obtain ⟨c, hc, hcompile⟩ := getElem?_nested hcodes hn
    obtain ⟨c', hc', hcompile'⟩ := exists_nestedAt hcompile hq
    refine ⟨c', ?_, hcompile'⟩
    rw [Code.nestedAt, show (p.assemble codes).nested = codes from rfl, hc]
    exact hc'

/-- **The code of a procedure, and of every procedure nested in it, is well formed.** No call of it
runs past its end: after any instructions, in any store, with any answers, and resumed at any point,
there is an instruction to carry out. -/
theorem wellFormedCode_of_compile (h : p.compile = .ok code) {path : List Nat} {q : Procedure}
    (hq : p.nestedAt path = some q) :
    ∃ c, code.nestedAt path = some c ∧ q.compile = .ok c ∧ c.WellFormed q ∧
      ∀ (closure : Closure) (args : List Value) (a : Activation), closure.code = c →
        (Activation.start closure args).ComesTo a →
        ∃ i, a.instr = .ok i ∧ c.instrs[a.pc]? = some i := by
  obtain ⟨c, hc, hcompile⟩ := exists_nestedAt h hq
  obtain ⟨hvalid, codes, -, rfl⟩ := compile_eq_ok_iff.mp hcompile
  have hwell := wellFormed_assemble hvalid codes
  refine ⟨_, hc, hcompile, hwell, fun closure args a hcode hcomes => ?_⟩
  have hstart : 0 < (q.assemble codes).instrs.size := by
    obtain ⟨lines, hlines, hne, -⟩ := exists_blockLines hvalid Dataflow.Reaches.first hvalid.nonempty
    have hpos := List.length_pos_iff.mpr hne
    have hle : lines.length ≤ q.blockLines.flatten.length :=
      (List.sublist_flatten_of_mem (List.mem_of_getElem? hlines)).length_le
    rw [size_instrs, Procedure.lines, List.length_append]
    omega
  obtain ⟨hsame, hlt⟩ := hwell.lt_of_comesTo hcode hstart hcomes
  have hget := Array.getElem?_eq_getElem hlt
  have hsame' : a.closure.code = q.assemble codes := by rw [hsame]; exact hcode
  refine ⟨_, ?_, hget⟩
  rw [Activation.instr, hsame', hget]

/-- A procedure that calls its argument until that returns false. -/
def poll : Procedure where
  name := "poll"
  params := 1
  isVararg := false
  registers := 2
  upvalues := []
  blocks := [⟨[.call 0 ⟨[], false⟩ (.fixed [1])], .branch 1 0 1⟩, ⟨[], .ret ⟨[], false⟩⟩]
  nested := []

/-- A procedure that returns a closure of that one. -/
def offer : Procedure where
  name := "offer"
  params := 0
  isVararg := false
  registers := 1
  upvalues := []
  blocks := [⟨[.closure 0 0], .ret ⟨[.register 0], false⟩⟩]
  nested := [poll]

/-- The nested procedure has one question, and jumps back to it. -/
theorem wellFormedCode_offer : ∃ code c, offer.compile = .ok code ∧
    code.nestedAt [0] = some c ∧ c.WellFormed poll ∧ c.resumeTable = some #[0, 1] ∧
    c.instrs[3]? = some (.jump 0) := by
  have hpoll : poll.compile = .ok (poll.assemble []) :=
    compile_eq_ok_iff.mpr ⟨check_eq_ok_iff.mp rfl, [], .nil, rfl⟩
  have hoffer : offer.compile = .ok (offer.assemble [poll.assemble []]) :=
    compile_eq_ok_iff.mpr ⟨check_eq_ok_iff.mp rfl, _, .cons hpoll .nil, rfl⟩
  have hpath : offer.nestedAt [0] = some poll := rfl
  obtain ⟨c, hc, -, hwell, -⟩ := wellFormedCode_of_compile hoffer hpath
  have hc' : c = poll.assemble [] := (Option.some.inj hc).symm
  exact ⟨_, c, hoffer, hc, hwell, by rw [hc']; rfl, by rw [hc']; rfl⟩

end Procedure

end ResumableVM
