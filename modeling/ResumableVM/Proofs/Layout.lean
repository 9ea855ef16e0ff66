import ResumableVM.Proofs.RegisterTypes

/-! # Layout: where the lines of a procedure stand in its code

`Code.Holds code starts pc lines` says that the code has these lines from the address `pc` on: plain
instructions as they are, questions with a point at which the instruction behind them is resumed,
jumps with the address of the first line of their block, branches with the lines they skip. Assembled
code holds the lines of the prologue at its entry and those of every block at its start
(`holds_prologue`, `holds_block`), and every question of it is resumed behind itself
(`resumesAt_of_ask`). Blocks stand one after the other (`startOf_add_le`). -/

namespace ResumableVM

/-- A resumption point goes on at an address. -/
def Code.ResumesAt (code : Code) (point pc : Nat) : Prop :=
  ∃ targets, code.resumeTable = some targets ∧ 1 ≤ point ∧ targets[point]? = some pc

/-- A line stands at an address of the code. -/
def Line.Placed (code : Code) (starts : List Nat) (pc : Nat) : Line → Prop
  | .instr i => code.instrs[pc]? = some i
  | .ask q => ∃ point, code.instrs[pc]? = some (.ask q point) ∧ code.ResumesAt point (pc + 1)
  | .jump b => code.instrs[pc]? = some (.jump (starts[b]?.getD 0))
  | .skipUnless cond n => code.instrs[pc]? = some (.jumpIfFalse cond (pc + 1 + n))

/-- The code has these lines from an address on. -/
def Code.Holds (code : Code) (starts : List Nat) : Nat → List Line → Prop
  | _, [] => True
  | pc, line :: lines => line.Placed code starts pc ∧ Holds code starts (pc + 1) lines

namespace Code.Holds

variable {code : Code} {starts : List Nat}

theorem append_iff : ∀ {a b : List Line} {pc : Nat},
    code.Holds starts pc (a ++ b) ↔
      code.Holds starts pc a ∧ code.Holds starts (pc + a.length) b
  | [], b, pc => by simp [Code.Holds]
  | line :: a, b, pc => by
    simp only [List.cons_append, Code.Holds, append_iff (a := a), List.length_cons, and_assoc,
      Nat.add_assoc, Nat.add_comm 1]

theorem get : ∀ {lines : List Line} {pc i : Nat} {line : Line},
    code.Holds starts pc lines → lines[i]? = some line → line.Placed code starts (pc + i)
  | [], _, _, _, _, hi => by simp at hi
  | line :: lines, pc, 0, line', h, hi => by
    simp only [List.getElem?_cons_zero, Option.some.injEq] at hi
    exact hi ▸ h.1
  | line :: lines, pc, i + 1, line', h, hi => by
    have := get h.2 (i := i) (by simpa using hi)
    rwa [Nat.add_assoc, Nat.add_comm 1] at this

/-- The lines of every block stand at its start. -/
theorem of_flatten : ∀ {blocks : List (List Line)} {pc : Nat},
    code.Holds starts pc blocks.flatten → ∀ {b : Nat} {lines : List Line},
      blocks[b]? = some lines →
        ∃ start, (Assembly.starts pc blocks)[b]? = some start ∧ code.Holds starts start lines
  | [], _, _, b, _, hb => by simp at hb
  | lines :: blocks, pc, h, 0, lines', hb => by
    simp only [List.getElem?_cons_zero, Option.some.injEq] at hb
    subst hb
    exact ⟨pc, rfl, (append_iff.mp h).1⟩
  | lines :: blocks, pc, h, b + 1, lines', hb => by
    obtain ⟨start, hs, hh⟩ := of_flatten (append_iff.mp h).2 (by simpa using hb)
    exact ⟨start, by simpa [Assembly.starts] using hs, hh⟩

/-- Linked lines are placed. The resumption table lists the addresses behind the questions; `before`
is the part of it that belongs to earlier lines. -/
theorem of_link : ∀ (lines : List Line) (pc : Nat) (before : List Nat), 1 ≤ before.length →
    (∀ i < lines.length,
      code.instrs[pc + i]? = (Assembly.link starts pc before.length lines)[i]?) →
    (Assembly.answerAddresses pc lines ≠ [] →
      code.resumeTable = some (before ++ Assembly.answerAddresses pc lines).toArray) →
    code.Holds starts pc lines
  | [], _, _, _, _, _ => trivial
  | line :: lines, pc, before, hb, hi, ht => by
    have h0 := hi 0 (by simp)
    simp only [Nat.add_zero, Assembly.link, List.getElem?_cons_zero] at h0
    have htail : ∀ i < lines.length, code.instrs[pc + 1 + i]? =
        (Assembly.link starts (pc + 1) (Assembly.nextPoint before.length line) lines)[i]? := by
      intro i hlt
      have := hi (i + 1) (by simpa using hlt)
      simpa [Assembly.link, Nat.add_assoc, Nat.add_comm 1] using this
    cases line with
    | ask q =>
      have htable := ht (by simp [Assembly.answerAddresses])
      simp only [Assembly.answerAddresses] at htable
      refine ⟨⟨before.length, h0, _, htable, hb, by simp⟩, ?_⟩
      refine of_link lines (pc + 1) (before ++ [pc + 1]) (by simp) ?_ ?_
      · simpa [Assembly.nextPoint] using htail
      · intro _; simpa using htable
    | instr i => exact ⟨h0, of_link lines (pc + 1) before hb htail ht⟩
    | jump b => exact ⟨h0, of_link lines (pc + 1) before hb htail ht⟩
    | skipUnless cond n => exact ⟨h0, of_link lines (pc + 1) before hb htail ht⟩

end Code.Holds

/-! ### Lines of a procedure -/

/-- The line is no question in disguise. -/
def Line.IsPlain : Line → Prop
  | .instr i => i.point? = none
  | _ => True

namespace Procedure

variable {p : Procedure}

/-- The lines of every block. -/
def blockLines (p : Procedure) : List (List Line) := p.lowerBlocks.map (·.1)

/-- All lines. -/
def lines (p : Procedure) : List Line := p.prologue ++ p.blockLines.flatten

/-- The address of the first line of each block. -/
def starts (p : Procedure) : List Nat := Assembly.starts p.prologue.length p.blockLines

/-- The address of the first line of a block. -/
def startOf (p : Procedure) (b : Nat) : Nat := p.starts[b]?.getD 0

theorem lowerOps_snd : ∀ (ops : List Op) (info : RegisterInfo),
    (p.lowerOps info ops).2 = p.typeFlowAll info ops
  | [], _ => rfl
  | op :: ops, info => lowerOps_snd ops (p.typeFlow info op)

theorem lowerOps_append : ∀ (xs ys : List Op) (info : RegisterInfo),
    (p.lowerOps info (xs ++ ys)).1 =
      (p.lowerOps info xs).1 ++ (p.lowerOps (p.typeFlowAll info xs) ys).1
  | [], _, _ => rfl
  | op :: xs, ys, info => by
    show p.lowerOp info op ++ (p.lowerOps (p.typeFlow info op) (xs ++ ys)).1 =
      p.lowerOp info op ++ (p.lowerOps (p.typeFlow info op) xs).1 ++ _
    rw [lowerOps_append xs ys, List.append_assoc]
    rfl

theorem isPlain_lowerArith (info : RegisterInfo) (op : ArithOp) (dst : Nat) (a b : Operand) :
    ∀ line ∈ lowerArith info op dst a b, line.IsPlain := by
  intro line h
  unfold lowerArith at h
  split at h
  · simp only [List.mem_singleton] at h
    subst h; rfl
  · simp only [Line.askInto, List.mem_cons, List.not_mem_nil, or_false] at h
    rcases h with rfl | rfl
    · trivial
    · rfl

theorem isPlain_captureAll (rs : List Nat) : ∀ line ∈ Line.captureAll rs, line.IsPlain := by
  intro line h
  obtain ⟨r, -, rfl⟩ := List.mem_map.mp h
  rfl

theorem isPlain_lowerOp (info : RegisterInfo) (op : Op) :
    ∀ line ∈ p.lowerOp info op, line.IsPlain := by
  intro line h
  cases op with
  | arith dst op a b => exact isPlain_lowerArith info op dst a b line h
  | unary dst op src =>
    cases op with
    | negate => exact isPlain_lowerArith info .negate dst src src line h
    | not => simp only [lowerOp, List.mem_singleton] at h; subst h; rfl
    | length =>
      simp only [lowerOp, Line.askInto, List.mem_cons, List.not_mem_nil, or_false] at h
      rcases h with rfl | rfl
      · trivial
      · rfl
  | closure dst proto =>
    rcases List.mem_append.mp h with h | h
    · exact isPlain_captureAll _ line h
    · simp only [List.mem_singleton] at h; subst h; rfl
  | close rs =>
    obtain ⟨r, -, rfl⟩ := List.mem_map.mp h
    rfl
  | index dst table key =>
    simp only [lowerOp, Line.askInto, List.mem_cons, List.not_mem_nil, or_false] at h
    rcases h with rfl | rfl
    · trivial
    · rfl
  | call target args results =>
    simp only [lowerOp, Line.askInto, List.mem_cons, List.not_mem_nil, or_false] at h
    rcases h with rfl | rfl
    · trivial
    · rfl
  | _ => simp only [lowerOp, List.mem_singleton] at h; subst h; rfl

theorem isPlain_lowerOps : ∀ (ops : List Op) (info : RegisterInfo),
    ∀ line ∈ (p.lowerOps info ops).1, line.IsPlain
  | [], _, _, h => by cases h
  | op :: ops, info, line, h => by
    rcases List.mem_append.mp h with h | h
    · exact isPlain_lowerOp info op line h
    · exact isPlain_lowerOps ops _ line h

theorem isPlain_lowerEdge (captures : Dataflow.Entries SlotStates) (states : SlotStates)
    (target : Nat) : ∀ line ∈ lowerEdge captures states target, line.IsPlain := by
  intro line h
  rcases List.mem_append.mp h with h | h
  · exact isPlain_captureAll _ line h
  · simp only [List.mem_singleton] at h
    subst h; trivial

theorem isPlain_lowerExit (captures : Dataflow.Entries SlotStates) (states : SlotStates) (e : Exit) :
    ∀ line ∈ lowerExit captures states e, line.IsPlain := by
  intro line h
  cases e with
  | jump target => exact isPlain_lowerEdge captures states target line h
  | branch cond ifTrue ifFalse =>
    simp only [lowerExit, List.mem_cons, List.cons_append, List.mem_append] at h
    rcases h with rfl | h | h
    · trivial
    · exact isPlain_lowerEdge captures states ifTrue line h
    · exact isPlain_lowerEdge captures states ifFalse line h
  | ret args => simp only [lowerExit, List.mem_singleton] at h; subst h; rfl
  | tailCall target args => simp only [lowerExit, List.mem_singleton] at h; subst h; rfl

theorem isPlain_lines : ∀ line ∈ p.lines, line.IsPlain := by
  intro line h
  rcases List.mem_append.mp h with h | h
  · exact isPlain_captureAll _ line h
  · obtain ⟨lines, hl, hline⟩ := List.mem_flatten.mp h
    simp only [blockLines, lowerBlocks, List.map_map, List.mem_map, Function.comp_apply] at hl
    obtain ⟨⟨block, b⟩, -, rfl⟩ := hl
    revert hline
    dsimp only
    split
    · intro hline
      rcases List.mem_append.mp hline with hline | hline
      · exact isPlain_lowerOps _ _ line hline
      · exact isPlain_lowerExit _ _ _ line hline
    · intro hline; cases hline

theorem length_blockLines : p.blockLines.length = p.blocks.length := by
  simp [blockLines, lowerBlocks]

/-- The lines of a block that can be reached. -/
theorem getElem?_blockLines {b : Nat} {block : Block} {info : RegisterInfo}
    (hb : p.blocks[b]? = some block) (hi : p.entryInfo b = some info) :
    p.blockLines[b]? = some ((p.lowerOps info block.ops).1 ++
      lowerExit p.captures (p.typeFlowAll info block.ops).states block.exit) := by
  obtain ⟨hs, ht⟩ := entryInfo_eq_some.mp hi
  have hs' : p.captures[b]?.join = some info.states := hs
  have ht' : (p.registerTypes p.captures)[b]?.join = some info.types := ht
  simp only [blockLines, lowerBlocks, List.getElem?_map, List.getElem?_zipIdx, hb, Option.map_some,
    Nat.zero_add, hs', ht']
  rw [← lowerOps_snd]
  rfl

theorem length_starts (pc : Nat) : ∀ (blocks : List (List Line)),
    (Assembly.starts pc blocks).length = blocks.length
  | [] => rfl
  | lines :: blocks => by simp [Assembly.starts, length_starts _ blocks]

theorem starts_ordered : ∀ (blocks : List (List Line)) (pc b c s t : Nat) (lines : List Line),
    b < c → blocks[b]? = some lines → (Assembly.starts pc blocks)[b]? = some s →
      (Assembly.starts pc blocks)[c]? = some t → s + lines.length ≤ t
  | [], _, _, _, _, _, _, _, hb, _, _ => by simp at hb
  | lines :: blocks, pc, 0, c + 1, s, t, lines', _, hb, hs, ht => by
    simp only [List.getElem?_cons_zero, Option.some.injEq] at hb
    simp only [Assembly.starts, List.getElem?_cons_zero, Option.some.injEq,
      List.getElem?_cons_succ] at hs ht
    subst hb hs
    have hle : ∀ (bs : List (List Line)) (a c t : Nat),
        (Assembly.starts a bs)[c]? = some t → a ≤ t := by
      intro bs
      induction bs with
      | nil => intro a c t h; simp [Assembly.starts] at h
      | cons l bs ih =>
        intro a c t h
        cases c with
        | zero => simp [Assembly.starts] at h; omega
        | succ c =>
          have := ih _ c t (by simpa [Assembly.starts] using h)
          omega
    exact hle _ _ _ _ ht
  | lines :: blocks, pc, b + 1, c + 1, s, t, lines', hlt, hb, hs, ht =>
    starts_ordered blocks _ b c s t lines' (by omega) (by simpa using hb)
      (by simpa [Assembly.starts] using hs) (by simpa [Assembly.starts] using ht)

theorem getElem?_starts {b : Nat} (h : b < p.blocks.length) :
    p.starts[b]? = some (p.startOf b) := by
  have : b < p.starts.length := by rw [starts, length_starts, length_blockLines]; exact h
  simp [startOf, this]

/-- **Blocks stand one after the other.** -/
theorem startOf_add_le {b c : Nat} {lines : List Line} (hbc : b < c) (hc : c < p.blocks.length)
    (hb : p.blockLines[b]? = some lines) : p.startOf b + lines.length ≤ p.startOf c :=
  starts_ordered _ _ b c _ _ lines hbc hb (getElem?_starts (by omega)) (getElem?_starts hc)

theorem startOf_zero (h : 0 < p.blocks.length) : p.startOf 0 = p.prologue.length := by
  have hlen := length_blockLines (p := p)
  unfold startOf starts
  cases hbl : p.blockLines with
  | nil => rw [hbl] at hlen; simp at hlen; omega
  | cons lines blocks => rfl

/-- The address of the first line of an operation, or of the exit behind the last one. -/
def opAddress (p : Procedure) (b i : Nat) : Nat :=
  p.startOf b + ((p.entryInfo b).elim 0 fun info =>
    (p.lowerOps info ((p.opsOf b).take i)).1.length)

theorem opAddress_eq {b : Nat} {info : RegisterInfo} (hi : p.entryInfo b = some info) (i : Nat) :
    p.opAddress b i = p.startOf b + (p.lowerOps info ((p.opsOf b).take i)).1.length := by
  simp [opAddress, hi]

/-! ### Assembled code -/

section Assembled

variable {codes : List Code}

/-- Assembled code holds all lines of the procedure. -/
theorem holds_assemble : (p.assemble codes).Holds p.starts 0 p.lines := by
  refine Code.Holds.of_link p.lines 0 [0] (by simp) (fun i _ => ?_) (fun h => ?_)
  · simp only [assemble, Nat.zero_add, List.getElem?_toArray]
    rfl
  · have hne : (Assembly.answerAddresses 0 p.lines).isEmpty = false := by simpa using h
    show Assembly.resumeTable p.lines = _
    simp [Assembly.resumeTable, hne]

theorem holds_prologue : (p.assemble codes).Holds p.starts 0 p.prologue :=
  (Code.Holds.append_iff.mp holds_assemble).1

/-- **Every question is resumed behind itself.** -/
theorem resumesAt_of_ask {pc : Nat} {q : Question} {point : Nat}
    (h : (p.assemble codes).instrs[pc]? = some (.ask q point)) :
    (p.assemble codes).ResumesAt point (pc + 1) := by
  have hsize : (p.assemble codes).instrs.size = p.lines.length := by
    simp only [assemble, List.size_toArray, Assembly.length_link]
    rfl
  have hlt : pc < p.lines.length := hsize ▸ (Array.getElem?_eq_some_iff.mp h).1
  have hplaced := (@holds_assemble p codes).get (List.getElem?_eq_getElem hlt)
  have hplain := isPlain_lines p.lines[pc] (List.getElem_mem hlt)
  rw [Nat.zero_add] at hplaced
  cases hline : p.lines[pc] with
  | instr i =>
    rw [hline] at hplaced hplain
    have hi : some i = some (Instr.ask q point) := hplaced.symm.trans h
    cases hi
    cases hplain
  | ask q' =>
    rw [hline] at hplaced
    obtain ⟨point', hp, hr⟩ := hplaced
    rw [h] at hp
    cases hp
    exact hr
  | jump b => rw [hline] at hplaced; cases hplaced.symm.trans h
  | skipUnless cond n => rw [hline] at hplaced; cases hplaced.symm.trans h

/-- **The lines of a block stand at its start.** -/
theorem holds_block {b : Nat} {lines : List Line} (hb : p.blockLines[b]? = some lines) :
    (p.assemble codes).Holds p.starts (p.startOf b) lines := by
  have h := (Code.Holds.append_iff.mp (@holds_assemble p codes)).2
  rw [Nat.zero_add] at h
  obtain ⟨start, hs, hh⟩ := h.of_flatten hb
  have : p.starts[b]? = some start := hs
  rwa [startOf, this, Option.getD_some]

/-- From an operation on, the code has the lines of the operations left and of the exit. -/
theorem holds_from {b : Nat} {block : Block} {info : RegisterInfo}
    (hb : p.blocks[b]? = some block) (hi : p.entryInfo b = some info) (i : Nat) :
    (p.assemble codes).Holds p.starts (p.opAddress b i)
      ((p.lowerOps (p.typeFlowAll info (block.ops.take i)) (block.ops.drop i)).1 ++
        lowerExit p.captures (p.typeFlowAll info block.ops).states block.exit) := by
  have h := @holds_block p codes b _ (getElem?_blockLines hb hi)
  conv at h => rw [← List.take_append_drop i block.ops, lowerOps_append]
  rw [List.take_append_drop, List.append_assoc] at h
  have hops : p.opsOf b = block.ops := by simp [opsOf, hb]
  rw [opAddress_eq hi, hops]
  exact (Code.Holds.append_iff.mp h).2

end Assembled

end Procedure

end ResumableVM
