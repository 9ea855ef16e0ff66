import ResumableVM.Proofs.Addresses
import ResumableVM.Proofs.CheckedCode

/-! # CoherentLines: how the lines of a procedure fit together

Lines are laid out so that every question has its receiver behind it, no other line receives, and a
branch skips to a line that is there: `Coherent`, which the lines of operations, exits and blocks are
and which appending keeps (`coherent_lines`). A block ends with an exit, so control does not run out
of its lines: `Closed` (`closed_lines`).

Linking numbers the questions (`points_link`), and the resumption table lists the addresses behind
them in their order (`pairwise_answerAddresses`). The draft of the code leaves open the targets of
exactly the instructions that have one (`mem_draft_iff`), and marks them (`target_draft`). -/

namespace ResumableVM

namespace Instr

/-- Control passes to the next instruction, after a question with its answer. -/
def fallsThrough : Instr → Bool
  | jump _ | ret _ | tailCall _ _ => false
  | _ => true

/-- The address that an instruction names. -/
def target? : Instr → Option Nat
  | jump t | jumpIfFalse _ t => some t
  | _ => none

end Instr

/-! ### Lines -/

namespace Line

/-- Control passes to the next line. -/
def fallsThrough : Line → Bool
  | instr i => i.fallsThrough
  | jump _ => false
  | _ => true

/-- The line has nothing to do with those around it: it neither asks nor receives, and skips none. -/
def isLone : Line → Bool
  | instr (.receive _) | ask _ | skipUnless _ _ => false
  | instr i => i.target?.isNone
  | jump _ => true

/-- What stands around a line: a question and its receiver stand together, and a branch skips some
lines to one that is no receiver. -/
def Fits (lines : List Line) (i : Nat) : Line → Prop
  | ask _ => ∃ receiver, lines[i + 1]? = some (instr (.receive receiver))
  | instr (.receive _) => ∃ j question, i = j + 1 ∧ lines[j]? = some (ask question)
  | skipUnless _ count => 0 < count ∧ ∃ line, lines[i + 1 + count]? = some line ∧ line.isLone = true
  | line => line.isLone = true

theorem Fits.of_isLone {lines : List Line} {i : Nat} {line : Line} (h : line.isLone = true) :
    line.Fits lines i := by
  cases line with
  | instr instr => cases instr <;> first | exact h | cases h
  | jump b => rfl
  | ask q => cases h
  | skipUnless c n => cases h

/-- Lines that stand in others have the same around them. -/
theorem Fits.shift {lines lines' : List Line} {k i : Nat} {line : Line}
    (hsub : ∀ j l, lines[j]? = some l → lines'[k + j]? = some l) (h : line.Fits lines i) :
    line.Fits lines' (k + i) := by
  cases line with
  | ask q => exact h.imp fun _ hr => hsub _ _ hr
  | skipUnless c n =>
    obtain ⟨hpos, there, hthere, hlone⟩ := h
    exact ⟨hpos, there, by rw [Nat.add_assoc, Nat.add_assoc, ← Nat.add_assoc i]; exact hsub _ _ hthere,
      hlone⟩
  | jump b => rfl
  | instr instr =>
    cases instr with
    | receive r =>
      obtain ⟨j, q, rfl, hq⟩ := h
      exact ⟨k + j, q, rfl, hsub _ _ hq⟩
    | _ => exact h

end Line

/-- Every line fits in among the others. -/
def Coherent (lines : List Line) : Prop :=
  ∀ (i : Nat) (line : Line), lines[i]? = some line → line.Fits lines i

/-- Control does not run out of the lines. -/
def Closed (lines : List Line) : Prop :=
  ∀ (i : Nat) (line : Line), lines[i]? = some line → line.fallsThrough = true → i + 1 < lines.length

theorem Coherent.of_isLone {lines : List Line} (h : ∀ line ∈ lines, line.isLone = true) :
    Coherent lines :=
  fun _ line hi => .of_isLone (h line (List.mem_of_getElem? hi))

theorem coherent_nil : Coherent [] := fun _ _ hi => by cases hi

theorem Coherent.append {a b : List Line} (ha : Coherent a) (hb : Coherent b) :
    Coherent (a ++ b) := by
  intro i line hi
  rcases Nat.lt_or_ge i a.length with hlt | hge
  · rw [List.getElem?_append_left hlt] at hi
    have hsub : ∀ j l, a[j]? = some l → (a ++ b)[0 + j]? = some l := fun j l hj => by
      rw [Nat.zero_add, List.getElem?_append_left (List.getElem?_eq_some_iff.mp hj).1, hj]
    have := (ha i line hi).shift hsub
    rwa [Nat.zero_add] at this
  · rw [List.getElem?_append_right hge] at hi
    have hsub : ∀ j l, b[j]? = some l → (a ++ b)[a.length + j]? = some l := fun j l hj => by
      rw [List.getElem?_append_right (Nat.le_add_right _ _), Nat.add_sub_cancel_left, hj]
    have := (hb _ line hi).shift hsub
    rwa [Nat.add_sub_cancel' hge] at this

theorem Coherent.target?_eq_none {lines : List Line} (h : Coherent lines) (i : Instr)
    (hi : .instr i ∈ lines) : i.target? = none := by
  obtain ⟨n, hn⟩ := List.mem_iff_getElem?.mp hi
  have hfits := h n _ hn
  cases i with
  | jump t => cases hfits
  | jumpIfFalse c t => cases hfits
  | _ => rfl

theorem coherent_flatten : ∀ {blocks : List (List Line)}, (∀ lines ∈ blocks, Coherent lines) →
    Coherent blocks.flatten
  | [], _ => coherent_nil
  | lines :: blocks, h => by
    obtain ⟨hlines, hblocks⟩ := List.forall_mem_cons.mp h
    exact hlines.append (coherent_flatten hblocks)

theorem closed_nil : Closed [] := fun _ _ hi => by cases hi

/-- What stands before lines that are closed runs into them. -/
theorem Closed.append_left {b : List Line} (hb : Closed b) (hne : b ≠ []) (a : List Line) :
    Closed (a ++ b) := by
  intro i line hi hfalls
  have hpos := List.length_pos_iff.mpr hne
  rw [List.length_append]
  rcases Nat.lt_or_ge i a.length with hlt | hge
  · omega
  · rw [List.getElem?_append_right hge] at hi
    have := hb _ line hi hfalls
    omega

theorem closed_flatten : ∀ {blocks : List (List Line)}, (∀ lines ∈ blocks, Closed lines) →
    Closed blocks.flatten
  | [], _ => closed_nil
  | lines :: blocks, h => by
    obtain ⟨hlines, hblocks⟩ := List.forall_mem_cons.mp h
    have hrest := closed_flatten hblocks
    rw [List.flatten_cons]
    by_cases hne : blocks.flatten = []
    · rwa [hne, List.append_nil]
    · exact hrest.append_left hne lines

/-! ### Lines of a procedure -/

theorem isLone_captureAll (rs : List Nat) : ∀ line ∈ Line.captureAll rs, line.isLone = true := by
  intro line h
  obtain ⟨r, -, rfl⟩ := List.mem_map.mp h
  rfl

theorem coherent_singleton {line : Line} (h : line.isLone = true) : Coherent [line] :=
  .of_isLone fun _ hl => List.mem_singleton.mp hl ▸ h

theorem coherent_askInto (q : Question) (receiver : Receiver) :
    Coherent (Line.askInto q receiver) := by
  intro i line hi
  match i with
  | 0 => cases hi; exact ⟨receiver, rfl⟩
  | 1 => cases hi; exact ⟨0, q, rfl, rfl⟩
  | _ + 2 => cases hi

theorem coherent_lowerArith (info : RegisterInfo) (op : ArithOp) (dst : Nat) (a b : Operand) :
    Coherent (lowerArith info op dst a b) := by
  unfold lowerArith
  split
  · exact coherent_singleton rfl
  · exact coherent_askInto _ _

namespace Procedure

variable {p : Procedure}

theorem coherent_lowerOp (info : RegisterInfo) (op : Op) : Coherent (p.lowerOp info op) := by
  cases op with
  | arith dst op a b => exact coherent_lowerArith info op dst a b
  | unary dst op src =>
    cases op with
    | negate => exact coherent_lowerArith info .negate dst src src
    | not => exact coherent_singleton rfl
    | length => exact coherent_askInto _ _
  | index | call => exact coherent_askInto _ _
  | closure dst proto =>
    exact (Coherent.of_isLone (isLone_captureAll _)).append (coherent_singleton rfl)
  | close rs =>
    refine .of_isLone fun line h => ?_
    obtain ⟨r, -, rfl⟩ := List.mem_map.mp h
    rfl
  | _ => exact coherent_singleton rfl

theorem coherent_lowerOps : ∀ (ops : List Op) (info : RegisterInfo),
    Coherent (p.lowerOps info ops).1
  | [], _ => coherent_nil
  | op :: ops, info => (coherent_lowerOp info op).append (coherent_lowerOps ops _)

section Exits

variable (captures : Dataflow.Entries SlotStates) (states : SlotStates)

theorem isLone_lowerEdge (target : Nat) :
    ∀ line ∈ lowerEdge captures states target, line.isLone = true := by
  intro line h
  rcases List.mem_append.mp h with h | h
  · exact isLone_captureAll _ line h
  · rw [List.mem_singleton.mp h]
    rfl

theorem lowerEdge_pos (target : Nat) : 0 < (lowerEdge captures states target).length := by
  simp [lowerEdge]

theorem coherent_lowerExit (e : Exit) : Coherent (lowerExit captures states e) := by
  cases e with
  | jump target => exact .of_isLone (isLone_lowerEdge captures states target)
  | ret args => exact coherent_singleton rfl
  | tailCall target args => exact coherent_singleton rfl
  | branch cond ifTrue ifFalse =>
    have hskipped := lowerEdge_pos captures states ifFalse
    have hedges : ∀ line ∈ lowerEdge captures states ifTrue ++ lowerEdge captures states ifFalse,
        line.isLone = true := by
      intro line h
      rcases List.mem_append.mp h with h | h
      · exact isLone_lowerEdge captures states ifTrue line h
      · exact isLone_lowerEdge captures states ifFalse line h
    intro i line hi
    cases i with
    | zero =>
      -- the branch skips to the first line of the second edge
      cases hi
      refine ⟨lowerEdge_pos captures states ifTrue, (lowerEdge captures states ifFalse)[0], ?_,
        isLone_lowerEdge captures states ifFalse _ (List.getElem_mem hskipped)⟩
      rw [Nat.zero_add, Nat.add_comm, lowerExit, List.cons_append, List.getElem?_cons_succ,
        List.getElem?_append_right le_rfl, Nat.sub_self, List.getElem?_eq_getElem hskipped]
    | succ i => exact .of_isLone (hedges line (List.mem_of_getElem? (i := i) hi))

theorem closed_singleton {line : Line} (h : line.fallsThrough = false) : Closed [line] := by
  intro i l hi hfalls
  cases i with
  | zero => cases hi; rw [h] at hfalls; cases hfalls
  | succ i => cases hi

theorem closed_lowerEdge (target : Nat) : Closed (lowerEdge captures states target) :=
  (closed_singleton rfl).append_left (List.cons_ne_nil _ _) _

theorem closed_lowerExit (e : Exit) : Closed (lowerExit captures states e) := by
  cases e with
  | jump target => exact closed_lowerEdge captures states target
  | ret args => exact closed_singleton rfl
  | tailCall target args => exact closed_singleton rfl
  | branch cond ifTrue ifFalse =>
    exact (closed_lowerEdge captures states ifFalse).append_left
      (List.length_pos_iff.mp (lowerEdge_pos captures states ifFalse)) (_ :: _)

end Exits

/-- A property of lines that those of no block have, and those of every block that can be reached. -/
theorem forall_blockLines {P : List Line → Prop} (hnil : P [])
    (hlines : ∀ (ops : List Op) (info : RegisterInfo) (states : SlotStates) (e : Exit),
      P ((p.lowerOps info ops).1 ++ lowerExit p.captures states e)) :
    ∀ lines ∈ p.blockLines, P lines := by
  intro lines h
  simp only [blockLines, lowerBlocks, List.map_map, List.mem_map, Function.comp_apply] at h
  obtain ⟨⟨block, b⟩, -, rfl⟩ := h
  dsimp only
  split
  · exact hlines _ _ _ _
  · exact hnil

theorem coherent_block (ops : List Op) (info : RegisterInfo) (states : SlotStates) (e : Exit) :
    Coherent ((p.lowerOps info ops).1 ++ lowerExit p.captures states e) :=
  (coherent_lowerOps ops info).append (coherent_lowerExit p.captures states e)

/-- **The lines of a procedure are coherent.** -/
theorem coherent_lines : Coherent p.lines :=
  (Coherent.of_isLone (isLone_captureAll _)).append
    (coherent_flatten (forall_blockLines coherent_nil coherent_block))

/-- A block that can be reached has lines, and control passes from the first of them on. -/
theorem exists_blockLines (hp : p.Valid) {b : Nat} (h : p.Reaches b) (hlt : b < p.blocks.length) :
    ∃ lines, p.blockLines[b]? = some lines ∧ lines ≠ [] ∧ Coherent lines := by
  obtain ⟨info, hinfo⟩ := (isSome_entryInfo_iff hp).mpr h
  refine ⟨_, getElem?_blockLines (List.getElem?_eq_getElem hlt) hinfo, ?_, coherent_block _ _ _ _⟩
  refine List.append_ne_nil_of_right_ne_nil _ (List.length_pos_iff.mp ?_)
  exact lowerExit_pos _ _ _

/-- **Control does not run out of the lines of a procedure.** -/
theorem closed_lines (hp : p.Valid) : Closed p.lines := by
  have hclosed : Closed p.blockLines.flatten := by
    refine closed_flatten (forall_blockLines closed_nil fun ops info states e => ?_)
    exact (closed_lowerExit p.captures states e).append_left
      (List.length_pos_iff.mp (lowerExit_pos _ _ _)) _
  obtain ⟨lines, hlines, hne, -⟩ := exists_blockLines hp Dataflow.Reaches.first hp.nonempty
  refine hclosed.append_left (fun hnil => hne ?_) p.prologue
  exact List.flatten_eq_nil_iff.mp hnil lines (List.mem_of_getElem? hlines)

end Procedure

/-! ### Points and resumption tables -/

namespace Assembly

theorem lt_of_mem_answerAddresses : ∀ {lines : List Line} {address x : Nat},
    x ∈ answerAddresses address lines → address < x
  | [], _, _, h => by cases h
  | line :: lines, address, x, h => by
    have hrest : x ∈ answerAddresses (address + 1) lines → address < x := fun hx =>
      Nat.lt_of_succ_lt (lt_of_mem_answerAddresses hx)
    cases line with
    | ask q =>
      rcases List.mem_cons.mp h with rfl | h
      · exact Nat.lt_succ_self address
      · exact hrest h
    | instr i => exact hrest h
    | jump b => exact hrest h
    | skipUnless c n => exact hrest h

/-- Answers are received in the order of their questions. -/
theorem pairwise_answerAddresses : ∀ (lines : List Line) (address : Nat),
    (answerAddresses address lines).Pairwise (· < ·)
  | [], _ => .nil
  | line :: lines, address => by
    have hrest := pairwise_answerAddresses lines (address + 1)
    cases line with
    | ask q => exact .cons (fun _ hx => lt_of_mem_answerAddresses hx) hrest
    | instr i => exact hrest
    | jump b => exact hrest
    | skipUnless c n => exact hrest

/-- **Points count the questions.** -/
theorem points_link (starts : List Nat) : ∀ {lines : List Line} (address point : Nat),
    (∀ line ∈ lines, line.IsPlain) →
    (link starts address point lines).filterMap Instr.point? =
      List.range' point (answerAddresses address lines).length
  | [], _, _, _ => rfl
  | line :: lines, address, point, h => by
    obtain ⟨hline, hlines⟩ := List.forall_mem_cons.mp h
    have hrest := points_link starts (address + 1) (nextPoint point line) hlines
    cases line with
    | instr i => exact (List.filterMap_cons_none hline).trans hrest
    | ask q =>
      have hask : (linkLine starts address point (.ask q)).point? = some point := rfl
      exact (List.filterMap_cons_some hask).trans (congrArg (point :: ·) hrest)
    | jump b => exact (List.filterMap_cons_none rfl).trans hrest
    | skipUnless c n => exact (List.filterMap_cons_none rfl).trans hrest

theorem exists_line_of_link {starts : List Nat} : ∀ {lines : List Line} {address point i : Nat}
    {instr : Instr}, (link starts address point lines)[i]? = some instr →
    ∃ line n, lines[i]? = some line ∧ instr = linkLine starts (address + i) n line
  | [], _, _, _, _, h => by cases h
  | line :: lines, address, point, 0, instr, h => by cases h; exact ⟨line, point, rfl, rfl⟩
  | line :: lines, address, point, i + 1, instr, h => by
    have h : (link starts (address + 1) (nextPoint point line) lines)[i]? = some instr := h
    obtain ⟨there, n, hthere, rfl⟩ := exists_line_of_link h
    exact ⟨there, n, hthere, by rw [Nat.add_right_comm]; rfl⟩

end Assembly

/-! ### Targets -/

namespace Checked

theorem le_of_mem_draft : ∀ {lines : List Line} {address point x : Nat},
    x ∈ (draft address point lines).2.map (·.1) → address ≤ x
  | [], _, _, _, h => by cases h
  | line :: lines, address, point, x, h => by
    have hrest : x ∈ (draft (address + 1) (Assembly.nextPoint point line) lines).2.map (·.1) →
        address ≤ x := fun hx => Nat.le_of_succ_le (le_of_mem_draft hx)
    cases line with
    | instr i => exact hrest h
    | ask q => exact hrest h
    | jump b =>
      rcases List.mem_cons.mp h with rfl | h
      · exact le_rfl
      · exact hrest h
    | skipUnless c n =>
      rcases List.mem_cons.mp h with rfl | h
      · exact le_rfl
      · exact hrest h

/-- No target is filled in twice. -/
theorem pairwise_draft : ∀ (lines : List Line) (address point : Nat),
    ((draft address point lines).2.map (·.1)).Pairwise (· < ·)
  | [], _, _ => .nil
  | line :: lines, address, point => by
    have hrest := pairwise_draft lines (address + 1) (Assembly.nextPoint point line)
    cases line with
    | instr i => exact hrest
    | ask q => exact hrest
    | jump b => exact .cons (fun _ hx => le_of_mem_draft hx) hrest
    | skipUnless c n => exact .cons (fun _ hx => le_of_mem_draft hx) hrest

/-- The targets of exactly those instructions are left open that have one in the end. -/
theorem mem_draft_iff (starts : List Nat) : ∀ {lines : List Line} (address point i : Nat),
    (∀ instr, .instr instr ∈ lines → instr.target? = none) →
    (address + i ∈ (draft address point lines).2.map (·.1) ↔
      ∃ instr t, (Assembly.link starts address point lines)[i]? = some instr ∧
        instr.target? = some t)
  | [], _, _, _, _ => by simp [draft, Assembly.link]
  | line :: lines, address, point, i, h => by
    have hrest := fun i => mem_draft_iff starts (address + 1) (Assembly.nextPoint point line) i
      fun instr hi => h instr (List.mem_cons_of_mem _ hi)
    have hbehind : address ∉ (draft (address + 1) (Assembly.nextPoint point line) lines).2.map (·.1) :=
      fun hx => Nat.lt_irrefl _ (le_of_mem_draft hx)
    cases i with
    | zero =>
      cases line with
      | instr instr =>
        refine iff_of_false hbehind ?_
        rintro ⟨i, t, hi, ht⟩
        cases hi
        cases (h instr List.mem_cons_self).symm.trans ht
      | ask q =>
        refine iff_of_false hbehind ?_
        rintro ⟨i, t, hi, ht⟩
        cases hi
        cases ht
      | jump b => exact iff_of_true List.mem_cons_self ⟨_, _, rfl, rfl⟩
      | skipUnless c n => exact iff_of_true List.mem_cons_self ⟨_, _, rfl, rfl⟩
    | succ i =>
      have hne : address + (i + 1) ≠ address := by omega
      rw [show address + (i + 1) = address + 1 + i by omega] at hne ⊢
      cases line with
      | instr instr => exact hrest i
      | ask q => exact hrest i
      | jump b => exact (List.mem_cons.trans (or_iff_right hne)).trans (hrest i)
      | skipUnless c n => exact (List.mem_cons.trans (or_iff_right hne)).trans (hrest i)

/-- What is left open is marked. -/
theorem target_draft : ∀ {lines : List Line} (address point : Nat),
    (∀ instr, .instr instr ∈ lines → instr.target? = none) →
    ∀ i ∈ (draft address point lines).1, i.target? = none ∨ i.target? = some unknown
  | [], _, _, _, _, hi => by cases hi
  | line :: lines, address, point, h, i, hi => by
    have hrest := target_draft (address + 1) (Assembly.nextPoint point line)
      (fun instr hmem => h instr (List.mem_cons_of_mem _ hmem)) i
    cases line with
    | instr instr =>
      rcases List.mem_cons.mp hi with rfl | hi
      · exact .inl (h i List.mem_cons_self)
      · exact hrest hi
    | ask q =>
      rcases List.mem_cons.mp hi with rfl | hi
      · exact .inl rfl
      · exact hrest hi
    | jump b =>
      rcases List.mem_cons.mp hi with rfl | hi
      · exact .inr rfl
      · exact hrest hi
    | skipUnless c n =>
      rcases List.mem_cons.mp hi with rfl | hi
      · exact .inr rfl
      · exact hrest hi

end Checked

end ResumableVM
