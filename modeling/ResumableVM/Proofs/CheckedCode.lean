import ResumableVM.Proofs.CheckedAnalyses
import ResumableVM.Proofs.Layout
import ResumableVM.Proofs.WellFormed

/-! # CheckedCode: the compiler finds what it looks up

Lines are found for the operations of every block that can be reached, and jumps lead only to such
blocks (`reaches_of_jump`), so the targets of all are filled in (`link_eq`). So the compiler that
checks every look-up does what the compiler does (`compile_eq`): on no procedure does it crash. -/

namespace ResumableVM.Checked

variable {p : Procedure} {states : SlotStates}

/-! ### Lines -/

theorem lowerArith_eq {info : RegisterInfo} {op : ArithOp} {dst : Nat} {a b : Operand}
    (h : ∀ r ∈ dst :: (a.registers ++ b.registers), r < info.states.length) :
    lowerArith info op dst a b = .ok (ResumableVM.lowerArith info op dst a b) := by
  have ha (r : Nat) (hr : r ∈ a.registers) : r < info.states.length := h r (by simp [hr])
  have hb (r : Nat) (hr : r ∈ b.registers) : r < info.states.length := h r (by simp [hr])
  rw [lowerArith, slot_eq (h dst List.mem_cons_self), operandType_eq ha, operandType_eq hb,
    source_eq ha, source_eq hb]
  simp only [bind, Except.bind, pure, Except.pure, ResumableVM.lowerArith]
  split <;> rfl

/-- **The lines of an operation are found** when it names only what exists. -/
theorem lowerOp_eq {info : RegisterInfo} (hinfo : p.Sized info) {op : Op} (hop : p.ValidOp op) :
    lowerOp p info (p.captureFlow info.states op) op = .ok (p.lowerOp info op) := by
  have hregisters (r : Nat) (hr : r ∈ op.registers) : r < info.states.length :=
    hinfo.states ▸ hop.registers r hr
  have hslot (r : Nat) (hr : r ∈ op.registers) : slot info.states r = .ok (info.states.slot r) :=
    slot_eq (hregisters r hr)
  have hsource (o : Operand) (ho : ∀ r ∈ o.registers, r ∈ op.registers) :
      source info.states o = .ok (info.states.source o) :=
    source_eq fun r hr => hregisters r (ho r hr)
  cases op with
  | move dst src =>
    rw [lowerOp, hslot dst (by simp [Op.registers]), hslot src (by simp [Op.registers])]
    rfl
  | load dst value =>
    rw [lowerOp, hslot dst (by simp [Op.registers])]
    rfl
  | getUpvalue dst i =>
    rw [lowerOp, hslot dst (by simp [Op.registers])]
    rfl
  | setUpvalue i src =>
    rw [lowerOp, hsource src (by simp [Op.registers])]
    rfl
  | newTable dst =>
    rw [lowerOp, hslot dst (by simp [Op.registers])]
    rfl
  | index dst table key =>
    rw [lowerOp, hsource table (by simp +contextual [Op.registers]),
      hsource key (by simp +contextual [Op.registers]), hslot dst (by simp [Op.registers])]
    rfl
  | setIndex table key value =>
    rw [lowerOp, hslot table (by simp [Op.registers]),
      hsource key (by simp +contextual [Op.registers]),
      hsource value (by simp +contextual [Op.registers])]
    rfl
  | arith dst op a b => exact lowerArith_eq hregisters
  | unary dst op src =>
    cases op with
    | negate => exact lowerArith_eq (by simpa [Op.registers] using hregisters)
    | _ =>
      rw [lowerOp, hsource src (by simp +contextual [Op.registers]),
        hslot dst (by simp [Op.registers])]
      rfl
  | compare dst op a b =>
    rw [lowerOp, hslot dst (by simp [Op.registers]), hsource a (by simp +contextual [Op.registers]),
      hsource b (by simp +contextual [Op.registers])]
    rfl
  | call target args results =>
    rw [lowerOp, hslot target (by simp [Op.registers]),
      sources_eq fun r hr => hregisters r (by simp [Op.registers, hr]),
      receiver_eq fun r hr => hregisters r (by simp [Op.registers, hr])]
    rfl
  | closure dst proto =>
    have hcaptured (r : Nat) (hr : r ∈ p.capturedBy proto) : r < info.states.length :=
      hinfo.states ▸ hop.capturedBy_lt r hr
    have hdst : dst < (p.captureFlow info.states (.closure dst proto)).length := by
      rw [Procedure.length_captureFlow]
      exact hregisters dst (by simp [Op.registers])
    rw [lowerOp, capturedBy_eq hop]
    simp only [bind, Except.bind, inState_eq .plain hcaptured, slot_eq hdst]
    rfl
  | close rs =>
    have hclosed (r : Nat) (hr : r ∈ rs) : r < info.states.length := hregisters r hr
    rw [lowerOp, inState_eq .captured hclosed]
    rfl
  | vararg results =>
    rw [lowerOp, receiver_eq hregisters]
    rfl

/-- The lines of the operations of a block. -/
theorem lowerOps_eq (hp : p.Valid) {b : Nat} {block : Block} : ∀ {ops : List Op} {i : Nat}
    {info : RegisterInfo}, At p b block i info ops →
    lowerOps p (arenaOf p) b i info.types ops =
      .ok ((p.lowerOps info ops).1, (p.lowerOps info ops).2.types)
  | [], _, _, _ => rfl
  | op :: ops, i, info, h => by
    have hop := h.validOp hp
    have hflow := typeFlow_eq h.sized hop
    rw [lowerOps, h.statesAt hp, h.next.statesAt hp]
    simp only [bind, Except.bind, Procedure.typeFlow_states, lowerOp_eq h.sized hop, hflow,
      lowerOps_eq hp h.next]
    rfl

/-- The lines of the edge to a block that can be reached. -/
theorem lowerEdge_eq (hp : p.Valid) {target : Nat} (ht : p.Reaches target)
    (hlt : target < p.blocks.length) (states : SlotStates) :
    lowerEdge (arenaOf p) states target =
      .ok (Procedure.lowerEdge p.captures states target) := by
  obtain ⟨expected, he⟩ := (Procedure.isSome_entryStates_iff hp).mpr ht
  have hentry : p.captures[target]?.join = some expected := he
  have hat := statesAt_eq hp (List.getElem?_eq_getElem hlt) (Nat.zero_le _) he
  rw [lowerEdge, hat, Procedure.lowerEdge, hentry]
  rfl

/-- **The lines of an exit are found** when the blocks that it leads to can be reached. -/
theorem lowerExit_eq (hp : p.Valid) {e : Exit} (he : p.ValidExit e)
    (hreaches : ∀ t ∈ e.successors, p.Reaches t) (hlen : states.length = p.registers) :
    lowerExit (arenaOf p) states e = .ok (Procedure.lowerExit p.captures states e) := by
  have hregisters (r : Nat) (hr : r ∈ e.registers) : r < states.length :=
    hlen ▸ he.registers r hr
  have hedge {t : Nat} (ht : t ∈ e.successors) := lowerEdge_eq hp (hreaches t ht)
    (he.successors t ht) states
  cases e with
  | jump target => exact hedge (List.mem_singleton_self target)
  | branch cond ifTrue ifFalse =>
    rw [lowerExit, slot_eq (hregisters cond (List.mem_singleton_self cond)),
      hedge (t := ifTrue) (by simp [Exit.successors]),
      hedge (t := ifFalse) (by simp [Exit.successors])]
    rfl
  | ret args =>
    rw [lowerExit, sources_eq hregisters]
    rfl
  | tailCall target args =>
    rw [lowerExit, slot_eq (hregisters target List.mem_cons_self),
      sources_eq fun r hr => hregisters r (List.mem_cons_of_mem _ hr)]
    rfl

theorem returnShape?_eq {info : RegisterInfo} {e : Exit}
    (h : ∀ r ∈ e.registers, r < info.states.length) :
    returnShape? info e = .ok (Procedure.returnShape? info e) := by
  cases e with
  | ret args =>
    have hall : args.fixed.mapM (operandType info) = .ok (args.fixed.map info.operandType) :=
      mapM_eq_ok fun o ho => operandType_eq fun r hr => h r (List.mem_flatMap.mpr ⟨o, ho, hr⟩)
    rw [returnShape?, hall]
    rfl
  | _ => rfl

/-- The lines of a block, if it can be reached. -/
def laidOut (p : Procedure) (block : Block × Nat) : Option (List Line × Option TypeSeq) :=
  (p.entryInfo block.2).map fun info => p.lowerBlock p.captures info block.1

/-- **The lines of a block are found**, whether it can be reached or not. -/
theorem lowerBlock_eq (hp : p.Valid) {block : Block × Nat} (hmem : block ∈ p.blocks.zipIdx) :
    lowerBlock p (arenaOf p) (p.registerTypes p.captures) block = .ok (laidOut p block) := by
  obtain ⟨block, b⟩ := block
  have hb : p.blocks[b]? = some block := List.mem_zipIdx_iff_getElem?.mp hmem
  have hexit := hp.exit block (List.mem_of_getElem? hb)
  cases hinfo : p.entryInfo b with
  | none =>
    -- The analyses agree: without types on entry the block has no points in the arena.
    have hstates : p.entryStates b = none := by
      rw [Option.eq_none_iff_forall_ne_some]
      intro states hstates
      obtain ⟨info, hinfo'⟩ := (Procedure.isSome_entryInfo_iff hp).mpr
        ((Procedure.isSome_entryStates_iff hp).mp ⟨states, hstates⟩)
      rw [hinfo] at hinfo'
      cases hinfo'
    have hunreachable : (arenaOf p).isReachable b = false := by
      rw [isReachable_eq hb, hstates]
      rfl
    simp only [lowerBlock, hunreachable, laidOut, hinfo, Bool.false_eq_true, if_false,
      Option.map_none]
  | some info =>
    obtain ⟨hstates, htypes⟩ := Procedure.entryInfo_eq_some.mp hinfo
    have hsized := Procedure.sized_entryInfo hp hinfo
    have hreachable : (arenaOf p).isReachable b = true := by
      rw [isReachable_eq hb, hstates]
      rfl
    have hknown : typesAt (p.registerTypes p.captures) b = .ok info.types := by
      rw [typesAt, show (p.registerTypes p.captures)[b]? = _ from
        Procedure.entryTypes_eq_some.mp htypes]
    have hfirst : At p b block 0 info block.ops := .first hp hb hstates hsized.types
    have hlen : (p.typeFlowAll info block.ops).states.length = p.registers :=
      (hsized.typeFlowAll block.ops).states
    have hstatesAlong := Procedure.typeFlowAll_states (p := p) block.ops info
    obtain ⟨final, hfinal⟩ : ∃ final, p.typeFlowAll info block.ops = final := ⟨_, rfl⟩
    rw [hfinal] at hlen hstatesAlong
    have hlast : (arenaOf p).statesAt b block.ops.length = .ok final.states := by
      rw [statesAt_eq hp hb le_rfl hstates, List.take_length, hstatesAlong]
    have hshape : returnShape? final block.exit = .ok (Procedure.returnShape? final block.exit) :=
      returnShape?_eq fun r hr => hlen ▸ hexit.registers r hr
    have hreaches (t : Nat) (ht : t ∈ block.exit.successors) : p.Reaches t := by
      refine ((Procedure.isSome_entryInfo_iff hp).mp ⟨info, hinfo⟩).next ?_
      rw [Procedure.successorsOf, hb]
      exact ht
    simp only [lowerBlock, hreachable, if_true, hknown, bind, Except.bind, lowerOps_eq hp hfirst,
      hlast, Procedure.lowerOps_snd, hfinal, lowerExit_eq hp hexit hreaches hlen]
    rw [show (⟨final.states, final.types⟩ : RegisterInfo) = final from rfl, hshape]
    simp only [pure, Except.pure, laidOut, hinfo, Option.map_some, Procedure.lowerBlock,
      Procedure.lowerOps_snd, hfinal]

/-- The states of the entry are in the arena. -/
theorem prologue_eq (hp : p.Valid) : prologue p (arenaOf p) = .ok p.prologue := by
  obtain ⟨entry, he⟩ := (Procedure.isSome_entryStates_iff hp).mpr
    (Dataflow.Reaches.first : p.Reaches 0)
  have hentry : p.captures[0]?.join = some entry := he
  have hat := statesAt_eq hp (List.getElem?_eq_getElem hp.nonempty) (Nat.zero_le _) he
  rw [prologue, hat, Procedure.prologue, hentry]
  rfl

/-! ### Code -/

/-- A block that is laid out has its lines, the others have none. -/
theorem map_laidOut :
    (p.blocks.zipIdx.map (laidOut p)).map (·.getD ([], none)) = p.lowerBlocks := by
  rw [List.map_map]
  refine List.map_congr_left fun ⟨block, b⟩ _ => ?_
  simp only [Function.comp_apply, laidOut, Procedure.entryInfo, Procedure.entryStates,
    Procedure.entryTypes]
  cases p.captures[b]?.join <;> cases (p.registerTypes p.captures)[b]?.join <;> rfl

/-- The line is no jump. -/
def IsStraight : Line → Prop
  | .jump _ => False
  | _ => True

theorem isStraight_captureAll (rs : List Nat) : ∀ line ∈ Line.captureAll rs, IsStraight line := by
  rintro line h
  obtain ⟨r, -, rfl⟩ := List.mem_map.mp h
  trivial

theorem isStraight_askInto (q : Question) (receiver : Receiver) :
    ∀ line ∈ Line.askInto q receiver, IsStraight line := by
  simp [Line.askInto, IsStraight]

theorem isStraight_lowerArith (info : RegisterInfo) (op : ArithOp) (dst : Nat) (a b : Operand) :
    ∀ line ∈ ResumableVM.lowerArith info op dst a b, IsStraight line := by
  unfold ResumableVM.lowerArith
  split
  · simp [IsStraight]
  · exact isStraight_askInto _ _

/-- No operation becomes a jump. -/
theorem isStraight_lowerOp (info : RegisterInfo) (op : Op) :
    ∀ line ∈ p.lowerOp info op, IsStraight line := by
  intro line h
  cases op with
  | arith dst op a b => exact isStraight_lowerArith info op dst a b line h
  | unary dst op src =>
    cases op with
    | negate => exact isStraight_lowerArith info .negate dst src src line h
    | not => exact List.mem_singleton.mp h ▸ trivial
    | length => exact isStraight_askInto _ _ line h
  | index | call => exact isStraight_askInto _ _ line h
  | closure dst proto =>
    rcases List.mem_append.mp h with h | h
    · exact isStraight_captureAll _ line h
    · exact List.mem_singleton.mp h ▸ trivial
  | close rs =>
    obtain ⟨r, -, rfl⟩ := List.mem_map.mp h
    trivial
  | _ => exact List.mem_singleton.mp h ▸ trivial

theorem isStraight_lowerOps : ∀ (ops : List Op) (info : RegisterInfo),
    ∀ line ∈ (p.lowerOps info ops).1, IsStraight line
  | [], _, _, h => by cases h
  | op :: ops, info, line, h => by
    rcases List.mem_append.mp h with h | h
    · exact isStraight_lowerOp info op line h
    · exact isStraight_lowerOps ops _ line h

theorem eq_of_jump_mem_lowerEdge {captures : Dataflow.Entries SlotStates} {target t : Nat}
    (h : .jump t ∈ Procedure.lowerEdge captures states target) : t = target := by
  rcases List.mem_append.mp h with h | h
  · exact (isStraight_captureAll _ _ h).elim
  · exact Line.jump.inj (List.mem_singleton.mp h)

/-- The jumps of an exit lead to its successors. -/
theorem mem_successors_of_jump {captures : Dataflow.Entries SlotStates} {e : Exit} {t : Nat}
    (h : .jump t ∈ Procedure.lowerExit captures states e) : t ∈ e.successors := by
  cases e with
  | jump target => exact List.mem_singleton.mpr (eq_of_jump_mem_lowerEdge h)
  | branch cond ifTrue ifFalse =>
    rcases List.mem_cons.mp h with h | h
    · cases h
    · rcases List.mem_append.mp h with h | h
      · simp [Exit.successors, eq_of_jump_mem_lowerEdge h]
      · simp [Exit.successors, eq_of_jump_mem_lowerEdge h]
  | ret args => cases List.mem_singleton.mp h
  | tailCall target args => cases List.mem_singleton.mp h

/-- **The jumps of a procedure lead to blocks that can be reached.** -/
theorem reaches_of_jump (hp : p.Valid) {t : Nat} (h : .jump t ∈ p.lines) :
    p.Reaches t ∧ t < p.blocks.length := by
  rcases List.mem_append.mp h with h | h
  · exact (isStraight_captureAll _ _ h).elim
  · obtain ⟨lines, hlines, hjump⟩ := List.mem_flatten.mp h
    rw [Procedure.blockLines, ← map_laidOut, List.map_map, List.map_map] at hlines
    obtain ⟨⟨block, b⟩, hmem, rfl⟩ := List.mem_map.mp hlines
    have hb : p.blocks[b]? = some block := List.mem_zipIdx_iff_getElem?.mp hmem
    cases hinfo : p.entryInfo b with
    | none => simp [laidOut, hinfo] at hjump
    | some info =>
      simp only [Function.comp_apply, laidOut, hinfo, Option.map_some, Option.getD_some] at hjump
      rcases List.mem_append.mp hjump with hjump | hjump
      · exact (isStraight_lowerOps _ _ _ hjump).elim
      · have ht := mem_successors_of_jump hjump
        refine ⟨((Procedure.isSome_entryInfo_iff hp).mp ⟨info, hinfo⟩).next ?_,
          (hp.exit block (List.mem_of_getElem? hb)).successors t ht⟩
        rw [Procedure.successorsOf, hb]
        exact ht

/-- The addresses of the blocks that are laid out. -/
def addresses (p : Procedure) : List (Option Nat) :=
  (p.blocks.zipIdx.map (laidOut p)).zipWith (fun block start => block.map fun _ => start) p.starts

theorem getElem?_addresses (hp : p.Valid) {t : Nat} (h : p.Reaches t) (hlt : t < p.blocks.length) :
    (addresses p)[t]? = some (some (p.startOf t)) := by
  obtain ⟨info, hinfo⟩ := (Procedure.isSome_entryInfo_iff hp).mpr h
  have hlaidOut : (p.blocks.zipIdx.map (laidOut p))[t]? =
      some (some (p.lowerBlock p.captures info p.blocks[t])) := by
    simp [hlt, laidOut, hinfo]
  rw [addresses, List.getElem?_zipWith, hlaidOut, Procedure.getElem?_starts hlt]
  rfl

/-- A target is filled in where the instruction stands that was left open. -/
theorem patch_append {starts : List (Option Nat)} {target : Target} {n : Nat}
    (h : resolve starts target = .ok n) (before : List Instr) (i : Instr) (after : List Instr) :
    patch starts (before ++ i :: after) (before.length, target) =
      .ok (before ++ withTarget n i :: after) := by
  have hhere : (before ++ i :: after)[before.length]? = some i := by simp
  simp only [patch, h, hhere, bind, Except.bind, pure, Except.pure]
  simp

/-- **All targets are filled in.** The induction is on the lines, behind the instructions that are
done. -/
theorem foldlM_patch_draft {addresses : List (Option Nat)} {starts : List Nat} :
    ∀ {lines : List Line} (point : Nat) (done : List Instr),
    (∀ t, .jump t ∈ lines → addresses[t]? = some (some (starts[t]?.getD 0))) →
    (draft done.length point lines).2.foldlM (patch addresses)
        (done ++ (draft done.length point lines).1) =
      .ok (done ++ Assembly.link starts done.length point lines)
  | [], _, _, _ => rfl
  | line :: lines, point, done, h => by
    have hrest := foldlM_patch_draft (Assembly.nextPoint point line)
      (done ++ [Assembly.linkLine starts done.length point line])
      fun t ht => h t (List.mem_cons_of_mem line ht)
    simp only [List.length_append, List.length_singleton, List.append_assoc,
      List.singleton_append] at hrest
    cases line with
    | instr i => exact hrest
    | ask question => exact hrest
    | jump t =>
      have htarget : resolve addresses (.block t) = .ok (starts[t]?.getD 0) := by
        rw [resolve, h t List.mem_cons_self]
      simp only [draft, List.foldlM_cons, patch_append htarget, bind,
        Except.bind]
      exact hrest
    | skipUnless cond count =>
      have htarget : resolve addresses (.address (done.length + 1 + count)) = .ok _ := rfl
      simp only [draft, List.foldlM_cons, patch_append htarget, bind,
        Except.bind]
      exact hrest

theorem link_eq {addresses : List (Option Nat)} {starts : List Nat} {lines : List Line}
    (h : ∀ t, .jump t ∈ lines → addresses[t]? = some (some (starts[t]?.getD 0))) :
    link addresses lines = .ok (Assembly.link starts 0 1 lines) :=
  foldlM_patch_draft 1 [] h

/-- **Code is assembled without a crash** from a procedure that keeps the rules. -/
theorem assemble_eq (hp : p.Valid) (codes : List Code) :
    assemble p codes = .ok (p.assemble codes) := by
  have hlaidOut : p.blocks.zipIdx.mapM (lowerBlock p (arenaOf p) (p.registerTypes p.captures)) =
      .ok (p.blocks.zipIdx.map (laidOut p)) := mapM_eq_ok fun _ hmem => lowerBlock_eq hp hmem
  have hlink : link (addresses p) p.lines = .ok (Assembly.link p.starts 0 1 p.lines) := by
    refine link_eq fun t ht => ?_
    obtain ⟨hreaches, hlt⟩ := reaches_of_jump hp ht
    exact getElem?_addresses hp hreaches hlt
  simp only [addresses, Procedure.lines, Procedure.starts, Procedure.blockLines] at hlink
  simp only [assemble, captures_eq hp, arena_eq hp, registerTypes_eq hp, prologue_eq hp, hlaidOut,
    map_laidOut, bind, Except.bind, hlink]
  rfl

/-- Code of procedures that break the rules is not assembled without a crash: here the block that is
jumped to and the register that is read do not exist. -/
example : assemble ⟨"f", 0, false, 0, [], [⟨[], .jump 1⟩], []⟩ [] = .error (.noBlock 1) ∧
    assemble ⟨"f", 0, false, 1, [], [⟨[.move 0 1], .ret ⟨[], false⟩⟩], []⟩ [] =
      .error (.noRegister 1) := ⟨rfl, rfl⟩

/-! ### Compilation -/

theorem compile_unfolded (p : Procedure) : compile p =
    (match p.check with
    | .error e => .ok (.error e)
    | .ok () => do
      match ← compileAll p.nested with
      | .error e => pure (.error e)
      | .ok codes => .ok <$> assemble p codes) := by
  cases p
  unfold compile
  rfl

theorem compileAll_eq : ∀ {ps : List Procedure}, (∀ p ∈ ps, compile p = .ok p.compile) →
    compileAll ps = .ok (Procedure.compileAll ps)
  | [], _ => by
    rw [compileAll, Procedure.compileAll]
    rfl
  | p :: ps, h => by
    obtain ⟨hp, hps⟩ := List.forall_mem_cons.mp h
    simp only [compileAll, Procedure.compileAll, hp, compileAll_eq hps, bind, Except.bind]
    cases p.compile with
    | error e => rfl
    | ok code => cases Procedure.compileAll ps <;> rfl

/-- **The compiler does not crash**, on any procedure: it finds whatever it looks up. The induction
is on the nesting. -/
theorem compile_eq (p : Procedure) : compile p = .ok p.compile := by
  have hnested : compileAll p.nested = .ok (Procedure.compileAll p.nested) := by
    refine compileAll_eq fun n hn => ?_
    have := Procedure.sizeOf_lt_of_mem_nested hn
    exact compile_eq n
  rw [compile_unfolded, Procedure.compile_eq]
  cases hcheck : p.check with
  | error e => rfl
  | ok =>
    have hp := Procedure.check_eq_ok_iff.mp hcheck
    simp only [hnested, bind, Except.bind]
    cases Procedure.compileAll p.nested with
    | error e => rfl
    | ok codes =>
      simp only [assemble_eq hp codes]
      rfl
termination_by sizeOf p

/-- **Exactly the well-formed procedures are compiled, and nothing makes the compiler crash.**

A procedure is compiled when it and all that are nested in it keep the rules. Whether it does or
not, the compiler that checks every look-up does what the compiler does. Where the rules are kept,
the two analyses have entries for the same blocks, those that can be reached, and neither crashes,
in whatever order blocks are visited. -/
theorem compiles_exactly_wellFormed (p : Procedure) :
    ((∃ code, p.compile = .ok code) ↔ p.WellFormed) ∧
    Checked.compile p = .ok p.compile ∧
    (p.Rules →
      (∀ b : Nat, ((∃ states, p.entryStates b = some states) ↔ p.Reaches b) ∧
        ((∃ types, p.entryTypes b = some types) ↔ p.Reaches b)) ∧
      ∃ a, arena p p.captures = .ok a ∧ ∀ order : List Nat, (∀ b ∈ order, b < p.blocks.length) →
        order.foldlM (propagate p.captureAnalysis (statesThrough p)) p.captureAnalysis.initial =
          .ok (order.foldl p.captureAnalysis.propagate p.captureAnalysis.initial) ∧
        order.foldlM (propagate (p.typeAnalysis p.captures) (typesThrough p a))
            (p.typeAnalysis p.captures).initial =
          .ok (order.foldl (p.typeAnalysis p.captures).propagate
            (p.typeAnalysis p.captures).initial)) := by
  refine ⟨Procedure.isCompiled_iff p, compile_eq p, fun hrules => ?_⟩
  have hp := Procedure.rules_iff_valid.mp hrules
  have hcaptures := safe_captureAnalysis hp
  have htypes := safe_typeAnalysis hp
  refine ⟨fun b => ⟨Procedure.isSome_entryStates_iff hp, Procedure.isSome_entryTypes_iff hp⟩,
    arenaOf p, arena_eq hp, fun order horder => ⟨?_, ?_⟩⟩
  · refine (hcaptures.visits_eq (fun b hb => ?_) hcaptures.initial).1
    rw [Procedure.size_captureAnalysis]
    exact horder b hb
  · refine (htypes.visits_eq (fun b hb => ?_) htypes.initial).1
    rw [Procedure.size_typeAnalysis]
    exact horder b hb

end ResumableVM.Checked
