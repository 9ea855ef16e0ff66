import ResumableVM.Proofs.Addresses
import ResumableVM.Proofs.TypedRegisters

/-! # StaticTypes: the types that the analysis finds are those of the values

`Activation.Reached` runs one call with any callees: whoever answers a question may have changed the
store in any way, and may have suspended. In all states that are reached, the registers in place
have values of the types that the analysis gives for the operation (`typed_of_reached`), so that
arithmetic that was compiled without a question finds numbers (`Typed.computesRaw`). -/

namespace ResumableVM

/-! ### Arithmetic without a question -/

namespace Procedure

variable {p : Procedure} {info : RegisterInfo} {op : Op} {aop : ArithOp} {dst : SlotRef}
  {x y : Source}

theorem arithRaw_of_mem_lowerArith {d : Nat} {u v : Operand} {bop : ArithOp}
    (h : Line.instr (.arithRaw aop dst x y) ∈ lowerArith info bop d u v) :
    lowerArith info bop d u v = [.instr (.arithRaw aop dst x y)] ∧
      (info.operandType u).isNumeric = true ∧ (info.operandType v).isNumeric = true ∧
      dst = info.states.slot d ∧ x = info.states.source u ∧ y = info.states.source v := by
  unfold lowerArith at h ⊢
  split at h
  · next hnum =>
    rw [Bool.and_eq_true] at hnum
    rw [if_pos (by rw [Bool.and_eq_true]; exact hnum)]
    simp only [List.mem_singleton, Line.instr.injEq, Instr.arithRaw.injEq] at h
    obtain ⟨rfl, rfl, rfl, rfl⟩ := h
    exact ⟨rfl, hnum.1, hnum.2, rfl, rfl, rfl⟩
  · simp [Line.askInto] at h

/-- Arithmetic without a question stands alone, and its operands are known to be numbers. -/
theorem arithRaw_of_mem_lowerOp (hop : p.ValidOp op)
    (h : Line.instr (.arithRaw aop dst x y) ∈ p.lowerOp info op) :
    ∃ (d : Nat) (u v : Operand), p.lowerOp info op = [.instr (.arithRaw aop dst x y)] ∧
      (info.operandType u).isNumeric = true ∧ (info.operandType v).isNumeric = true ∧
      dst = info.states.slot d ∧ x = info.states.source u ∧ y = info.states.source v ∧
      d < p.registers ∧ (∀ r ∈ u.registers, r < p.registers) ∧
      (∀ r ∈ v.registers, r < p.registers) := by
  have hreg := hop.registers
  cases op with
  | arith d bop u v =>
    simp only [Op.registers, List.forall_mem_cons, List.forall_mem_append] at hreg
    obtain ⟨h1, h2, h3, h4, h5, h6⟩ := arithRaw_of_mem_lowerArith h
    exact ⟨d, u, v, h1, h2, h3, h4, h5, h6, hreg.1, hreg.2.1, hreg.2.2⟩
  | unary d bop u =>
    simp only [Op.registers, List.forall_mem_cons] at hreg
    cases bop with
    | negate =>
      obtain ⟨h1, h2, h3, h4, h5, h6⟩ := arithRaw_of_mem_lowerArith h
      exact ⟨d, u, u, h1, h2, h3, h4, h5, h6, hreg.1, hreg.2, hreg.2⟩
    | _ => simp [lowerOp, Line.askInto] at h
  | closure d proto => simp [lowerOp, Line.captureAll] at h
  | close rs => simp [lowerOp] at h
  | _ => simp [lowerOp, Line.askInto] at h

theorem not_arithRaw_lowerEdge {captures : Dataflow.Entries SlotStates} {states : SlotStates}
    {b : Nat} : Line.instr (.arithRaw aop dst x y) ∉ lowerEdge captures states b := by
  simp [lowerEdge, Line.captureAll]

theorem not_arithRaw_lowerExit {captures : Dataflow.Entries SlotStates} {states : SlotStates}
    {e : Exit} : Line.instr (.arithRaw aop dst x y) ∉ lowerExit captures states e := by
  cases e with
  | jump b => exact not_arithRaw_lowerEdge
  | branch cond b c =>
    simp only [lowerExit, List.cons_append, List.mem_cons, reduceCtorEq, List.mem_append, false_or]
    rintro (h | h)
    · exact not_arithRaw_lowerEdge h
    · exact not_arithRaw_lowerEdge h
  | _ => simp [lowerExit]

end Procedure

/-- Where arithmetic without a question is placed, it is the line. -/
theorem Code.Holds.mem_of_arithRaw {code : Code} {starts : List Nat} {pc lo : Nat}
    {lines : List Line} {aop : ArithOp} {dst : SlotRef} {x y : Source}
    (hl : code.Holds starts lo lines) (hlo : lo ≤ pc) (hhi : pc < lo + lines.length)
    (h : code.instrs[pc]? = some (.arithRaw aop dst x y)) :
    lines[pc - lo]? = some (.instr (.arithRaw aop dst x y)) := by
  have hlt : pc - lo < lines.length := by omega
  have hget := List.getElem?_eq_getElem hlt
  have hplaced := hl.get hget
  rw [show lo + (pc - lo) = pc by omega] at hplaced
  rw [hget]
  cases hline : lines[pc - lo] with
  | instr i =>
    rw [hline] at hplaced
    rw [Option.some.inj (hplaced.symm.trans h)]
  | ask q =>
    rw [hline] at hplaced
    obtain ⟨point, hi, -⟩ := hplaced
    cases hi.symm.trans h
  | jump b => rw [hline] at hplaced; cases hplaced.symm.trans h
  | skipUnless cond n => rw [hline] at hplaced; cases hplaced.symm.trans h

namespace Activation

/-! ### Runs with any callees -/

/-- The states that a call of a closure can reach, with what the result channel holds there. -/
inductive Reached (limit : Nat) (closure : Closure) (args : List Value) :
    Activation → Store → List Value → Prop
  | start (st : Store) (received : List Value) :
      Reached limit closure args (start closure args) st received
  | runs {a a' : Activation} {st st' : Store} {received : List Value}
      (h : Reached limit closure args a st received)
      (hadv : a.advance st received = .ok (st', .runs a')) :
      Reached limit closure args a' st' received
  /-- A question is answered, after any number of suspensions. -/
  | answered {a a' a'' : Activation} {st st' st'' : Store} {received vs : List Value}
      {q : Request} (h : Reached limit closure args a st received)
      (hadv : a.advance st received = .ok (st', .asks a' q))
      (hans : q.Answers limit st' st'' vs) (hgo : a'.GoesOn a'') :
      Reached limit closure args a'' st'' vs

/-- Inside the lines of an operation: no operation begins there, and there is no arithmetic without
a question. -/
structure Between (p : Procedure) (closure : Closure) (a : Activation) : Prop where
  closure : a.closure = closure
  noOp : ∀ (b i : Nat) (info : RegisterInfo), p.infoAt b i = some info → a.pc ≠ p.opAddress b i
  noRaw : ∀ (op : ArithOp) (dst : SlotRef) (x y : Source),
    a.closure.code.instrs[a.pc]? ≠ some (.arithRaw op dst x y)

/-- What progress an activation with typed registers makes. -/
inductive Sound (p : Procedure) (codes : List Code) (closure : Closure) :
    Store → Progress Activation → Prop
  | runs {a : Activation} {st : Store} {b i : Nat} {info : RegisterInfo}
      (stands : a.StandsAt p codes b i info) (same : a.closure = closure)
      (fits : info.types.Fits a.frame.window) : Sound p codes closure st (.runs a)
  | asks {a : Activation} {st : Store} {b i : Nat} {info : RegisterInfo} {op : Op}
      {request : Request} {results : Results} (waits : a.Waits p codes b i info op results)
      (same : a.closure = closure) (fits : info.types.Fits a.frame.window)
      (perform : (a.closure.setting p codes).perform a.frame.scope st op = .asks request results) :
      Sound p codes closure st (.asks a request)
  | returns {st : Store} {vs : List Value} : Sound p codes closure st (.returns vs)
  | tailCalls {st : Store} {target : Value} {args : List Value} :
      Sound p codes closure st (.tailCalls target args)
  | fails {st : Store} {e : Error} : Sound p codes closure st (.fails e)

/-- The invariant of a call. -/
inductive Typed (p : Procedure) (codes : List Code) (closure : Closure) (a : Activation)
    (st : Store) (received : List Value) : Prop
  | stands {b i : Nat} {info : RegisterInfo} (h : a.StandsAt p codes b i info)
      (same : a.closure = closure) (fits : info.types.Fits a.frame.window)
  | between (h : a.Between p closure)
      (leads : Leads received (Between p closure) (Sound p codes closure) a st)
  /-- The answer that is received next keeps the types. -/
  | receives {b i : Nat} {info : RegisterInfo} {op : Op} {results : Results}
      (waits : a.Waits p codes b i info op results) (same : a.closure = closure)
      (fits : (p.typeFlow info op).types.Fits (a.frame.scope.receive st results received).1.file)

variable {p : Procedure} {codes : List Code} {closure : Closure} {a : Activation} {st : Store}
  {received : List Value} {b i : Nat} {info : RegisterInfo}

/-- Inside the lines of an operation. -/
theorem between_of_within_op (himp : closure.Implements p codes) {op : Op}
    (h : p.infoAt b i = some info) (ho : (p.opsOf b)[i]? = some op)
    (hw : Within closure (p.opAddress b i) (p.opAddress b (i + 1)) a) : a.Between p closure := by
  have hp := himp.valid
  have hlo := hw.lt
  have hhi := hw.pc_lt
  refine ⟨hw.closure, fun c j there hc heq => ?_, fun aop dst x y hraw => ?_⟩
  · have := Procedure.opAddress_not_between hp h ho hc (by omega)
    omega
  · rw [hw.closure, himp.code] at hraw
    rw [Procedure.opAddress_succ h ho] at hhi
    have hget := (@Procedure.holds_op p codes b i info hp op h ho).mem_of_arithRaw hlo.le hhi hraw
    obtain ⟨d, u, v, hsingle, -⟩ := Procedure.arithRaw_of_mem_lowerOp
      (Procedure.validOp_of_getElem? hp ho) (List.mem_of_getElem? hget)
    rw [hsingle, List.length_singleton] at hhi
    omega

/-- Inside the lines of an exit. -/
theorem between_of_within_exit (himp : closure.Implements p codes) {block : Block}
    (hb : p.blocks[b]? = some block) (h : p.infoAt b i = some info) (hi : block.ops.length ≤ i)
    (hw : Within closure (p.opAddress b i)
      (p.opAddress b i + (Procedure.lowerExit p.captures info.states block.exit).length) a) :
    a.Between p closure := by
  have hp := himp.valid
  have hlo := hw.lt
  have hhi := hw.pc_lt
  refine ⟨hw.closure, fun c j there hc heq => ?_, fun aop dst x y hraw => ?_⟩
  · have h1 := Procedure.opAddress_not_in_exit hp hb h hi hc (by omega)
    have h2 := Procedure.opAddress_add_exit hb h hi
    omega
  · rw [hw.closure, himp.code] at hraw
    exact Procedure.not_arithRaw_lowerExit (List.mem_of_getElem?
      ((@Procedure.holds_exit p codes b i info block hb h hi).mem_of_arithRaw hlo.le hhi hraw))

/-- Inside the lines before the first block, or at their first. -/
theorem between_of_lt_startOf (himp : closure.Implements p codes) (hsame : a.closure = closure)
    (hlt : a.pc < p.startOf 0) : a.Between p closure := by
  have hp := himp.valid
  refine ⟨hsame, fun c j there hc heq => ?_, fun aop dst x y hraw => ?_⟩
  · have := Procedure.startOf_zero_le_opAddress hp hc
    omega
  · rw [hsame, himp.code] at hraw
    rw [Procedure.startOf_zero hp.nonempty] at hlt
    have hget := (@Procedure.holds_prologue p codes).mem_of_arithRaw (Nat.zero_le _)
      (by omega) hraw
    have hmem := List.mem_of_getElem? hget
    simp [Procedure.prologue, Line.captureAll] at hmem

/-- What an operation comes to is sound. -/
theorem sound_of_comes {op : Op} {st' : Store} {pr : Progress Activation}
    (h : a.StandsAt p codes b i info) (hsame : a.closure = closure)
    (hfits : info.types.Fits a.frame.window) (ho : (p.opsOf b)[i]? = some op)
    (hc : a.Comes info st (p.opAddress b (i + 1))
      ((a.closure.setting p codes).perform a.frame.scope st op) st' pr) :
    Sound p codes closure st' pr := by
  generalize hperform : (a.closure.setting p codes).perform a.frame.scope st op = performed at hc
  cases hc with
  | goesOn =>
    exact .runs (h.performed ho hperform) hsame (h.fits_perform hfits ho hperform)
  | fails => exact .fails
  | asks hask hreceive htwo =>
    exact .asks (h.waits ho hperform hask hreceive htwo) hsame hfits hperform
  | @computes aop x y v dst hx hy hraw =>
    have hans := Request.answers_arith hraw 0 st
    exact .runs (h.assigned ho hperform v) hsame (h.fits_answered hfits ho hperform hans)
  | refuses hx hy hraw => exact .fails
  | baffled hx hy hraw => exact .fails

/-- What an exit comes to is sound. -/
theorem sound_of_leaves (h : a.StandsAt p codes b i info) (hsame : a.closure = closure)
    (hfits : info.types.Fits a.frame.window) {block : Block} (hb : p.blocks[b]? = some block)
    (hi : block.ops.length ≤ i) {st' : Store} {pr : Progress Activation}
    (hl : a.Leaves p st (block.exit.leave a.frame.scope st) st' pr) :
    Sound p codes closure st' pr := by
  generalize hleave : block.exit.leave a.frame.scope st = departure at hl
  cases hl with
  | @goesTo t states hs =>
    obtain ⟨there, rfl, hflows, hstands⟩ := h.enters st hb hi
      (mem_successors_of_leave hleave) hs
    refine .runs hstands hsame ?_
    exact (TypeSeq.Fits.shareAll hfits).mono fun r _ => hflows.types r
  | returns => exact .returns
  | tailCalls => exact .tailCalls

/-- A call with typed registers leaves a block soundly. -/
theorem leads_of_exit (h : a.StandsAt p codes b i info) (hsame : a.closure = closure)
    (hfits : info.types.Fits a.frame.window) (ho : (p.opsOf b)[i]? = none) :
    Leads received (Between p closure) (Sound p codes closure) a st := by
  obtain ⟨block, hb, hi⟩ := h.exists_exit ho
  refine (h.leaves hb hi).mono (fun c hc => ?_) fun _ _ hl =>
    sound_of_leaves h hsame hfits hb hi hl
  rw [hsame] at hc
  exact between_of_within_exit (hsame ▸ h.implements) hb h.known hi hc

/-- An operation without lines keeps the types. -/
theorem fits_of_pass (honce : p.ClosesOnce) (h : a.StandsAt p codes b i info)
    (hfits : info.types.Fits a.frame.window) {op : Op} (ho : (p.opsOf b)[i]? = some op)
    (hnil : p.lowerOp info op = []) : (p.typeFlow info op).types.Fits a.frame.window :=
  h.fits_perform hfits ho (h.pass .empty ho (honce.leavesOnce ho _) hnil).2

/-- **A call with typed registers goes on soundly.** -/
theorem leads_of_stands (honce : p.ClosesOnce) (h : a.StandsAt p codes b i info)
    (hsame : a.closure = closure) (hfits : info.types.Fits a.frame.window) :
    Leads received (Between p closure) (Sound p codes closure) a st := by
  obtain ⟨j, there, h, hfits, ho | ⟨op, ho, hne⟩⟩ :=
    h.at_lines honce (P := fun _ info => info.types.Fits a.frame.window)
      (fun h hfits ho hnil => fits_of_pass honce h hfits ho hnil) hfits
  · exact leads_of_exit h hsame hfits ho
  · refine (h.leads ho (honce.leavesOnce ho _) hne).mono (fun c hc => ?_) fun _ _ hc =>
      sound_of_comes h hsame hfits ho hc
    rw [hsame] at hc
    exact between_of_within_op (hsame ▸ h.implements) h.known ho hc

/-! ### The invariant -/

theorem fits_start (himp : closure.Implements p codes) (args : List Value) :
    p.startTypes.Fits (start closure args).frame.window := by
  rw [frame_start himp]
  intro r v hr
  simp only [List.getElem?_toArray, List.getElem?_map, Option.map_eq_some_iff,
    Slot.plain.injEq, exists_eq_right, Procedure.startValues] at hr
  obtain ⟨i, hi, rfl⟩ := hr
  obtain ⟨hlt, rfl⟩ := List.getElem?_eq_some_iff.mp hi
  rw [List.length_range] at hlt
  rw [List.getElem_range, Procedure.get_startTypes himp.valid hlt]
  split
  · exact ValueType.isSubtypeOf_any _
  · rfl

/-- The first block is entered with registers of the types that it expects. -/
theorem fits_entered (himp : closure.Implements p codes) (args : List Value) (st : Store)
    (hinfo : p.infoAt 0 0 = some info) :
    info.types.Fits (crossed (start closure args).frame.scope st info.states).1.file := by
  obtain ⟨entry, hentry, hle⟩ := Procedure.le_entryInfo_zero himp.valid
  have hsame : p.infoAt 0 0 = some entry := by rw [Procedure.infoAt, hentry]; rfl
  obtain rfl : entry = info := Option.some.inj (hsame.symm.trans hinfo)
  have hfits : entry.types.Fits (start closure args).frame.window :=
    (fits_start himp args).mono fun r _ => hle r
  exact TypeSeq.Fits.shareAll hfits

theorem typed_start (himp : closure.Implements p codes) (args : List Value) :
    (start closure args).Typed p codes closure st received := by
  obtain ⟨info, hinfo, hstands, hstart⟩ :=
    leads_start himp args st received
  have hfits := fits_entered himp args st hinfo
  rcases hstart with ⟨hcrossed, hzero⟩ | ⟨hpos, hleads⟩
  · rw [hcrossed, hzero] at hstands
    rw [hcrossed] at hfits
    exact .stands hstands rfl hfits
  · refine .between (between_of_lt_startOf himp rfl hpos) (hleads.mono (fun c hc => ?_) ?_)
    · exact between_of_lt_startOf himp hc.closure hc.pc_lt
    · rintro _ _ ⟨rfl, rfl⟩
      exact .runs hstands rfl hfits

/-- From the invariant the call makes sound progress, or goes on inside an operation. -/
theorem Typed.step (honce : p.ClosesOnce) (h : a.Typed p codes closure st received) {st' : Store}
    {pr : Progress Activation} (hadv : a.advance st received = .ok (st', pr)) :
    Sound p codes closure st' pr ∨ ∃ a', pr = .runs a' ∧ a'.Between p closure ∧
      Leads received (Between p closure) (Sound p codes closure) a' st' := by
  cases h with
  | stands h hsame hfits =>
    exact (leads_of_stands honce h hsame hfits).step hadv
  | between _ hleads => exact hleads.step hadv
  | receives hwaits hsame hfits =>
    cases hwaits.advance.symm.trans hadv
    exact Or.inl (.runs (hwaits.stands received) hsame hfits)

/-- An answer keeps the invariant. -/
theorem typed_of_answers {limit : Nat} {op : Op} {request : Request} {results : Results}
    {st' : Store} {vs : List Value} (h : a.Waits p codes b i info op results)
    (hsame : a.closure = closure) (hfits : info.types.Fits a.frame.window)
    (hperform : (a.closure.setting p codes).perform a.frame.scope st op = .asks request results)
    (hans : request.Answers limit st st' vs) : a.Typed p codes closure st' vs :=
  .receives h hsame (h.fits_answered hfits hperform hans)

theorem typed_of_reached {limit : Nat} {args : List Value} (himp : closure.Implements p codes)
    (honce : p.ClosesOnce) (h : Reached limit closure args a st received) :
    a.Typed p codes closure st received := by
  induction h with
  | start st received => exact typed_start himp args
  | runs _ hadv ih =>
    rcases ih.step honce hadv with hsound | ⟨a', ha, hbetween, hleads⟩
    · cases hsound with
      | runs hstands hsame hfits => exact .stands hstands hsame hfits
    · cases ha
      exact .between hbetween hleads
  | answered _ hadv hans hgo ih =>
    rcases ih.step honce hadv with hsound | ⟨a', ha, -⟩
    · cases hsound with
      | asks hwaits hsame hfits hperform =>
        rw [hwaits.goesOn hgo]
        exact typed_of_answers hwaits hsame hfits hperform hans
    · cases ha

/-! ### What holds at operations -/

/-- At an operation the registers in place have the types that are known there. -/
theorem Typed.at_opAddress (h : a.Typed p codes closure st received)
    (hinfo : p.infoAt b i = some info) (hpc : a.pc = p.opAddress b i) :
    a.frame.window.states = info.states ∧ info.types.Fits a.frame.window := by
  cases h with
  | @stands c j there h hsame hfits =>
    have hagrees := Procedure.agrees_of_same_address h.implements.valid h.known hinfo
      (h.pc.symm.trans hpc)
    refine ⟨h.states.trans hagrees.states, fun r v hr => ?_⟩
    have hplain := Window.states_of_plain hr
    rw [h.states] at hplain
    have hlt : r < there.states.length := by
      rw [← h.states, Window.length_states]
      exact (Array.getElem?_eq_some_iff.mp hr).1
    rw [← hagrees.types r hlt hplain]
    exact hfits r v hr
  | between h _ => exact absurd hpc (h.noOp b i info hinfo)
  | receives hwaits hsame hfits =>
    have h1 := hwaits.pc
    have h2 := hwaits.next
    have h3 := Procedure.opAddress_not_between hwaits.implements.valid hwaits.known hwaits.atOp hinfo
      (by omega)
    omega

/-- What arithmetic without a question does: it reads two numbers and does with them what a request
for arithmetic would. -/
def ComputesRaw (a : Activation) (st : Store) (received : List Value) (op : ArithOp) (dst : SlotRef)
    (x y : Source) : Prop :=
  ∃ v w : Value, a.frame.read st x = .ok v ∧ a.frame.read st y = .ok w ∧
    v.staticType.isNumeric = true ∧ w.staticType.isNumeric = true ∧
    ((∃ u after, st.resolveArith op v w = .value u ∧ a.frame.write st dst u = .ok after ∧
        a.advance st received =
          .ok (after.2, .runs { a with frame := after.1, pc := a.pc + 1 })) ∨
      (st.resolveArith op v w = .error (.divisionByZero op.symbol) ∧
        a.advance st received = .ok (st, .fails (.divisionByZero op.symbol))))

theorem error_of_apply {op : ArithOp} {m n : Number} {e : Error} (h : op.apply m n = .error e) :
    e = .divisionByZero op.symbol := by
  cases m <;> cases n <;> simp only [ArithOp.apply, reduceCtorEq] at h
  cases op with
  | floorDivide | modulo =>
    simp only [ArithOp.onIntegers] at h
    split at h
    · cases h; rfl
    · cases h
  | _ => cases h

theorem computesRaw_of_line {op : ArithOp} {d : Nat} {u v : Operand}
    (h : a.StandsAt p codes b i info) (hfits : info.types.Fits a.frame.window)
    (hu : (info.operandType u).isNumeric = true) (hv : (info.operandType v).isNumeric = true)
    (hd : d < p.registers) (hur : ∀ r ∈ u.registers, r < p.registers)
    (hvr : ∀ r ∈ v.registers, r < p.registers)
    (hi : a.closure.code.instrs[a.pc]? = some (.arithRaw op (info.states.slot d)
      (info.states.source u) (info.states.source v))) :
    a.ComputesRaw st received op (info.states.slot d) (info.states.source u)
      (info.states.source v) := by
  have hsize := h.size
  have hx := staticType_operand (s := a.frame.scope) st hfits h.states
    (fun r hr => hsize.symm ▸ hur r hr)
  have hy := staticType_operand (s := a.frame.scope) st hfits h.states
    (fun r hr => hsize.symm ▸ hvr r hr)
  have hreadx := Frame.read_source (f := a.frame) st (fun r hr => hsize.symm ▸ hur r hr)
  have hready := Frame.read_source (f := a.frame) st (fun r hr => hsize.symm ▸ hvr r hr)
  have hxn := ValueType.isNumeric_of_isSubtypeOf hx hu
  have hyn := ValueType.isNumeric_of_isSubtypeOf hy hv
  rw [← h.states] at hi ⊢
  refine ⟨_, _, hreadx, hready, hxn, hyn, ?_⟩
  obtain ⟨m, hm, hmv⟩ := Value.exists_number hxn
  obtain ⟨n, hn, hnv⟩ := Value.exists_number hyn
  have hraw : rawArithmetic? op (a.frame.scope.value st u) (a.frame.scope.value st v) =
      some ((op.apply m n).map Number.toValue) := by simp [rawArithmetic?, hm, hn]
  have hexec : a.advance st received = (a.atPc (a.pc + 1)).arithRaw st op
      (a.frame.window.states.slot d) (a.frame.scope.value st u) (a.frame.scope.value st v) := by
    rw [advance_of_instr hi]
    show (do
      (a.atPc (a.pc + 1)).arithRaw st op (a.frame.window.states.slot d)
        (← a.frame.read st (a.frame.window.states.source u))
        (← a.frame.read st (a.frame.window.states.source v))) = _
    rw [hreadx, hready]
    rfl
  unfold arithRaw at hexec
  rw [hraw] at hexec
  unfold Store.resolveArith
  rw [hraw]
  cases happly : op.apply m n with
  | ok k =>
    rw [happly] at hexec
    exact Or.inl ⟨_, _, rfl, Frame.write_slot st _ (hsize.symm ▸ hd),
      hexec.trans (execute_assign (hsize.symm ▸ hd))⟩
  | error e =>
    rw [happly] at hexec
    obtain rfl := error_of_apply happly
    exact Or.inr ⟨rfl, hexec⟩

/-- Arithmetic without a question finds numbers. -/
theorem computesRaw_of_stands (honce : p.ClosesOnce) {op : ArithOp} {dst : SlotRef} {x y : Source}
    (hi : a.closure.code.instrs[a.pc]? = some (.arithRaw op dst x y))
    (h : a.StandsAt p codes b i info) (hfits : info.types.Fits a.frame.window) :
    a.ComputesRaw st received op dst x y := by
  obtain ⟨j, there, h, hfits, ho | ⟨o, ho, hne⟩⟩ :=
    h.at_lines honce (P := fun _ info => info.types.Fits a.frame.window)
      (fun h hfits ho hnil => fits_of_pass honce h hfits ho hnil) hfits
  · obtain ⟨block, hb, hle⟩ := h.exists_exit ho
    have hpos := Procedure.lowerExit_pos p.captures there.states block.exit
    rw [h.implements.code, h.pc] at hi
    exact (Procedure.not_arithRaw_lowerExit (List.mem_of_getElem?
      ((@Procedure.holds_exit p codes b j there block hb h.known hle).mem_of_arithRaw le_rfl
        (by omega) hi))).elim
  · have hp := h.implements.valid
    have hpos := List.length_pos_iff.mpr hne
    have hi' := hi
    rw [h.implements.code, h.pc] at hi'
    have hget := (@Procedure.holds_op p codes b j there hp o h.known ho).mem_of_arithRaw le_rfl
      (by omega) hi'
    obtain ⟨d, u, v, -, hu, hv, rfl, rfl, rfl, hd, hur, hvr⟩ :=
      Procedure.arithRaw_of_mem_lowerOp (Procedure.validOp_of_getElem? hp ho)
        (List.mem_of_getElem? hget)
    exact computesRaw_of_line h hfits hu hv hd hur hvr hi

theorem Typed.computesRaw (honce : p.ClosesOnce) (h : a.Typed p codes closure st received)
    {op : ArithOp} {dst : SlotRef} {x y : Source}
    (hi : a.closure.code.instrs[a.pc]? = some (.arithRaw op dst x y)) :
    a.ComputesRaw st received op dst x y := by
  cases h with
  | stands h hsame hfits => exact computesRaw_of_stands honce hi h hfits
  | between h _ => exact absurd hi (h.noRaw op dst x y)
  | receives hwaits hsame hfits => cases hwaits.receive.symm.trans hi

/-- **Static types are sound.** In every state that a call of a compiled procedure reaches, whatever
its callees do and however often they suspend, a register in place at an operation has a value of
the type that the analysis gives it there, and arithmetic without a question does with two numbers
what a request would. -/
theorem static_types_sound {code : Code} {limit : Nat} {args : List Value}
    (hcompile : p.compile = .ok code) (honce : p.ClosesOnce) (hcode : closure.code = code)
    (hupvalues : closure.upvalues.size = p.upvalues.length)
    (hreached : Reached limit closure args a st received) :
    (∀ (b i : Nat) (info : RegisterInfo), p.infoAt b i = some info → a.pc = p.opAddress b i →
      a.frame.window.states = info.states ∧
      ∀ (r : Nat) (v : Value), a.frame.window.slots[r]? = some (.plain v) →
        v.staticType.isSubtypeOf (info.types.get r) = true) ∧
    ∀ (op : ArithOp) (dst : SlotRef) (x y : Source),
      a.closure.code.instrs[a.pc]? = some (.arithRaw op dst x y) →
        a.ComputesRaw st received op dst x y := by
  obtain ⟨hvalid, codes, hnested, rfl⟩ := Procedure.compile_eq_ok_iff.mp hcompile
  have htyped := typed_of_reached ⟨hvalid, hnested, hcode, hupvalues⟩ honce hreached
  exact ⟨fun b i info hinfo hpc => htyped.at_opAddress hinfo hpc,
    fun op dst x y hi => htyped.computesRaw honce hi⟩

/-- A procedure that calls its argument, and doubles a number after that. -/
def doubling : Procedure where
  name := "doubling"
  params := 1
  isVararg := false
  registers := 2
  upvalues := []
  blocks := [⟨[.load 1 (.integer 3), .call 0 ⟨[], false⟩ (.fixed []),
    .arith 1 .add (.register 1) (.register 1)], .ret ⟨[.register 1], false⟩⟩]
  nested := []

theorem compile_doubling : doubling.compile = .ok (doubling.assemble []) :=
  Procedure.compile_eq_ok_iff.mpr ⟨Procedure.check_eq_ok_iff.mp rfl, [], .nil, rfl⟩

/-- The call suspends, is answered, and the number is doubled without a question. -/
theorem static_types_sound_doubling :
    ∃ a : Activation, Reached 10 ⟨doubling.assemble [], #[]⟩ [.nil] a .empty [] ∧
      a.pc = doubling.opAddress 0 2 ∧
      a.frame.window.states = [.plain, .plain] ∧
      a.ComputesRaw .empty [] .add ⟨1, .direct⟩ (.slot ⟨1, .direct⟩) (.slot ⟨1, .direct⟩) := by
  have honce : doubling.ClosesOnce := by
    intro b hb rs hrs
    simp only [doubling, List.mem_singleton] at hb
    subst hb
    simp at hrs
  have hreached : Reached 10 ⟨doubling.assemble [], #[]⟩ [.nil]
      ⟨⟨doubling.assemble [], #[]⟩, ⟨⟨#[.plain .nil, .plain (.integer 3)]⟩, [], [], 1⟩, 3⟩
      .empty [] :=
    .runs (.answered (.runs (.start .empty []) rfl) rfl trivial (.revived rfl)) rfl
  obtain ⟨hat, hraw⟩ := static_types_sound compile_doubling honce rfl rfl hreached
  refine ⟨_, hreached, rfl, ?_, hraw _ _ _ _ rfl⟩
  exact (hat 0 2 _ rfl rfl).1

end Activation

end ResumableVM
