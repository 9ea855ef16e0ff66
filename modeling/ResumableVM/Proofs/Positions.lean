import ResumableVM.Machine.Run
import ResumableVM.Proofs.Lowering

/-! # Positions: where a call stands in the graph

`Activation.StandsAt` ties an activation to an operation of a block, or to the exit behind the last
one: it stands at the lines of the operation, and its registers are in the states that the analysis
gives there. `Activation.Waits` ties it to an operation whose question is under way. From a position
a call goes on to the next one (`StandsAt.leads`), and every call starts at the first block
(`leads_start`). -/

namespace ResumableVM

namespace Procedure

variable {p : Procedure} {codes : List Code} {b i : Nat} {info : RegisterInfo}

theorem exists_block (hp : p.Valid) (h : p.infoAt b i = some info) :
    ∃ block, p.blocks[b]? = some block := by
  obtain ⟨entry, he, -⟩ := Option.map_eq_some_iff.mp h
  have hsolve := entryStates_eq_some.mp (entryInfo_eq_some.mp he).1
  have hlt := (Array.getElem?_eq_some_iff.mp hsolve).1
  rw [(Dataflow.allGood_solve (lawful_captureAnalysis hp)).1, size_captureAnalysis] at hlt
  exact ⟨_, List.getElem?_eq_getElem hlt⟩

theorem sized_infoAt (hp : p.Valid) (h : p.infoAt b i = some info) : p.Sized info := by
  obtain ⟨entry, he, rfl⟩ := Option.map_eq_some_iff.mp h
  exact (sized_entryInfo hp he).typeFlowAll _

theorem opsOf_eq {block : Block} (hb : p.blocks[b]? = some block) : p.opsOf b = block.ops := by
  simp [opsOf, hb]

theorem validOp_of_getElem? (hp : p.Valid) {op : Op} (ho : (p.opsOf b)[i]? = some op) :
    p.ValidOp op := by
  cases hb : p.blocks[b]? with
  | none => simp [opsOf, hb] at ho
  | some block =>
    rw [opsOf_eq hb] at ho
    exact hp.op block (List.mem_of_getElem? hb) op (List.mem_of_getElem? ho)

/-- What is known after an operation. -/
theorem infoAt_succ {op : Op} (h : p.infoAt b i = some info) (ho : (p.opsOf b)[i]? = some op) :
    p.infoAt b (i + 1) = some (p.typeFlow info op) := by
  obtain ⟨entry, he, rfl⟩ := Option.map_eq_some_iff.mp h
  simp only [infoAt, he, Option.map_some, typeFlowAll, List.take_add_one, ho, Option.toList_some,
    List.foldl_append, List.foldl_cons, List.foldl_nil]

/-- The lines of the next operation stand behind those of this one. -/
theorem opAddress_succ {op : Op} (h : p.infoAt b i = some info) (ho : (p.opsOf b)[i]? = some op) :
    p.opAddress b (i + 1) = p.opAddress b i + (p.lowerOp info op).length := by
  obtain ⟨entry, he, rfl⟩ := Option.map_eq_some_iff.mp h
  rw [opAddress_eq he, opAddress_eq he, List.take_add_one, ho, Option.toList_some, lowerOps_append,
    List.length_append, Nat.add_assoc]
  simp [lowerOps]

theorem holds_op (hp : p.Valid) {op : Op} (h : p.infoAt b i = some info)
    (ho : (p.opsOf b)[i]? = some op) :
    (p.assemble codes).Holds p.starts (p.opAddress b i) (p.lowerOp info op) := by
  obtain ⟨block, hb⟩ := exists_block hp h
  obtain ⟨entry, he, rfl⟩ := Option.map_eq_some_iff.mp h
  have hl := (Code.Holds.append_iff.mp (@holds_from p codes b block entry hb he i)).1
  rw [opsOf_eq hb] at ho ⊢
  obtain ⟨hlt, hop⟩ := List.getElem?_eq_some_iff.mp ho
  rw [List.drop_eq_getElem_cons hlt, hop] at hl
  exact (Code.Holds.append_iff.mp hl).1

theorem holds_exit {block : Block} (hb : p.blocks[b]? = some block) (h : p.infoAt b i = some info)
    (hi : block.ops.length ≤ i) :
    (p.assemble codes).Holds p.starts (p.opAddress b i)
      (lowerExit p.captures info.states block.exit) := by
  obtain ⟨entry, he, rfl⟩ := Option.map_eq_some_iff.mp h
  have hl := (Code.Holds.append_iff.mp (@holds_from p codes b block entry hb he i)).2
  rw [List.drop_eq_nil_of_le hi] at hl
  rw [opsOf_eq hb, List.take_of_length_le hi]
  exact hl

/-- A block that control can pass to has an entry, where all that is known at the exit holds. -/
theorem exists_infoAt_zero (hp : p.Valid) {block : Block} (hb : p.blocks[b]? = some block)
    (h : p.infoAt b i = some info) (hi : block.ops.length ≤ i) {t : Nat}
    (ht : t ∈ block.exit.successors) :
    ∃ there, p.infoAt t 0 = some there ∧ info.Flows there := by
  obtain ⟨entry, he, rfl⟩ := Option.map_eq_some_iff.mp h
  obtain ⟨there, hthere, hflows⟩ := flows_entryInfo hp hb he ht
  rw [opsOf_eq hb, List.take_of_length_le hi]
  exact ⟨there, by rw [infoAt, hthere]; rfl, hflows⟩

theorem entryStates_of_infoAt (h : p.infoAt b 0 = some info) :
    p.entryStates b = some info.states := by
  obtain ⟨entry, he, rfl⟩ := Option.map_eq_some_iff.mp h
  exact (entryInfo_eq_some.mp he).1

theorem opAddress_zero (b : Nat) : p.opAddress b 0 = p.startOf b := by
  unfold opAddress
  cases p.entryInfo b <;> simp [lowerOps]

end Procedure

/-- What asks leaves the states alone, and its results go to registers that the operation names. -/
theorem Setting.captureFlow_of_asks {p : Procedure} {c : Setting} {s : Scope Window} {st : Store}
    {op : Op} {request : Request} {results : Results}
    (h : c.perform s st op = .asks request results) (states : SlotStates) :
    p.captureFlow states op = states ∧ ∀ r ∈ results.registers, r ∈ op.registers := by
  cases op with
  | index dst table key =>
    cases h
    exact ⟨rfl, by simp [into, Results.registers, Op.registers]⟩
  | arith dst op x y =>
    cases h
    exact ⟨rfl, by simp [into, Results.registers, Op.registers]⟩
  | unary dst op src =>
    cases op with
    | not => cases h
    | _ =>
      cases h
      exact ⟨rfl, by simp [into, Results.registers, Op.registers]⟩
  | call target args results =>
    cases h
    exact ⟨rfl, fun r hr => by simp [Op.registers, hr]⟩
  | setIndex table key value =>
    simp only [perform, setIndex] at h
    split at h
    · split at h <;> cases h
    · cases h
  | compare dst op x y =>
    simp only [perform, keep] at h
    split at h <;> cases h
  | _ => cases h

/-- What the answer to a request can be: what it comes to in the store if it needs no call, and
anything that a call leaves otherwise. -/
def Request.Answers (limit : Nat) (st : Store) (q : Request) (st' : Store) (vs : List Value) :
    Prop :=
  match st.resolve limit q with
  | .value v => st' = st ∧ vs = [v]
  | .handler _ _ => True
  | .error _ => False

/-- The answer to arithmetic that needs no handler. -/
theorem Request.answers_arith {op : ArithOp} {x y v : Value}
    (h : rawArithmetic? op x y = some (.ok v)) (limit : Nat) (st : Store) :
    (Request.arith op x y).Answers limit st st [v] := by
  simp [Answers, Store.resolve, Store.resolveArith, h]

namespace Activation

/-- The activation stands at an operation of a block, or at its exit. -/
structure StandsAt (p : Procedure) (codes : List Code) (b i : Nat) (info : RegisterInfo)
    (a : Activation) : Prop where
  implements : a.closure.Implements p codes
  known : p.infoAt b i = some info
  pc : a.pc = p.opAddress b i
  states : a.frame.window.states = info.states

/-- The activation waits for the answer to the question of an operation. -/
structure Waits (p : Procedure) (codes : List Code) (b i : Nat) (info : RegisterInfo) (op : Op)
    (results : Results) (a : Activation) : Prop where
  implements : a.closure.Implements p codes
  known : p.infoAt b i = some info
  atOp : (p.opsOf b)[i]? = some op
  keeps : p.captureFlow info.states op = info.states
  pc : a.pc = p.opAddress b i + 1
  states : a.frame.window.states = info.states
  ask : ∃ question,
    a.closure.code.instrs[p.opAddress b i]? = some (.ask question a.frame.point)
  receive : a.closure.code.instrs[a.pc]? = some (.receive (info.states.receiver results))
  next : p.opAddress b (i + 1) = a.pc + 1
  registers : ∀ r ∈ results.registers, r < a.frame.window.size

variable {p : Procedure} {codes : List Code} {b i : Nat} {info : RegisterInfo} {a : Activation}
  {st : Store} {received : List Value} {op : Op}

theorem StandsAt.size (h : a.StandsAt p codes b i info) : a.frame.window.size = p.registers := by
  rw [← Window.length_states, h.states, (Procedure.sized_infoAt h.implements.valid h.known).states]

/-- Behind the last operation stands the exit of the block. -/
theorem StandsAt.exists_exit (h : a.StandsAt p codes b i info) (ho : (p.opsOf b)[i]? = none) :
    ∃ block, p.blocks[b]? = some block ∧ block.ops.length ≤ i := by
  obtain ⟨block, hb⟩ := Procedure.exists_block h.implements.valid h.known
  rw [Procedure.opsOf_eq hb] at ho
  exact ⟨block, hb, by simpa using ho⟩

/-! ### Operations -/

/-- The call goes on behind the operation. -/
theorem StandsAt.moved (h : a.StandsAt p codes b i info) (ho : (p.opsOf b)[i]? = some op)
    {s : Scope Window} (hs : s.file.states = p.captureFlow info.states op) :
    (a.moved s (p.opAddress b (i + 1))).StandsAt p codes b (i + 1) (p.typeFlow info op) :=
  ⟨h.implements, Procedure.infoAt_succ h.known ho, rfl, hs⟩

theorem StandsAt.performed (h : a.StandsAt p codes b i info) (ho : (p.opsOf b)[i]? = some op)
    {s : Scope Window} {st' : Store}
    (hperform : (a.closure.setting p codes).perform a.frame.scope st op = .goesOn s st') :
    (a.moved s (p.opAddress b (i + 1))).StandsAt p codes b (i + 1) (p.typeFlow info op) := by
  have hstates : s.file.states = p.captureFlow a.frame.window.states op :=
    Setting.states_perform hperform
  exact h.moved ho (h.states ▸ hstates)

/-- What was asked for is known, and is put into a register. -/
theorem StandsAt.assigned (h : a.StandsAt p codes b i info) (ho : (p.opsOf b)[i]? = some op)
    {request : Request} {dst : Nat}
    (hperform : (a.closure.setting p codes).perform a.frame.scope st op =
      .asks request (Setting.into dst)) (v : Value) :
    (a.moved (a.frame.scope.assign st dst v).1 (p.opAddress b (i + 1))).StandsAt p codes b (i + 1)
      (p.typeFlow info op) := by
  have hflow := (Setting.captureFlow_of_asks (p := p) hperform info.states).1
  refine h.moved ho ?_
  rw [Scope.states_assign, hflow]
  exact h.states

/-- **From an operation on**, the call does what the operation does. -/
theorem StandsAt.leads (h : a.StandsAt p codes b i info) (ho : (p.opsOf b)[i]? = some op)
    (honce : op.LeavesOnce info.states) (hne : p.lowerOp info op ≠ []) :
    Leads received (Within a.closure (p.opAddress b i) (p.opAddress b (i + 1)))
      (a.Comes info st (p.opAddress b (i + 1))
        ((a.closure.setting p codes).perform a.frame.scope st op)) a st := by
  have hp := h.implements.valid
  have hl := @Procedure.holds_op p codes b i info hp op h.known ho
  rw [← h.implements.code, ← h.pc] at hl
  rw [Procedure.opAddress_succ h.known ho, ← h.pc]
  obtain ⟨states, types⟩ := info
  obtain rfl : a.frame.window.states = states := h.states
  exact leads_op h.implements h.size (Procedure.validOp_of_getElem? hp ho) honce hl hne

/-- An operation without lines is passed at once. -/
theorem StandsAt.pass (st : Store) (h : a.StandsAt p codes b i info)
    (ho : (p.opsOf b)[i]? = some op) (honce : op.LeavesOnce info.states)
    (hnil : p.lowerOp info op = []) :
    a.StandsAt p codes b (i + 1) (p.typeFlow info op) ∧
      (a.closure.setting p codes).perform a.frame.scope st op = .goesOn a.frame.scope st := by
  have hperform : (a.closure.setting p codes).perform a.frame.scope st op =
      .goesOn a.frame.scope st := by
    obtain ⟨states, types⟩ := info
    obtain rfl : a.frame.window.states = states := h.states
    exact perform_of_lowerOp_eq_nil honce hnil
  have hstates : a.frame.window.states = p.captureFlow a.frame.window.states op :=
    Setting.states_perform hperform
  refine ⟨⟨h.implements, Procedure.infoAt_succ h.known ho, ?_, ?_⟩, hperform⟩
  · rw [Procedure.opAddress_succ h.known ho, hnil, h.pc]; rfl
  · rw [Procedure.typeFlow_states, ← h.states]; exact hstates

/-- **The lines that an activation stands at** are those of an exit, or of an operation that has
some. Whatever holds at a position and is kept by the operations without lines holds there too. -/
theorem StandsAt.at_lines (honce : p.ClosesOnce) {P : Nat → RegisterInfo → Prop}
    (hpass : ∀ {i : Nat} {info : RegisterInfo} {op : Op}, a.StandsAt p codes b i info →
      P i info → (p.opsOf b)[i]? = some op → p.lowerOp info op = [] →
      P (i + 1) (p.typeFlow info op))
    (h : a.StandsAt p codes b i info) (hP : P i info) :
    ∃ j there, a.StandsAt p codes b j there ∧ P j there ∧
      ((p.opsOf b)[j]? = none ∨
        ∃ op, (p.opsOf b)[j]? = some op ∧ p.lowerOp there op ≠ []) := by
  -- the operations that are left
  induction hn : (p.opsOf b).length - i generalizing i info with
  | zero => exact ⟨i, info, h, hP, Or.inl (List.getElem?_eq_none (by omega))⟩
  | succ n ih =>
    obtain ⟨op, ho⟩ : ∃ op, (p.opsOf b)[i]? = some op :=
      ⟨_, List.getElem?_eq_getElem (by omega)⟩
    by_cases hnil : p.lowerOp info op = []
    · exact ih (h.pass .empty ho (honce.leavesOnce ho _) hnil).1 (hpass h hP ho hnil) (by omega)
    · exact ⟨i, info, h, hP, Or.inr ⟨op, ho, hnil⟩⟩

/-- The call waits for an answer. -/
theorem StandsAt.waits (h : a.StandsAt p codes b i info) (ho : (p.opsOf b)[i]? = some op)
    {question : Question} {point : Nat} {request : Request} {results : Results}
    (hperform : (a.closure.setting p codes).perform a.frame.scope st op = .asks request results)
    (ask : a.closure.code.instrs[a.pc]? = some (.ask question point))
    (receive : a.closure.code.instrs[a.pc + 1]? =
      some (.receive (a.frame.window.states.receiver results)))
    (two : p.opAddress b (i + 1) = a.pc + 2) :
    (a.asking point).Waits p codes b i info op results where
  implements := h.implements
  known := h.known
  atOp := ho
  keeps := (Setting.captureFlow_of_asks hperform info.states).1
  pc := by rw [← h.pc]; rfl
  states := h.states
  ask := ⟨question, h.pc ▸ ask⟩
  receive := h.states ▸ receive
  next := two
  registers r hr := lt_of_lt_of_eq
    ((Procedure.validOp_of_getElem? h.implements.valid ho).registers r
      ((Setting.captureFlow_of_asks (p := p) hperform info.states).2 r hr)) h.size.symm

/-- **The answer is received**, and the call goes on behind the operation. -/
theorem Waits.advance {results : Results} (h : a.Waits p codes b i info op results) :
    a.advance st received = .ok ((a.frame.scope.receive st results received).2,
      .runs (a.moved (a.frame.scope.receive st results received).1 (p.opAddress b (i + 1)))) := by
  have hi := h.receive
  rw [← h.states] at hi
  rw [h.next]
  exact advance_receive hi h.registers

theorem Waits.stands {results : Results} (h : a.Waits p codes b i info op results)
    (vs : List Value) :
    (a.moved (a.frame.scope.receive st results vs).1 (p.opAddress b (i + 1))).StandsAt p codes b
      (i + 1) (p.typeFlow info op) where
  implements := h.implements
  known := Procedure.infoAt_succ h.known h.atOp
  pc := rfl
  states := by
    rw [Procedure.typeFlow_states, h.keeps, ← h.states]
    exact Scope.states_receive _ _ _ _

/-! ### Answers -/

/-- Who waits goes on: at once, or from the frame that a suspension has saved. -/
inductive GoesOn (a : Activation) : Activation → Prop
  | atOnce : GoesOn a a
  | revived {pc : Nat} (h : Run.resumeAddress a.closure.code a.frame.point = .ok pc) :
      GoesOn a (a.atPc pc)

/-- The saved frame goes on where the call waits. -/
theorem Waits.resumesAt {results : Results} (h : a.Waits p codes b i info op results) :
    a.closure.code.ResumesAt a.frame.point a.pc := by
  obtain ⟨question, hask⟩ := h.ask
  rw [h.implements.code] at hask ⊢
  rw [h.pc]
  exact Procedure.resumesAt_of_ask hask

theorem resumeAddress_of_resumesAt {code : Code} {point pc : Nat} (h : code.ResumesAt point pc) :
    Run.resumeAddress code point = .ok pc := by
  obtain ⟨targets, htable, -, htarget⟩ := h
  simp only [Run.resumeAddress, htable, htarget]

/-- **Suspension makes no difference** to who waits. -/
theorem Waits.goesOn {results : Results} (h : a.Waits p codes b i info op results) {a' : Activation}
    (hg : a.GoesOn a') : a' = a := by
  cases hg with
  | atOnce => rfl
  | revived hpc =>
    cases (resumeAddress_of_resumesAt h.resumesAt).symm.trans hpc
    rfl

/-! ### Exits -/

theorem mem_successors_of_leave {e : Exit} {s : Scope Window} {t : Nat}
    (h : e.leave s st = .goesTo t) : t ∈ e.successors := by
  cases e with
  | jump b => cases h; simp [Exit.successors]
  | branch cond b c =>
    simp only [Exit.leave, Departure.goesTo.injEq] at h
    subst h
    split <;> simp [Exit.successors]
  | ret args => cases h
  | tailCall target args => cases h

/-- **From an exit on**, the call leaves the block as the exit says. -/
theorem StandsAt.leaves (h : a.StandsAt p codes b i info) {block : Block}
    (hb : p.blocks[b]? = some block) (hi : block.ops.length ≤ i) :
    Leads received
      (Within a.closure (p.opAddress b i)
        (p.opAddress b i + (Procedure.lowerExit p.captures info.states block.exit).length))
      (a.Leaves p st (block.exit.leave a.frame.scope st)) a st := by
  have hp := h.implements.valid
  have hl := @Procedure.holds_exit p codes b i info block hb h.known hi
  rw [← h.implements.code, ← h.pc, ← h.states] at hl
  rw [← h.pc, ← h.states]
  refine leads_exit h.size (hp.exit block (List.mem_of_getElem? hb)) (fun t ht => ?_) hl
  obtain ⟨there, hthere, -⟩ := Procedure.exists_infoAt_zero hp hb h.known hi ht
  exact ⟨there.states, Procedure.entryStates_of_infoAt hthere,
    (Procedure.sized_infoAt hp hthere).states⟩

/-- **The next block is entered**, and what was known still holds there. -/
theorem StandsAt.enters (st : Store) (h : a.StandsAt p codes b i info) {block : Block}
    (hb : p.blocks[b]? = some block) (hi : block.ops.length ≤ i) {t : Nat}
    (ht : t ∈ block.exit.successors) {states : SlotStates} (hs : p.entryStates t = some states) :
    ∃ there, there.states = states ∧ info.Flows there ∧
      (a.moved (crossed a.frame.scope st states).1 (p.startOf t)).StandsAt p codes t 0 there := by
  have hp := h.implements.valid
  obtain ⟨there, hthere, hflows⟩ := Procedure.exists_infoAt_zero hp hb h.known hi ht
  have hstates : there.states = states :=
    Option.some.inj ((Procedure.entryStates_of_infoAt hthere).symm.trans hs)
  refine ⟨there, hstates, hflows, h.implements, hthere, (Procedure.opAddress_zero t).symm, ?_⟩
  show (crossed a.frame.scope st states).1.file.states = there.states
  have hlen : a.frame.window.states.length = states.length := by
    rw [Window.length_states, h.size, ← hstates, (Procedure.sized_infoAt hp hthere).states]
  rw [crossed, Scope.states_shareAll, hstates]
  refine SlotStates.setAll_newlyCaptured hlen fun r hr => ?_
  rw [← hstates]
  exact hflows.captured r (h.states ▸ hr)

/-! ### The start of a call -/

variable {closure : Closure}

/-- All registers are in place at first. -/
theorem frame_start (himp : closure.Implements p codes) (args : List Value) :
    (start closure args).frame =
      ⟨⟨((p.startValues args).map Slot.plain).toArray⟩, p.startVarargs args, [], 0⟩ := by
  have hle := himp.valid.params_le
  have hcode : (start closure args).frame = Frame.start (p.assemble codes) args := by
    rw [← himp.code]; rfl
  have hslots : (List.range p.params).map (fun i => Slot.plain (valueAt args i)) ++
      List.replicate (p.registers - p.params) (Slot.plain .nil) =
        (p.startValues args).map Slot.plain := by
    refine List.ext_getElem? fun r => ?_
    by_cases hr : r < p.params
    · have : r < p.registers := by omega
      simp [Procedure.startValues, List.getElem?_append, hr, this]
    · by_cases hr' : r < p.registers
      · have : r - p.params < p.registers - p.params := by omega
        simp [Procedure.startValues, List.getElem?_append, hr, hr', this]
      · have : ¬ r - p.params < p.registers - p.params := by omega
        simp [Procedure.startValues, List.getElem?_append, hr, hr', this]
  rw [hcode]
  simp only [Frame.start, Procedure.assemble, Nat.min_eq_left hle, hslots, Procedure.startVarargs]

theorem states_start (himp : closure.Implements p codes) (args : List Value) :
    (start closure args).frame.window.states = List.replicate p.registers .plain := by
  rw [frame_start himp]
  simp [Window.states, Procedure.startValues, Slot.state, Function.comp_def]

/-- **The prologue moves the registers into cells** that the first block expects there. -/
theorem leads_prologue (himp : a.closure.Implements p codes) (hpc : a.pc = 0)
    (hstates : a.frame.window.states = List.replicate p.registers .plain) (st : Store)
    (received : List Value) :
    ∃ info, p.infoAt 0 0 = some info ∧
      (a.moved (crossed a.frame.scope st info.states).1 (p.startOf 0)).StandsAt p codes 0 0 info ∧
      ((crossed a.frame.scope st info.states = (a.frame.scope, st) ∧ p.startOf 0 = 0) ∨
        0 < p.startOf 0 ∧ Leads received (Within a.closure 0 (p.startOf 0))
          (fun st' pr => st' = (crossed a.frame.scope st info.states).2 ∧
            pr = .runs (a.moved (crossed a.frame.scope st info.states).1 (p.startOf 0))) a st) := by
  have hp := himp.valid
  obtain ⟨info, hentry, -⟩ := Procedure.le_entryInfo_zero hp
  have hinfo : p.infoAt 0 0 = some info := by rw [Procedure.infoAt, hentry]; rfl
  have hlen : a.frame.window.states.length = info.states.length := by
    rw [hstates, List.length_replicate, (Procedure.sized_infoAt hp hinfo).states]
  have hof : ∀ r, a.frame.window.states.of r = .plain := fun r => by
    rw [hstates, SlotStates.of_replicate]
  have hentered : p.captures[0]?.join.getD [] = info.states := by
    have h : p.captures[0]?.join = some info.states := Procedure.entryStates_of_infoAt hinfo
    rw [h]; rfl
  refine ⟨info, hinfo, ⟨himp, hinfo, (Procedure.opAddress_zero 0).symm, ?_⟩, ?_⟩
  · show (crossed _ st info.states).1.file.states = info.states
    rw [crossed, Scope.states_shareAll]
    refine SlotStates.setAll_newlyCaptured hlen fun r hr => ?_
    cases (hof r).symm.trans hr
  · have hl := @Procedure.holds_prologue p codes
    have hpro : p.prologue = Line.captureAll (a.frame.window.states.newlyCaptured info.states) := by
      rw [Procedure.prologue, hentered, hstates]
    rw [← himp.code, hpro, ← hpc] at hl
    have hstart : p.startOf 0 =
        a.pc + (a.frame.window.states.newlyCaptured info.states).length := by
      rw [Procedure.startOf_zero hp.nonempty, hpro, Line.captureAll, List.length_map, hpc,
        Nat.zero_add]
    by_cases hne : a.frame.window.states.newlyCaptured info.states = []
    · refine Or.inl ⟨?_, by rw [hstart, hne, hpc]; rfl⟩
      show a.frame.scope.shareAll st (a.frame.window.states.newlyCaptured info.states) = _
      rw [hne]; rfl
    · have hpos := List.length_pos_iff.mpr hne
      refine Or.inr ⟨by omega, ?_⟩
      rw [hstart]
      refine leads_captureAll hne (SlotStates.nodup_newlyCaptured _ _) (fun r hr => ⟨?_, hof r⟩) hl
        (Nat.zero_le _) ⟨rfl, rfl⟩
      obtain ⟨-, hcap⟩ := (SlotStates.mem_newlyCaptured hlen).mp hr
      rw [← Window.length_states]
      by_contra hlt
      rw [SlotStates.of_eq_plain_of_le (by omega)] at hcap
      cases hcap

/-- **A call starts** at the first block, with the registers that it expects in cells there. -/
theorem leads_start (himp : closure.Implements p codes) (args : List Value) (st : Store)
    (received : List Value) :
    ∃ info, p.infoAt 0 0 = some info ∧
      ((start closure args).moved
        (crossed (start closure args).frame.scope st info.states).1 (p.startOf 0)).StandsAt
          p codes 0 0 info ∧
      ((crossed (start closure args).frame.scope st info.states =
          ((start closure args).frame.scope, st) ∧ p.startOf 0 = 0) ∨
        0 < p.startOf 0 ∧ Leads received (Within closure 0 (p.startOf 0))
          (fun st' pr => st' = (crossed (start closure args).frame.scope st info.states).2 ∧
            pr = .runs ((start closure args).moved
              (crossed (start closure args).frame.scope st info.states).1 (p.startOf 0)))
          (start closure args) st) :=
  leads_prologue (a := start closure args) himp rfl (states_start himp args) st received

end Activation

end ResumableVM
