import ResumableVM.Proofs.Addresses

/-! # SlotModes: the code and the capture analysis agree on where registers are

`Activation.Carries` says that a call carries out instructions until a condition holds, that none of
them breaks, and that so it goes on whatever the answers to the questions on the way are. From any
registers in the states that the analysis gives before an operation the lines of the operation carry
a call to the next one, with registers in the states that the analysis gives there (`carries_op`).
The lines of an exit carry it to a block with the registers that the block expects in cells
(`carries_exit`), and so does the prologue (`arrives_prologue`).

One operation is left out: a close operation that names a register in a cell twice. The analysis
takes the second naming for nothing; its lines take the register out of the cell twice, and the
second of them breaks (`leads_to_defect`). `states_agree` has it all for every accepted procedure. -/

namespace ResumableVM

/-- How a call goes on inside itself after a progress: with its next instruction, or once the answer
to its question is there. What the answer is, and what has become of the store meanwhile, is open. -/
inductive Progress.Continues (st : Store) (received : List Value) :
    Progress Activation → Activation → Store → List Value → Prop
  | runs {a : Activation} : Continues st received (.runs a) a st received
  | answered {a a' : Activation} {request : Request} {st' : Store} {answer : List Value}
      (h : a.GoesOn a') : Continues st received (.asks a request) a' st' answer

namespace Activation

/-- A call carries out instructions, one at least, until a condition holds or the call is left. None
of them breaks, and the call has a property between them. -/
inductive Carries (M Q : Activation → Prop) : Activation → Store → List Value → Prop
  | next {a : Activation} {st st' : Store} {received : List Value} {pr : Progress Activation}
      (h : a.advance st received = .ok (st', pr))
      (inside : ∀ {a' : Activation} {st'' : Store} {answer : List Value},
        pr.Continues st' received a' st'' answer → ¬Q a' → M a')
      (rest : ∀ {a' : Activation} {st'' : Store} {answer : List Value},
        pr.Continues st' received a' st'' answer → ¬Q a' → Carries M Q a' st'' answer) :
      Carries M Q a st received

/-- The condition holds, or the call carries out instructions until it does. -/
def Arrives (M Q : Activation → Prop) (a : Activation) (st : Store) (received : List Value) : Prop :=
  Q a ∨ Carries M Q a st received

/-- A call of a closure at an address, with registers in the given states. -/
structure Poised (closure : Closure) (pc : Nat) (states : SlotStates) (a : Activation) : Prop where
  closure : a.closure = closure
  pc : a.pc = pc
  states : a.frame.window.states = states

variable {p : Procedure} {codes : List Code} {b i : Nat} {info : RegisterInfo} {a : Activation}
  {st : Store} {received : List Value} {op : Op}

theorem StandsAt.poised (h : a.StandsAt p codes b i info) :
    a.Poised a.closure (p.opAddress b i) info.states :=
  ⟨rfl, h.pc, h.states⟩

/-- Instructions that lead to a progress carry a call on, if what continues from there does. -/
theorem Leads.carries {M Q : Activation → Prop} {P : Store → Progress Activation → Prop}
    (h : Leads received M P a st)
    (hP : ∀ st' pr, P st' pr → ∀ {a' st'' answer}, pr.Continues st' received a' st'' answer →
      Q a' ∨ M a' ∧ Carries M Q a' st'' answer) : Carries M Q a st received := by
  induction h with
  | last h hq =>
    exact .next h (fun hc hn => ((hP _ _ hq hc).resolve_left hn).1)
      fun hc hn => ((hP _ _ hq hc).resolve_left hn).2
  | more h hm _ ih =>
    refine .next h (fun hc _ => ?_) fun hc _ => ?_
    · cases hc; exact hm
    · cases hc; exact ih

/-! ### Operations -/

/-- What waits for an answer receives it, and comes to the next operation. -/
theorem Waits.carries {results : Results} {M : Activation → Prop}
    (h : a.Waits p codes b i info op results) :
    Carries M (Poised a.closure (p.opAddress b (i + 1)) (p.captureFlow info.states op)) a st
      received := by
  have hQ : Poised a.closure (p.opAddress b (i + 1)) (p.typeFlow info op).states
      (a.moved (a.frame.scope.receive st results received).1 (p.opAddress b (i + 1))) :=
    (h.stands received).poised
  rw [Procedure.typeFlow_states] at hQ
  refine .next h.advance (fun hc hn => ?_) fun hc hn => ?_ <;> cases hc <;> exact absurd hQ hn

/-- Whatever the lines of an operation come to, the call comes to the next operation. -/
theorem StandsAt.carries_of_comes (h : a.StandsAt p codes b i info)
    (ho : (p.opsOf b)[i]? = some op) {st' : Store} {pr : Progress Activation}
    (hc : a.Comes info st (p.opAddress b (i + 1))
      ((a.closure.setting p codes).perform a.frame.scope st op) st' pr)
    {a' : Activation} {st'' : Store} {answer : List Value}
    (hnext : pr.Continues st' received a' st'' answer) :
    Poised a.closure (p.opAddress b (i + 1)) (p.captureFlow info.states op) a' ∨
      Within a.closure (p.opAddress b i) (p.opAddress b (i + 1)) a' ∧
        Carries (Within a.closure (p.opAddress b i) (p.opAddress b (i + 1)))
          (Poised a.closure (p.opAddress b (i + 1)) (p.captureFlow info.states op)) a' st''
          answer := by
  rw [← Procedure.typeFlow_states]
  generalize hperform : (a.closure.setting p codes).perform a.frame.scope st op = done at hc
  cases hc with
  | goesOn =>
    cases hnext
    exact Or.inl (h.performed ho hperform).poised
  | asks ask receive two =>
    cases hnext with
    | answered hg =>
      have hw := h.waits ho hperform ask receive two
      cases hw.goesOn hg
      refine Or.inr ⟨⟨rfl, ?_, ?_⟩, by rw [Procedure.typeFlow_states]; exact hw.carries⟩
      · rw [hw.pc]; omega
      · rw [hw.next]; omega
  | computes =>
    cases hnext
    exact Or.inl (h.assigned ho hperform _).poised
  | fails | refuses | baffled => cases hnext

/-- **The lines of an operation carry a call to the next operation**, with registers in the states
that the analysis gives there. -/
theorem StandsAt.carries_op (st : Store) (received : List Value)
    (h : a.StandsAt p codes b i info) (ho : (p.opsOf b)[i]? = some op)
    (honce : op.LeavesOnce info.states) :
    Arrives (Within a.closure (p.opAddress b i) (p.opAddress b (i + 1)))
      (Poised a.closure (p.opAddress b (i + 1)) (p.captureFlow info.states op)) a st received := by
  by_cases hnil : p.lowerOp info op = []
  · have hpoised := (h.pass st ho honce hnil).1.poised
    rw [Procedure.typeFlow_states] at hpoised
    exact Or.inl hpoised
  · exact Or.inr ((h.leads ho honce hnil).carries fun _ _ hc => h.carries_of_comes ho hc)

/-! ### Registers that leave their cells twice -/

/-- A list that has an element twice has a first one that it had before. -/
theorem exists_repeated {l : List Nat} (h : ¬l.Nodup) :
    ∃ pre r post, l = pre ++ r :: post ∧ pre.Nodup ∧ r ∈ pre := by
  induction l using List.reverseRecOn with
  | nil => exact absurd List.nodup_nil h
  | append_singleton l r ih =>
    by_cases hl : l.Nodup
    · have hr : r ∈ l := by
        by_contra hr
        exact h (List.nodup_append.mpr ⟨hl, by simp, by
          rintro a ha b hb rfl
          exact hr (List.mem_singleton.mp hb ▸ ha)⟩)
      exact ⟨l, r, [], rfl, hl, hr⟩
    · obtain ⟨pre, s, post, rfl, hpre, hs⟩ := ih hl
      exact ⟨pre, s, post ++ [r], by simp, hpre, hs⟩

/-- A register in place cannot leave a cell. -/
theorem execute_uncapture_of_plain {r : Nat} (hr : r < a.frame.window.size)
    (h : a.frame.window.states.of r = .plain) :
    a.execute st received (.uncapture r) = .error (.notCaptured r) := by
  obtain ⟨v, hv⟩ := Window.plain_of_states hr h
  simp only [execute, Window.uncapture, hv]
  rfl

/-- **A register leaves its cell twice**, and the second time it is in none. -/
theorem StandsAt.leads_to_defect (st : Store) (received : List Value)
    (h : a.StandsAt p codes b i info)
    (ho : (p.opsOf b)[i]? = some op) (htwice : ¬op.LeavesOnce info.states) :
    ∃ r, info.states.of r = .captured ∧
      Leads received (Within a.closure (p.opAddress b i) (p.opAddress b (i + 1)))
        (fun st' pr => ∃ a', pr = .runs a' ∧ a'.advance st' received = .error (.notCaptured r))
        a st := by
  simp only [Op.LeavesOnce, not_forall] at htwice
  obtain ⟨rs, rfl, htwice⟩ := htwice
  obtain ⟨pre, r, post, hrs, hpre, hr⟩ := exists_repeated htwice
  have hl := @Procedure.holds_op p codes b i info h.implements.valid _ h.known ho
  have hlen : p.opAddress b (i + 1) = a.pc + (pre ++ r :: post).length := by
    rw [Procedure.opAddress_succ h.known ho, ← h.pc, Procedure.lowerOp, List.length_map, hrs]
  rw [← h.implements.code, ← h.pc, Procedure.lowerOp, hrs, List.map_append] at hl
  obtain ⟨hlpre, hlr⟩ := Code.Holds.append_iff.mp hl
  rw [List.map_cons, List.length_map] at hlr
  have hcaptured : ∀ s ∈ pre ++ r :: post, info.states.of s = .captured := fun s hs => by
    rw [← hrs] at hs
    simpa using (List.mem_filter.mp hs).2
  have hpreCaptured : ∀ s ∈ pre, s < a.frame.window.size ∧ a.frame.window.states.of s = .captured :=
    fun s hs => by
      have hof := hcaptured s (List.mem_append_left _ hs)
      rw [← h.states] at hof
      exact ⟨Window.lt_of_states hof, hof⟩
  refine ⟨r, hcaptured r (by simp), ?_⟩
  refine (leads_uncaptureAll (Q := fun st' pr => ∃ a', pr = .runs a' ∧
      a'.advance st' received = .error (.notCaptured r)) (List.ne_nil_of_mem hr) hpre hpreCaptured
      hlpre le_rfl ⟨_, rfl, ?_⟩).mono
    (fun c hc => ⟨hc.closure, h.pc ▸ hc.lt, ?_⟩) fun _ _ hq => hq
  · -- the second naming finds the register where the first one has left it
    have hplain : (a.frame.scope.closeAll st pre).1.file.states.of r = .plain := by
      rw [Scope.states_closeAll, SlotStates.of_setAll, if_pos hr]
      rw [Window.length_states]
      exact (hpreCaptured r hr).1
    have hlt : r < (a.frame.scope.closeAll st pre).1.file.size :=
      lt_of_lt_of_eq (hpreCaptured r hr).1 (Scope.size_closeAll a.frame.scope st pre).symm
    let a' := a.moved (a.frame.scope.closeAll st pre).1 (a.pc + pre.length)
    exact (advance_of_instr (a := a') hlr.1 _ _).trans
      (execute_uncapture_of_plain (a := a'.atPc (a'.pc + 1)) hlt hplain)
  · have hlt := hc.pc_lt
    rw [hlen, List.length_append]
    omega

/-! ### Exits and the prologue -/

/-- A call at the first line of a block that a block can pass to, with registers in the states that
the analysis gives there. -/
def EntersAfter (p : Procedure) (closure : Closure) (block : Block) (a : Activation) : Prop :=
  ∃ t ∈ block.exit.successors, ∃ entry, p.entryStates t = some entry ∧
    a.Poised closure (p.startOf t) entry

/-- **The lines of an exit carry a call into a block** that it can pass to. -/
theorem StandsAt.carries_exit (st : Store) (received : List Value)
    (h : a.StandsAt p codes b i info) {block : Block} (hb : p.blocks[b]? = some block)
    (hi : block.ops.length ≤ i) :
    Carries (Within a.closure (p.opAddress b i) (p.endOf b)) (EntersAfter p a.closure block) a st
      received := by
  rw [← Procedure.opAddress_add_exit hb h.known hi]
  refine (h.leaves hb hi).carries fun st' pr hl {a' st'' answer} hnext => ?_
  generalize hleave : block.exit.leave a.frame.scope st = departure at hl
  cases hl with
  | goesTo hentry =>
    cases hnext
    have ht := mem_successors_of_leave hleave
    obtain ⟨there, rfl, -, hstands⟩ := h.enters st hb hi ht hentry
    exact Or.inl ⟨_, ht, _, hentry, rfl, rfl, hstands.states⟩
  | returns | tailCalls => cases hnext

/-- **The prologue carries a call into the first block**, from registers that are all in place. -/
theorem arrives_prologue (st : Store) (received : List Value)
    (himp : a.closure.Implements p codes) (hpc : a.pc = 0)
    (hstates : a.frame.window.states = List.replicate p.registers .plain) :
    ∃ entry, p.entryStates 0 = some entry ∧
      Arrives (Within a.closure 0 (p.startOf 0)) (Poised a.closure (p.startOf 0) entry) a st
        received := by
  obtain ⟨info, hinfo, hstands, hway⟩ := leads_prologue himp hpc hstates st received
  have hpoised := hstands.poised
  rw [Procedure.opAddress_zero] at hpoised
  refine ⟨info.states, Procedure.entryStates_of_infoAt hinfo, ?_⟩
  rcases hway with ⟨hsame, hzero⟩ | ⟨-, hleads⟩
  · refine Or.inl ⟨rfl, hpc.trans hzero.symm, ?_⟩
    have hstates' := hpoised.states
    rw [hsame] at hstates'
    exact hstates'
  · refine Or.inr (hleads.carries fun st' pr hq {a' st'' answer} hnext => ?_)
    obtain ⟨rfl, rfl⟩ := hq
    cases hnext
    exact Or.inl hpoised

end Activation

/-! ### Every accepted procedure -/

namespace Procedure

open Activation

variable {p : Procedure}

/-- What the analysis of captures gives at a place goes with what is known there. -/
theorem exists_infoAt_of_statesAt (hp : p.Valid) {b i : Nat} {states : SlotStates}
    (h : p.statesAt b i = some states) :
    ∃ info, p.infoAt b i = some info ∧ info.states = states := by
  obtain ⟨entry, he, -⟩ := Option.map_eq_some_iff.mp h
  obtain ⟨known, hknown⟩ :=
    (isSome_entryInfo_iff hp).mpr ((isSome_entryStates_iff hp).mp ⟨entry, he⟩)
  have hinfo : p.infoAt b i = some (p.typeFlowAll known ((p.opsOf b).take i)) := by
    rw [infoAt, hknown]; rfl
  exact ⟨_, hinfo, Option.some.inj ((infoAt_states hinfo).symm.trans h)⟩

/-- The code of a closure and the capture analysis of its procedure agree. -/
structure StatesAgree (p : Procedure) (closure : Closure) : Prop where
  /-- The prologue turns registers in place into those that the first block expects. -/
  prologue : ∀ (st : Store) (received : List Value) (a : Activation),
    a.Poised closure 0 (List.replicate p.registers .plain) → ∃ entry, p.entryStates 0 = some entry ∧
      a.Arrives (Within closure 0 (p.startOf 0)) (Poised closure (p.startOf 0) entry) st received
  /-- The lines of an operation turn the registers before it into those behind it. -/
  operation : ∀ b i op before, (p.opsOf b)[i]? = some op → p.statesAt b i = some before →
    op.LeavesOnce before →
    ∃ after, p.statesAt b (i + 1) = some after ∧
      ∀ (st : Store) (received : List Value) (a : Activation),
        a.Poised closure (p.opAddress b i) before →
        a.Arrives (Within closure (p.opAddress b i) (p.opAddress b (i + 1)))
          (Poised closure (p.opAddress b (i + 1)) after) st received
  /-- A close operation that names a register in a cell twice breaks. -/
  repeated : ∀ b i op before, (p.opsOf b)[i]? = some op → p.statesAt b i = some before →
    ¬op.LeavesOnce before →
    ∀ (st : Store) (received : List Value) (a : Activation),
      a.Poised closure (p.opAddress b i) before →
      ∃ r, before.of r = .captured ∧
        Leads received (Within closure (p.opAddress b i) (p.opAddress b (i + 1)))
          (fun st' pr => ∃ a', pr = .runs a' ∧ a'.advance st' received = .error (.notCaptured r))
          a st
  /-- The lines of an exit turn the registers before it into those that the next block expects. -/
  exit : ∀ b block states, p.blocks[b]? = some block →
    p.statesAt b block.ops.length = some states →
    ∀ (st : Store) (received : List Value) (a : Activation),
      a.Poised closure (p.opAddress b block.ops.length) states →
      a.Carries (Within closure (p.opAddress b block.ops.length) (p.endOf b))
        (EntersAfter p closure block) st received

/-- **The code and the capture analysis agree on where registers are**, at every operation and at
every edge, except at close operations that name a register in a cell twice. -/
theorem states_agree {closure : Closure} (hcode : p.compile = .ok closure.code)
    (hup : closure.upvalues.size = p.upvalues.length) : p.StatesAgree closure := by
  obtain ⟨hvalid, codes, hnested, hassembled⟩ := compile_eq_ok_iff.mp hcode
  have himp : closure.Implements p codes := ⟨hvalid, hnested, hassembled, hup⟩
  have hstands : ∀ {b i : Nat} {info : RegisterInfo} {a : Activation}, p.infoAt b i = some info →
      a.Poised closure (p.opAddress b i) info.states → a.StandsAt p codes b i info :=
    fun hinfo h => ⟨h.closure ▸ himp, hinfo, h.pc, h.states⟩
  constructor
  case prologue =>
    intro st received a h
    obtain ⟨entry, hentry, hway⟩ := arrives_prologue st received (h.closure ▸ himp) h.pc
      h.states
    rw [h.closure] at hway
    exact ⟨entry, hentry, hway⟩
  case operation =>
    intro b i op before ho hbefore honce
    obtain ⟨info, hinfo, rfl⟩ := exists_infoAt_of_statesAt hvalid hbefore
    have hafter := infoAt_states (infoAt_succ hinfo ho)
    rw [typeFlow_states] at hafter
    refine ⟨_, hafter, fun st received a h => ?_⟩
    have hway := (hstands hinfo h).carries_op st received ho honce
    rwa [h.closure] at hway
  case repeated =>
    intro b i op before ho hbefore htwice st received a h
    obtain ⟨info, hinfo, rfl⟩ := exists_infoAt_of_statesAt hvalid hbefore
    have hway := (hstands hinfo h).leads_to_defect st received ho htwice
    rwa [h.closure] at hway
  case exit =>
    intro b block states hb hstates st received a h
    obtain ⟨info, hinfo, rfl⟩ := exists_infoAt_of_statesAt hvalid hstates
    have hway := (hstands hinfo h).carries_exit st received hb le_rfl
    rwa [h.closure] at hway

/-- A procedure that returns what it captures. -/
def peeking : Procedure where
  name := "peeking"
  params := 0
  isVararg := false
  registers := 1
  upvalues := [.register 0]
  blocks := [⟨[.getUpvalue 0 0], .ret ⟨[.register 0], false⟩⟩]
  nested := []

/-- A procedure that shares its argument with a closure and closes the register, naming it twice. -/
def closing : Procedure where
  name := "closing"
  params := 1
  isVararg := false
  registers := 2
  upvalues := []
  blocks := [⟨[.closure 1 0, .close [0, 0]], .ret ⟨[.register 0], false⟩⟩]
  nested := [peeking]

theorem compile_closing : closing.compile = .ok (closing.assemble [peeking.assemble []]) := by
  have hpeeking : peeking.compile = .ok (peeking.assemble []) :=
    compile_eq_ok_iff.mpr ⟨check_eq_ok_iff.mp rfl, [], .nil, rfl⟩
  exact compile_eq_ok_iff.mpr ⟨check_eq_ok_iff.mp rfl, _, .cons hpeeking .nil, rfl⟩

theorem states_agree_closing :
    closing.compile = .ok (closing.assemble [peeking.assemble []]) ∧
      closing.statesAt 0 1 = some [.captured, .plain] ∧
      closing.StatesAgree ⟨closing.assemble [peeking.assemble []], #[]⟩ :=
  ⟨compile_closing, by decide, states_agree compile_closing rfl⟩

/-- Behind its first operation the procedure never comes to its exit. -/
theorem not_arrives_closing :
    ∃ a : Activation,
      closing.compile = .ok a.closure.code ∧ (closing.opsOf 0)[1]? = some (.close [0, 0]) ∧
      closing.statesAt 0 1 = some [.captured, .plain] ∧
      closing.statesAt 0 2 = some [.plain, .plain] ∧
      a.Poised a.closure (closing.opAddress 0 1) [.captured, .plain] ∧
      ∀ M, ¬a.Arrives M (Poised a.closure (closing.opAddress 0 2) [.plain, .plain]) .empty [] := by
  refine ⟨⟨⟨closing.assemble [peeking.assemble []], #[]⟩,
    ⟨⟨#[.boxed ⟨0⟩, .plain .nil]⟩, [], [], 0⟩, 2⟩, compile_closing, rfl, by decide, by decide,
    ⟨rfl, by decide, rfl⟩, ?_⟩
  have hend : closing.opAddress 0 2 = 4 := by decide
  rw [hend]
  rintro M (harrived | hcarries)
  · cases harrived.pc
  · cases hcarries with
    | next hfirst inside rest =>
      cases hfirst
      cases rest .runs (fun harrived => by cases harrived.pc) with
      | next hsecond => cases hsecond

end Procedure

end ResumableVM
