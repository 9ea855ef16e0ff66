import ResumableVM.Proofs.CompiledCode
import ResumableVM.Proofs.Positions

/-! # Closures: every closure of a store has accepted code

`Closure.Accepted` says that a closure has the code of an accepted procedure in which, and in all
nested ones, each close names a register once; `Store.Accepts` says it of all closures of a store.
Operations make closures of nested procedures only, so they keep this (`accepts_perform`). A call
then never gets stuck: it is `Ready` to go on at its start, at every operation, and with every
answer that it waits for (`Ready.advance`). -/

namespace ResumableVM

/-- The closure has accepted code. -/
def Closure.Accepted (c : Closure) : Prop :=
  ∃ p codes, c.Implements p codes ∧ p.ClosesOnceInside

theorem Closure.Accepted.of_compile {p : Procedure} {code : Code} {upvalues : Array CellId}
    (h : p.compile = .ok code) (honce : p.ClosesOnceInside)
    (hsize : upvalues.size = code.upvalues.length) : (⟨code, upvalues⟩ : Closure).Accepted := by
  obtain ⟨hvalid, codes, hnested, hcode⟩ := Procedure.compile_eq_ok_iff.mp h
  exact ⟨p, codes, ⟨hvalid, hnested, hcode, by rw [hsize, Procedure.upvalues_of_compile h]⟩, honce⟩

theorem Closure.accepted_default : (default : Closure).Accepted := by
  refine .of_compile Procedure.compile_inert ⟨?_, ?_⟩ rfl
  · intro b hb rs hrs
    simp only [Procedure.inert, List.mem_singleton] at hb
    subst hb
    cases hrs
  · intro n hn
    cases hn

namespace Store

/-- Every closure has accepted code. -/
def Accepts (st : Store) : Prop := ∀ c ∈ st.closures, c.Accepted

theorem Accepts.closure {st : Store} (h : st.Accepts) (id : ClosureId) :
    (st.closure id).Accepted := by
  exact forall_closure h Closure.accepted_default id

theorem Accepts.of_eq {st st' : Store} (h : st.Accepts) (heq : st'.closures = st.closures) :
    st'.Accepts := by
  unfold Accepts
  rw [heq]
  exact h

theorem Accepts.addClosure {st : Store} (h : st.Accepts) {c : Closure} (hc : c.Accepted) :
    (st.addClosure c).2.Accepts := by
  exact forall_addClosure h hc

end Store

/-! ### Operations make no closures but of nested procedures -/

namespace Window

theorem closures_assign (w : Window) (st : Store) (r : Nat) (v : Value) :
    (w.assign st r v).2.closures = st.closures := by
  unfold assign; split <;> rfl

theorem closures_share (w : Window) (st : Store) (r : Nat) :
    (w.share st r).2.closures = st.closures := by
  unfold share; split <;> rfl

end Window

namespace Scope

theorem closures_assign (s : Scope Window) (st : Store) (r : Nat) (v : Value) :
    (s.assign st r v).2.closures = st.closures := Window.closures_assign _ _ _ _

theorem closures_assignAll : ∀ (rs : List Nat) (s : Scope Window) (st : Store) (vs : List Value),
    (s.assignAll st rs vs).2.closures = st.closures
  | [], _, _, _ => rfl
  | r :: rs, s, st, vs => by rw [assignAll, closures_assignAll rs, closures_assign]

theorem closures_receive (s : Scope Window) (st : Store) (results : Results) (vs : List Value) :
    (s.receive st results vs).2.closures = st.closures := by
  cases results with
  | fixed rs => exact closures_assignAll rs s st vs
  | multi => rfl

theorem closures_each {change : Window → Store → Nat → Window × Store}
    (h : ∀ w st r, (change w st r).2.closures = st.closures) :
    ∀ (rs : List Nat) (s : Scope Window) (st : Store),
      (s.each change st rs).2.closures = st.closures
  | [], _, _ => rfl
  | r :: rs, s, st => by rw [each, closures_each h rs, h]

theorem closures_shareAll (rs : List Nat) (s : Scope Window) (st : Store) :
    (s.shareAll st rs).2.closures = st.closures := closures_each Window.closures_share rs s st

theorem closures_closeAll (rs : List Nat) (s : Scope Window) (st : Store) :
    (s.closeAll st rs).2.closures = st.closures := closures_each (fun _ _ _ => rfl) rs s st

end Scope

theorem Procedure.ClosesOnceInside.own {p : Procedure} (h : p.ClosesOnceInside) : p.ClosesOnce := by
  cases h; assumption

theorem Procedure.ClosesOnceInside.nested {p n : Procedure} (h : p.ClosesOnceInside)
    (hn : n ∈ p.nested) : n.ClosesOnceInside := by
  cases h with
  | intro _ hnested => exact hnested n hn

/-- A closure of a nested procedure has accepted code. -/
theorem accepted_closureOf {c : Closure} {p : Procedure} {codes : List Code}
    (himp : c.Implements p codes) (honce : p.ClosesOnceInside) {dst proto : Nat}
    (hop : p.ValidOp (.closure dst proto)) (s : Scope Window) :
    ((c.setting p codes).closureOf s proto).Accepted := by
  obtain ⟨n, hn, -⟩ := hop.nested
  obtain ⟨code, hcode, hcompile⟩ := Procedure.getElem?_nested himp.nested hn
  have hclosure : (c.setting p codes).closureOf s proto =
      ⟨code, (n.upvalues.map ((c.setting p codes).capturedCell s)).toArray⟩ := by
    simp [Setting.closureOf, Setting.sources, Closure.setting, hcode, hn]
  rw [hclosure]
  refine .of_compile hcompile (honce.nested (List.mem_of_getElem? hn)) ?_
  rw [Procedure.upvalues_of_compile hcompile]
  simp

/-- **An operation keeps accepted closures.** -/
theorem accepts_perform {c : Closure} {p : Procedure} {codes : List Code}
    (himp : c.Implements p codes) (honce : p.ClosesOnceInside) {op : Op} (hop : p.ValidOp op)
    {s s' : Scope Window} {st st' : Store} (h : st.Accepts)
    (hperform : (c.setting p codes).perform s st op = .goesOn s' st') : st'.Accepts := by
  cases op with
  | closure dst proto =>
    cases hperform
    refine Store.Accepts.of_eq ?_ (Scope.closures_assign _ _ _ _)
    refine Store.Accepts.addClosure ?_ (accepted_closureOf himp honce hop _)
    exact h.of_eq (Scope.closures_shareAll _ _ _)
  | close rs =>
    cases hperform
    exact h.of_eq (Scope.closures_closeAll _ _ _)
  | vararg results =>
    cases hperform
    exact h.of_eq (Scope.closures_receive _ _ _ _)
  | setUpvalue i src =>
    cases hperform
    exact h.of_eq rfl
  | setIndex table key value =>
    simp only [Setting.perform, Setting.setIndex] at hperform
    split at hperform
    · split at hperform
      · next hset =>
        cases hperform
        simp only [Store.rawSet, bind, Except.bind] at hset
        split at hset
        · cases hset
        · cases hset
          exact h.of_eq rfl
      · cases hperform
    · cases hperform
  | unary dst op src =>
    cases op with
    | not =>
      cases hperform
      exact h.of_eq (Scope.closures_assign _ _ _ _)
    | _ => cases hperform
  | compare dst op x y =>
    simp only [Setting.perform, Setting.keep] at hperform
    split at hperform
    · cases hperform
      exact h.of_eq (Scope.closures_assign _ _ _ _)
    · cases hperform
  | index | arith | call => cases hperform
  | move | load | getUpvalue =>
    cases hperform
    exact h.of_eq (Scope.closures_assign _ _ _ _)
  | newTable dst =>
    cases hperform
    exact (h.of_eq rfl : (st.addTable .empty).2.Accepts).of_eq (Scope.closures_assign _ _ _ _)

/-! ### Calls of accepted closures -/

namespace Activation

/-- The call of an accepted closure waits for an answer. -/
def Awaits (a : Activation) : Prop :=
  ∃ p codes b i info op results, p.ClosesOnceInside ∧ a.Waits p codes b i info op results

/-- Progress of a call of an accepted closure. -/
inductive Steady : Store → Progress Activation → Prop
  | runs {st : Store} {a : Activation} {p : Procedure} {codes : List Code} {b i : Nat}
      {info : RegisterInfo} (once : p.ClosesOnceInside) (stands : a.StandsAt p codes b i info)
      (accepts : st.Accepts) : Steady st (.runs a)
  | asks {st : Store} {a : Activation} {q : Request} (awaits : a.Awaits) (accepts : st.Accepts) :
      Steady st (.asks a q)
  | returns {st : Store} {vs : List Value} (accepts : st.Accepts) : Steady st (.returns vs)
  | tailCalls {st : Store} {target : Value} {args : List Value} (accepts : st.Accepts) :
      Steady st (.tailCalls target args)
  | fails {st : Store} {e : Error} (accepts : st.Accepts) : Steady st (.fails e)

/-- The call of an accepted closure goes on steadily. -/
def Ready (a : Activation) (st : Store) (received : List Value) : Prop :=
  Leads received (fun _ => True) Steady a st

variable {p : Procedure} {codes : List Code} {b i : Nat} {info : RegisterInfo} {a : Activation}
  {st st' : Store} {received : List Value} {pr : Progress Activation}

theorem steady_of_comes (once : p.ClosesOnceInside) (h : a.StandsAt p codes b i info) {op : Op}
    (ho : (p.opsOf b)[i]? = some op) (haccepts : st.Accepts)
    (hc : a.Comes info st (p.opAddress b (i + 1))
      ((a.closure.setting p codes).perform a.frame.scope st op) st' pr) : Steady st' pr := by
  generalize hperform : (a.closure.setting p codes).perform a.frame.scope st op = performed at hc
  cases hc with
  | goesOn =>
    have hop := Procedure.validOp_of_getElem? h.implements.valid ho
    exact .runs once (h.performed ho hperform)
      (accepts_perform h.implements once hop haccepts hperform)
  | fails => exact .fails haccepts
  | asks hask hreceive htwo =>
    exact .asks ⟨p, codes, b, i, info, op, _, once, h.waits ho hperform hask hreceive htwo⟩ haccepts
  | computes hx hy hraw =>
    exact .runs once (h.assigned ho hperform _) (haccepts.of_eq (Scope.closures_assign _ _ _ _))
  | refuses hx hy hraw => exact .fails haccepts
  | baffled hx hy hraw => exact .fails haccepts

theorem steady_of_leaves (once : p.ClosesOnceInside) (h : a.StandsAt p codes b i info)
    (haccepts : st.Accepts) {block : Block} (hb : p.blocks[b]? = some block)
    (hi : block.ops.length ≤ i) (hl : a.Leaves p st (block.exit.leave a.frame.scope st) st' pr) :
    Steady st' pr := by
  generalize hleave : block.exit.leave a.frame.scope st = departure at hl
  cases hl with
  | goesTo hs =>
    obtain ⟨there, -, -, hstands⟩ := h.enters st hb hi (mem_successors_of_leave hleave) hs
    exact .runs once hstands (haccepts.of_eq (Scope.closures_shareAll _ _ _))
  | returns => exact .returns haccepts
  | tailCalls => exact .tailCalls haccepts

theorem StandsAt.ready (once : p.ClosesOnceInside) (h : a.StandsAt p codes b i info)
    (haccepts : st.Accepts) : a.Ready st received := by
  obtain ⟨j, there, h, -, ho | ⟨op, ho, hne⟩⟩ :=
    h.at_lines once.own (P := fun _ _ => True) (fun _ _ _ _ => trivial) trivial
  · obtain ⟨block, hb, hle⟩ := h.exists_exit ho
    exact (h.leaves hb hle).mono (fun _ _ => trivial)
      fun _ _ hl => steady_of_leaves once h haccepts hb hle hl
  · exact (h.leads ho (once.own.leavesOnce ho _) hne).mono (fun _ _ => trivial)
      fun _ _ hc => steady_of_comes once h ho haccepts hc

/-- A call is ready at its start. -/
theorem ready_start {closure : Closure} (h : closure.Accepted) (args : List Value)
    (haccepts : st.Accepts) : (start closure args).Ready st received := by
  obtain ⟨p, codes, himp, once⟩ := h
  obtain ⟨info, hinfo, hstands, ⟨hcrossed, hzero⟩ | ⟨-, hleads⟩⟩ :=
    leads_start himp args st received
  · rw [hcrossed, hzero] at hstands
    exact StandsAt.ready once hstands haccepts
  · refine hleads.mono (fun _ _ => trivial) ?_
    rintro _ _ ⟨rfl, rfl⟩
    exact .runs once hstands (haccepts.of_eq (Scope.closures_shareAll _ _ _))

/-- A call is ready when it has its answer. -/
theorem Awaits.ready (h : a.Awaits) (haccepts : st.Accepts) : a.Ready st received := by
  obtain ⟨p, codes, b, i, info, op, results, once, h⟩ := h
  exact .last h.advance
    (.runs once (h.stands received) (haccepts.of_eq (Scope.closures_receive _ _ _ _)))

/-- **A ready call goes on**, and is ready again while it runs. -/
theorem Ready.advance (h : a.Ready st received) :
    ∃ st' pr, a.advance st received = .ok (st', pr) ∧
      ((∃ a', pr = .runs a' ∧ a'.Ready st' received) ∨
        Steady st' pr ∧ ∀ a', pr ≠ .runs a') := by
  cases h with
  | @last _ _ st' pr hadv hsteady =>
    refine ⟨st', pr, hadv, ?_⟩
    cases hsteady with
    | runs once hstands haccepts => exact Or.inl ⟨_, rfl, hstands.ready once haccepts⟩
    | asks h haccepts => exact Or.inr ⟨.asks h haccepts, fun _ => by simp⟩
    | returns haccepts => exact Or.inr ⟨.returns haccepts, fun _ => by simp⟩
    | tailCalls haccepts => exact Or.inr ⟨.tailCalls haccepts, fun _ => by simp⟩
    | fails haccepts => exact Or.inr ⟨.fails haccepts, fun _ => by simp⟩
  | more hadv _ hrest => exact ⟨_, _, hadv, Or.inl ⟨_, rfl, hrest⟩⟩

theorem Awaits.resumesAt (h : a.Awaits) : a.closure.code.ResumesAt a.frame.point a.pc := by
  obtain ⟨p, codes, b, i, info, op, results, -, h⟩ := h
  exact h.resumesAt

end Activation

end ResumableVM
