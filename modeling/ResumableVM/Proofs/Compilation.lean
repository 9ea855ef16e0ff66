import ResumableVM.Proofs.Renaming
import ResumableVM.Proofs.StaticTypes

/-! # Compilation: compiled code does what its graph says

Running the code of a procedure and walking its graph `Agree`: whatever is seen of one is seen of
the other, with heaps that are the same up to the names of cells, and they still agree when what
they ask for has been answered alike. This is a bisimulation in which nobody sees how a call gets on.

Both calls are `InStep` when they are at their start, stand at the same operation, or wait for the
answer to it, with registers and heaps that are alike. Calls in step get on to where they are in step
again, or show the same (`InStep.getsOn`), so compiled code and the graph agree from the start on
(`compile_preserves_meaning`). -/

namespace ResumableVM

/-! ### Agreement -/

/-- What a walk asked for has been answered alike on both sides: the heaps are alike again, and the
registers whose cells nobody else has are as they were. -/
structure Answered (w : Walk) (ρ : Renaming) (st' : Store) (ρ₁ : Renaming) (st₁ st₁' : Store) :
    Prop where
  le : ρ ≤ ρ₁
  heap : st₁.Alike ρ₁ st₁'
  alone : ∀ c' ∈ w.scope.file.ids, ρ.Alone c' →
    c'.index < st₁'.cells.size ∧ st₁'.cell c' = st'.cell c' ∧ ρ₁.Alone c'

/-- Relations between a call of compiled code and a walk, both with their stores, that are about to
receive the same answer. -/
abbrev CallRelation := Renaming → Activation → Store → Walk → Store → List Value → Prop

/-- **The same is seen of both**, in heaps that are alike. If it is a request, which resolves alike
then (`Store.Alike.resolve`), the calls are related with every answer that they have in common,
whether or not the one with the code was suspended before. -/
inductive Matches (limit : Nat) (R : CallRelation) (ρ : Renaming) :
    Except Defect (Store × Progress Activation) → Except Defect (Store × Progress Walk) → Prop
  | returns {ρ₁ : Renaming} {st st' : Store} {vs : List Value} (le : ρ ≤ ρ₁)
      (heap : st.Alike ρ₁ st') :
      Matches limit R ρ (.ok (st, .returns vs)) (.ok (st', .returns vs))
  | tailCalls {ρ₁ : Renaming} {st st' : Store} {target : Value} {args : List Value} (le : ρ ≤ ρ₁)
      (heap : st.Alike ρ₁ st') :
      Matches limit R ρ (.ok (st, .tailCalls target args)) (.ok (st', .tailCalls target args))
  | fails {ρ₁ : Renaming} {st st' : Store} {e : Error} (le : ρ ≤ ρ₁) (heap : st.Alike ρ₁ st') :
      Matches limit R ρ (.ok (st, .fails e)) (.ok (st', .fails e))
  | asks {ρ₁ : Renaming} {a : Activation} {w : Walk} {st st' : Store} {q : Request} (le : ρ ≤ ρ₁)
      (heap : st.Alike ρ₁ st')
      (again : ∀ {ρ₂ : Renaming} {a₂ : Activation} {st₂ st₂' : Store} {vs : List Value},
        q.Answers limit st st₂ vs → Answered w ρ₁ st' ρ₂ st₂ st₂' → a.GoesOn a₂ →
          R ρ₂ a₂ st₂ w st₂' vs) :
      Matches limit R ρ (.ok (st, .asks a q)) (.ok (st', .asks w q))

theorem Matches.mono {limit : Nat} {R : CallRelation} {ρ₀ ρ : Renaming}
    {out : Except Defect (Store × Progress Activation)}
    {out' : Except Defect (Store × Progress Walk)} (hle : ρ₀ ≤ ρ) (h : Matches limit R ρ out out') :
    Matches limit R ρ₀ out out' := by
  cases h with
  | returns le heap => exact .returns (hle.trans le) heap
  | tailCalls le heap => exact .tailCalls (hle.trans le) heap
  | fails le heap => exact .fails (hle.trans le) heap
  | asks le heap again => exact .asks (hle.trans le) heap again

/-- Whatever is seen of one of two related calls, the like of it is seen of the other. -/
structure IsBisimulation (limit : Nat) (R : CallRelation) : Prop where
  walks : ∀ {ρ a st w st' received out}, R ρ a st w st' received →
    Plays Activation.advance a st received out →
      ∃ out', Plays Walk.advance w st' received out' ∧ Matches limit R ρ out out'
  runs : ∀ {ρ a st w st' received out'}, R ρ a st w st' received →
    Plays Walk.advance w st' received out' →
      ∃ out, Plays Activation.advance a st received out ∧ Matches limit R ρ out out'

/-- **A call of compiled code and a walk agree** on all that is ever seen of them. -/
def Agree (limit : Nat) (ρ : Renaming) (a : Activation) (st : Store) (w : Walk) (st' : Store)
    (received : List Value) : Prop :=
  ∃ R, IsBisimulation limit R ∧ R ρ a st w st' received

/-! ### The walk beside the call -/

/-- The walk stands at an operation of a block or at its exit, with the registers and the heap of a
call. -/
structure Along (ρ : Renaming) (p : Procedure) (codes : List Code) (b i : Nat)
    (awaiting : Option Results) (closure : Closure) (s : Scope Window) (st : Store) (w : Walk)
    (st' : Store) : Prop where
  block : ∃ block, p.blocks[b]? = some block ∧ w.exit = block.exit
  ops : w.ops = (p.opsOf b).drop i
  awaiting : w.awaiting = awaiting
  setting : (closure.setting p codes).Alike ρ w.setting
  scope : Scope.Alike ρ (s, st) (w.scope, st')

namespace Along

variable {ρ : Renaming} {p : Procedure} {codes : List Code} {b i : Nat} {closure : Closure}
  {s s₁ : Scope Window} {st st₁ st' : Store} {w : Walk} {op : Op} {received : List Value}
  {results : Results} {awaiting : Option Results}

/-- Where an operation stands, the walk carries it out. -/
theorem ops_eq (h : Along ρ p codes b i awaiting closure s st w st')
    (ho : (p.opsOf b)[i]? = some op) : w.ops = op :: (p.opsOf b).drop (i + 1) := by
  obtain ⟨hlt, hop⟩ := List.getElem?_eq_some_iff.mp ho
  rw [h.ops, List.drop_eq_getElem_cons hlt, hop]

theorem performs (h : Along ρ p codes b i awaiting closure s st w st') (hop : p.ValidOp op)
    (hsize : s.file.size = p.registers) :
    ((closure.setting p codes).perform s st op).Alike ρ (w.setting.perform w.scope st' op) :=
  h.setting.perform h.scope hop hsize

/-- The walk goes on as the call does. -/
theorem goesOn (h : Along ρ p codes b i none closure s st w st')
    (ho : (p.opsOf b)[i]? = some op) (hop : p.ValidOp op) (hsize : s.file.size = p.registers)
    (hperform : (closure.setting p codes).perform s st op = .goesOn s₁ st₁) :
    ∃ ρ₁ w₁ st₁', ρ ≤ ρ₁ ∧ w.advance st' received = .ok (st₁', .runs w₁) ∧
      Along ρ₁ p codes b (i + 1) none closure s₁ st₁ w₁ st₁' := by
  have halike := h.performs hop hsize
  rw [hperform] at halike
  generalize hwalk : w.setting.perform w.scope st' op = performed at halike
  cases halike with
  | @goesOn ρ₁ x x' hle hscope =>
    refine ⟨ρ₁, { w with scope := x'.1, ops := (p.opsOf b).drop (i + 1) }, x'.2, hle, ?_,
      h.block, rfl, h.awaiting, h.setting.mono hle, hscope⟩
    simp only [Walk.advance, h.awaiting, h.ops_eq ho, hwalk]

/-- The walk asks as the call does, and waits. -/
theorem asks {q : Request} (h : Along ρ p codes b i none closure s st w st')
    (ho : (p.opsOf b)[i]? = some op) (hop : p.ValidOp op) (hsize : s.file.size = p.registers)
    (hperform : (closure.setting p codes).perform s st op = .asks q results) :
    ∃ w₁, w.advance st' received = .ok (st', .asks w₁ q) ∧
      Along ρ p codes b (i + 1) (some results) closure s st w₁ st' := by
  have halike := h.performs hop hsize
  rw [hperform] at halike
  generalize hwalk : w.setting.perform w.scope st' op = performed at halike
  cases halike with
  | asks q results =>
    refine ⟨{ w with ops := (p.opsOf b).drop (i + 1), awaiting := some results }, ?_, h.block, rfl,
      rfl, h.setting, h.scope⟩
    simp only [Walk.advance, h.awaiting, h.ops_eq ho, hwalk]

/-- The walk fails as the call does. -/
theorem fails {e : Error} (h : Along ρ p codes b i none closure s st w st')
    (ho : (p.opsOf b)[i]? = some op) (hop : p.ValidOp op) (hsize : s.file.size = p.registers)
    (hperform : (closure.setting p codes).perform s st op = .fails e) :
    w.advance st' received = .ok (st', .fails e) := by
  have halike := h.performs hop hsize
  rw [hperform] at halike
  generalize hwalk : w.setting.perform w.scope st' op = performed at halike
  cases halike with
  | fails e => simp only [Walk.advance, h.awaiting, h.ops_eq ho, hwalk]

/-- The walk receives the answer. -/
theorem receives (h : Along ρ p codes b i (some results) closure s st w st') (vs : List Value) :
    ∃ w₁ st₁', w.advance st' vs = .ok (st₁', .runs w₁) ∧
      Along ρ p codes b i none closure (s.receive st results vs).1 (s.receive st results vs).2 w₁
        st₁' := by
  refine ⟨{ w with scope := (w.scope.receive st' results vs).1, awaiting := none },
    (w.scope.receive st' results vs).2, ?_, h.block, h.ops, rfl, h.setting,
    h.scope.receive results vs⟩
  simp only [Walk.advance, h.awaiting]

/-- The registers of both calls are alike after an answer. -/
theorem answered (h : Along ρ p codes b i awaiting closure s st w st') {ρ₁ : Renaming}
    {st₁' : Store} (hans : Answered w ρ st' ρ₁ st₁ st₁') :
    Along ρ₁ p codes b i awaiting closure s st₁ w st₁' := by
  refine ⟨h.block, h.ops, h.awaiting, h.setting.mono hans.le, hans.heap,
    ⟨h.scope.file.size, fun {r slot c'} hs hc => ?_, h.scope.file.apart⟩, h.scope.varargs,
    h.scope.multi⟩
  have halike := h.scope.file.slots hs hc
  cases slot with
  | plain v =>
    obtain ⟨-, hv, halone⟩ := halike
    obtain ⟨hlt₁, hsame, halone₁⟩ := hans.alone c' (Array.mem_of_getElem? hc) halone
    exact ⟨hlt₁, hsame.trans hv, halone₁⟩
  | boxed c => exact hans.le c c' halike

/-- The walk passes to another block as the call does. -/
theorem goesTo (h : Along ρ p codes b i none closure s st w st') {block next : Block}
    (hb : p.blocks[b]? = some block) (hi : block.ops.length ≤ i) {t : Nat}
    (ht : p.blocks[t]? = some next) (hleave : block.exit.leave s st = .goesTo t) :
    ∃ w₁, w.advance st' received = .ok (st', .runs w₁) ∧
      Along ρ p codes t 0 none closure s st w₁ st' := by
  obtain ⟨block', hb', hexit⟩ := h.block
  cases hb.symm.trans hb'
  have hprocedure : p = w.setting.procedure := h.setting.procedure
  have hops : w.ops = [] := by
    rw [h.ops, Procedure.opsOf_eq hb]
    exact List.drop_eq_nil_of_le hi
  have henter : Walk.enter w.setting w.scope t =
      .ok ⟨w.setting, w.scope, next.ops, next.exit, none⟩ := by
    simp only [Walk.enter, ← hprocedure, ht]
  refine ⟨⟨w.setting, w.scope, next.ops, next.exit, none⟩, ?_, ⟨next, ht, rfl⟩,
    (Procedure.opsOf_eq ht).symm, rfl, h.setting, h.scope⟩
  simp only [Walk.advance, h.awaiting, hops, hexit, ← h.scope.leave, hleave, henter, bind,
    Except.bind, pure, Except.pure]

/-- The walk ends as the call does. -/
theorem ends (h : Along ρ p codes b i none closure s st w st') {block : Block}
    (hb : p.blocks[b]? = some block) (hi : block.ops.length ≤ i) :
    (∀ vs, block.exit.leave s st = .returns vs →
        w.advance st' received = .ok (st', .returns vs)) ∧
      ∀ target args, block.exit.leave s st = .tailCalls target args →
        w.advance st' received = .ok (st', .tailCalls target args) := by
  obtain ⟨block', hb', hexit⟩ := h.block
  cases hb.symm.trans hb'
  have hops : w.ops = [] := by
    rw [h.ops, Procedure.opsOf_eq hb]
    exact List.drop_eq_nil_of_le hi
  refine ⟨fun vs hleave => ?_, fun target args hleave => ?_⟩
  · simp only [Walk.advance, h.awaiting, hops, hexit, ← h.scope.leave, hleave]
  · simp only [Walk.advance, h.awaiting, hops, hexit, ← h.scope.leave, hleave]

/-- The call moves registers into cells, which the walk has there already. -/
theorem crossed (h : Along ρ p codes b i awaiting closure s st w st') (there : SlotStates) :
    ∃ ρ₁, ρ ≤ ρ₁ ∧ Along ρ₁ p codes b i awaiting closure (Activation.crossed s st there).1
      (Activation.crossed s st there).2 w st' := by
  obtain ⟨ρ₁, hle, hscope⟩ := h.scope.shareAll (s.file.states.newlyCaptured there)
  exact ⟨ρ₁, hle, h.block, h.ops, h.awaiting, h.setting.mono hle, hscope⟩

end Along

/-! ### Arithmetic that nobody sees -/

/-- Arithmetic with a known answer has it at once. -/
theorem Request.answers_of_known {q : Request} {v : Value} (h : q.known? = some (.ok v))
    (limit : Nat) (st : Store) : q.Answers limit st st [v] := by
  cases q with
  | arith op x y =>
    simp only [Request.known?] at h
    split at h
    · exact answers_arith h limit st
    · cases h
  | _ => cases h

namespace Activation

variable {info : RegisterInfo} {a : Activation} {x y : Operand}

/-- What the types promise to be a number is one. -/
theorem Promised.kind (h : Promised info a x) (hs : a.frame.window.states = info.states)
    (hfits : info.types.Fits a.frame.window) (st : Store) :
    (a.frame.scope.value st x).kind = .number := by
  have htype := staticType_operand (s := a.frame.scope) st hfits hs h.registers
  obtain ⟨n, -, hn⟩ := Value.exists_number (ValueType.isNumeric_of_isSubtypeOf htype h.numeric)
  rw [hn]
  cases n <;> rfl

/-- Arithmetic on promised numbers is not seen. -/
theorem Promised.known (hx : Promised info a x) (hy : Promised info a y)
    (hs : a.frame.window.states = info.states) (hfits : info.types.Fits a.frame.window)
    (st : Store) (op : ArithOp) :
    (Request.arith op (a.frame.scope.value st x) (a.frame.scope.value st y)).known? =
      rawArithmetic? op (a.frame.scope.value st x) (a.frame.scope.value st y) :=
  if_pos ⟨hx.kind hs hfits st, hy.kind hs hfits st⟩

/-- A way to some progress is not seen up to there. -/
theorem Leads.passes {received : List Value} {M : Activation → Prop}
    {Q : Store → Progress Activation → Prop} {st : Store} (h : Leads received M Q a st) :
    ∃ n a₁ st₁ st' pr, Passes advance n a st received a₁ st₁ received ∧
      a₁.advance st₁ received = .ok (st', pr) ∧ Q st' pr := by
  induction h with
  | last hadv hq => exact ⟨0, _, _, _, _, .refl, hadv, hq⟩
  | more hadv _ _ ih =>
    obtain ⟨n, a₁, st₁, st', pr, hpasses, hlast, hq⟩ := ih
    exact ⟨n + 1, a₁, st₁, st', pr, (passes_runs hadv).trans hpasses, hlast, hq⟩

end Activation

/-! ### Calls in step -/

/-- **The invariant**: both calls are at their start, stand at the same operation, or wait for the
answer to it, and all that the registers and the heap hold is alike. -/
inductive InStep (ρ : Renaming) :
    Activation → Store → List Value → Walk → Store → List Value → Prop
  | starts {p : Procedure} {codes : List Code} {closure : Closure} {c' : Setting} {st st' : Store}
      {received received' : List Value} (himp : closure.Implements p codes) (once : p.ClosesOnce)
      (setting : (closure.setting p codes).Alike ρ c') (heap : st.Alike ρ st') (args : List Value) :
      InStep ρ (.start closure args) st received (Walk.start c' args st').1
        (Walk.start c' args st').2 received'
  | stands {p : Procedure} {codes : List Code} {b i : Nat} {info : RegisterInfo} {a : Activation}
      {w : Walk} {st st' : Store} {received received' : List Value} (once : p.ClosesOnce)
      (stands : a.StandsAt p codes b i info) (fits : info.types.Fits a.frame.window)
      (along : Along ρ p codes b i none a.closure a.frame.scope st w st') :
      InStep ρ a st received w st' received'
  | receives {p : Procedure} {codes : List Code} {b i : Nat} {info : RegisterInfo} {op : Op}
      {results : Results} {a : Activation} {w : Walk} {st st' : Store} {vs : List Value}
      (once : p.ClosesOnce) (waits : a.Waits p codes b i info op results)
      (fits : (p.typeFlow info op).types.Fits (a.frame.scope.receive st results vs).1.file)
      (along : Along ρ p codes b (i + 1) (some results) a.closure a.frame.scope st w st') :
      InStep ρ a st vs w st' vs

namespace InStep

/-- Calls in step that are about to receive the same answer. -/
def Related : CallRelation := fun ρ a st w st' received => InStep ρ a st received w st' received

/-- Calls in step under a renaming that pairs more. -/
def Beyond (ρ : Renaming) (a : Activation) (st : Store) (received : List Value) (w : Walk)
    (st' : Store) (received' : List Value) : Prop :=
  ∃ ρ₁, ρ ≤ ρ₁ ∧ InStep ρ₁ a st received w st' received'

/-- What calls in step do: they get on to where they are in step again, or show the same. -/
abbrev GetsOn (limit : Nat) (ρ : Renaming) :=
  Round Activation.advance Walk.advance (Beyond ρ) (Matches limit Related ρ)

variable {limit : Nat} {ρ ρ₁ : Renaming} {p : Procedure} {codes : List Code} {b i : Nat}
  {info : RegisterInfo} {a a₁ : Activation} {st st' st₁ st₂ : Store} {w : Walk}
  {received received' : List Value} {op : Op} {pr : Progress Activation} {n : Nat}

theorem GetsOn.mono (hle : ρ ≤ ρ₁) (h : GetsOn limit ρ₁ a st received w st' received') :
    GetsOn limit ρ a st received w st' received' := by
  cases h with
  | passes here there again =>
    obtain ⟨ρ₂, hle', hstep⟩ := again
    exact .passes here there ⟨ρ₂, hle.trans hle', hstep⟩
  | shows here there matching => exact .shows here there (matching.mono hle)

/-- What an operation asks for is answered, and the calls are in step with the answer. -/
theorem receives_of_answers {q : Request} {results : Results} {vs : List Value}
    (once : p.ClosesOnce) (h : a.Waits p codes b i info op results)
    (hfits : info.types.Fits a.frame.window)
    (hperform : (a.closure.setting p codes).perform a.frame.scope st op = .asks q results)
    (hans : q.Answers limit st st₁ vs)
    (halong : Along ρ p codes b (i + 1) (some results) a.closure a.frame.scope st₁ w st') :
    InStep ρ a st₁ vs w st' vs :=
  .receives once h (h.fits_answered hfits hperform hans) halong

/-- **Both ask.** -/
theorem getsOn_of_asks {q : Request} {results : Results} {point : Nat} (once : p.ClosesOnce)
    (hwaits : (a.asking point).Waits p codes b i info op results)
    (hfits : info.types.Fits a.frame.window)
    (hperform : (a.closure.setting p codes).perform a.frame.scope st op = .asks q results)
    (here : Passes Activation.advance n a st received a₁ st₁ received)
    (hadv : a₁.advance st₁ received = .ok (st, .asks (a.asking point) q)) {w₁ : Walk}
    (hwalk : w.advance st' received' = .ok (st', .asks w₁ q))
    (halong : Along ρ p codes b (i + 1) (some results) a.closure a.frame.scope st w₁ st') :
    GetsOn limit ρ a st received w st' received' := by
  cases hknown : q.known? with
  | none =>
    refine .shows ((plays_asks hadv hknown).of_passes here) (plays_asks hwalk hknown)
      (.asks le_rfl halong.scope.heap fun hans hanswered hgo => ?_)
    obtain rfl := hwaits.goesOn hgo
    exact receives_of_answers once hwaits hfits hperform hans (halong.answered hanswered)
  | some answer =>
    cases answer with
    | ok v =>
      exact .passes (here.known hadv hknown) (Passes.refl.known hwalk hknown)
        ⟨ρ, le_rfl, receives_of_answers once hwaits hfits hperform
          (Request.answers_of_known hknown limit st) halong⟩
    | error e =>
      exact .shows ((plays_refuses hadv hknown).of_passes here) (plays_refuses hwalk hknown)
        (.fails le_rfl halong.scope.heap)

/-- **Calls at an operation get on**, by what its lines come to. -/
theorem getsOn_of_comes (once : p.ClosesOnce) (h : a.StandsAt p codes b i info)
    (hfits : info.types.Fits a.frame.window) (ho : (p.opsOf b)[i]? = some op)
    (halong : Along ρ p codes b i none a.closure a.frame.scope st w st')
    (here : Passes Activation.advance n a st received a₁ st₁ received)
    (hadv : a₁.advance st₁ received = .ok (st₂, pr))
    (hc : a.Comes info st (p.opAddress b (i + 1))
      ((a.closure.setting p codes).perform a.frame.scope st op) st₂ pr) :
    GetsOn limit ρ a st received w st' received' := by
  have hop := Procedure.validOp_of_getElem? h.implements.valid ho
  have heap := halong.scope.heap
  generalize hperform : (a.closure.setting p codes).perform a.frame.scope st op = performed at hc
  cases hc with
  | goesOn =>
    obtain ⟨ρ₁, w₁, st₁', hle, hwalk, halong₁⟩ := halong.goesOn ho hop h.size hperform
    exact .passes (here.runs hadv) (Passes.refl.runs hwalk)
      ⟨ρ₁, hle, .stands once (h.performed ho hperform) (h.fits_perform hfits ho hperform) halong₁⟩
  | fails =>
    exact .shows ((plays_fails hadv).of_passes here)
      (plays_fails (halong.fails ho hop h.size hperform)) (.fails le_rfl heap)
  | asks hask hreceive htwo =>
    obtain ⟨w₁, hwalk, halong₁⟩ := halong.asks ho hop h.size hperform
    exact getsOn_of_asks once (h.waits ho hperform hask hreceive htwo) hfits hperform here hadv
      hwalk halong₁
  | @computes aop x y v dst hx hy hraw =>
    have hknown := (hx.known hy h.states hfits st aop).trans hraw
    have hans := Request.answers_of_known hknown limit st
    obtain ⟨w₁, hwalk, halong₁⟩ := halong.asks ho hop h.size hperform
    obtain ⟨w₂, st₂', hreceive, halong₂⟩ := halong₁.receives [v]
    exact .passes (here.runs hadv) ((Passes.refl.known hwalk hknown).runs hreceive)
      ⟨ρ, le_rfl, .stands once (h.assigned ho hperform v) (h.fits_answered hfits ho hperform hans)
        halong₂⟩
  | @refuses aop x y dst e hx hy hraw =>
    have hknown := (hx.known hy h.states hfits st aop).trans hraw
    obtain ⟨w₁, hwalk, -⟩ := halong.asks ho hop h.size hperform
    exact .shows ((plays_fails hadv).of_passes here) (plays_refuses hwalk hknown)
      (.fails le_rfl heap)
  | @baffled aop x y dst hx hy hraw =>
    -- promised numbers have an answer
    obtain ⟨answer, hanswer, -⟩ := rawArithmetic?_of_isNumeric aop
      (staticType_operand (s := a.frame.scope) st hfits h.states hx.registers)
      (staticType_operand (s := a.frame.scope) st hfits h.states hy.registers)
      hx.numeric hy.numeric
    cases hanswer.symm.trans hraw

/-- **Calls at an exit get on**, by how the block is left. -/
theorem getsOn_of_leaves (once : p.ClosesOnce) (h : a.StandsAt p codes b i info)
    (hfits : info.types.Fits a.frame.window) {block : Block} (hb : p.blocks[b]? = some block)
    (hi : block.ops.length ≤ i)
    (halong : Along ρ p codes b i none a.closure a.frame.scope st w st')
    (here : Passes Activation.advance n a st received a₁ st₁ received)
    (hadv : a₁.advance st₁ received = .ok (st₂, pr))
    (hl : a.Leaves p st (block.exit.leave a.frame.scope st) st₂ pr) :
    GetsOn limit ρ a st received w st' received' := by
  have hends := @Along.ends ρ p codes b i a.closure a.frame.scope st st' w received' halong block
    hb hi
  have heap := halong.scope.heap
  generalize hleave : block.exit.leave a.frame.scope st = departure at hl
  cases hl with
  | @goesTo t states hs =>
    obtain ⟨there, rfl, hflows, hstands⟩ := h.enters st hb hi
      (Activation.mem_successors_of_leave hleave) hs
    obtain ⟨next, hnext⟩ := Procedure.exists_block h.implements.valid hstands.known
    obtain ⟨w₁, hwalk, halong₁⟩ := halong.goesTo hb hi hnext hleave
    obtain ⟨ρ₁, hle, hcrossed⟩ := halong₁.crossed there.states
    exact .passes (here.runs hadv) (Passes.refl.runs hwalk) ⟨ρ₁, hle, .stands once hstands
      ((TypeSeq.Fits.shareAll hfits).mono fun r _ => hflows.types r) hcrossed⟩
  | returns =>
    exact .shows ((plays_returns hadv).of_passes here) (plays_returns (hends.1 _ hleave))
      (.returns le_rfl heap)
  | tailCalls =>
    exact .shows ((plays_tailCalls hadv).of_passes here) (plays_tailCalls (hends.2 _ _ hleave))
      (.tailCalls le_rfl heap)

/-- **Calls that stand at an operation get on.** The walk passes alone through operations that have
no lines. -/
theorem getsOn_of_stands (once : p.ClosesOnce) (h : a.StandsAt p codes b i info)
    (hfits : info.types.Fits a.frame.window)
    (halong : Along ρ p codes b i none a.closure a.frame.scope st w st') :
    GetsOn limit ρ a st received w st' received' := by
  obtain ⟨j, there, h, ⟨hfits, ρ₁, w₁, st₁', m, hle, hpasses, halong⟩, hrest⟩ :=
    h.at_lines once (P := fun j there => there.types.Fits a.frame.window ∧
      ∃ ρ₁ w₁ st₁' m, ρ ≤ ρ₁ ∧ Passes Walk.advance m w st' received' w₁ st₁' received' ∧
        Along ρ₁ p codes b j none a.closure a.frame.scope st w₁ st₁')
      (fun h hP ho hnil => by
        obtain ⟨hfits, ρ₁, w₁, st₁', m, hle, hpasses, halong⟩ := hP
        obtain ⟨ρ₂, w₂, st₂', hle', hwalk, halong'⟩ := halong.goesOn ho
          (Procedure.validOp_of_getElem? h.implements.valid ho) h.size
          (h.pass st ho (once.leavesOnce ho _) hnil).2
        exact ⟨Activation.fits_of_pass once h hfits ho hnil, ρ₂, w₂, st₂', m + 1, hle.trans hle',
          hpasses.runs hwalk, halong'⟩)
      ⟨hfits, ρ, w, st', 0, le_rfl, .refl, halong⟩
  refine GetsOn.mono hle (Round.after .refl hpasses ?_)
  rcases hrest with ho | ⟨op, ho, hne⟩
  · obtain ⟨block, hb, hi⟩ := h.exists_exit ho
    obtain ⟨n, a₁, st₁, st₂, pr, here, hadv, hl⟩ := (h.leaves hb hi).passes
    exact getsOn_of_leaves once h hfits hb hi halong here hadv hl
  · obtain ⟨n, a₁, st₁, st₂, pr, here, hadv, hc⟩ := (h.leads ho (once.leavesOnce ho _) hne).passes
    exact getsOn_of_comes once h hfits ho halong here hadv hc

/-! ### The start -/

/-- Both calls start with the same registers and the same heap. -/
theorem alike_start {closure : Closure} {c' : Setting} (himp : closure.Implements p codes)
    (hsetting : (closure.setting p codes).Alike ρ c') (hheap : st.Alike ρ st') (args : List Value) :
    Scope.Alike ρ ((Activation.start closure args).frame.scope, st)
      ((Walk.start c' args st').1.scope, (Walk.start c' args st').2) := by
  obtain ⟨hstore, hfile⟩ := hheap.allocate (p.startValues args)
  have hprocedure : p = c'.procedure := hsetting.procedure
  rw [Activation.frame_start himp]
  unfold Walk.start
  rw [← hprocedure]
  exact ⟨hstore, hfile, rfl, rfl⟩

/-- **Calls get on at their start.** The walk passes to the first block. -/
theorem getsOn_of_starts {closure : Closure} {c' : Setting} (himp : closure.Implements p codes)
    (once : p.ClosesOnce) (hsetting : (closure.setting p codes).Alike ρ c')
    (hheap : st.Alike ρ st') (args : List Value) :
    GetsOn limit ρ (.start closure args) st received (Walk.start c' args st').1
      (Walk.start c' args st').2 received' := by
  obtain ⟨info, hinfo, hstands, hstart⟩ := Activation.leads_start himp args st received
  obtain ⟨block, hb⟩ := Procedure.exists_block himp.valid hinfo
  have hfits := Activation.fits_entered himp args st hinfo
  have hprocedure : p = c'.procedure := hsetting.procedure
  have hscope := alike_start himp hsetting hheap args
  have hwalk : (Walk.start c' args st').1.advance (Walk.start c' args st').2 received' =
      .ok ((Walk.start c' args st').2,
        .runs ⟨c', (Walk.start c' args st').1.scope, block.ops, block.exit, none⟩) := by
    simp only [Walk.advance, Walk.start, Exit.leave, Walk.enter, ← hprocedure, hb]
    rfl
  have halong : Along ρ p codes 0 0 none closure (Activation.start closure args).frame.scope st
      ⟨c', (Walk.start c' args st').1.scope, block.ops, block.exit, none⟩
      (Walk.start c' args st').2 :=
    ⟨⟨block, hb, rfl⟩, (Procedure.opsOf_eq hb).symm, rfl, hsetting, hscope⟩
  rcases hstart with ⟨hcrossed, hzero⟩ | ⟨-, hleads⟩
  · rw [hcrossed, hzero] at hstands
    rw [hcrossed] at hfits
    exact Round.after .refl (Passes.refl.runs hwalk) (getsOn_of_stands once hstands hfits halong)
  · obtain ⟨n, a₁, st₁, _, _, here, hadv, rfl, rfl⟩ := hleads.passes
    obtain ⟨ρ₁, hle, hentered⟩ := halong.crossed info.states
    exact .passes (here.runs hadv) (Passes.refl.runs hwalk)
      ⟨ρ₁, hle, .stands once hstands hfits hentered⟩

/-- **Calls in step get on.** -/
theorem getsOn (h : InStep ρ a st received w st' received') :
    GetsOn limit ρ a st received w st' received' := by
  cases h with
  | starts himp once hsetting hheap args => exact getsOn_of_starts himp once hsetting hheap args
  | stands once hstands hfits halong => exact getsOn_of_stands once hstands hfits halong
  | receives once hwaits hfits halong =>
    obtain ⟨w₁, st₁', hwalk, halong₁⟩ := halong.receives received
    exact .passes (passes_runs hwaits.advance) (Passes.refl.runs hwalk)
      ⟨ρ, le_rfl, .stands once (hwaits.stands received) hfits halong₁⟩

theorem Beyond.getsOn (h : Beyond ρ a st received w st' received') :
    GetsOn limit ρ a st received w st' received' := by
  obtain ⟨ρ₁, hle, hstep⟩ := h
  exact GetsOn.mono hle (InStep.getsOn hstep)

/-- **Calls in step show the same**, from either side. -/
theorem isBisimulation (limit : Nat) : IsBisimulation limit Related where
  walks := by
    rintro ρ a st w st' received out h ⟨fuel, hplay⟩
    exact plays_of_rounds (P := Beyond ρ) (fun _ _ _ _ _ _ h => h.getsOn) ⟨ρ, le_rfl, h⟩ hplay
  runs := by
    rintro ρ a st w st' received out h ⟨fuel, hplay⟩
    exact plays_of_rounds
      (P := fun w st' received' a st received => Beyond ρ a st received w st' received')
      (fun _ _ _ _ _ _ h => h.getsOn.symm) ⟨ρ, le_rfl, h⟩ hplay

end InStep

/-! ### Meaning -/

/-- Starting with alike upvalues in alike heaps, compiled code and a walk agree. -/
theorem agree_start {closure : Closure} {p : Procedure} {codes : List Code} {ρ : Renaming}
    {c' : Setting} {st st' : Store} (himp : closure.Implements p codes) (once : p.ClosesOnce)
    (hsetting : (closure.setting p codes).Alike ρ c') (hheap : st.Alike ρ st') (limit : Nat)
    (args received : List Value) :
    Agree limit ρ (.start closure args) st (Walk.start c' args st').1 (Walk.start c' args st').2
      received :=
  ⟨InStep.Related, InStep.isBisimulation limit, .starts himp once hsetting hheap args⟩

/-- The cells exist. -/
def Store.HasCells (st : Store) (cells : Array CellId) : Prop :=
  ∀ c ∈ cells, c.index < st.cells.size

theorem Store.HasCells.identity {st : Store} {cells : Array CellId} (h : st.HasCells cells) :
    List.Forall₂ (Renaming.identity st) cells.toList cells.toList :=
  List.forall₂_same.mpr fun c hc => ⟨rfl, h c (Array.mem_toList_iff.mp hc)⟩

/-- A heap is alike itself. -/
theorem Store.alike_identity {st : Store} (h : ∀ c ∈ st.closures, st.HasCells c.upvalues) :
    st.Alike (Renaming.identity st) st where
  tables := rfl
  kinds := rfl
  closures := List.forall₂_same.mpr fun c hc => ⟨rfl, (h c (Array.mem_toList_iff.mp hc)).identity⟩
  exist := by
    rintro c _ ⟨rfl, hlt⟩
    exact ⟨hlt, hlt⟩
  values := by
    rintro c _ ⟨rfl, -⟩
    rfl
  injective := by
    rintro c _ d _ ⟨rfl, -⟩ ⟨rfl, -⟩
    rfl

/-- **Compilation preserves meaning.** A call of compiled code agrees with the walk through the graph
that keeps all registers in cells and asks for all arithmetic, whatever the arguments, the upvalues
and the heap are, and whatever the answers are to what they ask for. -/
theorem compile_preserves_meaning {p : Procedure} {code : Code} (hcompile : p.compile = .ok code)
    (once : p.ClosesOnce) {st : Store} (hst : ∀ c ∈ st.closures, st.HasCells c.upvalues)
    {upvalues : Array CellId} (hcells : st.HasCells upvalues)
    (hsize : upvalues.size = p.upvalues.length) (limit : Nat) (args received : List Value) :
    Agree limit (Renaming.identity st) (.start ⟨code, upvalues⟩ args) st
      (Walk.start ⟨p, code.nested, upvalues⟩ args st).1
      (Walk.start ⟨p, code.nested, upvalues⟩ args st).2 received := by
  obtain ⟨hvalid, codes, hnested, rfl⟩ := Procedure.compile_eq_ok_iff.mp hcompile
  have himp : (⟨p.assemble codes, upvalues⟩ : Closure).Implements p codes :=
    ⟨hvalid, hnested, rfl, hsize⟩
  exact agree_start himp once ⟨rfl, rfl, hcells.identity, hsize⟩ (Store.alike_identity hst) limit
    args received

/-- A procedure that returns what it captures. -/
def Procedure.captured : Procedure where
  name := "captured"
  params := 0
  isVararg := false
  registers := 1
  upvalues := [.register 0]
  blocks := [⟨[.getUpvalue 0 0], .ret ⟨[.register 0], false⟩⟩]
  nested := []

/-- A procedure that shares its argument with a closure, adds to it, and calls the closure when the
register is closed and has another value. -/
def Procedure.sharing : Procedure where
  name := "sharing"
  params := 1
  isVararg := false
  registers := 2
  upvalues := []
  blocks := [⟨[.closure 1 0, .arith 0 .add (.register 0) (.const (.integer 1)), .close [0],
    .load 0 (.integer 5), .call 1 ⟨[], false⟩ (.fixed [1])],
    .ret ⟨[.register 0, .register 1], false⟩⟩]
  nested := [captured]

/-- The code of the procedure. -/
def Code.sharing : Code := Procedure.sharing.assemble [Procedure.captured.assemble []]

theorem Procedure.compile_sharing : sharing.compile = .ok .sharing := by
  have hcaptured : captured.compile = .ok (captured.assemble []) :=
    compile_eq_ok_iff.mpr ⟨check_eq_ok_iff.mp rfl, [], .nil, rfl⟩
  exact compile_eq_ok_iff.mpr ⟨check_eq_ok_iff.mp rfl, _, .cons hcaptured .nil, rfl⟩

theorem Procedure.closesOnce_sharing : sharing.ClosesOnce := by
  intro block hb rs hrs
  simp only [sharing, List.mem_singleton] at hb
  subst hb
  simp only [List.mem_cons, reduceCtorEq, Op.close.injEq, List.not_mem_nil, false_or, or_false]
    at hrs
  subst hrs
  exact List.nodup_singleton 0

/-- The walk calls the closure too, with what was added in the heap. -/
theorem compile_preserves_meaning_sharing :
    ∃ (w : Walk) (st' : Store) (ρ : Renaming) (st : Store),
      Plays Walk.advance (Walk.start ⟨.sharing, Code.sharing.nested, #[]⟩ [.integer 7] .empty).1
        (Walk.start ⟨.sharing, Code.sharing.nested, #[]⟩ [.integer 7] .empty).2 []
        (.ok (st', .asks w (.call (.function (.closure ⟨0⟩)) []))) ∧
      st.Alike ρ st' ∧ st.cells = #[.integer 8] := by
  have hst : ∀ c ∈ Store.empty.closures, Store.empty.HasCells c.upvalues := fun c hc =>
    absurd hc (Array.not_mem_empty c)
  have hcells : Store.empty.HasCells #[] := fun c hc => absurd hc (Array.not_mem_empty c)
  obtain ⟨R, hR, h⟩ := compile_preserves_meaning Procedure.compile_sharing
    Procedure.closesOnce_sharing hst hcells rfl 10 [.integer 7] []
  obtain ⟨out', hout, hmatches⟩ := hR.walks h ⟨20, rfl⟩
  cases hmatches with
  | asks le heap again => exact ⟨_, _, _, _, hout, heap, rfl⟩

end ResumableVM
