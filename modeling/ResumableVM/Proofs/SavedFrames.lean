import ResumableVM.Machine.Host
import ResumableVM.Proofs.Closures
import ResumableVM.Proofs.Routines

/-! # SavedFrames: everything that a machine saves can go on

`Session` is what a host can do with a machine that has the standard library: it makes closures of
accepted procedures, starts calls, and resumes the signals that come out, in any order and with any
values. The invariant `Run.Ready` is kept by every step (`ready_step`), so every frame of every
signal is valid, and the machine never breaks (`saved_frames_valid`). -/

namespace ResumableVM

/-! ### The invariant -/

/-- The standard routine with a number goes on from what was saved. -/
def RoutineSaved (id : RoutineId) (phase : Nat) (locals : Locals) : Prop :=
  ∃ r, Library.standard.find? id = some r ∧ r.Saves phase locals

/-- The task waits for an answer that it can go on with. -/
def Task.Waits : Task → Prop
  | .compiled a => a.Awaits
  | .waiting id phase locals => RoutineSaved id phase locals

/-- The frame can go on. -/
def SavedFrame.Resumes : SavedFrame → Prop
  | .compiled closure frame => ∃ pc, (⟨closure, frame, pc⟩ : Activation).Awaits
  | .routine id phase locals => RoutineSaved id phase locals

/-- The library is the standard one, and every closure has accepted code. -/
structure Machine.Sound (m : Machine) : Prop where
  library : m.library = .standard
  store : m.store.Accepts

namespace Run

/-- All that is on the stack can go on. -/
structure Waits (r : Run) : Prop where
  machine : r.machine.Sound
  live : ∀ t ∈ r.live, t.Waits
  pending : ∀ f ∈ r.pending, f.Resumes

/-- The innermost task is ready for its next instruction, and all below it waits. -/
structure Advances (r : Run) (a : Activation) (rest : List Task) : Prop where
  live : r.live = .compiled a :: rest
  library : r.machine.library = .standard
  ready : a.Ready r.machine.store r.machine.channel.values
  below : ∀ t ∈ rest, t.Waits
  pending : ∀ f ∈ r.pending, f.Resumes

/-- What holds before each step. -/
def Ready (r : Run) : Control → Prop
  | .advance => ∃ a rest, r.Advances a rest
  | _ => r.Waits

end Run

/-- How a host call may end. -/
def Outcome.Sound : Outcome → Prop
  | .settled m | .failed m _ => m.Sound
  | .suspended m s => m.Sound ∧ ∀ f ∈ s.frames, f.Resumes
  | .broken _ => False

/-- What holds after each step. -/
def Step.Ready : Step → Prop
  | .next r c => r.Ready c
  | .done o => o.Sound

namespace Run

variable {r : Run}

theorem sound_fail (h : r.machine.Sound) (e : Error) : (r.fail e).Ready :=
  (⟨h.library, h.store⟩ : r.unwound.Sound)

/-- What a task leaves behind for a suspension can go on. -/
theorem resumes_of_saved {t : Task} {f : SavedFrame} (h : t.Waits) (hf : t.saved? = some f) :
    f.Resumes := by
  cases t with
  | compiled a =>
    simp only [Task.saved?] at hf
    split at hf
    · cases hf; exact ⟨a.pc, h⟩
    · cases hf
  | waiting id phase locals => cases hf; exact h

theorem sound_suspend (h : r.Waits) (own : SavedFrame) (hown : own.Resumes) (values : List Value) :
    (r.suspend values own).Ready := by
  refine ⟨⟨h.machine.library, h.machine.store⟩, fun f hf => ?_⟩
  rcases List.mem_append.mp hf with hf | hf
  · rcases List.mem_cons.mp hf with rfl | hf
    · exact hown
    · obtain ⟨t, ht, hsaved⟩ := List.mem_filterMap.mp hf
      exact resumes_of_saved (h.live t ht) hsaved
  · exact h.pending f hf

/-- Only the machine's library and closures matter. -/
theorem Waits.of_eq (h : r.Waits) {r' : Run} (hlibrary : r'.machine.library = r.machine.library)
    (hstore : r'.machine.store.closures = r.machine.store.closures) (hlive : r'.live = r.live)
    (hpending : r'.pending = r.pending) : r'.Waits :=
  ⟨⟨hlibrary.trans h.machine.library, h.machine.store.of_eq hstore⟩, hlive ▸ h.live,
    hpending ▸ h.pending⟩

/-! ### Routines -/

theorem ready_reply {id : RoutineId} {routine : Routine} {reply : Reply}
    (hfind : Library.standard.find? id = some routine) (h : r.Waits)
    (hsaves : reply.SavesOnly routine.Saves) : (r.reply id reply).Ready := by
  cases reply with
  | answers vs => exact h.of_eq rfl rfl rfl rfl
  | asks q phase locals =>
    refine ⟨h.machine, fun t ht => ?_, h.pending⟩
    rcases List.mem_cons.mp ht with rfl | ht
    · exact ⟨routine, hfind, hsaves⟩
    · exact h.live t ht
  | suspends vs phase locals =>
    exact sound_suspend (h.of_eq rfl rfl rfl rfl : r.leave.Waits) (.routine id phase locals)
      ⟨routine, hfind, hsaves⟩ vs
  | fails e => exact sound_fail (h.of_eq rfl rfl rfl rfl : r.leave.Waits).machine e

theorem ready_replied {id : RoutineId} {routine : Routine} {reply : Reply} {st : Store}
    {x : Except Defect (Store × Reply)} (hx : x = .ok (st, reply))
    (hfind : Library.standard.find? id = some routine) (h : r.Waits)
    (hstore : st.closures = r.machine.store.closures)
    (hsaves : reply.SavesOnly routine.Saves) : (r.replied id x).Ready := by
  subst hx
  exact ready_reply hfind (h.of_eq rfl hstore rfl rfl) hsaves

theorem ready_withRoutine {id : RoutineId} {use : Routine → Step} (h : r.Waits)
    (huse : ∀ routine, Library.standard.find? id = some routine → (use routine).Ready) :
    (r.withRoutine id use).Ready := by
  unfold withRoutine
  rw [h.machine.library]
  split
  · next routine hfind => exact huse routine hfind
  · exact sound_fail (h.of_eq rfl rfl rfl rfl : r.leave.Waits).machine _

theorem ready_resumeRoutine {id : RoutineId} {phase : Nat} {locals : Locals} (h : r.Waits)
    (hsaved : RoutineSaved id phase locals) : (r.resumeRoutine id phase locals).Ready := by
  refine ready_withRoutine h fun routine hfind => ?_
  obtain ⟨routine', hfind', hsaves⟩ := hsaved
  cases hfind.symm.trans hfind'
  obtain ⟨st, reply, hresume, hstore, hreply⟩ := (Routine.lawful_standard hfind).resume
    r.machine.store r.machine.channel.values phase locals hsaves
  exact ready_replied hresume hfind h hstore hreply

/-! ### Steps -/

theorem ready_enter (h : r.Waits) (f : Function) (args : List Value) : (r.enter f args).Ready := by
  unfold enter
  split
  · exact sound_fail h.machine _
  · next depth _ =>
    cases f with
    | closure id =>
      exact ⟨_, _, rfl, h.machine.library,
        Activation.ready_start (h.machine.store.closure id) args h.machine.store, h.live, h.pending⟩
    | routine id =>
      have h' : Run.Waits { r with machine.depth := depth } := h.of_eq rfl rfl rfl rfl
      refine ready_withRoutine h' fun routine hfind => ?_
      obtain ⟨st, reply, hinvoke, hstore, hreply⟩ :=
        (Routine.lawful_standard hfind).invoke r.machine.store args
      exact ready_replied hinvoke hfind h' hstore hreply

theorem ready_invoke (h : r.Waits) (target : Value) (args : List Value) :
    (r.invoke target args).Ready := by
  simp only [invoke]
  split
  · exact sound_fail h.machine _
  · next c _ =>
    refine ready_enter ?_ _ _
    cases c <;> exact h.of_eq rfl rfl rfl rfl

theorem count_eq (m : Machine) (q : Request) :
    (m.count q).library = m.library ∧ (m.count q).store = m.store := by
  cases q <;> exact ⟨rfl, rfl⟩

theorem countHandler_eq (m : Machine) (q : Request) :
    (m.countHandler q).library = m.library ∧ (m.countHandler q).store = m.store := by
  cases q <;> exact ⟨rfl, rfl⟩

theorem ready_request (h : r.Waits) (q : Request) : (r.request q).Ready := by
  have hcount := count_eq r.machine q
  have h' : Run.Waits { r with machine := r.machine.count q } :=
    h.of_eq hcount.1 (congrArg Store.closures hcount.2) rfl rfl
  simp only [request]
  split
  · exact h'.of_eq rfl rfl rfl rfl
  · have hhandler := countHandler_eq (r.machine.count q) q
    exact h'.of_eq hhandler.1 (congrArg Store.closures hhandler.2) rfl rfl
  · exact sound_fail h'.machine _

theorem ready_revive (h : r.Waits) {f : SavedFrame} (hf : f.Resumes) :
    (r.revive f).Ready := by
  cases f with
  | compiled closure frame =>
    obtain ⟨pc, hawaits⟩ := hf
    have hpc : resumeAddress closure.code frame.point = .ok pc :=
      Activation.resumeAddress_of_resumesAt hawaits.resumesAt
    simp only [revive, hpc]
    exact ⟨_, _, rfl, h.machine.library, hawaits.ready h.machine.store, by simp, h.pending⟩
  | routine id phase locals => exact ready_resumeRoutine h hf

theorem ready_proceed (h : r.Waits) : r.proceed.Ready := by
  cases hlive : r.live with
  | cons t rest =>
    obtain ⟨ht, hrest⟩ := List.forall_mem_cons.mp (hlive ▸ h.live)
    cases t with
    | compiled a =>
      simp only [proceed, hlive]
      exact ⟨a, rest, hlive, h.machine.library, Activation.Awaits.ready ht h.machine.store, hrest,
        h.pending⟩
    | waiting id phase locals =>
      simp only [proceed, hlive]
      exact ready_resumeRoutine ⟨h.machine, hrest, h.pending⟩ ht
  | nil =>
    cases hpending : r.pending with
    | cons frame rest =>
      obtain ⟨hf, hrest⟩ := List.forall_mem_cons.mp (hpending ▸ h.pending)
      simp only [proceed, hlive, hpending]
      exact ready_revive (r := ⟨r.machine, [], rest, r.flatten⟩) ⟨h.machine, by simp, hrest⟩ hf
    | nil =>
      simp only [proceed, hlive, hpending]
      exact h.machine

theorem ready_settle (h : r.Waits) : r.settle.Ready := by
  unfold settle
  split
  · split
    · exact h.machine
    · exact h.of_eq rfl rfl rfl rfl
  · exact ready_proceed h

theorem ready_progress (h : r.Waits) {p : Progress Activation}
    (hsteady : Activation.Steady r.machine.store p)
    (hruns : ∀ a, p ≠ .runs a) : (r.progress p).Ready := by
  cases hsteady with
  | runs => exact absurd rfl (hruns _)
  | asks hawaits _ =>
    refine ⟨h.machine, fun t ht => ?_, h.pending⟩
    rcases List.mem_cons.mp ht with rfl | ht
    · exact hawaits
    · exact h.live t ht
  | returns _ => exact h.of_eq rfl rfl rfl rfl
  | tailCalls _ => exact h.of_eq rfl rfl rfl rfl
  | fails _ => exact sound_fail (h.of_eq rfl rfl rfl rfl : r.leave.Waits).machine _

theorem accepts_of_steady {st : Store} {p : Progress Activation} (h : Activation.Steady st p) :
    st.Accepts := by
  cases h <;> assumption

theorem ready_advance {a : Activation} {rest : List Task} (h : r.Advances a rest) :
    r.advance.Ready := by
  obtain ⟨st, p, hadv, hp⟩ := h.ready.advance
  unfold advance
  rw [h.live]
  simp only [hadv]
  rcases hp with ⟨a', rfl, hready⟩ | ⟨hsteady, hruns⟩
  · exact ⟨a', rest, rfl, h.library, hready, h.below, h.pending⟩
  · refine ready_progress (r := { r with live := rest, machine.store := st })
      ⟨⟨h.library, accepts_of_steady hsteady⟩, h.below, h.pending⟩ hsteady hruns

/-- **Every step keeps the invariant**, and no step breaks. -/
theorem ready_step {c : Control} (h : r.Ready c) : (r.step c).Ready := by
  cases c with
  | request q => exact ready_request h q
  | invoke target args => exact ready_invoke h target args
  | advance =>
    obtain ⟨a, rest, h⟩ := h
    exact ready_advance h
  | settled => exact ready_settle h

/-- **Every host call ends soundly.** -/
theorem sound_run {fuel : Nat} {o : Outcome} :
    ∀ {r : Run} {c : Control}, r.Ready c → Run.run fuel r c = some o → o.Sound := by
  induction fuel with
  | zero => intro r c _ hrun; cases hrun
  | succ fuel ih =>
    intro r c h hrun
    have hstep := ready_step h
    simp only [run] at hrun
    cases hs : r.step c with
    | next r' c' =>
      rw [hs] at hrun hstep
      exact ih hstep hrun
    | done o' =>
      rw [hs] at hrun hstep
      cases hrun
      exact hstep

end Run

/-! ### What a host does -/

/-- How an answer may look. -/
def Answer.Sound : Answer → Prop
  | .done m _ | .failed m _ => m.Sound
  | .suspended m s => m.Sound ∧ ∀ f ∈ s.frames, f.Resumes
  | .broken _ => False

theorem Outcome.Sound.answer {o : Outcome} (h : o.Sound) : o.answer.Sound := by
  cases o with
  | settled m => exact ⟨h.library, h.store⟩
  | failed m e => exact h
  | suspended m s => exact h
  | broken d => exact h

namespace Machine

variable {m m' : Machine}

theorem sound_standard (limits : Limits) : (standard limits).Sound :=
  ⟨rfl, fun c hc => by simp [standard, withLibrary, Store.addTable, Store.empty] at hc⟩

theorem sound_start {fuel : Nat} {callable : Value} {args : List Value} {answer : Answer}
    (h : m.Sound) (hs : m.start fuel callable args = some answer) : answer.Sound := by
  simp only [start, perform, Option.map_eq_some_iff] at hs
  obtain ⟨o, hrun, rfl⟩ := hs
  refine Outcome.Sound.answer (Run.sound_run ?_ hrun)
  exact ⟨⟨h.library, h.store⟩, by simp, by simp⟩

theorem sound_resume {fuel : Nat} {s : Signal} {values : List Value} {answer : Answer}
    (h : m.Sound) (hs : ∀ f ∈ s.frames, f.Resumes) (hr : m.resume fuel s values = some answer) :
    answer.Sound := by
  simp only [resume] at hr
  split at hr
  · obtain ⟨o, hrun, rfl⟩ := Option.map_eq_some_iff.mp hr
    refine Outcome.Sound.answer (Run.sound_run ?_ hrun)
    exact ⟨⟨h.library, h.store⟩, by simp, hs⟩
  · cases hr
    exact ⟨h.library, h.store⟩

/-- The cells that a top-level closure gets. -/
theorem foldl_addCell (v : Value) : ∀ (sources : List CaptureSource) (cells : Array CellId)
    (st : Store),
    let x := sources.foldl (fun (cells, store) _ =>
      let (cell, store) := store.addCell v
      (cells.push cell, store)) (cells, st)
    x.1.size = cells.size + sources.length ∧ st.SameButCells x.2
  | [], _, st => ⟨rfl, .refl st⟩
  | _ :: sources, cells, st => by
    obtain ⟨h1, h2⟩ := foldl_addCell v sources (cells.push (st.addCell v).1) (st.addCell v).2
    refine ⟨?_, .trans ⟨_, rfl⟩ h2⟩
    rw [List.foldl_cons]
    refine h1.trans ?_
    rw [Array.size_push, List.length_cons]
    omega

theorem sound_instantiate {p : Procedure} {code : Code} {id : ClosureId} (h : m.Sound)
    (hp : p.compile = .ok code) (honce : p.ClosesOnceInside)
    (hm : m.instantiate code = .ok (id, m')) : m'.Sound := by
  unfold instantiate at hm
  split at hm
  · cases hm
  · obtain ⟨hsize, hsame⟩ := foldl_addCell (.table m.globals) code.upvalues #[] m.store
    cases hm
    refine ⟨h.library, (h.store.of_eq hsame.closures).addClosure (.of_compile hp honce ?_)⟩
    rw [hsize]
    simp

end Machine

/-- What is left of an answer that did not break: the machine, and a signal if there is one. -/
inductive Answer.Leaves : Answer → Machine → List Signal → Prop
  | done {m : Machine} {values : List Value} : Leaves (.done m values) m []
  | failed {m : Machine} {e : Error} : Leaves (.failed m e) m []
  | suspended {m : Machine} {s : Signal} : Leaves (.suspended m s) m [s]

/-- What a host can do with a machine, and the signals that have come out. It may even resume a
signal more than once. -/
inductive Session (limits : Limits) : Machine → List Signal → Prop
  | begins : Session limits (.standard limits) []
  | instantiates {m m' : Machine} {signals : List Signal} {p : Procedure} {code : Code}
      {id : ClosureId} (h : Session limits m signals) (hp : p.compile = .ok code)
      (honce : p.ClosesOnceInside) (hm : m.instantiate code = .ok (id, m')) :
      Session limits m' signals
  | starts {m m' : Machine} {signals new : List Signal} {fuel : Nat} {callable : Value}
      {args : List Value} {answer : Answer} (h : Session limits m signals)
      (hs : m.start fuel callable args = some answer) (hl : answer.Leaves m' new) :
      Session limits m' (new ++ signals)
  | resumes {m m' : Machine} {signals new : List Signal} {fuel : Nat} {s : Signal}
      {values : List Value} {answer : Answer} (h : Session limits m signals) (hmem : s ∈ signals)
      (hr : m.resume fuel s values = some answer) (hl : answer.Leaves m' new) :
      Session limits m' (new ++ signals)

theorem Answer.Leaves.sound {answer : Answer} {m : Machine} {new : List Signal}
    (hl : answer.Leaves m new) (h : answer.Sound) :
    m.Sound ∧ ∀ s ∈ new, ∀ f ∈ s.frames, f.Resumes := by
  cases hl with
  | done => exact ⟨h, by simp⟩
  | failed => exact ⟨h, by simp⟩
  | suspended =>
    refine ⟨h.1, fun s hs => ?_⟩
    rw [List.mem_singleton.mp hs]
    exact h.2

theorem Session.sound {limits : Limits} {m : Machine} {signals : List Signal}
    (h : Session limits m signals) :
    m.Sound ∧ ∀ s ∈ signals, ∀ f ∈ s.frames, f.Resumes := by
  induction h with
  | begins => exact ⟨Machine.sound_standard limits, by simp⟩
  | instantiates _ hp honce hm ih => exact ⟨Machine.sound_instantiate ih.1 hp honce hm, ih.2⟩
  | starts _ hs hl ih =>
    obtain ⟨hm, hnew⟩ := hl.sound (Machine.sound_start ih.1 hs)
    refine ⟨hm, fun s hs => ?_⟩
    rcases List.mem_append.mp hs with hs | hs
    · exact hnew s hs
    · exact ih.2 s hs
  | resumes _ hmem hr hl ih =>
    obtain ⟨hm, hnew⟩ := hl.sound (Machine.sound_resume ih.1 (ih.2 _ hmem) hr)
    refine ⟨hm, fun s hs => ?_⟩
    rcases List.mem_append.mp hs with hs | hs
    · exact hnew s hs
    · exact ih.2 s hs

/-- A frame is as it was saved by a machine: a procedure's belongs to an accepted procedure with a
resumption table, has a point of the table, and holds its registers as the analysis says at the
operation that carries the point; a routine's is `pause` with its arguments, or `unpack` with what
it keeps while it waits for the length or for an element. -/
def SavedFrame.Valid : SavedFrame → Prop
  | .compiled closure frame => ∃ (p : Procedure) (targets : Array Nat) (b i : Nat)
      (question : Question), p.compile = .ok closure.code ∧ closure.code.resumeTable = some targets ∧
      1 ≤ frame.point ∧ frame.point < targets.size ∧
      closure.code.instrs[p.opAddress b i]? = some (.ask question frame.point) ∧
      (∃ op, (p.opsOf b)[i]? = some op) ∧ p.statesAt b i = some frame.window.states
  | .routine id phase locals =>
      (Library.standard.find? id = some Routine.pause ∧ phase = 0 ∧ ∃ args, locals = .values args) ∨
      (Library.standard.find? id = some Routine.unpack ∧ (phase = 1 ∨ phase = 3) ∧
        ∃ u, locals = .unpacking u)

theorem SavedFrame.Resumes.valid {f : SavedFrame} (h : f.Resumes) : f.Valid := by
  cases f with
  | compiled closure frame =>
    obtain ⟨pc, p, codes, b, i, info, op, results, -, h⟩ := h
    obtain ⟨question, hask⟩ := h.ask
    obtain ⟨targets, htable, hpoint, htarget⟩ := h.resumesAt
    refine ⟨p, targets, b, i, question, ?_, htable, hpoint,
      (Array.getElem?_eq_some_iff.mp htarget).1, hask, ⟨op, h.atOp⟩, ?_⟩
    · exact Procedure.compile_eq_ok_iff.mpr
        ⟨h.implements.valid, codes, h.implements.nested, h.implements.code⟩
    · rw [Procedure.infoAt_states h.known, ← h.states]
  | routine id phase locals =>
    obtain ⟨r, hr, ⟨rfl, h⟩ | ⟨rfl, h⟩⟩ := h
    · exact Or.inl ⟨hr, h⟩
    · exact Or.inr ⟨hr, h⟩

/-- **Every saved frame can go on.** Whatever a host does with a machine that has the standard
library, every frame of every signal is valid, and no call and no resumption breaks. -/
theorem saved_frames_valid {limits : Limits} {m : Machine} {signals : List Signal}
    (h : Session limits m signals) :
    (∀ s ∈ signals, ∀ f ∈ s.frames, f.Valid) ∧
    (∀ fuel callable args d, m.start fuel callable args ≠ some (.broken d)) ∧
    ∀ s ∈ signals, ∀ fuel values d, m.resume fuel s values ≠ some (.broken d) := by
  obtain ⟨hm, hsignals⟩ := h.sound
  refine ⟨fun s hs f hf => (hsignals s hs f hf).valid, fun fuel callable args d hd => ?_,
    fun s hs fuel values d hd => ?_⟩
  · exact Machine.sound_start hm hd
  · exact Machine.sound_resume hm (hsignals s hs) hd

/-- A procedure that calls its argument and returns what comes back. -/
def Procedure.relay : Procedure where
  name := "relay"
  params := 1
  isVararg := false
  registers := 1
  upvalues := []
  blocks := [⟨[.call 0 ⟨[], false⟩ (.fixed [0])], .ret ⟨[.register 0], false⟩⟩]
  nested := []

/-- A call that suspends in `pause` saves two frames. -/
theorem saved_frames_valid_relay :
    ∃ m s, Session .standard m [s] ∧ s.frames.length = 2 ∧ (∀ f ∈ s.frames, f.Valid) ∧
      ∀ fuel values d, m.resume fuel s values ≠ some (.broken d) := by
  have hcompile : Procedure.relay.compile = .ok (Procedure.relay.assemble []) :=
    Procedure.compile_eq_ok_iff.mpr ⟨Procedure.check_eq_ok_iff.mp rfl, [], .nil, rfl⟩
  have honce : Procedure.relay.ClosesOnceInside := by
    refine ⟨fun b hb rs hrs => ?_, by simp [Procedure.relay]⟩
    simp only [Procedure.relay, List.mem_singleton] at hb
    subst hb
    simp at hrs
  obtain ⟨m, s, hstart, hlength⟩ : ∃ m s, (Machine.start
      { Machine.standard .standard with
        store := ((Machine.standard .standard).store.addClosure
          ⟨Procedure.relay.assemble [], #[]⟩).2 } 20 (.closure ⟨0⟩) [.routine ⟨9⟩]) =
        some (.suspended m s) ∧ s.frames.length = 2 := ⟨_, _, rfl, rfl⟩
  have h : Session .standard m [s] :=
    .starts (.instantiates .begins hcompile honce rfl) hstart .suspended
  obtain ⟨hvalid, -, hresume⟩ := saved_frames_valid h
  exact ⟨m, s, h, hlength, hvalid s (by simp), hresume s (by simp)⟩

end ResumableVM
