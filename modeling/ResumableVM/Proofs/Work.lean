import Mathlib.Tactic
import ResumableVM.Machine.Host

/-! # Work: who is at work in a step, and what comes of it

In most steps somebody is at work: a function that starts to run, a live task that goes on, or a
saved frame that goes on. `Run.work?` says who that is, at which call depth, and which tasks and
frames wait below meanwhile. `Run.Does` says what the worker does to the store, and what it comes
to: a `Deed`. The worker is off the stack then but still has its level, and `Run.conclude` is what
the deed leads to. A step without work answers a request or hands it on, makes a tail call, fails,
or is the end.

Everything that a step can do is in `works_step` and `idles_step`; what holds along a run follows
from them by `moments_induction`. -/

namespace ResumableVM

/-- Who is at work in a step. -/
inductive Worker where
  /-- A function starts to run. -/
  | function (f : Function)
  /-- A live task goes on. -/
  | task (t : Task)
  /-- A saved frame goes on. -/
  | frame (f : SavedFrame)

/-- The work of a step. -/
structure Work where
  worker : Worker
  /-- The call depth at which the worker runs. -/
  depth : CallDepth
  /-- The live tasks that wait meanwhile, innermost first. -/
  live : List Task
  /-- The frames below them that have not gone on yet. -/
  pending : List SavedFrame

namespace Work

/-- The number of levels that the worker and all that waits occupy. -/
def level (w : Work) : Nat := w.live.length + w.pending.length + 1

/-- The saved frame that goes on. -/
def frame? (w : Work) : Option SavedFrame :=
  match w.worker with
  | .frame f => some f
  | _ => none

theorem frame?_eq_some_iff {w : Work} {f : SavedFrame} :
    w.frame? = some f ↔ w.worker = .frame f := by
  obtain ⟨worker, depth, live, pending⟩ := w
  cases worker <;> simp [frame?]

/-- The function that starts to run. -/
def function? (w : Work) : Option Function :=
  match w.worker with
  | .function f => some f
  | _ => none

/-- The routine at work. -/
def routine? (w : Work) : Option RoutineId :=
  match w.worker with
  | .function (.routine id) => some id
  | .task (.waiting id _ _) => some id
  | .frame (.routine id _ _) => some id
  | _ => none

end Work

namespace Run

/-- The innermost task goes on, or the innermost saved frame when no task is live. -/
def nextWork? (r : Run) : Option Work :=
  match r.live, r.pending with
  | t :: rest, pending => some ⟨.task t, r.machine.depth, rest, pending⟩
  | [], f :: rest => some ⟨.frame f, r.machine.depth, [], rest⟩
  | [], [] => none

/-- **The work of a step.** A function runs one level deeper, if there is one to call and the limit
allows it. -/
def work? (r : Run) : Control → Option Work
  | .request _ => none
  | .invoke target _ =>
    match r.machine.store.callee target, r.machine.depth.enter? r.machine.limits.maxCallDepth with
    | .ok c, some depth => some ⟨.function c.function, depth, r.live, r.pending⟩
    | _, _ => none
  | .advance => r.nextWork?
  | .settled => if r.machine.channel.tailCall.isSome then none else r.nextWork?

/-- The moments of a run, each with what is done next. -/
def moments : Nat → Run → Control → List (Run × Control)
  | 0, _, _ => []
  | fuel + 1, r, c =>
    (r, c) ::
      match r.step c with
      | .next r c => moments fuel r c
      | .done _ => []

/-- The works of a run, in order. -/
def works (fuel : Nat) (r : Run) (c : Control) : List Work :=
  (r.moments fuel c).filterMap fun p => p.1.work? p.2

end Run

/-! ### Deeds -/

/-- What a worker comes to. -/
inductive Deed where
  /-- It carries on as this call. -/
  | goesOn (a : Activation)
  /-- It waits as this task for what a request brings. -/
  | asks (t : Task) (q : Request)
  /-- It is through, with its results or a tail call in the channel. -/
  | leaves (c : Channel)
  | suspends (values : List Value) (own : SavedFrame)
  | fails (e : Error)

namespace Deed

/-- What an instruction comes to. -/
def ofProgress : Progress Activation → Deed
  | .runs a => .goesOn a
  | .asks a q => .asks (.compiled a) q
  | .returns vs => .leaves ⟨vs, none⟩
  | .tailCalls target args => .leaves ⟨[], some ⟨target, args⟩⟩
  | .fails e => .fails e

/-- What the reply of a routine comes to. -/
def ofReply (id : RoutineId) : Reply → Deed
  | .answers vs => .leaves ⟨vs, none⟩
  | .asks q phase locals => .asks (.waiting id phase locals) q
  | .suspends vs phase locals => .suspends vs (.routine id phase locals)
  | .fails e => .fails e

end Deed

/-- The machine after the call that its channel holds has been taken, to be made. -/
def Machine.withoutTailCall (m : Machine) : Machine :=
  { m with
    channel := m.channel.takeTailCall.2
    counters := { m.counters with tailCalls := m.counters.tailCalls + 1 } }

namespace Run

/-- What a deed leads to; the worker is not on the stack but has its level. -/
def conclude (r : Run) : Deed → Step
  | .goesOn a => .next { r with live := .compiled a :: r.live } .advance
  | .asks t q => .next { r with live := t :: r.live } (.request q)
  | .leaves c => r.finish c
  | .suspends vs own => r.leave.suspend vs own
  | .fails e => r.leave.fail e

/-- The run while someone is at work, with the store and the counters that the work leaves. -/
def during (r : Run) (w : Work) (st : Store) (n : Counters) : Run :=
  ⟨{ r.machine with store := st, depth := w.depth, counters := n }, w.live, w.pending, r.flatten⟩

/-- **What a worker does.** -/
inductive Does (r : Run) : Control → Work → Store → Deed → Prop
  /-- A closure is called. -/
  | starts {target : Value} {args : List Value} {callee : Callee} {w : Work} {id : ClosureId}
      (hcallee : r.machine.store.callee target = .ok callee)
      (hid : callee.function = .closure id) :
      Does r (.invoke target args) w r.machine.store
        (.goesOn (.start (r.machine.store.closure id) (callee.arguments target args)))
  /-- A routine is called. -/
  | invokes {target : Value} {args : List Value} {callee : Callee} {w : Work} {id : RoutineId}
      {routine : Routine} {st : Store} {reply : Reply}
      (hcallee : r.machine.store.callee target = .ok callee)
      (hid : callee.function = .routine id) (hw : w.routine? = some id)
      (hroutine : r.machine.library.find? id = some routine)
      (h : routine.invoke r.machine.store (callee.arguments target args) = .ok (st, reply)) :
      Does r (.invoke target args) w st (.ofReply id reply)
  /-- A waiting procedure has its turn. -/
  | turns {w : Work} {a : Activation} (hw : w.worker = .task (.compiled a)) :
      Does r .settled w r.machine.store (.goesOn a)
  /-- A procedure carries out an instruction. -/
  | carriesOut {w : Work} {a : Activation} {st : Store} {p : Progress Activation}
      (hw : w.worker = .task (.compiled a))
      (h : a.advance r.machine.store r.machine.channel.values = .ok (st, p)) :
      Does r .advance w st (.ofProgress p)
  /-- The frame of a procedure is live again. -/
  | revives {c : Control} {w : Work} {closure : Closure} {frame : Frame} {pc : Nat}
      (hw : w.worker = .frame (.compiled closure frame))
      (h : resumeAddress closure.code frame.point = .ok pc) :
      Does r c w r.machine.store (.goesOn ⟨closure, frame, pc⟩)
  /-- A routine goes on, as a live task or as a frame. -/
  | resumes {c : Control} {w : Work} {id : RoutineId} {phase : Nat} {locals : Locals}
      {routine : Routine} {st : Store} {reply : Reply}
      (hw : w.worker = .task (.waiting id phase locals) ∨
        w.worker = .frame (.routine id phase locals))
      (hroutine : r.machine.library.find? id = some routine)
      (h : routine.resume r.machine.store r.machine.channel.values phase locals =
        .ok (st, reply)) :
      Does r c w st (.ofReply id reply)
  /-- There is no such routine. -/
  | missing {c : Control} {w : Work} {id : RoutineId} (hw : w.routine? = some id)
      (h : r.machine.library.find? id = none) :
      Does r c w r.machine.store (.fails (.failed (.unknownRoutine id.index)))

/-- **What work leads to.** -/
inductive Works (r : Run) (c : Control) (w : Work) : Step → Prop
  | does {st : Store} {n : Counters} {d : Deed} (h : r.Does c w st d) :
      Works r c w ((r.during w st n).conclude d)
  | breaks {d : Defect} : Works r c w (.done (.broken d))

/-- **What a step without work leads to.** -/
inductive Idles (r : Run) : Control → Step → Prop
  | answers {q : Request} {v : Value} {n : Counters} (h : r.machine.resolve q = .value v) :
      Idles r (.request q)
        (.next { r with machine := { r.machine with channel := ⟨[v], none⟩, counters := n } }
          .settled)
  | handsOn {q : Request} {f : Value} {args : List Value} {n : Counters}
      (h : r.machine.resolve q = .handler f args) :
      Idles r (.request q) (.next { r with machine.counters := n } (.invoke f args))
  | refuses {q : Request} {e : Error} {n : Counters} (h : r.machine.resolve q = .error e) :
      Idles r (.request q) (Run.fail { r with machine.counters := n } e)
  | uncallable {target : Value} {args : List Value} {e : Error}
      (h : r.machine.store.callee target = .error e) : Idles r (.invoke target args) (r.fail e)
  | overflows {target : Value} {args : List Value} {callee : Callee} {n : Counters}
      (hcallee : r.machine.store.callee target = .ok callee)
      (h : r.machine.depth.enter? r.machine.limits.maxCallDepth = none) :
      Idles r (.invoke target args)
        (Run.fail { r with machine.counters := n } (.stackOverflow r.machine.limits.maxCallDepth))
  | tailCalls {t : TailCall} (ht : r.machine.channel.tailCall = some t)
      (h : r.isBase = true → r.flatten = true) :
      Idles r .settled
        (.next { r with machine := r.machine.withoutTailCall } (.invoke t.target t.args))
  | ends {c : Control} (hc : c = .advance ∨ c = .settled) (hbase : r.isBase = true)
      (htail : c = .settled → r.flatten = true → r.machine.channel.tailCall = none) :
      Idles r c (.done (.settled r.machine))

theorem progress_eq (r : Run) (p : Progress Activation) :
    r.progress p = r.conclude (.ofProgress p) := by
  cases p <;> rfl

theorem reply_eq (r : Run) (id : RoutineId) (reply : Reply) :
    r.reply id reply = r.conclude (.ofReply id reply) := by
  cases reply <;> rfl

variable {r : Run} {w : Work} {c : Control}

theorem works_replied {id : RoutineId} {st : Store} {n : Counters}
    {x : Except Defect (Store × Reply)}
    (hx : ∀ st reply, x = .ok (st, reply) → r.Does c w st (.ofReply id reply)) :
    r.Works c w ((r.during w st n).replied id x) := by
  cases x with
  | error d => exact .breaks
  | ok after =>
    simp only [replied, reply_eq]
    exact .does (hx after.1 after.2 rfl)

/-- A routine at work is used, or does not exist. -/
theorem works_withRoutine {id : RoutineId} {n : Counters}
    {use : Routine → Except Defect (Store × Reply)} (hid : w.routine? = some id)
    (huse : ∀ routine st reply, r.machine.library.find? id = some routine →
      use routine = .ok (st, reply) → r.Does c w st (.ofReply id reply)) :
    r.Works c w ((r.during w r.machine.store n).withRoutine id fun routine =>
      (r.during w r.machine.store n).replied id (use routine)) := by
  have hlibrary : (r.during w r.machine.store n).machine.library = r.machine.library := rfl
  simp only [withRoutine, hlibrary]
  cases hroutine : r.machine.library.find? id with
  | none => exact .does (.missing hid hroutine)
  | some routine => exact works_replied fun st reply h => huse routine st reply hroutine h

/-- A routine goes on with what the channel holds. -/
theorem works_resumeRoutine {id : RoutineId} {phase : Nat} {locals : Locals}
    (hw : w.worker = .task (.waiting id phase locals) ∨
      w.worker = .frame (.routine id phase locals)) :
    r.Works c w
      ((r.during w r.machine.store r.machine.counters).resumeRoutine id phase locals) := by
  have hid : w.routine? = some id := by rcases hw with hw | hw <;> simp [Work.routine?, hw]
  exact works_withRoutine hid fun routine st reply hroutine h => .resumes hw hroutine h

theorem works_proceed (hw : r.nextWork? = some w)
    (hc : ∀ a, w.worker = .task (.compiled a) → c = .settled) : r.Works c w r.proceed := by
  obtain ⟨m, live, pending, flatten⟩ := r
  cases live with
  | cons t rest =>
    cases hw
    cases t with
    | compiled a =>
      obtain rfl := hc a rfl
      exact .does (n := m.counters) (.turns rfl)
    | waiting id phase locals =>
      exact works_resumeRoutine (r := ⟨m, _, pending, flatten⟩) (Or.inl rfl)
  | nil =>
    cases pending with
    | nil => cases hw
    | cons f rest =>
      cases hw
      cases f with
      | compiled closure frame =>
        simp only [proceed, revive]
        split
        · next pc hpc => exact .does (n := m.counters) (.revives rfl hpc)
        · exact .breaks
      | routine id phase locals =>
        exact works_resumeRoutine (r := ⟨m, [], _, flatten⟩) (Or.inr rfl)

theorem works_advance (hw : r.nextWork? = some w) : r.Works .advance w r.advance := by
  obtain ⟨m, live, pending, flatten⟩ := r
  cases live with
  | cons t rest =>
    cases hw
    cases t with
    | compiled a =>
      simp only [advance]
      split
      · next st p hadvance =>
        rw [progress_eq]
        exact .does (n := m.counters) (.carriesOut rfl hadvance)
      · exact .breaks
    | waiting id phase locals => exact works_proceed rfl (by simp)
  | nil =>
    cases pending with
    | nil => cases hw
    | cons f rest =>
      cases hw
      exact works_proceed (r := ⟨m, [], f :: rest, flatten⟩) rfl (by simp)

theorem exists_count (m : Machine) (q : Request) : ∃ n, m.count q = { m with counters := n } := by
  cases q <;> exact ⟨_, rfl⟩

theorem exists_countHandler (m : Machine) (q : Request) :
    ∃ n, m.countHandler q = { m with counters := n } := by
  cases q <;> exact ⟨_, rfl⟩

theorem exists_countInvocation (m : Machine) (callee : Callee) :
    ∃ n, m.countInvocation callee = { m with counters := n } := by
  cases callee <;> exact ⟨_, rfl⟩

theorem works_invoke {target : Value} {args : List Value}
    (hw : r.work? (.invoke target args) = some w) :
    r.Works (.invoke target args) w (r.invoke target args) := by
  simp only [work?] at hw
  split at hw
  · next callee depth hcallee hdepth =>
    cases hw
    obtain ⟨n, hcount⟩ := exists_countInvocation r.machine callee
    simp only [invoke, hcallee, hcount, enter, hdepth]
    cases hf : callee.function with
    | closure id => exact .does (n := n) (.starts hcallee hf)
    | routine id =>
      exact works_withRoutine (n := n) rfl fun routine st reply hroutine h =>
        .invokes hcallee hf rfl hroutine h
  · cases hw

/-- **What work leads to**, whoever does it. -/
theorem works_step (hw : r.work? c = some w) : r.Works c w (r.step c) := by
  cases c with
  | request q => cases hw
  | invoke target args => exact works_invoke hw
  | advance => exact works_advance hw
  | settled =>
    simp only [work?] at hw
    split at hw
    · cases hw
    · next htail =>
      have hnone : r.machine.channel.tailCall = none := by simpa using htail
      simp only [step, settle, Channel.takeTailCall, hnone]
      exact works_proceed hw fun _ _ => rfl

/-! ### Steps without work -/

/-- A request is answered, handed on to its handler, or refused. -/
theorem idles_request (q : Request) : r.Idles (.request q) (r.request q) := by
  obtain ⟨n, hcount⟩ := exists_count r.machine q
  simp only [request, hcount]
  split
  · next v h => exact .answers h
  · next f args h =>
    obtain ⟨n', hhandler⟩ := exists_countHandler { r.machine with counters := n } q
    rw [hhandler]
    exact .handsOn h
  · next e h => exact .refuses h

/-- Nobody can be called, or the limit does not allow it. -/
theorem idles_invoke {target : Value} {args : List Value}
    (hw : r.work? (.invoke target args) = none) :
    r.Idles (.invoke target args) (r.invoke target args) := by
  simp only [invoke]
  split
  · next e h => exact .uncallable h
  · next callee hcallee =>
    have hdepth : r.machine.depth.enter? r.machine.limits.maxCallDepth = none := by
      simp only [work?, hcallee] at hw
      split at hw
      · cases hw
      · next hnone =>
        exact Option.eq_none_iff_forall_ne_some.mpr fun d hd => hnone callee d rfl hd
    obtain ⟨n, hcount⟩ := exists_countInvocation r.machine callee
    simp only [hcount, enter, hdepth]
    exact .overflows hcallee hdepth

theorem idles_proceed (hw : r.nextWork? = none) (hc : c = .advance ∨ c = .settled)
    (htail : r.machine.channel.tailCall = none ∨ c = .advance) : r.Idles c r.proceed := by
  obtain ⟨m, live, pending, flatten⟩ := r
  cases live with
  | cons t rest => cases hw
  | nil =>
    cases pending with
    | cons f rest => cases hw
    | nil =>
      refine .ends hc rfl fun hsettled _ => ?_
      rcases htail with htail | rfl
      · exact htail
      · cases hsettled

/-- **What a step without work leads to.** -/
theorem idles_step (hw : r.work? c = none) : r.Idles c (r.step c) := by
  cases c with
  | request q => exact idles_request q
  | invoke target args => exact idles_invoke hw
  | advance =>
    have hadvance : r.advance = r.proceed := by
      unfold advance
      split
      · next a rest hlive =>
        simp only [work?, nextWork?, hlive] at hw
        cases hw
      · rfl
    simp only [step, hadvance]
    exact idles_proceed hw (Or.inl rfl) (Or.inr rfl)
  | settled =>
    simp only [work?] at hw
    cases htail : r.machine.channel.tailCall with
    | none =>
      simp only [htail, Option.isSome_none, Bool.false_eq_true, if_false] at hw
      simp only [step, settle, Channel.takeTailCall, htail]
      exact idles_proceed hw (Or.inr rfl) (Or.inl htail)
    | some t =>
      simp only [step, settle, Channel.takeTailCall, htail]
      split
      · next hbase =>
        obtain ⟨hbase, hflatten⟩ := Bool.and_eq_true_iff.mp hbase
        refine .ends (Or.inr rfl) hbase fun _ h => ?_
        simp [h] at hflatten
      · next hbase =>
        have hgoes : r.isBase = true → r.flatten = true := by
          intro h
          simpa [h] using hbase
        exact .tailCalls htail hgoes

/-! ### Runs -/

theorem run_next {fuel : Nat} {r' : Run} {c c' : Control} (h : r.step c = .next r' c') :
    r.run (fuel + 1) c = r'.run fuel c' := by
  rw [run, h]

theorem run_done {fuel : Nat} {o : Outcome} {c : Control} (h : r.step c = .done o) :
    r.run (fuel + 1) c = some o := by
  rw [run, h]

theorem moments_next {fuel : Nat} {r' : Run} {c c' : Control} (h : r.step c = .next r' c') :
    r.moments (fuel + 1) c = (r, c) :: r'.moments fuel c' := by
  rw [moments, h]

theorem moments_done {fuel : Nat} {o : Outcome} {c : Control} (h : r.step c = .done o) :
    r.moments (fuel + 1) c = [(r, c)] := by
  rw [moments, h]

theorem works_next {fuel : Nat} {r' : Run} {c c' : Control} (h : r.step c = .next r' c') :
    r.works (fuel + 1) c = (r.work? c).toList ++ r'.works fuel c' := by
  unfold works
  rw [moments_next h, List.filterMap_cons]
  cases r.work? c <;> rfl

theorem works_done {fuel : Nat} {o : Outcome} {c : Control} (h : r.step c = .done o) :
    r.works (fuel + 1) c = (r.work? c).toList := by
  unfold works
  rw [moments_done h]
  cases hw : r.work? c <;> simp [hw]

/-- **A run that ends has a last moment**, whose step is the end. -/
theorem last_of_run {fuel : Nat} {o : Outcome} :
    ∀ {r : Run} {c : Control}, r.run fuel c = some o →
      ∃ r' c', (r.moments fuel c).getLast? = some (r', c') ∧ r'.step c' = .done o := by
  induction fuel with
  | zero => intro r c h; cases h
  | succ fuel ih =>
    intro r c h
    cases hs : r.step c with
    | next r₁ c₁ =>
      rw [run_next hs] at h
      obtain ⟨r', c', hlast, hdone⟩ := ih h
      refine ⟨r', c', ?_, hdone⟩
      rw [moments_next hs, List.getLast?_cons, hlast]
      rfl
    | done o' =>
      rw [run_done hs] at h
      cases h
      exact ⟨r, c, by rw [moments_done hs]; rfl, hs⟩

/-- **What every step keeps holds at every moment.** -/
theorem moments_induction {P : Run → Control → Prop}
    (hstep : ∀ {r c r' c'}, P r c → r.step c = .next r' c' → P r' c') {fuel : Nat} :
    ∀ {r : Run} {c : Control}, P r c → ∀ p ∈ r.moments fuel c, P p.1 p.2 := by
  induction fuel with
  | zero => intro r c _ p hp; cases hp
  | succ fuel ih =>
    intro r c hP p hp
    rw [moments, List.mem_cons] at hp
    rcases hp with rfl | hp
    · exact hP
    · cases hs : r.step c with
      | next r₁ c₁ =>
        rw [hs] at hp
        exact ih (hstep hP hs) p hp
      | done o =>
        rw [hs] at hp
        cases hp

/-- Every work is that of some moment. -/
theorem mem_works {fuel : Nat} {c : Control} :
    w ∈ r.works fuel c ↔ ∃ p ∈ r.moments fuel c, p.1.work? p.2 = some w := List.mem_filterMap

end Run

end ResumableVM
