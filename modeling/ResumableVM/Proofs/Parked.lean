import ResumableVM.Machine.Run
import ResumableVM.Proofs.CompiledCode
import ResumableVM.Proofs.Positions
import ResumableVM.Proofs.Routines

/-! # Parked: a stack whose lower tasks wait as saved frames

After a resumption the innermost tasks are live again while those below are frames that have not gone
on yet. `Parked` is such a stack; `Parked.whole` is the run in which all of its tasks are live, and
`Parked.split` the run in which only the top ones are. Unless a routine that suspends is called, one
step takes both runs to runs of one such stack, or ends both alike (`parallel_step`). -/

namespace ResumableVM

/-- The libraries differ in one routine at most. -/
def Library.AgreesBut (l : Library) (id : RoutineId) (l' : Library) : Prop :=
  ∀ {own}, own ≠ id → l.find? own = l'.find? own

/-- The same end, of a machine with another library. -/
def Outcome.withLibrary (l : Library) : Outcome → Outcome
  | settled m => .settled { m with library := l }
  | failed m e => .failed { m with library := l } e
  | suspended m s => .suspended { m with library := l } s
  | broken d => .broken d

namespace Task

/-- What a suspension makes of the task. -/
def frame : Task → SavedFrame
  | compiled a => .compiled a.closure a.frame
  | waiting id phase locals => .routine id phase locals

/-- The task waits and can go on from its frame; it is not the routine with a number. -/
def Restorable (id : RoutineId) : Task → Prop
  | compiled a => a.Resumable
  | waiting own _ _ => own ≠ id

theorem Restorable.saved? {t : Task} {id : RoutineId} (h : t.Restorable id) :
    t.saved? = some t.frame := by
  cases t with
  | compiled a =>
    obtain ⟨targets, htable, -⟩ := h.resumes
    simp [Task.saved?, Code.isResumable, htable, frame]
  | waiting => rfl

end Task

/-- A stack of tasks, innermost first, in two parts. -/
structure Parked where
  machine : Machine
  top : List Task
  bottom : List Task

namespace Parked

/-- All tasks are live; the machine has a library. -/
def whole (l : Library) (p : Parked) : Run :=
  ⟨{ p.machine with library := l }, p.top ++ p.bottom, [], true⟩

/-- The tasks below are frames that have not gone on yet; the machine has a library. -/
def split (l : Library) (p : Parked) : Run :=
  ⟨{ p.machine with library := l }, p.top, p.bottom.map Task.frame, true⟩

/-- All tasks wait, and the depth has room for them and some more. -/
structure Waits (id : RoutineId) (extra : Nat) (p : Parked) : Prop where
  store : p.machine.store.Compiled
  tasks : ∀ t ∈ p.top ++ p.bottom, t.Restorable id
  depth : (p.top ++ p.bottom).length + extra ≤ p.machine.depth.current

/-- What holds before each step: all tasks wait, but the innermost one when it is about to carry out
an instruction. -/
def Sound (id : RoutineId) (p : Parked) : Control → Prop
  | .advance => ∃ a rest, p.top = .compiled a :: rest ∧ a.closure.code.Compiled ∧
      Parked.Waits id 1 ⟨p.machine, rest, p.bottom⟩
  | _ => p.Waits id 0

end Parked

/-- The steps lead to two runs of one stack, or end alike without a suspension; the libraries are
those of the two runs. -/
inductive Step.Parallel (id : RoutineId) (l l' : Library) : Step → Step → Prop
  | next {p : Parked} {c : Control} (h : p.Sound id c) :
      Parallel id l l' (.next (p.whole l) c) (.next (p.split l') c)
  | ends {o : Outcome} (h : ∀ m s, o ≠ .suspended m s) :
      Parallel id l l' (.done (o.withLibrary l)) (.done (o.withLibrary l'))

namespace Parked

open Step (Parallel)

variable {id : RoutineId} {l l' : Library} {p : Parked} {k : Nat}

/-- The stack on another machine that is as deep. -/
theorem Waits.of_machine (h : p.Waits id k) {m : Machine} {k' : Nat}
    (hstore : m.store.Compiled)
    (hdepth : p.machine.depth.current + k' ≤ m.depth.current + k) :
    Parked.Waits id k' ⟨m, p.top, p.bottom⟩ := by
  refine ⟨hstore, h.tasks, ?_⟩
  have := h.depth
  show (p.top ++ p.bottom).length + k' ≤ m.depth.current
  omega

/-- One more task that waits takes one of the extra levels. -/
theorem Waits.push (h : p.Waits id (k + 1)) {t : Task} (ht : t.Restorable id) :
    Parked.Waits id k ⟨p.machine, t :: p.top, p.bottom⟩ := by
  refine ⟨h.store, List.forall_mem_cons.mpr ⟨ht, h.tasks⟩, ?_⟩
  have := h.depth
  show (p.top ++ p.bottom).length + 1 + k ≤ p.machine.depth.current
  omega

/-- The innermost task gives its level back. -/
theorem Waits.pop {m : Machine} {t : Task} {top bottom : List Task}
    (h : Parked.Waits id k ⟨m, t :: top, bottom⟩) :
    t.Restorable id ∧ Parked.Waits id (k + 1) ⟨m, top, bottom⟩ := by
  obtain ⟨ht, htasks⟩ := List.forall_mem_cons.mp h.tasks
  refine ⟨ht, h.store, htasks, ?_⟩
  have : (top ++ bottom).length + 1 + k ≤ m.depth.current := h.depth
  show (top ++ bottom).length + (k + 1) ≤ m.depth.current
  omega

/-- The same of a task that stands in the lower part. -/
theorem Waits.pop_bottom {m : Machine} {t : Task} {bottom : List Task}
    (h : Parked.Waits id k ⟨m, [], t :: bottom⟩) :
    t.Restorable id ∧ Parked.Waits id (k + 1) ⟨m, [], bottom⟩ :=
  @pop id k m t [] bottom ⟨h.store, h.tasks, h.depth⟩

theorem parallel_fail (p : Parked) (e : Error) :
    Parallel id l l' ((p.whole l).fail e) ((p.split l').fail e) := by
  have hheight : (p.split l').height = (p.whole l).height := by
    simp [Run.height, whole, split]
  have hunwound : (p.split l').unwound = { (p.whole l).unwound with library := l' } := by
    simp only [Run.unwound, hheight]
    rfl
  unfold Run.fail
  rw [hunwound]
  exact .ends (o := .failed (p.whole l).unwound e) fun _ _ => by simp

/-! ### Routines -/

theorem parallel_reply {own : RoutineId} {reply : Reply} (h : p.Waits id 1) (hne : own ≠ id)
    (hprompt : reply.IsPrompt) :
    Parallel id l l' ((p.whole l).reply own reply) ((p.split l').reply own reply) := by
  have hleave : p.machine.depth.current + 0 ≤ p.machine.depth.leave.current + 1 := by
    simp only [CallDepth.leave]; omega
  cases reply with
  | answers vs =>
    exact .next (p := ⟨{ p.machine with
      channel := p.machine.channel.setValues vs, depth := p.machine.depth.leave }, p.top, p.bottom⟩)
      (c := .settled) (h.of_machine h.store hleave)
  | asks q phase locals =>
    exact .next (p := ⟨p.machine, .waiting own phase locals :: p.top, p.bottom⟩) (c := .request q)
      (h.push hne)
  | suspends => exact hprompt.elim
  | fails e => exact parallel_fail ⟨{ p.machine with depth := p.machine.depth.leave }, _, _⟩ e

theorem parallel_replied {own : RoutineId} {x : Except Defect (Store × Reply)} (h : p.Waits id 1)
    (hne : own ≠ id) (hx : PromptlyFrom p.machine.store x) :
    Parallel id l l' ((p.whole l).replied own x) ((p.split l').replied own x) := by
  cases x with
  | error d => exact .ends (o := .broken d) fun _ _ => by simp
  | ok after =>
    obtain ⟨hprompt, hstore⟩ := hx _ _ rfl
    exact parallel_reply (h.of_machine (m := { p.machine with store := after.1 })
      (hstore h.store) le_rfl) hne hprompt

theorem parallel_withRoutine {own : RoutineId} {use use' : Routine → Step}
    (hl : l.AgreesBut id l') (hne : own ≠ id)
    (huse : ∀ r, l'.find? own = some r → Parallel id l l' (use r) (use' r)) :
    Parallel id l l' ((p.whole l).withRoutine own use) ((p.split l').withRoutine own use') := by
  have hfind : (p.whole l).machine.library.find? own = l'.find? own := hl hne
  have hfind' : (p.split l').machine.library.find? own = l'.find? own := rfl
  simp only [Run.withRoutine, hfind, hfind']
  split
  · next r hr => exact huse r hr
  · exact parallel_fail ⟨{ p.machine with depth := p.machine.depth.leave }, p.top, p.bottom⟩ _

theorem parallel_resumeRoutine {own : RoutineId} (h : p.Waits id 1) (hp : l'.PausesOnlyAt id)
    (hl : l.AgreesBut id l') (hne : own ≠ id) (phase : Nat) (locals : Locals) :
    Parallel id l l' ((p.whole l).resumeRoutine own phase locals)
      ((p.split l').resumeRoutine own phase locals) :=
  parallel_withRoutine hl hne fun _ hr =>
    parallel_replied h hne ((hp.others hne hr).resume _ _ _ _)

/-! ### Steps -/

theorem parallel_enter (h : p.Waits id 0) (hp : l'.PausesOnlyAt id) (hl : l.AgreesBut id l')
    {f : Function} (args : List Value)
    (hf : f = .routine id → p.machine.depth.enter? p.machine.limits.maxCallDepth = none) :
    Parallel id l l' ((p.whole l).enter f args) ((p.split l').enter f args) := by
  unfold Run.enter
  cases hdepth : p.machine.depth.enter? p.machine.limits.maxCallDepth with
  | none =>
    simp only [whole, split, hdepth]
    exact parallel_fail p _
  | some depth =>
    simp only [whole, split, hdepth]
    obtain ⟨-, hcurrent⟩ := CallDepth.current_enter? hdepth
    have h' : Parked.Waits id 1 ⟨{ p.machine with depth := depth }, p.top, p.bottom⟩ :=
      h.of_machine h.store (by rw [hcurrent])
    cases f with
    | closure c =>
      exact .next (p := ⟨_, .compiled (.start (p.machine.store.closure c) args) :: p.top, _⟩)
        (c := .advance) ⟨_, _, rfl, h.store.closure c, h'⟩
    | routine own =>
      have hne : own ≠ id := fun heq => by cases hdepth.symm.trans (hf (heq ▸ rfl))
      exact parallel_withRoutine (p := ⟨{ p.machine with depth := depth }, p.top, p.bottom⟩) hl hne
        fun r hr => parallel_replied h' hne ((hp.others hne hr).invoke _ args)

theorem Waits.count (h : p.Waits id 0) (q : Request) :
    Parked.Waits id 0 ⟨p.machine.count q, p.top, p.bottom⟩ := by
  cases q <;> exact h.of_machine h.store le_rfl

theorem Waits.countHandler (h : p.Waits id 0) (q : Request) :
    Parked.Waits id 0 ⟨p.machine.countHandler q, p.top, p.bottom⟩ := by
  cases q <;> exact h.of_machine h.store le_rfl

theorem parallel_request (h : p.Waits id 0) (q : Request) :
    Parallel id l l' ((p.whole l).request q) ((p.split l').request q) := by
  have hcount (l : Library) : ({ p.machine with library := l } : Machine).count q =
      { p.machine.count q with library := l } := by cases q <;> rfl
  have hhandler (l : Library) : ({ p.machine.count q with library := l } : Machine).countHandler q =
      { (p.machine.count q).countHandler q with library := l } := by cases q <;> rfl
  have hresolve (l : Library) : ({ p.machine.count q with library := l } : Machine).resolve q =
      (p.machine.count q).resolve q := rfl
  simp only [Run.request, whole, split, hcount l, hcount l', hresolve l, hresolve l']
  cases (p.machine.count q).resolve q with
  | value v =>
    exact .next (p := ⟨{ p.machine.count q with
      channel := (p.machine.count q).channel.setTo v }, p.top, p.bottom⟩) (c := .settled)
      ((h.count q).of_machine (h.count q).store le_rfl)
  | handler f args =>
    simp only [hhandler l, hhandler l']
    exact .next (p := ⟨(p.machine.count q).countHandler q, p.top, p.bottom⟩) (c := .invoke f args)
      ((h.count q).countHandler q)
  | error e => exact parallel_fail ⟨p.machine.count q, p.top, p.bottom⟩ e

theorem parallel_proceed (h : p.Waits id 0) (hp : l'.PausesOnlyAt id) (hl : l.AgreesBut id l') :
    Parallel id l l' (p.whole l).proceed (p.split l').proceed := by
  obtain ⟨m, top, bottom⟩ := p
  cases top with
  | cons t rest =>
    obtain ⟨ht, hrest⟩ := h.pop
    cases t with
    | compiled a =>
      exact .next (p := ⟨m, .compiled a :: rest, bottom⟩) (c := .advance)
        ⟨a, rest, rfl, ht.code, hrest⟩
    | waiting own phase locals =>
      exact parallel_resumeRoutine (p := ⟨m, rest, bottom⟩) hrest hp hl ht phase locals
  | nil =>
    cases bottom with
    | nil => exact .ends (o := .settled m) fun _ _ => by simp
    | cons t rest =>
      obtain ⟨ht, hrest⟩ := h.pop_bottom
      cases t with
      | compiled a =>
        have hpc : Run.resumeAddress a.closure.code a.frame.point = .ok a.pc :=
          Activation.resumeAddress_of_resumesAt ht.resumes
        have hrevive : (split l' ⟨m, [], .compiled a :: rest⟩).proceed =
            .next (split l' ⟨m, [.compiled a], rest⟩) .advance := by
          simp only [split, Run.proceed, List.map_cons, Task.frame, Run.revive, hpc]
        rw [hrevive]
        exact .next (p := ⟨m, [.compiled a], rest⟩) (c := .advance) ⟨a, [], rfl, ht.code, hrest⟩
      | waiting own phase locals =>
        exact parallel_resumeRoutine (p := ⟨m, [], rest⟩) hrest hp hl ht phase locals

theorem parallel_settle (h : p.Waits id 0) (hp : l'.PausesOnlyAt id) (hl : l.AgreesBut id l') :
    Parallel id l l' (p.whole l).settle (p.split l').settle := by
  unfold Run.settle
  cases htail : p.machine.channel.tailCall with
  | none =>
    simp only [Channel.takeTailCall, whole, split, htail]
    exact parallel_proceed h hp hl
  | some t =>
    simp only [Channel.takeTailCall, whole, split, htail, Bool.not_true, Bool.and_false,
      Bool.false_eq_true, if_false]
    exact .next (p := ⟨{ p.machine with
      channel := { p.machine.channel with tailCall := none }
      counters.tailCalls := p.machine.counters.tailCalls + 1 }, p.top, p.bottom⟩)
      (c := .invoke t.target t.args) (h.of_machine h.store le_rfl)

theorem parallel_progress {pr : Progress Activation} (h : p.Waits id 1)
    (hruns : ∀ a, pr = .runs a → a.closure.code.Compiled)
    (hasks : ∀ a q, pr = .asks a q → a.Resumable) :
    Parallel id l l' ((p.whole l).progress pr) ((p.split l').progress pr) := by
  have hleave : p.machine.depth.current + 0 ≤ p.machine.depth.leave.current + 1 := by
    simp only [CallDepth.leave]; omega
  cases pr with
  | runs a =>
    exact .next (p := ⟨p.machine, .compiled a :: p.top, p.bottom⟩) (c := .advance)
      ⟨a, p.top, rfl, hruns a rfl, h⟩
  | asks a q =>
    exact .next (p := ⟨p.machine, .compiled a :: p.top, p.bottom⟩) (c := .request q)
      (h.push (hasks a q rfl))
  | returns vs =>
    exact .next (p := ⟨{ p.machine with
      channel := p.machine.channel.setValues vs, depth := p.machine.depth.leave }, p.top, p.bottom⟩)
      (c := .settled) (h.of_machine h.store hleave)
  | tailCalls target args =>
    exact .next (p := ⟨{ p.machine with
      channel := p.machine.channel.setTailCall target args, depth := p.machine.depth.leave },
      p.top, p.bottom⟩) (c := .settled) (h.of_machine h.store hleave)
  | fails e => exact parallel_fail ⟨{ p.machine with depth := p.machine.depth.leave }, _, _⟩ e

theorem parallel_advance {m : Machine} {a : Activation} {rest bottom : List Task}
    (hcode : a.closure.code.Compiled) (h : Parked.Waits id 1 ⟨m, rest, bottom⟩) :
    Parallel id l l' (whole l ⟨m, .compiled a :: rest, bottom⟩).advance
      (split l' ⟨m, .compiled a :: rest, bottom⟩).advance := by
  simp only [Run.advance, whole, split, List.cons_append]
  cases hadv : a.advance m.store m.channel.values with
  | error d => exact .ends (o := .broken d) fun _ _ => by simp
  | ok after =>
    obtain ⟨st, pr⟩ := after
    obtain ⟨hstore, hruns, hasks⟩ := Activation.compiled_advance hcode h.store hadv
    exact parallel_progress (p := ⟨{ m with store := st }, rest, bottom⟩)
      (h.of_machine hstore le_rfl) hruns hasks

end Parked

/-- The step calls the routine with a number, itself or as a handler for calls. -/
def Run.calls (r : Run) (id : RoutineId) : Control → Bool
  | .invoke target _ =>
    match r.machine.store.callee target with
    | .ok c =>
      c.function == .routine id && (r.machine.depth.enter? r.machine.limits.maxCallDepth).isSome
    | .error _ => false
  | _ => false

namespace Parked

open Step (Parallel)

variable {id : RoutineId} {l l' : Library} {p : Parked}

theorem Waits.countInvocation (h : p.Waits id 0) (c : Callee) :
    Parked.Waits id 0 ⟨p.machine.countInvocation c, p.top, p.bottom⟩ := by
  cases c <;> exact h.of_machine h.store le_rfl

theorem withLibrary_countInvocation (m : Machine) (l : Library) (c : Callee) :
    ({ m with library := l } : Machine).countInvocation c =
      { m.countInvocation c with library := l } := by cases c <;> rfl

theorem invoke_whole {c : Callee} {target : Value} {args : List Value}
    (hc : p.machine.store.callee target = .ok c) :
    (p.whole l).invoke target args =
      (whole l ⟨p.machine.countInvocation c, p.top, p.bottom⟩).enter c.function
        (c.arguments target args) := by
  have hc' : (p.whole l).machine.store.callee target = .ok c := hc
  simp only [Run.invoke, hc']
  simp only [whole, withLibrary_countInvocation]

theorem invoke_split {c : Callee} {target : Value} {args : List Value}
    (hc : p.machine.store.callee target = .ok c) :
    (p.split l).invoke target args =
      (split l ⟨p.machine.countInvocation c, p.top, p.bottom⟩).enter c.function
        (c.arguments target args) := by
  have hc' : (p.split l).machine.store.callee target = .ok c := hc
  simp only [Run.invoke, hc']
  simp only [split, withLibrary_countInvocation]

theorem enter?_countInvocation (m : Machine) (c : Callee) :
    (m.countInvocation c).depth.enter? (m.countInvocation c).limits.maxCallDepth =
      m.depth.enter? m.limits.maxCallDepth := by cases c <;> rfl

theorem calls_invoke {c : Callee} {target : Value} {args : List Value}
    (hc : p.machine.store.callee target = .ok c) :
    (p.split l).calls id (.invoke target args) =
      (c.function == .routine id &&
        (p.machine.depth.enter? p.machine.limits.maxCallDepth).isSome) := by
  have hc' : (p.split l).machine.store.callee target = .ok c := hc
  simp only [Run.calls, hc']
  rfl

theorem parallel_invoke (h : p.Waits id 0) (hp : l'.PausesOnlyAt id) (hl : l.AgreesBut id l')
    {target : Value} {args : List Value}
    (hcalls : (p.split l').calls id (.invoke target args) = false) :
    Parallel id l l' ((p.whole l).invoke target args) ((p.split l').invoke target args) := by
  cases hc : p.machine.store.callee target with
  | error e =>
    have hwhole : (p.whole l).machine.store.callee target = .error e := hc
    have hsplit : (p.split l').machine.store.callee target = .error e := hc
    simp only [Run.invoke, hwhole, hsplit]
    exact parallel_fail p e
  | ok c =>
    rw [invoke_whole hc, invoke_split hc]
    refine parallel_enter (h.countInvocation c) hp hl _ fun hf => ?_
    rw [calls_invoke hc, hf] at hcalls
    rw [enter?_countInvocation]
    simpa using hcalls

/-- **Both runs take the same step** unless it calls the routine that suspends. -/
theorem parallel_step {c : Control} (h : p.Sound id c) (hp : l'.PausesOnlyAt id)
    (hl : l.AgreesBut id l')
    (hcalls : (p.split l').calls id c = false) :
    Parallel id l l' ((p.whole l).step c) ((p.split l').step c) := by
  cases c with
  | request q => exact parallel_request h q
  | invoke target args => exact parallel_invoke h hp hl hcalls
  | advance =>
    obtain ⟨a, rest, htop, hcode, hwaits⟩ := h
    obtain ⟨m, top, bottom⟩ := p
    subst htop
    exact parallel_advance hcode hwaits
  | settled => exact parallel_settle h hp hl

end Parked

end ResumableVM
