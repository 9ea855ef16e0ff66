import ResumableVM.Machine.Host
import ResumableVM.Proofs.Parked

/-! # Transparency: suspending makes no difference

Someone answers every call of `pause`, by its number and arguments. The answers may be given at once:
`Run.runAnswering` binds `pause` to a routine that returns them. Or the host may give them, call after
call, to the machine that suspends. Both ways end alike, in equal machines (`suspension_transparent`).

A stack that has suspended and gone on is the same `Parked` stack with nothing live on top
(`pauses_enter`), so the uninterrupted run and the resumed ones stay two views of one stack. -/

namespace ResumableVM

/-- `pause` without a suspension: it returns an answer, or its arguments when that is empty. -/
def Routine.answering (answer : List Value → List Value) : Routine :=
  native "pause" fun _ args => .ok (.answer (if (answer args).isEmpty then args else answer args))

/-- The library with another routine under a number. -/
def Library.rebind (l : Library) (id : RoutineId) (r : Routine) : Library :=
  { l with routines := l.routines.setIfInBounds id.index r }

/-- The run with another routine under a number. -/
def Run.rebind (r : Run) (id : RoutineId) (routine : Routine) : Run :=
  { r with machine.library := r.machine.library.rebind id routine }

/-- Steps in which the routine with a number returns an answer at once; `n` is the number of the call
of it that comes next. -/
def Run.runAnswering (id : RoutineId) (answer : Nat → List Value → List Value) :
    Nat → Nat → Run → Control → Option Outcome
  | 0, _, _, _ => none
  | fuel + 1, n, r, c =>
    match (r.rebind id (.answering (answer n))).step c with
    | .next r' c' => runAnswering id answer fuel (if r.calls id c then n + 1 else n) r' c'
    | .done o => some o

namespace Machine

/-- Call a value, with all calls of `pause` answered at once; in the end it suspends again. -/
def startAnswering (m : Machine) (id : RoutineId) (answer : Nat → List Value → List Value)
    (fuel : Nat) (callable : Value) (args : List Value) : Option Answer :=
  let r : Run := ⟨{ m with channel := m.channel.reset }, [], [], true⟩
  (r.runAnswering id answer fuel 0 (.invoke callable args)).map fun o =>
    (o.withLibrary m.library).answer

/-- The scheduler that gives these answers, and counts them. -/
def scheduler (answer : Nat → List Value → List Value) (n : Nat) (s : Signal) :
    Nat × List Value := (n + 1, answer n s.values)

end Machine

/-! ### More fuel -/

theorem Run.run_mono {fuel fuel' : Nat} {o : Outcome} (hle : fuel ≤ fuel') :
    ∀ {r : Run} {c : Control}, r.run fuel c = some o → r.run fuel' c = some o := by
  induction fuel generalizing fuel' with
  | zero => intro r c h; cases h
  | succ fuel ih =>
    intro r c h
    obtain ⟨fuel', rfl⟩ : ∃ k, fuel' = k + 1 := ⟨fuel' - 1, by omega⟩
    simp only [run] at h ⊢
    split at h
    · exact ih (by omega) h
    · exact h

namespace Machine

theorem resume_mono {fuel fuel' : Nat} {m : Machine} {s : Signal} {vs : List Value} {a : Answer}
    (hle : fuel ≤ fuel') (h : m.resume fuel s vs = some a) : m.resume fuel' s vs = some a := by
  simp only [resume] at h ⊢
  split at h
  · next hfits =>
    obtain ⟨o, hrun, ho⟩ := Option.map_eq_some_iff.mp h
    rw [if_pos hfits, Run.run_mono hle hrun, ← ho]
    rfl
  · next hfits => rw [if_neg hfits]; exact h

theorem settle_mono {σ : Type} {f : σ → Signal → σ × List Value} {fuel fuel' : Nat}
    (hle : fuel ≤ fuel') {k : Nat} {x : Answer × σ} :
    ∀ {k' : Nat} {s : σ} {a : Answer}, k ≤ k' → settle fuel f k s a = some x →
      settle fuel' f k' s a = some x := by
  induction k with
  | zero => intro k' s a _ h; cases h
  | succ k ih =>
    intro k' s a hk h
    obtain ⟨k', rfl⟩ : ∃ j, k' = j + 1 := ⟨k' - 1, by omega⟩
    cases a with
    | suspended m signal =>
      simp only [settle, Option.bind_eq_bind, Option.bind_eq_some_iff] at h ⊢
      obtain ⟨a, hresume, h⟩ := h
      exact ⟨a, resume_mono hle hresume, ih (by omega) h⟩
    | _ => exact h

end Machine

namespace CallDepth

theorem leaveMany_eq (n : Nat) (d : CallDepth) :
    d.leaveMany n = ⟨d.current - n, d.highWater⟩ := by
  induction n generalizing d with
  | zero => rfl
  | succ n ih => rw [leaveMany, ih]; simp only [leave, Nat.sub_sub, Nat.add_comm]

/-- As many calls as were left can be entered again. -/
theorem enterMany_leaveMany {d : CallDepth} {limit : Nat} (hlimit : d.current ≤ limit)
    (hwater : d.current ≤ d.highWater) :
    ∀ {n : Nat}, n ≤ d.current → (d.leaveMany n).enterMany limit n = (d, true)
  | 0, _ => rfl
  | n + 1, hn => by
    have henter : (d.leaveMany (n + 1)).enter? limit = some (d.leaveMany n) := by
      rw [leaveMany_eq, leaveMany_eq, enter?, if_pos (by show d.current - (n + 1) < limit; omega)]
      simp only [Option.some.injEq, mk.injEq]
      exact ⟨by omega, max_eq_left (by omega)⟩
    rw [enterMany, henter]
    exact enterMany_leaveMany hlimit hwater (by omega)

end CallDepth

/-! ### Pausing -/

/-- A resumed `pause` leaves its results to the frame below. -/
theorem Machine.resume_pause {m : Machine} {id : RoutineId} {frames : List SavedFrame}
    {args vs values : List Value} {depth : CallDepth} (hfind : m.library.find? id = some .pause)
    (hfits : m.depth.enterMany m.limits.maxCallDepth (frames.length + 1) = (depth, true))
    (fuel : Nat) :
    m.resume (fuel + 1) ⟨.routine id 0 (.values args) :: frames, vs⟩ values =
      ((Run.mk { m with
        channel := ⟨if values.isEmpty then args else values, none⟩, depth := depth.leave }
        [] frames true).run fuel .settled).map Outcome.answer := by
  have hfind' : ({ m with channel := ⟨values, none⟩, depth := depth } : Machine).library.find? id =
      some .pause := hfind
  simp only [resume, List.length_cons, hfits, if_true, Channel.setValues, Run.run, Run.step,
    Run.settle, Channel.takeTailCall, Run.proceed, Run.revive, Run.resumeRoutine, Run.withRoutine,
    hfind']
  rfl

/-- One run goes on with an answer; the other is suspended, and goes on the same way with it. -/
inductive Step.Pauses (id : RoutineId) (l l' : Library) (answer : List Value → List Value) :
    Step → Step → Prop
  | resumes {p : Parked} {m : Machine} {s : Signal} (h : p.Waits id 0)
      (hresume : ∀ fuel, m.resume (fuel + 1) s (answer s.values) =
        ((p.split l').run fuel .settled).map Outcome.answer) :
      Pauses id l l' answer (.next (p.whole l) .settled) (.done (.suspended m s))

namespace Parked

variable {id : RoutineId} {l l' : Library} {p : Parked} {answer : List Value → List Value}

/-- A suspension saves all tasks. -/
theorem Waits.saved (h : p.Waits id 0) :
    p.top.filterMap Task.saved? ++ p.bottom.map Task.frame = (p.top ++ p.bottom).map Task.frame := by
  have hsaved : ∀ t ∈ p.top, t.saved? = some t.frame := fun t ht =>
    (h.tasks t (List.mem_append_left _ ht)).saved?
  rw [List.map_append, List.filterMap_congr hsaved, ← List.filterMap_eq_map]
  rfl

/-- **A call of `pause`** suspends one run, and the other goes on. -/
theorem pauses_enter (h : p.Waits id 0) (hl : l.find? id = some (.answering answer))
    (hl' : l'.find? id = some .pause) (args : List Value) {depth : CallDepth}
    (hdepth : p.machine.depth.enter? p.machine.limits.maxCallDepth = some depth) :
    Step.Pauses id l l' answer ((p.whole l).enter (.routine id) args)
      ((p.split l').enter (.routine id) args) := by
  obtain ⟨hlt, hcurrent⟩ := CallDepth.current_enter? hdepth
  have hwater : depth.current ≤ depth.highWater := by
    unfold CallDepth.enter? at hdepth
    rw [if_pos hlt] at hdepth
    cases hdepth
    exact le_max_right _ _
  let results := if (answer args).isEmpty then args else answer args
  let p' : Parked := ⟨{ p.machine with
    channel := ⟨results, none⟩, depth := depth.leave }, [], p.top ++ p.bottom⟩
  have hwhole : (p.whole l).enter (.routine id) args = .next (p'.whole l) .settled := by
    simp only [Run.enter, whole, hdepth, Run.withRoutine, hl]
    rfl
  have hsplit : (p.split l').enter (.routine id) args = .done (.suspended
      { p.machine with library := l', depth := depth.leaveMany ((p.top ++ p.bottom).length + 1) }
      ⟨((p.top ++ p.bottom).map Task.frame).cons (.routine id 0 (.values args)), args⟩) := by
    have hheight : p.top.length + (p.bottom.map Task.frame).length = (p.top ++ p.bottom).length := by
      simp
    simp only [Run.enter, split, hdepth, Run.withRoutine, hl', Routine.pause, Run.replied, Run.reply,
      Run.suspend, Run.unwound, Run.height, Run.leave, List.cons_append, h.saved, hheight]
    rfl
  rw [hwhole, hsplit]
  refine .resumes ⟨h.store, h.tasks, ?_⟩ fun fuel => ?_
  · have := h.depth
    show (p.top ++ p.bottom).length + 0 ≤ depth.current - 1
    omega
  · have hlimit : depth.current ≤ p.machine.limits.maxCallDepth := by omega
    have hroom : (p.top ++ p.bottom).length + 1 ≤ depth.current := by have := h.depth; omega
    have hfits := CallDepth.enterMany_leaveMany hlimit hwater hroom
    rw [← List.length_map Task.frame] at hfits
    exact Machine.resume_pause (m := { p.machine with
      library := l', depth := depth.leaveMany ((p.top ++ p.bottom).length + 1) }) hl'
      (by simpa using hfits) fuel

theorem pauses_step (h : p.Waits id 0) (hl : l.find? id = some (.answering answer))
    (hl' : l'.find? id = some .pause) {c : Control} (hcalls : (p.split l').calls id c = true) :
    Step.Pauses id l l' answer ((p.whole l).step c) ((p.split l').step c) := by
  cases c with
  | invoke target args =>
    cases hc : p.machine.store.callee target with
    | error e =>
      have hc' : (p.split l').machine.store.callee target = .error e := hc
      simp only [Run.calls, hc', Bool.false_eq_true] at hcalls
    | ok c =>
      simp only [calls_invoke hc, Bool.and_eq_true, beq_iff_eq, Option.isSome_iff_exists] at hcalls
      obtain ⟨hf, depth, hdepth⟩ := hcalls
      simp only [Run.step]
      rw [invoke_whole hc, invoke_split hc, hf]
      exact pauses_enter (h.countInvocation c) hl hl' _
        ((enter?_countInvocation p.machine c).trans hdepth)
  | _ => cases hcalls

end Parked

/-! ### Whole calls -/

namespace Library

theorem find?_rebind {l : Library} {id : RoutineId} {old : Routine} (h : l.find? id = some old)
    (r : Routine) : (l.rebind id r).find? id = some r := by
  have hlt := (Array.getElem?_eq_some_iff.mp h).1
  simp [find?, rebind, hlt]

theorem agreesBut_rebind (l : Library) (id : RoutineId) (r : Routine) :
    (l.rebind id r).AgreesBut id l := by
  intro own hne
  have : id.index ≠ own.index := fun h => hne (by cases id; cases own; simp_all)
  simp [find?, rebind, this]

theorem rebind_rebind (l : Library) (id : RoutineId) (r r' : Routine) :
    (l.rebind id r).rebind id r' = l.rebind id r' := by
  simp [rebind, Array.setIfInBounds_setIfInBounds]

end Library

theorem Outcome.withLibrary_withLibrary (o : Outcome) (l l' : Library) :
    (o.withLibrary l).withLibrary l' = o.withLibrary l' := by cases o <;> rfl

theorem Outcome.answer_ne_suspended {o : Outcome} (h : ∀ m s, o ≠ .suspended m s) (l : Library)
    (m : Machine) (s : Signal) : (o.withLibrary l).answer ≠ .suspended m s := by
  cases o with
  | suspended m s => exact absurd rfl (h m s)
  | _ => simp [withLibrary, answer]

/-- What is over stays as it is. -/
theorem Machine.settle_over {σ : Type} {f : σ → Signal → σ × List Value} {fuel k : Nat} {s : σ}
    {a : Answer} (h : ∀ m signal, a ≠ .suspended m signal) :
    settle fuel f (k + 1) s a = some (a, s) := by
  cases a with
  | suspended m signal => exact absurd rfl (h m signal)
  | _ => rfl

section Calls

variable {id : RoutineId} {l' : Library} {answer : Nat → List Value → List Value}

/-- What a step does to both runs of a stack, and to the number of the next call of `pause`. -/
inductive Parked.Moves (id : RoutineId) (l' : Library) (answer : Nat → List Value → List Value)
    (p : Parked) (c : Control) (n : Nat) : Prop
  /-- Both go on. -/
  | together {p' : Parked} {c' : Control} (h : p'.Sound id c')
      (whole : ∀ fuel, (p.whole l').runAnswering id answer (fuel + 1) n c =
        (p'.whole l').runAnswering id answer fuel n c')
      (split : ∀ fuel, (p.split l').run (fuel + 1) c = (p'.split l').run fuel c')
  /-- Both end, and alike. -/
  | ends {o o' : Outcome} (h : ∀ m s, o.answer ≠ .suspended m s) (same : o'.withLibrary l' = o)
      (whole : ∀ fuel, (p.whole l').runAnswering id answer (fuel + 1) n c =
        some o')
      (split : ∀ fuel, (p.split l').run (fuel + 1) c = some o)
  /-- One goes on; the other is suspended, and goes on when it is resumed. -/
  | pauses {p' : Parked} {m : Machine} {s : Signal} (h : p'.Sound id .settled)
      (whole : ∀ fuel, (p.whole l').runAnswering id answer (fuel + 1) n c =
        (p'.whole l').runAnswering id answer fuel (n + 1) .settled)
      (split : ∀ fuel, (p.split l').run (fuel + 1) c = some (.suspended m s))
      (resume : ∀ fuel, m.resume (fuel + 1) s (answer n s.values) =
        ((p'.split l').run fuel .settled).map Outcome.answer)

/-- Each step binds its own answer, whatever was bound before. -/
theorem runAnswering_rebind (r : Run) (routine : Routine) (fuel n : Nat) (c : Control) :
    (r.rebind id routine).runAnswering id answer fuel n c = r.runAnswering id answer fuel n c := by
  cases fuel with
  | zero => rfl
  | succ fuel =>
    have hcalls : (r.rebind id routine).calls id c = r.calls id c := by cases c <;> rfl
    have hrebind : (r.rebind id routine).rebind id (.answering (answer n)) =
        r.rebind id (.answering (answer n)) := by
      simp only [Run.rebind, Library.rebind_rebind]
    rw [Run.runAnswering, Run.runAnswering, hrebind, hcalls]

/-- **Both runs of a stack move together**, until they end. -/
theorem Parked.moves (hp : l'.PausesOnlyAt id) (answer : Nat → List Value → List Value)
    {p : Parked} {c : Control} (h : p.Sound id c) (n : Nat) : p.Moves id l' answer c n := by
  have hcalls : (p.whole l').calls id c = (p.split l').calls id c := by cases c <;> rfl
  have hwhole (fuel : Nat) : (p.whole l').runAnswering id answer (fuel + 1) n c =
      match (p.whole (l'.rebind id (.answering (answer n)))).step c with
      | .next r c' => r.runAnswering id answer fuel (if (p.split l').calls id c then n + 1 else n) c'
      | .done o => some o := by
    rw [← hcalls]
    rfl
  have hsplit (fuel : Nat) : (p.split l').run (fuel + 1) c =
      match (p.split l').step c with
      | .next r c' => r.run fuel c'
      | .done o => some o := rfl
  cases hc : (p.split l').calls id c with
  | false =>
    have hstep := parallel_step h hp (l'.agreesBut_rebind id (.answering (answer n))) hc
    simp only [hc, Bool.false_eq_true, if_false] at hwhole
    generalize (p.whole (l'.rebind id (.answering (answer n)))).step c = a at hstep hwhole
    generalize (p.split l').step c = b at hstep hsplit
    cases hstep with
    | @next p' c' h' =>
      exact .together h' (fun fuel => (hwhole fuel).trans
        (runAnswering_rebind (p'.whole l') (.answering (answer n)) fuel n c')) hsplit
    | @ends o ho =>
      exact .ends (Outcome.answer_ne_suspended ho l') (o.withLibrary_withLibrary _ l') hwhole hsplit
  | true =>
    have hwaits : p.Waits id 0 := by
      cases c with
      | invoke => exact h
      | _ => cases hc
    have hstep := pauses_step hwaits (Library.find?_rebind hp.pause (.answering (answer n)))
      hp.pause hc
    simp only [hc, if_true] at hwhole
    generalize (p.whole (l'.rebind id (.answering (answer n)))).step c = a at hstep hwhole
    generalize (p.split l').step c = b at hstep hsplit
    cases hstep with
    | @resumes p' m s h' hresume =>
      exact .pauses h' (fun fuel => (hwhole fuel).trans
        (runAnswering_rebind (p'.whole l') (.answering (answer n)) fuel (n + 1) .settled)) hsplit
        hresume

/-- Who has been answered at once can be driven to the same end. -/
theorem driven_of_answering (hp : l'.PausesOnlyAt id) {fuel : Nat} {o : Outcome} :
    ∀ {p : Parked} {c : Control} {n : Nat}, p.Sound id c →
      (p.whole l').runAnswering id answer fuel n c = some o →
      ∃ fuel' k o' n', (p.split l').run fuel' c = some o' ∧
        Machine.settle fuel' (Machine.scheduler answer) k n o'.answer =
          some ((o.withLibrary l').answer, n') := by
  induction fuel with
  | zero => intro p c n _ h; cases h
  | succ fuel ih =>
    intro p c n h hrun
    cases Parked.moves hp answer h n with
    | together h' whole split =>
      obtain ⟨fuel', k, o', n', hrun', hsettle⟩ := ih h' ((whole fuel).symm.trans hrun)
      exact ⟨fuel' + 1, k, o', n', (split fuel').trans hrun',
        Machine.settle_mono (Nat.le_succ _) le_rfl hsettle⟩
    | ends ho same whole split =>
      cases (whole fuel).symm.trans hrun
      exact ⟨1, 1, _, n, split 0, by rw [same]; exact Machine.settle_over ho⟩
    | @pauses p' m s h' whole split resume =>
      obtain ⟨fuel', k, o', n', hrun', hsettle⟩ := ih h' ((whole fuel).symm.trans hrun)
      refine ⟨fuel' + 1, k + 1, .suspended m s, n', split fuel', ?_⟩
      have hresume : m.resume (fuel' + 1) s (answer n s.values) = some o'.answer := by
        rw [resume, hrun']
        rfl
      simp only [Outcome.answer, Machine.settle, Machine.scheduler, hresume, Option.bind_eq_bind,
        Option.bind_some]
      exact Machine.settle_mono (Nat.le_succ _) le_rfl hsettle

/-- Who can be driven to an end gets there when answered at once. -/
theorem answering_of_driven (hp : l'.PausesOnlyAt id) {fuel : Nat} {a : Answer} {n' : Nat} :
    ∀ {k steps : Nat} {p : Parked} {c : Control} {n : Nat} {o : Outcome}, p.Sound id c →
      (p.split l').run steps c = some o →
      Machine.settle fuel (Machine.scheduler answer) k n o.answer = some (a, n') →
      ∃ fuel' o', (p.whole l').runAnswering id answer fuel' n c = some o' ∧
        (o'.withLibrary l').answer = a := by
  intro k
  induction k with
  | zero => intro _ _ _ _ _ _ _ h; cases h
  | succ k ihk =>
    intro steps
    induction steps with
    | zero => intro _ _ _ _ _ h; cases h
    | succ steps ih =>
      intro p c n o h hrun hsettle
      cases Parked.moves hp answer h n with
      | together h' whole split =>
        obtain ⟨fuel', o', hrun', ha⟩ := ih h' ((split steps).symm.trans hrun) hsettle
        exact ⟨fuel' + 1, o', (whole fuel').trans hrun', ha⟩
      | ends ho same whole split =>
        cases (split steps).symm.trans hrun
        cases (Machine.settle_over ho).symm.trans hsettle
        exact ⟨1, _, whole 0, by rw [same]⟩
      | @pauses p' m s h' whole split resume =>
        cases (split steps).symm.trans hrun
        simp only [Outcome.answer, Machine.settle, Machine.scheduler, Option.bind_eq_bind,
          Option.bind_eq_some_iff] at hsettle
        obtain ⟨a', hresume, hsettle⟩ := hsettle
        have hresume' := (resume fuel).symm.trans (Machine.resume_mono (Nat.le_succ _) hresume)
        obtain ⟨o', hrun', rfl⟩ := Option.map_eq_some_iff.mp hresume'
        obtain ⟨fuel', o', hrun'', ha⟩ := ihk h' hrun' hsettle
        exact ⟨fuel' + 1, o', (whole fuel').trans hrun'', ha⟩

/-- **Suspension is transparent.** All closures have compiled code, and `pause` is the one routine
that suspends. Answer every call of it by its number and its arguments: then a call that gets these
answers at once ends, with some results or error and with some machine, exactly if the call that
suspends for each of them, and is resumed with it, ends so. The store, the depth and the counters of
the machines are equal, not just equal up to names. -/
theorem suspension_transparent {m : Machine} (hp : m.library.PausesOnlyAt id)
    (hstore : m.store.Compiled) (answer : Nat → List Value → List Value) (callable : Value)
    (args : List Value) (a : Answer) :
    (∃ fuel, m.startAnswering id answer fuel callable args = some a) ↔
      ∃ fuel n, m.complete fuel (Machine.scheduler answer) 0 callable args = some (a, n) := by
  have hsound : Parked.Sound id ⟨{ m with channel := m.channel.reset }, [], []⟩
      (.invoke callable args) := ⟨hstore, by simp, Nat.zero_le _⟩
  constructor
  · rintro ⟨fuel, h⟩
    obtain ⟨o, hrun, rfl⟩ := Option.map_eq_some_iff.mp h
    obtain ⟨fuel', k, o', n, hrun', hsettle⟩ := driven_of_answering hp hsound hrun
    refine ⟨max fuel' k, n, ?_⟩
    have hstart : m.start (max fuel' k) callable args = some o'.answer :=
      Option.map_eq_some_iff.mpr ⟨o', Run.run_mono (le_max_left _ _) hrun', rfl⟩
    rw [Machine.complete, hstart]
    exact Machine.settle_mono (le_max_left _ _) (le_max_right _ _) hsettle
  · rintro ⟨fuel, n, h⟩
    simp only [Machine.complete, Option.bind_eq_bind, Option.bind_eq_some_iff] at h
    obtain ⟨a', hstart, hsettle⟩ := h
    obtain ⟨o, hrun, rfl⟩ := Option.map_eq_some_iff.mp hstart
    obtain ⟨fuel', o', hrun', ha⟩ := answering_of_driven hp hsound hrun hsettle
    exact ⟨fuel', Option.map_eq_some_iff.mpr ⟨o', hrun', ha⟩⟩

end Calls

/-- A procedure that calls its argument twice, the second time with the first result, and returns
both results. -/
def Procedure.consult : Procedure where
  name := "consult"
  params := 1
  isVararg := false
  registers := 3
  upvalues := []
  blocks := [⟨[.call 0 ⟨[], false⟩ (.fixed [1]), .call 0 ⟨[.register 1], false⟩ (.fixed [2])],
    .ret ⟨[.register 1, .register 2], false⟩⟩]
  nested := []

/-- A machine with one closure, of this procedure. -/
def Machine.consulting : Machine :=
  { Machine.standard .standard with
    store := ((Machine.standard .standard).store.addClosure ⟨Procedure.consult.assemble [], #[]⟩).2 }

theorem Machine.compiled_consulting : consulting.store.Compiled := by
  have hcompile : Procedure.consult.compile = .ok (Procedure.consult.assemble []) :=
    Procedure.compile_eq_ok_iff.mpr ⟨Procedure.check_eq_ok_iff.mp rfl, [], .nil, rfl⟩
  have hstandard : (Machine.standard .standard).store.Compiled := by
    intro c hc
    have hnone : (Machine.standard .standard).store.closures = #[] := rfl
    simp [hnone] at hc
  exact hstandard.addClosure ⟨_, hcompile⟩

/-- Both calls of `pause` are answered with their number. -/
theorem suspension_transparent_consulting :
    Machine.consulting.library.PausesOnlyAt ⟨9⟩ ∧ Machine.consulting.store.Compiled ∧
    ∃ m fuel n, Machine.consulting.complete fuel
      (Machine.scheduler fun n _ => [.integer (Int64.ofNat n)]) 0 (.closure ⟨0⟩) [.routine ⟨9⟩] =
        some (.done m [.integer 0, .integer 1], n) := by
  obtain ⟨m, hstart⟩ : ∃ m, Machine.consulting.startAnswering ⟨9⟩
      (fun n _ => [.integer (Int64.ofNat n)]) 20 (.closure ⟨0⟩) [.routine ⟨9⟩] =
        some (.done m [.integer 0, .integer 1]) := ⟨_, rfl⟩
  have hp : Machine.consulting.library.PausesOnlyAt ⟨9⟩ := Routine.pausesOnlyAt_standard
  exact ⟨hp, Machine.compiled_consulting, m, (suspension_transparent hp Machine.compiled_consulting
    (fun n _ => [.integer (Int64.ofNat n)]) (.closure ⟨0⟩) [.routine ⟨9⟩] _).mp ⟨20, hstart⟩⟩

end ResumableVM
