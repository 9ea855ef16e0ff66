import ResumableVM.Proofs.DirectStyle
import ResumableVM.Proofs.Suspensions

/-! # NestedCalls: the stack carries out calls that nest

What nests ends on every stack as it does in direct style (`Nested.sound`), and all that is over on a
stack is over in direct style too (`Nested.total`). The stack below is arbitrary: when an operation
settles, whoever is on top of it goes on; any other end goes through all levels at once, where the
calls would pass it on one by one (`Outcome.onto_of_level`). -/

namespace ResumableVM

/-! ### Steps -/

namespace Step

/-- So many steps more; nothing comes after the last one. -/
def after : Nat → Step → Step
  | 0, s => s
  | n + 1, .next r c => after n (r.step c)
  | _ + 1, .done o => .done o

/-- Some steps lead from here to there. -/
def LeadsTo (s s' : Step) : Prop := ∃ n, s.after n = s'

/-- All is over after so many steps. -/
def Over (n : Nat) (s : Step) : Prop := ∃ o, s.after n = .done o

variable {s s' s'' : Step} {r : Run} {c : Control} {n : Nat}

theorem after_done (n : Nat) (o : Outcome) : (Step.done o).after n = .done o := by
  cases n <;> rfl

theorem after_add (a b : Nat) (s : Step) : s.after (a + b) = (s.after a).after b := by
  induction a generalizing s with
  | zero => rw [Nat.zero_add]; rfl
  | succ a ih =>
    rw [Nat.succ_add]
    cases s with
    | next r c => exact ih _
    | done o => rw [after_done, after_done]; exact (after_done b o).symm

theorem LeadsTo.refl (s : Step) : s.LeadsTo s := ⟨0, rfl⟩

theorem LeadsTo.of_eq (h : s = s') : s.LeadsTo s' := ⟨0, h⟩

theorem LeadsTo.trans (h : s.LeadsTo s') (h' : s'.LeadsTo s'') : s.LeadsTo s'' := by
  obtain ⟨a, rfl⟩ := h
  obtain ⟨b, rfl⟩ := h'
  exact ⟨a + b, after_add a b s⟩

theorem LeadsTo.step (h : (r.step c).LeadsTo s) : (Step.next r c).LeadsTo s := by
  obtain ⟨n, h⟩ := h
  exact ⟨n + 1, h⟩

theorem Over.step (h : (Step.next r c).Over n) : ∃ k, n = k + 1 ∧ (r.step c).Over k := by
  obtain ⟨o, ho⟩ := h
  cases n with
  | zero => cases ho
  | succ k => exact ⟨k, rfl, o, ho⟩

theorem Over.succ (h : s.Over n) : s.Over (n + 1) := by
  obtain ⟨o, ho⟩ := h
  exact ⟨o, by rw [after_add, ho, after_done]⟩

/-- What is over within so many steps is over no later from where it leads to. -/
theorem Over.of_leadsTo (h : s.Over n) (h' : s.LeadsTo s') : s'.Over n := by
  obtain ⟨o, ho⟩ := h
  obtain ⟨k, rfl⟩ := h'
  exact ⟨o, by rw [← after_add, Nat.add_comm, after_add, ho, after_done]⟩

theorem after_eq_done_iff {o : Outcome} :
    (Step.next r c).after n = .done o ↔ r.run n c = some o := by
  induction n generalizing r c with
  | zero => exact ⟨nofun, nofun⟩
  | succ n ih =>
    show (r.step c).after n = _ ↔ _
    rw [Run.run]
    cases r.step c with
    | next r' c' => exact ih
    | done o' =>
      rw [after_done]
      exact ⟨fun h => by cases h; rfl, fun h => by cases h; rfl⟩

end Step

/-! ### What nests is on the stack -/

/-- The stack makes the tail calls that are left to it. -/
def Run.Flattens (r : Run) : Prop := (r.isBase && !r.flatten) = false

/-- What the end of an operation is on the stack of a run. -/
def Outcome.onto (r : Run) : Outcome → Step
  | settled m => .next (r.withMachine m) .settled
  | failed m e => (r.withMachine m).fail e
  | suspended m s =>
    .done (.suspended (r.withMachine m).unwound
      ⟨s.frames ++ (r.live.filterMap Task.saved? ++ r.pending), s.values⟩)
  | broken d => .done (.broken d)

/-- **An end that does not settle passes through one level of the stack** as it passes through the
call that is there: the level is left, and the frame is added. -/
theorem Outcome.onto_of_level {o : Outcome} {r r' : Run} {own : Option SavedFrame}
    (ho : ∀ m, o ≠ .settled m) (hheight : r'.height = r.height + 1)
    (hframes : r'.live.filterMap Task.saved? ++ r'.pending =
      own.toList ++ (r.live.filterMap Task.saved? ++ r.pending)) :
    o.onto r' = (o.through own).leave.onto r := by
  have hunwound (m : Machine) : (r'.withMachine m).unwound =
      (r.withMachine { m with depth := m.depth.leave }).unwound := by
    show { m with depth := m.depth.leaveMany r'.height } = _
    rw [hheight]
    rfl
  cases o with
  | settled m => exact absurd rfl (ho m)
  | failed m e =>
    show Step.done (.failed (r'.withMachine m).unwound e) = _
    rw [hunwound]
    rfl
  | suspended m s =>
    simp only [onto, through, leave, hunwound, hframes, List.append_assoc]
  | broken d => rfl

/-- A call of a procedure is such a level. -/
theorem Outcome.onto_compiled {o : Outcome} (ho : ∀ m, o ≠ .settled m) (r : Run) (a : Activation) :
    o.onto { r with live := .compiled a :: r.live } =
      (o.throughCode a.closure a.frame).leave.onto r := by
  refine onto_of_level ho ?_ ?_
  · simp only [Run.height, List.length_cons]
    omega
  · simp only [List.filterMap_cons, Task.saved?]
    split <;> simp_all

/-- A routine that waits is such a level. -/
theorem Outcome.onto_waiting {o : Outcome} (ho : ∀ m, o ≠ .settled m) (r : Run) (id : RoutineId)
    (phase : Nat) (locals : Locals) :
    o.onto { r with live := .waiting id phase locals :: r.live } =
      (o.through (some (.routine id phase locals))).leave.onto r := by
  refine onto_of_level ho ?_ rfl
  simp only [Run.height, List.length_cons]
  omega

/-- A frame that has not gone on is such a level. -/
theorem Outcome.onto_pending {o : Outcome} (ho : ∀ m, o ≠ .settled m) (m : Machine)
    (f : SavedFrame) (rest : List SavedFrame) (flatten : Bool) :
    o.onto ⟨m, [], f :: rest, flatten⟩ =
      (o.through (some f)).leave.onto ⟨m, [], rest, flatten⟩ := by
  refine onto_of_level ho ?_ rfl
  simp only [Run.height, List.length_cons, List.length_nil]
  omega

theorem Run.flattens_of_live {r : Run} {t : Task} {rest : List Task} (h : r.live = t :: rest) :
    r.Flattens := by
  simp [Flattens, isBase, h]

/-- Where nothing is left to be called the innermost task or frame goes on. -/
theorem Run.step_settled {r : Run} (h : r.machine.channel.tailCall = none) :
    r.step .settled = r.proceed := by
  simp only [step, settle, Channel.takeTailCall, h]

/-- What is left to be called is called. -/
theorem Run.step_tailCall {r : Run} {t : TailCall} (h : r.machine.channel.tailCall = some t)
    (hflattens : r.Flattens) :
    r.step .settled =
      .next (r.withMachine r.machine.withoutTailCall) (.invoke t.target t.args) := by
  unfold Flattens at hflattens
  simp only [step, settle, Channel.takeTailCall, h, hflattens]
  rfl

namespace Nested

/-- **What nests does the same on a stack**, whatever is below it. -/
structure Sound (n : Nat) : Prop where
  invoke : ∀ {m : Machine} {target : Value} {args : List Value} {o : Outcome},
    Nested.invoke n m target args = some o → ∀ r : Run,
      (Step.next (r.withMachine m) (.invoke target args)).LeadsTo (o.onto r)
  execute : ∀ {m : Machine} {a : Activation} {o : Outcome} {frame : Frame},
    Nested.execute n m a = some (o, frame) → ∀ r : Run,
      (Step.next { r with machine := m, live := .compiled a :: r.live } .advance).LeadsTo
        ((o.throughCode a.closure frame).leave.onto r)
  converse : ∀ {m : Machine} {id : RoutineId} {x : Except Defect (Store × Reply)} {o : Outcome},
    Nested.converse n m id x = some o → ∀ r : Run,
      ((r.withMachine m).replied id x).LeadsTo (o.leave.onto r)
  request : ∀ {m : Machine} {q : Request} {o : Outcome},
    Nested.request n m q = some o → ∀ r : Run, r.Flattens →
      (Step.next (r.withMachine m) (.request q)).LeadsTo (o.onto r)
  trampoline : ∀ {m : Machine} {o : Outcome},
    Nested.trampoline n m = some o → ∀ r : Run, r.Flattens →
      (Step.next (r.withMachine m) .settled).LeadsTo (o.onto r)

variable {n : Nat} {m m' : Machine} {o : Outcome}

/-! #### Tail calls -/

/-- The trampoline leaves no tail call. -/
theorem tailCall_trampoline : ∀ {n : Nat} {m : Machine},
    trampoline n m = some (.settled m') → m'.channel.tailCall = none
  | 0, _, h => nomatch h
  | n + 1, m, h => by
    rw [trampoline] at h
    split at h
    · next hnone => cases h; exact hnone
    · obtain ⟨o, -, h⟩ := Option.bind_eq_some_iff.mp h
      cases o with
      | settled m => exact tailCall_trampoline h
      | _ => cases h

/-- Nor does an operation whose tail calls are made. -/
theorem tailCall_andThen (h : o.andThen (trampoline n) = some (.settled m')) :
    m'.channel.tailCall = none := by
  cases o with
  | settled m => exact tailCall_trampoline h
  | _ => cases h

theorem tailCall_request {q : Request} (h : request n m q = some (.settled m')) :
    m'.channel.tailCall = none := by
  cases n with
  | zero => cases h
  | succ n =>
    simp only [request] at h
    split at h
    · cases h; rfl
    · obtain ⟨o, -, h⟩ := Option.bind_eq_some_iff.mp h
      exact tailCall_andThen h
    · cases h

/-- The tail calls that an operation leaves are made by the stack below it. -/
theorem Sound.andThen (h : Sound n) {o' : Outcome}
    (ho : o'.andThen (Nested.trampoline n) = some o)
    {r : Run} (hr : r.Flattens) : (o'.onto r).LeadsTo (o.onto r) := by
  cases o' with
  | settled m' => exact h.trampoline ho r hr
  | _ => cases ho; exact .refl _

/-- An invocation with its tail calls, on a stack that makes them. -/
theorem Sound.call (h : Sound n) {target : Value} {args : List Value}
    (ho : call n m target args = some o) {r : Run} (hr : r.Flattens) :
    (Step.next (r.withMachine m) (.invoke target args)).LeadsTo (o.onto r) := by
  obtain ⟨o', hinvoke, ho⟩ := Option.bind_eq_some_iff.mp ho
  exact (h.invoke hinvoke r).trans (h.andThen ho hr)

/-! #### Each operation -/

/-- What is done one level deeper leaves that level once, however it ends. -/
theorem nested_cases {body : Machine → Option Outcome} (h : m.nested body = some o) :
    (m.depth.enter? m.limits.maxCallDepth = none ∧
      o = .failed m (.stackOverflow m.limits.maxCallDepth)) ∨
    ∃ depth o', m.depth.enter? m.limits.maxCallDepth = some depth ∧
      body { m with depth := depth } = some o' ∧ o = o'.leave := by
  unfold Machine.nested at h
  split at h
  · next hnone => cases h; exact .inl ⟨hnone, rfl⟩
  · next depth hdepth =>
    obtain ⟨o', hbody, rfl⟩ := Option.map_eq_some_iff.mp h
    exact .inr ⟨depth, o', hdepth, hbody, rfl⟩

/-- A routine that is used, one level deep. -/
theorem leads_useRoutine {id : RoutineId} {code : Routine → Except Defect (Store × Reply)}
    (h : (m.useRoutine id fun routine => converse n m id (code routine)) = some o) (ih : Sound n)
    (r : Run) :
    ((r.withMachine m).withRoutine id fun routine =>
      (r.withMachine m).replied id (code routine)).LeadsTo (o.leave.onto r) := by
  simp only [Machine.useRoutine] at h
  simp only [Run.withRoutine, Run.withMachine]
  cases hfind : m.library.find? id with
  | some routine =>
    rw [hfind] at h
    exact ih.converse h r
  | none =>
    rw [hfind] at h
    cases h
    exact .refl _

theorem sound_invoke (ih : Sound n) {target : Value} {args : List Value}
    (h : invoke (n + 1) m target args = some o) (r : Run) :
    (Step.next (r.withMachine m) (.invoke target args)).LeadsTo (o.onto r) := by
  refine .step ?_
  show (Run.invoke (r.withMachine m) target args).LeadsTo _
  rw [invoke] at h
  simp only [Run.invoke, Run.withMachine]
  cases hcallee : m.store.callee target with
  | error e =>
    rw [hcallee] at h
    cases h
    exact .refl _
  | ok c =>
    rw [hcallee] at h
    simp only [Run.enter]
    rcases nested_cases h with ⟨hnone, rfl⟩ | ⟨depth, o', hdepth, hbody, rfl⟩
    · rw [hnone]
      exact .refl _
    · rw [hdepth]
      cases hfunction : c.function with
      | closure id =>
        simp only [hfunction] at hbody
        obtain ⟨⟨o, frame⟩, hexecute, rfl⟩ := Option.map_eq_some_iff.mp hbody
        exact ih.execute hexecute r
      | routine id =>
        simp only [hfunction] at hbody
        exact leads_useRoutine hbody ih r

theorem sound_execute (ih : Sound n) {a : Activation} {frame : Frame}
    (h : execute (n + 1) m a = some (o, frame)) (r : Run) :
    (Step.next { r with machine := m, live := .compiled a :: r.live } .advance).LeadsTo
      ((o.throughCode a.closure frame).leave.onto r) := by
  refine .step ?_
  rw [execute] at h
  simp only [Run.step, Run.advance]
  cases hadvance : a.advance m.store m.channel.values with
  | error d =>
    rw [hadvance] at h
    cases h
    exact .refl _
  | ok after =>
    obtain ⟨st, p⟩ := after
    rw [hadvance] at h
    obtain ⟨i, -, -, hfollows⟩ := Activation.follows_advance hadvance
    cases p with
    | runs a' =>
      have hsame : a'.closure = a.closure := hfollows
      rw [← hsame]
      exact ih.execute h r
    | asks a' q =>
      have hsame : a'.closure = a.closure := hfollows.1
      rw [← hsame]
      obtain ⟨o', hrequest, h⟩ := Option.bind_eq_some_iff.mp h
      have hflattens : Run.Flattens { r with live := .compiled a' :: r.live } :=
        Run.flattens_of_live rfl
      refine (ih.request hrequest _ hflattens).trans ?_
      cases o' with
      | settled m' =>
        refine .step ?_
        rw [Run.step_settled (tailCall_request hrequest)]
        exact ih.execute h r
      | _ =>
        cases h
        exact .of_eq (Outcome.onto_compiled (by simp) r a')
    | returns vs => cases h; exact .refl _
    | tailCalls target args => cases h; exact .refl _
    | fails e => cases h; exact .refl _

theorem sound_converse (ih : Sound n) {id : RoutineId} {x : Except Defect (Store × Reply)}
    (h : converse (n + 1) m id x = some o) (r : Run) :
    ((r.withMachine m).replied id x).LeadsTo (o.leave.onto r) := by
  cases x with
  | error d =>
    cases h
    exact .refl _
  | ok after =>
    obtain ⟨st, reply⟩ := after
    unfold converse at h
    cases reply with
    | answers vs => cases h; exact .refl _
    | asks q phase locals =>
      obtain ⟨o', hrequest, h⟩ := Option.bind_eq_some_iff.mp h
      have hflattens : Run.Flattens { r with live := .waiting id phase locals :: r.live } :=
        Run.flattens_of_live rfl
      refine (ih.request hrequest _ hflattens).trans ?_
      cases o' with
      | settled m' =>
        refine .step ?_
        rw [Run.step_settled (tailCall_request hrequest)]
        exact leads_useRoutine h ih r
      | _ =>
        cases h
        exact .of_eq (Outcome.onto_waiting (by simp) r id phase locals)
    | suspends vs phase locals => cases h; exact .refl _
    | fails e => cases h; exact .refl _

theorem sound_request (ih : Sound n) {q : Request} (h : request (n + 1) m q = some o) {r : Run}
    (hr : r.Flattens) : (Step.next (r.withMachine m) (.request q)).LeadsTo (o.onto r) := by
  refine .step ?_
  show (Run.request _ q).LeadsTo _
  rw [request] at h
  simp only [Run.request, Run.withMachine]
  cases hresolve : (m.count q).resolve q with
  | value v =>
    simp only [hresolve] at h
    cases h
    exact .refl _
  | handler f args =>
    simp only [hresolve] at h
    exact ih.call h hr
  | error e =>
    simp only [hresolve] at h
    cases h
    exact .refl _

theorem sound_trampoline (ih : Sound n) (h : trampoline (n + 1) m = some o) {r : Run}
    (hr : r.Flattens) : (Step.next (r.withMachine m) .settled).LeadsTo (o.onto r) := by
  rw [trampoline] at h
  split at h
  · cases h
    exact .refl _
  · next t ht =>
    have hstep : (r.withMachine m).step .settled =
        .next (r.withMachine m.withoutTailCall) (.invoke t.target t.args) :=
      Run.step_tailCall ht hr
    refine .step ?_
    rw [hstep]
    exact ih.call h hr

/-- **On every stack, what nests leads to its end.** -/
theorem sound : ∀ n, Sound n
  | 0 => ⟨nofun, nofun, nofun, nofun, nofun⟩
  | n + 1 => ⟨sound_invoke (sound n), sound_execute (sound n), sound_converse (sound n),
      fun h _ => sound_request (sound n) h, fun h _ => sound_trampoline (sound n) h⟩

/-! #### What is over on the stack -/

/-- **What is over on a stack within so many steps is over when it nests**, with twice as much fuel:
a step of a routine takes the call and the request that it makes. -/
structure Total (n : Nat) : Prop where
  invoke : ∀ {f : Nat} {m : Machine} {target : Value} {args : List Value} {r : Run}, 2 * n ≤ f →
    (Step.next (r.withMachine m) (.invoke target args)).Over n →
      ∃ o, Nested.invoke f m target args = some o
  execute : ∀ {f : Nat} {m : Machine} {a : Activation} {r : Run}, 2 * n ≤ f →
    (Step.next { r with machine := m, live := .compiled a :: r.live } .advance).Over n →
      ∃ x, Nested.execute f m a = some x
  converse : ∀ {f : Nat} {m : Machine} {id : RoutineId} {x : Except Defect (Store × Reply)}
    {r : Run}, 2 * n + 1 ≤ f → ((r.withMachine m).replied id x).Over n →
      ∃ o, Nested.converse f m id x = some o
  request : ∀ {f : Nat} {m : Machine} {q : Request} {r : Run}, 2 * n ≤ f → r.Flattens →
    (Step.next (r.withMachine m) (.request q)).Over n → ∃ o, Nested.request f m q = some o
  trampoline : ∀ {f : Nat} {m : Machine} {r : Run}, 2 * n ≤ f → r.Flattens →
    (Step.next (r.withMachine m) .settled).Over n → ∃ o, Nested.trampoline f m = some o

variable {f : Nat} {r : Run}

theorem Total.andThen (h : Total n) (hf : 2 * n ≤ f) (hr : r.Flattens) {o' : Outcome}
    (hover : (o'.onto r).Over n) : ∃ o, o'.andThen (Nested.trampoline f) = some o := by
  cases o' with
  | settled m' => exact h.trampoline hf hr hover
  | _ => exact ⟨_, rfl⟩

theorem Total.call (h : Total n) (hf : 2 * n ≤ f) (hr : r.Flattens) {target : Value}
    {args : List Value} (hover : (Step.next (r.withMachine m) (.invoke target args)).Over n) :
    ∃ o, Nested.call f m target args = some o := by
  obtain ⟨o, ho⟩ := h.invoke hf hover
  unfold Nested.call
  rw [ho]
  exact h.andThen hf hr (hover.of_leadsTo ((sound f).invoke ho r))

theorem Total.useRoutine (h : Total n) (hf : 2 * n + 1 ≤ f) {id : RoutineId}
    {code : Routine → Except Defect (Store × Reply)}
    (hover : ((r.withMachine m).withRoutine id fun routine =>
      (r.withMachine m).replied id (code routine)).Over n) :
    ∃ o, (m.useRoutine id fun routine => Nested.converse f m id (code routine)) = some o := by
  simp only [Run.withRoutine, Run.withMachine] at hover
  simp only [Machine.useRoutine]
  cases hfind : m.library.find? id with
  | some routine =>
    rw [hfind] at hover
    exact h.converse hf hover
  | none => exact ⟨_, rfl⟩

theorem total_invoke (ih : Total n) {target : Value} {args : List Value} (hf : 2 * (n + 1) ≤ f)
    (hover : (Step.next (r.withMachine m) (.invoke target args)).Over (n + 1)) :
    ∃ o, invoke f m target args = some o := by
  obtain ⟨f, rfl⟩ : ∃ k, f = k + 1 := ⟨f - 1, by omega⟩
  have hf : 2 * n + 1 ≤ f := by omega
  have hover : (Run.invoke (r.withMachine m) target args).Over n := hover
  simp only [Run.invoke, Run.withMachine] at hover
  rw [invoke]
  cases hcallee : m.store.callee target with
  | error e => exact ⟨_, rfl⟩
  | ok c =>
    simp only [hcallee, Run.enter] at hover
    simp only [Machine.nested]
    split
    · exact ⟨_, rfl⟩
    · next depth hdepth =>
      rw [hdepth] at hover
      cases hfunction : c.function with
      | closure id =>
        simp only [hfunction] at hover ⊢
        obtain ⟨x, hx⟩ := ih.execute (Nat.le_of_succ_le hf) hover
        rw [hx]
        exact ⟨_, rfl⟩
      | routine id =>
        simp only [hfunction] at hover ⊢
        obtain ⟨o, ho⟩ := ih.useRoutine hf hover
        rw [ho]
        exact ⟨_, rfl⟩

theorem total_execute (ih : Total n) {a : Activation} (hf : 2 * (n + 1) ≤ f)
    (hover : (Step.next { r with machine := m, live := .compiled a :: r.live } .advance).Over
      (n + 1)) : ∃ x, execute f m a = some x := by
  obtain ⟨f, rfl⟩ : ∃ k, f = k + 1 := ⟨f - 1, by omega⟩
  have hf : 2 * n ≤ f := by omega
  have hover : (Run.advance { r with machine := m, live := .compiled a :: r.live }).Over n := hover
  simp only [Run.advance] at hover
  rw [execute]
  cases hadvance : a.advance m.store m.channel.values with
  | error d => exact ⟨_, rfl⟩
  | ok after =>
    obtain ⟨st, p⟩ := after
    rw [hadvance] at hover
    cases p with
    | runs a' => exact ih.execute hf hover
    | asks a' q =>
      have hflattens : Run.Flattens { r with live := .compiled a' :: r.live } :=
        Run.flattens_of_live rfl
      obtain ⟨o, ho⟩ := ih.request hf hflattens hover
      have hleads := (sound f).request ho _ hflattens
      simp only [ho]
      cases o with
      | settled m' =>
        obtain ⟨k, rfl, hsettled⟩ := (hover.of_leadsTo hleads).step
        rw [Run.step_settled (tailCall_request ho)] at hsettled
        exact ih.execute hf hsettled.succ
      | _ => exact ⟨_, rfl⟩
    | _ => exact ⟨_, rfl⟩

/-- A routine makes its request in the step in which it is called or goes on. -/
theorem total_converse (hrequest : ∀ {f : Nat} {m : Machine} {q : Request} {r : Run}, 2 * n ≤ f →
      r.Flattens → (Step.next (r.withMachine m) (.request q)).Over n →
        ∃ o, request f m q = some o)
    (ih : ∀ k, n = k + 1 → Total k) {id : RoutineId} {x : Except Defect (Store × Reply)}
    (hf : 2 * n + 1 ≤ f) (hover : ((r.withMachine m).replied id x).Over n) :
    ∃ o, converse f m id x = some o := by
  obtain ⟨f, rfl⟩ : ∃ k, f = k + 1 := ⟨f - 1, by omega⟩
  have hf : 2 * n ≤ f := by omega
  cases x with
  | error d => exact ⟨_, rfl⟩
  | ok after =>
    obtain ⟨st, reply⟩ := after
    unfold converse
    cases reply with
    | asks q phase locals =>
      have hflattens : Run.Flattens { r with live := .waiting id phase locals :: r.live } :=
        Run.flattens_of_live rfl
      obtain ⟨o, ho⟩ := hrequest hf hflattens hover
      have ho : request f { m with store := st } q = some o := ho
      have hleads := (sound f).request ho _ hflattens
      simp only [ho]
      cases o with
      | settled m' =>
        obtain ⟨k, rfl, hsettled⟩ := (hover.of_leadsTo hleads).step
        rw [Run.step_settled (tailCall_request ho)] at hsettled
        have hk : 2 * k + 1 ≤ f := by omega
        exact (ih k rfl).useRoutine hk hsettled
      | _ => exact ⟨_, rfl⟩
    | _ => exact ⟨_, rfl⟩

theorem total_request (ih : Total n) {q : Request} (hf : 2 * (n + 1) ≤ f) (hr : r.Flattens)
    (hover : (Step.next (r.withMachine m) (.request q)).Over (n + 1)) :
    ∃ o, request f m q = some o := by
  obtain ⟨f, rfl⟩ : ∃ k, f = k + 1 := ⟨f - 1, by omega⟩
  have hf : 2 * n ≤ f := by omega
  have hover : (Run.request (r.withMachine m) q).Over n := hover
  simp only [Run.request, Run.withMachine] at hover
  rw [request]
  cases hresolve : (m.count q).resolve q with
  | handler h args =>
    simp only [hresolve] at hover ⊢
    exact ih.call hf hr hover
  | _ => exact ⟨_, rfl⟩

theorem total_trampoline (ih : Total n) (hf : 2 * (n + 1) ≤ f) (hr : r.Flattens)
    (hover : (Step.next (r.withMachine m) .settled).Over (n + 1)) :
    ∃ o, trampoline f m = some o := by
  obtain ⟨f, rfl⟩ : ∃ k, f = k + 1 := ⟨f - 1, by omega⟩
  have hf : 2 * n ≤ f := by omega
  rw [trampoline]
  split
  · exact ⟨_, rfl⟩
  · next t ht =>
    have hstep : (r.withMachine m).step .settled =
        .next (r.withMachine m.withoutTailCall) (.invoke t.target t.args) :=
      Run.step_tailCall ht hr
    have hover : ((r.withMachine m).step .settled).Over n := hover
    rw [hstep] at hover
    exact ih.call hf hr hover

/-- **All that is over on the stack is over when it nests.** -/
theorem total : ∀ n, Total n
  | 0 => by
    have hnever {r : Run} {c : Control} (h : (Step.next r c).Over 0) : False := by
      obtain ⟨o, ho⟩ := h
      cases ho
    exact ⟨fun _ h => (hnever h).elim, fun _ h => (hnever h).elim,
      total_converse (fun _ _ h => (hnever h).elim) nofun, fun _ _ h => (hnever h).elim,
      fun _ _ h => (hnever h).elim⟩
  | n + 1 => ⟨total_invoke (total n), total_execute (total n),
      total_converse (total_request (total n)) fun k hk => by cases hk; exact total n,
      total_request (total n), total_trampoline (total n)⟩

end Nested

end ResumableVM
