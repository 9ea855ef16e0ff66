import ResumableVM.Proofs.Awaiting

/-! # Scripts: routines in direct style

A routine says each time it asks for something how it goes on. A `Script` says the same at once: it
returns, fails, or asks for something and goes on with the results. It never mentions suspensions:
what it asks for may be suspended and resumed on the way, and comes to an end all the same
(`Script.Ends`).

A routine may leave out some of the requests that a script makes, where it knows what comes of them
(`Step.Follows`). A routine that answers, fails or asks follows a script that does
(`follows_answers`, `follows_fails`, `follows_asks`). -/

namespace ResumableVM

/-- Code in direct style. -/
inductive Script where
  | returns (values : List Value)
  | fails (e : Error)
  /-- The request, and what is done with its results. -/
  | asks (q : Request) (next : List Value → Script)

/-- **How a script ends** on a machine with these objects and these results in its channel, by these
pauses; and what it asks for. -/
def Script.Ends (m : Machine) :
    Script → Store → List Value → List Request → List Pause → Ending → Prop
  | returns vs, st, _, asked, ps, e => asked = [] ∧ ps = [] ∧ e = .returns st vs
  | fails err, st, _, asked, ps, e => asked = [] ∧ ps = [] ∧ e = .fails st err
  | asks q next, st, heard, asked, ps, e => ∃ later ps₁ ps₂ e₁, asked = q :: later ∧
      ps = ps₁ ++ ps₂ ∧ (m.holding st heard).Ends (.request q) ps₁ e₁ ∧
        e₁.Then (fun st vs => (next vs).Ends m st vs) later ps₂ e

/-- The step goes on as the script does, and makes those of its requests that are said. -/
structure Step.Follows (m : Machine) (Makes : List Request → List Request → Prop) (s : Step)
    (script : Script) (st : Store) (heard : List Value) : Prop where
  follows : ∀ {log ps e}, s.Ends log ps e →
    ∃ asked, script.Ends m st heard asked ps e ∧ Makes asked log
  followed : ∀ {asked ps e}, script.Ends m st heard asked ps e →
    ∃ log, s.Ends log ps e ∧ Makes asked log

namespace Step.Follows

variable {m : Machine} {Makes Makes' : List Request → List Request → Prop} {s : Step}
  {script : Script} {st : Store} {heard : List Value}

theorem mono (h : s.Follows m Makes script st heard)
    (hmakes : ∀ {asked log}, Makes asked log → Makes' asked log) :
    s.Follows m Makes' script st heard where
  follows hends := (h.follows hends).imp fun _ => .imp_right hmakes
  followed hends := (h.followed hends).imp fun _ => .imp_right hmakes

/-- Both are over, and in the same way. -/
theorem at_once (hnil : Makes [] []) {e₀ : Ending}
    (hstep : ∀ {log ps e}, s.Ends log ps e ↔ log = [] ∧ ps = [] ∧ e = e₀)
    (hscript : ∀ {asked ps e}, script.Ends m st heard asked ps e ↔
      asked = [] ∧ ps = [] ∧ e = e₀) : s.Follows m Makes script st heard := by
  constructor
  · intro log ps e h
    obtain ⟨rfl, hend⟩ := hstep.mp h
    exact ⟨[], hscript.mpr ⟨rfl, hend⟩, hnil⟩
  · intro asked ps e h
    obtain ⟨rfl, hend⟩ := hscript.mp h
    exact ⟨[], hstep.mpr ⟨rfl, hend⟩, hnil⟩

end Step.Follows

/-! ### Steps that end -/

theorem Step.ends_next_iff {r : Run} {c : Control} {log : List Request} {ps : List Pause}
    {e : Ending} : (Step.next r c).Ends log ps e ↔
      ∃ later, log = (r.asks? c).toList ++ later ∧ (r.step c).Ends later ps e := by
  constructor
  · intro h
    cases h with
    | next h => exact ⟨_, rfl, h⟩
  · rintro ⟨later, rfl, h⟩
    exact .next h

theorem Step.ends_done_iff {o : Outcome} {e₀ : Ending} (ho : o.ending? = some e₀)
    {log : List Request} {ps : List Pause} {e : Ending} :
    (Step.done o).Ends log ps e ↔ log = [] ∧ ps = [] ∧ e = e₀ := by
  constructor
  · intro h
    cases h with
    | ends h => exact ⟨rfl, rfl, Option.some.inj (h.symm.trans ho)⟩
    | resumed => cases ho
    | refused => cases ho
  · rintro ⟨rfl, rfl, rfl⟩
    exact .ends ho

/-- A step that makes no request. -/
theorem Step.Follows.next {m : Machine} {Makes : List Request → List Request → Prop} {r : Run}
    {c : Control} {script : Script} {st : Store} {heard : List Value} (hasks : r.asks? c = none)
    (h : (r.step c).Follows m Makes script st heard) :
    (Step.next r c).Follows m Makes script st heard := by
  have hnext {log : List Request} {ps : List Pause} {e : Ending} :
      (Step.next r c).Ends log ps e ↔ (r.step c).Ends log ps e := by
    rw [ends_next_iff, hasks]
    simp
  exact ⟨fun hends => h.follows (hnext.mp hends),
    fun hends => (h.followed hends).imp fun _ => .imp_left hnext.mpr⟩

/-- A run without a stack is over when its results are in the channel. -/
theorem Step.ends_settled_iff {m : Machine} {flatten : Bool} (h : m.channel.tailCall = none)
    {log : List Request} {ps : List Pause} {e : Ending} :
    (Step.next ⟨m, [], [], flatten⟩ .settled).Ends log ps e ↔
      log = [] ∧ ps = [] ∧ e = .returns m.store m.channel.values := by
  have hstep : Run.step ⟨m, [], [], flatten⟩ .settled = .done (.settled m) := by
    simp only [Run.step, Run.settle, Channel.takeTailCall, h]
    rfl
  have hdone := @Step.ends_done_iff (.settled m) _ rfl log ps e
  rw [ends_next_iff, hstep]
  simpa [Run.asks?] using hdone

theorem Ending.Then.imp
    {goesOn goesOn' : Store → List Value → List Request → List Pause → Ending → Prop}
    {Makes : List Request → List Request → Prop} (hnil : Makes [] [])
    (h : ∀ {st vs log ps e}, goesOn st vs log ps e →
      ∃ log', goesOn' st vs log' ps e ∧ Makes log log')
    {e₁ e : Ending} {log : List Request} {ps : List Pause} (hthen : e₁.Then goesOn log ps e) :
    ∃ log', e₁.Then goesOn' log' ps e ∧ Makes log log' := by
  cases hthen with
  | returns hgoes =>
    obtain ⟨log', hgoes', hmakes⟩ := h hgoes
    exact ⟨log', .returns hgoes', hmakes⟩
  | fails => exact ⟨[], .fails, hnil⟩
  | breaks => exact ⟨[], .breaks, hnil⟩

/-- A request that needs no handler is answered at once. -/
theorem Machine.ends_request_value {m : Machine} {st : Store} {q : Request} {v : Value}
    (h : st.resolve m.limits.maxIndexChain q = .value v) (heard : List Value) {ps : List Pause}
    {e : Ending} :
    (m.holding st heard).Ends (.request q) ps e ↔ ps = [] ∧ e = .returns st [v] := by
  have hresolve : ((m.holding st heard).count q).resolve q = .value v := by
    rw [← h]
    cases q <;> rfl
  let answered : Machine := { (m.holding st heard).count q with channel := ⟨[v], none⟩ }
  have hstep : Run.step ⟨m.holding st heard, [], [], true⟩ (.request q) =
      .next ⟨answered, [], [], true⟩ .settled := by
    simp only [Run.step, Run.request, hresolve]
    rfl
  have hstore : answered.store = st := by cases q <;> rfl
  have hsettled (log : List Request) : (Step.next ⟨answered, [], [], true⟩ .settled).Ends log ps e ↔
      log = [] ∧ ps = [] ∧ e = .returns st [v] := by
    rw [Step.ends_settled_iff rfl, hstore]
  rw [ends_iff]
  constructor
  · rintro ⟨log, hends⟩
    obtain ⟨later, -, hends⟩ := Step.ends_next_iff.mp hends
    rw [hstep, hsettled] at hends
    exact hends.2
  · rintro ⟨rfl, rfl⟩
    have hends := (hsettled []).mpr ⟨rfl, rfl, rfl⟩
    rw [← hstep] at hends
    exact ⟨_, .next hends⟩

theorem Script.ends_asks_value {m : Machine} {st : Store} {q : Request} {v : Value}
    (h : st.resolve m.limits.maxIndexChain q = .value v) {next : List Value → Script}
    {heard : List Value} {asked : List Request} {ps : List Pause} {e : Ending} :
    (Script.asks q next).Ends m st heard asked ps e ↔
      ∃ later, asked = q :: later ∧ (next [v]).Ends m st [v] later ps e := by
  constructor
  · rintro ⟨later, ps₁, ps₂, e₁, rfl, rfl, hends, hthen⟩
    obtain ⟨rfl, rfl⟩ := (Machine.ends_request_value h heard).mp hends
    cases hthen with
    | returns hnext => exact ⟨later, rfl, hnext⟩
  · rintro ⟨later, rfl, hnext⟩
    exact ⟨later, [], ps, .returns st [v], rfl, rfl,
      (Machine.ends_request_value h heard).mpr ⟨rfl, rfl⟩, .returns hnext⟩

/-! ### Replies -/

section Replies

variable {m : Machine} {id : RoutineId} {st : Store} {heard received : List Value}
  {Makes : List Request → List Request → Prop}

theorem ends_answers_iff {vs : List Value} {log : List Request} {ps : List Pause} {e : Ending} :
    (Run.reply ⟨m.holding st received, [], [], true⟩ id (.answers vs)).Ends log ps e ↔
      log = [] ∧ ps = [] ∧ e = .returns st vs :=
  Step.ends_settled_iff rfl

theorem ends_fails_iff {err : Error} {log : List Request} {ps : List Pause} {e : Ending} :
    (Run.reply ⟨m.holding st received, [], [], true⟩ id (.fails err)).Ends log ps e ↔
      log = [] ∧ ps = [] ∧ e = .fails st err :=
  Step.ends_done_iff rfl

theorem follows_answers (hnil : Makes [] []) (vs : List Value) :
    (Run.reply ⟨m.holding st received, [], [], true⟩ id (.answers vs)).Follows m Makes
      (.returns vs) st heard :=
  .at_once hnil ends_answers_iff Iff.rfl

theorem follows_fails (hnil : Makes [] []) (err : Error) :
    (Run.reply ⟨m.holding st received, [], [], true⟩ id (.fails err)).Follows m Makes
      (.fails err) st heard :=
  .at_once hnil ends_fails_iff Iff.rfl

/-- What comes of a routine that asks: the request is carried out by itself, and the routine goes on
with its results. -/
theorem ends_asks_iff (hpos : 1 ≤ m.depth.current)
    (hroom : m.depth.current ≤ m.limits.maxCallDepth) {q : Request} {phase : Nat} {locals : Locals}
    {log : List Request} {ps : List Pause} {e : Ending} :
    (Run.reply ⟨m.holding st received, [], [], true⟩ id (.asks q phase locals)).Ends log ps e ↔
      ∃ later ps₁ ps₂ e₁, log = q :: later ∧ ps = ps₁ ++ ps₂ ∧
        (m.holding st received).Ends (.request q) ps₁ e₁ ∧
          e₁.Then (fun st vs => (Run.resumeRoutine ⟨m.holding st vs, [], [], true⟩ id phase
            locals).Ends) later ps₂ e := by
  let own : Run := ⟨m.holding st received, [], [], true⟩
  let below : Run := ⟨m.holding st received, [.waiting id phase locals], [], true⟩
  have hawaits : below.Awaits id phase locals := ⟨rfl, .inl ⟨rfl, rfl⟩⟩
  have hwithin : (own.request q).Within m below :=
    Step.within_step (r := own) (c := .request q) ⟨rfl, rfl, rfl⟩ rfl ⟨.inl rfl, rfl, by simp⟩
  have hstep : (own.above below).step (.request q) = (own.request q).above below :=
    Run.request_above q
  have hown {ps : List Pause} {e : Ending} :
      (m.holding st received).Ends (.request q) ps e ↔ ∃ log, (own.request q).Ends log ps e := by
    rw [Machine.ends_iff]
    constructor
    · rintro ⟨log, h⟩
      obtain ⟨later, -, h⟩ := Step.ends_next_iff.mp h
      exact ⟨later, h⟩
    · rintro ⟨log, h⟩
      exact ⟨_, .next (r := own) (c := .request q) h⟩
  have hreply : Run.reply own id (.asks q phase locals) =
      .next (own.above below) (.request q) := rfl
  rw [hreply, Step.ends_next_iff, hstep]
  constructor
  · rintro ⟨later, rfl, h⟩
    obtain ⟨asked, ps₁, ps₂, e₁, rfl, hends, hthen⟩ :=
      (Step.ends_above hpos hroom hawaits hwithin).mp h
    exact ⟨later, ps₁, ps₂, e₁, rfl, rfl, hown.mpr ⟨asked, hends⟩, hthen⟩
  · rintro ⟨later, ps₁, ps₂, e₁, rfl, rfl, hends, hthen⟩
    obtain ⟨asked, hends⟩ := hown.mp hends
    exact ⟨later, rfl, (Step.ends_above hpos hroom hawaits hwithin).mpr
      ⟨asked, ps₁, ps₂, e₁, rfl, hends, hthen⟩⟩

/-- **A routine that asks** for what a script asks for follows it if, whatever comes of the request,
it goes on as the script does. -/
theorem follows_asks (Makes : List Request → List Request → Prop) (hpos : 1 ≤ m.depth.current)
    (hroom : m.depth.current ≤ m.limits.maxCallDepth)
    {Makes' : List Request → List Request → Prop} (hnil : Makes [] []) {q : Request}
    {next : List Value → Script} {phase : Nat} {locals : Locals}
    (hmakes : ∀ {asked log}, Makes asked log → Makes' (q :: asked) (q :: log))
    (hheard : ∀ {ps e}, (m.holding st received).Ends (.request q) ps e ↔
      (m.holding st heard).Ends (.request q) ps e)
    (h : ∀ st vs, (Run.resumeRoutine ⟨m.holding st vs, [], [], true⟩ id phase locals).Follows m
      Makes (next vs) st vs) :
    (Run.reply ⟨m.holding st received, [], [], true⟩ id (.asks q phase locals)).Follows m Makes'
      (.asks q next) st heard := by
  constructor
  · intro log ps e hends
    obtain ⟨later, ps₁, ps₂, e₁, rfl, rfl, hrequest, hthen⟩ := (ends_asks_iff hpos hroom).mp hends
    obtain ⟨asked, hthen, hmade⟩ : ∃ asked,
        e₁.Then (fun st vs => (next vs).Ends m st vs) asked ps₂ e ∧ Makes asked later :=
      @Ending.Then.imp _ _ (fun log asked => Makes asked log) hnil
        (fun h' => (h _ _).follows h') _ _ _ _ hthen
    exact ⟨q :: asked, ⟨asked, ps₁, ps₂, e₁, rfl, rfl, hheard.mp hrequest, hthen⟩, hmakes hmade⟩
  · rintro asked ps e ⟨later, ps₁, ps₂, e₁, rfl, rfl, hrequest, hthen⟩
    obtain ⟨log, hthen, hmade⟩ := hthen.imp hnil fun h' => (h _ _).followed h'
    exact ⟨q :: log, (ends_asks_iff hpos hroom).mpr
      ⟨log, ps₁, ps₂, e₁, rfl, rfl, hheard.mpr hrequest, hthen⟩, hmakes hmade⟩

/-- A request of the script that needs no handler can be left out. -/
theorem follows_spares {s : Step} {q : Request} {v : Value} {next : List Value → Script}
    {Makes' : List Request → List Request → Prop}
    (h : st.resolve m.limits.maxIndexChain q = .value v)
    (hmakes : ∀ {asked log}, Makes asked log → Makes' (q :: asked) log)
    (hs : s.Follows m Makes (next [v]) st [v]) : s.Follows m Makes' (.asks q next) st heard := by
  constructor
  · intro log ps e hends
    obtain ⟨asked, hnext, hmade⟩ := hs.follows hends
    exact ⟨q :: asked, (Script.ends_asks_value h).mpr ⟨asked, rfl, hnext⟩, hmakes hmade⟩
  · intro asked ps e hends
    obtain ⟨later, rfl, hnext⟩ := (Script.ends_asks_value h).mp hends
    obtain ⟨log, hends, hmade⟩ := hs.followed hnext
    exact ⟨log, hends, hmakes hmade⟩

end Replies

/-! ### Handlers -/

/-- A call of `pause` is suspended once, and its results are what the host gives. -/
theorem Machine.ends_pause {m : Machine} {id : RoutineId} {args : List Value}
    (hid : m.library.find? id = some .pause) (hroom : m.depth.current < m.limits.maxCallDepth)
    {given : List Value} (hgiven : given ≠ []) (left : Store) :
    m.Ends (.invoke (.function (.routine id)) args) [⟨args, m.store, given, left⟩]
      (.returns left given) := by
  have henter : m.depth.enter? m.limits.maxCallDepth = some m.deeper.depth := if_pos hroom
  let waiting : Machine := { m.countInvocation (.direct (.routine id)) with
    depth := m.deeper.depth.leave }
  let signal : Signal := ⟨[] ++ [.routine id 0 (.values args)], args⟩
  have hsuspend : Run.step ⟨m, [], [], true⟩ (.invoke (.function (.routine id)) args) =
      .done (.suspended waiting signal) := by
    simp only [Run.step, Run.invoke, Store.callee, Callee.function, Callee.arguments, Run.enter,
      Run.withRoutine, Machine.countInvocation, henter, hid]
    rfl
  let host : Machine := { waiting with store := left }
  obtain ⟨hfits, hresumed⟩ := Machine.resumed_above (m := host) hroom ⟨[], args⟩
    (.routine id 0 (.values args)) given
  have hgoesOn : Run.step ((host.deeper.resumed ⟨[], args⟩ given).above
      ⟨host, [], [.routine id 0 (.values args)], true⟩) .settled =
      Run.reply ⟨host.deeper.holding left given, [], [], true⟩ id (.answers given) := by
    have hanswers : Routine.pause.resume left given 0 (.values args) =
        .ok (left, .answers given) := by
      simp [Routine.pause, hgiven]
    have hfind : (host.deeper.holding left given).library.find? id = some .pause := hid
    show Run.resumeRoutine ⟨host.deeper.holding left given, [], [], true⟩ id 0 (.values args) = _
    simp only [Run.resumeRoutine, Run.withRoutine, hfind]
    exact congrArg (Run.replied _ id) hanswers
  have hanswered : (Run.reply ⟨host.deeper.holding left given, [], [], true⟩ id
      (.answers given)).Ends [] [] (.returns left given) := ends_answers_iff.mpr ⟨rfl, rfl, rfl⟩
  rw [← hgoesOn] at hanswered
  have hresume := Step.Ends.next hanswered
  rw [← hresumed] at hresume
  have hends := Step.Ends.resumed (m := waiting) (s := signal) (p := ⟨args, m.store, given, left⟩)
    rfl rfl ⟨rfl, rfl, rfl, rfl, rfl⟩ hfits hresume
  rw [← hsuspend] at hends
  exact Machine.ends_iff.mpr ⟨_, .next hends⟩

/-- A request that a handler answers ends as the call of the handler. -/
theorem Machine.ends_request_handler {m : Machine} {st : Store} {q : Request} {f : Value}
    {args : List Value} (h : st.resolve m.limits.maxIndexChain q = .handler f args)
    (heard : List Value) {ps : List Pause} {e : Ending}
    (hends : (m.holding st heard).Ends (.invoke f args) ps e) :
    (m.holding st heard).Ends (.request q) ps e := by
  have hresolve : ((m.holding st heard).count q).resolve q = .handler f args := by
    rw [← h]
    cases q <;> rfl
  have hstep : Run.step ⟨m.holding st heard, [], [], true⟩ (.request q) =
      .next ⟨((m.holding st heard).count q).countHandler q, [], [], true⟩ (.invoke f args) := by
    simp only [Run.step, Run.request, hresolve]
  have hmachine : (m.holding st heard).Like .same
      (((m.holding st heard).count q).countHandler q) := by
    have hchannel : (m.holding st heard).channel.Like .same (m.holding st heard).channel :=
      ⟨Likeness.same_values _, .none⟩
    cases q <;> exact ⟨⟨rfl, rfl, rfl, rfl, rfl⟩, hchannel⟩
  obtain ⟨log, hends⟩ := Machine.ends_iff.mp hends
  have hlike : (Step.next ⟨m.holding st heard, [], [], true⟩ (.invoke f args)).Like .same
      (.next ⟨((m.holding st heard).count q).countHandler q, [], [], true⟩ (.invoke f args)) :=
    .next ⟨hmachine, .nil, .nil, rfl⟩ (.invoke rfl (Likeness.same_values args))
  have hhandled := hends.of_like hlike
  rw [← hstep] at hhandled
  exact Machine.ends_iff.mpr ⟨_, .next hhandled⟩

end ResumableVM
