import ResumableVM.Proofs.Hosted

/-! # Awaiting: operations that a waiting routine has asked for

An operation that a waiting routine asks for is suspended and resumed as it would be by itself, and
the routine goes on with its results (`ends_above`). That is so whether the routine still waits on
the stack or, after a resumption, as a frame (`Run.Awaits`): the host of the two has the routine's
frame in its signal too, and begins one level less deep (`resumed_above`). -/

namespace ResumableVM

/-- The machine with these objects, and with these results in its channel. -/
def Machine.holding (m : Machine) (st : Store) (vs : List Value) : Machine :=
  { m with store := st, channel := ⟨vs, none⟩ }

/-- The machine one level deeper. -/
def Machine.deeper (m : Machine) : Machine :=
  { m with
    depth := ⟨m.depth.current + 1, max m.depth.highWater (m.depth.current + 1)⟩ }

/-- One routine is on the stack and waits: live or, after a resumption, as a frame. -/
structure Run.Awaits (below : Run) (id : RoutineId) (phase : Nat) (locals : Locals) : Prop where
  flatten : below.flatten = true
  stack : (below.live = [.waiting id phase locals] ∧ below.pending = []) ∨
    (below.live = [] ∧ below.pending = [.routine id phase locals])

/-- A step of an operation that began on this machine, above that stack. -/
inductive Step.Within (base : Machine) (below : Run) : Step → Prop
  | next {r : Run} {c : Control} (keeps : base.Keeps r.machine) (deep : r.Deep base.depth.current)
      (atop : Run.Atop below r c) (asks : ∀ q, c = .request q → r.live ≠ []) :
      Within base below (.next r c)
  | done {o : Outcome}
      (machine : ∀ m, o.machine? = some m → base.Keeps m ∧ m.depth.current = base.depth.current)
      (tail : ∀ m, o = .settled m → m.channel.tailCall = none) : Within base below (.done o)

section Awaiting

variable {base : Machine} {below : Run} {id : RoutineId} {phase : Nat} {locals : Locals}

namespace Run

theorem Awaits.height (h : below.Awaits id phase locals) : below.height = 1 := by
  rcases h.stack with ⟨hlive, hpending⟩ | ⟨hlive, hpending⟩ <;>
    rw [Run.height, hlive, hpending] <;> rfl

theorem Awaits.frames (h : below.Awaits id phase locals) :
    below.live.filterMap Task.saved? ++ below.pending = [.routine id phase locals] := by
  rcases h.stack with ⟨hlive, hpending⟩ | ⟨hlive, hpending⟩ <;> rw [hlive, hpending] <;> rfl

/-- The routine goes on. -/
theorem Awaits.proceed (h : below.Awaits id phase locals) (m : Machine) :
    (below.withMachine m).proceed = resumeRoutine ⟨m, [], [], true⟩ id phase locals := by
  obtain ⟨m₀, live, pending, flatten⟩ := below
  obtain ⟨rfl, ⟨rfl, rfl⟩ | ⟨rfl, rfl⟩⟩ := h <;> rfl

theorem Awaits.unwound (h : below.Awaits id phase locals) (m : Machine) :
    (below.withMachine m).unwound = { m with depth := m.depth.leave } := by
  have hheight : (below.withMachine m).height = 1 := h.height
  rw [Run.unwound, hheight]
  rfl

/-- Requests above a waiting routine are not its own. -/
theorem Awaits.asks?_above (h : below.Awaits id phase locals) {r : Run} {c : Control}
    (hasks : ∀ q, c = .request q → r.live ≠ []) : (r.above below).asks? c = none := by
  cases c with
  | request q =>
    have hlive := List.length_pos_iff.mpr (hasks q rfl)
    have hbelow := h.height
    refine if_neg ?_
    simp only [Run.height, above, List.length_append] at hbelow ⊢
    omega
  | _ => rfl

end Run

/-- **Each step of an operation is one within it.** -/
theorem Step.within_step {r : Run} {c : Control} (keeps : base.Keeps r.machine)
    (deep : r.Deep base.depth.current) (atop : Run.Atop below r c) :
    (r.step c).Within base below := by
  cases hs : r.step c with
  | next r' c' =>
    exact .next (keeps.trans (Run.keeps_next hs).1) (Run.deep_next deep hs) (atop.next hs)
      fun q hq => Run.live_next hs (.inr ⟨q, hq⟩)
  | done o =>
    refine .done (fun m hm => ⟨keeps.trans (Run.keeps_done hs hm), Run.depth_done deep hs hm⟩) ?_
    rintro m rfl
    exact Run.tailCall_of_settled atop hs

/-- A signal whose last frame is that of a routine is resumed above the routine. -/
theorem Machine.resumed_above {m : Machine} (hroom : m.depth.current < m.limits.maxCallDepth)
    (s : Signal) (f : SavedFrame) (given : List Value) :
    m.hasRoom ⟨s.frames ++ [f], s.values⟩ = m.deeper.hasRoom s ∧
      m.resumed ⟨s.frames ++ [f], s.values⟩ given =
        (m.deeper.resumed s given).above ⟨m, [], [f], true⟩ := by
  have henter : m.depth.enter? m.limits.maxCallDepth = some m.deeper.depth := if_pos hroom
  have hlength : (s.frames ++ [f]).length = s.frames.length + 1 := List.length_append
  constructor
  · simp only [hasRoom, hlength, CallDepth.enterMany, henter]
    rfl
  · simp only [resumed, hlength, CallDepth.enterMany, henter]
    rfl

/-- The operation is over: the routine goes on with its results. -/
theorem Step.Within.goesOn {m : Machine} (h : Step.Within base below (.done (.settled m)))
    {log : List Request} {ps : List Pause} {e : Ending} :
    (Run.resumeRoutine ⟨m, [], [], true⟩ id phase locals).Ends log ps e ↔
      (Run.resumeRoutine ⟨base.holding m.store m.channel.values, [], [], true⟩ id phase
        locals).Ends log ps e := by
  cases h with
  | done hmachine htail =>
    obtain ⟨hkeeps, hdepth⟩ := hmachine m rfl
    have hakin : m.Akin .same (base.holding m.store m.channel.values) :=
      ⟨hkeeps.limits, hkeeps.library, hkeeps.globals, hdepth, rfl⟩
    have hchannel : m.channel = ⟨m.channel.values, none⟩ := by rw [← htail m rfl]
    have hlike {m₁ m₂ : Machine} (hakin : m₁.Akin .same m₂) (hchannel : m₁.channel = m₂.channel)
        (htail : m₁.channel.tailCall = none) :
        (Run.resumeRoutine ⟨m₁, [], [], true⟩ id phase locals).Like .same
          (Run.resumeRoutine ⟨m₂, [], [], true⟩ id phase locals) := by
      have hrun : Run.Like .same ⟨m₁, [], [], true⟩ ⟨m₂, [], [], true⟩ :=
        ⟨⟨hakin, by rw [← hchannel]; exact ⟨Likeness.same_values _, by rw [htail]; exact .none⟩⟩,
          .nil, .nil, rfl⟩
      exact Run.like_resumeRoutine hrun (Likeness.same_lawful _ 0) id phase rfl
    exact ⟨fun h => h.of_like (hlike hakin hchannel (htail m rfl)),
      fun h => h.of_like (hlike hakin.symm hchannel.symm rfl)⟩

theorem Step.within_resumed {m : Machine} {s : Signal} (keeps : base.Keeps m)
    (hdepth : m.depth.current = base.depth.current) (hroom : m.hasRoom s = true)
    (hbelow : below.live = []) (given : List Value) :
    (Step.next (m.resumed s given) .settled).Within base below := by
  have hdeep := (Machine.deep_resumed hroom given).1
  rw [hdepth] at hdeep
  exact .next ⟨keeps.limits, keeps.library, keeps.globals⟩ hdeep ⟨.inr hbelow, rfl, nofun⟩ nofun

/-- An operation is suspended with the routine that waits for it. -/
theorem Step.above_suspended (h : below.Awaits id phase locals) (m : Machine) (s : Signal) :
    Step.above below (.done (.suspended m s)) = .done (.suspended { m with depth := m.depth.leave }
      ⟨s.frames ++ [.routine id phase locals], s.values⟩) := by
  rw [Step.above, h.frames, h.unwound]

/-- A host that resumes the routine and the operation also resumes the operation by itself, one
level deeper. -/
theorem Step.Within.suspended (hpos : 1 ≤ base.depth.current)
    (hroom : base.depth.current ≤ base.limits.maxCallDepth) {m m' : Machine} {s : Signal}
    {st : Store} (hwithin : Step.Within base below (.done (.suspended m s)))
    (hleft : m'.Akin .same { m with depth := m.depth.leave, store := st }) :
    (base.Keeps m'.deeper ∧ m'.deeper.depth.current = base.depth.current) ∧
      m'.deeper.Akin .same { m with store := st } ∧
      m'.depth.current < m'.limits.maxCallDepth := by
  cases hwithin with
  | done hmachine _ =>
    obtain ⟨hkeeps, hdepth⟩ := hmachine m rfl
    have hlimits : m'.limits = base.limits := hleft.limits.trans hkeeps.limits
    have hcurrent : m'.depth.current = m.depth.current - 1 := hleft.depth
    have hdeeper : m'.deeper.depth.current = base.depth.current := by
      show m'.depth.current + 1 = _
      omega
    refine ⟨⟨⟨hlimits, hleft.library.trans hkeeps.library, hleft.globals.trans hkeeps.globals⟩,
      hdeeper⟩, ⟨hleft.limits, hleft.library, hleft.globals, hdeeper.trans hdepth.symm,
      hleft.store⟩, ?_⟩
    rw [hlimits]
    omega

/-- How the operation ends by itself, and how the routine then goes on with its results. -/
def Step.EndsIn (base : Machine) (id : RoutineId) (phase : Nat) (locals : Locals) (s : Step)
    (log : List Request) (ps : List Pause) (e : Ending) : Prop :=
  ∃ own ps₁ ps₂ e₁, ps = ps₁ ++ ps₂ ∧ s.Ends own ps₁ e₁ ∧
    e₁.Then (fun st vs =>
      (Run.resumeRoutine ⟨base.holding st vs, [], [], true⟩ id phase locals).Ends) log ps₂ e

/-- The run of the operation has come to its end. -/
theorem Step.EndsIn.settled {m : Machine} (hawaits : below.Awaits id phase locals)
    (hwithin : Step.Within base below (.done (.settled m))) {log : List Request} {ps : List Pause}
    {e : Ending} (h : (Step.above below (.done (.settled m))).Ends log ps e) :
    Step.EndsIn base id phase locals (.done (.settled m)) log ps e := by
  rw [Step.above, hawaits.proceed m] at h
  exact ⟨[], [], ps, _, rfl, .ends rfl, .returns (hwithin.goesOn.mp h)⟩

theorem Step.EndsIn.of_above (hpos : 1 ≤ base.depth.current)
    (hroom : base.depth.current ≤ base.limits.maxCallDepth) {t : Step} {log : List Request}
    {ps : List Pause} {e : Ending} (h : t.Ends log ps e) :
    ∀ {s : Step} {below : Run}, below.Awaits id phase locals → s.Within base below →
      t = s.above below → s.EndsIn base id phase locals log ps e := by
  induction h with
  | @next r' c' log ps e h ih =>
    intro s below hawaits hwithin ht
    cases s with
    | next r c =>
      cases hwithin with
      | next keeps deep atop asks =>
        obtain ⟨rfl, rfl⟩ := Step.next.inj ht
        have hbase : below.isBase = true → below.flatten = true := fun _ => hawaits.flatten
        obtain ⟨own, ps₁, ps₂, e₁, rfl, hown, hthen⟩ := ih hawaits (within_step keeps deep atop)
          (Run.step_above atop fun _ => hbase)
        rw [hawaits.asks?_above asks]
        exact ⟨_, ps₁, ps₂, e₁, rfl, .next hown, hthen⟩
    | done o =>
      cases o with
      | settled m => exact .settled hawaits hwithin (ht ▸ .next h)
      | _ => cases ht
  | @ends o e h =>
    intro s below hawaits hwithin ht
    cases s with
    | next r c => cases ht
    | done o =>
      cases o with
      | settled m => exact .settled hawaits hwithin (ht ▸ .ends h)
      | failed m err =>
        cases ht
        cases h
        exact ⟨[], [], [], _, rfl, .ends rfl, .fails⟩
      | suspended m s =>
        cases ht
        cases h
      | broken d =>
        cases ht
        cases h
        exact ⟨[], [], [], _, rfl, .ends rfl, .breaks⟩
  | @resumed m m' sig p log ps e hshown hfound hleft hfits h ih =>
    intro s below hawaits hwithin ht
    cases s with
    | next r c => cases ht
    | done o =>
      cases o with
      | settled m => exact .settled hawaits hwithin (ht ▸ .resumed hshown hfound hleft hfits h)
      | failed m err => cases ht
      | broken d => cases ht
      | suspended m₁ s₁ =>
        rw [above_suspended hawaits] at ht
        cases ht
        obtain ⟨keeps, hakin, hlimit⟩ := hwithin.suspended hpos hroom hleft
        obtain ⟨hroom₁, hresumed⟩ :=
          Machine.resumed_above hlimit s₁ (.routine id phase locals) p.given
        obtain ⟨own, ps₁, ps₂, e₁, rfl, hown, hthen⟩ := @ih
          (.next (m'.deeper.resumed s₁ p.given) .settled)
          ⟨m', [], [.routine id phase locals], true⟩ ⟨rfl, .inr ⟨rfl, rfl⟩⟩
          (within_resumed keeps.1 keeps.2 (hroom₁ ▸ hfits) rfl p.given)
          (congrArg (Step.next · .settled) hresumed)
        exact ⟨own, p :: ps₁, ps₂, e₁, rfl,
          .resumed hshown hfound hakin (hroom₁ ▸ hfits) hown, hthen⟩
  | @refused m m' sig p hshown hfound hleft hfits =>
    intro s below hawaits hwithin ht
    cases s with
    | next r c => cases ht
    | done o =>
      cases o with
      | settled m => exact .settled hawaits hwithin (ht ▸ .refused hshown hfound hleft hfits)
      | failed m err => cases ht
      | broken d => cases ht
      | suspended m₁ s₁ =>
        rw [above_suspended hawaits] at ht
        cases ht
        obtain ⟨keeps, hakin, hlimit⟩ := hwithin.suspended hpos hroom hleft
        obtain ⟨hroom₁, -⟩ := Machine.resumed_above hlimit s₁ (.routine id phase locals) p.given
        exact ⟨[], [p], [], _, rfl, .refused hshown hfound hakin (hroom₁ ▸ hfits), .fails⟩

theorem Step.Ends.above (hpos : 1 ≤ base.depth.current)
    (hroom : base.depth.current ≤ base.limits.maxCallDepth) {s : Step} {own : List Request}
    {ps₁ : List Pause} {e₁ : Ending} (h : s.Ends own ps₁ e₁) :
    ∀ {below : Run}, below.Awaits id phase locals → s.Within base below →
      ∀ {log : List Request} {ps₂ : List Pause} {e : Ending},
        e₁.Then (fun st vs =>
          (Run.resumeRoutine ⟨base.holding st vs, [], [], true⟩ id phase locals).Ends) log ps₂ e →
        (s.above below).Ends log (ps₁ ++ ps₂) e := by
  -- The host of the operation is one level too deep to resume the routine as well.
  have hshallow {m m' : Machine} {st : Store} (hleft : m'.Akin .same { m with store := st }) :
      Machine.Akin .same { m' with depth := m'.depth.leave }
        { m with depth := m.depth.leave, store := st } :=
    { hleft with depth := congrArg (· - 1) hleft.depth }
  induction h with
  | @next r c own ps₁ e₁ h ih =>
    intro below hawaits hwithin log ps₂ e hthen
    cases hwithin with
    | next keeps deep atop asks =>
      have hnext := ih hawaits (within_step keeps deep atop) hthen
      rw [← Run.step_above atop fun _ _ => hawaits.flatten] at hnext
      have hends := Ends.next hnext
      rw [hawaits.asks?_above asks] at hends
      exact hends
  | @ends o e₁ h =>
    intro below hawaits hwithin log ps₂ e hthen
    cases o with
    | settled m =>
      cases h
      cases hthen with
      | returns hthen =>
        rw [Step.above, hawaits.proceed]
        exact hwithin.goesOn.mpr hthen
    | failed m err =>
      cases h
      cases hthen
      exact .ends rfl
    | suspended m s => cases h
    | broken d =>
      cases h
      cases hthen
      exact .ends rfl
  | @resumed m m' s p own ps₁ e₁ hshown hfound hleft hfits h ih =>
    intro below hawaits hwithin log ps₂ e hthen
    obtain ⟨hkept, hakin, hlimit⟩ := hwithin.suspended hpos hroom (hshallow hleft)
    obtain ⟨hfits', hresumed⟩ := Machine.resumed_above hlimit s (.routine id phase locals) p.given
    obtain ⟨hsame, hlike⟩ := Machine.like_resumed (hleft.trans hakin.symm)
      (Likeness.same_signal s) (Likeness.same_values p.given)
    rw [above_suspended hawaits]
    refine .resumed hshown hfound (hshallow hleft) (hfits'.trans (hsame.symm.trans hfits)) ?_
    rw [hresumed]
    have hkeeps : base.Keeps m' := ⟨hkept.1.limits, hkept.1.library, hkept.1.globals⟩
    have hdepth : m'.depth.current = base.depth.current :=
      hleft.depth.trans (hakin.depth.symm.trans hkept.2)
    refine (ih ⟨rfl, .inr ⟨rfl, rfl⟩⟩ (within_resumed hkeeps hdepth hfits rfl p.given)
      hthen).of_like (.next ⟨hlike.machine, .nil, ?_, rfl⟩ .settled)
    exact List.rel_append hlike.pending (.cons (.routine rfl) .nil)
  | @refused m m' s p hshown hfound hleft hfits =>
    intro below hawaits hwithin log ps₂ e hthen
    obtain ⟨hkept, hakin, hlimit⟩ := hwithin.suspended hpos hroom (hshallow hleft)
    obtain ⟨hfits', -⟩ := Machine.resumed_above hlimit s (.routine id phase locals) p.given
    obtain ⟨hsame, -⟩ := Machine.like_resumed (hleft.trans hakin.symm)
      (Likeness.same_signal s) (Likeness.same_values p.given)
    cases hthen
    rw [above_suspended hawaits]
    have hends := Ends.refused (m := { m with depth := m.depth.leave })
      (s := ⟨s.frames ++ [.routine id phase locals], s.values⟩) hshown hfound (hshallow hleft)
      (hfits'.trans (hsame.symm.trans hfits))
    exact hends

/-- **An operation that a waiting routine asks for** ends as it does by itself, and the routine goes
on with its results; an error of the operation is also the routine's. -/
theorem Step.ends_above (hpos : 1 ≤ base.depth.current)
    (hroom : base.depth.current ≤ base.limits.maxCallDepth) {s : Step}
    (hawaits : below.Awaits id phase locals) (hwithin : s.Within base below) {log : List Request}
    {ps : List Pause} {e : Ending} :
    (s.above below).Ends log ps e ↔ s.EndsIn base id phase locals log ps e := by
  constructor
  · exact fun h => EndsIn.of_above hpos hroom h hawaits hwithin rfl
  · rintro ⟨own, ps₁, ps₂, e₁, rfl, hown, hthen⟩
    exact hown.above hpos hroom hawaits hwithin hthen

end Awaiting

end ResumableVM
