import ResumableVM.Proofs.CallDepth

/-! # Operations: from the beginning to the end, over suspensions

An operation does not end with a host call: a suspension saves its stack, and the resumption goes on
with it. `Run.ComesTo` follows a run over any number of suspensions, whatever the host does to the
objects meanwhile, and `Run.Completes` says with which machine it is over.

Most operations are made in the middle of others. `Run.Carries` says that a run is at a moment of an
operation, with the stack of whoever waits for it below. A step of such a run is one of the
operation, or the operation is over and whoever waits goes on (`Carries.next`); a suspension is one
of the operation too, which goes on above the frames that were saved (`Carries.resumed`). -/

namespace ResumableVM

/-! ### Levels of a signal -/

/-- Levels are entered one after the other. -/
theorem CallDepth.enterMany_add (limit a b : Nat) (d : CallDepth) :
    d.enterMany limit (a + b) =
      if (d.enterMany limit a).2 then (d.enterMany limit a).1.enterMany limit b
      else d.enterMany limit a := by
  induction a generalizing d with
  | zero => simp [enterMany]
  | succ a ih =>
    rw [Nat.succ_add, enterMany, enterMany]
    cases d.enter? limit with
    | none => rfl
    | some e => exact ih e

/-- A host that is handed the first machine can resume with the second one: the limits, the library
and the globals have stayed, and only compiled procedures have been made closures of. -/
structure Machine.Allows (m m' : Machine) : Prop where
  keeps : m.Keeps m'
  compiled : m.store.Compiled → m'.store.Compiled

/-- A signal is resumed above its outer frames, on a machine that is as much deeper. -/
theorem Machine.resumed_append {m : Machine} {s : Signal} {outer : List SavedFrame}
    (hroom : m.hasRoom ⟨s.frames ++ outer, s.values⟩ = true) (given : List Value) :
    ∃ m', m.Allows m' ∧ m'.hasRoom s = true ∧
      m.resumed ⟨s.frames ++ outer, s.values⟩ given =
        (m'.resumed s given).above ⟨m, [], outer, true⟩ := by
  have hadd := CallDepth.enterMany_add m.limits.maxCallDepth outer.length s.frames.length m.depth
  have hlength : (s.frames ++ outer).length = outer.length + s.frames.length := by
    rw [List.length_append, Nat.add_comm]
  have hroom : (m.depth.enterMany m.limits.maxCallDepth (s.frames ++ outer).length).2 = true :=
    hroom
  rw [hlength, hadd] at hroom
  have houter : (m.depth.enterMany m.limits.maxCallDepth outer.length).2 = true := by
    by_contra hno
    rw [if_neg hno] at hroom
    exact hno hroom
  rw [if_pos houter] at hroom
  refine ⟨{ m with depth := (m.depth.enterMany m.limits.maxCallDepth outer.length).1 },
    ⟨⟨rfl, rfl, rfl⟩, id⟩, hroom, ?_⟩
  simp only [resumed, hlength, hadd, if_pos houter]
  rfl

namespace Run

/-! ### Over suspensions -/

/-- **The run comes to this moment**, suspended and resumed any number of times on the way. -/
inductive ComesTo (r₀ : Run) (c₀ : Control) : Run → Control → Prop
  | begins : ComesTo r₀ c₀ r₀ c₀
  | next {r r' : Run} {c c' : Control} (h : ComesTo r₀ c₀ r c) (hs : r.step c = .next r' c') :
      ComesTo r₀ c₀ r' c'
  | resumed {r : Run} {c : Control} {m m' : Machine} {s : Signal} (h : ComesTo r₀ c₀ r c)
      (hs : r.step c = .done (.suspended m s)) (allows : m.Allows m') (room : m'.hasRoom s = true)
      (given : List Value) : ComesTo r₀ c₀ (m'.resumed s given) .settled

/-- **The run is over** and leaves this machine. -/
def Completes (r : Run) (c : Control) (m : Machine) : Prop :=
  ∃ r' c', r.ComesTo c r' c' ∧ r'.step c' = .done (.settled m)

variable {r₀ r r' r'' : Run} {c₀ c c' c'' : Control} {m m' : Machine}

theorem ComesTo.trans (h : r.ComesTo c r' c') (h' : r'.ComesTo c' r'' c'') :
    r.ComesTo c r'' c'' := by
  induction h' with
  | begins => exact h
  | next _ hs ih => exact .next ih hs
  | resumed _ hs hallows hroom given ih => exact .resumed ih hs hallows hroom given

/-- The moments of one host call are among those that the run comes to. -/
theorem ComesTo.of_moment {fuel : Nat} (h : r₀.ComesTo c₀ r c) {p : Run × Control}
    (hp : p ∈ r.moments fuel c) : r₀.ComesTo c₀ p.1 p.2 :=
  moments_induction (P := r₀.ComesTo c₀) ComesTo.next h p hp

theorem ComesTo.keeps (h : r₀.ComesTo c₀ r c) : r₀.machine.Keeps r.machine := by
  induction h with
  | begins => exact .refl _
  | next _ hs ih => exact ih.trans (keeps_next hs).1
  | resumed _ hs hallows _ _ ih =>
    have hkeeps := (ih.trans (keeps_done hs rfl)).trans hallows.keeps
    exact ⟨hkeeps.limits, hkeeps.library, hkeeps.globals⟩

/-- A signal has the frame of the routine that suspends, at least. -/
theorem frames_ne_nil {s : Signal} (hs : r.step c = .done (.suspended m s)) : s.frames ≠ [] := by
  cases hw : r.work? c with
  | none =>
    have hrests := rests_step hw
    rw [hs] at hrests
    cases hrests
  | some w =>
    have hyields := yields_step hw
    rw [hs] at hyields
    cases hyields with
    | suspends => simp

/-- Only a task carries out instructions and makes requests; an operation may begin with one. -/
theorem ComesTo.live_ne_nil (h : r₀.ComesTo c₀ r c) (hc : c = .advance ∨ ∃ q, c = .request q) :
    (r = r₀ ∧ c = c₀) ∨ r.live ≠ [] := by
  cases h with
  | begins => exact .inl ⟨rfl, rfl⟩
  | next _ hs => exact .inr (live_next hs hc)
  | resumed => simp at hc

/-- The first step of a run that is not over yet. -/
theorem ComesTo.of_next (h : r₀.ComesTo c₀ r c) (hs : r₀.step c₀ = .next r' c') :
    (r = r₀ ∧ c = c₀) ∨ r'.ComesTo c' r c := by
  induction h with
  | begins => exact .inl ⟨rfl, rfl⟩
  | next _ hs' ih =>
    rcases ih with ⟨rfl, rfl⟩ | ih
    · cases hs.symm.trans hs'
      exact .inr .begins
    · exact .inr (.next ih hs')
  | resumed _ hs' hallows hroom given ih =>
    rcases ih with ⟨rfl, rfl⟩ | ih
    · cases hs.symm.trans hs'
    · exact .inr (.resumed ih hs' hallows hroom given)

theorem completes_of_next (hs : r.step c = .next r' c') : r.Completes c m ↔ r'.Completes c' m := by
  constructor
  · rintro ⟨u, d, h, hdone⟩
    rcases h.of_next hs with ⟨rfl, rfl⟩ | h
    · cases hs.symm.trans hdone
    · exact ⟨u, d, h, hdone⟩
  · rintro ⟨u, d, h, hdone⟩
    exact ⟨u, d, (ComesTo.next .begins hs).trans h, hdone⟩

/-- A run that ends at once, and is not suspended, comes to nothing else. -/
theorem completes_of_done {o : Outcome} (hs : r.step c = .done o)
    (hend : ∀ m s, o ≠ .suspended m s) : r.Completes c m ↔ o = .settled m := by
  have honly {u : Run} {d : Control} (h : r.ComesTo c u d) : u = r ∧ d = c := by
    induction h with
    | begins => exact ⟨rfl, rfl⟩
    | next _ hs' ih =>
      obtain ⟨rfl, rfl⟩ := ih
      cases hs.symm.trans hs'
    | resumed _ hs' _ _ _ ih =>
      obtain ⟨rfl, rfl⟩ := ih
      exact absurd (Step.done.inj (hs.symm.trans hs')) (hend _ _)
  constructor
  · rintro ⟨u, d, h, hdone⟩
    obtain ⟨rfl, rfl⟩ := honly h
    exact Step.done.inj (hs.symm.trans hdone)
  · rintro rfl
    exact ⟨r, c, .begins, hs⟩

theorem completes_of_run {fuel : Nat} (h : r.run fuel c = some (.settled m)) : r.Completes c m := by
  obtain ⟨u, d, hlast, hdone⟩ := last_of_run h
  exact ⟨u, d, ComesTo.begins.of_moment (List.mem_of_getLast? hlast), hdone⟩

/-- A run that is suspended is over when its resumption is. -/
theorem completes_of_suspended {fuel : Nat} {m₁ m₂ : Machine} {s : Signal} {given : List Value}
    (h : r.run fuel c = some (.suspended m s)) (hallows : m.Allows m₁) (hroom : m₁.hasRoom s = true)
    (hresumed : (m₁.resumed s given).Completes .settled m₂) : r.Completes c m₂ := by
  obtain ⟨u, d, hlast, hdone⟩ := last_of_run h
  obtain ⟨u', d', hcomes, hdone'⟩ := hresumed
  have hsuspends := ComesTo.begins.of_moment (List.mem_of_getLast? hlast)
  exact ⟨u', d', (ComesTo.resumed hsuspends hdone hallows hroom given).trans hcomes, hdone'⟩

/-! ### Operations on an empty stack -/

/-- An operation can be made above any stack, and a resumed one above frames. -/
theorem ComesTo.atop {below : Run} (h : r₀.ComesTo c₀ r c) (hlive : below.live = [])
    (h₀ : Atop below r₀ c₀) : Atop below r c := by
  induction h with
  | begins => exact h₀
  | next _ hs ih => exact ih.next hs
  | resumed => exact ⟨.inr hlive, rfl, nofun⟩

end Run

/-- **The operation is over**, alone on its machine, and leaves that one. -/
def Machine.Completes (m : Machine) (c : Control) (m' : Machine) : Prop :=
  Run.Completes ⟨m, [], [], true⟩ c m'

namespace Machine

variable {m m' : Machine} {c : Control} {q : Request}

theorem atop_alone (m : Machine) (below : Run) (hc : c ≠ .advance) :
    Run.Atop below ⟨m, [], [], true⟩ c :=
  ⟨.inl rfl, rfl, fun h => absurd h hc⟩

/-- **When an operation is over no tail call is pending.** -/
theorem Completes.tailCall (h : m.Completes c m') (hc : c ≠ .advance) :
    m'.channel.tailCall = none := by
  obtain ⟨r, d, hcomes, hdone⟩ := h
  exact Run.tailCall_of_settled (hcomes.atop rfl (atop_alone m ⟨m, [], [], true⟩ hc)) hdone

theorem Completes.keeps (h : m.Completes c m') : m.Keeps m' := by
  obtain ⟨r, d, hcomes, hdone⟩ := h
  exact hcomes.keeps.trans (Run.keeps_done hdone rfl)

/-! #### Requests -/

theorem resolve_count (m : Machine) (q : Request) : (m.count q).resolve q = m.resolve q := by
  cases q <;> rfl

/-- **A request that has a value** is over at once, with the value alone in the channel. -/
theorem completes_of_value {v : Value} (h : m.resolve q = .value v) :
    m.Completes (.request q) m' ↔ m' = { m.count q with channel := ⟨[v], none⟩ } := by
  have hs : Run.step ⟨m, [], [], true⟩ (.request q) =
      .next ⟨{ m.count q with channel := ⟨[v], none⟩ }, [], [], true⟩ .settled := by
    simp only [Run.step, Run.request, resolve_count, h]
    rfl
  have hdone : Run.step ⟨{ m.count q with channel := ⟨[v], none⟩ }, [], [], true⟩ .settled =
      .done (.settled { m.count q with channel := ⟨[v], none⟩ }) := rfl
  rw [Completes, Run.completes_of_next hs, Run.completes_of_done hdone (by simp),
    Outcome.settled.injEq]
  exact eq_comm

/-- **A request that is handed on** is over when the call of its handler is. -/
theorem completes_of_handler {f : Value} {args : List Value} (h : m.resolve q = .handler f args) :
    m.Completes (.request q) m' ↔
      ((m.count q).countHandler q).Completes (.invoke f args) m' := by
  refine Run.completes_of_next ?_
  simp only [Run.step, Run.request, resolve_count, h]

/-- A request that is refused fails. -/
theorem not_completes_of_error {e : Error} (h : m.resolve q = .error e) :
    ¬ m.Completes (.request q) m' := by
  have hs : Run.step ⟨m, [], [], true⟩ (.request q) = .done (.failed (m.count q) e) := by
    simp only [Run.step, Run.request, resolve_count, h]
    rfl
  rw [Completes, Run.completes_of_done hs (by simp)]
  simp

/-! #### Calls -/

/-- The last that is left of an operation: whoever is at work has nobody below it and returns. -/
structure LastLink (m : Machine) (c : Control) (m' : Machine) (r : Run) (d : Control) (w : Work) :
    Prop where
  comes : Run.ComesTo ⟨m, [], [], true⟩ c r d
  work : r.work? d = some w
  alone : w.live = [] ∧ w.pending = []
  leaves : r.Does d w m'.store (.leaves ⟨m'.channel.values, none⟩)

/-- **The results of a call** are those that its last link leaves. -/
theorem Completes.exists_lastLink {target : Value} {args : List Value}
    (h : m.Completes (.invoke target args) m') :
    ∃ r d w, m.LastLink (.invoke target args) m' r d w := by
  have hinvoke : Control.invoke target args ≠ .advance := nofun
  have htail := h.tailCall hinvoke
  obtain ⟨r, d, hcomes, hdone⟩ := h
  have hatop := hcomes.atop rfl (atop_alone m ⟨m, [], [], true⟩ hinvoke)
  -- The run ends where nobody is left to go on.
  obtain ⟨hd, hlive, hpending, rfl⟩ :
      d = .settled ∧ r.live = [] ∧ r.pending = [] ∧ m' = r.machine := by
    cases hw : r.work? d with
    | some w =>
      have hyields := Run.yields_step hw
      rw [hdone] at hyields
      cases hyields
    | none =>
      have hrests := Run.rests_step hw
      rw [hdone] at hrests
      cases hrests with
      | ends hbase hc =>
        obtain ⟨hlive, hpending⟩ := Bool.and_eq_true_iff.mp hbase
        rw [List.isEmpty_iff] at hlive hpending
        exact ⟨hc.resolve_left fun hd => hatop.advance hd hlive, hlive, hpending, rfl⟩
  subst hd
  cases hcomes with
  | @next u _ c' _ hcomes hs =>
    cases hw : u.work? c' with
    | none =>
      -- Only a request has its value at once, and somebody on the stack has made it.
      have hidles := Run.idles_step hw
      rw [hs] at hidles
      cases hidles with
      | answers =>
        rcases hcomes.live_ne_nil (.inr ⟨_, rfl⟩) with ⟨-, hc⟩ | hlive'
        · cases hc
        · exact absurd hlive hlive'
    | some w =>
      have hworks := Run.works_step hw
      rw [hs] at hworks
      generalize hnext : Step.next r .settled = s at hworks
      cases hworks with
      | breaks => cases hnext
      | @does st n deed hdoes =>
        cases deed with
        | leaves ch =>
          cases hnext
          obtain ⟨values, tail⟩ := ch
          obtain rfl : tail = none := htail
          exact ⟨u, c', w, hcomes, hw, ⟨hlive, hpending⟩, hdoes⟩
        | goesOn a | asks t q | suspends values own | fails e => cases hnext
  | resumed _ hs => exact absurd hpending (Run.frames_ne_nil hs)

end Machine

/-! ### Operations in the middle of others -/

/-- The frames that a suspension saves of those who wait. -/
def Run.saved (r : Run) : List SavedFrame := r.live.filterMap Task.saved? ++ r.pending

/-- **The run is at a moment of an operation** that began on this machine, above this stack. -/
def Run.Carries (below : Run) (m : Machine) (c₀ : Control) (r : Run) (c : Control) : Prop :=
  ∃ u, Run.ComesTo ⟨m, [], [], true⟩ c₀ u c ∧ Run.Atop below u c ∧ r = u.above below

namespace Run

variable {below r r' : Run} {m m' : Machine} {c₀ c c' : Control}

theorem Carries.begins (hc : c ≠ .advance) (r : Run) : r.Carries r.machine c r c :=
  ⟨_, .begins, Machine.atop_alone _ r hc, rfl⟩

/-- The machine of those who wait does not matter. -/
theorem Carries.withMachine (h : below.Carries m c₀ r c) (m₀ : Machine) :
    (below.withMachine m₀).Carries m c₀ r c := by
  obtain ⟨u, hcomes, hatop, rfl⟩ := h
  exact ⟨u, hcomes, ⟨hatop.pending, hatop.flatten, hatop.advance⟩, rfl⟩

/-- A step of the run is one of the operation. -/
theorem Carries.step (h : below.Carries m c₀ r c) (hbelow : below.isBase = false) :
    ∃ u, Run.ComesTo ⟨m, [], [], true⟩ c₀ u c ∧ Atop below u c ∧
      r.step c = (u.step c).above below := by
  obtain ⟨u, hcomes, hatop, rfl⟩ := h
  exact ⟨u, hcomes, hatop, step_above hatop fun _ hbase => by simp [hbelow] at hbase⟩

/-- **The operation goes on, or is over**, and whoever waits for it goes on. -/
theorem Carries.next (h : below.Carries m c₀ r c) (hbelow : below.isBase = false)
    (hs : r.step c = .next r' c') :
    below.Carries m c₀ r' c' ∨
      ∃ m', m.Completes c₀ m' ∧ (below.withMachine m').proceed = .next r' c' := by
  obtain ⟨u, hcomes, hatop, habove⟩ := h.step hbelow
  rw [hs] at habove
  cases hu : u.step c with
  | next u' d =>
    rw [hu] at habove
    cases habove
    exact .inl ⟨u', .next hcomes hu, hatop.next hu, rfl⟩
  | done o =>
    rw [hu] at habove
    cases o with
    | settled m' => exact .inr ⟨m', ⟨u, c, hcomes, hu⟩, habove.symm⟩
    | failed m' e | suspended m' s | broken d => cases habove

/-- **The operation goes on after a suspension**, above the frames that were saved of those who
wait, unless it was over, and who waited has suspended. -/
theorem Carries.resumed {s : Signal} (h : below.Carries m c₀ r c) (hbelow : below.isBase = false)
    (hs : r.step c = .done (.suspended m' s)) :
    (below.saved <:+ s.frames ∧ ∀ m'' given, m'.Allows m'' → m''.hasRoom s = true →
      Carries ⟨m'', [], below.saved, true⟩ m c₀ (m''.resumed s given) .settled) ∨
      ∃ m'', m.Completes c₀ m'' ∧ (below.withMachine m'').proceed = .done (.suspended m' s) := by
  obtain ⟨u, hcomes, hatop, habove⟩ := h.step hbelow
  rw [hs] at habove
  cases hu : u.step c with
  | next u' d => rw [hu] at habove; cases habove
  | done o =>
    rw [hu] at habove
    cases o with
    | settled m'' => exact .inr ⟨m'', ⟨u, c, hcomes, hu⟩, habove.symm⟩
    | failed m' e | broken d => cases habove
    | suspended m₁ s₁ =>
      cases habove
      refine .inl ⟨⟨s₁.frames, rfl⟩, fun m'' given hallows hroom => ?_⟩
      obtain ⟨m₂, hdeeper, hroom₁, hresumed⟩ := Machine.resumed_append hroom given
      refine ⟨m₂.resumed s₁ given, .resumed hcomes hu ⟨?_, ?_⟩ hroom₁ given, ⟨.inr rfl, rfl, nofun⟩,
        hresumed⟩
      · have hkeeps := hallows.keeps.trans hdeeper.keeps
        exact ⟨hkeeps.limits, hkeeps.library, hkeeps.globals⟩
      · exact fun hst => hdeeper.compiled (hallows.compiled hst)

end Run

end ResumableVM
