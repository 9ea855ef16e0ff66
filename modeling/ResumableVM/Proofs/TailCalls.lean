import ResumableVM.Proofs.Operations

/-! # TailCalls: a tail call in the channel

Only the instruction leaves a tail call. The channel is set as a whole then, so the tail call is
there without values; nobody is at work while it is pending, and the next step takes it out of the
channel and makes it (`Tidy.next`, `Tidy.makes`). So none is left when a run is over
(`Tidy.done`). -/

namespace ResumableVM

namespace Run

/-- A tail call in the channel is there without values, and made next. -/
def Tidy (r : Run) (c : Control) : Prop :=
  r.machine.channel.tailCall = none ∨ r.machine.channel.values = [] ∧ c = .settled

/-- In this step the innermost procedure leaves a tail call. -/
def LeavesTailCall (r : Run) (c : Control) (t : TailCall) : Prop :=
  c = .advance ∧ ∃ a rest st, r.live = .compiled a :: rest ∧
    a.advance r.machine.store r.machine.channel.values = .ok (st, .tailCalls t.target t.args)

variable {r r' : Run} {c c' : Control} {w : Work} {st : Store}

/-- Nobody is at work while a tail call is pending. -/
theorem Tidy.tailCall_of_work (h : r.Tidy c) (hw : r.work? c = some w) :
    r.machine.channel.tailCall = none := by
  rcases h with h | ⟨-, rfl⟩
  · exact h
  · simp only [work?] at hw
    split at hw
    · cases hw
    · next hnone => simpa using hnone

/-- Whoever is through leaves results, or a tail call by the instruction for it. -/
theorem Does.leaves_tidy {ch : Channel} (h : r.Does c w st (.leaves ch)) :
    (∃ vs, ch = ⟨vs, none⟩) ∨
      ∃ t a, ch = ⟨[], some t⟩ ∧ c = .advance ∧ w.worker = .task (.compiled a) ∧
        a.advance r.machine.store r.machine.channel.values =
          .ok (st, .tailCalls t.target t.args) := by
  generalize hd : Deed.leaves ch = d at h
  cases h with
  | @carriesOut w a st p hw hadvance =>
    cases p with
    | returns vs => cases hd; exact .inl ⟨vs, rfl⟩
    | tailCalls target args => cases hd; exact .inr ⟨⟨target, args⟩, a, rfl, rfl, hw, hadvance⟩
    | runs a' | asks a' q | fails e => cases hd
  | @invokes target args callee w id routine st reply
  | @resumes c w id phase locals routine st reply =>
    cases reply with
    | answers vs => cases hd; exact .inl ⟨vs, rfl⟩
    | asks q phase locals | suspends vs phase locals | fails e => cases hd
  | starts | turns | revives | missing => cases hd

/-- **A step keeps the channel tidy**, and only the instruction leaves a tail call. -/
theorem Tidy.next (h : r.Tidy c) (hs : r.step c = .next r' c') :
    r'.Tidy c' ∧ ∀ t, r'.machine.channel.tailCall = some t → r.LeavesTailCall c t := by
  cases hw : r.work? c with
  | none =>
    have hidles := idles_step hw
    rw [hs] at hidles
    have hnone : r'.machine.channel.tailCall = none := by
      cases hidles with
      | answers => rfl
      | handsOn => exact h.resolve_right (by simp)
      | tailCalls => rfl
    exact ⟨.inl hnone, fun t ht => by simp [hnone] at ht⟩
  | some w =>
    have hbefore := h.tailCall_of_work hw
    have hworks := works_step hw
    rw [hs] at hworks
    generalize hnext : Step.next r' c' = s at hworks
    cases hworks with
    | breaks => cases hnext
    | @does st n d hdoes =>
      cases d with
      | goesOn a | asks t q =>
        cases hnext
        exact ⟨.inl hbefore, fun t ht => by cases hbefore.symm.trans ht⟩
      | suspends values own | fails e => cases hnext
      | leaves ch =>
        cases hnext
        rcases hdoes.leaves_tidy with ⟨vs, rfl⟩ | ⟨t, a, rfl, rfl, hworker, hadvance⟩
        · exact ⟨.inl rfl, fun t ht => by cases ht⟩
        · refine ⟨.inr ⟨rfl, rfl⟩, fun t' ht' => ?_⟩
          cases ht'
          rcases live_of_nextWork hw with ⟨t', ht', hlive⟩ | ⟨f, hf, -⟩
          · rw [hworker] at ht'
            cases ht'
            exact ⟨rfl, a, w.live, st, hlive, hadvance⟩
          · rw [hworker] at hf
            cases hf

/-- The instruction leaves its tail call in the channel. -/
theorem LeavesTailCall.step {t : TailCall} (h : r.LeavesTailCall c t)
    (hs : r.step c = .next r' c') : r'.machine.channel.tailCall = some t := by
  obtain ⟨rfl, a, rest, st, hlive, hadvance⟩ := h
  simp only [Run.step, Run.advance, hlive, hadvance] at hs
  cases hs
  rfl

/-- **A pending tail call is made in the next step**, and is in the channel no longer. -/
theorem Tidy.makes {t : TailCall} (h : r.Tidy c) (hflatten : r.flatten = true)
    (ht : r.machine.channel.tailCall = some t) :
    c = .settled ∧ r.step c = .next { r with machine := r.machine.withoutTailCall }
      (.invoke t.target t.args) ∧ r.machine.withoutTailCall.channel = .empty := by
  obtain ⟨hvalues, rfl⟩ := h.resolve_left (by simp [ht])
  refine ⟨rfl, ?_, ?_⟩
  · simp only [Run.step, settle, Channel.takeTailCall, ht, hflatten, Bool.not_true, Bool.and_false,
      Bool.false_eq_true, if_false]
    rfl
  · simp only [Machine.withoutTailCall, Channel.takeTailCall, hvalues]
    rfl

/-- **No tail call is left when a run is over**, however it ends. -/
theorem Tidy.done {o : Outcome} {m : Machine} (h : r.Tidy c) (hflatten : r.flatten = true)
    (hs : r.step c = .done o) (hm : o.machine? = some m) : m.channel.tailCall = none := by
  have hnone : r.machine.channel.tailCall = none := by
    by_contra hsome
    obtain ⟨t, ht⟩ := Option.ne_none_iff_exists'.mp hsome
    cases hs.symm.trans (h.makes hflatten ht).2.1
  cases hw : r.work? c with
  | none =>
    have hidles := idles_step hw
    rw [hs] at hidles
    cases hidles with
    | refuses | uncallable | overflows | ends => cases hm; exact hnone
  | some w =>
    have hworks := works_step hw
    rw [hs] at hworks
    generalize hdone : Step.done o = s at hworks
    cases hworks with
    | breaks => cases hdone; cases hm
    | @does st n d hdoes =>
      cases d with
      | goesOn a | asks t q | leaves ch => cases hdone
      | suspends values own | fails e => cases hdone; cases hm; exact hnone

theorem ComesTo.flatten {r₀ : Run} {c₀ : Control} (h : r₀.ComesTo c₀ r c)
    (h₀ : r₀.flatten = true) : r.flatten = true := by
  induction h with
  | begins => exact h₀
  | next _ hs ih => exact (keeps_next hs).2.trans ih
  | resumed => rfl

theorem ComesTo.tidy {r₀ : Run} {c₀ : Control} (h : r₀.ComesTo c₀ r c) (h₀ : r₀.Tidy c₀) :
    r.Tidy c := by
  induction h with
  | begins => exact h₀
  | next _ hs ih => exact (ih.next hs).1
  | resumed => exact .inl rfl

end Run

end ResumableVM
