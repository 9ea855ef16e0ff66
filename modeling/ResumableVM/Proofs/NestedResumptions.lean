import ResumableVM.Proofs.NestedCalls

/-! # NestedResumptions: the stack resumes the frames one below the other

A resumption starts with all frames pending, at the depth of the innermost one. In direct style the
outermost frame enters its level and has the one below it resumed; the innermost one still goes on
first, and each frame goes on where the one below it has settled (`Nested.leads_resumeNext`). With
`Nested.start_iff` and `Nested.resume_iff` the host cannot tell the two apart. -/

namespace ResumableVM

namespace Nested

variable {n f : Nat} {m m' : Machine} {o : Outcome}

/-- A saved frame that goes on. -/
theorem leads_continueFrame {saved : SavedFrame} (h : continueFrame n m saved = some o)
    (m₀ : Machine) (rest : List SavedFrame) :
    (Run.revive ⟨m, [], rest, true⟩ saved).LeadsTo (o.leave.onto ⟨m₀, [], rest, true⟩) := by
  cases saved with
  | compiled closure frame =>
    simp only [continueFrame] at h
    simp only [Run.revive]
    split at h
    · next d haddress =>
      cases h
      rw [haddress]
      exact .refl _
    · next pc haddress =>
      obtain ⟨⟨o, last⟩, hexecute, rfl⟩ := Option.map_eq_some_iff.mp h
      rw [haddress]
      exact (sound n).execute hexecute ⟨m₀, [], rest, true⟩
  | routine id phase locals => exact leads_useRoutine h (sound n) ⟨m₀, [], rest, true⟩

theorem total_continueFrame {saved : SavedFrame} {rest : List SavedFrame} (hf : 2 * n + 1 ≤ f)
    (hover : (Run.revive ⟨m, [], rest, true⟩ saved).Over n) :
    ∃ o, continueFrame f m saved = some o := by
  cases saved with
  | compiled closure frame =>
    simp only [Run.revive] at hover
    simp only [continueFrame]
    split
    · exact ⟨_, rfl⟩
    · next pc haddress =>
      rw [haddress] at hover
      have hover : (Step.next { (⟨m, [], rest, true⟩ : Run) with
        live := [.compiled ⟨closure, frame, pc⟩] } .advance).Over n := hover
      obtain ⟨x, hx⟩ := (total n).execute (r := ⟨m, [], rest, true⟩) (Nat.le_of_succ_le hf) hover
      rw [hx]
      exact ⟨_, rfl⟩
  | routine id phase locals => exact (total n).useRoutine (r := ⟨m, [], rest, true⟩) hf hover

theorem flattens_pending (m : Machine) (rest : List SavedFrame) :
    Run.Flattens ⟨m, [], rest, true⟩ := by
  simp [Run.Flattens]

/-- What a resumption settles leaves no tail call. -/
theorem tailCall_resumeNext {frames : List SavedFrame}
    (h : resumeNext n frames m = some (.settled m')) (hnone : m.channel.tailCall = none) :
    m'.channel.tailCall = none := by
  cases frames with
  | nil => cases h; exact hnone
  | cons saved rest =>
    obtain ⟨o, -, h⟩ := Option.bind_eq_some_iff.mp h
    exact tailCall_andThen h

/-- The innermost frame goes on once no tail call is left. -/
theorem step_pending {saved : SavedFrame} {rest : List SavedFrame}
    (h : m.channel.tailCall = none) :
    Run.step ⟨m, [], saved :: rest, true⟩ .settled = Run.revive ⟨m, [], rest, true⟩ saved :=
  Run.step_settled h

/-- Where one level can be entered, the frames below it are resumed one level deeper. -/
theorem resumeNext_cons {saved : SavedFrame} {frames : List SavedFrame} {e : CallDepth}
    (henter : m.depth.enter? m.limits.maxCallDepth = some e) :
    resumeNext n (saved :: frames) m =
      ((resumeNext n frames { m with depth := e }).bind fun
        | .settled m => (continueFrame n m saved).map Outcome.leave
        | o => some (o.through (some saved)).leave).bind fun o => o.andThen (trampoline n) := by
  simp only [resumeNext, resumeFrame, Machine.nested, henter]
  cases resumeNext n frames { m with depth := e } with
  | none => rfl
  | some o => cases o <;> rfl

/-- **The frames of a signal are resumed one below the other.** All of them are pending on the stack,
at the depth of the innermost, which goes on first. -/
theorem leads_resumeNext : ∀ {frames : List SavedFrame} {m : Machine} {d : CallDepth} {o : Outcome}
    (m₀ : Machine) (rest : List SavedFrame),
    m.depth.enterMany m.limits.maxCallDepth frames.length = (d, true) →
    m.channel.tailCall = none → resumeNext n frames m = some o →
    (Step.next ⟨{ m with depth := d }, [], frames.reverse ++ rest, true⟩ .settled).LeadsTo
      (o.onto ⟨m₀, [], rest, true⟩)
  | [], m, d, o, m₀, rest, henter, _, h => by
    cases henter
    cases h
    exact .refl _
  | saved :: frames, m, d, o, m₀, rest, henter, hnone, h => by
    rw [List.length_cons, CallDepth.enterMany] at henter
    cases hlevel : m.depth.enter? m.limits.maxCallDepth with
    | none => rw [hlevel] at henter; cases henter
    | some e =>
      rw [hlevel] at henter
      rw [resumeNext_cons hlevel] at h
      obtain ⟨resumed, hresumed, h⟩ := Option.bind_eq_some_iff.mp h
      obtain ⟨below, hbelow, hresumed⟩ := Option.bind_eq_some_iff.mp hresumed
      have hleads := leads_resumeNext (m := { m with depth := e }) m₀ (saved :: rest) henter hnone
        hbelow
      rw [List.reverse_cons, List.append_assoc]
      refine hleads.trans ?_
      cases below with
      | settled m' =>
        -- The frame goes on, and what it leaves to be called is called.
        obtain ⟨own, hown, rfl⟩ := Option.map_eq_some_iff.mp hresumed
        have hsettled : m'.channel.tailCall = none := tailCall_resumeNext hbelow hnone
        refine .step (.trans (.of_eq (step_pending hsettled)) ?_)
        exact (leads_continueFrame hown m₀ rest).trans
          ((sound n).andThen h (flattens_pending m₀ rest))
      | _ =>
        cases hresumed
        cases h
        exact .of_eq (Outcome.onto_pending (by simp) m₀ saved rest true)

theorem total_resumeNext : ∀ {frames : List SavedFrame} {m : Machine} {d : CallDepth}
    {rest : List SavedFrame}, 2 * n + 1 ≤ f →
    m.depth.enterMany m.limits.maxCallDepth frames.length = (d, true) →
    m.channel.tailCall = none →
    (Step.next ⟨{ m with depth := d }, [], frames.reverse ++ rest, true⟩ .settled).Over n →
    ∃ o, resumeNext f frames m = some o
  | [], m, _, _, _, _, _, _ => ⟨_, rfl⟩
  | saved :: frames, m, d, rest, hf, henter, hnone, hover => by
    rw [List.length_cons, CallDepth.enterMany] at henter
    cases hlevel : m.depth.enter? m.limits.maxCallDepth with
    | none => rw [hlevel] at henter; cases henter
    | some e =>
      rw [hlevel] at henter
      rw [resumeNext_cons hlevel]
      rw [List.reverse_cons, List.append_assoc] at hover
      obtain ⟨below, hbelow⟩ := total_resumeNext (m := { m with depth := e }) hf henter hnone hover
      have hleads := leads_resumeNext (m := { m with depth := e }) m (saved :: rest) henter hnone
        hbelow
      rw [hbelow]
      cases below with
      | settled m' =>
        have hsettled : m'.channel.tailCall = none := tailCall_resumeNext hbelow hnone
        obtain ⟨k, rfl, hgoes⟩ := (hover.of_leadsTo hleads).step
        have hgoes := hgoes.of_leadsTo (.of_eq (step_pending hsettled))
        have hk : 2 * k + 1 ≤ f := by omega
        obtain ⟨own, hown⟩ := total_continueFrame hk hgoes
        simp only [Option.bind_some, hown, Option.map_some]
        exact (total k).andThen (Nat.le_of_succ_le hk) (flattens_pending m rest)
          (hgoes.of_leadsTo (leads_continueFrame hown m rest))
      | _ => exact ⟨_, rfl⟩

/-- Where the levels do not all fit, those that were entered are left again. -/
theorem resumeNext_of_full : ∀ {frames : List SavedFrame} {m : Machine},
    (m.depth.enterMany m.limits.maxCallDepth frames.length).2 = false →
    resumeNext n frames m = some (.failed { m with depth := ⟨m.depth.current,
        (m.depth.enterMany m.limits.maxCallDepth frames.length).1.highWater⟩ }
      (.stackOverflow m.limits.maxCallDepth))
  | [], _, h => nomatch h
  | saved :: frames, m, h => by
    rw [List.length_cons, CallDepth.enterMany] at h ⊢
    cases hlevel : m.depth.enter? m.limits.maxCallDepth with
    | none =>
      simp only [resumeNext, resumeFrame, Machine.nested, hlevel]
      rfl
    | some e =>
      rw [hlevel] at h
      rw [resumeNext_cons hlevel, resumeNext_of_full (m := { m with depth := e }) h]
      have hcurrent := (CallDepth.of_enter? hlevel).1
      simp only [Option.bind_some, Outcome.through, Outcome.leave, Outcome.andThen,
        CallDepth.leave, hcurrent, Nat.add_sub_cancel]

/-! ### The stack and what nests agree -/

/-- On an empty stack an end is an end. -/
theorem leads_onto_base (ho : ∀ m', o = .settled m' → m'.channel.tailCall = none) (m : Machine) :
    (o.onto ⟨m, [], [], true⟩).LeadsTo (.done o) := by
  cases o with
  | settled m' =>
    have hnone := ho m' rfl
    exact .step (.of_eq (Run.step_settled (r := ⟨m', [], [], true⟩) hnone))
  | failed m' e => exact .refl _
  | suspended m' s =>
    refine .of_eq ?_
    simp [Outcome.onto, Run.unwound, Run.height, Run.withMachine, CallDepth.leaveMany]
  | broken d => exact .refl _

/-- A run that is over on an empty stack ends as what nests does. -/
theorem run_iff_of_leads {r : Run} {c : Control} {x : Nat → Option Outcome}
    (hsound : ∀ n o, x n = some o → (Step.next r c).LeadsTo (.done o))
    (htotal : ∀ n, (Step.next r c).Over n → ∃ k o, x k = some o) :
    (∃ n, r.run n c = some o) ↔ ∃ n, x n = some o := by
  constructor
  · rintro ⟨n, hn⟩
    have hdone : (Step.next r c).after n = .done o := Step.after_eq_done_iff.mpr hn
    obtain ⟨k, o', hk⟩ := htotal n ⟨o, hdone⟩
    obtain ⟨j, hj⟩ := hsound k o' hk
    have hsame : Step.done o = Step.done o' := by
      rw [← Step.after_done j o, ← hdone, ← Step.after_add, Nat.add_comm, Step.after_add, hj,
        Step.after_done]
    cases hsame
    exact ⟨k, hk⟩
  · rintro ⟨n, hn⟩
    obtain ⟨k, hk⟩ := hsound n o hn
    exact ⟨k, Step.after_eq_done_iff.mp hk⟩

/-- What holds of the ends holds of what the host sees of them. -/
theorem answers_iff {x y : Nat → Option Outcome} {a : Answer}
    (h : ∀ o, (∃ n, x n = some o) ↔ ∃ n, y n = some o) :
    (∃ n, (x n).map Outcome.answer = some a) ↔ ∃ n, (y n).map Outcome.answer = some a := by
  simp only [Option.map_eq_some_iff]
  constructor
  · rintro ⟨n, o, hn, rfl⟩
    obtain ⟨k, hk⟩ := (h o).mp ⟨n, hn⟩
    exact ⟨k, o, hk, rfl⟩
  · rintro ⟨n, o, hn, rfl⟩
    obtain ⟨k, hk⟩ := (h o).mpr ⟨n, hn⟩
    exact ⟨k, o, hk, rfl⟩

theorem tailCall_call {target : Value} {args : List Value}
    (h : call n m target args = some (.settled m')) : m'.channel.tailCall = none := by
  obtain ⟨o, -, h⟩ := Option.bind_eq_some_iff.mp h
  exact tailCall_andThen h

/-- **A call on an empty stack ends as the call that nests.** -/
theorem call_iff {target : Value} {args : List Value} :
    (∃ n, m.perform n true (.invoke target args) = some o) ↔
      ∃ n, call n m target args = some o := by
  refine run_iff_of_leads (fun n o h => ?_) fun n h => ?_
  · refine ((sound n).call h (flattens_pending m [])).trans (leads_onto_base ?_ m)
    rintro m' rfl
    exact tailCall_call h
  · exact ⟨2 * n, (total n).call le_rfl (flattens_pending m []) h⟩

/-- **Starting a call**: on the stack it ends with an answer exactly if it does when calls nest. -/
theorem start_iff {callable : Value} {args : List Value} {a : Answer} :
    (∃ n, m.start n callable args = some a) ↔ ∃ n, start n m callable args = some a :=
  answers_iff fun _ => call_iff

/-- A resumption for which there is room, frame by frame. -/
theorem resumeNext_iff {s : Signal} (hroom : m.hasRoom s = true) {values : List Value} :
    (∃ n, (m.resumed s values).run n .settled = some o) ↔
      ∃ n, resumeNext n s.frames.reverse (m.withResults values) = some o := by
  have henter : m.depth.enterMany m.limits.maxCallDepth s.frames.reverse.length =
      ((m.resumed s values).machine.depth, true) := by
    rw [List.length_reverse]
    exact Prod.ext rfl hroom
  have hframes : m.resumed s values = ⟨{ m.withResults values with
      depth := (m.resumed s values).machine.depth }, [], s.frames.reverse.reverse ++ [], true⟩ := by
    rw [List.reverse_reverse, List.append_nil]
    rfl
  rw [hframes]
  refine run_iff_of_leads (fun n o h => ?_) fun n h => ?_
  · refine (leads_resumeNext (m := m.withResults values) m [] henter rfl h).trans
      (leads_onto_base ?_ m)
    rintro m' rfl
    exact tailCall_resumeNext h rfl
  · exact ⟨2 * n + 1, total_resumeNext (m := m.withResults values) le_rfl henter rfl h⟩

/-- Without room both fail in the same way. -/
theorem resume_of_full {s : Signal} (hroom : m.hasRoom s = false) (n : Nat)
    (values : List Value) : resume n m s values = m.resume n s values := by
  have hfull : (m.depth.enterMany m.limits.maxCallDepth s.frames.reverse.length).2 = false := by
    rw [List.length_reverse]
    exact hroom
  obtain ⟨k, -, hcurrent, -⟩ :=
    CallDepth.enterMany_eq m.limits.maxCallDepth s.frames.length m.depth
  have hleft : (m.resumed s values).machine.depth.leaveMany
      ((m.resumed s values).machine.depth.current - m.depth.current) =
        ⟨m.depth.current, (m.resumed s values).machine.depth.highWater⟩ := by
    rw [CallDepth.leaveMany_eq]
    show CallDepth.mk _ _ = _
    have hcurrent : (m.resumed s values).machine.depth.current = m.depth.current + k := hcurrent
    rw [hcurrent, Nat.add_sub_cancel_left, Nat.add_sub_cancel]
  rw [Machine.resume_of_not_hasRoom hroom, hleft, resume,
    resumeNext_of_full (m := m.withResults values) hfull, List.length_reverse]
  rfl

/-- **Resuming a suspended call**: the stack, with all frames pending, ends with an answer exactly if
the frames do, each of which has the one below it resumed first. -/
theorem resume_iff {s : Signal} {values : List Value} {a : Answer} :
    (∃ n, m.resume n s values = some a) ↔ ∃ n, resume n m s values = some a := by
  cases hroom : m.hasRoom s with
  | true =>
    simp only [Machine.resume_of_hasRoom hroom]
    exact answers_iff fun _ => resumeNext_iff hroom
  | false => simp only [resume_of_full hroom]

end Nested

end ResumableVM
