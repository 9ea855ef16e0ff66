import ResumableVM.Proofs.CallDepth

/-! # Limits: all that they do is stop a call

A machine reads its limits in two places: a function is entered only within the limit on nested
calls, and an index operation looks into no more values than the other limit allows. A step under
wider limits is the same step, or the narrower ones stop it (`guarded_step`). So a call that ends
under some limits, and not because one of them was reached, ends the same way under wider ones, with
the same suspensions on the way (`limits_only_guard`). -/

namespace ResumableVM

/-- Limits that allow at least as much. -/
structure Limits.Within (l l' : Limits) : Prop where
  callDepth : l.maxCallDepth ≤ l'.maxCallDepth
  indexChain : l.maxIndexChain ≤ l'.maxIndexChain

/-- The error says that a limit was reached. -/
def Error.IsLimit : Error → Prop
  | stackOverflow _ | indexChainTooLong => True
  | _ => False

/-- A machine under other limits. -/
def Machine.withLimits (m : Machine) (limits : Limits) : Machine := { m with limits := limits }

namespace Run

/-- A run under other limits. -/
def withLimits (r : Run) (limits : Limits) : Run :=
  { r with machine := r.machine.withLimits limits }

end Run

namespace Outcome

/-- An outcome under other limits. -/
def withLimits (limits : Limits) : Outcome → Outcome
  | settled m => .settled (m.withLimits limits)
  | failed m e => .failed (m.withLimits limits) e
  | suspended m s => .suspended (m.withLimits limits) s
  | broken d => .broken d

/-- A limit was reached. -/
def ReachesLimit : Outcome → Prop
  | failed _ e => e.IsLimit
  | _ => False

end Outcome

namespace Answer

/-- An answer under other limits. -/
def withLimits (limits : Limits) : Answer → Answer
  | done m vs => .done (m.withLimits limits) vs
  | suspended m s => .suspended (m.withLimits limits) s
  | failed m e => .failed (m.withLimits limits) e
  | broken d => .broken d

/-- A limit was reached. -/
def ReachesLimit : Answer → Prop
  | failed _ e => e.IsLimit
  | _ => False

end Answer

/-- A step under other limits. -/
def Step.withLimits (limits : Limits) : Step → Step
  | next r c => .next (r.withLimits limits) c
  | done o => .done (o.withLimits limits)

/-- A step and the same step under wider limits: they lead to the same, unless the narrower ones
stop the first. -/
inductive Step.Guarded (limits : Limits) : Step → Step → Prop
  | same (s : Step) : Guarded limits s (s.withLimits limits)
  | stopped {m : Machine} {e : Error} (h : e.IsLimit) (s : Step) :
      Guarded limits (.done (.failed m e)) s

/-! ### The two places -/

namespace Store

/-- A chain that ends within a limit ends the same way within a wider one. -/
theorem resolveIndex_mono (st : Store) (key : Value) {limit : Nat} :
    ∀ {limit' : Nat} (v : Value), limit ≤ limit' →
      st.resolveIndex key limit v = .error .indexChainTooLong ∨
        st.resolveIndex key limit' v = st.resolveIndex key limit v := by
  induction limit with
  | zero => exact fun _ _ => Or.inl rfl
  | succ limit ih =>
    intro limit' v hle
    obtain ⟨limit', rfl⟩ : ∃ n, limit' = n + 1 := ⟨limit' - 1, by omega⟩
    simp only [resolveIndex]
    split
    · exact Or.inr rfl
    · split
      · exact Or.inr rfl
      · exact Or.inr rfl
      · exact ih _ (by omega)
      · exact Or.inr rfl

theorem resolve_mono (st : Store) {limit limit' : Nat} (hle : limit ≤ limit') (q : Request) :
    st.resolve limit q = .error .indexChainTooLong ∨ st.resolve limit' q = st.resolve limit q := by
  cases q with
  | index v key => exact st.resolveIndex_mono key v hle
  | _ => exact Or.inr rfl

end Store

namespace CallDepth

/-- A level that one limit allows is the same under a wider one. -/
theorem enter?_mono {d e : CallDepth} {limit limit' : Nat} (hle : limit ≤ limit')
    (h : d.enter? limit = some e) : d.enter? limit' = some e := by
  have hlt := (current_enter? h).1
  rw [enter?, if_pos hlt] at h
  rw [enter?, if_pos (by omega)]
  exact h

theorem enterMany_mono {limit limit' : Nat} (hle : limit ≤ limit') : ∀ {n : Nat} {d : CallDepth},
    (d.enterMany limit n).2 = true → d.enterMany limit' n = d.enterMany limit n
  | 0, _, _ => rfl
  | n + 1, d, h => by
    unfold enterMany at h ⊢
    cases henter : d.enter? limit with
    | none => rw [henter] at h; cases h
    | some e =>
      rw [henter] at h
      rw [enter?_mono hle henter]
      exact enterMany_mono hle h

end CallDepth

/-! ### One step -/

namespace Run

variable {r : Run} {limits : Limits}

@[simp]
theorem library_withLimits : (r.withLimits limits).machine.library = r.machine.library := rfl

@[simp]
theorem store_withLimits : (r.withLimits limits).machine.store = r.machine.store := rfl

@[simp]
theorem channel_withLimits : (r.withLimits limits).machine.channel = r.machine.channel := rfl

theorem reply_withLimits (id : RoutineId) (reply : Reply) :
    (r.withLimits limits).reply id reply = (r.reply id reply).withLimits limits := by
  cases reply <;> rfl

theorem replied_withLimits (id : RoutineId) (x : Except Defect (Store × Reply)) :
    (r.withLimits limits).replied id x = (r.replied id x).withLimits limits := by
  cases x with
  | ok after => exact reply_withLimits (r := { r with machine.store := after.1 }) id after.2
  | error d => rfl

theorem withRoutine_withLimits (id : RoutineId)
    {use : Routine → Except Defect (Store × Reply)} :
    (r.withLimits limits).withRoutine id
        (fun routine => (r.withLimits limits).replied id (use routine)) =
      (r.withRoutine id fun routine => r.replied id (use routine)).withLimits limits := by
  simp only [withRoutine, library_withLimits]
  cases r.machine.library.find? id with
  | some routine => exact replied_withLimits id _
  | none => rfl

theorem progress_withLimits (p : Progress Activation) :
    (r.withLimits limits).progress p = (r.progress p).withLimits limits := by
  cases p <;> rfl

theorem revive_withLimits (f : SavedFrame) :
    (r.withLimits limits).revive f = (r.revive f).withLimits limits := by
  cases f with
  | compiled closure frame =>
    simp only [revive]
    cases resumeAddress closure.code frame.point <;> rfl
  | routine id phase locals => exact withRoutine_withLimits id

theorem proceed_withLimits : (r.withLimits limits).proceed = r.proceed.withLimits limits := by
  obtain ⟨m, live, pending, flatten⟩ := r
  cases live with
  | cons t rest =>
    cases t with
    | compiled a => rfl
    | waiting id phase locals =>
      exact withRoutine_withLimits (r := ⟨m, rest, pending, flatten⟩) id
  | nil =>
    cases pending with
    | nil => rfl
    | cons f rest => exact revive_withLimits (r := ⟨m, [], rest, flatten⟩) f

theorem settle_withLimits : (r.withLimits limits).settle = r.settle.withLimits limits := by
  have hbase : ((r.withLimits limits).isBase && !(r.withLimits limits).flatten) =
      (r.isBase && !r.flatten) := rfl
  simp only [settle, Channel.takeTailCall, channel_withLimits, hbase]
  cases r.machine.channel.tailCall with
  | none => exact proceed_withLimits
  | some t => dsimp only; split <;> rfl

theorem advance_withLimits : (r.withLimits limits).advance = r.advance.withLimits limits := by
  have hproceed : (r.withLimits limits).proceed = r.proceed.withLimits limits := proceed_withLimits
  obtain ⟨m, live, pending, flatten⟩ := r
  cases live with
  | nil => exact hproceed
  | cons t rest =>
    cases t with
    | waiting id phase locals => exact hproceed
    | compiled a =>
      have hadvance : a.advance (m.withLimits limits).store (m.withLimits limits).channel.values =
          a.advance m.store m.channel.values := rfl
      simp only [advance, withLimits, hadvance]
      cases a.advance m.store m.channel.values with
      | error d => rfl
      | ok after =>
        exact progress_withLimits (r := ⟨{ m with store := after.1 }, rest, pending, flatten⟩)
          after.2

/-- A request looks further only when the narrower limit has stopped it. -/
theorem guarded_request (h : r.machine.limits.Within limits) (q : Request) :
    Step.Guarded limits (r.request q) ((r.withLimits limits).request q) := by
  have hnarrow : (r.machine.count q).resolve q =
      r.machine.store.resolve r.machine.limits.maxIndexChain q := by cases q <;> rfl
  have hwide : ((r.withLimits limits).machine.count q).resolve q =
      r.machine.store.resolve limits.maxIndexChain q := by cases q <;> rfl
  rcases r.machine.store.resolve_mono h.indexChain q with hres | hres
  · have hstop : r.request q =
        Run.fail { r with machine := r.machine.count q } .indexChainTooLong := by
      simp only [request, hnarrow, hres]
    rw [hstop]
    exact .stopped (by trivial) _
  · have hsame : (r.withLimits limits).request q = (r.request q).withLimits limits := by
      simp only [request, hnarrow, hwide, hres]
      cases r.machine.store.resolve r.machine.limits.maxIndexChain q <;> cases q <;> rfl
    rw [hsame]
    exact .same _

/-- A function is entered where it was not only when the narrower limit has stopped it. -/
theorem guarded_enter (h : r.machine.limits.Within limits) (f : Function) (args : List Value) :
    Step.Guarded limits (r.enter f args) ((r.withLimits limits).enter f args) := by
  cases hdepth : r.machine.depth.enter? r.machine.limits.maxCallDepth with
  | none =>
    simp only [enter, hdepth]
    exact .stopped (by trivial) _
  | some depth =>
    have hwide : (r.withLimits limits).machine.depth.enter?
        (r.withLimits limits).machine.limits.maxCallDepth = some depth :=
      CallDepth.enter?_mono h.callDepth hdepth
    have hsame : (r.withLimits limits).enter f args = (r.enter f args).withLimits limits := by
      simp only [enter, hdepth, hwide]
      cases f with
      | closure id => rfl
      | routine id =>
        exact withRoutine_withLimits (r := { r with machine := { r.machine with depth := depth } })
          id
    rw [hsame]
    exact .same _

theorem guarded_invoke (h : r.machine.limits.Within limits) (target : Value) (args : List Value) :
    Step.Guarded limits (r.invoke target args) ((r.withLimits limits).invoke target args) := by
  simp only [invoke, store_withLimits]
  cases r.machine.store.callee target with
  | error e => exact .same (r.fail e)
  | ok c =>
    have hcount : (r.withLimits limits).machine.countInvocation c =
        (r.machine.countInvocation c).withLimits limits := by cases c <;> rfl
    dsimp only
    rw [hcount]
    refine guarded_enter (r := { r with machine := r.machine.countInvocation c }) ?_ _ _
    cases c <;> exact h

/-- **A step under wider limits** is the same, unless the narrower ones have stopped it. -/
theorem guarded_step (h : r.machine.limits.Within limits) (c : Control) :
    Step.Guarded limits (r.step c) ((r.withLimits limits).step c) := by
  cases c with
  | request q => exact guarded_request h q
  | invoke target args => exact guarded_invoke h target args
  | advance =>
    simp only [step, advance_withLimits]
    exact .same _
  | settled =>
    simp only [step, settle_withLimits]
    exact .same _

/-- **A run that no limit stops** ends the same way under wider limits. -/
theorem run_withLimits {fuel : Nat} {o : Outcome} (ho : ¬ o.ReachesLimit) :
    ∀ {r : Run} {c : Control}, r.machine.limits.Within limits → r.run fuel c = some o →
      (r.withLimits limits).run fuel c = some (o.withLimits limits) := by
  induction fuel with
  | zero => intro r c _ hrun; cases hrun
  | succ fuel ih =>
    intro r c h hrun
    have hguarded := guarded_step h c
    have hkeeps : ∀ {r' : Run} {c' : Control}, r.step c = .next r' c' →
        r'.machine.limits.Within limits := fun hs => (keeps_next hs).1.limits ▸ h
    simp only [run] at hrun ⊢
    generalize r.step c = s, (r.withLimits limits).step c = s' at hguarded hkeeps hrun
    cases hguarded with
    | stopped he s' =>
      -- Then the run ended with the error of that limit.
      cases hrun
      exact absurd he ho
    | same s =>
      cases s with
      | next r' c' => exact ih (hkeeps rfl) hrun
      | done o' =>
        cases hrun
        rfl

end Run

/-! ### Host calls -/

theorem Outcome.answer_withLimits (limits : Limits) (o : Outcome) :
    (o.withLimits limits).answer = o.answer.withLimits limits := by
  cases o <;> rfl

theorem Outcome.reachesLimit_answer (o : Outcome) : o.answer.ReachesLimit ↔ o.ReachesLimit := by
  cases o <;> exact Iff.rfl

namespace Machine

variable {m : Machine} {limits : Limits} {fuel : Nat}

theorem start_withLimits (h : m.limits.Within limits) {callable : Value} {args : List Value}
    {a : Answer} (ha : ¬ a.ReachesLimit) (hstart : m.start fuel callable args = some a) :
    (m.withLimits limits).start fuel callable args = some (a.withLimits limits) := by
  obtain ⟨o, ho, rfl⟩ := Option.map_eq_some_iff.mp hstart
  rw [o.reachesLimit_answer] at ha
  exact Option.map_eq_some_iff.mpr ⟨_, Run.run_withLimits ha h ho, o.answer_withLimits limits⟩

/-- A stack that fits within the limit on nested calls fits within a wider one. -/
theorem resume_withLimits (h : m.limits.Within limits) {s : Signal} {values : List Value}
    {a : Answer} (ha : ¬ a.ReachesLimit) (hresume : m.resume fuel s values = some a) :
    (m.withLimits limits).resume fuel s values = some (a.withLimits limits) := by
  cases hroom : m.hasRoom s with
  | false =>
    rw [resume_of_not_hasRoom hroom] at hresume
    cases hresume
    exact absurd (by trivial) ha
  | true =>
    have henter : m.depth.enterMany limits.maxCallDepth s.frames.length =
        m.depth.enterMany m.limits.maxCallDepth s.frames.length :=
      CallDepth.enterMany_mono h.callDepth hroom
    have hroom' : (m.withLimits limits).hasRoom s = true :=
      (congrArg Prod.snd henter).trans hroom
    have hresumed : (m.withLimits limits).resumed s values =
        (m.resumed s values).withLimits limits := by
      simp only [resumed, withLimits, henter, Run.withLimits]
    rw [resume_of_hasRoom hroom] at hresume
    rw [resume_of_hasRoom hroom', hresumed]
    obtain ⟨o, ho, rfl⟩ := Option.map_eq_some_iff.mp hresume
    rw [o.reachesLimit_answer] at ha
    exact Option.map_eq_some_iff.mpr ⟨_, Run.run_withLimits ha h ho, o.answer_withLimits limits⟩

theorem keeps_start {callable : Value} {args : List Value} {a : Answer} {m' : Machine}
    {new : List Signal} (h : m.start fuel callable args = some a) (hl : a.Leaves m' new) :
    m.Keeps m' := by
  obtain ⟨o, ho, rfl⟩ := Option.map_eq_some_iff.mp h
  obtain ⟨m₁, channel, hm, rfl, -⟩ := machine_of_leaves hl
  have hkeeps := Run.keeps_run ho hm
  exact ⟨hkeeps.limits, hkeeps.library, hkeeps.globals⟩

section Scheduler

variable {σ : Type}

/-- The signals that a scheduler is handed from an answer on, in order. -/
def handed (fuel : Nat) (scheduler : σ → Signal → σ × List Value) : Nat → σ → Answer → List Signal
  | n + 1, s, .suspended m signal =>
    signal :: (m.resume fuel signal (scheduler s signal).2).elim []
      (handed fuel scheduler n (scheduler s signal).1)
  | _, _, _ => []

/-- The **suspensions of a call** that is resumed until it is over, in order. -/
def suspensions (m : Machine) (fuel : Nat) (scheduler : σ → Signal → σ × List Value) (s : σ)
    (callable : Value) (args : List Value) : List Signal :=
  (m.start fuel callable args).elim [] (handed fuel scheduler fuel s)

variable {scheduler : σ → Signal → σ × List Value} {last : Answer} {s' : σ}

/-- An answer that a limit has stopped is the last one. -/
theorem reachesLimit_of_settle {n : Nat} {s : σ} {a : Answer}
    (h : settle fuel scheduler n s a = some (last, s')) (ha : a.ReachesLimit) :
    last.ReachesLimit := by
  cases n with
  | zero => cases h
  | succ n =>
    cases a with
    | failed m e => cases h; exact ha
    | _ => exact ha.elim

/-- From an answer on, a call that no limit stops is resumed the same way under wider limits. -/
theorem settle_withLimits (hlast : ¬ last.ReachesLimit) : ∀ {n : Nat} {s : σ} {a : Answer},
    (∀ m new, a.Leaves m new → m.limits.Within limits) →
    settle fuel scheduler n s a = some (last, s') →
      settle fuel scheduler n s (a.withLimits limits) = some (last.withLimits limits, s') ∧
        handed fuel scheduler n s (a.withLimits limits) = handed fuel scheduler n s a
  | 0, _, _, _, h => by cases h
  | n + 1, s, .suspended m signal, ha, h => by
    simp only [settle, Option.bind_eq_bind, Option.bind_eq_some_iff] at h
    obtain ⟨a, hresume, hrest⟩ := h
    have hlimits := ha m _ .suspended
    have hnext : ¬ a.ReachesLimit := fun hreach => hlast (reachesLimit_of_settle hrest hreach)
    have hresume' := resume_withLimits hlimits hnext hresume
    obtain ⟨hsettle, hhanded⟩ := settle_withLimits hlast
      (fun m' new hl => (keeps_resume hresume hl).limits ▸ hlimits) hrest
    refine ⟨?_, ?_⟩
    · show settle fuel scheduler (n + 1) s (.suspended (m.withLimits limits) signal) = _
      simp only [settle, hresume', Option.bind_eq_bind, Option.bind_some]
      exact hsettle
    · show handed fuel scheduler (n + 1) s (.suspended (m.withLimits limits) signal) = _
      simp only [handed, hresume, hresume', Option.elim_some, hhanded]
  | n + 1, s, .done m vs, _, h => by cases h; exact ⟨rfl, rfl⟩
  | n + 1, s, .failed m e, _, h => by cases h; exact ⟨rfl, rfl⟩
  | n + 1, s, .broken d, _, h => by cases h; exact ⟨rfl, rfl⟩

/-- **Limits only guard.** Call a value and resume it with what any scheduler answers until it is
over. If it ends with values or an error, and not because a limit was reached, then under any wider
limits it ends, in as many steps, with the same values or error and with the same machine: store,
channel, depth and counters are equal. On the way it suspends with the same signals in the same
order. -/
theorem limits_only_guard (h : m.limits.Within limits) (s : σ) (callable : Value)
    (args : List Value) (hlast : ¬ last.ReachesLimit)
    (hends : m.complete fuel scheduler s callable args = some (last, s')) :
    (m.withLimits limits).complete fuel scheduler s callable args =
        some (last.withLimits limits, s') ∧
      (m.withLimits limits).suspensions fuel scheduler s callable args =
        m.suspensions fuel scheduler s callable args := by
  simp only [complete, Option.bind_eq_bind, Option.bind_eq_some_iff] at hends
  obtain ⟨a, hstart, hsettle⟩ := hends
  have hfirst : ¬ a.ReachesLimit := fun hreach => hlast (reachesLimit_of_settle hsettle hreach)
  have hstart' := start_withLimits h hfirst hstart
  obtain ⟨hsettle', hhanded⟩ := settle_withLimits hlast
    (fun m' new hl => (keeps_start hstart hl).limits ▸ h) hsettle
  refine ⟨?_, ?_⟩
  · simp only [complete, hstart', Option.bind_eq_bind, Option.bind_some]
    exact hsettle'
  · simp only [suspensions, hstart, hstart', Option.elim_some, hhanded]

end Scheduler

/-- The scheduler that answers with the number of the suspension. -/
def numbering : Nat → Signal → Nat × List Value := scheduler fun n _ => [.integer (Int64.ofNat n)]

/-- A call that suspends twice at depth two: one level is not enough, and more than two make no
difference. -/
theorem limits_only_guard_consulting :
    (∃ m n, (consulting.withLimits ⟨1, 1⟩).complete 20 numbering 0 (.closure ⟨0⟩) [.routine ⟨9⟩] =
      some (.failed m (.stackOverflow 1), n)) ∧
    Limits.Within ⟨2, 1⟩ .standard ∧
    ∃ last n, ¬ last.ReachesLimit ∧
      (consulting.withLimits ⟨2, 1⟩).complete 20 numbering 0 (.closure ⟨0⟩) [.routine ⟨9⟩] =
        some (last, n) ∧
      consulting.complete 20 numbering 0 (.closure ⟨0⟩) [.routine ⟨9⟩] =
        some (last.withLimits .standard, n) ∧
      consulting.suspensions 20 numbering 0 (.closure ⟨0⟩) [.routine ⟨9⟩] =
        (consulting.withLimits ⟨2, 1⟩).suspensions 20 numbering 0 (.closure ⟨0⟩) [.routine ⟨9⟩] ∧
      (consulting.suspensions 20 numbering 0 (.closure ⟨0⟩) [.routine ⟨9⟩]).length = 2 := by
  have hoverflows : ∃ m n, (consulting.withLimits ⟨1, 1⟩).complete 20 numbering 0 (.closure ⟨0⟩)
      [.routine ⟨9⟩] = some (.failed m (.stackOverflow 1), n) := ⟨_, _, rfl⟩
  obtain ⟨m, n, hends⟩ : ∃ m n, (consulting.withLimits ⟨2, 1⟩).complete 20 numbering 0
      (.closure ⟨0⟩) [.routine ⟨9⟩] = some (.done m [.integer 0, .integer 1], n) := ⟨_, _, rfl⟩
  have hwithin : Limits.Within ⟨2, 1⟩ .standard := ⟨by decide, by decide⟩
  obtain ⟨hwide, hsignals⟩ := limits_only_guard (m := consulting.withLimits ⟨2, 1⟩) hwithin 0
    (.closure ⟨0⟩) [.routine ⟨9⟩] id hends
  exact ⟨hoverflows, hwithin, _, n, id, hends, hwide, hsignals, rfl⟩

end Machine

end ResumableVM
