import ResumableVM.Proofs.CallDepth

/-! # Trampoline: tail calls take no depth

A call that flattens tail calls is a chain of invocations: each of them leaves the stack before the
next begins (`chain_of_call`). So all of them run at the same depth, and what the high-water mark
shows afterwards is the largest mark of a link, however long the chain is (`Chain.highWater`). -/

namespace ResumableVM

/-- One invocation of a call: that of the callable, or that of a tail call. -/
structure Link where
  machine : Machine
  target : Value
  args : List Value

namespace Link

/-- The invocation alone: the run ends with a tail call in the channel if it leaves one. -/
def run (k : Link) : Run := ⟨k.machine, [], [], false⟩

def control (k : Link) : Control := .invoke k.target k.args

/-- The largest depth at which a function starts in the invocation. -/
def peak (fuel : Nat) (k : Link) : Nat := Work.peak (k.run.works fuel k.control)

/-- The invocation that a tail call asks for. -/
def ofTailCall (m : Machine) (t : TailCall) : Link := ⟨m.withoutTailCall, t.target, t.args⟩

end Link

/-- **A chain of tail calls.** Each invocation but the last leaves a tail call, and the next makes
it. -/
inductive Chain (fuel : Nat) : List Link → Outcome → Prop
  | last {k : Link} {o : Outcome} (h : k.run.run fuel k.control = some o)
      (hend : ∀ m, o = .settled m → m.channel.tailCall = none) : Chain fuel [k] o
  | tail {k : Link} {m : Machine} {t : TailCall} {ks : List Link} {o : Outcome}
      (h : k.run.run fuel k.control = some (.settled m)) (ht : m.channel.tailCall = some t)
      (hrest : Chain fuel (.ofTailCall m t :: ks) o) : Chain fuel (k :: .ofTailCall m t :: ks) o

namespace Run

variable {r r' : Run} {c c' : Control}

/-- The run that leaves the last tail call to the caller. -/
def unflattened (r : Run) : Run := { r with flatten := false }

theorem above_base (m : Machine) : r.above ⟨m, [], [], false⟩ = r.unflattened := by
  simp [above, unflattened]

theorem done_above_base (m : Machine) (o : Outcome) :
    (Step.done o).above ⟨m, [], [], false⟩ = .done o := by
  cases o with
  | suspended m' s => simp [Step.above, withMachine, unwound, height, CallDepth.leaveMany]
  | _ => rfl

/-- **A call is over, or leaves a tail call and goes on with it** on an empty stack. -/
theorem unflattened_run {fuel : Nat} {o : Outcome} :
    ∀ {r : Run} {c : Control}, r.Calling c → r.run fuel c = some o →
      (r.unflattened.run fuel c = some o ∧ ∀ m, o = .settled m → m.channel.tailCall = none) ∨
      ∃ m t n, n < fuel ∧ r.unflattened.run fuel c = some (.settled m) ∧
        m.channel.tailCall = some t ∧
        Run.run n ⟨m.withoutTailCall, [], [], true⟩ (.invoke t.target t.args) = some o := by
  induction fuel with
  | zero => intro r c _ h; cases h
  | succ fuel ih =>
    intro r c hcall h
    by_cases htail : r.LeftTailCall c
    · -- The whole run makes the tail call; the other one ends here.
      obtain ⟨m, live, pending, flatten⟩ := r
      obtain ⟨rfl, hlive, hsome⟩ := htail
      have hpending := hcall.pending
      have hflatten := hcall.flatten
      dsimp only at hlive hpending hflatten hsome
      subst hlive hpending hflatten
      obtain ⟨t, ht⟩ := Option.isSome_iff_exists.mp hsome
      simp only [run, step, settle, Channel.takeTailCall, ht, isBase, List.isEmpty_nil,
        Bool.and_self, Bool.not_true, Bool.and_false, Bool.false_eq_true, if_false] at h
      refine Or.inr ⟨m, t, fuel, Nat.lt_succ_self fuel, ?_, ht, h⟩
      simp [run, step, settle, Channel.takeTailCall, unflattened, ht, isBase]
    · have habove : (r.above ⟨r.machine, [], [], false⟩).step c =
          (r.step c).above ⟨r.machine, [], [], false⟩ :=
        step_above hcall.atop fun h => absurd h htail
      rw [above_base] at habove
      cases hs : r.step c with
      | next r' c' =>
        have hnext : r.unflattened.step c = .next r'.unflattened c' := by
          rw [habove, hs, ← above_base r.machine]
          rfl
        rw [run_next hs] at h
        rw [run_next hnext]
        rcases ih (hcall.next hs) h with h | ⟨m, t, n, hn, hrest⟩
        · exact Or.inl h
        · exact Or.inr ⟨m, t, n, Nat.lt_succ_of_lt hn, hrest⟩
      | done o' =>
        have hdone : r.unflattened.step c = .done o' := by rw [habove, hs, done_above_base]
        rw [run_done hs] at h
        cases h
        refine Or.inl ⟨run_done hdone, fun m hm => ?_⟩
        subst hm
        have hatop : Atop r r c := hcall.atop
        exact tailCall_of_settled hatop hs

end Run

/-! ### Chains -/

namespace Link

/-- An invocation leaves the depth as it was, and raises the high-water mark to its own. -/
theorem depth_run {fuel : Nat} {k : Link} {o : Outcome} {m : Machine}
    (h : k.run.run fuel k.control = some o) (hm : o.machine? = some m) :
    m.depth.current = k.machine.depth.current ∧
      m.depth.highWater = max k.machine.depth.highWater (k.peak fuel) := by
  have hdeep : k.run.Deep k.machine.depth.current := rfl
  exact ⟨(Run.balanced_run hdeep h hm).1, Run.highWater_run hm h⟩

/-- The function of a link runs one level deeper than the call began. -/
theorem depth_work {k : Link} {w : Work} (h : k.run.work? k.control = some w) :
    w.depth.current = k.machine.depth.current + 1 := by
  have hlevel := (Run.places_of_work h).level
  have hw : w.live = [] ∧ w.pending = [] := by
    simp only [control, Run.work?] at h
    split at h
    · cases h; exact ⟨rfl, rfl⟩
    · cases h
  simpa [run, Run.height, Work.level, hw.1, hw.2] using hlevel

end Link

/-- **All links of a chain begin equally deep.** -/
theorem Chain.depth {fuel : Nat} {ks : List Link} {o : Outcome} (h : Chain fuel ks o) {d : Nat} :
    (∀ k ∈ ks.head?, k.machine.depth.current = d) → ∀ k ∈ ks, k.machine.depth.current = d := by
  induction h with
  | last h hend =>
    intro hhead k hk
    rw [List.mem_singleton.mp hk]
    exact hhead _ rfl
  | tail h ht hrest ih =>
    intro hhead k hk
    have hfirst := hhead _ rfl
    rcases List.mem_cons.mp hk with rfl | hk
    · exact hfirst
    · refine ih (fun k hk => ?_) k hk
      cases hk
      exact (Link.depth_run h rfl).1.trans hfirst

/-- **The high-water mark of a chain** is the largest mark of its links. -/
theorem Chain.highWater {fuel : Nat} {ks : List Link} {o : Outcome} {m : Machine}
    (h : Chain fuel ks o) (hm : o.machine? = some m) :
    ∀ k ∈ ks.head?, m.depth.highWater =
      (ks.map (Link.peak fuel)).foldl max k.machine.depth.highWater := by
  induction h with
  | last h hend =>
    intro k hk
    cases hk
    exact (Link.depth_run h hm).2
  | tail h ht hrest ih =>
    intro k hk
    cases hk
    rw [ih hm _ rfl]
    exact congrArg (List.foldl max · _) (Link.depth_run h rfl).2

/-- **A call is a chain of invocations.** -/
theorem chain_of_call {fuel : Nat} {o : Outcome} : ∀ {n : Nat}, n ≤ fuel →
    ∀ {m : Machine} {target : Value} {args : List Value},
      m.perform n true (.invoke target args) = some o →
        ∃ ks, Chain fuel (⟨m, target, args⟩ :: ks) o := by
  intro n
  induction n using Nat.strong_induction_on with
  | h n ih =>
    intro hn m target args h
    have hcall : Run.Calling ⟨m, [], [], true⟩ (.invoke target args) := ⟨rfl, rfl, by simp⟩
    rcases Run.unflattened_run hcall h with ⟨hrun, hend⟩ | ⟨m', t, n', hlt, hrun, ht, hrest⟩
    · exact ⟨[], .last (Run.run_mono hn hrun) hend⟩
    · obtain ⟨ks, hks⟩ := ih n' hlt (hlt.le.trans hn) hrest
      exact ⟨_, .tail (Run.run_mono hn hrun) ht hks⟩

/-- **The depth of calls is balanced and bounded, and tail calls take none.** An operation on a
machine that is some calls deep, of whatever library and store, leaves it as deep as it was, with
results, an error or a suspension; so does a resumption. At every moment the depth is what the stack
adds to that of the machine, and the limit bounds it. Between host calls it is zero.

A call is a chain of invocations that all begin at the depth of the call: the function of each runs
one level deeper, and the high-water mark is the largest of those that the links reach. This holds
of a call in the middle of others too, since it has the same moments on any stack. -/
theorem call_depth_balanced (m : Machine) :
    (∀ {fuel flatten c o m' new}, m.perform fuel flatten c = some o → o.answer.Leaves m' new →
      m.Balanced m') ∧
    (∀ {fuel callable args a m' new}, m.start fuel callable args = some a → a.Leaves m' new →
      m.Balanced m') ∧
    (∀ {fuel s values a m' new}, m.resume fuel s values = some a → a.Leaves m' new →
      m.Balanced m') ∧
    (∀ fuel flatten c, ∀ p ∈ Run.moments fuel ⟨m, [], [], flatten⟩ c,
      p.1.Level m.depth.current m.limits.maxCallDepth p.2) ∧
    (∀ fuel s values, m.hasRoom s = true → ∀ p ∈ (m.resumed s values).moments fuel .settled,
      p.1.Level m.depth.current m.limits.maxCallDepth p.2) ∧
    (∀ l limits signals, Service l limits m signals → m.depth.current = 0) ∧
    (∀ fuel target args o, m.perform fuel true (.invoke target args) = some o →
      ∃ ks, Chain fuel (⟨m, target, args⟩ :: ks) o ∧
        (∀ k ∈ Link.mk m target args :: ks, ∀ w, k.run.work? k.control = some w →
          w.depth.current = m.depth.current + 1) ∧
        ∀ m', o.machine? = some m' → m'.depth.highWater =
          ((Link.mk m target args :: ks).map (Link.peak fuel)).foldl max m.depth.highWater) ∧
    ∀ (below : Run), (below.isBase = true → below.flatten = true) → ∀ fuel target args,
      (Run.moments fuel ⟨m, [], [], true⟩ (.invoke target args)).map
          (fun p => (p.1.above below, p.2)) <+:
        Run.moments fuel ⟨m, below.live, below.pending, below.flatten⟩ (.invoke target args) := by
  refine ⟨Machine.balanced_perform, Machine.balanced_start, Machine.balanced_resume, ?_, ?_, ?_, ?_,
    ?_⟩
  · intro fuel flatten c
    exact Run.level_moments rfl rfl (le_max_left _ _)
  · intro fuel s values hroom
    obtain ⟨hdeep, hbound, -⟩ := Machine.deep_resumed hroom values
    exact Run.level_moments hdeep rfl hbound
  · intro l limits signals h
    exact Machine.depth_of_service h
  · intro fuel target args o h
    obtain ⟨ks, hks⟩ := chain_of_call le_rfl h
    refine ⟨ks, hks, fun k hk w hw => ?_, fun m' hm' => hks.highWater hm' _ rfl⟩
    rw [Link.depth_work hw, hks.depth (d := m.depth.current) (fun k hk => ?_) k hk]
    cases hk
    rfl
  · intro below hbelow fuel target args
    exact Run.moments_above hbelow (r := ⟨m, [], [], true⟩) ⟨rfl, rfl, by simp⟩

/-- A procedure that leaves the call of its argument to its caller. -/
def Procedure.forward : Procedure where
  name := "forward"
  params := 1
  isVararg := false
  registers := 1
  upvalues := []
  blocks := [⟨[], .tailCall 0 ⟨[], false⟩⟩]
  nested := []

/-- A machine with one closure, of this procedure. -/
def Machine.forwarding : Machine :=
  { Machine.standard .standard with
    store := ((Machine.standard .standard).store.addClosure
      ⟨Procedure.forward.assemble [], #[]⟩).2 }

/-- A tail call to a routine that suspends: both run one level deep, and nothing is left of them. -/
theorem call_depth_balanced_forwarding :
    ∃ (m' : Machine) (s : Signal) (ks : List Link),
      Machine.forwarding.perform 20 true (.invoke (.closure ⟨0⟩) [.routine ⟨9⟩]) =
        some (.suspended m' s) ∧
      Chain 20 (⟨Machine.forwarding, .closure ⟨0⟩, [.routine ⟨9⟩]⟩ :: ks) (.suspended m' s) ∧
      m'.counters.tailCalls = 1 ∧ m'.depth.highWater = 1 ∧ m'.depth.current = 0 := by
  obtain ⟨m', s, h, htail, hwater⟩ : ∃ m' s,
      Machine.forwarding.perform 20 true (.invoke (.closure ⟨0⟩) [.routine ⟨9⟩]) =
        some (.suspended m' s) ∧ m'.counters.tailCalls = 1 ∧ m'.depth.highWater = 1 :=
    ⟨_, _, rfl, rfl, rfl⟩
  obtain ⟨hperform, -, -, -, -, -, hcall, -⟩ := call_depth_balanced Machine.forwarding
  obtain ⟨ks, hchain, -⟩ := hcall _ _ _ _ h
  exact ⟨m', s, ks, h, hchain, htail, hwater, (hperform h .suspended).current⟩

end ResumableVM
