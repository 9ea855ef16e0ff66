import ResumableVM.Proofs.TailCalls
import ResumableVM.Proofs.Unheard

/-! # Results: what a procedure receives

All calls of a machine leave their results in one channel. A procedure that asks waits until the
operation that it has asked for is over, and then receives what the channel holds. At every moment,
whoever waits has such an operation above it, and nothing but that operation has taken place since
it asked; this stays so when a suspension saves the waiting procedure as a frame and a resumption
goes on above the frame (`Run.Bracketed`). So what is received are the results of the operation
asked for just before (`channel_never_stale`). -/

namespace ResumableVM

/-! ### Questions -/

/-- The call has asked for this with the instruction before, in these objects. -/
def Activation.Asked (a : Activation) (st : Store) (q : Request) : Prop :=
  ∃ (before : Activation) (received : List Value), before.closure = a.closure ∧
    a.pc = before.pc + 1 ∧
    (∃ question, before.closure.code.instrs[before.pc]? = some (.ask question a.frame.point)) ∧
    before.advance st received = .ok (st, .asks a q)

/-- A question leaves the objects alone. -/
theorem Activation.asked_of_advance {a before : Activation} {st st' : Store}
    {received : List Value} {q : Request} (h : before.advance st received = .ok (st', .asks a q)) :
    a.Asked st' q := by
  obtain ⟨i, hi, -, hsame, hpc, question, rfl⟩ := follows_advance h
  have hstore : st' = st := by
    obtain ⟨i, hinstr, hexecute⟩ := bind_eq_ok_iff.mp h
    have hask : before.instr = .ok (.ask question a.frame.point) := by rw [instr, hi]
    cases hask.symm.trans hinstr
    obtain ⟨q', -, hexecute⟩ := bind_eq_ok_iff.mp hexecute
    exact (Prod.mk.inj (Except.ok.inj hexecute)).1.symm
  subst hstore
  exact ⟨before, received, hsame.symm, hpc, ⟨question, hi⟩, h⟩

/-- Whoever has asked can be resumed where it stands. -/
theorem Activation.Asked.resumesAt {a : Activation} {st : Store} {q : Request}
    (h : a.Asked st q) (hcode : a.closure.code.Compiled) :
    a.closure.code.ResumesAt a.frame.point a.pc := by
  obtain ⟨before, received, hsame, hpc, ⟨question, hask⟩, -⟩ := h
  rw [hsame] at hask
  rw [hpc]
  exact hcode.resumesAt hask

namespace Run

/-- The frames below whoever is innermost. -/
def outer (r : Run) : List SavedFrame := (r.live.map Task.frame ++ r.pending).tail

/-- **The moments of whatever a host has its machine do**, over suspensions. -/
def Occurs (limits : Limits) (r : Run) (c : Control) : Prop :=
  ∃ m signals flatten c₀, Service .standard limits m signals ∧
    ComesTo ⟨m, [], [], flatten⟩ c₀ r c

/-- The moment at which the call has made a request, on top of these frames. -/
structure Asks (limits : Limits) (a : Activation) (outer : List SavedFrame) (r : Run)
    (q : Request) : Prop where
  occurs : r.Occurs limits (.request q)
  top : ∃ rest, r.live = .compiled a :: rest
  below : r.outer = outer
  asked : a.Asked r.machine.store q

/-- The call has asked, and only what it has asked for has taken place since. -/
def Awaited (limits : Limits) (under : Run) (a : Activation) (r : Run) (c : Control) : Prop :=
  ∃ asked q, Asks limits a under.outer asked q ∧ asked.ComesTo (.request q) r c ∧
    under.Carries asked.machine (.request q) r c

/-- What the call has asked for is over, and has left this machine. -/
def Answered (limits : Limits) (outer : List SavedFrame) (a : Activation) (r : Run) (c : Control)
    (m : Machine) : Prop :=
  ∃ asked q, Asks limits a outer asked q ∧ asked.ComesTo (.request q) r c ∧
    asked.machine.Completes (.request q) m

variable {limits : Limits} {under r r' : Run} {a : Activation} {c c' : Control} {m m' : Machine}

theorem Awaited.next (h : Awaited limits under a r c) (hunder : under.isBase = false)
    (hs : r.step c = .next r' c') :
    Awaited limits (under.withMachine r'.machine) a r' c' ∨
      ∃ m, Answered limits under.outer a r' c' m ∧ (under.withMachine m).proceed = .next r' c' := by
  obtain ⟨asked, q, hasks, hcomes, hcarries⟩ := h
  rcases hcarries.next hunder hs with hcarries | ⟨m, hcompletes, hproceed⟩
  · exact .inl ⟨asked, q, hasks, .next hcomes hs, hcarries.withMachine _⟩
  · exact .inr ⟨m, ⟨asked, q, hasks, .next hcomes hs, hcompletes⟩, hproceed⟩

/-- A suspension and the resumption are part of what is awaited, if whoever waits does not suspend
itself. -/
theorem Awaited.resumed {s : Signal} (h : Awaited limits under a r c)
    (hunder : under.isBase = false)
    (hproceed : ∀ m m' s, (under.withMachine m).proceed ≠ .done (.suspended m' s))
    (houter : under.outer = under.saved.tail) (hs : r.step c = .done (.suspended m s))
    (hallows : m.Allows m') (hroom : m'.hasRoom s = true) (given : List Value) :
    Awaited limits ⟨(m'.resumed s given).machine, [], under.saved, true⟩ a (m'.resumed s given)
      .settled := by
  obtain ⟨asked, q, hasks, hcomes, hcarries⟩ := h
  rw [houter] at hasks
  rcases hcarries.resumed hunder hs with ⟨-, hcarries⟩ | ⟨m'', -, hsuspended⟩
  · exact ⟨asked, q, hasks, .resumed hcomes hs hallows hroom given,
      (hcarries m' given hallows hroom).withMachine _⟩
  · exact absurd hsuspended (hproceed _ _ _)

/-! ### Who waits -/

/-- **Whoever waits has been waiting, or has just asked.** -/
theorem waiting_next (hs : r.step c = .next r' c') {t : Task} {rest : List Task}
    (ht : t :: rest <:+ r'.waiting c') :
    (t :: rest <:+ r.waiting c ∧ r'.pending = r.pending) ∨
      ∃ w q, c' = .request q ∧ r.Does c w r'.machine.store (.asks t q) ∧ r'.live = t :: rest := by
  cases hw : r.work? c with
  | none =>
    have hrests := rests_step hw
    rw [hs] at hrests
    cases hrests with
    | goesOn hhas hc hc' =>
      have hbefore : r.waiting c = r.live := by rcases hc with ⟨q, rfl⟩ | rfl <;> rfl
      have hafter : r'.waiting c' = r'.live := by rcases hc' with rfl | ⟨target, args, rfl⟩ <;> rfl
      rw [hafter, hhas.live, ← hbefore] at ht
      exact .inl ⟨ht, hhas.pending⟩
  | some w =>
    have hold (h : t :: rest <:+ w.live) : t :: rest <:+ r.waiting c ∧ w.pending = r.pending := by
      refine ⟨h.trans (live_of_work hw).1, pending_of_live hw ?_⟩
      rintro hnil
      simp [hnil] at h
    have hworks := works_step hw
    rw [hs] at hworks
    generalize hnext : Step.next r' c' = s at hworks
    cases hworks with
    | breaks => cases hnext
    | @does st n d hdoes =>
      cases d with
      | goesOn a | leaves ch => cases hnext; exact .inl (hold ht)
      | asks t' q =>
        cases hnext
        rcases List.suffix_cons_iff.mp ht with heq | ht
        · cases heq
          exact .inr ⟨w, q, rfl, hdoes, rfl⟩
        · exact .inl (hold ht)
      | suspends values own | fails e => cases hnext

/-- A procedure asks by an instruction. -/
theorem Does.asked {w : Work} {st : Store} {q : Request}
    (h : r.Does c w st (.asks (.compiled a) q)) : a.Asked st q := by
  generalize hd : Deed.asks (.compiled a) q = d at h
  cases h with
  | @carriesOut w a' st p hw hadvance =>
    cases p with
    | asks a'' q' => cases hd; exact Activation.asked_of_advance hadvance
    | runs | returns | tailCalls | fails => cases hd
  | @invokes target args callee w id routine st reply
  | @resumes c w id phase locals routine st reply =>
    cases reply <;> cases hd
  | starts | turns | revives | missing => cases hd

/-- **The invariant**: all code is compiled; whoever waits, as a task or as a frame, has above it
what it has asked for; and a procedure about to receive has been answered. -/
structure Bracketed (limits : Limits) (r : Run) (c : Control) : Prop where
  occurs : r.Occurs limits c
  kept : r.Kept c
  live : ∀ a rest, .compiled a :: rest <:+ r.waiting c →
    Awaited limits ⟨r.machine, .compiled a :: rest, r.pending, r.flatten⟩ a r c
  pending : ∀ closure frame rest, .compiled closure frame :: rest <:+ r.pending →
    ∃ pc, resumeAddress closure.code frame.point = .ok pc ∧
      Awaited limits ⟨r.machine, [], .compiled closure frame :: rest, r.flatten⟩
        ⟨closure, frame, pc⟩ r c
  receives : c = .advance → ∀ a rest, r.live = .compiled a :: rest → ¬ a.IsDeaf →
    Answered limits r.outer a r c r.machine

theorem Bracketed.live_next (h : r.Bracketed limits c) (hs : r.step c = .next r' c')
    {rest : List Task} (hsuffix : .compiled a :: rest <:+ r'.waiting c') :
    Awaited limits ⟨r'.machine, .compiled a :: rest, r'.pending, r'.flatten⟩ a r' c' := by
  rcases waiting_next hs hsuffix with ⟨hold, hpending⟩ | ⟨w, q, rfl, hdoes, hlive⟩
  · rw [hpending, (keeps_next hs).2]
    rcases (h.live a rest hold).next rfl hs with hawaited | ⟨m, -, hproceed⟩
    · exact hawaited
    · -- Whoever goes on does not wait.
      cases hproceed
      have hlength := hsuffix.length_le
      simp [waiting, withMachine] at hlength
  · have hoccurs : r'.Occurs limits (.request q) := by
      obtain ⟨m, signals, flatten, c₀, hservice, hcomes⟩ := h.occurs
      exact ⟨m, signals, flatten, c₀, hservice, .next hcomes hs⟩
    have hcarries : Carries r' r'.machine (.request q) r' (.request q) := .begins (by simp) r'
    obtain ⟨m, live, pending, flatten⟩ := r'
    obtain rfl : live = _ := hlive
    exact ⟨_, q, ⟨hoccurs, ⟨rest, rfl⟩, rfl, hdoes.asked⟩, .begins, hcarries⟩

theorem Bracketed.pending_next (h : r.Bracketed limits c) (hs : r.step c = .next r' c')
    {closure : Closure} {frame : Frame} {rest : List SavedFrame}
    (hsuffix : .compiled closure frame :: rest <:+ r'.pending) :
    ∃ pc, resumeAddress closure.code frame.point = .ok pc ∧
      Awaited limits ⟨r'.machine, [], .compiled closure frame :: rest, r'.flatten⟩
        ⟨closure, frame, pc⟩ r' c' := by
  have hold : r'.pending <:+ r.pending := by
    rw [Run.pending_next hs]
    exact remaining_suffix r c
  obtain ⟨pc, hpc, hawaited⟩ := h.pending closure frame rest (hsuffix.trans hold)
  refine ⟨pc, hpc, ?_⟩
  rw [(keeps_next hs).2]
  rcases hawaited.next rfl hs with hawaited | ⟨m, -, hproceed⟩
  · exact hawaited
  · -- A frame that goes on is no longer pending.
    simp only [withMachine, proceed, revive, hpc] at hproceed
    cases hproceed
    have hlength := hsuffix.length_le
    simp at hlength

theorem nextWork_of_settled {w : Work} (h : r.work? .settled = some w) : r.nextWork? = some w := by
  simp only [work?] at h
  split at h
  · cases h
  · exact h

/-- Whoever has waited and is innermost now has been answered. -/
theorem Awaited.answered (h : Awaited limits under a r c) (hunder : under.isBase = false)
    (hs : r.step c = .next r' .advance) (hheight : r'.height ≤ under.height)
    (hproceed : ∀ m r' c', (under.withMachine m).proceed = .next r' c' → r'.machine = m) :
    Answered limits under.outer a r' .advance r'.machine := by
  rcases h.next hunder hs with ⟨-, -, -, -, u, -, hatop, heq⟩ | ⟨m, hanswered, hgoes⟩
  · -- Somebody of the operation would be above.
    have hpos := List.length_pos_iff.mpr (hatop.advance rfl)
    have hlive := congrArg (List.length ∘ Run.live) heq
    have hpending := congrArg (List.length ∘ Run.pending) heq
    simp only [Function.comp_apply, above, withMachine, List.length_append] at hlive hpending
    simp only [height] at hheight
    omega
  · rw [hproceed m r' .advance hgoes]
    exact hanswered

/-- A task that waited has its turn. -/
theorem Bracketed.answered_of_task (h : r.Bracketed limits .settled) {rest : List Task}
    (hlive : r.live = .compiled a :: rest) (hs : r.step .settled = .next r' .advance)
    (hlive' : r'.live = r.live) (hpending : r'.pending = r.pending) :
    Answered limits r'.outer a r' .advance r'.machine := by
  have hawaited := h.live a rest (by rw [← hlive]; exact List.suffix_rfl)
  have houter : r'.outer = rest.map Task.frame ++ r.pending := by
    simp [outer, hlive', hlive, hpending]
  rw [houter]
  refine hawaited.answered rfl hs ?_ fun m r' c' hgoes => by cases hgoes; rfl
  simp [height, hlive', hlive, hpending]

/-- A frame that waited is live again. -/
theorem Bracketed.answered_of_frame (h : r.Bracketed limits c) {closure : Closure} {frame : Frame}
    {pc : Nat} (hpending : r.pending = .compiled closure frame :: r'.pending)
    (hpc : resumeAddress closure.code frame.point = .ok pc)
    (hs : r.step c = .next r' .advance) (hlive : r'.live = [.compiled ⟨closure, frame, pc⟩]) :
    Answered limits r'.outer ⟨closure, frame, pc⟩ r' .advance r'.machine := by
  obtain ⟨pc', hpc', hawaited⟩ := h.pending closure frame r'.pending (by rw [hpending])
  cases hpc.symm.trans hpc'
  have houter : r'.outer = r'.pending := by simp [outer, hlive]
  rw [houter]
  refine hawaited.answered rfl hs (by simp [height, hlive, Nat.add_comm]) fun m r' c' hgoes => ?_
  simp only [withMachine, proceed, revive, hpc] at hgoes
  cases hgoes
  rfl

/-- **A procedure that is about to receive has been answered.** -/
theorem Bracketed.receives_next (h : r.Bracketed limits c) (hs : r.step c = .next r' .advance)
    {rest : List Task} (hlive : r'.live = .compiled a :: rest) (hhears : ¬ a.IsDeaf) :
    Answered limits r'.outer a r' .advance r'.machine := by
  cases hw : r.work? c with
  | none =>
    have hrests := rests_step hw
    rw [hs] at hrests
    cases hrests with
    | goesOn _ _ hc' => simp at hc'
  | some w =>
    have hworks := works_step hw
    rw [hs] at hworks
    generalize hnext : Step.next r' .advance = s at hworks
    cases hworks with
    | breaks => cases hnext
    | @does st n d hdoes =>
      obtain rfl : d = .goesOn a := by
        cases d <;> cases hnext
        cases hlive
        rfl
      obtain rfl := (Step.next.inj hnext).1
      have hbefore := pending_of_work hw
      generalize hd : Deed.goesOn a = d at hdoes
      cases hdoes with
      | starts hcallee hid =>
        cases hd
        exact absurd (Activation.isDeaf_start (h.kept.store.closure _) _) hhears
      | @carriesOut w a' st p hworker hadvance =>
        cases p <;> cases hd
        exact absurd (Activation.isDeaf_next ((h.kept.worker hw).1 _ hworker) hadvance) hhears
      | turns hworker =>
        cases hd
        rw [Work.frame?, hworker] at hbefore
        rcases live_of_nextWork (nextWork_of_settled hw) with ⟨t, ht, htasks⟩ | ⟨f, hf, -⟩
        · cases hworker.symm.trans ht
          exact h.answered_of_task htasks hs htasks.symm hbefore.symm
        · cases hworker.symm.trans hf
      | revives hworker hpc =>
        cases hd
        rw [Work.frame?, hworker] at hbefore
        have hnone := (live_of_work hw).2.2.2 _ hworker
        exact h.answered_of_frame hbefore hpc hs (congrArg _ hnone)
      | @invokes target args callee w id routine st reply
      | @resumes c w id phase locals routine st reply => cases reply <;> cases hd
      | missing => cases hd

/-- **A step keeps the invariant.** -/
theorem Bracketed.next (h : r.Bracketed limits c) (hs : r.step c = .next r' c') :
    r'.Bracketed limits c' where
  occurs := by
    obtain ⟨m, signals, flatten, c₀, hservice, hcomes⟩ := h.occurs
    exact ⟨m, signals, flatten, c₀, hservice, .next hcomes hs⟩
  kept := h.kept.next hs
  live _ _ := h.live_next hs
  pending _ _ _ := h.pending_next hs
  receives hc _ _ hlive hhears := by
    subst hc
    exact h.receives_next hs hlive hhears

/-! ### Suspensions -/

/-- A frame that is saved was pending, or is that of a task. -/
theorem suffix_saved {f : SavedFrame} {rest pending : List SavedFrame} : ∀ {live : List Task},
    f :: rest <:+ live.map Task.frame ++ pending → f :: rest <:+ pending ∨
      ∃ t below, t :: below <:+ live ∧ f = t.frame ∧ rest = below.map Task.frame ++ pending
  | [], h => .inl h
  | t :: live, h => by
    rcases List.suffix_cons_iff.mp h with heq | h
    · obtain ⟨rfl, rfl⟩ := List.cons.inj heq
      exact .inr ⟨t, live, List.suffix_rfl, rfl, rfl⟩
    · rcases suffix_saved h with h | ⟨t', below, hsuffix, hf, hrest⟩
      · exact .inl h
      · exact .inr ⟨t', below, hsuffix.trans (List.suffix_cons _ _), hf, hrest⟩

/-- A signal has the frame of the routine that suspends, and one of everybody below. -/
theorem Kept.frames {s : Signal} (h : r.Kept c) (hs : r.step c = .done (.suspended m s)) :
    ∃ w id phase locals, r.work? c = some w ∧
      s.frames = .routine id phase locals :: (w.live.map Task.frame ++ w.pending) := by
  cases hw : r.work? c with
  | none =>
    have hrests := rests_step hw
    rw [hs] at hrests
    cases hrests
  | some w =>
    have hyields := yields_step hw
    rw [hs] at hyields
    cases hyields with
    | @suspends _ _ id phase locals =>
      have hmap : w.live.filterMap Task.saved? = w.live.map Task.frame :=
        List.filterMap_eq_map_iff_forall_eq_some.mpr fun t ht => ((h.worker hw).2.2.1 t ht).2
      exact ⟨w, id, phase, locals, rfl, by rw [hmap, List.cons_append]⟩

@[simp]
theorem waiting_resumed (m : Machine) (s : Signal) (given : List Value) :
    (m.resumed s given).waiting .settled = [] := rfl

theorem Kept.resumed {s : Signal} (h : r.Kept c) (hs : r.step c = .done (.suspended m s))
    (hallows : m.Allows m') (given : List Value) : (m'.resumed s given).Kept .settled := by
  obtain ⟨w, id, phase, locals, hw, hframes⟩ := h.frames hs
  obtain ⟨-, -, htasks, hpending⟩ := h.worker hw
  have hstore := h.step
  rw [hs] at hstore
  have hlibrary : m'.library = r.machine.library :=
    ((keeps_done hs rfl).trans hallows.keeps).library
  refine ⟨hallows.compiled (hstore m rfl), hlibrary ▸ h.library, by simp [Machine.resumed],
    fun f hf => ?_, by simp⟩
  rw [show (m'.resumed s given).pending = s.frames from rfl, hframes] at hf
  rcases List.mem_cons.mp hf with rfl | hf
  · trivial
  · rcases List.mem_append.mp hf with hf | hf
    · obtain ⟨t, ht, rfl⟩ := List.mem_map.mp hf
      have := (htasks t ht).1
      cases t <;> exact this
    · exact hpending f hf

/-- **A suspension and a resumption keep the invariant.** -/
theorem Bracketed.resumed {s : Signal} (h : r.Bracketed limits c)
    (hs : r.step c = .done (.suspended m s)) (hallows : m.Allows m') (hroom : m'.hasRoom s = true)
    (given : List Value) : (m'.resumed s given).Bracketed limits .settled where
  occurs := by
    obtain ⟨m₀, signals, flatten, c₀, hservice, hcomes⟩ := h.occurs
    exact ⟨m₀, signals, flatten, c₀, hservice, .resumed hcomes hs hallows hroom given⟩
  kept := h.kept.resumed hs hallows given
  live a rest hsuffix := by simp at hsuffix
  receives hc := by cases hc
  pending closure frame rest hsuffix := by
    obtain ⟨w, id, phase, locals, hw, hframes⟩ := h.kept.frames hs
    rw [show (m'.resumed s given).pending = s.frames from rfl, hframes] at hsuffix
    -- The frame is not that of the routine.
    have hbelow := (List.suffix_cons_iff.mp hsuffix).resolve_left (by simp)
    rcases suffix_saved hbelow with hold | ⟨t, below, hwaits, hframe, rfl⟩
    · have hpending : w.pending <:+ r.pending := ⟨_, (pending_of_work hw).symm⟩
      obtain ⟨pc, hpc, hawaited⟩ := h.pending closure frame rest (hold.trans hpending)
      refine ⟨pc, hpc,
        hawaited.resumed rfl (fun m m' s hsuspended => ?_) rfl hs hallows hroom given⟩
      simp only [withMachine, proceed, revive, hpc] at hsuspended
      cases hsuspended
    · obtain ⟨a, rfl⟩ : ∃ a, t = .compiled a := by
        cases t with
        | compiled a => exact ⟨a, rfl⟩
        | waiting => cases hframe
      cases hframe
      have hsame : w.pending = r.pending := pending_of_live hw (by
        rintro hnil
        simp [hnil] at hwaits)
      have hlive := (live_of_work hw).1
      have hawaited := h.live a below (hwaits.trans hlive)
      have hsaved : ((Task.compiled a :: below).filterMap Task.saved?) =
          .compiled a.closure a.frame :: below.map Task.frame :=
        List.filterMap_eq_map_iff_forall_eq_some.mpr fun t ht =>
          h.kept.waiting t ((hwaits.trans hlive).subset ht)
      have hcode := ((h.kept.worker hw).2.2.1 _ (hwaits.subset List.mem_cons_self)).1
      have hproceed (m m' : Machine) (s : Signal) :
          (withMachine ⟨r.machine, .compiled a :: below, r.pending, r.flatten⟩ m).proceed ≠
            .done (.suspended m' s) := by simp [withMachine, proceed]
      have hresumed :=
        hawaited.resumed rfl hproceed (by rw [saved, hsaved]; rfl) hs hallows hroom given
      rw [saved, hsaved] at hresumed
      obtain ⟨_, _, hasks, -⟩ := hawaited
      refine ⟨a.pc, Activation.resumeAddress_of_resumesAt (hasks.asked.resumesAt hcode), ?_⟩
      rw [hsame]
      exact hresumed

/-- **The invariant holds at every moment** of whatever a host has its machine do. -/
theorem Occurs.bracketed (h : r.Occurs limits c) : r.Bracketed limits c := by
  obtain ⟨m, signals, flatten, c₀, hservice, hcomes⟩ := h
  induction hcomes with
  | begins =>
    refine ⟨⟨m, signals, flatten, c₀, hservice, .begins⟩,
      (hservice.kept keepsCompiled_standard).perform flatten c₀, fun a rest hsuffix => ?_, by simp,
      by simp⟩
    have hnone : waiting ⟨m, [], [], flatten⟩ c₀ = [] := by cases c₀ <;> rfl
    simp [hnone] at hsuffix
  | next _ hs ih => exact ih.next hs
  | resumed _ hs hallows hroom given ih => exact ih.resumed hs hallows hroom given

end Run

/-! ### Service -/

section Service

variable {limits : Limits} {m : Machine} {signals : List Signal}

theorem Run.occurs_begins (h : Service .standard limits m signals) (flatten : Bool) (c : Control) :
    Run.Occurs limits ⟨m, [], [], flatten⟩ c :=
  ⟨m, signals, flatten, c, h, .begins⟩

theorem Run.Occurs.of_moment {r : Run} {c : Control} {fuel : Nat} (h : r.Occurs limits c)
    {p : Run × Control} (hp : p ∈ r.moments fuel c) : p.1.Occurs limits p.2 := by
  obtain ⟨m, signals, flatten, c₀, hservice, hcomes⟩ := h
  exact ⟨m, signals, flatten, c₀, hservice, hcomes.of_moment hp⟩

/-- What a host has made of its machine, it can resume with. -/
theorem Run.Occurs.allows {r : Run} {c : Control} {m₁ : Machine} {s : Signal}
    (h : r.Occurs limits c) (hs : r.step c = .done (.suspended m₁ s))
    (hservice : Service .standard limits m signals) : m₁.Allows m := by
  obtain ⟨m₀, signals₀, flatten, c₀, hservice₀, hcomes⟩ := h
  have hfirst := ((Machine.keeps_of_service hservice₀).trans hcomes.keeps).trans
    (Run.keeps_done hs rfl)
  have hnow := Machine.keeps_of_service hservice
  exact ⟨⟨hnow.limits.trans hfirst.limits.symm, hnow.library.trans hfirst.library.symm,
    hnow.globals.trans hfirst.globals.symm⟩,
    fun _ => (hservice.kept keepsCompiled_standard).store⟩

/-- **Every signal has been given out** at the end of some run. -/
theorem Service.exists_suspended (h : Service .standard limits m signals) : ∀ s ∈ signals,
    ∃ r c m₁, Run.Occurs limits r c ∧ r.step c = .done (.suspended m₁ s) := by
  have hnew {r : Run} {c : Control} {fuel : Nat} {o : Outcome} {m' : Machine} {new : List Signal}
      (hoccurs : r.Occurs limits c) (ho : r.run fuel c = some o) (hl : o.answer.Leaves m' new) :
      ∀ s ∈ new, ∃ r c m₁, Run.Occurs limits r c ∧ r.step c = .done (.suspended m₁ s) := by
    intro s hs
    obtain ⟨m₁, channel, -, -, hsignals⟩ := Machine.machine_of_leaves hl
    obtain ⟨r', c', hlast, hdone⟩ := Run.last_of_run ho
    rw [hsignals s hs] at hdone
    exact ⟨r', c', m₁, hoccurs.of_moment (List.mem_of_getLast? hlast), hdone⟩
  induction h with
  | begins => simp
  | instantiates _ _ _ ih | edits _ _ ih => exact ih
  | @performs m m' signals new fuel flatten c o h ho hl ih =>
    exact fun s hs =>
      (List.mem_append.mp hs).elim (hnew (Run.occurs_begins h flatten c) ho hl s) (ih s)
  | @resumes m m' signals new fuel s₀ values a h hmem hr hl ih =>
    obtain ⟨r, c, m₁, hoccurs, hsuspended⟩ := ih s₀ hmem
    have hroom := h.hasRoom hmem
    have hallows := hoccurs.allows hsuspended h
    rw [Machine.resume_of_hasRoom hroom] at hr
    obtain ⟨o, ho, rfl⟩ := Option.map_eq_some_iff.mp hr
    obtain ⟨m₀, signals₀, flatten, c₀, hservice, hcomes⟩ := hoccurs
    have hresumed : (m.resumed s₀ values).Occurs limits .settled :=
      ⟨m₀, signals₀, flatten, c₀, hservice, .resumed hcomes hsuspended hallows hroom values⟩
    exact fun s hs => (List.mem_append.mp hs).elim (hnew hresumed ho hl s) (ih s)

/-- A resumption goes on with the run that suspended. -/
theorem Service.occurs_resumed (h : Service .standard limits m signals) {s : Signal}
    (hs : s ∈ signals) (values : List Value) : (m.resumed s values).Occurs limits .settled := by
  obtain ⟨r, c, m₁, hoccurs, hsuspended⟩ := h.exists_suspended s hs
  have hallows := hoccurs.allows hsuspended h
  obtain ⟨m₀, signals₀, flatten, c₀, hservice, hcomes⟩ := hoccurs
  exact ⟨m₀, signals₀, flatten, c₀, hservice,
    .resumed hcomes hsuspended hallows (h.hasRoom hs) values⟩

end Service

/-! ### The channel -/

/-- **What a request brings**: its value alone, or what the last link of the call of its handler has
left. -/
inductive Machine.Brings (m : Machine) (q : Request) (m' : Machine) : Prop
  | value {v : Value} (h : m.resolve q = .value v) (channel : m'.channel = ⟨[v], none⟩)
  | call {f : Value} {args : List Value} {r : Run} {c : Control} {w : Work}
      (h : m.resolve q = .handler f args)
      (last : ((m.count q).countHandler q).LastLink (.invoke f args) m' r c w)

theorem Machine.Completes.brings {m m' : Machine} {q : Request} (h : m.Completes (.request q) m') :
    m.Brings q m' := by
  cases hresolve : m.resolve q with
  | value v =>
    rw [completes_of_value hresolve] at h
    exact .value hresolve (h ▸ rfl)
  | handler f args =>
    rw [completes_of_handler hresolve] at h
    obtain ⟨r, c, w, hlast⟩ := h.exists_lastLink
    exact .call hresolve hlast
  | error e => exact absurd h (not_completes_of_error hresolve)

/-- **What the channel promises** at a moment of a run. -/
structure Run.ChannelSound (limits : Limits) (r : Run) (c : Control) : Prop where
  /-- A tail call is pending without values. -/
  empty : ∀ t, r.machine.channel.tailCall = some t → r.machine.channel.values = []
  /-- The next step takes it out of the channel and invokes its target. -/
  made : ∀ t, r.machine.channel.tailCall = some t →
    c = .settled ∧ r.step c = .next { r with machine := r.machine.withoutTailCall }
      (.invoke t.target t.args) ∧ r.machine.withoutTailCall.channel = .empty
  /-- Only the instruction leaves a tail call, and it is pending then. -/
  left : ∀ r' c', r.step c = .next r' c' → ∀ t,
    r'.machine.channel.tailCall = some t ↔ r.LeavesTailCall c t
  /-- Whoever goes on, or starts, finds none. -/
  works : ∀ w, r.work? c = some w → r.machine.channel.tailCall = none
  /-- None is lost when the run is over. -/
  ends : ∀ o m, r.step c = .done o → o.machine? = some m → m.channel.tailCall = none
  /-- What is received has been asked for with the instruction before, by the same call on the same
  frames, and is what that request has brought. -/
  receives : c = .advance → ∀ a rest receiver, r.live = .compiled a :: rest →
    a.closure.code.instrs[a.pc]? = some (.receive receiver) →
    ∃ asked q, Asks limits a r.outer asked q ∧ asked.ComesTo (.request q) r c ∧
      asked.machine.Completes (.request q) r.machine ∧ asked.machine.Brings q r.machine

theorem Run.Occurs.channelSound {limits : Limits} {r : Run} {c : Control} (h : r.Occurs limits c)
    (htidy : r.Tidy c) (hflatten : r.flatten = true) : r.ChannelSound limits c where
  empty t ht := (htidy.resolve_left (by simp [ht])).1
  made _ ht := htidy.makes hflatten ht
  left _ _ hs t := ⟨(htidy.next hs).2 t, fun hleaves => hleaves.step hs⟩
  works _ hw := htidy.tailCall_of_work hw
  ends _ _ hs hm := htidy.done hflatten hs hm
  receives hc a rest receiver hlive hreceive := by
    obtain ⟨asked, q, hasks, hcomes, hcompletes⟩ :=
      h.bracketed.receives hc a rest hlive fun hdeaf => hdeaf receiver hreceive
    exact ⟨asked, q, hasks, hcomes, hcompletes, hcompletes.brings⟩

/-- **The channel holds nothing stale and loses nothing.** Under the standard library, whatever a
host does: at every moment of an operation or of a resumption the channel is sound. When an
operation or a resumption is over, on any machine and after any suspensions, no tail call is
pending. -/
theorem channel_never_stale {limits : Limits} {m : Machine} {signals : List Signal}
    (h : Service .standard limits m signals) :
    (∀ fuel c, ∀ p ∈ Run.moments fuel ⟨{ m with channel := m.channel.reset }, [], [], true⟩ c,
      p.1.ChannelSound limits p.2) ∧
    (∀ s ∈ signals, ∀ fuel values, ∀ p ∈ (m.resumed s values).moments fuel .settled,
      p.1.ChannelSound limits p.2) ∧
    (∀ (m₁ m₂ : Machine) (c : Control), c ≠ .advance → m₁.Completes c m₂ →
      m₂.channel.tailCall = none) ∧
    ∀ (m₁ m₂ : Machine) (s : Signal) (values : List Value),
      (m₁.resumed s values).Completes .settled m₂ → m₂.channel.tailCall = none := by
  have hsound {r : Run} {c : Control} (hoccurs : r.Occurs limits c) (htidy : r.Tidy c)
      (hflatten : r.flatten = true) {fuel : Nat} : ∀ p ∈ r.moments fuel c,
        p.1.ChannelSound limits p.2 := by
    intro p hp
    have hcomes := Run.ComesTo.begins.of_moment hp
    exact (hoccurs.of_moment hp).channelSound (hcomes.tidy htidy) (hcomes.flatten hflatten)
  refine ⟨fun fuel c => ?_, fun s hs fuel values => ?_, fun m₁ m₂ c hc h => h.tailCall hc,
    fun m₁ m₂ s values ⟨r, c, hcomes, hdone⟩ => ?_⟩
  · have hreset : Service .standard limits { m with channel := m.channel.reset } signals :=
      h.edits rfl
    exact hsound (Run.occurs_begins hreset true c) (.inl rfl) rfl
  · exact hsound (h.occurs_resumed hs values) (.inl rfl) rfl
  · exact (hcomes.tidy (.inl rfl)).done (hcomes.flatten rfl) hdone rfl

/-- A call that is suspended in `pause` and resumed with a value: the procedure receives that value,
which is what its call has brought. -/
theorem channel_never_stale_relay : ∃ m s r a receiver, Service .standard .standard m [s] ∧
    (r, Control.advance) ∈ (m.resumed s [.boolean true]).moments 20 .settled ∧
    r.live = [.compiled a] ∧ a.closure.code.instrs[a.pc]? = some (.receive receiver) ∧
    r.machine.channel = ⟨[.boolean true], none⟩ ∧
    ∃ asked q, Run.Asks .standard a [] asked q ∧
      asked.machine.Completes (.request q) r.machine := by
  obtain ⟨m, s, r, a, receiver, hstart, hmoment, hlive, hreceive, hchannel, houter⟩ :
      ∃ m s r a receiver,
        Machine.relaying.start 20 (.closure ⟨0⟩) [.routine ⟨9⟩] = some (.suspended m s) ∧
        ((m.resumed s [.boolean true]).moments 20 .settled)[2]? = some (r, Control.advance) ∧
        r.live = [.compiled a] ∧ a.closure.code.instrs[a.pc]? = some (.receive receiver) ∧
        r.machine.channel = ⟨[.boolean true], none⟩ ∧ r.outer = [] :=
    ⟨_, _, _, _, _, rfl, rfl, rfl, rfl, rfl, rfl⟩
  have h : Service .standard .standard m [s] := Service.relaying.starts hstart .suspended
  have hmem := List.mem_of_getElem? hmoment
  obtain ⟨-, hresumed, -, -⟩ := channel_never_stale h
  obtain ⟨asked, q, hasks, -, hcompletes, -⟩ :=
    (hresumed s (List.mem_singleton_self s) 20 [.boolean true] _ hmem).receives rfl a [] receiver
      hlive hreceive
  rw [houter] at hasks
  exact ⟨m, s, r, a, receiver, h, hmem, hlive, hreceive, hchannel, asked, q, hasks, hcompletes⟩

end ResumableVM
