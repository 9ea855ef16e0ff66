import Mathlib.Tactic
import ResumableVM.Proofs.Stack

/-! # Nesting: a call is the same on any stack

What a call does is described on an empty stack, and made in the middle of others: below it are the
task that made it and all that waits. `Run.above` puts such a stack below a run. No step looks at it
before the call is over (`step_above`), so the moments of a call are the same on any stack
(`moments_above`). The outermost task of a call may leave a tail call; on an empty stack that does
not flatten, this is the end.

A resumed call has frames that have not gone on yet. It can stand above frames, but not above live
tasks, which would be innermost then (`Run.Atop`). -/

namespace ResumableVM

/-- The machine of one run on the stack of another. -/
def Run.withMachine (r : Run) (m : Machine) : Run := { r with machine := m }

/-- A run with the stack of another one below it. -/
def Run.above (r below : Run) : Run :=
  ⟨r.machine, r.live ++ below.live, r.pending ++ below.pending, below.flatten⟩

/-- What a step leads to with a stack below. -/
def Step.above (below : Run) : Step → Step
  | .next r c => .next (r.above below) c
  | .done (.failed m e) => (below.withMachine m).fail e
  | .done (.suspended m s) =>
    .done (.suspended (below.withMachine m).unwound
      ⟨s.frames ++ (below.live.filterMap Task.saved? ++ below.pending), s.values⟩)
  | .done (.settled m) => (below.withMachine m).proceed
  | .done (.broken d) => .done (.broken d)

namespace Run

variable {r below : Run}

/-- The live tasks of a call; nothing is pending, and the call flattens its tail calls. -/
structure Calling (r : Run) (c : Control) : Prop where
  pending : r.pending = []
  flatten : r.flatten = true
  /-- Only a task carries out instructions. -/
  advance : c = .advance → r.live ≠ []

/-- The run can stand above the stack of another one: its own frames that have not gone on are
innermost. -/
structure Atop (below r : Run) (c : Control) : Prop where
  pending : r.pending = [] ∨ below.live = []
  flatten : r.flatten = true
  advance : c = .advance → r.live ≠ []

theorem Calling.atop {c : Control} (h : r.Calling c) : Atop below r c :=
  ⟨.inl h.pending, h.flatten, h.advance⟩

/-- The outermost task of a call has left a tail call. -/
def LeftTailCall (r : Run) (c : Control) : Prop :=
  c = .settled ∧ r.live = [] ∧ r.machine.channel.tailCall.isSome

@[simp]
theorem machine_above : (r.above below).machine = r.machine := rfl

theorem leaveMany_add (d : CallDepth) (a b : Nat) :
    d.leaveMany (a + b) = (d.leaveMany a).leaveMany b := by
  induction a generalizing d with
  | zero => rw [Nat.zero_add]; rfl
  | succ a ih => rw [Nat.succ_add]; exact ih d.leave

theorem unwound_above : (r.above below).unwound = (below.withMachine r.unwound).unwound := by
  have hheight : (r.above below).height = r.height + below.height := by
    simp only [height, above, List.length_append]
    omega
  simp only [unwound, hheight, leaveMany_add]
  rfl

theorem fail_above (e : Error) : (r.above below).fail e = (r.fail e).above below := by
  show Step.done (.failed (r.above below).unwound e) = .done (.failed _ e)
  rw [unwound_above]

theorem suspend_above (h : r.pending = [] ∨ below.live = []) (values : List Value)
    (own : SavedFrame) : (r.above below).suspend values own = (r.suspend values own).above below := by
  show Step.done (.suspended (r.above below).unwound _) = .done (.suspended _ _)
  rw [unwound_above]
  rcases h with h | h <;> simp [above, h, List.filterMap_append]

theorem reply_above (h : r.pending = [] ∨ below.live = []) (id : RoutineId) (reply : Reply) :
    (r.above below).reply id reply = (r.reply id reply).above below := by
  cases reply with
  | answers vs => rfl
  | asks q phase locals => rfl
  | suspends vs phase locals => exact suspend_above (r := r.leave) h vs _
  | fails e => exact fail_above (r := r.leave) e

theorem replied_above (h : r.pending = [] ∨ below.live = []) (id : RoutineId)
    (x : Except Defect (Store × Reply)) :
    (r.above below).replied id x = (r.replied id x).above below := by
  cases x with
  | ok after => exact reply_above (r := { r with machine.store := after.1 }) h id after.2
  | error d => rfl

theorem withRoutine_above (h : r.pending = [] ∨ below.live = []) (id : RoutineId)
    {use : Routine → Except Defect (Store × Reply)} :
    (r.above below).withRoutine id (fun routine => (r.above below).replied id (use routine)) =
      (r.withRoutine id fun routine => r.replied id (use routine)).above below := by
  simp only [withRoutine, machine_above]
  cases r.machine.library.find? id with
  | some routine => exact replied_above h id _
  | none => exact fail_above (r := r.leave) _

theorem progress_above (p : Progress Activation) :
    (r.above below).progress p = (r.progress p).above below := by
  cases p with
  | fails e => exact fail_above (r := r.leave) e
  | _ => rfl

theorem request_above (q : Request) : (r.above below).request q = (r.request q).above below := by
  simp only [request, machine_above]
  cases (r.machine.count q).resolve q with
  | value v => rfl
  | handler f args => rfl
  | error e => exact fail_above (r := { r with machine := r.machine.count q }) e

theorem enter_above (h : r.pending = [] ∨ below.live = []) (f : Function) (args : List Value) :
    (r.above below).enter f args = (r.enter f args).above below := by
  simp only [enter, machine_above]
  cases r.machine.depth.enter? r.machine.limits.maxCallDepth with
  | none => exact fail_above _
  | some depth =>
    cases f with
    | closure id => rfl
    | routine id =>
      exact withRoutine_above (r := { r with machine := { r.machine with depth := depth } }) h id

theorem invoke_above (h : r.pending = [] ∨ below.live = []) (target : Value) (args : List Value) :
    (r.above below).invoke target args = (r.invoke target args).above below := by
  simp only [invoke, machine_above]
  cases r.machine.store.callee target with
  | error e => exact fail_above e
  | ok c => exact enter_above (r := { r with machine := r.machine.countInvocation c }) h _ _

/-- Whoever is next goes on; a call that has left the stack hands over to what is below. -/
theorem proceed_above (h : r.pending = [] ∨ below.live = []) :
    (r.above below).proceed = r.proceed.above below := by
  obtain ⟨m, live, pending, flatten⟩ := r
  cases live with
  | cons t rest =>
    cases t with
    | compiled a => rfl
    | waiting id phase locals => exact withRoutine_above (r := ⟨m, rest, pending, flatten⟩) h id
  | nil =>
    cases pending with
    | nil => rfl
    | cons f rest =>
      -- The frame is innermost, as nothing below is live.
      obtain ⟨machine, blive, bpending, bflatten⟩ := below
      obtain rfl : blive = [] := h.resolve_left (List.cons_ne_nil f rest)
      cases f with
      | compiled closure frame =>
        simp only [proceed, above, revive, List.nil_append, List.cons_append]
        cases resumeAddress closure.code frame.point <;> rfl
      | routine id phase locals =>
        exact withRoutine_above (r := ⟨m, [], rest, flatten⟩) (.inr rfl) id

theorem advance_above (h : r.pending = [] ∨ below.live = []) (hlive : r.live ≠ []) :
    (r.above below).advance = r.advance.above below := by
  obtain ⟨m, live, pending, flatten⟩ := r
  cases live with
  | nil => exact absurd rfl hlive
  | cons t rest =>
    cases t with
    | compiled a =>
      simp only [advance, above, List.cons_append]
      cases a.advance m.store m.channel.values with
      | ok after =>
        exact progress_above (r := ⟨{ m with store := after.1 }, rest, pending, flatten⟩) after.2
      | error d => rfl
    | waiting id phase locals => exact proceed_above (r := ⟨m, _, pending, flatten⟩) h

theorem settle_above (h : r.pending = [] ∨ below.live = []) (hflatten : r.flatten = true)
    (htail : r.LeftTailCall .settled → below.isBase = true → below.flatten = true) :
    (r.above below).settle = r.settle.above below := by
  cases hc : r.machine.channel.tailCall with
  | none =>
    simp only [settle, machine_above, Channel.takeTailCall, hc]
    exact proceed_above h
  | some t =>
    have hbase : ((r.above below).isBase && !(r.above below).flatten) = false := by
      by_contra hne
      simp only [Bool.not_eq_false, Bool.and_eq_true, Bool.not_eq_true', isBase, above,
        List.isEmpty_iff, List.append_eq_nil_iff] at hne
      obtain ⟨⟨⟨hlive, hblive⟩, -, hbpending⟩, hbflatten⟩ := hne
      have := htail ⟨rfl, hlive, by rw [hc]; rfl⟩ (by simp [isBase, hblive, hbpending])
      simp [hbflatten] at this
    simp only [settle, machine_above, Channel.takeTailCall, hc, hbase, hflatten, Bool.not_true,
      Bool.and_false, Bool.false_eq_true, if_false]
    rfl

/-- **No step of a call looks below.** -/
theorem step_above {c : Control} (h : Atop below r c)
    (htail : r.LeftTailCall c → below.isBase = true → below.flatten = true) :
    (r.above below).step c = (r.step c).above below := by
  cases c with
  | request q => exact request_above q
  | invoke target args => exact invoke_above h.pending target args
  | advance => exact advance_above h.pending (h.advance rfl)
  | settled => exact settle_above h.pending h.flatten htail

/-- A run that stands above goes on to stand there. -/
theorem Atop.next {r' : Run} {c c' : Control} (h : Atop below r c) (hs : r.step c = .next r' c') :
    Atop below r' c' := by
  refine ⟨h.pending.imp_left fun hnil => ?_, (keeps_next hs).2.trans h.flatten,
    fun hc => live_next hs (.inl hc)⟩
  have hpending := pending_step r c
  rw [hnil, ← pending_next hs] at hpending
  exact (List.append_eq_nil_iff.mp hpending.symm).2

/-- A call stays a call. -/
theorem Calling.next {r' : Run} {c c' : Control} (h : r.Calling c) (hs : r.step c = .next r' c') :
    r'.Calling c' := by
  have hatop : Atop ⟨r.machine, r'.live, [], true⟩ r' c' := h.atop.next hs
  have hpending := pending_step r c
  rw [h.pending, ← pending_next hs] at hpending
  exact ⟨(List.append_eq_nil_iff.mp hpending.symm).2, hatop.flatten, hatop.advance⟩

/-- When an operation is over, no tail call is left of it. -/
theorem tailCall_of_settled {c : Control} {m : Machine} (h : Atop below r c)
    (hs : r.step c = .done (.settled m)) : m.channel.tailCall = none := by
  cases hw : r.work? c with
  | none =>
    have hidles := idles_step hw
    rw [hs] at hidles
    cases hidles with
    | ends hc hbase htail =>
      have hlive : r.live = [] := List.isEmpty_iff.mp (Bool.and_eq_true_iff.mp hbase).1
      rcases hc with rfl | rfl
      · exact absurd hlive (h.advance rfl)
      · exact htail rfl h.flatten
  | some w =>
    have hyields := yields_step hw
    rw [hs] at hyields
    cases hyields

/-- **A call has the same moments on any stack**: they are the first ones of a run that makes it
with other tasks below. -/
theorem moments_above (hbelow : below.isBase = true → below.flatten = true) {fuel : Nat} :
    ∀ {r : Run} {c : Control}, r.Calling c →
      (r.moments fuel c).map (fun p => (p.1.above below, p.2)) <+:
        (r.above below).moments fuel c := by
  induction fuel with
  | zero => intro r c _; exact List.nil_prefix
  | succ fuel ih =>
    intro r c h
    have habove := step_above h.atop fun _ => hbelow
    cases hs : r.step c with
    | next r' c' =>
      rw [hs] at habove
      rw [moments_next hs, moments_next habove, List.map_cons]
      exact (List.cons_prefix_cons).mpr ⟨rfl, ih (h.next hs)⟩
    | done o =>
      rw [moments_done hs, moments, List.map_cons]
      exact (List.cons_prefix_cons).mpr ⟨rfl, List.nil_prefix⟩

end Run

end ResumableVM
