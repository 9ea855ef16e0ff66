import ResumableVM.Proofs.Fitting

/-! # Continuation: which frames of a signal go on

A resumption starts with all frames of a signal pending, and its innermost one goes on first.
However it ends, the frames that have gone on are the first of the signal, each once and in order;
the others are still there, as they were saved. They are the bottom of the next signal if the
resumption suspends again, and lost if it fails; when it is over none is left
(`frames_continue_in_order`).

An error is the very one that the last step has raised (`raises_of_step`). -/

namespace ResumableVM

/-! ### Errors -/

/-- **Where an error comes from**: from an instruction or a routine at work, from a request that is
refused, or from a value that cannot be called, at all or at this depth. -/
inductive Run.Raises (r : Run) : Control → Error → Prop
  | work {c : Control} {w : Work} {st : Store} {e : Error} (hw : r.work? c = some w)
      (h : r.Does c w st (.fails e)) : Raises r c e
  | request {q : Request} {e : Error} (h : r.machine.resolve q = .error e) : Raises r (.request q) e
  | uncallable {target : Value} {args : List Value} {e : Error}
      (h : r.machine.store.callee target = .error e) : Raises r (.invoke target args) e
  | overflow {target : Value} {args : List Value}
      (h : r.machine.depth.enter? r.machine.limits.maxCallDepth = none) :
      Raises r (.invoke target args) (.stackOverflow r.machine.limits.maxCallDepth)

namespace Run

variable {r : Run} {c : Control} {m : Machine} {e : Error}

theorem Idles.raises {s : Step} (h : r.Idles c s) (hs : s = .done (.failed m e)) :
    r.Raises c e := by
  cases h with
  | refuses h => cases hs; exact .request h
  | uncallable h => cases hs; exact .uncallable h
  | overflows hcallee h => cases hs; exact .overflow h
  | _ => cases hs

theorem Works.raises {w : Work} {s : Step} (h : r.Works c w s) (hs : s = .done (.failed m e)) :
    ∃ st, r.Does c w st (.fails e) := by
  cases h with
  | breaks => cases hs
  | @does st n d h =>
    cases d with
    | fails e' => cases hs; exact ⟨st, h⟩
    | _ => cases hs

/-- **An error that ends a run is the one that its last step has raised.** -/
theorem raises_of_step (h : r.step c = .done (.failed m e)) : r.Raises c e := by
  cases hw : r.work? c with
  | none => exact (idles_step hw).raises h
  | some w =>
    obtain ⟨st, hdoes⟩ := (works_step hw).raises h
    exact .work hw hdoes

/-! ### Resumptions -/

/-- A frame that is at work has been taken off those that are pending, and goes on. -/
theorem revive_of_nextWork {w : Work} {f : SavedFrame} (hw : r.nextWork? = some w)
    (hf : w.frame? = some f) :
    r.advance = revive ⟨r.machine, [], w.pending, r.flatten⟩ f ∧
      r.proceed = revive ⟨r.machine, [], w.pending, r.flatten⟩ f := by
  obtain ⟨machine, live, pending, flatten⟩ := r
  cases live with
  | cons t rest => cases hw; cases hf
  | nil =>
    cases pending with
    | nil => cases hw
    | cons f' rest => cases hw; cases hf; exact ⟨rfl, rfl⟩

theorem step_of_frame {w : Work} {f : SavedFrame} (hw : r.work? c = some w)
    (hf : w.frame? = some f) : r.step c = revive ⟨r.machine, [], w.pending, r.flatten⟩ f := by
  cases c with
  | request q => cases hw
  | invoke target args =>
    simp only [work?] at hw
    split at hw
    · cases hw; cases hf
    · cases hw
  | advance => exact (revive_of_nextWork hw hf).1
  | settled =>
    simp only [work?] at hw
    split at hw
    · cases hw
    · next htail =>
      have hnone : r.machine.channel.tailCall = none := by simpa using htail
      simp only [step, settle, Channel.takeTailCall, hnone]
      exact (revive_of_nextWork hw hf).2

end Run

/-- **How a resumption ends** at a moment at which some frames are left that have not gone on. -/
inductive Answer.Leaving (left : List SavedFrame) (r : Run) (c : Control) : Answer → Prop
  /-- The frames of the routine at work and of the live tasks below it come first, then those that
  are left. -/
  | suspended {m : Machine} {s : Signal} {w : Work} {id : RoutineId} {phase : Nat}
      {locals : Locals} (hw : r.work? c = some w) (hid : w.routine? = some id)
      (hframes : s.frames =
        (.routine id phase locals :: w.live.filterMap Task.saved?) ++ left) :
      Leaving left r c (.suspended m s)
  | failed {m : Machine} {e : Error} (h : r.Raises c e) : Leaving left r c (.failed m e)
  | done {m : Machine} {values : List Value} (h : left = []) : Leaving left r c (.done m values)
  | broken {d : Defect} : Leaving left r c (.broken d)

theorem Run.leaving_of_step {r : Run} {c : Control} {o : Outcome} (h : r.step c = .done o) :
    o.answer.Leaving (r.remaining c) r c := by
  cases o with
  | broken d => exact .broken
  | failed m e => exact .failed (raises_of_step h)
  | settled m =>
    refine .done ?_
    cases hw : r.work? c with
    | some w =>
      have hyields := yields_step hw
      rw [h] at hyields
      cases hyields
    | none =>
      have hrests := rests_step hw
      rw [h] at hrests
      cases hrests with
      | ends hbase _ =>
        unfold remaining
        rw [hw]
        exact List.isEmpty_iff.mp (Bool.and_eq_true_iff.mp hbase).2
  | suspended m s =>
    cases hw : r.work? c with
    | none =>
      have hrests := rests_step hw
      rw [h] at hrests
      cases hrests
    | some w =>
      have hyields := yields_step hw
      rw [h] at hyields
      cases hyields with
      | suspends _ _ hid =>
        have hleft : r.remaining c = w.pending := by simp [remaining, hw]
        rw [hleft]
        exact .suspended hw hid rfl

/-- **Every frame goes on once, in order, or stays as it was saved.** The resumption of a signal
that a machine has given out is a run, since there is room for all frames. At its last moment the
frames up to some `i` have gone on, each once and from the innermost, and those after `i` have not.
If it suspends again, these are the bottom of the new signal, below the frames of those who are live
then; each of these leaves its frame, if routines make closures of nothing but compiled code, as the
standard ones do. If it fails, the error is the one raised at that moment. If it is done, all frames
have gone on. -/
theorem frames_continue_in_order {l : Library} {limits : Limits} {m : Machine}
    {signals : List Signal} (h : Service l limits m signals) {s : Signal} (hs : s ∈ signals)
    {fuel : Nat} {values : List Value} {a : Answer} (ha : m.resume fuel s values = some a) :
    ((m.resumed s values).run fuel .settled).map Outcome.answer = some a ∧
    ∃ i < s.frames.length, ∃ r c,
      ((m.resumed s values).moments fuel .settled).getLast? = some (r, c) ∧
      ((m.resumed s values).works fuel .settled).filterMap Work.frame? = s.frames.take (i + 1) ∧
      (∀ p ∈ (m.resumed s values).moments fuel .settled, ∀ w f, p.1.work? p.2 = some w →
        w.frame? = some f →
          p.1.step p.2 = Run.revive ⟨p.1.machine, [], w.pending, p.1.flatten⟩ f) ∧
      a.Leaving (s.frames.drop (i + 1)) r c ∧
      (l.KeepsCompiled → ∀ m' s', a = .suspended m' s' → ∃ w id phase locals,
        r.work? c = some w ∧ w.routine? = some id ∧
        s'.frames = .routine id phase locals :: w.live.map Task.frame ++ s.frames.drop (i + 1)) := by
  rw [Machine.resume_of_hasRoom (h.hasRoom hs)] at ha
  obtain ⟨o, ho, hanswer⟩ := Option.map_eq_some_iff.mp ha
  obtain ⟨f, rest, hframes⟩ := List.exists_cons_of_ne_nil (h.fits s hs).1
  obtain ⟨r, c, hlast, hdone⟩ := Run.last_of_run ho
  have hpending : s.frames = _ ++ r.remaining c := Run.pending_eq hlast
  -- The innermost frame goes on at the first moment.
  obtain ⟨fuel, rfl⟩ : ∃ n, fuel = n + 1 := by
    cases fuel with
    | zero => cases ho
    | succ n => exact ⟨n, rfl⟩
  obtain ⟨gone, hgone⟩ : ∃ gone,
      ((m.resumed s values).works (fuel + 1) .settled).filterMap Work.frame? = f :: gone := by
    rw [Run.works, Run.moments, List.filterMap_cons, Run.work_resumed hframes]
    exact ⟨_, rfl⟩
  rw [hgone] at hpending
  have htake : s.frames.take (gone.length + 1) = f :: gone := by
    rw [hpending]
    exact List.take_left' rfl
  have hdrop : s.frames.drop (gone.length + 1) = r.remaining c := by
    rw [hpending]
    exact List.drop_left' rfl
  refine ⟨ha, gone.length, ?_, r, c, hlast, by rw [hgone, htake],
    fun p _ w f hw hf => Run.step_of_frame hw hf, ?_⟩
  · rw [hpending, List.length_append, List.length_cons]
    omega
  · rw [hdrop, ← hanswer]
    have hleaving := Run.leaving_of_step hdone
    refine ⟨hleaving, fun hl m' s' ha => ?_⟩
    have hkept := Run.moments_induction (P := Run.Kept) Run.Kept.next ((h.kept hl).resumed hs values)
      _ (List.mem_of_getLast? hlast)
    rw [ha] at hleaving
    cases hleaving with
    | suspended hw hid hframes =>
      rw [hkept.saved hw] at hframes
      exact ⟨_, _, _, _, hw, hid, hframes⟩

/-- A procedure that calls its first argument with the second one and returns what comes back. -/
def Procedure.entrust : Procedure where
  name := "entrust"
  params := 2
  isVararg := false
  registers := 2
  upvalues := []
  blocks := [⟨[.call 0 ⟨[.register 1], false⟩ (.fixed [0])], .ret ⟨[.register 0], false⟩⟩]
  nested := []

/-- A machine with a closure of this procedure, and one of a procedure that calls its argument
twice. -/
def Machine.entrusting : Machine :=
  { Machine.consulting with
    store := (Machine.consulting.store.addClosure ⟨Procedure.entrust.assemble [], #[]⟩).2 }

theorem Service.entrusting : Service .standard .standard .entrusting [] := by
  have hconsult : Procedure.consult.compile = .ok (Procedure.consult.assemble []) :=
    Procedure.compile_eq_ok_iff.mpr ⟨Procedure.check_eq_ok_iff.mp rfl, [], .nil, rfl⟩
  have hentrust : Procedure.entrust.compile = .ok (Procedure.entrust.assemble []) :=
    Procedure.compile_eq_ok_iff.mpr ⟨Procedure.check_eq_ok_iff.mp rfl, [], .nil, rfl⟩
  exact .instantiates (.instantiates .begins hconsult rfl) hentrust rfl

/-- Three frames are saved. The first resumption lets two of them go on and suspends again, with new
frames above the one that is put back; the second lets all three go on and is done. -/
theorem frames_continue_in_order_entrust :
    ∃ m s, Service .standard .standard m [s] ∧ s.frames.length = 3 ∧
      ∃ m' s', m.resume 20 s [.nil] = some (.suspended m' s') ∧
        ((m.resumed s [.nil]).works 20 .settled).filterMap Work.frame? = s.frames.take 2 ∧
        (∃ new, s'.frames = new ++ s.frames.drop 2 ∧ new.length = 2) ∧
        ∃ m'' values, m'.resume 20 s' [.nil] = some (.done m'' values) ∧
          ((m'.resumed s' [.nil]).works 20 .settled).filterMap Work.frame? = s'.frames := by
  obtain ⟨m, s, m', s', m'', values, hstart, hagain, hdone, hlength, hgone, hlength'⟩ :
      ∃ m s m' s' m'' values,
        Machine.entrusting.start 20 (.closure ⟨1⟩) [.closure ⟨0⟩, .routine ⟨9⟩] =
          some (.suspended m s) ∧
        m.resume 20 s [.nil] = some (.suspended m' s') ∧
        m'.resume 20 s' [.nil] = some (.done m'' values) ∧ s.frames.length = 3 ∧
        (((m.resumed s [.nil]).works 20 .settled).filterMap Work.frame?).length = 2 ∧
        s'.frames.length = 3 := ⟨_, _, _, _, _, _, rfl, rfl, rfl, rfl, rfl, rfl⟩
  have h : Service .standard .standard m [s] := Service.entrusting.starts hstart .suspended
  have h' : Service .standard .standard m' [s', s] :=
    h.resumes (List.mem_singleton_self s) hagain .suspended
  obtain ⟨-, i, hi, r, c, -, htake, -, -, hsaved⟩ :=
    frames_continue_in_order h (List.mem_singleton_self s) hagain
  -- Two frames have gone on, so that the third is put back.
  obtain rfl : i = 1 := by
    rw [htake, List.length_take] at hgone
    omega
  obtain ⟨w, id, phase, locals, -, -, hframes⟩ := hsaved keepsCompiled_standard m' s' rfl
  obtain ⟨-, j, -, r', c', -, htake', -, hend, -⟩ :=
    frames_continue_in_order h' List.mem_cons_self hdone
  refine ⟨m, s, h, hlength, m', s', hagain, htake, ⟨_, hframes, ?_⟩, m'', values, hdone, ?_⟩
  · have := congrArg List.length hframes
    rw [List.length_append, List.length_drop, hlength, hlength'] at this
    omega
  · cases hend with
    | done hleft => rw [htake', List.take_of_length_le (List.drop_eq_nil_iff.mp hleft)]

end ResumableVM
