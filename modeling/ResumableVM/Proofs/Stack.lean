import ResumableVM.Proofs.Work

/-! # Stack: what becomes of the stack

A worker stays on top of what waits, or leaves it, or takes it all down with an error or a
suspension (`yields_step`). A step without work leaves the stack as it is, or takes it down with an
error, or is the last with nothing on the stack (`rests_step`). So the frames that are pending go on
in order (`pending_eq`). -/

namespace ResumableVM

/-- What no call changes: the limits, the library and the globals. -/
structure Machine.Keeps (m m' : Machine) : Prop where
  limits : m'.limits = m.limits
  library : m'.library = m.library
  globals : m'.globals = m.globals

/-- A run of the same machine, with this depth and this stack. -/
structure Run.Has (r : Run) (depth : CallDepth) (live : List Task) (pending : List SavedFrame)
    (r' : Run) : Prop where
  keeps : r.machine.Keeps r'.machine
  flatten : r'.flatten = r.flatten
  depth : r'.machine.depth = depth
  live : r'.live = live
  pending : r'.pending = pending

/-- **What work leads to.** -/
inductive Run.Yields (r : Run) (w : Work) : Step → Prop
  /-- The worker stays: it asks for something or has more to do. -/
  | stays {r' : Run} {c : Control} {t : Task} (h : r.Has w.depth (t :: w.live) w.pending r')
      (hc : c = .advance ∨ ∃ q, c = .request q) : Yields r w (.next r' c)
  /-- The worker is through, with its results or a tail call in the channel. -/
  | leaves {r' : Run} (h : r.Has w.depth.leave w.live w.pending r') : Yields r w (.next r' .settled)
  | fails {m : Machine} {e : Error} (keeps : r.machine.Keeps m)
      (depth : m.depth = w.depth.leaveMany w.level) : Yields r w (.done (.failed m e))
  /-- Only a routine suspends. Its own frame comes first, then those of all that waits. -/
  | suspends {m : Machine} {vs : List Value} {id : RoutineId} {phase : Nat} {locals : Locals}
      (keeps : r.machine.Keeps m) (depth : m.depth = w.depth.leaveMany w.level)
      (hid : w.routine? = some id) :
      Yields r w (.done (.suspended m
        ⟨.routine id phase locals :: w.live.filterMap Task.saved? ++ w.pending, vs⟩))
  | breaks {d : Defect} : Yields r w (.done (.broken d))

/-- What a step without work leads to. -/
inductive Run.Rests (r : Run) : Control → Step → Prop
  | goesOn {r' : Run} {c c' : Control} (h : r.Has r.machine.depth r.live r.pending r')
      (hc : (∃ q, c = .request q) ∨ c = .settled)
      (hc' : c' = .settled ∨ ∃ target args, c' = .invoke target args) : Rests r c (.next r' c')
  | fails {m : Machine} {e : Error} {c : Control} (keeps : r.machine.Keeps m)
      (depth : m.depth = r.machine.depth.leaveMany r.height) : Rests r c (.done (.failed m e))
  | ends {c : Control} (h : r.isBase = true) (hc : c = .advance ∨ c = .settled) :
      Rests r c (.done (.settled r.machine))

theorem Machine.Keeps.refl (m : Machine) : m.Keeps m := ⟨rfl, rfl, rfl⟩

theorem Machine.Keeps.trans {m m' m'' : Machine} (h : m.Keeps m') (h' : m'.Keeps m'') :
    m.Keeps m'' :=
  ⟨h'.limits.trans h.limits, h'.library.trans h.library, h'.globals.trans h.globals⟩

namespace Run

theorem Has.refl (r : Run) : r.Has r.machine.depth r.live r.pending r :=
  ⟨.refl _, rfl, rfl, rfl, rfl⟩

variable {r : Run} {w : Work} {c : Control}

theorem Has.during (r : Run) (w : Work) (s : Store) (n : Counters) :
    r.Has w.depth w.live w.pending (r.during w s n) :=
  ⟨⟨rfl, rfl, rfl⟩, rfl, rfl, rfl, rfl⟩

/-- Only a routine suspends, and its frame is its own. -/
theorem Does.suspends {s : Store} {values : List Value} {own : SavedFrame}
    (h : r.Does c w s (.suspends values own)) :
    ∃ id phase locals, w.routine? = some id ∧ own = .routine id phase locals := by
  have hreply {id : RoutineId} {reply : Reply} (h : Deed.ofReply id reply = .suspends values own) :
      ∃ phase locals, own = .routine id phase locals := by
    cases reply <;> cases h
    exact ⟨_, _, rfl⟩
  generalize hd : Deed.suspends values own = d at h
  cases h with
  | invokes hcallee hid hw hroutine h =>
    obtain ⟨phase, locals, rfl⟩ := hreply hd.symm
    exact ⟨_, phase, locals, hw, rfl⟩
  | resumes hw hroutine h =>
    obtain ⟨phase, locals, rfl⟩ := hreply hd.symm
    exact ⟨_, phase, locals, by rcases hw with hw | hw <;> simp [Work.routine?, hw], rfl⟩
  | @carriesOut w a st p hw h => cases p <;> cases hd
  | _ => cases hd

theorem Works.yields {s : Step} (h : r.Works c w s) : r.Yields w s := by
  cases h with
  | breaks => exact .breaks
  | @does s n d h =>
    have hhas := Has.during r w s n
    cases d with
    | goesOn a => exact .stays ⟨hhas.keeps, rfl, rfl, rfl, rfl⟩ (Or.inl rfl)
    | asks t q => exact .stays ⟨hhas.keeps, rfl, rfl, rfl, rfl⟩ (Or.inr ⟨q, rfl⟩)
    | leaves ch => exact .leaves ⟨⟨rfl, rfl, rfl⟩, rfl, rfl, rfl, rfl⟩
    | fails e => exact .fails ⟨rfl, rfl, rfl⟩ rfl
    | suspends values own =>
      obtain ⟨id, phase, locals, hid, rfl⟩ := h.suspends
      exact .suspends ⟨rfl, rfl, rfl⟩ rfl hid

theorem Idles.rests {s : Step} (h : r.Idles c s) : r.Rests c s := by
  cases h with
  | answers h =>
    exact .goesOn ⟨⟨rfl, rfl, rfl⟩, rfl, rfl, rfl, rfl⟩ (Or.inl ⟨_, rfl⟩) (Or.inl rfl)
  | handsOn h =>
    exact .goesOn ⟨⟨rfl, rfl, rfl⟩, rfl, rfl, rfl, rfl⟩ (Or.inl ⟨_, rfl⟩) (Or.inr ⟨_, _, rfl⟩)
  | tailCalls ht h =>
    exact .goesOn ⟨⟨rfl, rfl, rfl⟩, rfl, rfl, rfl, rfl⟩ (Or.inr rfl) (Or.inr ⟨_, _, rfl⟩)
  | refuses h => exact .fails ⟨rfl, rfl, rfl⟩ rfl
  | uncallable h => exact .fails ⟨rfl, rfl, rfl⟩ rfl
  | overflows hcallee h => exact .fails ⟨rfl, rfl, rfl⟩ rfl
  | ends hc hbase htail => exact .ends hbase hc

/-- **What work does to the stack.** -/
theorem yields_step (hw : r.work? c = some w) : r.Yields w (r.step c) := (works_step hw).yields

/-- **A step without work** leaves the stack as it is, or takes it down with an error, or is the
last with nothing on the stack. -/
theorem rests_step (hw : r.work? c = none) : r.Rests c (r.step c) := (idles_step hw).rests

/-- What no step changes. -/
theorem keeps_next {r' : Run} {c' : Control} (h : r.step c = .next r' c') :
    r.machine.Keeps r'.machine ∧ r'.flatten = r.flatten := by
  cases hw : r.work? c with
  | none =>
    have hrests := rests_step hw
    rw [h] at hrests
    cases hrests with
    | goesOn hhas _ _ => exact ⟨hhas.keeps, hhas.flatten⟩
  | some w =>
    have hyields := yields_step hw
    rw [h] at hyields
    cases hyields with
    | stays hhas _ => exact ⟨hhas.keeps, hhas.flatten⟩
    | leaves hhas => exact ⟨hhas.keeps, hhas.flatten⟩

/-- Only a task carries out instructions and makes requests. -/
theorem live_next {r' : Run} {c' : Control} (h : r.step c = .next r' c')
    (hc' : c' = .advance ∨ ∃ q, c' = .request q) : r'.live ≠ [] := by
  cases hw : r.work? c with
  | none =>
    have hrests := rests_step hw
    rw [h] at hrests
    cases hrests with
    | goesOn _ _ hidle => rcases hc' with rfl | ⟨q, rfl⟩ <;> simp at hidle
  | some w =>
    have hyields := yields_step hw
    rw [h] at hyields
    cases hyields with
    | stays hhas _ =>
      rw [hhas.live]
      exact List.cons_ne_nil _ _
    | leaves hhas => simp at hc'

/-! ### Frames that go on -/

/-- The frames that have still not gone on when a step is under way. -/
def remaining (r : Run) (c : Control) : List SavedFrame :=
  match r.work? c with
  | some w => w.pending
  | none => r.pending

/-- Who is at work has been taken off the stack, or was not on it. -/
theorem live_of_nextWork (h : r.nextWork? = some w) :
    (∃ t, w.worker = .task t ∧ r.live = t :: w.live) ∨
      ∃ f, w.worker = .frame f ∧ r.live = [] ∧ w.live = [] := by
  obtain ⟨m, live, pending, flatten⟩ := r
  cases live with
  | cons t rest => cases h; exact Or.inl ⟨t, rfl, rfl⟩
  | nil =>
    cases pending with
    | cons f rest => cases h; exact Or.inr ⟨f, rfl, rfl, rfl⟩
    | nil => cases h

theorem pending_of_nextWork (h : r.nextWork? = some w) :
    r.pending = w.frame?.toList ++ w.pending := by
  obtain ⟨m, live, pending, flatten⟩ := r
  cases live with
  | cons t rest => cases h; rfl
  | nil =>
    cases pending with
    | cons f rest => cases h; rfl
    | nil => cases h

theorem pending_of_work {c : Control} (h : r.work? c = some w) :
    r.pending = w.frame?.toList ++ w.pending := by
  cases c with
  | request q => cases h
  | invoke target args =>
    simp only [work?] at h
    split at h
    · cases h; rfl
    · cases h
  | advance => exact pending_of_nextWork h
  | settled =>
    simp only [work?] at h
    split at h
    · cases h
    · exact pending_of_nextWork h

theorem pending_step (r : Run) (c : Control) :
    r.pending = (r.work? c).toList.filterMap Work.frame? ++ r.remaining c := by
  unfold remaining
  cases hw : r.work? c with
  | none => rfl
  | some w =>
    rw [pending_of_work hw]
    cases hf : w.frame? <;> simp [hf]

/-- **The frames that a step leaves** are those that are pending next. -/
theorem pending_next {r' : Run} {c c' : Control} (h : r.step c = .next r' c') :
    r'.pending = r.remaining c := by
  unfold remaining
  cases hw : r.work? c with
  | none =>
    have hrests := rests_step hw
    rw [h] at hrests
    cases hrests with
    | goesOn hhas => exact hhas.pending
  | some w =>
    have hyields := yields_step hw
    rw [h] at hyields
    cases hyields with
    | stays hhas => exact hhas.pending
    | leaves hhas => exact hhas.pending

/-- **Pending frames go on in order**: at every moment, those that have gone on are the first of
those that were pending, and the others are still there. -/
theorem pending_eq {fuel : Nat} {r' : Run} {c' : Control} :
    ∀ {r : Run} {c : Control}, (r.moments fuel c).getLast? = some (r', c') →
      r.pending = (r.works fuel c).filterMap Work.frame? ++ r'.remaining c' := by
  induction fuel with
  | zero => intro r c h; cases h
  | succ fuel ih =>
    intro r c h
    have hstep := pending_step r c
    cases hs : r.step c with
    | next r₁ c₁ =>
      rw [moments_next hs, List.getLast?_cons] at h
      rw [works_next hs, List.filterMap_append, List.append_assoc]
      cases hlast : (r₁.moments fuel c₁).getLast? with
      | some p =>
        rw [hlast] at h
        cases h
        rw [← ih hlast, pending_next hs]
        exact hstep
      | none =>
        -- No fuel is left, and the step itself is the last moment.
        rw [hlast] at h
        cases h
        rw [works, List.getLast?_eq_none_iff.mp hlast]
        exact hstep
    | done o =>
      rw [moments_done hs] at h
      cases h
      rw [works_done hs]
      exact hstep

end Run

end ResumableVM
