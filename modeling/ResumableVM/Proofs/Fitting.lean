import ResumableVM.Proofs.Parked
import ResumableVM.Proofs.Suspensions

/-! # Fitting: a suspended stack takes as many levels as before

Under the standard library every task that waits leaves exactly one frame: a procedure waits only
after an instruction that asks, and code with such an instruction has a resumption table
(`Run.Kept`). So a signal has as many frames as the routine that suspended was levels deep, and each
frame stands as high as its task did when it asked (`saves_of_kept`). A resumption enters as many
levels again, and each frame goes on as deep as it stands (`suspended_stack_fits`). -/

namespace ResumableVM

/-- Compiled code is all that the routine makes closures of. -/
structure Routine.KeepsCompiled (r : Routine) : Prop where
  invoke : ∀ {st args st' reply}, st.Compiled → r.invoke st args = .ok (st', reply) → st'.Compiled
  resume : ∀ {st received phase locals st' reply}, st.Compiled →
    r.resume st received phase locals = .ok (st', reply) → st'.Compiled

/-- All routines of the library are such. -/
def Library.KeepsCompiled (l : Library) : Prop :=
  ∀ {id r}, l.find? id = some r → r.KeepsCompiled

theorem Routine.keepsCompiled_pause : pause.KeepsCompiled where
  invoke hst h := by cases h; exact hst
  resume {st received phase locals st' reply} hst h := by
    simp only [pause] at h
    split at h
    · cases h
    · split at h <;> cases h
      exact hst

theorem Routine.Prompt.keepsCompiled {r : Routine} (h : r.Prompt) : r.KeepsCompiled where
  invoke hst hr := (h.invoke _ _ _ _ hr).2 hst
  resume hst hr := (h.resume _ _ _ _ _ _ hr).2 hst

theorem keepsCompiled_standard : Library.standard.KeepsCompiled := by
  intro id r h
  by_cases hid : id = ⟨9⟩
  · subst hid
    obtain rfl : Routine.pause = r :=
      Option.some.inj (Routine.pausesOnlyAt_standard.pause.symm.trans h)
    exact Routine.keepsCompiled_pause
  · exact (Routine.pausesOnlyAt_standard.others hid h).keepsCompiled

/-- The frame belongs to compiled code, or to a routine. -/
def SavedFrame.Compiled : SavedFrame → Prop
  | .compiled closure _ => closure.code.Compiled
  | .routine _ _ _ => True

/-- The code of a task is compiled. -/
def Task.Compiled : Task → Prop
  | .compiled a => a.closure.code.Compiled
  | .waiting _ _ _ => True

/-- What a deed leaves on top of the stack is a call of compiled code, or a task that is saved as it
waits. -/
def Deed.Compiled : Deed → Prop
  | .goesOn a => a.closure.code.Compiled
  | .asks t _ => t.Compiled ∧ t.saved? = some t.frame
  | .leaves _ | .suspends _ _ | .fails _ => True

namespace Run

/-- The tasks that wait before a step: the innermost does not when it is about to carry out an
instruction. -/
def waiting (r : Run) : Control → List Task
  | .advance => r.live.tail
  | _ => r.live

/-- **All code is compiled, and every task that waits leaves its frame.** -/
structure Kept (r : Run) (c : Control) : Prop where
  store : r.machine.store.Compiled
  library : r.machine.library.KeepsCompiled
  live : ∀ t ∈ r.live, t.Compiled
  pending : ∀ f ∈ r.pending, f.Compiled
  waiting : ∀ t ∈ r.waiting c, t.saved? = some t.frame

end Run

/-- The step leads to such a run, or ends with a compiled store. -/
def Step.Kept : Step → Prop
  | .next r c => r.Kept c
  | .done o => ∀ m, o.machine? = some m → m.store.Compiled

namespace Run

variable {r r' : Run} {w : Work} {c c' : Control}

/-- The tasks below a worker have waited before; when a frame goes on there are none. -/
theorem live_of_work (h : r.work? c = some w) :
    w.live <:+ r.waiting c ∧ w.live <:+ r.live ∧ (∀ t, w.worker = .task t → t ∈ r.live) ∧
      ∀ f, w.worker = .frame f → w.live = [] := by
  have hnext (hc : r.live.tail <:+ r.waiting c) (h : r.nextWork? = some w) :
      w.live <:+ r.waiting c ∧ w.live <:+ r.live ∧ (∀ t, w.worker = .task t → t ∈ r.live) ∧
        ∀ f, w.worker = .frame f → w.live = [] := by
    rcases live_of_nextWork h with ⟨t, ht, hlive⟩ | ⟨f, hf, -, hlive⟩
    · rw [hlive] at hc ⊢
      refine ⟨hc, List.suffix_cons _ _, fun t' ht' => ?_, by simp [ht]⟩
      rw [ht] at ht'
      cases ht'
      exact List.mem_cons_self
    · rw [hlive, hf]
      exact ⟨List.nil_suffix, List.nil_suffix, by simp, fun _ _ => rfl⟩
  cases c with
  | request q => cases h
  | invoke target args =>
    simp only [work?] at h
    split at h
    · cases h; exact ⟨List.suffix_rfl, List.suffix_rfl, by simp, by simp⟩
    · cases h
  | advance => exact hnext List.suffix_rfl h
  | settled =>
    simp only [work?] at h
    split at h
    · cases h
    · exact hnext (List.tail_suffix _) h

theorem Kept.worker (h : r.Kept c) (hw : r.work? c = some w) :
    (∀ t, w.worker = .task t → t.Compiled) ∧ (∀ f, w.worker = .frame f → f.Compiled) ∧
      (∀ t ∈ w.live, t.Compiled ∧ t.saved? = some t.frame) ∧ ∀ f ∈ w.pending, f.Compiled := by
  obtain ⟨hwaiting, hlive, htask, -⟩ := live_of_work hw
  have hpending := pending_of_work hw
  refine ⟨fun t ht => h.live t (htask t ht), fun f hf => h.pending f ?_,
    fun t ht => ⟨h.live t (hlive.subset ht), h.waiting t (hwaiting.subset ht)⟩,
    fun f hf => h.pending f ?_⟩
  · rw [hpending, Work.frame?_eq_some_iff.mpr hf]
    exact List.mem_cons_self
  · rw [hpending]
    exact List.mem_append_right _ hf

/-- Every live task below a worker leaves its frame. -/
theorem Kept.saved (h : r.Kept c) (hw : r.work? c = some w) :
    w.live.filterMap Task.saved? = w.live.map Task.frame :=
  List.filterMap_eq_map_iff_forall_eq_some.mpr fun t ht => ((h.worker hw).2.2.1 t ht).2

theorem compiled_ofReply (id : RoutineId) (reply : Reply) : (Deed.ofReply id reply).Compiled := by
  cases reply with
  | asks q phase locals => exact ⟨trivial, rfl⟩
  | _ => trivial

/-- **What a worker does keeps all code compiled.** -/
theorem Kept.does {st : Store} {d : Deed} (h : r.Kept c) (hw : r.work? c = some w)
    (hd : r.Does c w st d) : st.Compiled ∧ d.Compiled := by
  obtain ⟨htask, hframe, -, -⟩ := h.worker hw
  cases hd with
  | starts hcallee hid => exact ⟨h.store, h.store.closure _⟩
  | invokes hcallee hid hw' hroutine hinvoke =>
    exact ⟨(h.library hroutine).invoke h.store hinvoke, compiled_ofReply _ _⟩
  | turns hworker => exact ⟨h.store, htask _ hworker⟩
  | @carriesOut _ a st p hworker hadvance =>
    obtain ⟨hst, hruns, hasks⟩ := Activation.compiled_advance (htask _ hworker) h.store hadvance
    refine ⟨hst, ?_⟩
    cases p with
    | runs a' => exact hruns a' rfl
    | asks a' q =>
      have hresumable : (Task.compiled a').Restorable ⟨0⟩ := hasks a' q rfl
      exact ⟨(hasks a' q rfl).code, hresumable.saved?⟩
    | _ => trivial
  | revives hworker hpc => exact ⟨h.store, hframe _ hworker⟩
  | resumes hworker hroutine hresume =>
    exact ⟨(h.library hroutine).resume h.store hresume, compiled_ofReply _ _⟩
  | missing hid hnone => exact ⟨h.store, trivial⟩

theorem Kept.works {s : Step} (h : r.Kept c) (hw : r.work? c = some w) (hs : r.Works c w s) :
    s.Kept := by
  obtain ⟨-, -, hlive, hpending⟩ := h.worker hw
  have hcodes := fun t ht => (hlive t ht).1
  have hsaved := fun t ht => (hlive t ht).2
  cases hs with
  | breaks => intro m hm; cases hm
  | @does st n d hd =>
    obtain ⟨hst, hdeed⟩ := h.does hw hd
    cases d with
    | goesOn a =>
      exact ⟨hst, h.library, List.forall_mem_cons.mpr ⟨hdeed, hcodes⟩, hpending, hsaved⟩
    | asks t q =>
      exact ⟨hst, h.library, List.forall_mem_cons.mpr ⟨hdeed.1, hcodes⟩, hpending,
        List.forall_mem_cons.mpr ⟨hdeed.2, hsaved⟩⟩
    | leaves ch => exact ⟨hst, h.library, hcodes, hpending, hsaved⟩
    | suspends values own | fails e => intro m hm; cases hm; exact hst

theorem Kept.idles {s : Step} (h : r.Kept c) (hs : r.Idles c s) : s.Kept := by
  have hwaiting (hc : c ≠ .advance) : ∀ t ∈ r.live, t.saved? = some t.frame := by
    intro t ht
    refine h.waiting t ?_
    cases c with
    | advance => exact absurd rfl hc
    | _ => exact ht
  cases hs with
  | answers hresolve | handsOn hresolve | tailCalls ht hgoes =>
    exact ⟨h.store, h.library, h.live, h.pending, hwaiting (by simp)⟩
  | refuses hresolve | uncallable hcallee | overflows hcallee hdepth | ends hc hbase htail =>
    intro m hm
    cases hm
    exact h.store

/-- **A step keeps all this.** -/
theorem Kept.step (h : r.Kept c) : (r.step c).Kept := by
  cases hw : r.work? c with
  | some w => exact h.works hw (works_step hw)
  | none => exact h.idles (idles_step hw)

theorem Kept.next (h : r.Kept c) (hs : r.step c = .next r' c') : r'.Kept c' := by
  have := h.step
  rwa [hs] at this

/-! ### Who waits has asked -/

/-- The run comes to this moment. -/
inductive Reaches (r : Run) (c : Control) : Run → Control → Prop
  | refl : Reaches r c r c
  | step {r' r'' : Run} {c' c'' : Control} (h : Reaches r c r' c')
      (hs : r'.step c' = .next r'' c'') : Reaches r c r'' c''

/-- The run has come to a moment at which the task asked, with the same levels below it. -/
def Asked (r : Run) (c : Control) (t : Task) (live : List Task) (pending : List SavedFrame) :
    Prop :=
  ∃ r' c' w st q, r.Reaches c r' c' ∧ r'.work? c' = some w ∧ r'.Does c' w st (.asks t q) ∧
    w.live = live ∧ w.pending = pending

/-- Every task that waits has asked. -/
def AllAsked (r : Run) (c : Control) (r' : Run) (c' : Control) : Prop :=
  r.Reaches c r' c' ∧ ∀ t below, t :: below <:+ r'.waiting c' → r.Asked c t below r'.pending

/-- A worker that is no frame leaves all frames pending. -/
theorem pending_of_live (h : r.work? c = some w) (hlive : w.live ≠ []) : w.pending = r.pending := by
  obtain ⟨-, -, -, hframe⟩ := live_of_work h
  have hnone : w.frame? = none :=
    Option.eq_none_iff_forall_not_mem.mpr fun f hf =>
      hlive (hframe f (Work.frame?_eq_some_iff.mp hf))
  rw [pending_of_work h, hnone]
  rfl

theorem AllAsked.works {r₀ : Run} {c₀ : Control} {s : Step} (h : AllAsked r₀ c₀ r c)
    (hw : r.work? c = some w) (hstep : r.step c = s) (hs : r.Works c w s) :
    ∀ r' c', s = .next r' c' → AllAsked r₀ c₀ r' c' := by
  obtain ⟨hreach, hasked⟩ := h
  -- Those who waited before have still asked.
  have hold (t : Task) (below : List Task) (h : t :: below <:+ w.live) :
      r₀.Asked c₀ t below w.pending := by
    have hne : w.live ≠ [] := by
      rintro hnil
      simp [hnil] at h
    rw [pending_of_live hw hne]
    exact hasked t below (h.trans (live_of_work hw).1)
  rintro r' c' rfl
  refine ⟨.step hreach hstep, ?_⟩
  generalize hnext : Step.next r' c' = s at hs
  cases hs with
  | breaks => cases hnext
  | @does st n d hd =>
    cases d with
    | goesOn a => cases hnext; exact hold
    | asks t q =>
      cases hnext
      intro t' below hsuffix
      rcases List.suffix_cons_iff.mp hsuffix with heq | hsuffix
      · cases heq
        exact ⟨r, c, w, st, q, hreach, hw, hd, rfl, rfl⟩
      · exact hold t' below hsuffix
    | leaves ch => cases hnext; exact hold
    | suspends values own | fails e => cases hnext

theorem AllAsked.next {r₀ : Run} {c₀ : Control} (h : AllAsked r₀ c₀ r c)
    (hs : r.step c = .next r' c') : AllAsked r₀ c₀ r' c' := by
  cases hw : r.work? c with
  | some w => exact h.works hw rfl (works_step hw) r' c' hs
  | none =>
    have hrests := rests_step hw
    rw [hs] at hrests
    cases hrests with
    | goesOn hhas hc hc' =>
      refine ⟨.step h.1 hs, ?_⟩
      rw [hhas.pending]
      have hwaiting : r'.waiting c' = r.waiting c := by
        have hbefore : r.waiting c = r.live := by rcases hc with ⟨q, rfl⟩ | rfl <;> rfl
        rw [hbefore, ← hhas.live]
        rcases hc' with rfl | ⟨target, args, rfl⟩ <;> rfl
      rw [hwaiting]
      exact h.2

/-- **Every task that waits below a worker has asked.** -/
theorem asked_of_moment {fuel : Nat} (hlive : r.live = [])
    {p : Run × Control} (hp : p ∈ r.moments fuel c) : AllAsked r c p.1 p.2 := by
  refine moments_induction (P := AllAsked r c) AllAsked.next ⟨.refl, ?_⟩ p hp
  intro t below h
  have hnil : r.waiting c = [] := by cases c <;> simp [waiting, hlive]
  simp [hnil] at h

/-! ### Suspensions -/

/-- **How a run saves its stack.** At its last moment a routine is at work. The signal has the frame
of that routine, one frame of each live task, and the frames that were pending; it has as many
frames as the routine is deep, and each live task has asked as deep as its frame stands. -/
def Saves (r : Run) (fuel : Nat) (c : Control) (s : Signal) : Prop :=
  ∃ r' c' w id phase locals, (r.moments fuel c).getLast? = some (r', c') ∧
    r'.work? c' = some w ∧ w.routine? = some id ∧
    s.frames = .routine id phase locals :: (w.live.map Task.frame ++ w.pending) ∧
    w.depth.current = s.frames.length ∧ w.pending <:+ r.pending ∧
    ∀ t below, t :: below <:+ w.live → ∃ r₁ c₁ w₁ st q, r.Reaches c r₁ c₁ ∧
      r₁.work? c₁ = some w₁ ∧ r₁.Does c₁ w₁ st (.asks t q) ∧
      w₁.depth.current = (t.frame :: (below.map Task.frame ++ w.pending)).length

theorem Reaches.keeps {P : Run → Control → Prop} (h : r.Reaches c r' c') (h₀ : P r c)
    (hstep : ∀ {r c r' c'}, P r c → r.step c = .next r' c' → P r' c') : P r' c' := by
  induction h with
  | refl => exact h₀
  | step _ hs ih => exact hstep ih hs

theorem remaining_suffix (r : Run) (c : Control) : r.remaining c <:+ r.pending :=
  ⟨_, (pending_step r c).symm⟩

/-- Pending frames are the outermost of those that were pending. -/
theorem pending_suffix {fuel : Nat} {p : Run × Control} (hp : p ∈ r.moments fuel c) :
    p.1.pending <:+ r.pending := by
  refine moments_induction (P := fun r' _ => r'.pending <:+ r.pending) (fun h hs => ?_)
    List.suffix_rfl p hp
  rw [pending_next hs]
  exact (remaining_suffix _ _).trans h

/-- **A suspension saves the whole stack**, if all code is compiled. -/
theorem saves_of_kept {fuel limit : Nat} {m : Machine} {s : Signal} (h : r.Kept c)
    (hlevel : r.Level 0 limit c) (hlimit : r.machine.limits.maxCallDepth = limit)
    (hlive : r.live = []) (hs : r.run fuel c = some (.suspended m s)) :
    r.Saves fuel c s ∧ ∀ f ∈ s.frames, f.Compiled := by
  obtain ⟨r', c', w, id, phase, locals, hlast, hw, hid, hframes⟩ := suspends_of_run hs
  have hmem := List.mem_of_getLast? hlast
  have hkept := moments_induction (P := Run.Kept) Kept.next h _ hmem
  obtain ⟨-, -, htasks, hpending⟩ := hkept.worker hw
  rw [hkept.saved hw, List.cons_append] at hframes
  have hdeep : r.Deep 0 := hlevel.depth
  have hwork := ((level_moments hdeep hlimit hlevel.bound _ hmem).work w hw).1
  refine ⟨⟨r', c', w, id, phase, locals, hlast, hw, hid, hframes, ?_, ?_, ?_⟩, ?_⟩
  · rw [hwork, hframes]
    simp [Work.level]
  · have hremaining : w.pending = r'.remaining c' := by simp [remaining, hw]
    rw [hremaining]
    exact (remaining_suffix _ _).trans (pending_suffix hmem)
  · intro t below hsuffix
    have hne : w.live ≠ [] := by
      rintro hnil
      simp [hnil] at hsuffix
    obtain ⟨r₁, c₁, w₁, st, q, hreach, hw₁, hdoes, hbelow, hpending₁⟩ :=
      (asked_of_moment hlive hmem).2 t below (hsuffix.trans (live_of_work hw).1)
    refine ⟨r₁, c₁, w₁, st, q, hreach, hw₁, hdoes, ?_⟩
    have hlevel₁ := hreach.keeps (P := fun r c => r.Deep 0) hdeep deep_next
    have hplaces := (places_of_work hw₁).level
    unfold Deep at hlevel₁
    have hsame := pending_of_live hw hne
    simp only [Work.level, hbelow, hpending₁] at hplaces
    simp only [List.length_cons, List.length_append, List.length_map, hsame]
    omega
  · rw [hframes]
    refine List.forall_mem_cons.mpr ⟨trivial, fun f hf => ?_⟩
    rcases List.mem_append.mp hf with hf | hf
    · obtain ⟨t, ht, rfl⟩ := List.mem_map.mp hf
      have := (htasks t ht).1
      cases t <;> exact this
    · exact hpending f hf

end Run

/-! ### Service -/

section Service

variable {l : Library} {limits : Limits} {m m' : Machine} {signals : List Signal}

/-- Between host calls all code is compiled, that of the signals too. -/
structure Machine.Kept (m : Machine) (signals : List Signal) : Prop where
  store : m.store.Compiled
  library : m.library.KeepsCompiled
  signals : ∀ s ∈ signals, ∀ f ∈ s.frames, f.Compiled

theorem Machine.Kept.perform (h : m.Kept signals) (flatten : Bool) (c : Control) :
    Run.Kept ⟨m, [], [], flatten⟩ c :=
  ⟨h.store, h.library, by simp, by simp, by cases c <;> simp [Run.waiting]⟩

theorem Machine.Kept.resumed (h : m.Kept signals) {s : Signal} (hs : s ∈ signals)
    (values : List Value) : (m.resumed s values).Kept .settled :=
  ⟨h.store, h.library, by simp [Machine.resumed], h.signals s hs,
    by simp [Run.waiting, Machine.resumed]⟩

/-- **What a run leaves is compiled.** -/
theorem Run.kept_of_leaves {r : Run} {c : Control} {fuel limit : Nat} {o : Outcome}
    {new : List Signal} (h : r.Kept c) (hlevel : r.Level 0 limit c)
    (hlimit : r.machine.limits.maxCallDepth = limit) (hlive : r.live = [])
    (ho : r.run fuel c = some o) (hl : o.answer.Leaves m' new) : m'.Kept new := by
  obtain ⟨m₁, channel, hm, rfl, hsignals⟩ := Machine.machine_of_leaves hl
  obtain ⟨r', c', hlast, hdone⟩ := Run.last_of_run ho
  have hkept := (moments_induction (P := Run.Kept) Kept.next h _ (List.mem_of_getLast? hlast)).step
  rw [hdone] at hkept
  refine ⟨hkept m₁ hm, ?_, fun s hs => ?_⟩
  · show m₁.library.KeepsCompiled
    rw [(keeps_run ho hm).library]
    exact h.library
  · rw [hsignals s hs] at ho
    exact (saves_of_kept h hlevel hlimit hlive ho).2

theorem Machine.Kept.append {new : List Signal} (h : m.Kept signals) (h' : m'.Kept new) :
    m'.Kept (new ++ signals) := by
  refine ⟨h'.store, h'.library, fun s hs => ?_⟩
  rcases List.mem_append.mp hs with hs | hs
  · exact h'.signals s hs
  · exact h.signals s hs

/-- An operation begins as deep as nothing is called. -/
theorem Machine.level_perform (h : m.depth.current = 0) (flatten : Bool) (c : Control) :
    Run.Level 0 m.limits.maxCallDepth ⟨m, [], [], flatten⟩ c :=
  Run.level_of_deep (r := ⟨m, [], [], flatten⟩) h rfl (by show m.depth.current ≤ _; omega) c

theorem Machine.level_resumed (h : m.depth.current = 0) {s : Signal} (hroom : m.hasRoom s = true)
    (values : List Value) : (m.resumed s values).Level 0 m.limits.maxCallDepth .settled := by
  obtain ⟨hdeep, hbound, -⟩ := deep_resumed hroom values
  rw [h] at hdeep hbound
  exact Run.level_of_deep hdeep rfl hbound _

/-- **A frame that goes on is as deep as it stands**: its depth is the number of frames from it on. -/
theorem Run.depth_of_frame {s : Signal} {values : List Value} {fuel limit : Nat} {w : Work}
    {f : SavedFrame} (hlevel : (m.resumed s values).Level 0 limit .settled)
    (hlimit : m.limits.maxCallDepth = limit) (hw : w ∈ (m.resumed s values).works fuel .settled)
    (hf : w.frame? = some f) :
    f :: w.pending <:+ s.frames ∧ w.depth.current = (f :: w.pending).length := by
  obtain ⟨p, hp, hwork⟩ := Run.mem_works.mp hw
  have hpending : p.1.pending = f :: w.pending := by
    rw [Run.pending_of_work hwork, hf]
    rfl
  have hsuffix : p.1.pending <:+ s.frames := Run.pending_suffix hp
  have hlive := (Run.live_of_work hwork).2.2.2 f (Work.frame?_eq_some_iff.mp hf)
  have hdeep : (m.resumed s values).Deep 0 := hlevel.depth
  have hdepth := ((Run.level_moments hdeep hlimit hlevel.bound _ hp).work w hwork).1
  refine ⟨hpending ▸ hsuffix, ?_⟩
  rw [hdepth, Work.level, hlive]
  simp

theorem Outcome.suspended_of_answer {o : Outcome} {s : Signal} (h : o.answer = .suspended m s) :
    o = .suspended m s := by
  cases o with
  | suspended m' s' => cases h; rfl
  | _ => cases h

/-- **Whatever a host does, all code stays compiled.** -/
theorem Service.kept (h : Service l limits m signals) (hl : l.KeepsCompiled) :
    m.Kept signals := by
  induction h with
  | begins =>
    refine ⟨fun c hc => ?_, hl, by simp⟩
    have hnone : (Machine.withLibrary limits l).store.closures = #[] := rfl
    simp [hnone] at hc
  | instantiates _ hp hm ih =>
    obtain ⟨hkeeps, -, upvalues, hsame⟩ := Machine.instantiate_eq hm
    have hclosures := hsame.closures
    refine ⟨fun c hc => ?_, by rw [hkeeps.library]; exact ih.library, ih.signals⟩
    rw [hclosures] at hc
    rcases Array.mem_push.mp hc with hc | rfl
    · exact ih.store c hc
    · exact ⟨_, hp⟩
  | edits _ hst ih => exact ⟨ih.store.of_eq hst, ih.library, ih.signals⟩
  | @performs m m' signals new fuel flatten c o h ho hleaves ih =>
    exact ih.append (Run.kept_of_leaves (ih.perform flatten c)
      (Machine.level_perform (Machine.depth_of_service h) flatten c) rfl rfl ho hleaves)
  | @resumes m m' signals new fuel s values a h hmem hr hleaves ih =>
    have hroom := h.hasRoom hmem
    rw [Machine.resume_of_hasRoom hroom] at hr
    obtain ⟨o, ho, rfl⟩ := Option.map_eq_some_iff.mp hr
    exact ih.append (Run.kept_of_leaves (ih.resumed hmem values)
      (Machine.level_resumed (Machine.depth_of_service h) hroom values) rfl rfl ho hleaves)

end Service

/-- **A suspended stack always fits back.** Under the standard library, whatever has been done with
a machine: a run that suspends saves its stack, with as many frames as the routine that suspended
was deep and each frame as high as its task was; every signal has at least one frame and no more
than the limit allows; and a resumption enters as many levels as the signal has frames without an
overflow, goes on with the innermost frame at that depth, and with every other one as deep as it
stands. -/
theorem suspended_stack_fits {limits : Limits} {m : Machine} {signals : List Signal}
    (h : Service .standard limits m signals) :
    (∀ {fuel flatten c m' s}, m.perform fuel flatten c = some (.suspended m' s) →
      Run.Saves ⟨m, [], [], flatten⟩ fuel c s) ∧
    (∀ {fuel callable args m' s}, m.start fuel callable args = some (.suspended m' s) →
      Run.Saves ⟨{ m with channel := m.channel.reset }, [], [], true⟩ fuel (.invoke callable args)
        s) ∧
    (∀ s₀ ∈ signals, ∀ {fuel values m' s}, m.resume fuel s₀ values = some (.suspended m' s) →
      (m.resumed s₀ values).Saves fuel .settled s) ∧
    ∀ s ∈ signals, 1 ≤ s.frames.length ∧ s.frames.length ≤ limits.maxCallDepth ∧ ∀ values,
      (m.resumed s values).machine.depth.current = s.frames.length ∧
      (∃ f rest, s.frames = f :: rest ∧ (m.resumed s values).work? .settled =
        some ⟨.frame f, (m.resumed s values).machine.depth, [], rest⟩) ∧
      ∀ fuel, m.resume fuel s values =
          ((m.resumed s values).run fuel .settled).map Outcome.answer ∧
        ∀ w ∈ (m.resumed s values).works fuel .settled, ∀ f, w.frame? = some f →
          f :: w.pending <:+ s.frames ∧ w.depth.current = (f :: w.pending).length := by
  have hkept := h.kept keepsCompiled_standard
  have hzero := Machine.depth_of_service h
  have hperform {m : Machine} {signals : List Signal} (hkept : m.Kept signals)
      (hzero : m.depth.current = 0) {fuel : Nat} {flatten : Bool} {c : Control} {m' : Machine}
      {s : Signal} (hs : m.perform fuel flatten c = some (.suspended m' s)) :
      Run.Saves ⟨m, [], [], flatten⟩ fuel c s :=
    (Run.saves_of_kept (hkept.perform flatten c) (Machine.level_perform hzero flatten c) rfl rfl
      hs).1
  refine ⟨hperform hkept hzero, fun {fuel callable args m' s} hs => ?_,
    fun s₀ hs₀ {fuel values m' s} hs => ?_, fun s hs => ?_⟩
  · obtain ⟨o, ho, hanswer⟩ := Option.map_eq_some_iff.mp hs
    rw [Outcome.suspended_of_answer hanswer] at ho
    have hreset : Machine.Kept { m with channel := m.channel.reset } signals :=
      ⟨hkept.store, hkept.library, hkept.signals⟩
    exact hperform hreset hzero ho
  · have hroom := h.hasRoom hs₀
    rw [Machine.resume_of_hasRoom hroom] at hs
    obtain ⟨o, ho, hanswer⟩ := Option.map_eq_some_iff.mp hs
    rw [Outcome.suspended_of_answer hanswer] at ho
    exact (Run.saves_of_kept (hkept.resumed hs₀ values)
      (Machine.level_resumed hzero hroom values) rfl rfl ho).1
  · have hroom := h.hasRoom hs
    obtain ⟨hne, hle⟩ := h.fits s hs
    obtain ⟨f, rest, hframes⟩ := List.exists_cons_of_ne_nil hne
    refine ⟨List.length_pos_iff.mpr hne, hle, fun values => ?_⟩
    have hlevel := Machine.level_resumed hzero hroom values
    refine ⟨?_, ⟨f, rest, hframes, Run.work_resumed hframes values⟩, fun fuel =>
      ⟨Machine.resume_of_hasRoom hroom fuel values, fun w hw f hf =>
        Run.depth_of_frame hlevel rfl hw hf⟩⟩
    rw [hlevel.depth]
    simp [Run.height, Machine.resumed]

/-- A call that suspends in `pause`, two levels deep, and is resumed there. -/
theorem suspended_stack_fits_relay :
    Service .standard .standard .relaying [] ∧ ∃ m s, Service .standard .standard m [s] ∧
      Run.Saves ⟨{ Machine.relaying with channel := Machine.relaying.channel.reset }, [], [], true⟩
        20 (.invoke (.closure ⟨0⟩) [.routine ⟨9⟩]) s ∧
      s.frames.length = 2 ∧ ∀ values, (m.resumed s values).machine.depth.current = 2 := by
  obtain ⟨m, s, hstart, hlength⟩ : ∃ m s,
      Machine.relaying.start 20 (.closure ⟨0⟩) [.routine ⟨9⟩] = some (.suspended m s) ∧
        s.frames.length = 2 := ⟨_, _, rfl, rfl⟩
  have h : Service .standard .standard m [s] := Service.relaying.starts hstart .suspended
  obtain ⟨-, hsaves, -⟩ := suspended_stack_fits Service.relaying
  obtain ⟨-, -, -, hfits⟩ := suspended_stack_fits h
  obtain ⟨-, -, hresumed⟩ := hfits s (List.mem_singleton_self s)
  exact ⟨Service.relaying, m, s, h, hsaves hstart, hlength, fun values => by
    rw [(hresumed values).1, hlength]⟩

end ResumableVM
