import ResumableVM.Proofs.Nesting
import ResumableVM.Proofs.Service
import ResumableVM.Proofs.Transparency

/-! # CallDepth: the depth of calls is balanced and bounded

On a machine that was `d` calls deep when an operation began, whoever is at work while `k` levels of
the operation wait below runs at depth `d + k + 1` (`level_moments`), and every way to end an
operation leaves all of its levels again (`balanced_run`). The high-water mark of an operation is
the largest depth at which a function has started, and the limit bounds it (`highWater_run`).

A call with tail calls is a `Chain` of single invocations, each of which starts where the first did
(`chain_of_call`): its high-water mark is the largest among the links. -/

namespace ResumableVM

namespace CallDepth

/-- A function runs one level deeper, within the limit. -/
theorem of_enter? {d e : CallDepth} {limit : Nat} (h : d.enter? limit = some e) :
    e.current = d.current + 1 ∧ e.current ≤ limit ∧ e.highWater = max d.highWater e.current := by
  unfold enter? at h
  split at h
  · cases h
    exact ⟨rfl, by assumption, rfl⟩
  · cases h

/-- Of the levels that are wanted, as many are entered as fit. -/
theorem enterMany_eq (limit : Nat) : ∀ (n : Nat) (d : CallDepth), ∃ k ≤ n,
    (d.enterMany limit n).1.current = d.current + k ∧
    ((d.enterMany limit n).2 = true ↔ k = n) ∧
    (d.enterMany limit n).1.current ≤ max d.current limit ∧
    (d.enterMany limit n).1.highWater ≤ max d.highWater limit
  | 0, d => ⟨0, le_rfl, rfl, by simp [enterMany], le_max_left _ _, le_max_left _ _⟩
  | n + 1, d => by
    unfold enterMany
    cases h : d.enter? limit with
    | none => exact ⟨0, by omega, rfl, by simp, le_max_left _ _, le_max_left _ _⟩
    | some e =>
      obtain ⟨hcurrent, hlimit, hmark⟩ := of_enter? h
      obtain ⟨k, hk, hdepth, hfits, hbound, hwater⟩ := enterMany_eq limit n e
      refine ⟨k + 1, by omega, ?_, ?_, ?_, ?_⟩
      · show (e.enterMany limit n).1.current = _
        omega
      · show (e.enterMany limit n).2 = true ↔ _
        rw [hfits]
        omega
      · show (e.enterMany limit n).1.current ≤ _
        omega
      · show (e.enterMany limit n).1.highWater ≤ _
        omega

/-- Levels for which there is room are all entered. -/
theorem enterMany_fits {limit : Nat} : ∀ {n : Nat} {d : CallDepth}, d.current + n ≤ limit →
    (d.enterMany limit n).2 = true
  | 0, _, _ => rfl
  | n + 1, d, h => by
    have henter : d.enter? limit = some ⟨d.current + 1, max d.highWater (d.current + 1)⟩ := by
      rw [enter?, if_pos (by omega)]
    rw [enterMany, henter]
    refine enterMany_fits ?_
    show d.current + 1 + n ≤ limit
    omega

end CallDepth

/-! ### One step -/

namespace Work

/-- The depth that the high-water mark records: that of a function that starts. -/
def mark (w : Work) : Nat := if w.function?.isSome then w.depth.current else 0

/-- The largest depth at which a function starts in these works. -/
def peak (ws : List Work) : Nat := (ws.map mark).foldr max 0

theorem peak_append (ws ws' : List Work) : peak (ws ++ ws') = max (peak ws) (peak ws') := by
  induction ws with
  | nil => simp [peak]
  | cons w ws ih =>
    have hcons (vs : List Work) : peak (w :: vs) = max w.mark (peak vs) := rfl
    rw [List.cons_append, hcons, hcons, ih, max_assoc]

end Work

/-- Where a worker stands: it has the depth of all levels up to its own, the high-water mark records
it if it starts, and it only starts within the limit. -/
structure Run.Places (r : Run) (w : Work) : Prop where
  level : w.depth.current + r.height = r.machine.depth.current + w.level
  water : w.depth.highWater = max r.machine.depth.highWater w.mark
  limit : w.depth.current ≤ max r.machine.depth.current r.machine.limits.maxCallDepth
  mark_le : w.mark ≤ r.machine.limits.maxCallDepth

/-- The machine after an operation, if it did not break. -/
def Outcome.machine? : Outcome → Option Machine
  | settled m | failed m _ | suspended m _ => some m
  | broken _ => none

namespace Run

variable {base : Nat} {r r' : Run} {w : Work} {c c' : Control}

/-- Tasks and frames go on at the depth that there is. -/
theorem places_of_nextWork (h : r.nextWork? = some w) : r.Places w := by
  obtain ⟨m, live, pending, flatten⟩ := r
  cases live with
  | cons t rest =>
    cases h
    refine ⟨?_, by simp [Work.mark, Work.function?], le_max_left _ _, Nat.zero_le _⟩
    show m.depth.current + ((rest.length + 1) + pending.length) =
      m.depth.current + (rest.length + pending.length + 1)
    omega
  | nil =>
    cases pending with
    | cons f rest =>
      cases h
      refine ⟨?_, by simp [Work.mark, Work.function?], le_max_left _ _, Nat.zero_le _⟩
      show m.depth.current + (0 + (rest.length + 1)) = m.depth.current + (0 + rest.length + 1)
      omega
    | nil => cases h

/-- **Every worker is placed.** -/
theorem places_of_work (h : r.work? c = some w) : r.Places w := by
  cases c with
  | request q => cases h
  | invoke target args =>
    simp only [work?] at h
    split at h
    · next c depth _ hdepth =>
      cases h
      obtain ⟨hcurrent, hlimit, hwater⟩ := CallDepth.of_enter? hdepth
      refine ⟨?_, hwater, hlimit.trans (le_max_right _ _), hlimit⟩
      show depth.current + (r.live.length + r.pending.length) =
        r.machine.depth.current + (r.live.length + r.pending.length + 1)
      omega
    · cases h
  | advance => exact places_of_nextWork h
  | settled =>
    simp only [work?] at h
    split at h
    · cases h
    · exact places_of_nextWork h

/-! ### Runs -/

/-- An operation began at depth `base`, and its stack takes up the rest. -/
def Deep (base : Nat) (r : Run) : Prop := r.machine.depth.current = base + r.height

theorem Has.deep {depth : CallDepth} {live : List Task} {pending : List SavedFrame}
    (h : r.Has depth live pending r')
    (hdepth : depth.current = base + (live.length + pending.length)) : r'.Deep base := by
  show r'.machine.depth.current = base + (r'.live.length + r'.pending.length)
  rw [h.depth, h.live, h.pending]
  exact hdepth

/-- **A step keeps the balance** of depth and stack. -/
theorem deep_next (hdeep : r.Deep base) (h : r.step c = .next r' c') : r'.Deep base := by
  cases hw : r.work? c with
  | none =>
    have hrests := rests_step hw
    rw [h] at hrests
    cases hrests with
    | goesOn hhas _ _ => exact hhas.deep hdeep
  | some w =>
    have hlevel := (places_of_work hw).level
    unfold Deep at hdeep
    have hyields := yields_step hw
    rw [h] at hyields
    cases hyields with
    | stays hhas _ =>
      refine hhas.deep ?_
      rw [List.length_cons]
      unfold Work.level at hlevel
      omega
    | leaves hhas =>
      refine hhas.deep ?_
      show w.depth.current - 1 = _
      unfold Work.level at hlevel
      omega

/-- **An operation leaves all of its levels**, however it ends. -/
theorem depth_done {o : Outcome} {m : Machine} (hdeep : r.Deep base) (h : r.step c = .done o)
    (hm : o.machine? = some m) : m.depth.current = base := by
  unfold Deep at hdeep
  cases hw : r.work? c with
  | none =>
    have hrests := rests_step hw
    rw [h] at hrests
    cases hrests with
    | fails _ hdepth =>
      cases hm
      rw [hdepth, CallDepth.current_leaveMany]
      omega
    | ends hbase _ =>
      cases hm
      have : r.height = 0 := by
        obtain ⟨h1, h2⟩ := Bool.and_eq_true_iff.mp hbase
        simp only [height, List.isEmpty_iff.mp h1, List.isEmpty_iff.mp h2, List.length_nil]
      omega
  | some w =>
    have hlevel := (places_of_work hw).level
    have hyields := yields_step hw
    rw [h] at hyields
    cases hyields with
    | fails _ hdepth | suspends _ hdepth _ =>
      cases hm
      rw [hdepth, CallDepth.current_leaveMany]
      omega
    | breaks => cases hm

/-- The high-water mark after a step. -/
theorem highWater_step : (∀ {r' c'}, r.step c = .next r' c' →
      r'.machine.depth.highWater = max r.machine.depth.highWater (Work.peak (r.work? c).toList)) ∧
    ∀ {o m}, r.step c = .done o → o.machine? = some m →
      m.depth.highWater = max r.machine.depth.highWater (Work.peak (r.work? c).toList) := by
  have hleave (n : Nat) (d : CallDepth) : (d.leaveMany n).highWater = d.highWater := by
    rw [CallDepth.leaveMany_eq]
  cases hw : r.work? c with
  | none =>
    have hrests := rests_step hw
    have hpeak : max r.machine.depth.highWater (Work.peak (none : Option Work).toList) =
        r.machine.depth.highWater := max_eq_left (Nat.zero_le _)
    rw [hpeak]
    refine ⟨fun {r' c'} h => ?_, fun {o m} h hm => ?_⟩
    · rw [h] at hrests
      cases hrests with
      | goesOn hhas _ _ => rw [hhas.depth]
    · rw [h] at hrests
      cases hrests with
      | fails _ hdepth => cases hm; rw [hdepth, hleave]
      | ends _ _ => cases hm; rfl
  | some w =>
    have hyields := yields_step hw
    have hpeak : Work.peak (some w).toList = w.mark := by simp [Work.peak]
    rw [hpeak, ← (places_of_work hw).water]
    refine ⟨fun {r' c'} h => ?_, fun {o m} h hm => ?_⟩
    · rw [h] at hyields
      cases hyields with
      | stays hhas _ => rw [hhas.depth]
      | leaves hhas => rw [hhas.depth]; rfl
    · rw [h] at hyields
      cases hyields with
      | fails _ hdepth | suspends _ hdepth _ => cases hm; rw [hdepth, hleave]
      | breaks => cases hm

/-- **The high-water mark of a run** is the largest depth at which a function has started. -/
theorem highWater_run {fuel : Nat} {o : Outcome} {m : Machine} (hm : o.machine? = some m) :
    ∀ {r : Run} {c : Control}, r.run fuel c = some o →
      m.depth.highWater = max r.machine.depth.highWater (Work.peak (r.works fuel c)) := by
  induction fuel with
  | zero => intro r c h; cases h
  | succ fuel ih =>
    intro r c h
    cases hs : r.step c with
    | next r' c' =>
      rw [run_next hs] at h
      rw [works_next hs, Work.peak_append, ih h, highWater_step.1 hs, max_assoc]
    | done o' =>
      rw [run_done hs] at h
      cases h
      rw [works_done hs, highWater_step.2 hs hm]

/-- The limits, the library and the globals stay to the end. -/
theorem keeps_done {o : Outcome} {m : Machine} (h : r.step c = .done o)
    (hm : o.machine? = some m) : r.machine.Keeps m := by
  cases hw : r.work? c with
  | none =>
    have hrests := rests_step hw
    rw [h] at hrests
    cases hrests with
    | fails hkeeps _ => cases hm; exact hkeeps
    | ends _ _ => cases hm; exact .refl _
  | some w =>
    have hyields := yields_step hw
    rw [h] at hyields
    cases hyields with
    | fails hkeeps _ | suspends hkeeps _ _ => cases hm; exact hkeeps
    | breaks => cases hm

theorem keeps_run {fuel : Nat} {o : Outcome} {m : Machine} (h : r.run fuel c = some o)
    (hm : o.machine? = some m) : r.machine.Keeps m := by
  obtain ⟨r', c', hlast, hdone⟩ := last_of_run h
  have hkeeps : r.machine.Keeps r'.machine :=
    moments_induction (P := fun r' _ => r.machine.Keeps r'.machine)
      (fun h hs => h.trans (keeps_next hs).1) (.refl _) _ (List.mem_of_getLast? hlast)
  exact hkeeps.trans (keeps_done hdone hm)

/-! ### Moments -/

/-- A moment of an operation that began `base` calls deep: the stack takes up the rest of the depth,
and whoever is at work is as deep as the number of levels says. The limit bounds both. -/
structure Level (base limit : Nat) (r : Run) (c : Control) : Prop where
  depth : r.machine.depth.current = base + r.height
  bound : r.machine.depth.current ≤ max base limit
  work : ∀ w, r.work? c = some w →
    w.depth.current = base + w.level ∧ w.depth.current ≤ max base limit

theorem level_of_deep {limit : Nat} (hdeep : r.Deep base)
    (hlimits : r.machine.limits.maxCallDepth = limit)
    (hbound : r.machine.depth.current ≤ max base limit) (c : Control) : r.Level base limit c := by
  refine ⟨hdeep, hbound, fun w hw => ?_⟩
  have hplaces := places_of_work hw
  have hlevel := hplaces.level
  have hle := hplaces.limit
  unfold Deep at hdeep
  rw [hlimits] at hle
  omega

theorem level_next {limit : Nat} (h : r.Level base limit c)
    (hlimits : r.machine.limits.maxCallDepth = limit) (hs : r.step c = .next r' c') :
    r'.Level base limit c' := by
  have hkeeps := (keeps_next hs).1
  refine level_of_deep (deep_next h.depth hs) (by rw [hkeeps.limits, hlimits]) ?_ c'
  have hbound := h.bound
  cases hw : r.work? c with
  | none =>
    have hrests := rests_step hw
    rw [hs] at hrests
    cases hrests with
    | goesOn hhas _ _ => rwa [hhas.depth]
  | some w =>
    have hwork := (h.work w hw).2
    have hyields := yields_step hw
    rw [hs] at hyields
    cases hyields with
    | stays hhas _ => rwa [hhas.depth]
    | leaves hhas =>
      rw [hhas.depth]
      exact (Nat.sub_le _ _).trans hwork

/-- **The depth of an operation**, moment by moment. -/
theorem level_moments {fuel limit : Nat} (hdeep : r.Deep base)
    (hlimits : r.machine.limits.maxCallDepth = limit)
    (hbound : r.machine.depth.current ≤ max base limit) :
    ∀ p ∈ r.moments fuel c, p.1.Level base limit p.2 := fun p hp =>
  (moments_induction
    (P := fun r c => r.Level base limit c ∧ r.machine.limits.maxCallDepth = limit)
    (fun h hs => ⟨level_next h.1 h.2 hs, by rw [(keeps_next hs).1.limits, h.2]⟩)
    ⟨level_of_deep hdeep hlimits hbound c, hlimits⟩ p hp).1

theorem peak_le {ws : List Work} {n : Nat} (h : ∀ w ∈ ws, w.mark ≤ n) : Work.peak ws ≤ n := by
  induction ws with
  | nil => exact Nat.zero_le n
  | cons w ws ih =>
    exact max_le (h w List.mem_cons_self) (ih fun v hv => h v (List.mem_cons_of_mem _ hv))

/-- **What an operation leaves**: the depth at which it began, and a high-water mark within the
limit. -/
theorem balanced_run {fuel : Nat} {o : Outcome} {m : Machine} (hdeep : r.Deep base)
    (h : r.run fuel c = some o) (hm : o.machine? = some m) :
    m.depth.current = base ∧
      m.depth.highWater ≤ max r.machine.depth.highWater r.machine.limits.maxCallDepth := by
  constructor
  · obtain ⟨r', c', hlast, hdone⟩ := last_of_run h
    exact depth_done (moments_induction (P := fun r _ => r.Deep base) deep_next hdeep _
      (List.mem_of_getLast? hlast)) hdone hm
  · rw [highWater_run hm h]
    refine max_le_max le_rfl (peak_le fun w hw => ?_)
    obtain ⟨p, hp, hwork⟩ := mem_works.mp hw
    have hlimits : p.1.machine.limits = r.machine.limits :=
      moments_induction (P := fun r' _ => r'.machine.limits = r.machine.limits)
        (fun h hs => (keeps_next hs).1.limits.trans h) rfl p hp
    rw [← hlimits]
    exact (places_of_work hwork).mark_le

end Run

/-! ### Host calls -/

namespace Machine

variable {m m' : Machine}

/-- An operation took this machine to that one: it is as deep in calls as before, and the high-water
mark has stayed within the limit. -/
structure Balanced (m m' : Machine) : Prop where
  current : m'.depth.current = m.depth.current
  highWater : m'.depth.highWater ≤ max m.depth.highWater m.limits.maxCallDepth

/-- What an answer leaves is the machine of the outcome, with another channel, and its signal. -/
theorem machine_of_leaves {o : Outcome} {new : List Signal} (h : o.answer.Leaves m' new) :
    ∃ m channel, o.machine? = some m ∧ m' = { m with channel := channel } ∧
      ∀ s ∈ new, o = .suspended m s := by
  cases o with
  | settled m => cases h; exact ⟨m, _, rfl, rfl, by simp⟩
  | failed m e => cases h; exact ⟨m', m'.channel, rfl, rfl, by simp⟩
  | suspended m s => cases h; exact ⟨m', m'.channel, rfl, rfl, by simp⟩
  | broken d => cases h

theorem balanced_perform {fuel : Nat} {flatten : Bool} {c : Control} {o : Outcome}
    {new : List Signal} (h : m.perform fuel flatten c = some o) (hl : o.answer.Leaves m' new) :
    m.Balanced m' := by
  obtain ⟨m₁, channel, hm, rfl, -⟩ := machine_of_leaves hl
  have hdeep : Run.Deep m.depth.current ⟨m, [], [], flatten⟩ := rfl
  obtain ⟨hcurrent, hwater⟩ := Run.balanced_run hdeep h hm
  exact ⟨hcurrent, hwater⟩

theorem balanced_start {fuel : Nat} {callable : Value} {args : List Value} {a : Answer}
    {new : List Signal} (h : m.start fuel callable args = some a) (hl : a.Leaves m' new) :
    m.Balanced m' := by
  obtain ⟨o, ho, rfl⟩ := Option.map_eq_some_iff.mp h
  obtain ⟨hcurrent, hwater⟩ := balanced_perform ho hl
  exact ⟨hcurrent, hwater⟩

/-- A resumption that fits begins as deep as all of its frames are. -/
theorem deep_resumed {s : Signal} (h : m.hasRoom s = true) (values : List Value) :
    (m.resumed s values).Deep m.depth.current ∧
    (m.resumed s values).machine.depth.current ≤ max m.depth.current m.limits.maxCallDepth ∧
    (m.resumed s values).machine.depth.highWater ≤
      max m.depth.highWater m.limits.maxCallDepth := by
  obtain ⟨k, -, hcurrent, hfits, hbound, hwater⟩ :=
    CallDepth.enterMany_eq m.limits.maxCallDepth s.frames.length m.depth
  refine ⟨?_, hbound, hwater⟩
  show (m.depth.enterMany _ _).1.current = m.depth.current + (0 + s.frames.length)
  rw [hcurrent, hfits.mp h, Nat.zero_add]

theorem balanced_resume {fuel : Nat} {s : Signal} {values : List Value} {a : Answer}
    {new : List Signal} (h : m.resume fuel s values = some a) (hl : a.Leaves m' new) :
    m.Balanced m' := by
  cases hroom : m.hasRoom s with
  | true =>
    rw [resume_of_hasRoom hroom] at h
    obtain ⟨o, ho, rfl⟩ := Option.map_eq_some_iff.mp h
    obtain ⟨m₁, channel, hm, rfl, -⟩ := machine_of_leaves hl
    obtain ⟨hdeep, -, hresumed⟩ := deep_resumed hroom values
    obtain ⟨hcurrent, hwater⟩ := Run.balanced_run hdeep ho hm
    exact ⟨hcurrent, hwater.trans (max_le hresumed (le_max_right _ _))⟩
  | false =>
    rw [resume_of_not_hasRoom hroom] at h
    cases h
    cases hl
    obtain ⟨k, -, hcurrent, -, -, hwater⟩ :=
      CallDepth.enterMany_eq m.limits.maxCallDepth s.frames.length m.depth
    have hresumed : (m.resumed s values).machine.depth =
      (m.depth.enterMany m.limits.maxCallDepth s.frames.length).1 := rfl
    refine ⟨?_, ?_⟩
    · rw [CallDepth.current_leaveMany, hresumed, hcurrent]
      omega
    · rw [CallDepth.leaveMany_eq, hresumed]
      exact hwater

theorem keeps_resume {fuel : Nat} {s : Signal} {values : List Value} {a : Answer}
    {new : List Signal} (h : m.resume fuel s values = some a) (hl : a.Leaves m' new) :
    m.Keeps m' := by
  cases hroom : m.hasRoom s with
  | true =>
    rw [resume_of_hasRoom hroom] at h
    obtain ⟨o, ho, rfl⟩ := Option.map_eq_some_iff.mp h
    obtain ⟨m₁, channel, hm, rfl, -⟩ := machine_of_leaves hl
    have hkeeps := Run.keeps_run ho hm
    exact ⟨hkeeps.limits, hkeeps.library, hkeeps.globals⟩
  | false =>
    rw [resume_of_not_hasRoom hroom] at h
    cases h
    cases hl
    exact ⟨rfl, rfl, rfl⟩

/-- Limits, library and globals last. -/
theorem keeps_of_service {l : Library} {limits : Limits} {signals : List Signal}
    (h : Service l limits m signals) : (Machine.withLibrary limits l).Keeps m := by
  induction h with
  | begins => exact .refl _
  | instantiates _ _ hm ih => exact ih.trans (instantiate_eq hm).1
  | edits _ _ ih => exact ⟨ih.limits, ih.library, ih.globals⟩
  | performs _ ho hl ih =>
    obtain ⟨m₁, channel, hm, rfl, -⟩ := machine_of_leaves hl
    have hkeeps := ih.trans (Run.keeps_run ho hm)
    exact ⟨hkeeps.limits, hkeeps.library, hkeeps.globals⟩
  | resumes _ _ hr hl ih => exact ih.trans (keeps_resume hr hl)

/-- **Between host calls nothing is called.** -/
theorem depth_of_service {l : Library} {limits : Limits} {signals : List Signal}
    (h : Service l limits m signals) : m.depth.current = 0 := by
  induction h with
  | begins => rfl
  | instantiates _ _ hm ih => rw [(instantiate_eq hm).2.1, ih]
  | edits _ _ ih => exact ih
  | performs _ ho hl ih => rw [(balanced_perform ho hl).current, ih]
  | resumes _ _ hr hl ih => rw [(balanced_resume hr hl).current, ih]

end Machine

end ResumableVM
