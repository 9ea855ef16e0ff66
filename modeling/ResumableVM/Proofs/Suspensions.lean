import ResumableVM.Proofs.CallDepth

/-! # Suspensions: which frames a signal has

A suspension is brought about by a routine at work. Its frame comes first in the signal, then those
of the live tasks below it, then the frames that have not gone on (`suspends_of_run`). So a signal
has at most as many frames as the call that suspended had levels, and it has room on every machine
that a host can hold (`Service.fits`, `Service.hasRoom`): a resumption starts with all frames
pending, and its innermost one goes on first. -/

namespace ResumableVM

namespace Run

variable {r : Run} {c : Control} {fuel : Nat}

/-- **How a suspension comes about.** At the last moment a routine is at work; its frame comes
first, then those of the live tasks below it that leave one, then the frames that have not gone on.
-/
theorem suspends_of_run {m : Machine} {s : Signal} (h : r.run fuel c = some (.suspended m s)) :
    ∃ r' c' w id phase locals, (r.moments fuel c).getLast? = some (r', c') ∧
      r'.work? c' = some w ∧ w.routine? = some id ∧
      s.frames = .routine id phase locals :: w.live.filterMap Task.saved? ++ w.pending := by
  obtain ⟨r', c', hlast, hdone⟩ := last_of_run h
  cases hw : r'.work? c' with
  | none =>
    have hrests := rests_step hw
    rw [hdone] at hrests
    cases hrests
  | some w =>
    have hyields := yields_step hw
    rw [hdone] at hyields
    cases hyields with
    | suspends _ _ hid => exact ⟨r', c', w, _, _, _, hlast, hw, hid, rfl⟩

/-- **A suspended stack is no higher than the limit**, and it is not empty. -/
theorem fits_of_suspends {m : Machine} {s : Signal} (hdeep : r.Deep 0)
    (hbound : r.machine.depth.current ≤ r.machine.limits.maxCallDepth)
    (h : r.run fuel c = some (.suspended m s)) :
    s.frames ≠ [] ∧ s.frames.length ≤ r.machine.limits.maxCallDepth := by
  obtain ⟨r', c', w, id, phase, locals, hlast, hw, -, hframes⟩ := suspends_of_run h
  have hlevel := level_moments hdeep rfl (hbound.trans (le_max_right _ _)) _
    (List.mem_of_getLast? hlast)
  obtain ⟨hdepth, hle⟩ := hlevel.work w hw
  have hsaved : (w.live.filterMap Task.saved?).length ≤ w.live.length :=
    List.length_filterMap_le _ _
  unfold Work.level at hdepth
  rw [hframes]
  refine ⟨by simp, ?_⟩
  simp only [List.cons_append, List.length_cons, List.length_append]
  omega

/-- The signals that a run leaves fit. -/
theorem fits_of_leaves {o : Outcome} {m : Machine} {new : List Signal} (hdeep : r.Deep 0)
    (hbound : r.machine.depth.current ≤ r.machine.limits.maxCallDepth)
    (h : r.run fuel c = some o) (hl : o.answer.Leaves m new) :
    ∀ s ∈ new, s.frames ≠ [] ∧ s.frames.length ≤ r.machine.limits.maxCallDepth := by
  intro s hs
  obtain ⟨m₁, channel, -, -, hsignals⟩ := Machine.machine_of_leaves hl
  rw [hsignals s hs] at h
  exact fits_of_suspends hdeep hbound h

end Run

section Service

variable {l : Library} {limits : Limits} {m m' : Machine} {signals : List Signal}

theorem Machine.hasRoom_of_length {s : Signal} (hdepth : m.depth.current = 0)
    (hlength : s.frames.length ≤ m.limits.maxCallDepth) : m.hasRoom s = true :=
  CallDepth.enterMany_fits (by omega)

/-- **Every signal has room.** -/
theorem Service.fits (h : Service l limits m signals) :
    ∀ s ∈ signals, s.frames ≠ [] ∧ s.frames.length ≤ limits.maxCallDepth := by
  induction h with
  | begins => simp
  | instantiates _ _ _ ih => exact ih
  | edits _ _ ih => exact ih
  | @performs m m' signals new fuel flatten c o h ho hl ih =>
    have hzero := Machine.depth_of_service h
    have hlimits : m.limits = limits := (Machine.keeps_of_service h).limits
    have hdeep : Run.Deep 0 ⟨m, [], [], flatten⟩ := hzero
    have hnew := Run.fits_of_leaves hdeep (by show m.depth.current ≤ _; omega) ho hl
    rw [hlimits] at hnew
    exact fun s hs => (List.mem_append.mp hs).elim (hnew s) (ih s)
  | @resumes m m' signals new fuel s values a h hmem hr hl ih =>
    have hzero := Machine.depth_of_service h
    have hlimits : m.limits = limits := (Machine.keeps_of_service h).limits
    have hroom : m.hasRoom s = true :=
      Machine.hasRoom_of_length hzero (by rw [hlimits]; exact (ih s hmem).2)
    rw [Machine.resume_of_hasRoom hroom] at hr
    obtain ⟨o, ho, rfl⟩ := Option.map_eq_some_iff.mp hr
    obtain ⟨hdeep, hbound, -⟩ := Machine.deep_resumed hroom values
    rw [hzero] at hdeep hbound
    have hnew := Run.fits_of_leaves hdeep (by rwa [Nat.zero_max] at hbound) ho hl
    have hlimits : (m.resumed s values).machine.limits = limits := hlimits
    rw [hlimits] at hnew
    exact fun s hs => (List.mem_append.mp hs).elim (hnew s) (ih s)

theorem Service.hasRoom (h : Service l limits m signals) {s : Signal} (hs : s ∈ signals) :
    m.hasRoom s = true := by
  have hlimits : m.limits = limits := (Machine.keeps_of_service h).limits
  exact Machine.hasRoom_of_length (Machine.depth_of_service h)
    (by rw [hlimits]; exact (h.fits s hs).2)

end Service

/-- The first frame of a resumption is the innermost. -/
theorem Run.work_resumed {m : Machine} {s : Signal} {f : SavedFrame} {rest : List SavedFrame}
    (hs : s.frames = f :: rest) (values : List Value) :
    (m.resumed s values).work? .settled =
      some ⟨.frame f, (m.resumed s values).machine.depth, [], rest⟩ := by
  have hnone : (m.resumed s values).machine.channel.tailCall = none := rfl
  have hlive : (m.resumed s values).live = [] := rfl
  have hpending : (m.resumed s values).pending = f :: rest := hs
  simp [work?, nextWork?, hnone, hlive, hpending]

end ResumableVM
