import ResumableVM.Proofs.NamedRoutines
import ResumableVM.Proofs.Regions

/-! # Independence: calls do not depend on what the machine did before

What the channel holds, what was counted and how deep calls once went belongs to no call. A call or
a resumption ends the same whatever they are, as equality is a lawful likeness with any library
(`Likeness.same_lawful`).

What other calls did to the store is seen only through objects that are shared. Where two stores
have the same objects in a region that holds all that a call can get at, the call ends alike in
both, up to the names of the objects that it makes (`calls_independent`). -/

namespace ResumableVM

/-! ### Equality -/

/-- To be equal. -/
def Likeness.same : Likeness := ⟨(· = ·), (· = ·), (· = ·), (· = ·), (· = ·)⟩

namespace Likeness

theorem same_values (vs : List Value) : same.values vs vs := List.forall₂_same.mpr fun _ _ => rfl

theorem eq_of_values {vs vs' : List Value} (h : same.values vs vs') : vs = vs' := by
  have heq : List.Forall₂ (· = ·) vs vs' := h
  rwa [List.forall₂_eq_eq_eq] at heq

theorem eq_of_request {q q' : Request} (h : q.Like same q') : q = q' := by
  cases h with
  | call hv hvs => cases hv; cases eq_of_values hvs; rfl
  | index hv hk => cases hv; cases hk; rfl
  | length hv => cases hv; rfl
  | arith hv hw => cases hv; cases hw; rfl

theorem eq_of_activation {a a' : Activation} (h : a.Like same a') : a = a' := by
  obtain ⟨closure, frame, pc⟩ := a
  obtain ⟨closure', frame', pc'⟩ := a'
  obtain ⟨hclosure, hframe, hpc⟩ := h
  cases hclosure; cases hframe; cases hpc
  rfl

theorem eq_of_savedFrame {f f' : SavedFrame} (h : f.Like same f') : f = f' := by
  cases h with
  | compiled hc hf => cases hc; cases hf; rfl
  | routine h => cases h; rfl

theorem eq_of_signal {s s' : Signal} (h : s.Like same s') : s = s' := by
  obtain ⟨frames, values⟩ := s
  obtain ⟨frames', values'⟩ := s'
  obtain ⟨hframes, hvalues⟩ := h
  have hframes : List.Forall₂ (· = ·) frames frames' := hframes.imp fun _ _ => eq_of_savedFrame
  rw [List.forall₂_eq_eq_eq] at hframes
  cases hframes; cases eq_of_values hvalues
  rfl

theorem same_request (q : Request) : q.Like same q := by
  cases q with
  | call v vs => exact .call rfl (same_values vs)
  | index v k => exact .index rfl rfl
  | length v => exact .length rfl
  | arith op v w => exact .arith rfl rfl

theorem same_resolution (x : Resolution) : x.Like same x := by
  cases x with
  | value v => exact .value rfl
  | handler v vs => exact .handler rfl (same_values vs)
  | error e => exact .error e

theorem same_function (st : Store) (f : Function) : Function.Like same st st f f := by
  cases f with
  | routine id => exact .routine id
  | closure id => exact .closure rfl

theorem same_callee (st : Store) (c : Callee) : c.Like same st st c := by
  cases c with
  | direct f => exact .direct (same_function st f)
  | handler f => exact .handler (same_function st f)

theorem same_progress (p : Progress Activation) : p.Like same p := by
  cases p with
  | runs a => exact .runs ⟨rfl, rfl, rfl⟩
  | asks a q => exact .asks ⟨rfl, rfl, rfl⟩ (same_request q)
  | returns vs => exact .returns (same_values vs)
  | tailCalls v vs => exact .tailCalls rfl (same_values vs)
  | fails e => exact .fails e

theorem same_savedFrame (f : SavedFrame) : f.Like same f := by
  cases f with
  | compiled closure frame => exact .compiled rfl rfl
  | routine id phase locals => exact .routine rfl

theorem same_signal (s : Signal) : s.Like same s :=
  ⟨List.forall₂_same.mpr fun f _ => same_savedFrame f, same_values _⟩

theorem same_reply (r : Reply) : r.Like same r := by
  cases r with
  | answers vs => exact .answers (same_values vs)
  | asks q phase locals => exact .asks (same_request q) rfl
  | suspends vs phase locals => exact .suspends (same_values vs) rfl
  | fails e => exact .fails e

/-- **What is equal behaves alike**, with any library. -/
theorem same_lawful (l : Library) (limit : Nat) : same.Lawful l limit where
  code := by
    rintro c _ rfl
    rfl
  point := by
    rintro f _ rfl
    rfl
  callee := by
    rintro st _ v _ rfl rfl
    exact Both.refl (same_callee st) _
  resolve := by
    rintro st _ q q' rfl hq
    cases eq_of_request hq
    exact same_resolution _
  start := by
    rintro c _ vs vs' rfl hvs
    cases eq_of_values hvs
    rfl
  advance := by
    rintro st _ a a' vs vs' rfl ha hvs
    cases eq_of_activation ha
    cases eq_of_values hvs
    exact Both.refl (fun x => ⟨rfl, same_progress x.2⟩) _
  invoke := by
    rintro id r st _ vs vs' - rfl hvs
    cases eq_of_values hvs
    exact Both.refl (fun x => ⟨rfl, same_reply x.2⟩) _
  resume := by
    rintro id r st _ vs vs' phase locals _ - rfl hvs rfl
    cases eq_of_values hvs
    exact Both.refl (fun x => ⟨rfl, same_reply x.2⟩) _

end Likeness

/-! ### What a machine remembers -/

/-- The machine after another past: with something else in its channel, other counts and another
high-water mark. -/
def Machine.remembering (m : Machine) (channel : Channel) (counters : Counters) (mark : Nat) :
    Machine :=
  { m with channel := channel, counters := counters, depth.highWater := mark }

/-- The machine with no past. -/
def Machine.forgetful (m : Machine) : Machine := m.remembering .empty {} 0

/-- What a host call ended with, and the machine that it left but for what that remembers. -/
def Answer.forgetful : Answer → Answer
  | done m vs => .done m.forgetful vs
  | suspended m s => .suspended m.forgetful s
  | failed m e => .failed m.forgetful e
  | broken d => .broken d

theorem Machine.same_remembering (m : Machine) (channel : Channel) (counters : Counters)
    (mark : Nat) : (m.remembering channel counters mark).Akin .same m :=
  ⟨rfl, rfl, rfl, rfl, rfl⟩

theorem Machine.forgetful_eq {m m' : Machine} (h : m.Akin .same m') :
    m.forgetful = m'.forgetful := by
  obtain ⟨hlimits, hlibrary, hglobals, hdepth, hstore⟩ := h
  have hstore : m.store = m'.store := hstore
  simp only [forgetful, remembering, hlimits, hlibrary, hglobals, hdepth, hstore]

theorem Answer.forgetful_eq {a a' : Answer} (h : a.Like .same a') : a.forgetful = a'.forgetful := by
  cases h with
  | done hm hvs =>
    simp only [forgetful, Machine.forgetful_eq hm, Likeness.eq_of_values hvs]
  | failed hm e => simp only [forgetful, Machine.forgetful_eq hm]
  | suspended hm hs => simp only [forgetful, Machine.forgetful_eq hm, Likeness.eq_of_signal hs]
  | broken d => rfl

theorem Answer.map_forgetful_eq {a a' : Option Answer} (h : Option.Rel (Answer.Like .same) a a') :
    a.map Answer.forgetful = a'.map Answer.forgetful := by
  cases h with
  | none => rfl
  | some h => rw [Option.map_some, Option.map_some, Answer.forgetful_eq h]

/-! ### Other calls -/

/-- Between host calls, two machines correspond as soon as their stores do. -/
theorem Service.akin {ρ : Naming} {l : Library} {limits : Limits} {m m' : Machine}
    {signals signals' : List Signal} (h : Service l limits m signals)
    (h' : Service l limits m' signals') (hst : m.store.Named ρ m'.store) :
    m.Akin ρ.likeness m' := by
  have hkeeps := Machine.keeps_of_service h
  have hkeeps' := Machine.keeps_of_service h'
  exact ⟨hkeeps.limits.trans hkeeps'.limits.symm, hkeeps.library.trans hkeeps'.library.symm,
    hkeeps.globals.trans hkeeps'.globals.symm,
    (Machine.depth_of_service h).trans (Machine.depth_of_service h').symm, hst⟩

/-- **Calls are independent of what the machine did before.** Between host calls, it does not matter
what is in the channel and what was counted: a call or a resumption ends with the same values, error
or signal, and leaves the same machine but for what that remembers.

Nor does it matter what other calls have been made, have failed, or are suspended or given up, where
the library is blind: take any two machines, with any pasts, whose stores have the same objects in a
region that is closed. If what a call or a resumption is given names objects of the region only, it
ends alike on both, and leaves stores that correspond: an object of the region stands for itself,
and new objects stand for each other in the order in which they are made. -/
theorem calls_independent {l : Library} {limits : Limits} {m : Machine} {signals : List Signal}
    (h : Service l limits m signals) :
    (∀ (channel : Channel) (counters : Counters) (mark fuel : Nat),
      (∀ (callable : Value) (args : List Value),
        ((m.remembering channel counters mark).start fuel callable args).map Answer.forgetful
          = (m.start fuel callable args).map Answer.forgetful) ∧
      ∀ (s : Signal) (values : List Value),
        ((m.remembering channel counters mark).resume fuel s values).map Answer.forgetful
          = (m.resume fuel s values).map Answer.forgetful) ∧
    (l.Blind → ∀ {m' : Machine} {signals' : List Signal} (R : Region),
      Service l limits m' signals' → R.Closed m.store → R.Unchanged m.store m'.store →
      ∀ fuel : Nat,
      (∀ {callable : Value} {args : List Value}, callable.Within R → (∀ v ∈ args, v.Within R) →
        Option.Rel (Answer.Like (R.naming m.store m'.store).likeness) (m.start fuel callable args)
          (m'.start fuel callable args)) ∧
      ∀ {s : Signal} {values : List Value}, s.Within R → (∀ v ∈ values, v.Within R) →
        Option.Rel (Answer.Like (R.naming m.store m'.store).likeness) (m.resume fuel s values)
          (m'.resume fuel s values)) := by
  refine ⟨fun channel counters mark fuel => ?_, fun hl m' signals' R h' hclosed hsame fuel => ?_⟩
  -- The past: equality is lawful, and says nothing of channel, counts and mark.
  · have hakin := m.same_remembering channel counters mark
    have hlawful := Likeness.same_lawful (m.remembering channel counters mark).library
      (m.remembering channel counters mark).limits.maxIndexChain
    exact ⟨fun callable args => Answer.map_forgetful_eq
        (Machine.like_start hakin hlawful fuel rfl (Likeness.same_values args)),
      fun s values => Answer.map_forgetful_eq
        (Machine.like_resume hakin hlawful fuel (Likeness.same_signal s)
          (Likeness.same_values values))⟩
  -- The others: what a closed region holds corresponds under its naming.
  · have hshared := hclosed.shared hsame
    have hakin := h.akin h' (Region.named hclosed hsame)
    have hblind : m.library.Blind := by
      rw [(Machine.keeps_of_service h).library]
      exact hl
    have hlawful := (R.naming m.store m'.store).lawful hblind m.limits.maxIndexChain
    exact ⟨fun hv hargs => Machine.like_start hakin hlawful fuel (hshared.value hv)
        (hshared.values hargs),
      fun hs hvalues => Machine.like_resume hakin hlawful fuel (hshared.signalLike hs)
        (hshared.values hvalues)⟩

/-- A call that is suspended in `pause` is resumed with and without a past in which another call
made a table. -/
theorem calls_independent_packing : ∃ m m' s, Service .standard .standard m [s] ∧
    Service .standard .standard m' [s] ∧ m.store.tables.size < m'.store.tables.size ∧
      (∃ m₁, m'.resume 20 s [.boolean true] = some (.done m₁ [.boolean true])) ∧
      ∀ fuel : Nat,
        ((m.remembering (.setTailCall .empty .nil []) {} 7).resume fuel s [.boolean true]).map
            Answer.forgetful
          = (m.resume fuel s [.boolean true]).map Answer.forgetful ∧
        Option.Rel (Answer.Like (Region.naming ⟨∅, {0}, ∅⟩ m.store m'.store).likeness)
          (m.resume fuel s [.boolean true]) (m'.resume fuel s [.boolean true]) := by
  obtain ⟨m, m', s, vs, hstart, hpack, hstore, hvalues, hframes, hclosures, hkinds, hsize,
    hresume⟩ :
      ∃ m m' s vs, Machine.relaying.start 20 (.closure ⟨0⟩) [.routine ⟨9⟩] =
          some (.suspended m s) ∧
        m.start 20 (.routine ⟨7⟩) [.boolean true] = some (.done m' vs) ∧
        m.store = Machine.relaying.store ∧ s.values = [] ∧
        s.frames = [.routine ⟨9⟩ 0 (.values []), .compiled ⟨Procedure.relay.assemble [], #[]⟩
          ⟨⟨#[.plain (.routine ⟨9⟩)]⟩, [], [], 1⟩] ∧
        m'.store.closures = m.store.closures ∧
        m'.store.kindMetatable = m.store.kindMetatable ∧
        m'.store.tables.size = m.store.tables.size + 1 ∧
        ∃ m₁, m'.resume 20 s [.boolean true] = some (.done m₁ [.boolean true]) :=
    ⟨_, _, _, _, rfl, rfl, rfl, rfl, rfl, rfl, rfl, rfl, _, rfl⟩
  have h : Service .standard .standard m [s] := Service.relaying.starts hstart .suspended
  have h' : Service .standard .standard m' [s] := h.starts hpack .done
  have hclosed : Region.Closed ⟨∅, {0}, ∅⟩ m.store := by
    rw [hstore]
    refine ⟨by simp, fun i hi => ?_, by simp, fun {kind id} hm => by cases hm⟩
    rw [Set.mem_singleton_iff.mp hi]
    exact ⟨⟨Procedure.relay.assemble [], #[]⟩, rfl, by simp [Closure.Within]⟩
  have hsame : Region.Unchanged ⟨∅, {0}, ∅⟩ m.store m'.store :=
    ⟨by simp, fun i _ => by rw [hclosures], by simp, hkinds⟩
  have hin : s.Within ⟨∅, {0}, ∅⟩ := by
    refine ⟨fun f hf => ?_, by simp [hvalues]⟩
    simp only [hframes, List.mem_cons, List.not_mem_nil, or_false] at hf
    rcases hf with rfl | rfl
    · simp [SavedFrame.Within, Locals.Within]
    · exact ⟨by simp [Closure.Within], ⟨by simp [Slot.Within, Value.Within, Value.routine,
        Function.Within], by simp, by simp⟩⟩
  obtain ⟨hpast, hothers⟩ := calls_independent h
  refine ⟨m, m', s, h, h', by omega, hresume, fun fuel => ⟨(hpast _ _ _ fuel).2 s _, ?_⟩⟩
  exact (hothers Library.blind_standard _ h' hclosed hsame fuel).2 hin (by simp [Value.Within])

end ResumableVM
