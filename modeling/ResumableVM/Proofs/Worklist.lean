import ResumableVM.Proofs.Dataflow

/-! # Worklist: visits in any order end at the solution

Instead of sweeping over all blocks, an analysis may keep a list of the blocks whose entries have
changed since they were last sent on. `Visits` takes any block out of that list, sends its entry to
the successors and adds those that it changed; `drain` takes the blocks in the order of a queue.

States are ordered by `d.Le`: a join with a smaller state changes nothing. When joins are least upper
bounds and blocks keep the order (`Ordered`), every visit keeps the entries below the solution, and
what leaves a block that is not pending is absorbed by its successors (`Sound.visits`). So once
nothing is pending the entries are the solution (`Sound.entries_eq`). Every visit raises the entries
or shortens the list (`measure_visits`), so visits come to an end, in whatever order they are made. -/

namespace ResumableVM.Dataflow

variable {α : Type} {d : Dataflow α} {good : α → Prop} {rank : α → Nat}

/-! ### The order of states -/

/-- A join with the smaller state changes nothing. -/
def Le (d : Dataflow α) (s t : α) : Prop := d.join t s = t

/-- Joins are least upper bounds, and blocks keep the order. -/
structure Ordered (d : Dataflow α) (good : α → Prop) : Prop where
  idem : ∀ s, good s → d.join s s = s
  comm : ∀ s t, good s → good t → d.join s t = d.join t s
  assoc : ∀ s t u, good s → good t → good u → d.join (d.join s t) u = d.join s (d.join t u)
  flow : ∀ block ∈ d.blocks, ∀ s t, good s → good t → d.Le s t → d.Le (block.flow s) (block.flow t)

namespace Ordered

variable (ho : Ordered d good) {s t u : α}
include ho

theorem refl (hs : good s) : d.Le s s := ho.idem s hs

theorem antisymm (hs : good s) (ht : good t) (hst : d.Le s t) (hts : d.Le t s) : s = t := by
  have h1 : d.join t s = t := hst
  have h2 : d.join s t = s := hts
  rw [← h2, ho.comm s t hs ht, h1]

theorem trans (hs : good s) (ht : good t) (hu : good u) (hst : d.Le s t) (htu : d.Le t u) :
    d.Le s u := by
  have h1 : d.join t s = t := hst
  have h2 : d.join u t = u := htu
  show d.join u s = u
  calc d.join u s = d.join (d.join u t) s := by rw [h2]
    _ = d.join u (d.join t s) := ho.assoc u t s hu ht hs
    _ = u := by rw [h1, h2]

theorem le_join_right (hs : good s) (ht : good t) : d.Le t (d.join s t) := by
  unfold Le
  rw [ho.assoc s t t hs ht ht, ho.idem t ht]

/-- What is below a state stays below its joins. -/
theorem le_join_left (hs : good s) (ht : good t) (hu : good u) (h : d.Le s t) :
    d.Le s (d.join t u) := by
  have h : d.join t s = t := h
  unfold Le
  rw [ho.assoc t u s ht hu hs, ho.comm u s hu hs, ← ho.assoc t s u ht hs hu, h]

theorem join_le (hs : good s) (ht : good t) (hu : good u) (hsu : d.Le s u) (htu : d.Le t u) :
    d.Le (d.join s t) u := by
  have hsu : d.join u s = u := hsu
  have htu : d.join u t = u := htu
  unfold Le
  rw [← ho.assoc u s t hu hs ht, hsu, htu]

end Ordered

/-! ### What a visit changes -/

theorem getElem?_foldl_modify {β : Type} {f : β → β} (i : Nat) : ∀ (l : List Nat) (es : Array β),
    (∀ o, es[i]? = some o → f (f o) = f o) →
    (l.foldl (fun es t => es.modify t f) es)[i]? = if i ∈ l then es[i]?.map f else es[i]?
  | [], es, _ => rfl
  | t :: l, es, h => by
    have hidem : ∀ o, (es.modify t f)[i]? = some o → f (f o) = f o := by
      intro o hget
      rw [Array.getElem?_modify] at hget
      split at hget
      · obtain ⟨x, hx, rfl⟩ := Option.map_eq_some_iff.mp hget
        rw [h x hx, h x hx]
      · exact h o hget
    rw [List.foldl_cons, getElem?_foldl_modify i l _ hidem, Array.getElem?_modify]
    by_cases hit : t = i
    · subst hit
      rw [if_pos rfl, if_pos List.mem_cons_self]
      split
      · cases hget : es[t]? with
        | none => rfl
        | some o => rw [Option.map_some, Option.map_some, h o hget]
      · rfl
    · rw [if_neg hit]
      simp [Ne.symm hit]

/-- A block without an entry sends nothing on. -/
theorem propagate_eq_self {es : Entries α} {b : Nat} (h : ∀ s, es[b]? ≠ some (some s)) :
    d.propagate es b = es := by
  unfold propagate
  split
  · next s block hs _ => exact absurd (Option.join_eq_some_iff.mp hs) (h s)
  · rfl

/-- **A visit changes the entries of successors only**: each is joined with what leaves the block. -/
theorem getElem?_propagate (hd : Lawful d good rank) (ho : Ordered d good) {es : Entries α}
    (hes : AllGood d good es) {b : Nat} {block : FlowBlock α} {s : α}
    (hb : d.blocks[b]? = some block) (hs : es[b]? = some (some s)) (t : Nat) :
    (d.propagate es b)[t]? =
      if t ∈ block.successors then es[t]?.map (d.merge (block.flow s)) else es[t]? := by
  have hout := hd.flow block (Array.mem_of_getElem? hb) s (hes.2 b s hs)
  have hj : es[b]?.join = some s := by rw [hs]; rfl
  unfold propagate
  rw [hj, hb]
  refine getElem?_foldl_modify t block.successors es fun o hget => ?_
  cases o with
  | none => simp only [merge, ho.idem _ hout]
  | some s' =>
    have hs' := hes.2 t s' hget
    simp only [merge, ho.assoc _ _ _ hs' hout hout, ho.idem _ hout]

/-- An entry after a visit is the one before, or that joined with what left the block. -/
theorem entry_propagate (hd : Lawful d good rank) (ho : Ordered d good) {es : Entries α}
    (hes : AllGood d good es) {b t : Nat} {e : α}
    (he : (d.propagate es b)[t]? = some (some e)) :
    es[t]? = some (some e) ∨ ∃ block s, d.blocks[b]? = some block ∧ es[b]? = some (some s) ∧
      t ∈ block.successors ∧ ((es[t]? = some none ∧ e = block.flow s) ∨
        ∃ e', es[t]? = some (some e') ∧ e = d.join e' (block.flow s)) := by
  by_cases hs : ∃ s, es[b]? = some (some s)
  · obtain ⟨s, hs⟩ := hs
    have hlt : b < d.blocks.size := hes.1 ▸ (Array.getElem?_eq_some_iff.mp hs).1
    have hb := Array.getElem?_eq_getElem hlt
    rw [getElem?_propagate hd ho hes hb hs] at he
    split at he
    · next ht =>
      refine .inr ⟨_, s, hb, hs, ht, ?_⟩
      obtain ⟨o, hget, hmerge⟩ := Option.map_eq_some_iff.mp he
      cases o with
      | none => exact .inl ⟨hget, (Option.some.inj hmerge).symm⟩
      | some e' => exact .inr ⟨e', hget, (Option.some.inj hmerge).symm⟩
    · exact .inl he
  · rw [propagate_eq_self fun s h => hs ⟨s, h⟩] at he
    exact .inl he

/-- Visits only raise entries. -/
theorem le_propagate (hd : Lawful d good rank) (ho : Ordered d good) {es : Entries α}
    (hes : AllGood d good es) (b : Nat) {t : Nat} {e u : α} (he : es[t]? = some (some e))
    (hu : good u) (hle : d.Le u e) :
    ∃ e', (d.propagate es b)[t]? = some (some e') ∧ d.Le u e' := by
  by_cases hs : ∃ s, es[b]? = some (some s)
  · obtain ⟨s, hs⟩ := hs
    have hlt : b < d.blocks.size := hes.1 ▸ (Array.getElem?_eq_some_iff.mp hs).1
    have hb := Array.getElem?_eq_getElem hlt
    rw [getElem?_propagate hd ho hes hb hs, he]
    split
    · exact ⟨_, rfl, ho.le_join_left hu (hes.2 t e he)
        (hd.flow _ (Array.mem_of_getElem? hb) s (hes.2 b s hs)) hle⟩
    · exact ⟨e, rfl, hle⟩
  · rw [propagate_eq_self fun s h => hs ⟨s, h⟩]
    exact ⟨e, he, hle⟩

/-! ### Visits -/

/-- The entries so far, and the blocks that are left to visit. -/
structure Agenda (α : Type) where
  entries : Entries α
  pending : List Nat

/-- Some pending block is visited; those whose entries it changes are pending then. -/
inductive Visits (d : Dataflow α) : Agenda α → Agenda α → Prop
  | visit {es : Entries α} {pending pending' : List Nat} {b : Nat} (hb : b ∈ pending)
      (hmem : ∀ t, t ∈ pending' ↔ (t ∈ pending ∧ t ≠ b) ∨ (d.propagate es b)[t]? ≠ es[t]?)
      (hnodup : pending'.Nodup) : Visits d ⟨es, pending⟩ ⟨d.propagate es b, pending'⟩

/-- At first the first block is pending. -/
def Agenda.first (d : Dataflow α) : Agenda α := ⟨d.initial, [0]⟩

/-- How far the visits are from their end: the entries can rise only so often, and the list is
shortened by the visits that do not raise them. -/
def Agenda.distance (d : Dataflow α) (rank : α → Nat) (w : Agenda α) : Nat :=
  (d.blocks.size * (d.height + 1) - totalRank rank w.entries) * (d.blocks.size + 1) +
    w.pending.length

/-- At most so many visits are made. -/
def visitBound (d : Dataflow α) : Nat :=
  d.blocks.size * (d.height + 1) * (d.blocks.size + 1) + 1

theorem distance_first_le : (Agenda.first d).distance d rank ≤ d.visitBound := by
  have : (d.blocks.size * (d.height + 1) - totalRank rank d.initial) * (d.blocks.size + 1) ≤
      d.blocks.size * (d.height + 1) * (d.blocks.size + 1) :=
    Nat.mul_le_mul_right _ (Nat.sub_le _ _)
  simp only [Agenda.distance, Agenda.first, visitBound, List.length_singleton]
  omega

section Solved

variable [DecidableEq α]

/-- What visits keep. -/
structure Sound (d : Dataflow α) (good : α → Prop) (w : Agenda α) : Prop where
  good : AllGood d good w.entries
  nodup : w.pending.Nodup
  lt : ∀ b ∈ w.pending, b < d.blocks.size
  start : ∃ s, w.entries[0]? = some (some s) ∧ d.Le d.start s
  /-- The entries are below the solution. -/
  below : ∀ (b : Nat) (s : α), w.entries[b]? = some (some s) →
    ∃ s', d.solve[b]? = some (some s') ∧ d.Le s s'
  /-- What leaves a block that is not pending is absorbed. -/
  settled : ∀ (b : Nat) (block : FlowBlock α) (s : α), b ∉ w.pending → d.blocks[b]? = some block →
    w.entries[b]? = some (some s) → ∀ t ∈ block.successors,
    ∃ s', w.entries[t]? = some (some s') ∧ d.Le (block.flow s) s'

theorem start_le_solve (hd : Lawful d good rank) (ho : Ordered d good) (hpos : 0 < d.blocks.size) :
    ∃ s, d.solve[0]? = some (some s) ∧ d.Le d.start s := by
  obtain ⟨s, hs⟩ := solve_zero hpos
  refine ⟨s, hs, (solve_induction (P := fun b s => good s ∧ (b = 0 → d.Le d.start s))
    ⟨hd.start, fun _ => ho.refl hd.start⟩ ?_ ?_ hs).2 rfl⟩
  · rintro b block s t hb ⟨hgood, -⟩ - hne
    exact ⟨hd.flow block (Array.mem_of_getElem? hb) s hgood, fun h => absurd h hne⟩
  · rintro b block s t s' hb ⟨hgood, -⟩ - ⟨hgood', hle⟩
    have hout := hd.flow block (Array.mem_of_getElem? hb) s hgood
    exact ⟨hd.join s' _ hgood' hout, fun h => ho.le_join_left hd.start hgood' hout (hle h)⟩

theorem sound_first (hd : Lawful d good rank) (ho : Ordered d good) (hpos : 0 < d.blocks.size) :
    Sound d good (Agenda.first d) := by
  have honly : ∀ b s, d.initial[b]? = some (some s) → b = 0 ∧ s = d.start := by
    intro b s h
    simp only [initial, Array.getElem?_setIfInBounds, Array.getElem?_replicate] at h
    split at h
    · next hb =>
      split at h
      · exact ⟨hb.symm, (Option.some.inj (Option.some.inj h)).symm⟩
      · cases h
    · split at h <;> simp at h
  refine ⟨allGood_initial hd, List.nodup_singleton 0, fun b hb => List.mem_singleton.mp hb ▸ hpos,
    ⟨d.start, initial_zero hpos, ho.refl hd.start⟩, fun b s hs => ?_, fun b block s hb _ hs => ?_⟩
  · obtain ⟨rfl, rfl⟩ := honly b s hs
    exact start_le_solve hd ho hpos
  · exact absurd (List.mem_singleton.mpr (honly b s hs).1) hb

/-- **What a visit keeps.** -/
theorem Sound.visits (hd : Lawful d good rank) (ho : Ordered d good) {w w' : Agenda α}
    (h : Sound d good w) (hv : Visits d w w') : Sound d good w' := by
  obtain @⟨es, pending, pending', b, hb, hmem, hnodup⟩ := hv
  have hes := h.good
  have hgood : AllGood d good (d.propagate es b) := (propagate_rising hd b es hes).1
  have hgoodSolve := allGood_solve hd
  refine ⟨hgood, hnodup, fun t ht => ?_, ?_, fun t e he => ?_, fun c block s hc hblock hs t ht => ?_⟩
  · rcases (hmem t).mp ht with ⟨hold, -⟩ | hchanged
    · exact h.lt t hold
    · by_contra hge
      have hsize : (d.propagate es b).size = es.size := hgood.1.trans hes.1.symm
      have hge : es.size ≤ t := by rw [hes.1]; omega
      exact hchanged (by
        rw [Array.getElem?_eq_none (hsize ▸ hge), Array.getElem?_eq_none hge])
  · obtain ⟨s, hs, hle⟩ := h.start
    exact le_propagate hd ho hes b hs hd.start hle
  · rcases entry_propagate hd ho hes he with hold | ⟨block, s, hblock, hs, ht, hcases⟩
    · exact h.below t e hold
    · -- what leaves the block is below what leaves it in the solution, which is stable
      obtain ⟨s', hs', hle⟩ := h.below b s hs
      obtain ⟨u, hu, hstable⟩ := stable_solve hd hblock hs' ht
      have hmemBlock := Array.mem_of_getElem? hblock
      have hgs := hes.2 b s hs
      have hgs' := hgoodSolve.2 b s' hs'
      have hgu := hgoodSolve.2 t u hu
      have hout := hd.flow block hmemBlock s hgs
      have hflow : d.Le (block.flow s) u := ho.trans hout (hd.flow block hmemBlock s' hgs') hgu
        (ho.flow block hmemBlock s s' hgs hgs' hle) hstable
      refine ⟨u, hu, ?_⟩
      rcases hcases with ⟨-, rfl⟩ | ⟨e', he', rfl⟩
      · exact hflow
      · obtain ⟨u', hu', hle'⟩ := h.below t e' he'
        cases hu.symm.trans hu'
        exact ho.join_le (hes.2 t e' he') hout hgu hle' hflow
  · -- the entry of a block that is not pending has not changed
    have hsame : (d.propagate es b)[c]? = es[c]? := by
      by_contra hne
      exact hc ((hmem c).mpr (.inr hne))
    have hs₀ : es[c]? = some (some s) := hsame ▸ hs
    have hgs := hes.2 c s hs₀
    have hmemBlock := Array.mem_of_getElem? hblock
    have hout := hd.flow block hmemBlock s hgs
    by_cases hcb : c = b
    · subst hcb
      have hlt : t < es.size := hes.1 ▸ hd.successors block hmemBlock t ht
      rw [getElem?_propagate hd ho hes hblock hs₀, if_pos ht, Array.getElem?_eq_getElem hlt]
      cases he : es[t] with
      | none => exact ⟨_, rfl, ho.refl hout⟩
      | some e =>
        have hge := hes.2 t e (by rw [Array.getElem?_eq_getElem hlt, he])
        exact ⟨_, rfl, ho.le_join_right hge hout⟩
    · have hnot : c ∉ pending := fun hin => hc ((hmem c).mpr (.inl ⟨hin, hcb⟩))
      obtain ⟨e, he, hle⟩ := h.settled c block s hnot hblock hs₀ t ht
      exact le_propagate hd ho hes b he hout hle

/-- When nothing is pending, the entries are above the solution: they are stable, and it is the least
of that kind. -/
theorem Sound.above (hd : Lawful d good rank) (ho : Ordered d good) {w : Agenda α}
    (h : Sound d good w) (hpending : w.pending = []) {b : Nat} {s : α}
    (hs : d.solve[b]? = some (some s)) :
    good s ∧ ∃ e, w.entries[b]? = some (some e) ∧ d.Le s e := by
  have habsorb : ∀ (b : Nat) (block : FlowBlock α) (s : α) (t : Nat), d.blocks[b]? = some block →
      (good s ∧ ∃ e, w.entries[b]? = some (some e) ∧ d.Le s e) → t ∈ block.successors →
      good (block.flow s) ∧ ∃ u, w.entries[t]? = some (some u) ∧ d.Le (block.flow s) u := by
    rintro b block s t hb ⟨hgs, e, he, hle⟩ ht
    have hmem := Array.mem_of_getElem? hb
    have hge := h.good.2 b e he
    have hout := hd.flow block hmem s hgs
    obtain ⟨u, hu, hstable⟩ := h.settled b block e (by simp [hpending]) hb he t ht
    exact ⟨hout, u, hu, ho.trans hout (hd.flow block hmem e hge) (h.good.2 t u hu)
      (ho.flow block hmem s e hgs hge hle) hstable⟩
  refine solve_induction (P := fun b s => good s ∧ ∃ e, w.entries[b]? = some (some e) ∧ d.Le s e)
    ⟨hd.start, h.start⟩ (fun b block s t hb hP ht _ => habsorb b block s t hb hP ht) ?_ hs
  rintro b block s t s' hb hP ht ⟨hgs', u, hu, hle'⟩
  obtain ⟨hout, u', hu', hle⟩ := habsorb b block s t hb hP ht
  cases hu.symm.trans hu'
  exact ⟨hd.join s' _ hgs' hout, u, hu, ho.join_le hgs' hout (h.good.2 t u hu) hle' hle⟩

/-- **When nothing is pending, the entries are the solution.** -/
theorem Sound.entries_eq (hd : Lawful d good rank) (ho : Ordered d good) {w : Agenda α}
    (h : Sound d good w) (hpending : w.pending = []) : w.entries = d.solve := by
  have hsize : w.entries.size = d.solve.size := h.good.1.trans (allGood_solve hd).1.symm
  refine Array.ext hsize fun b hb hb' => ?_
  have hentry := Array.getElem?_eq_getElem hb
  have hsolve := Array.getElem?_eq_getElem hb'
  cases he : w.entries[b] with
  | none =>
    cases hs : d.solve[b] with
    | none => rfl
    | some s =>
      obtain ⟨-, e, he', -⟩ := h.above hd ho hpending (hsolve.trans (congrArg some hs))
      rw [hentry, he] at he'
      cases he'
  | some e =>
    obtain ⟨s, hs, hle⟩ := h.below b e (hentry.trans (congrArg some he))
    obtain ⟨hgs, e', he', hge⟩ := h.above hd ho hpending hs
    rw [hentry, he] at he'
    cases he'
    rw [hsolve] at hs
    rw [Option.some.inj hs, ho.antisymm (h.good.2 b e (hentry.trans (congrArg some he))) hgs hle hge]

/-! ### Visits come to an end -/

theorem Sound.length_pending_le {w : Agenda α} (h : Sound d good w) :
    w.pending.length ≤ d.blocks.size := by
  have hsub : w.pending ⊆ List.range d.blocks.size := fun b hb => List.mem_range.mpr (h.lt b hb)
  have := (h.nodup.subperm hsub).length_le
  rwa [List.length_range] at this

/-- **Every visit brings the end nearer.** -/
theorem Sound.distance_lt (hd : Lawful d good rank) (ho : Ordered d good) {w w' : Agenda α}
    (h : Sound d good w) (hv : Visits d w w') : w'.distance d rank < w.distance d rank := by
  have hsound' := h.visits hd ho hv
  have hlength := hsound'.length_pending_le
  have hle := totalRank_le hd hsound'.good
  obtain @⟨es, pending, pending', b, hb, hmem, hnodup⟩ := hv
  rcases (propagate_rising hd b es h.good).2 with hsame | hraised
  · -- nothing has changed, so the block is off the list
    have hsub : pending' ⊆ pending.erase b := fun t ht => by
      rcases (hmem t).mp ht with ⟨hold, hne⟩ | hchanged
      · exact (List.mem_erase_of_ne hne).mpr hold
      · exact absurd (by rw [hsame]) hchanged
    have hshorter := (hnodup.subperm hsub).length_le
    rw [List.length_erase_of_mem hb] at hshorter
    have hpos := List.length_pos_of_mem hb
    simp only [Agenda.distance, hsame]
    omega
  · simp only [Agenda.distance] at hlength hle ⊢
    have hstep : (d.blocks.size * (d.height + 1) - totalRank rank (d.propagate es b) + 1) *
        (d.blocks.size + 1) ≤
        (d.blocks.size * (d.height + 1) - totalRank rank es) * (d.blocks.size + 1) :=
      Nat.mul_le_mul_right _ (by omega)
    rw [Nat.add_mul, Nat.one_mul] at hstep
    omega

/-! ### A queue -/

/-- A block at the end of a queue, unless it is in it. -/
def enqueue (queue : List Nat) (t : Nat) : List Nat := if t ∈ queue then queue else queue ++ [t]

/-- The blocks whose entries a visit changes. -/
def changedBy (d : Dataflow α) (es : Entries α) (b : Nat) : List Nat :=
  (d.successorsOf b).filter fun t => (d.propagate es b)[t]? ≠ es[t]?

/-- Visits in the order of a queue, until it is empty; at most a number of them. -/
def drain (d : Dataflow α) : Nat → Entries α → List Nat → Option (Entries α)
  | _, es, [] => some es
  | 0, _, _ :: _ => none
  | fuel + 1, es, b :: queue =>
    d.drain fuel (d.propagate es b) ((d.changedBy es b).foldl enqueue queue)

theorem mem_foldl_enqueue {t : Nat} : ∀ (ts queue : List Nat),
    t ∈ ts.foldl enqueue queue ↔ t ∈ queue ∨ t ∈ ts
  | [], queue => by simp
  | u :: ts, queue => by
    have henqueue : t ∈ enqueue queue u ↔ t ∈ queue ∨ t = u := by
      unfold enqueue
      split
      · next hu => exact ⟨.inl, fun h => h.elim id fun heq => heq ▸ hu⟩
      · rw [List.mem_append, List.mem_singleton]
    rw [List.foldl_cons, mem_foldl_enqueue ts, henqueue, List.mem_cons, or_assoc]

theorem nodup_foldl_enqueue : ∀ (ts : List Nat) {queue : List Nat}, queue.Nodup →
    (ts.foldl enqueue queue).Nodup
  | [], _, h => h
  | u :: ts, queue, h => by
    have hqueue : (enqueue queue u).Nodup := by
      unfold enqueue
      split
      · exact h
      · next hu =>
        refine List.nodup_append.mpr ⟨h, List.nodup_singleton u, fun t ht v hv heq => hu ?_⟩
        rw [List.mem_singleton] at hv
        exact hv ▸ heq ▸ ht
    exact nodup_foldl_enqueue ts hqueue

/-- The first block of a queue is visited. -/
theorem Sound.visits_queue (hd : Lawful d good rank) (ho : Ordered d good) {es : Entries α}
    {b : Nat} {queue : List Nat} (h : Sound d good ⟨es, b :: queue⟩) :
    Visits d ⟨es, b :: queue⟩ ⟨d.propagate es b, (d.changedBy es b).foldl enqueue queue⟩ := by
  obtain ⟨hnotin, hqueue⟩ := List.nodup_cons.mp h.nodup
  refine .visit List.mem_cons_self (fun t => ?_) (nodup_foldl_enqueue _ hqueue)
  have hchanged : t ∈ d.changedBy es b ↔ (d.propagate es b)[t]? ≠ es[t]? := by
    rw [changedBy, List.mem_filter, decide_eq_true_iff]
    refine and_iff_right_of_imp fun hne => ?_
    by_contra hnot
    refine hne ?_
    by_cases hs : ∃ s, es[b]? = some (some s)
    · obtain ⟨s, hs⟩ := hs
      have hb := Array.getElem?_eq_getElem (h.lt b List.mem_cons_self)
      rw [getElem?_propagate hd ho h.good hb hs, if_neg]
      rwa [successorsOf, hb] at hnot
    · rw [propagate_eq_self fun s hs' => hs ⟨s, hs'⟩]
  rw [mem_foldl_enqueue, hchanged, List.mem_cons]
  refine or_congr_left ⟨fun ht => ⟨.inr ht, fun heq => hnotin (heq ▸ ht)⟩, ?_⟩
  rintro ⟨rfl | ht, hne⟩
  · exact absurd rfl hne
  · exact ht

theorem Sound.drain_eq (hd : Lawful d good rank) (ho : Ordered d good) :
    ∀ {fuel : Nat} {es : Entries α} {queue : List Nat}, Sound d good ⟨es, queue⟩ →
      (Agenda.mk es queue).distance d rank ≤ fuel → d.drain fuel es queue = some d.solve
  | fuel, es, [], h, _ => by
    rw [drain]
    exact congrArg some (h.entries_eq hd ho rfl)
  | 0, es, b :: queue, h, hfuel => absurd hfuel (by simp [Agenda.distance])
  | fuel + 1, es, b :: queue, h, hfuel => by
    have hv := h.visits_queue hd ho
    have hlt := h.distance_lt hd ho hv
    rw [drain]
    exact Sound.drain_eq hd ho (h.visits hd ho hv) (by omega)

/-- Visits one after the other are no more than the distance from the end. -/
theorem Sound.length_le (hd : Lawful d good rank) (ho : Ordered d good) : ∀ {ws : List (Agenda α)}
    {w : Agenda α}, Sound d good w → List.IsChain (Visits d) (w :: ws) →
      ws.length ≤ w.distance d rank
  | [], _, _, _ => Nat.zero_le _
  | w' :: ws, w, h, hchain => by
    obtain ⟨hv, hrest⟩ := List.isChain_cons_cons.mp hchain
    have hlt := h.distance_lt hd ho hv
    have := (h.visits hd ho hv).length_le hd ho hrest
    rw [List.length_cons]
    omega

/-- **In whatever order blocks are visited**, the visits come to an end, and then the entries are the
solution. A queue is one such order. -/
theorem visits_end_at_solve (hd : Lawful d good rank) (ho : Ordered d good)
    (hpos : 0 < d.blocks.size) :
    (∀ ws : List (Agenda α), List.IsChain (Visits d) (Agenda.first d :: ws) →
      ws.length ≤ d.visitBound) ∧
    (∀ w, Relation.ReflTransGen (Visits d) (Agenda.first d) w →
      (w.pending = [] → w.entries = d.solve) ∧ (w.pending ≠ [] → ∃ w', Visits d w w')) ∧
    d.drain d.visitBound d.initial [0] = some d.solve := by
  have hfirst := sound_first hd ho hpos
  have hbound : (Agenda.first d).distance d rank ≤ d.visitBound := distance_first_le
  refine ⟨fun ws hchain => (hfirst.length_le hd ho hchain).trans hbound, fun w hw => ?_,
    hfirst.drain_eq hd ho hbound⟩
  have hsound : Sound d good w := by
    induction hw with
    | refl => exact hfirst
    | tail _ hv ih => exact ih.visits hd ho hv
  refine ⟨hsound.entries_eq hd ho, fun hne => ?_⟩
  obtain ⟨es, pending⟩ := w
  obtain ⟨b, queue, rfl⟩ := List.exists_cons_of_ne_nil hne
  exact ⟨_, hsound.visits_queue hd ho⟩

end Solved

end ResumableVM.Dataflow
