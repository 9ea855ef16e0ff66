import Mathlib.Tactic
import ResumableVM.Compile.Dataflow

/-! # Dataflow: the solution is stable, and covers what can be reached

A sweep only raises entries. `Lawful` says what an analysis has to provide for that: a set of good
states closed under all operations, and a rank that a join raises unless it changes nothing. Then
the sweeps end at entries that no further sweep changes (`stable_solve`): the state at the end of a
block is absorbed by the entry of every successor. Whatever holds of the start and is kept by flow
and join holds of every entry (`solve_induction`). The blocks with an entry are those that `Reaches`
leads to (`isSome_solve_iff`). -/

namespace ResumableVM.Dataflow

variable {α : Type}

/-! ### Folds that rise -/

/-- A step that raises `μ` whenever it changes anything. -/
def Rising {β γ : Type} (G : β → Prop) (μ : β → Nat) (f : β → γ → β) (c : γ) : Prop :=
  ∀ x, G x → G (f x c) ∧ (f x c = x ∨ μ x < μ (f x c))

theorem foldl_rising {β γ : Type} {G : β → Prop} {μ : β → Nat} {f : β → γ → β} :
    ∀ (l : List γ) (x : β), (∀ c ∈ l, Rising G μ f c) → G x →
      G (l.foldl f x) ∧ (l.foldl f x = x ∨ μ x < μ (l.foldl f x))
  | [], x, _, hx => ⟨hx, Or.inl rfl⟩
  | c :: l, x, h, hx => by
    obtain ⟨hg, hc⟩ := h c (by simp) x hx
    obtain ⟨hg', hl⟩ := foldl_rising l (f x c) (fun d hd => h d (by simp [hd])) hg
    refine ⟨hg', ?_⟩
    simp only [List.foldl_cons]
    rcases hc with hc | hc <;> rcases hl with hl | hl
    · left; rw [hl, hc]
    · right; rwa [hc] at hl ⊢
    · right; rwa [hl]
    · right; exact Nat.lt_trans hc hl

/-- When a rising fold changes nothing, none of its steps does. -/
theorem foldl_fixed {β γ : Type} {G : β → Prop} {μ : β → Nat} {f : β → γ → β} :
    ∀ (l : List γ) (x : β), (∀ c ∈ l, Rising G μ f c) → G x → l.foldl f x = x →
      ∀ c ∈ l, f x c = x
  | [], _, _, _, _ => by simp
  | c :: l, x, h, hx, hfix => by
    obtain ⟨hg, hc⟩ := h c (by simp) x hx
    have hrest : ∀ d ∈ l, Rising G μ f d := fun d hd => h d (by simp [hd])
    have hl := (foldl_rising l (f x c) hrest hg).2
    simp only [List.foldl_cons] at hfix
    have hstep : f x c = x := by
      rcases hc with hc | hc
      · exact hc
      · exfalso
        rcases hl with hl | hl <;> rw [hfix] at hl
        · rw [← hl] at hc; omega
        · omega
    intro d hd
    rcases List.mem_cons.mp hd with rfl | hd
    · exact hstep
    · rw [hstep] at hfix
      exact foldl_fixed l x hrest hx hfix d hd

/-! ### What an analysis has to provide -/

/-- The laws of an analysis whose states stay good and rise with the rank. -/
structure Lawful (d : Dataflow α) (good : α → Prop) (rank : α → Nat) : Prop where
  start : good d.start
  flow : ∀ block ∈ d.blocks, ∀ s, good s → good (block.flow s)
  join : ∀ s t, good s → good t → good (d.join s t)
  rank_le : ∀ s, good s → rank s ≤ d.height
  join_raises : ∀ s t, good s → good t → d.join s t = s ∨ rank s < rank (d.join s t)
  successors : ∀ block ∈ d.blocks, ∀ t ∈ block.successors, t < d.blocks.size

/-- Every entry is good. -/
def AllGood (d : Dataflow α) (good : α → Prop) (entries : Entries α) : Prop :=
  entries.size = d.blocks.size ∧ ∀ (b : Nat) (s : α), entries[b]? = some (some s) → good s

/-- The part of an entry in the rank of all entries. -/
def entryRank (rank : α → Nat) : Option α → Nat
  | none => 0
  | some s => rank s + 1

/-- The rank of all entries. -/
def totalRank (rank : α → Nat) (entries : Entries α) : Nat :=
  (entries.toList.map (entryRank rank)).sum

theorem sum_modify (g : Option α → Nat) (f : Option α → Option α) :
    ∀ (l : List (Option α)) (i : Nat) (o : Option α), l[i]? = some o →
      ((l.modify i f).map g).sum + g o = (l.map g).sum + g (f o)
  | [], _, _, h => by simp at h
  | a :: l, 0, o, h => by
    simp only [List.getElem?_cons_zero, Option.some.injEq] at h
    subst h
    simp; omega
  | a :: l, i + 1, o, h => by
    have ih := sum_modify g f l i o (by simpa using h)
    simp only [List.modify_succ_cons, List.map_cons, List.sum_cons]
    omega

theorem totalRank_modify (rank : α → Nat) (entries : Entries α) (f : Option α → Option α) {t : Nat}
    {o : Option α} (h : entries[t]? = some o) :
    totalRank rank (entries.modify t f) + entryRank rank o =
      totalRank rank entries + entryRank rank (f o) := by
  unfold totalRank
  rw [Array.toList_modify]
  exact sum_modify _ f _ t o (by simpa using h)

section Lawful

variable {d : Dataflow α} {good : α → Prop} {rank : α → Nat}

theorem totalRank_le (hd : Lawful d good rank) {entries : Entries α} (h : AllGood d good entries) :
    totalRank rank entries ≤ d.blocks.size * (d.height + 1) := by
  have hle : ∀ o ∈ entries.toList, entryRank rank o ≤ d.height + 1 := by
    intro o ho
    cases o with
    | none => simp [entryRank]
    | some s =>
      obtain ⟨b, hb⟩ := List.getElem?_of_mem ho
      have := hd.rank_le s (h.2 b s (by simpa using hb))
      simp only [entryRank]; omega
  have hsum : ∀ l : List (Option α), (∀ o ∈ l, entryRank rank o ≤ d.height + 1) →
      (l.map (entryRank rank)).sum ≤ l.length * (d.height + 1) := by
    intro l
    induction l with
    | nil => simp
    | cons a l ih =>
      intro hl
      have ha := hl a (by simp)
      have := ih fun o ho => hl o (by simp [ho])
      simp only [List.map_cons, List.sum_cons, List.length_cons, Nat.add_mul]; omega
  have := hsum _ hle
  rwa [Array.length_toList, h.1] at this

/-- Merging a good state into an entry raises the entries unless it changes nothing. -/
theorem merge_rising (hd : Lawful d good rank) {out : α} (ho : good out) {t : Nat}
    (ht : t < d.blocks.size) :
    Rising (AllGood d good) (totalRank rank) (fun es t => es.modify t (d.merge out)) t := by
  intro es hes
  have hlt : t < es.size := by rw [hes.1]; exact ht
  have hsome : ∃ o, es[t]? = some o := ⟨_, Array.getElem?_eq_getElem hlt⟩
  obtain ⟨o, hget⟩ := hsome
  have hmerge : ∃ s, d.merge out o = some s ∧ good s ∧
      (d.merge out o = o ∨ entryRank rank o < entryRank rank (some s)) := by
    cases o with
    | none => exact ⟨out, rfl, ho, Or.inr (by simp [entryRank])⟩
    | some s =>
      have hs := hes.2 t s hget
      refine ⟨d.join s out, rfl, hd.join s out hs ho, ?_⟩
      rcases hd.join_raises s out hs ho with h | h
      · left; simp [merge, h]
      · right; simp only [entryRank]; omega
  obtain ⟨s, hs, hg, hr⟩ := hmerge
  have htotal := totalRank_modify rank es (d.merge out) hget
  refine ⟨⟨by simp [hes.1], fun b s' hb => ?_⟩, ?_⟩
  · rw [Array.getElem?_modify] at hb
    split at hb
    · next h =>
      subst h
      rw [hget] at hb
      simp only [Option.map_some, Option.some.injEq, hs] at hb
      exact hb ▸ hg
    · exact hes.2 b s' hb
  · rcases hr with hr | hr
    · left
      apply Array.ext_getElem?
      intro i
      rw [Array.getElem?_modify]
      split
      · next h => subst h; rw [hget]; simp [hr]
      · rfl
    · right
      rw [hs] at htotal
      simp only; omega

theorem propagate_rising (hd : Lawful d good rank) (b : Nat) :
    Rising (AllGood d good) (totalRank rank) d.propagate b := by
  intro es hes
  unfold propagate
  split
  · next s block hs hb =>
    have hmem : block ∈ d.blocks := Array.mem_of_getElem? hb
    have hgood : good s := hes.2 b s (Option.join_eq_some_iff.mp hs)
    exact foldl_rising _ _ (fun t ht => merge_rising hd (hd.flow block hmem s hgood)
      (hd.successors block hmem t ht)) hes
  · exact ⟨hes, Or.inl rfl⟩

theorem sweep_rising (hd : Lawful d good rank) {es : Entries α} (hes : AllGood d good es) :
    AllGood d good (d.sweep es) ∧
      (d.sweep es = es ∨ totalRank rank es < totalRank rank (d.sweep es)) :=
  foldl_rising _ _ (fun b _ => propagate_rising hd b) hes

theorem allGood_initial (hd : Lawful d good rank) : AllGood d good d.initial := by
  refine ⟨by simp [initial], fun b s h => ?_⟩
  simp only [initial, Array.getElem?_setIfInBounds, Array.getElem?_replicate] at h
  split at h
  · split at h
    · simp only [Option.some.injEq] at h
      exact h ▸ hd.start
    · simp at h
  · split at h <;> simp at h

variable [DecidableEq α]

/-- With more sweeps to go than the entries can rise, the sweeps end where nothing changes. -/
theorem sweep_iterate (hd : Lawful d good rank) :
    ∀ (fuel : Nat) (es : Entries α), AllGood d good es →
      d.blocks.size * (d.height + 1) < fuel + totalRank rank es →
      AllGood d good (d.iterate fuel es) ∧ d.sweep (d.iterate fuel es) = d.iterate fuel es
  | 0, es, hes, hf => by
    have := totalRank_le hd hes
    omega
  | fuel + 1, es, hes, hf => by
    simp only [iterate]
    split
    · next h => exact ⟨hes, h⟩
    · next h =>
      obtain ⟨hg, hr⟩ := sweep_rising hd hes
      have hlt := hr.resolve_left h
      exact sweep_iterate hd fuel _ hg (by omega)

theorem allGood_solve (hd : Lawful d good rank) : AllGood d good d.solve :=
  (sweep_iterate hd _ _ (allGood_initial hd) (by omega)).1

/-- **The solution is stable**: what leaves a block is absorbed by the entry of every successor. -/
theorem stable_solve (hd : Lawful d good rank) {b t : Nat} {block : FlowBlock α} {s : α}
    (hb : d.blocks[b]? = some block) (hs : d.solve[b]? = some (some s))
    (ht : t ∈ block.successors) :
    ∃ s', d.solve[t]? = some (some s') ∧ d.join s' (block.flow s) = s' := by
  obtain ⟨hgood, hfix⟩ := sweep_iterate hd _ _ (allGood_initial hd)
    (show _ < d.blocks.size * (d.height + 1) + 1 + _ by omega)
  change AllGood d good d.solve at hgood
  change d.sweep d.solve = d.solve at hfix
  have hblt : b < d.blocks.size := (Array.getElem?_eq_some_iff.mp hb).1
  have hmem : block ∈ d.blocks := Array.mem_of_getElem? hb
  have hp := foldl_fixed _ _ (fun b _ => propagate_rising hd b) hgood hfix b
    (List.mem_range.mpr hblt)
  have hstep : block.successors.foldl (fun es t => es.modify t (d.merge (block.flow s))) d.solve
      = d.solve := by
    have hj : d.solve[b]?.join = some s := by rw [hs]; rfl
    unfold propagate at hp
    rw [hj, hb] at hp
    exact hp
  have hout := hd.flow block hmem s (hgood.2 b s hs)
  have hm := foldl_fixed _ _ (fun t ht => merge_rising hd hout (hd.successors block hmem t ht))
    hgood hstep t ht
  have hlt : t < d.solve.size := by rw [hgood.1]; exact hd.successors block hmem t ht
  have hget := congrArg (·[t]?) hm
  simp only [Array.getElem?_modify, if_true, Array.getElem?_eq_getElem hlt, Option.map_some,
    Option.some.injEq] at hget
  rw [Array.getElem?_eq_getElem hlt]
  cases hentry : d.solve[t] with
  | none => rw [hentry] at hget; simp [merge] at hget
  | some s' =>
    rw [hentry] at hget
    exact ⟨s', rfl, by simpa [merge] using hget⟩

end Lawful

/-! ### What holds of every entry -/

theorem initial_zero {d : Dataflow α} (h : 0 < d.blocks.size) :
    d.initial[0]? = some (some d.start) := by
  simp [initial, h]

variable [DecidableEq α] {d : Dataflow α}

/-- What merges keep, sweeps keep. `K` is what is known of a state that is read from an entry; the
merges that follow may change that entry. -/
theorem solve_preserves {I : Entries α → Prop} {K : Nat → α → Prop} (hinit : I d.initial)
    (hread : ∀ es b s, I es → es[b]? = some (some s) → K b s)
    (hmerge : ∀ b block s t es, d.blocks[b]? = some block → K b s → t ∈ block.successors →
      I es → I (es.modify t (d.merge (block.flow s)))) : I d.solve := by
  have hfold : ∀ b block s, d.blocks[b]? = some block → K b s →
      ∀ (l : List Nat), (∀ t ∈ l, t ∈ block.successors) → ∀ es, I es →
        I (l.foldl (fun es t => es.modify t (d.merge (block.flow s))) es) := by
    intro b block s hb hK l
    induction l with
    | nil => exact fun _ es hes => hes
    | cons t l ih =>
      intro hl es hes
      exact ih (fun u hu => hl u (by simp [hu])) _
        (hmerge b block s t es hb hK (hl t (by simp)) hes)
  have hprop : ∀ es b, I es → I (d.propagate es b) := by
    intro es b hes
    unfold propagate
    split
    · next s block hs hb =>
      exact hfold b block s hb (hread es b s hes (Option.join_eq_some_iff.mp hs)) _
        (fun _ h => h) es hes
    · exact hes
  have hsweep : ∀ (l : List Nat) es, I es → I (l.foldl d.propagate es) := by
    intro l
    induction l with
    | nil => exact fun es hes => hes
    | cons b l ih => exact fun es hes => ih _ (hprop es b hes)
  have hiter : ∀ (fuel : Nat) es, I es → I (d.iterate fuel es) := by
    intro fuel
    induction fuel with
    | zero => exact fun es hes => hes
    | succ fuel ih =>
      intro es hes
      simp only [iterate]
      split
      · exact hes
      · exact ih _ (hsweep _ es hes)
  exact hiter _ _ hinit

/-- What holds of the start, of a state that flows to a block, and of a join with such a state holds
of every entry. The entry of the first block is never made anew. -/
theorem solve_induction {P : Nat → α → Prop} (h0 : P 0 d.start)
    (hflow : ∀ b block s t, d.blocks[b]? = some block → P b s → t ∈ block.successors → t ≠ 0 →
      P t (block.flow s))
    (hjoin : ∀ b block s t s', d.blocks[b]? = some block → P b s → t ∈ block.successors → P t s' →
      P t (d.join s' (block.flow s)))
    {b : Nat} {s : α} (hs : d.solve[b]? = some (some s)) : P b s := by
  have h : (∀ b s, d.solve[b]? = some (some s) → P b s) ∧ d.solve[0]? ≠ some none := by
    refine solve_preserves (K := P)
      (I := fun es => (∀ b s, es[b]? = some (some s) → P b s) ∧ es[0]? ≠ some none)
      ⟨fun c s' hc => ?_, ?_⟩ (fun es b s hes => hes.1 b s) ?_
    · simp only [initial, Array.getElem?_setIfInBounds, Array.getElem?_replicate] at hc
      split at hc
      · next h =>
        subst h
        split at hc
        · simp only [Option.some.injEq] at hc
          exact hc ▸ h0
        · simp at hc
      · split at hc <;> simp at hc
    · rcases Nat.eq_zero_or_pos d.blocks.size with h | h
      · simp [initial, h]
      · rw [initial_zero h]; simp
    · rintro b block s t es hb hP ht ⟨hes, hzero⟩
      refine ⟨fun c s' hc => ?_, ?_⟩ <;> rw [Array.getElem?_modify] at *
      · split at hc
        · next h =>
          subst h
          rcases hget : es[t]? with _ | _ | r <;> rw [hget] at hc <;>
            simp only [Option.map_none, Option.map_some, merge, Option.some.injEq,
              reduceCtorEq] at hc
          · have hne : t ≠ 0 := fun h => hzero (h ▸ hget)
            exact hc ▸ hflow b block s t hb hP ht hne
          · exact hc ▸ hjoin b block s t r hb hP ht (hes t r hget)
        · exact hes c s' hc
      · split
        · rcases es[0]? with _ | _ | r <;> simp [merge]
        · exact hzero
  exact h.1 b s hs

/-- The first block keeps an entry. -/
theorem solve_zero (h : 0 < d.blocks.size) : ∃ s, d.solve[0]? = some (some s) := by
  refine solve_preserves (K := fun _ _ => True) (I := fun es => ∃ s, es[0]? = some (some s))
    ⟨d.start, initial_zero h⟩ (fun _ _ _ _ _ => trivial) ?_
  rintro b block s t es - - - ⟨r, hr⟩
  rw [Array.getElem?_modify, hr]
  split
  · exact ⟨_, rfl⟩
  · exact ⟨r, rfl⟩

/-- The blocks that control can pass to from the first block. -/
inductive Reaches (successors : Nat → List Nat) : Nat → Prop
  | first : Reaches successors 0
  | next {b t : Nat} (hb : Reaches successors b) (ht : t ∈ successors b) : Reaches successors t

/-- The successors of a block of an analysis. -/
def successorsOf (d : Dataflow α) (b : Nat) : List Nat :=
  (d.blocks[b]?.map FlowBlock.successors).getD []

/-- **Entries are for reachable blocks**, and for all of them. -/
theorem isSome_solve_iff {good : α → Prop} {rank : α → Nat} (hd : Lawful d good rank)
    (h : 0 < d.blocks.size) {b : Nat} :
    (∃ s, d.solve[b]? = some (some s)) ↔ Reaches d.successorsOf b := by
  constructor
  · rintro ⟨s, hs⟩
    refine solve_induction (P := fun b _ => Reaches d.successorsOf b) Reaches.first ?_ ?_ hs
    · intro b block s t hb hP ht _
      exact hP.next (by simpa [successorsOf, hb] using ht)
    · intro b block s t s' _ _ _ hP
      exact hP
  · intro hr
    induction hr with
    | first => exact solve_zero h
    | @next b t _ ht ih =>
      obtain ⟨s, hs⟩ := ih
      unfold successorsOf at ht
      cases hb : d.blocks[b]? with
      | none => rw [hb] at ht; simp at ht
      | some block =>
        rw [hb] at ht
        obtain ⟨s', hs', -⟩ := stable_solve hd hb hs (by simpa using ht)
        exact ⟨s', hs'⟩

end ResumableVM.Dataflow
