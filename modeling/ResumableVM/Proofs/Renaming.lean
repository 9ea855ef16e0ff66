import ResumableVM.Proofs.Acceptance
import ResumableVM.Proofs.Walk
import ResumableVM.Proofs.Windows

/-! # Renaming: two calls that keep their registers differently

A `Renaming` pairs cells of two stores. Stores are alike under it when they have the same tables and
the same closures up to the names of cells, and paired cells hold the same value. A scope with some
registers in place is alike one with all registers in cells when registers in cells have paired
cells, and a register in place has the value of a cell that is paired with none.

Every operation does the same to both (`Setting.Alike.perform`): it goes on to scopes and stores
that are alike under a renaming that pairs more cells, or makes the same request, or fails with the
same error.
-/

namespace ResumableVM

/-- Which cells of two stores correspond. -/
abbrev Renaming := CellId → CellId → Prop

namespace Renaming

/-- One more pair. -/
def insert (ρ : Renaming) (c c' : CellId) : Renaming := fun d d' => ρ d d' ∨ d = c ∧ d' = c'

/-- The cell is paired with none. -/
def Alone (ρ : Renaming) (c' : CellId) : Prop := ∀ c, ¬ ρ c c'

/-- Every cell of a store stands for itself. -/
def identity (st : Store) : Renaming := fun c c' => c = c' ∧ c.index < st.cells.size

end Renaming

/-- The same code, and paired cells. -/
structure Closure.Alike (ρ : Renaming) (c c' : Closure) : Prop where
  code : c.code = c'.code
  upvalues : List.Forall₂ ρ c.upvalues.toList c'.upvalues.toList

/-- **The same heap up to the names of cells.** -/
structure Store.Alike (ρ : Renaming) (st st' : Store) : Prop where
  tables : st.tables = st'.tables
  kinds : st.kindMetatable = st'.kindMetatable
  closures : List.Forall₂ (Closure.Alike ρ) st.closures.toList st'.closures.toList
  exist : ∀ {c c'}, ρ c c' → c.index < st.cells.size ∧ c'.index < st'.cells.size
  values : ∀ {c c'}, ρ c c' → st.cell c = st'.cell c'
  injective : ∀ {c c' d d'}, ρ c c' → ρ d d' → (c = d ↔ c' = d')

theorem Closure.Alike.mono {ρ ρ' : Renaming} {c c' : Closure} (h : c.Alike ρ c')
    (hle : ρ ≤ ρ') : c.Alike ρ' c' := ⟨h.code, h.upvalues.imp hle⟩

namespace Store

theorem size_setCell (st : Store) (c : CellId) (v : Value) :
    (st.setCell c v).cells.size = st.cells.size := by simp [setCell]

namespace Alike

variable {ρ : Renaming} {st st' : Store}

/-- Paired cells get the same value. -/
theorem setCell (h : st.Alike ρ st') {c c' : CellId} (hc : ρ c c') (v : Value) :
    (st.setCell c v).Alike ρ (st'.setCell c' v) where
  tables := h.tables
  kinds := h.kinds
  closures := h.closures
  exist hd := by rw [size_setCell, size_setCell]; exact h.exist hd
  values {d d'} hd := by
    by_cases heq : c = d
    · have heq' := (h.injective hc hd).mp heq
      rw [← heq, ← heq', cell_setCell st v (h.exist hc).1, cell_setCell st' v (h.exist hc).2]
    · have hne' : c' ≠ d' := fun heq' => heq ((h.injective hc hd).mpr heq')
      rw [cell_setCell_of_ne st v heq, cell_setCell_of_ne st' v hne']
      exact h.values hd
  injective := h.injective

/-- A cell that is paired with none gets a value. -/
theorem setCell_alone (h : st.Alike ρ st') {c' : CellId} (hc : ρ.Alone c') (v : Value) :
    st.Alike ρ (st'.setCell c' v) where
  tables := h.tables
  kinds := h.kinds
  closures := h.closures
  exist hd := by rw [size_setCell]; exact h.exist hd
  values {d d'} hd := by
    have hne : c' ≠ d' := fun heq => hc d (heq ▸ hd)
    rw [cell_setCell_of_ne st' v hne]
    exact h.values hd
  injective := h.injective

/-- A new cell on the other side is paired with none. -/
theorem addCell_alone (h : st.Alike ρ st') (v : Value) :
    st.Alike ρ (st'.addCell v).2 ∧ ρ.Alone (st'.addCell v).1 := by
  refine ⟨⟨h.tables, h.kinds, h.closures, fun hd => ?_, fun hd => ?_, h.injective⟩, fun c hc => ?_⟩
  · obtain ⟨h1, h2⟩ := h.exist hd
    exact ⟨h1, by simp only [addCell, Array.size_push]; omega⟩
  · rw [cell_addCell_of_lt st' v (h.exist hd).2]
    exact h.values hd
  · exact absurd (h.exist hc).2 (by simp [addCell])

/-- A new cell is paired with one that was paired with none and has the value. -/
theorem addCell_insert (h : st.Alike ρ st') {c' : CellId} (hc : ρ.Alone c')
    (hlt : c'.index < st'.cells.size) {v : Value} (hv : st'.cell c' = v) :
    (st.addCell v).2.Alike (ρ.insert (st.addCell v).1 c') st' where
  tables := h.tables
  kinds := h.kinds
  closures := h.closures.imp fun _ _ hd => hd.mono fun _ _ => Or.inl
  exist := by
    rintro d d' (hd | ⟨rfl, rfl⟩)
    · obtain ⟨h1, h2⟩ := h.exist hd
      exact ⟨by simp only [addCell, Array.size_push]; omega, h2⟩
    · exact ⟨by simp [addCell], hlt⟩
  values := by
    rintro d d' (hd | ⟨rfl, rfl⟩)
    · rw [cell_addCell_of_lt st v (h.exist hd).1]
      exact h.values hd
    · rw [cell_addCell, hv]
  injective := by
    have hnew : ∀ {d d'}, ρ d d' → (st.addCell v).1 ≠ d := fun hd heq =>
      absurd (h.exist hd).1 (by rw [← heq]; simp [addCell])
    rintro d d' e e' (hd | ⟨rfl, rfl⟩) (he | ⟨rfl, rfl⟩)
    · exact h.injective hd he
    · exact ⟨fun heq => absurd heq.symm (hnew hd), fun heq => absurd (heq ▸ hd) (hc d)⟩
    · exact ⟨fun heq => absurd heq (hnew he), fun heq => absurd (heq ▸ he) (hc e)⟩
    · simp

theorem addTable (h : st.Alike ρ st') (t : Table) :
    (st.addTable t).2.Alike ρ (st'.addTable t).2 ∧ (st.addTable t).1 = (st'.addTable t).1 :=
  ⟨⟨by simp [Store.addTable, h.tables], h.kinds, h.closures, h.exist, h.values, h.injective⟩,
    by simp [Store.addTable, h.tables]⟩

theorem addClosure (h : st.Alike ρ st') {c c' : Closure} (hc : c.Alike ρ c') :
    (st.addClosure c).2.Alike ρ (st'.addClosure c').2 ∧
      (st.addClosure c).1 = (st'.addClosure c').1 := by
  have hlen := h.closures.length_eq
  refine ⟨⟨h.tables, h.kinds, ?_, h.exist, h.values, h.injective⟩, ?_⟩
  · simp only [Store.addClosure, Array.toList_push]
    exact List.rel_append h.closures (.cons hc .nil)
  · simp only [Store.addClosure]
    rw [← Array.length_toList, hlen, Array.length_toList]

theorem modifyTable (h : st.Alike ρ st') (id : TableId) (f : Table → Table) :
    (st.modifyTable id f).Alike ρ (st'.modifyTable id f) :=
  ⟨by simp [Store.modifyTable, h.tables], h.kinds, h.closures, h.exist, h.values, h.injective⟩

theorem handler (h : st.Alike ρ st') (v : Value) (event : Event) :
    st.handler v event = st'.handler v event := by
  simp only [Store.handler, metatableOf, table, h.tables, h.kinds]

theorem binaryHandler (h : st.Alike ρ st') (a b : Value) (event : Event) :
    st.binaryHandler a b event = st'.binaryHandler a b event := by
  simp only [Store.binaryHandler, h.handler]

/-- Comparison does not look at cells. -/
theorem compare (h : st.Alike ρ st') (op : CompareOp) (a b : Value) :
    st.compare op a b = st'.compare op a b := by
  have hequal : st.equal a b = st'.equal a b := by
    simp only [equal, h.binaryHandler]
  have horder (event : Event) : st.order a b event = st'.order a b event := by
    simp only [order, h.binaryHandler]
  cases op <;> simp only [Store.compare, less, lessEqual, hequal, horder]

/-- What becomes of a request does not depend on cells. -/
theorem resolve (h : st.Alike ρ st') (limit : Nat) (q : Request) :
    st.resolve limit q = st'.resolve limit q := by
  have hentry (v key : Value) : st.rawEntry v key = st'.rawEntry v key := by
    simp only [rawEntry, table, h.tables]
  have hindex (key : Value) : ∀ (limit : Nat) (v : Value),
      st.resolveIndex key limit v = st'.resolveIndex key limit v := by
    intro limit
    induction limit with
    | zero => intro v; rfl
    | succ limit ih => intro v; simp only [resolveIndex, hentry, h.handler, ih]
  cases q with
  | call target args => rfl
  | index v key => exact hindex key limit v
  | length v => simp only [Store.resolve, resolveLength, h.handler, table, h.tables]
  | arith op a b =>
    show st.resolveArith op a b = st'.resolveArith op a b
    unfold resolveArith
    rw [h.binaryHandler]

end Alike

end Store

/-! ### Registers -/

/-- A register in place has the value of a cell that is paired with none; one in a cell has a paired
cell. -/
def Slot.Alike (ρ : Renaming) (st' : Store) : Slot → CellId → Prop
  | .plain v, c' => c'.index < st'.cells.size ∧ st'.cell c' = v ∧ ρ.Alone c'
  | .boxed c, c' => ρ c c'

namespace Slot.Alike

variable {ρ : Renaming} {st' : Store} {s : Slot} {c' : CellId}

/-- Only cells matter. -/
theorem of_cells (h : s.Alike ρ st' c') {st₁ : Store} (heq : st₁.cells = st'.cells) :
    s.Alike ρ st₁ c' := by
  cases s with
  | plain v =>
    obtain ⟨hlt, hv, halone⟩ := h
    exact ⟨heq ▸ hlt, by rw [← hv, Store.cell, Store.cell, heq], halone⟩
  | boxed c => exact h

theorem setCell (h : s.Alike ρ st' c') {d' : CellId} (hne : d' ≠ c') (v : Value) :
    s.Alike ρ (st'.setCell d' v) c' := by
  cases s with
  | plain u =>
    obtain ⟨hlt, hu, halone⟩ := h
    exact ⟨by rw [Store.size_setCell]; exact hlt, by rw [Store.cell_setCell_of_ne st' v hne, hu],
      halone⟩
  | boxed c => exact h

/-- The value of a paired cell changes. -/
theorem setCell_paired (h : s.Alike ρ st' c') {d d' : CellId} (hd : ρ d d') (v : Value) :
    s.Alike ρ (st'.setCell d' v) c' := by
  cases s with
  | plain u => exact setCell (s := .plain u) h (fun heq => h.2.2 d (heq ▸ hd)) v
  | boxed c => exact h

theorem addCell (h : s.Alike ρ st' c') (v : Value) : s.Alike ρ (st'.addCell v).2 c' := by
  cases s with
  | plain u =>
    obtain ⟨hlt, hu, halone⟩ := h
    refine ⟨?_, by rw [Store.cell_addCell_of_lt st' v hlt, hu], halone⟩
    simp only [Store.addCell, Array.size_push]
    omega
  | boxed c => exact h

theorem insert (h : s.Alike ρ st' c') {d d' : CellId} (hne : c' ≠ d') :
    s.Alike (ρ.insert d d') st' c' := by
  cases s with
  | plain u =>
    obtain ⟨hlt, hu, halone⟩ := h
    exact ⟨hlt, hu, fun e he => he.elim (halone e) fun heq => hne heq.2⟩
  | boxed c => exact Or.inl h

/-- The cell exists. -/
theorem lt (h : s.Alike ρ st' c') {st : Store} (hst : st.Alike ρ st') :
    c'.index < st'.cells.size := by
  cases s with
  | plain v => exact h.1
  | boxed c => exact (hst.exist h).2

end Slot.Alike

/-- **The same registers**, some in place on one side and all in cells on the other. -/
structure Window.Alike (ρ : Renaming) (st' : Store) (w : Window) (w' : Cells) : Prop where
  size : w.slots.size = w'.ids.size
  slots : ∀ {r : Nat} {s : Slot} {c' : CellId}, w.slots[r]? = some s → w'.ids[r]? = some c' →
    s.Alike ρ st' c'
  apart : ∀ {i j : Nat} {c' : CellId}, w'.ids[i]? = some c' → w'.ids[j]? = some c' → i = j

theorem Window.put_self {w : Window} {r : Nat} {s : Slot} (h : w.slots[r]? = some s) :
    w.put r s = w := by
  have hslots : w.slots.setIfInBounds r s = w.slots := by
    refine Array.ext_getElem? fun i => ?_
    by_cases hri : r = i
    · subst hri
      rw [Array.getElem?_setIfInBounds_self_of_lt (Array.getElem?_eq_some_iff.mp h).1, h]
    · rw [Array.getElem?_setIfInBounds_ne hri]
  rw [put, hslots]

namespace Window.Alike

variable {ρ : Renaming} {st st' : Store} {w : Window} {w' : Cells}

/-- A register is missing on both sides, or alike. -/
theorem lookup (h : w.Alike ρ st' w') (r : Nat) :
    (w.slots[r]? = none ∧ w'.ids[r]? = none) ∨
      ∃ s c', w.slots[r]? = some s ∧ w'.ids[r]? = some c' ∧ s.Alike ρ st' c' := by
  by_cases hr : r < w.slots.size
  · have hr' : r < w'.ids.size := h.size ▸ hr
    have hs := Array.getElem?_eq_getElem hr
    have hc := Array.getElem?_eq_getElem hr'
    exact Or.inr ⟨_, _, hs, hc, h.slots hs hc⟩
  · have hr' : ¬ r < w'.ids.size := h.size ▸ hr
    exact Or.inl ⟨by simpa using hr, by simpa using hr'⟩

theorem value (h : w.Alike ρ st' w') (hst : st.Alike ρ st') (r : Nat) :
    w.value st r = w'.value st' r := by
  unfold Window.value Cells.value
  rcases h.lookup r with ⟨hs, hc⟩ | ⟨s, c', hs, hc, halike⟩
  · rw [hs, hc]
  · rw [hs, hc]
    cases s with
    | plain v => exact halike.2.1.symm
    | boxed c => exact hst.values halike

theorem of_cells (h : w.Alike ρ st' w') {st₁ : Store} (heq : st₁.cells = st'.cells) :
    w.Alike ρ st₁ w' :=
  ⟨h.size, fun hs hc => (h.slots hs hc).of_cells heq, h.apart⟩

theorem setCell_paired (h : w.Alike ρ st' w') {c c' : CellId} (hc : ρ c c') (v : Value) :
    w.Alike ρ (st'.setCell c' v) w' :=
  ⟨h.size, fun hs hd => (h.slots hs hd).setCell_paired hc v, h.apart⟩

/-- **One register changes**, with its cell or without, while the others stay alike. -/
theorem update (h : w.Alike ρ st' w') {ρ' : Renaming} {st₁ : Store} {w₁ : Cells} {r : Nat}
    {s : Slot} {c' : CellId} (hsize : w₁.ids.size = w'.ids.size) (hc : w₁.ids[r]? = some c')
    (hsame : ∀ {i : Nat}, i ≠ r → w₁.ids[i]? = w'.ids[i]?) (hs : s.Alike ρ' st₁ c')
    (hothers : ∀ {i : Nat} {t : Slot} {d' : CellId}, i ≠ r → w.slots[i]? = some t →
      w'.ids[i]? = some d' → d' ≠ c' ∧ t.Alike ρ' st₁ d') : (w.put r s).Alike ρ' st₁ w₁ := by
  have hapart : ∀ {i : Nat}, i ≠ r → w₁.ids[i]? ≠ some c' := fun {i} hi heq => by
    rw [hsame hi] at heq
    rcases h.lookup i with ⟨-, hnone⟩ | ⟨t, d', ht, hd, -⟩
    · cases hnone.symm.trans heq
    · cases hd.symm.trans heq
      exact (hothers hi ht hd).1 rfl
  refine ⟨by simp [Window.put, h.size, hsize], fun {i t d'} ht hd => ?_, fun {i j d'} hi hj => ?_⟩
  · by_cases hir : i = r
    · subst hir
      cases hc.symm.trans hd
      have hlt : i < w.slots.size :=
        lt_of_lt_of_eq (Array.getElem?_eq_some_iff.mp hc).1 (hsize.trans h.size.symm)
      simp only [Window.put, Array.getElem?_setIfInBounds_self_of_lt hlt, Option.some.injEq] at ht
      exact ht ▸ hs
    · simp only [Window.put, Array.getElem?_setIfInBounds_ne (Ne.symm hir)] at ht
      exact (hothers hir ht (hsame hir ▸ hd)).2
  · by_cases hir : i = r <;> by_cases hjr : j = r
    · rw [hir, hjr]
    · subst hir
      exact absurd (hj.trans (hi.symm.trans hc)) (hapart hjr)
    · subst hjr
      exact absurd (hi.trans (hj.symm.trans hc)) (hapart hir)
    · exact h.apart (hsame hir ▸ hi) (hsame hjr ▸ hj)

/-- The cell of another register is another one. -/
theorem ne (h : w.Alike ρ st' w') {i r : Nat} {c' d' : CellId} (hi : i ≠ r)
    (hc : w'.ids[r]? = some c') (hd : w'.ids[i]? = some d') : d' ≠ c' := fun heq =>
  hi (h.apart hd (heq ▸ hc))

/-- The same value is assigned on both sides. -/
theorem assign (h : w.Alike ρ st' w') (hst : st.Alike ρ st') (r : Nat) (v : Value) :
    (w.assign st r v).2.Alike ρ (w'.assign st' r v).2 ∧
      (w.assign st r v).1.Alike ρ (w'.assign st' r v).2 (w'.assign st' r v).1 := by
  unfold Window.assign Cells.assign
  rcases h.lookup r with ⟨hs, hc⟩ | ⟨s, c', hs, hc, halike⟩
  · rw [hs, hc]
    have hput : w.put r (.plain v) = w := by
      have hle : w.slots.size ≤ r := by simpa using hs
      simp [Window.put, Array.setIfInBounds_eq_of_size_le hle]
    exact ⟨hst, by rw [hput]; exact h⟩
  · rw [hs, hc]
    cases s with
    | plain u =>
      obtain ⟨hlt, -, halone⟩ := halike
      refine ⟨hst.setCell_alone halone v, h.update rfl hc (fun _ => rfl) ⟨?_, ?_, halone⟩
        fun hi ht hd => ⟨h.ne hi hc hd, (h.slots ht hd).setCell (h.ne hi hc hd).symm v⟩⟩
      · rw [Store.size_setCell]; exact hlt
      · exact Store.cell_setCell st' v hlt
    | boxed c => exact ⟨hst.setCell halike v, h.setCell_paired halike v⟩

/-- A register moves into a new cell, which is paired with the one that it has on the other side. -/
theorem share (h : w.Alike ρ st' w') (hst : st.Alike ρ st') (r : Nat) :
    ∃ ρ' : Renaming, ρ ≤ ρ' ∧ (w.share st r).2.Alike ρ' st' ∧
      (w.share st r).1.Alike ρ' st' w' := by
  unfold Window.share
  rcases h.lookup r with ⟨hs, hc⟩ | ⟨s, c', hs, hc, halike⟩
  · rw [hs]
    exact ⟨ρ, le_rfl, hst, h⟩
  · rw [hs]
    cases s with
    | plain v =>
      obtain ⟨hlt, hv, halone⟩ := halike
      exact ⟨ρ.insert (st.addCell v).1 c', fun _ _ => Or.inl, hst.addCell_insert halone hlt hv,
        h.update rfl hc (fun _ => rfl) (Or.inr ⟨rfl, rfl⟩)
          fun hi ht hd => ⟨h.ne hi hc hd, (h.slots ht hd).insert (h.ne hi hc hd)⟩⟩
    | boxed c => exact ⟨ρ, le_rfl, hst, h⟩

/-- A register leaves its cell, and has a new one on the other side. -/
theorem close (h : w.Alike ρ st' w') (hst : st.Alike ρ st') (r : Nat) :
    st.Alike ρ (w'.close st' r).2 ∧
      (w.close st r).Alike ρ (w'.close st' r).2 (w'.close st' r).1 := by
  unfold Window.close Cells.close
  rcases h.lookup r with ⟨hs, hc⟩ | ⟨s, c', hs, hc, halike⟩
  · rw [hs, hc]
    exact ⟨hst, h⟩
  · rw [hs, hc]
    obtain ⟨hst₁, halone⟩ := hst.addCell_alone (st'.cell c')
    refine ⟨hst₁, ?_⟩
    have hput (v : Value) (hv : st'.cell c' = v) : (w.put r (.plain v)).Alike ρ
        (st'.addCell (st'.cell c')).2
        ⟨w'.ids.setIfInBounds r (st'.addCell (st'.cell c')).1⟩ := by
      have hlt : r < w'.ids.size := (Array.getElem?_eq_some_iff.mp hc).1
      refine h.update (by simp) (Array.getElem?_setIfInBounds_self_of_lt hlt)
        (fun hi => Array.getElem?_setIfInBounds_ne (Ne.symm hi)) ⟨?_, ?_, halone⟩
        fun hi ht hd => ⟨fun heq => ?_, (h.slots ht hd).addCell _⟩
      · simp [Store.addCell]
      · rw [Store.cell_addCell, hv]
      · have := (h.slots ht hd).lt hst
        rw [heq] at this
        simp [Store.addCell] at this
    cases s with
    | plain v =>
      have hput := hput v halike.2.1
      rw [put_self hs] at hput
      exact hput
    | boxed c => exact hput _ (hst.values halike).symm

end Window.Alike

/-- Registers in place, and new cells for their values. -/
theorem Store.Alike.allocate {ρ : Renaming} {st st' : Store} (h : st.Alike ρ st')
    (vs : List Value) :
    st.Alike ρ (Cells.allocate st' vs).2 ∧
      Window.Alike ρ (Cells.allocate st' vs).2 ⟨(vs.map Slot.plain).toArray⟩
        (Cells.allocate st' vs).1 := by
  have hold {c : CellId} (hlt : c.index < st'.cells.size) :
      (Cells.allocate st' vs).2.cell c = st'.cell c := by
    simp [Cells.allocate, Store.cell, Array.getElem?_append, hlt]
  have hsize : (Cells.allocate st' vs).2.cells.size = st'.cells.size + vs.length := by
    simp [Cells.allocate]
  have hids {r : Nat} {c' : CellId} (hc : (Cells.allocate st' vs).1.ids[r]? = some c') :
      r < vs.length ∧ c' = ⟨st'.cells.size + r⟩ := by
    simp only [Cells.allocate, List.getElem?_toArray, List.getElem?_map, Option.map_eq_some_iff]
      at hc
    obtain ⟨i, hi, rfl⟩ := hc
    obtain ⟨hlt, rfl⟩ := List.getElem?_eq_some_iff.mp hi
    rw [List.length_range] at hlt
    exact ⟨hlt, by simp⟩
  refine ⟨⟨h.tables, h.kinds, h.closures, fun hc => ?_, fun hc => ?_, h.injective⟩,
    by simp [Cells.allocate], fun {r s c'} hs hc => ?_, fun {i j c'} hi hj => ?_⟩
  · obtain ⟨h1, h2⟩ := h.exist hc
    exact ⟨h1, by omega⟩
  · rw [hold (h.exist hc).2]
    exact h.values hc
  · obtain ⟨hr, rfl⟩ := hids hc
    have hslot : s = .plain vs[r] := by
      simpa [List.getElem?_eq_getElem hr] using hs.symm
    rw [hslot]
    refine ⟨by rw [hsize]; show st'.cells.size + r < _; omega, ?_, fun c hpair => ?_⟩
    · simp [Cells.allocate, Store.cell, Array.getElem?_append, List.getElem?_eq_getElem hr]
    · have := (h.exist hpair).2
      exact absurd this (by simp)
  · obtain ⟨-, rfl⟩ := hids hi
    obtain ⟨-, heq⟩ := hids hj
    have := congrArg CellId.index heq
    simp only at this
    omega

/-! ### Scopes -/

/-- **The same scope** with the same heap. -/
structure Scope.Alike (ρ : Renaming) (x : Scope Window × Store) (x' : Scope Cells × Store) :
    Prop where
  heap : x.2.Alike ρ x'.2
  file : x.1.file.Alike ρ x'.2 x'.1.file
  varargs : x.1.varargs = x'.1.varargs
  multi : x.1.multi = x'.1.multi

namespace Scope.Alike

variable {ρ : Renaming} {s : Scope Window} {s' : Scope Cells} {st st' : Store}

theorem value (h : Alike ρ (s, st) (s', st')) (o : Operand) : s.value st o = s'.value st' o := by
  cases o with
  | register r => exact h.file.value h.heap r
  | const c => rfl

theorem values (h : Alike ρ (s, st) (s', st')) (args : Args) :
    s.values st args = s'.values st' args := by
  have hmulti : s.multi = s'.multi := h.multi
  have hvalue : s.value st = s'.value st' := funext h.value
  simp only [Scope.values, hvalue, hmulti]

theorem leave (h : Alike ρ (s, st) (s', st')) (e : Exit) : e.leave s st = e.leave s' st' := by
  cases e <;> simp only [Exit.leave, h.value, h.values]

/-- Something changes that the registers do not see. -/
theorem of_cells (h : Alike ρ (s, st) (s', st')) {st₁ st₁' : Store} (hst : st₁.Alike ρ st₁')
    (heq : st₁'.cells = st'.cells) : Alike ρ (s, st₁) (s', st₁') :=
  ⟨hst, h.file.of_cells heq, h.varargs, h.multi⟩

theorem assign (h : Alike ρ (s, st) (s', st')) (r : Nat) (v : Value) :
    Alike ρ (s.assign st r v) (s'.assign st' r v) := by
  obtain ⟨hst, hfile⟩ := h.file.assign h.heap r v
  exact ⟨hst, hfile, h.varargs, h.multi⟩

theorem assignAll : ∀ {rs : List Nat} {s : Scope Window} {s' : Scope Cells} {st st' : Store},
    Alike ρ (s, st) (s', st') → ∀ vs : List Value,
      Alike ρ (s.assignAll st rs vs) (s'.assignAll st' rs vs)
  | [], _, _, _, _, h, _ => h
  | r :: _, _, _, _, _, h, vs => assignAll (h.assign r (vs.headD .nil)) vs.tail

theorem receive (h : Alike ρ (s, st) (s', st')) (results : Results) (vs : List Value) :
    Alike ρ (s.receive st results vs) (s'.receive st' results vs) := by
  cases results with
  | fixed rs => exact h.assignAll vs
  | multi => exact ⟨h.heap, h.file, h.varargs, rfl⟩

/-- Registers move into cells on one side, and have them already on the other. -/
theorem shareAll : ∀ (rs : List Nat) {ρ : Renaming} {s : Scope Window} {st : Store},
    Alike ρ (s, st) (s', st') →
      ∃ ρ' : Renaming, ρ ≤ ρ' ∧ Alike ρ' (s.shareAll st rs) (s', st')
  | [], ρ, _, _, h => ⟨ρ, le_rfl, h⟩
  | r :: rs, ρ, s, st, h => by
    obtain ⟨ρ₁, hle, hst, hfile⟩ := h.file.share h.heap r
    have hshared : Alike ρ₁ ({ s with file := (s.file.share st r).1 }, (s.file.share st r).2)
        (s', st') := ⟨hst, hfile, h.varargs, h.multi⟩
    obtain ⟨ρ₂, hle', halike⟩ := shareAll rs hshared
    exact ⟨ρ₂, hle.trans hle', halike⟩

theorem shareAll_cells : ∀ (rs : List Nat) (s' : Scope Cells) (st' : Store),
    s'.shareAll st' rs = (s', st')
  | [], _, _ => rfl
  | _ :: rs, s', st' => shareAll_cells rs s' st'

theorem closeAll : ∀ (rs : List Nat) {s : Scope Window} {s' : Scope Cells} {st st' : Store},
    Alike ρ (s, st) (s', st') → Alike ρ (s.closeAll st rs) (s'.closeAll st' rs)
  | [], _, _, _, _, h => h
  | r :: rs, s, s', st, st', h => by
    obtain ⟨hst, hfile⟩ := h.file.close h.heap r
    have hclosed : Alike ρ ({ s with file := s.file.close st r }, st)
        ({ s' with file := (s'.file.close st' r).1 }, (s'.file.close st' r).2) :=
      ⟨hst, hfile, h.varargs, h.multi⟩
    exact closeAll rs hclosed

end Scope.Alike

/-! ### Operations -/

/-- The same comes of an operation; more cells may be paired then. -/
inductive Performed.Alike (ρ : Renaming) : Performed Window → Performed Cells → Prop
  | goesOn {ρ' : Renaming} {x : Scope Window × Store} {x' : Scope Cells × Store}
      (le : ρ ≤ ρ') (h : Scope.Alike ρ' x x') :
      Alike ρ (.goesOn x.1 x.2) (.goesOn x'.1 x'.2)
  | asks (q : Request) (results : Results) : Alike ρ (.asks q results) (.asks q results)
  | fails (e : Error) : Alike ρ (.fails e) (.fails e)

/-- The same setting up to the names of upvalue cells, with as many as the procedure declares. -/
structure Setting.Alike (ρ : Renaming) (c c' : Setting) : Prop where
  procedure : c.procedure = c'.procedure
  nested : c.nested = c'.nested
  upvalues : List.Forall₂ ρ c.upvalues.toList c'.upvalues.toList
  size : c.upvalues.size = c.procedure.upvalues.length

namespace Setting.Alike

variable {ρ : Renaming} {c c' : Setting} {s : Scope Window} {s' : Scope Cells} {st st' : Store}

theorem mono (h : c.Alike ρ c') {ρ' : Renaming} (hle : ρ ≤ ρ') :
    c.Alike ρ' c' := ⟨h.procedure, h.nested, h.upvalues.imp hle, h.size⟩

theorem upvalue (h : c.Alike ρ c') {i : Nat} (hi : i < c.procedure.upvalues.length) :
    ρ (c.upvalue i) (c'.upvalue i) := by
  have hlt : i < c.upvalues.size := h.size.symm ▸ hi
  have hlen : c.upvalues.size = c'.upvalues.size := h.upvalues.length_eq
  have hlt' : i < c'.upvalues.size := hlen ▸ hlt
  have hget := h.upvalues.get (i := i) hlt hlt'
  simpa [Setting.upvalue, hlt, hlt'] using hget

/-- Closures of a nested procedure are alike once the registers that it captures are in cells. -/
theorem closureOf (h : c.Alike ρ c') (hs : Scope.Alike ρ (s, st) (s', st')) {dst proto : Nat}
    (hop : c.procedure.ValidOp (.closure dst proto))
    (hcap : ∀ r ∈ c.procedure.capturedBy proto, s.file.states.of r = .captured) :
    (c.closureOf s proto).Alike ρ (c'.closureOf s' proto) := by
  obtain ⟨n, hn, hsources⟩ := hop.nested
  refine ⟨by simp only [Setting.closureOf, h.nested], ?_⟩
  have hsame : c'.sources proto = c.sources proto := by simp only [Setting.sources, h.procedure]
  have hlist : c.sources proto = n.upvalues := by simp [Setting.sources, hn]
  simp only [Setting.closureOf, hsame, hlist]
  rw [List.forall₂_map_left_iff, List.forall₂_map_right_iff, List.forall₂_same]
  intro source hmem
  cases source with
  | upvalue i => exact h.upvalue (hsources _ hmem)
  | register r =>
    have hr : r ∈ c.procedure.capturedBy proto := by
      simp only [Procedure.capturedBy, hn, Option.map_some, Option.getD_some]
      exact List.mem_filterMap.mpr ⟨_, hmem, rfl⟩
    obtain ⟨cell, hcell⟩ := Window.boxed_of_states (hcap r hr)
    rcases hs.file.lookup r with ⟨hnone, -⟩ | ⟨slot, c₁, hslot, hc₁, halike⟩
    · cases hcell.symm.trans hnone
    · cases hcell.symm.trans hslot
      have hleft : RegisterFile.cell s.file r = cell := by
        show Window.cellOf s.file r = cell
        rw [Window.cellOf, hcell]
      have hright : RegisterFile.cell s'.file r = c₁ := by
        show s'.file.ids[r]?.getD default = c₁
        rw [hc₁]; rfl
      simp only [Setting.capturedCell, hleft, hright]
      exact halike

/-- **An operation does the same on both sides.** -/
theorem perform (h : c.Alike ρ c') (hs : Scope.Alike ρ (s, st) (s', st')) {op : Op}
    (hop : c.procedure.ValidOp op) (hsize : s.file.size = c.procedure.registers) :
    (c.perform s st op).Alike ρ (c'.perform s' st' op) := by
  have hassign (dst : Nat) (v : Value) :
      Performed.Alike ρ (goOn (s.assign st dst v)) (goOn (s'.assign st' dst v)) :=
    .goesOn le_rfl (hs.assign dst v)
  cases op with
  | move dst src => simpa only [Setting.perform, hs.value] using hassign dst _
  | load dst value => exact hassign dst _
  | getUpvalue dst i =>
    have hcell := hs.heap.values (h.upvalue hop.upvalue_lt_of_get)
    simp only [Setting.perform]
    rw [hcell]
    exact hassign dst _
  | setUpvalue i src =>
    have hcell := h.upvalue hop.upvalue_lt_of_set
    have hset (v : Value) :
        Scope.Alike ρ (s, st.setCell (c.upvalue i) v) (s', st'.setCell (c'.upvalue i) v) :=
      ⟨hs.heap.setCell hcell v, hs.file.setCell_paired hcell v, hs.varargs, hs.multi⟩
    simp only [Setting.perform, hs.value]
    exact .goesOn le_rfl (hset _)
  | newTable dst =>
    obtain ⟨hst, hid⟩ := hs.heap.addTable .empty
    simp only [Setting.perform, assignNew]
    rw [hid]
    exact .goesOn le_rfl ((hs.of_cells hst rfl).assign dst _)
  | index dst table key => simpa only [Setting.perform, hs.value] using .asks _ _
  | setIndex table key value =>
    simp only [Setting.perform, hs.value, Setting.setIndex]
    cases s'.value st' (.register table) with
    | table id =>
      simp only [Store.rawSet]
      cases Table.keyFor (s'.value st' key) with
      | ok k =>
        have hset : Scope.Alike ρ
            (s, st.modifyTable id (·.set k (s'.value st' value)))
            (s', st'.modifyTable id (·.set k (s'.value st' value))) :=
          hs.of_cells (hs.heap.modifyTable id _) rfl
        exact .goesOn le_rfl hset
      | error failure => exact .fails _
    | _ => exact .fails _
  | arith dst op a b => simpa only [Setting.perform, hs.value] using .asks _ _
  | unary dst op src =>
    cases op with
    | not => simpa only [Setting.perform, hs.value] using hassign dst _
    | _ => simpa only [Setting.perform, hs.value] using .asks _ _
  | compare dst op a b =>
    simp only [Setting.perform, hs.value, hs.heap.compare]
    cases st'.compare op (s'.value st' a) (s'.value st' b) with
    | ok b => exact hassign dst _
    | error e => exact .fails e
  | call target args results =>
    simpa only [Setting.perform, hs.value, hs.values] using .asks _ _
  | closure dst proto =>
    obtain ⟨ρ', hle, hshared⟩ := hs.shareAll (c.procedure.capturedBy proto)
    have hcap : ∀ r ∈ c.procedure.capturedBy proto,
        (s.shareAll st (c.procedure.capturedBy proto)).1.file.states.of r = .captured := by
      intro r hr
      have hlt : r < s.file.states.length := by
        rw [Window.length_states, hsize]
        exact hop.capturedBy_lt r hr
      rw [Scope.states_shareAll, SlotStates.of_setAll _ _ _ hlt, if_pos hr]
    have hclosure : Closure.Alike ρ'
        (c.closureOf (s.shareAll st (c.procedure.capturedBy proto)).1 proto)
        (c'.closureOf s' proto) := (h.mono hle).closureOf hshared hop hcap
    obtain ⟨hst, hid⟩ := hshared.heap.addClosure hclosure
    simp only [Setting.perform, assignNew, Scope.Alike.shareAll_cells, ← h.procedure]
    rw [hid]
    exact .goesOn hle ((hshared.of_cells hst rfl).assign dst _)
  | close rs => exact .goesOn le_rfl (hs.closeAll rs)
  | vararg results =>
    have hvarargs : s.varargs = s'.varargs := hs.varargs
    simp only [Setting.perform, hvarargs]
    exact .goesOn le_rfl (hs.receive results _)

end Setting.Alike

end ResumableVM
