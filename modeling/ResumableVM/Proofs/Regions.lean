import ResumableVM.Proofs.NamedStores

/-! # Regions: the objects that a call can get at

A region is closed in a store when its objects are there and hold only objects of the region: what
starts in it never gets out of it, but for new objects. When a second store has the same objects in
the region, the two correspond under a naming: an object of the region stands for itself, and new
objects stand for each other in the order in which they are made (`Region.named`). What is outside
the region does not matter. -/

namespace ResumableVM

/-- Some objects of a store, by their places. -/
structure Region where
  tables : Set Nat
  closures : Set Nat
  cells : Set Nat

/-! ### What names objects of a region only -/

section Within

variable (R : Region)

def Function.Within : Function → Prop
  | .closure id => id.index ∈ R.closures
  | .routine _ => True

/-- The value names no object outside the region. -/
def Value.Within : Value → Prop
  | .table id => id.index ∈ R.tables
  | .function f => f.Within R
  | _ => True

def Key.Within : Key → Prop
  | .table id => id.index ∈ R.tables
  | .function f => f.Within R
  | _ => True

structure Table.Within (t : Table) : Prop where
  row : ∀ v ∈ t.row, v.Within R
  rest : ∀ {k : Key} {v : Value}, t.rest[k]? = some v → k.Within R ∧ v.Within R
  metatable : ∀ {id : TableId}, t.metatable = some id → id.index ∈ R.tables

def Closure.Within (c : Closure) : Prop := ∀ cell ∈ c.upvalues, cell.index ∈ R.cells

def Slot.Within : Slot → Prop
  | .plain v => v.Within R
  | .boxed cell => cell.index ∈ R.cells

structure Frame.Within (f : Frame) : Prop where
  slots : ∀ s ∈ f.window.slots, s.Within R
  varargs : ∀ v ∈ f.varargs, v.Within R
  multi : ∀ v ∈ f.multi, v.Within R

def Locals.Within : Locals → Prop
  | .foreign | .integers _ => True
  | .values vs => ∀ v ∈ vs, v.Within R
  | .unpacking u => u.object.Within R ∧ ∀ v ∈ u.done, v.Within R

def SavedFrame.Within : SavedFrame → Prop
  | .compiled closure frame => closure.Within R ∧ frame.Within R
  | .routine _ _ locals => locals.Within R

/-- The suspended stack names no object outside the region. -/
structure Signal.Within (s : Signal) : Prop where
  frames : ∀ f ∈ s.frames, f.Within R
  values : ∀ v ∈ s.values, v.Within R

end Within

namespace Region

variable (R : Region)

/-- **The region holds everything that its objects refer to.** -/
structure Closed (st : Store) : Prop where
  tables : ∀ i ∈ R.tables, ∃ t, st.tables[i]? = some t ∧ t.Within R
  closures : ∀ i ∈ R.closures, ∃ c, st.closures[i]? = some c ∧ c.Within R
  cells : ∀ i ∈ R.cells, ∃ v, st.cells[i]? = some v ∧ v.Within R
  kinds : ∀ {kind : Kind} {id : TableId}, st.kindMetatable kind = some id → id.index ∈ R.tables

/-- A second store has the same objects in the region. -/
structure Unchanged (st st' : Store) : Prop where
  tables : ∀ i ∈ R.tables, st'.tables[i]? = st.tables[i]?
  closures : ∀ i ∈ R.closures, st'.closures[i]? = st.closures[i]?
  cells : ∀ i ∈ R.cells, st'.cells[i]? = st.cells[i]?
  kinds : st'.kindMetatable = st.kindMetatable

/-! ### The naming of a region -/

/-- A place that two rows share stands for itself, the places past their ends for each other in
order. -/
def Pairs (S : Set Nat) (n n' i j : Nat) : Prop :=
  (i = j ∧ i ∈ S ∧ i < n ∧ i < n') ∨ ∃ k, i = n + k ∧ j = n' + k

theorem pairs_biUnique (S : Set Nat) (n n' : Nat) : Relator.BiUnique (Pairs S n n') := by
  constructor
  · rintro i i' j (⟨hij, -, hi, hj⟩ | ⟨k, hi, hj⟩) (⟨hij', -, hi', hj'⟩ | ⟨k', hi', hj'⟩) <;> omega
  · rintro i j j' (⟨hij, -, hi, hj⟩ | ⟨k, hi, hj⟩) (⟨hij', -, hi', hj'⟩ | ⟨k', hi', hj'⟩) <;> omega

/-- **Objects of the region stand for themselves**, new ones for each other. -/
def naming (st st' : Store) : Naming where
  table := Pairs R.tables st.tables.size st'.tables.size
  closure := Pairs R.closures st.closures.size st'.closures.size
  cell := Pairs R.cells st.cells.size st'.cells.size
  tables := pairs_biUnique _ _ _
  closures := pairs_biUnique _ _ _
  cells := pairs_biUnique _ _ _

theorem aligned {α : Type} {S : Set Nat} {P : α → α → Prop} {a a' : Array α}
    (hheld : ∀ i ∈ S, ∃ x, a[i]? = some x ∧ P x x) (hsame : ∀ i ∈ S, a'[i]? = a[i]?) :
    Aligned (Pairs S a.size a'.size) P a a' where
  held {i j} hij := by
    rcases hij with ⟨rfl, hi, -, -⟩ | ⟨k, rfl, rfl⟩
    · obtain ⟨x, hx, hP⟩ := hheld i hi
      rw [hsame i hi, hx]
      exact .some hP
    · rw [Array.getElem?_eq_none (by omega), Array.getElem?_eq_none (by omega)]
      exact .none
  fresh n := .inr ⟨n, rfl, rfl⟩

end Region

section Named

variable {R : Region} {st st' : Store}

/-- The objects of a region are in both stores. -/
structure Region.Shared (R : Region) (st st' : Store) : Prop where
  tables : ∀ i ∈ R.tables, i < st.tables.size ∧ i < st'.tables.size
  closures : ∀ i ∈ R.closures, i < st.closures.size ∧ i < st'.closures.size
  cells : ∀ i ∈ R.cells, i < st.cells.size ∧ i < st'.cells.size

theorem Region.Closed.shared (h : R.Closed st) (hsame : R.Unchanged st st') :
    R.Shared st st' := by
  have hsize {α : Type} {a a' : Array α} {i : Nat} {x : α} (hx : a[i]? = some x)
      (heq : a'[i]? = a[i]?) : i < a.size ∧ i < a'.size :=
    ⟨(Array.getElem?_eq_some_iff.mp hx).1, (Array.getElem?_eq_some_iff.mp (heq.trans hx)).1⟩
  refine ⟨fun i hi => ?_, fun i hi => ?_, fun i hi => ?_⟩
  · obtain ⟨t, ht, -⟩ := h.tables i hi
    exact hsize ht (hsame.tables i hi)
  · obtain ⟨c, hc, -⟩ := h.closures i hi
    exact hsize hc (hsame.closures i hi)
  · obtain ⟨v, hv, -⟩ := h.cells i hi
    exact hsize hv (hsame.cells i hi)

namespace Region.Shared

variable (h : R.Shared st st')

include h

theorem table {i : Nat} (hi : i ∈ R.tables) : (R.naming st st').table i i :=
  .inl ⟨rfl, hi, h.tables i hi⟩

theorem closure {i : Nat} (hi : i ∈ R.closures) : (R.naming st st').closure i i :=
  .inl ⟨rfl, hi, h.closures i hi⟩

theorem cell {i : Nat} (hi : i ∈ R.cells) : (R.naming st st').cell i i :=
  .inl ⟨rfl, hi, h.cells i hi⟩

theorem function {f : Function} (hf : f.Within R) : f.Named (R.naming st st') f := by
  cases f with
  | closure id => exact .closure (h.closure hf)
  | routine id => exact .routine id

theorem value {v : Value} (hv : v.Within R) : v.Named (R.naming st st') v := by
  cases v with
  | table id => exact .table (h.table hv)
  | function f => exact .function (h.function hv)
  | _ => constructor

theorem values {vs : List Value} (hvs : ∀ v ∈ vs, v.Within R) :
    (R.naming st st').Values vs vs := List.forall₂_same.mpr fun v hv => h.value (hvs v hv)

/-- A key stands for itself, or names new objects on both sides. -/
theorem key_cases {k k' : Key} (hk : k.Named (R.naming st st') k') :
    k = k' ∨ ¬ k.Within R ∧ ¬ k'.Within R := by
  have hnew {S : Set Nat} {n n' i j : Nat} (hS : ∀ i ∈ S, i < n ∧ i < n')
      (hij : Region.Pairs S n n' i j) : i = j ∨ i ∉ S ∧ j ∉ S := by
    rcases hij with ⟨rfl, -⟩ | ⟨k, rfl, rfl⟩
    · exact .inl rfl
    · exact .inr ⟨fun hi => by have := hS _ hi; omega, fun hj => by have := hS _ hj; omega⟩
  cases hk with
  | @table id id' hid =>
    cases id; cases id'
    rcases hnew h.tables hid with heq | hnot
    · exact .inl (congrArg (Key.table ⟨·⟩) heq)
    · exact .inr hnot
  | function hf =>
    cases hf with
    | routine id => exact .inl rfl
    | @closure id id' hid =>
      cases id; cases id'
      rcases hnew h.closures hid with heq | hnot
      · exact .inl (congrArg (Key.function <| .closure ⟨·⟩) heq)
      · exact .inr hnot
  | _ => exact .inl rfl

theorem tableNamed {t : Table} (ht : t.Within R) : t.Named (R.naming st st') t where
  row := Aligned.self fun v hv => h.value (ht.row v hv)
  rest := ⟨fun {k k'} hk => by
    rcases h.key_cases hk with rfl | ⟨hout, hout'⟩
    · cases hv : t.rest[k]? with
      | none => exact .none
      | some v => exact .some (h.value (ht.rest hv).2)
    · -- New objects are outside the region, so no table of the region has them as keys.
      have hnone {q : Key} (hq : ¬ q.Within R) : t.rest[q]? = none := by
        cases hv : t.rest[q]? with
        | none => rfl
        | some v => exact absurd (ht.rest hv).1 hq
      rw [hnone hout, hnone hout']
      exact .none⟩
  metatable := by
    cases hm : t.metatable with
    | none => exact .none
    | some id => exact .some (h.table (ht.metatable hm))

theorem closureNamed {c : Closure} (hc : c.Within R) : c.Named (R.naming st st') c where
  code := rfl
  upvalues := Aligned.self fun cell hcell => h.cell (hc cell hcell)

theorem frameNamed {f : Frame} (hf : f.Within R) : f.Named (R.naming st st') f where
  window := Aligned.self fun s hs => by
    have hs := hf.slots s hs
    cases s with
    | plain v => exact .plain (h.value hs)
    | boxed cell => exact .boxed (h.cell hs)
  varargs := h.values hf.varargs
  multi := h.values hf.multi
  point := rfl

theorem localsNamed {locals : Locals} (hlocals : locals.Within R) :
    locals.Named (R.naming st st') locals := by
  cases locals with
  | foreign => exact .foreign
  | values vs => exact .values (h.values hlocals)
  | integers ns => exact .integers ns
  | unpacking u =>
    have hdone := Aligned.self fun v hv => h.value (hlocals.2 v hv)
    exact .unpacking ⟨h.value hlocals.1, rfl, rfl, rfl, hdone⟩

theorem signalLike {s : Signal} (hs : s.Within R) : s.Like (R.naming st st').likeness s where
  frames := List.forall₂_same.mpr fun f hf => by
    have hf := hs.frames f hf
    cases f with
    | compiled closure frame => exact .compiled (h.closureNamed hf.1) (h.frameNamed hf.2)
    | routine id phase locals => exact .routine (h.localsNamed hf)
  values := h.values hs.values

end Region.Shared

/-- **Two stores with the same objects in a closed region correspond.** -/
theorem Region.named (h : R.Closed st) (hsame : R.Unchanged st st') :
    st.Named (R.naming st st') st' := by
  have hshared := h.shared hsame
  refine ⟨Region.aligned (fun i hi => ?_) hsame.tables,
    Region.aligned (fun i hi => ?_) hsame.closures, Region.aligned (fun i hi => ?_) hsame.cells,
    fun kind => ?_⟩
  · obtain ⟨t, ht, hin⟩ := h.tables i hi
    exact ⟨t, ht, hshared.tableNamed hin⟩
  · obtain ⟨c, hc, hin⟩ := h.closures i hi
    exact ⟨c, hc, hshared.closureNamed hin⟩
  · obtain ⟨v, hv, hin⟩ := h.cells i hi
    exact ⟨v, hv, hshared.value hin⟩
  · rw [hsame.kinds]
    cases hm : st.kindMetatable kind with
    | none => exact .none
    | some id => exact .some (hshared.table (h.kinds hm))

end Named

end ResumableVM
