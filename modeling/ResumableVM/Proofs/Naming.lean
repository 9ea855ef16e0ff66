import Mathlib.Tactic
import Mathlib.Logic.Relator
import ResumableVM.Table

/-! # Naming: the same objects under other names

A value names a table or a closure by its place in the store. A `Naming` says which tables, closures
and cells of two stores stand for each other. Under it values, keys and tables correspond when they
differ in such names only. As no object stands for two, equality does not tell names apart
(`Value.Named.rawEquals`), and what is done to tables that correspond leaves tables that correspond
(`Table.Named.set`). -/

namespace ResumableVM

/-- Which tables, closures and cells of two stores stand for each other, by their places. -/
structure Naming where
  table : Nat → Nat → Prop
  closure : Nat → Nat → Prop
  cell : Nat → Nat → Prop
  /-- None stands for two. -/
  tables : Relator.BiUnique table
  closures : Relator.BiUnique closure
  cells : Relator.BiUnique cell

/-! ### Rows of objects -/

/-- Lists correspond when they do at each place. -/
theorem forall₂_iff_getElem? {α β : Type} {P : α → β → Prop} : ∀ {l : List α} {l' : List β},
    List.Forall₂ P l l' ↔ ∀ i : Nat, Option.Rel P l[i]? l'[i]?
  | [], [] => ⟨fun _ _ => .none, fun _ => .nil⟩
  | [], _ :: _ => ⟨by simp, fun h => by simpa using h 0⟩
  | _ :: _, [] => ⟨by simp, fun h => by simpa using h 0⟩
  | x :: l, y :: l' => by
    rw [List.forall₂_cons, forall₂_iff_getElem?]
    constructor
    · rintro ⟨hxy, h⟩ (_ | i)
      · exact .some hxy
      · exact h i
    · intro h
      exact ⟨by simpa using h 0, fun i => h (i + 1)⟩

/-- What stands at places that correspond corresponds, and so do the places past the ends, in
order. -/
structure Aligned {α β : Type} (R : Nat → Nat → Prop) (P : α → β → Prop) (a : Array α)
    (b : Array β) : Prop where
  held : ∀ {i j : Nat}, R i j → Option.Rel P a[i]? b[j]?
  fresh : ∀ n : Nat, R (a.size + n) (b.size + n)

namespace Aligned

variable {α β : Type} {R : Nat → Nat → Prop} {P : α → β → Prop} {a : Array α} {b : Array β}

theorem getD (h : Aligned R P a b) {i j : Nat} (hij : R i j) {x : α} {y : β} (hxy : P x y) :
    P (a[i]?.getD x) (b[j]?.getD y) := by
  have hheld := h.held hij
  generalize a[i]? = o, b[j]? = o' at hheld
  cases hheld with
  | some h => exact h
  | none => exact hxy

theorem getElem (h : Aligned R P a b) {i j : Nat} (hij : R i j) (hi : i < a.size)
    (hj : j < b.size) : P a[i] b[j] := by
  simpa [hi, hj] using h.held hij

/-- Places that correspond are both taken or both free. -/
theorem lt_iff (h : Aligned R P a b) {i j : Nat} (hij : R i j) : i < a.size ↔ j < b.size := by
  have hheld := h.held hij
  by_cases hi : i < a.size <;> by_cases hj : j < b.size <;> simp [hi, hj] at hheld ⊢

theorem push (hR : Relator.BiUnique R) (h : Aligned R P a b) {x : α} {y : β} (hxy : P x y) :
    Aligned R P (a.push x) (b.push y) where
  held {i j} hij := by
    -- The first free places correspond, so what corresponds is at the new end on both sides or none.
    have hend : i = a.size ↔ j = b.size := Relator.rel_eq hR hij (h.fresh 0)
    simp only [Array.getElem?_push, hend]
    split
    · exact .some hxy
    · exact h.held hij
  fresh n := by
    have hnext := h.fresh (n + 1)
    simp only [Array.size_push]
    rwa [show a.size + 1 + n = a.size + (n + 1) by omega,
      show b.size + 1 + n = b.size + (n + 1) by omega]

theorem modify (hR : Relator.BiUnique R) (h : Aligned R P a b) {i j : Nat} (hij : R i j)
    {f : α → α} {g : β → β} (hfg : ∀ {x y}, P x y → P (f x) (g y)) :
    Aligned R P (a.modify i f) (b.modify j g) where
  held {k l} hkl := by
    have heq : i = k ↔ j = l := Relator.rel_eq hR hij hkl
    have hheld := h.held hkl
    simp only [Array.getElem?_modify, heq]
    split
    · generalize a[k]? = o, b[l]? = o' at hheld
      cases hheld with
      | some h => exact .some (hfg h)
      | none => exact .none
    · exact hheld
  fresh := by simpa only [Array.size_modify] using h.fresh

theorem set (hR : Relator.BiUnique R) (h : Aligned R P a b) {i j : Nat} (hij : R i j) {x : α}
    {y : β} (hxy : P x y) : Aligned R P (a.setIfInBounds i x) (b.setIfInBounds j y) where
  held {k l} hkl := by
    have heq : i = k ↔ j = l := Relator.rel_eq hR hij hkl
    have hsize := h.lt_iff hij
    simp only [Array.getElem?_setIfInBounds, heq, hsize]
    split
    · split
      · exact .some hxy
      · exact .none
    · exact h.held hkl
  fresh := by simpa only [Array.size_setIfInBounds] using h.fresh

/-! Rows, where each place stands for itself. -/

theorem biUnique_eq : Relator.BiUnique (α := Nat) (β := Nat) (· = ·) :=
  ⟨fun _ _ _ h h' => h.trans h'.symm, fun _ _ _ h h' => h.symm.trans h'⟩

theorem size_eq (h : Aligned (· = ·) P a b) : a.size = b.size := h.fresh 0

/-- A row corresponds to another when their lists do. -/
theorem iff_toList : Aligned (· = ·) P a b ↔ List.Forall₂ P a.toList b.toList := by
  constructor
  · intro h
    refine forall₂_iff_getElem?.mpr fun i => ?_
    simpa only [Array.getElem?_toList] using h.held (rfl : i = i)
  · intro h
    refine ⟨?_, fun n => ?_⟩
    · rintro i _ rfl
      simpa only [Array.getElem?_toList] using forall₂_iff_getElem?.mp h i
    · rw [← Array.length_toList, h.length_eq, Array.length_toList]

/-- Each item corresponds to itself. -/
theorem self {P : α → α → Prop} (h : ∀ x ∈ a, P x x) : Aligned (· = ·) P a a :=
  iff_toList.mpr (List.forall₂_same.mpr fun x hx => h x (Array.mem_toList_iff.mp hx))

theorem pop (h : Aligned (· = ·) P a b) : Aligned (· = ·) P a.pop b.pop where
  held {i j} hij := by
    simp only [Array.getElem?_pop, h.size_eq, hij]
    split
    · exact h.held rfl
    · exact .none
  fresh n := by simp only [Array.size_pop, h.size_eq]

end Aligned

/-! ### Values and keys -/

section Named

variable (ρ : Naming)

/-- Places of tables that stand for each other. -/
abbrev TableId.Named (id id' : TableId) : Prop := ρ.table id.index id'.index

abbrev ClosureId.Named (id id' : ClosureId) : Prop := ρ.closure id.index id'.index

abbrev CellId.Named (id id' : CellId) : Prop := ρ.cell id.index id'.index

inductive Function.Named : Function → Function → Prop
  | closure {id id' : ClosureId} (h : id.Named ρ id') : Named (.closure id) (.closure id')
  | routine (id : RoutineId) : Named (.routine id) (.routine id)

/-- Values that differ in the names of objects only. -/
inductive Value.Named : Value → Value → Prop
  | nil : Named .nil .nil
  | boolean (b : Bool) : Named (.boolean b) (.boolean b)
  | integer (n : Int64) : Named (.integer n) (.integer n)
  | float (x : Float) : Named (.float x) (.float x)
  | string (s : String) : Named (.string s) (.string s)
  | table {id id' : TableId} (h : id.Named ρ id') : Named (.table id) (.table id')
  | function {f f' : Function} (h : Function.Named ρ f f') : Named (.function f) (.function f')

inductive Key.Named : Key → Key → Prop
  | boolean (b : Bool) : Named (.boolean b) (.boolean b)
  | integer (n : Int64) : Named (.integer n) (.integer n)
  | float (bits : UInt64) : Named (.float bits) (.float bits)
  | string (s : String) : Named (.string s) (.string s)
  | table {id id' : TableId} (h : id.Named ρ id') : Named (.table id) (.table id')
  | function {f f' : Function} (h : Function.Named ρ f f') : Named (.function f) (.function f')

/-- Entries beside a row: keys that correspond have values that do. -/
structure Naming.Rests (rest rest' : Std.HashMap Key Value) : Prop where
  held : ∀ {k k' : Key}, k.Named ρ k' → Option.Rel (Value.Named ρ) rest[k]? rest'[k']?

/-- Tables that differ in the names of objects only. -/
structure Table.Named (t t' : Table) : Prop where
  row : Aligned (· = ·) (Value.Named ρ) t.row t'.row
  rest : ρ.Rests t.rest t'.rest
  metatable : Option.Rel (TableId.Named ρ) t.metatable t'.metatable

end Named

variable {ρ : Naming}

theorem TableId.Named.eq_iff {id id' i i' : TableId} (h : id.Named ρ id') (hi : i.Named ρ i') :
    id = i ↔ id' = i' := by
  have hplaces := Relator.rel_eq ρ.tables h hi
  cases id; cases id'; cases i; cases i'
  simpa only [TableId.mk.injEq] using hplaces

theorem ClosureId.Named.eq_iff {id id' i i' : ClosureId} (h : id.Named ρ id')
    (hi : i.Named ρ i') : id = i ↔ id' = i' := by
  have hplaces := Relator.rel_eq ρ.closures h hi
  cases id; cases id'; cases i; cases i'
  simpa only [ClosureId.mk.injEq] using hplaces

theorem Function.Named.eq_iff {f f' g g' : Function} (h : f.Named ρ f') (hg : g.Named ρ g') :
    f = g ↔ f' = g' := by
  cases h with
  | routine id => cases hg <;> simp
  | closure h =>
    cases hg with
    | routine id => simp
    | closure hg => simpa only [Function.closure.injEq] using h.eq_iff hg

/-- **Two keys are the same when those that they stand for are.** -/
theorem Key.Named.eq_iff {k k' q q' : Key} (h : k.Named ρ k') (hq : q.Named ρ q') :
    k = q ↔ k' = q' := by
  cases h with
  | table h =>
    cases hq with
    | table hq => simpa only [Key.table.injEq] using h.eq_iff hq
    | _ => simp
  | function h =>
    cases hq with
    | function hq => simpa only [Key.function.injEq] using h.eq_iff hq
    | _ => simp
  | _ => cases hq <;> simp

namespace Value.Named

variable {v v' w w' : Value}

theorem eq_iff (h : v.Named ρ v') (hw : w.Named ρ w') : v = w ↔ v' = w' := by
  cases h with
  | table h =>
    cases hw with
    | table hw => simpa only [Value.table.injEq] using h.eq_iff hw
    | _ => simp
  | function h =>
    cases hw with
    | function hw => simpa only [Value.function.injEq] using h.eq_iff hw
    | _ => simp
  | _ => cases hw <;> simp

theorem rawEquals (h : v.Named ρ v') (hw : w.Named ρ w') :
    v.rawEquals w = v'.rawEquals w' := by
  have hiff := h.eq_iff hw
  have hbeq : (v == w) = (v' == w') := by
    simp only [beq_eq_decide, hiff]
  cases h <;> cases hw <;> first | exact hbeq | rfl

theorem kind (h : v.Named ρ v') : v.kind = v'.kind := by cases h <;> rfl

theorem typeName (h : v.Named ρ v') : v.typeName = v'.typeName := by cases h <;> rfl

theorem isNil (h : v.Named ρ v') : v.isNil = v'.isNil := by cases h <;> rfl

theorem isTruthy (h : v.Named ρ v') : v.isTruthy = v'.isTruthy := by cases h <;> rfl

theorem toNumber? (h : v.Named ρ v') : v.toNumber? = v'.toNumber? := by cases h <;> rfl

theorem toInt64? (h : v.Named ρ v') : v.toInt64? = v'.toInt64? := by cases h <;> rfl

theorem key? (h : v.Named ρ v') : Option.Rel (Key.Named ρ) v.key? v'.key? := by
  cases h with
  | nil => exact .none
  | boolean b => exact .some (.boolean b)
  | integer n => exact .some (.integer n)
  | string s => exact .some (.string s)
  | table h => exact .some (.table h)
  | function h => exact .some (.function h)
  | float x =>
    simp only [Value.key?]
    split
    · exact .none
    · split
      · exact .some (.integer _)
      · exact .some (.float _)

end Value.Named

theorem headD_named {vs vs' : List Value} (h : List.Forall₂ (Value.Named ρ) vs vs') :
    (vs.headD .nil).Named ρ (vs'.headD .nil) := by
  cases h with
  | nil => exact .nil
  | cons hv _ => exact hv

theorem tail_named {vs vs' : List Value} (h : List.Forall₂ (Value.Named ρ) vs vs') :
    List.Forall₂ (Value.Named ρ) vs.tail vs'.tail := by
  cases h with
  | nil => exact .nil
  | cons _ htail => exact htail

theorem valueAt_named {vs vs' : List Value} (h : List.Forall₂ (Value.Named ρ) vs vs') (i : Nat) :
    (valueAt vs i).Named ρ (valueAt vs' i) := by
  have hheld := forall₂_iff_getElem?.mp h i
  unfold valueAt
  generalize vs[i]? = o, vs'[i]? = o' at hheld
  cases hheld with
  | some h => exact h
  | none => exact .nil

/-! ### Tables -/

namespace Naming.Rests

variable {rest rest' : Std.HashMap Key Value}

theorem getD (h : ρ.Rests rest rest') {k k' : Key} (hk : k.Named ρ k') :
    (rest[k]?.getD .nil).Named ρ (rest'[k']?.getD .nil) := by
  have hheld := h.held hk
  generalize rest[k]? = o, rest'[k']? = o' at hheld
  cases hheld with
  | some h => exact h
  | none => exact .nil

theorem mem_iff (h : ρ.Rests rest rest') {k k' : Key} (hk : k.Named ρ k') :
    k ∈ rest ↔ k' ∈ rest' := by
  have hheld := h.held hk
  rw [Std.HashMap.mem_iff_isSome_getElem?, Std.HashMap.mem_iff_isSome_getElem?]
  generalize rest[k]? = o, rest'[k']? = o' at hheld
  cases hheld <;> simp

theorem erase (h : ρ.Rests rest rest') {k k' : Key} (hk : k.Named ρ k') :
    ρ.Rests (rest.erase k) (rest'.erase k') := by
  refine ⟨fun {q q'} hq => ?_⟩
  simp only [Std.HashMap.getElem?_erase, beq_iff_eq, hk.eq_iff hq]
  split
  · exact .none
  · exact h.held hq

theorem insert (h : ρ.Rests rest rest') {k k' : Key} (hk : k.Named ρ k') {v v' : Value}
    (hv : v.Named ρ v') : ρ.Rests (rest.insert k v) (rest'.insert k' v') := by
  refine ⟨fun {q q'} hq => ?_⟩
  simp only [Std.HashMap.getElem?_insert, beq_iff_eq, hk.eq_iff hq]
  split
  · exact .some hv
  · exact h.held hq

end Naming.Rests

namespace Table

variable {row row' : Array Value}

theorem shorten_named (h : Aligned (· = ·) (Value.Named ρ) row row') :
    Aligned (· = ·) (Value.Named ρ) (shorten row) (shorten row') := by
  fun_induction shorten row generalizing row' with
  | case1 row hzero =>
    rw [shorten, dif_pos (by rw [← h.size_eq]; exact hzero)]
    exact h
  | case2 row hsize hnil ih =>
    have hsize' : row'.size ≠ 0 := by rw [← h.size_eq]; exact hsize
    have hlast := h.getElem (congrArg (· - 1) h.size_eq) (by omega) (by omega)
    rw [shorten.eq_def row', dif_neg hsize', if_pos (hlast.isNil ▸ hnil)]
    exact ih h.pop
  | case3 row hsize hnil =>
    have hsize' : row'.size ≠ 0 := by rw [← h.size_eq]; exact hsize
    have hlast := h.getElem (congrArg (· - 1) h.size_eq) (by omega) (by omega)
    rw [shorten, dif_neg hsize', if_neg (hlast.isNil ▸ hnil)]
    exact h

theorem extend_named {rest rest' : Std.HashMap Key Value}
    (h : Aligned (· = ·) (Value.Named ρ) row row') (hrest : ρ.Rests rest rest') :
    Aligned (· = ·) (Value.Named ρ) (extend row rest).1 (extend row' rest').1 ∧
      ρ.Rests (extend row rest).2 (extend row' rest').2 := by
  -- Rows that correspond are as long, and an integer stands for itself.
  have hkey {row row' : Array Value} (h : Aligned (· = ·) (Value.Named ρ) row row') :
      (nextKey row).Named ρ (nextKey row') := by
    rw [nextKey, nextKey, h.size_eq]
    exact .integer _
  fun_induction extend row rest generalizing row' rest' with
  | case1 row rest hmem ih =>
    have hmem' := (hrest.mem_iff (hkey h)).mp hmem.1
    have hroom : row'.size < maxLength := by rw [← h.size_eq]; exact hmem.2
    have hnext : (rest.get (nextKey row) hmem.1).Named ρ (rest'.get (nextKey row') hmem') := by
      have hheld := hrest.held (hkey h)
      rw [Std.HashMap.getElem?_eq_some_getElem hmem.1,
        Std.HashMap.getElem?_eq_some_getElem hmem'] at hheld
      cases hheld with
      | some hv => exact hv
    rw [extend.eq_def row', dif_pos ⟨hmem', hroom⟩]
    exact ih (h.push Aligned.biUnique_eq hnext) (hrest.erase (hkey h))
  | case2 row rest hmem =>
    have hmem' : ¬ (nextKey row' ∈ rest' ∧ row'.size < maxLength) := by
      rwa [← hrest.mem_iff (hkey h), ← h.size_eq]
    rw [extend.eq_def row', dif_neg hmem']
    exact ⟨h, hrest⟩

namespace Named

variable {t t' : Table}

theorem getInt (h : t.Named ρ t') (n : Int64) : (t.getInt n).Named ρ (t'.getInt n) := by
  have hplace : t.place? n = t'.place? n := by simp only [place?, h.row.size_eq]
  simp only [Table.getInt, hplace]
  split
  · exact h.row.getD rfl .nil
  · exact h.rest.getD (.integer n)

theorem get (h : t.Named ρ t') {k k' : Key} (hk : k.Named ρ k') :
    (t.get k).Named ρ (t'.get k') := by
  cases hk with
  | integer n => exact h.getInt n
  | boolean b => exact h.rest.getD (.boolean b)
  | float bits => exact h.rest.getD (.float bits)
  | string s => exact h.rest.getD (.string s)
  | table hid => exact h.rest.getD (.table hid)
  | function hf => exact h.rest.getD (.function hf)

theorem rawGet (h : t.Named ρ t') {v v' : Value} (hv : v.Named ρ v') :
    (t.rawGet v).Named ρ (t'.rawGet v') := by
  have hkey := hv.key?
  unfold Table.rawGet
  generalize v.key? = k, v'.key? = k' at hkey
  cases hkey with
  | some hk => exact h.get hk
  | none => exact .nil

theorem getString (h : t.Named ρ t') (s : String) :
    (t.getString s).Named ρ (t'.getString s) := h.get (.string s)

theorem setRest (h : t.Named ρ t') {k k' : Key} (hk : k.Named ρ k') {v v' : Value}
    (hv : v.Named ρ v') : (t.setRest k v).Named ρ (t'.setRest k' v') := by
  simp only [Table.setRest, hv.isNil]
  split
  · exact { h with rest := h.rest.erase hk }
  · exact { h with rest := h.rest.insert hk hv }

theorem setInt (h : t.Named ρ t') (n : Int64) {v v' : Value} (hv : v.Named ρ v') :
    (t.setInt n v).Named ρ (t'.setInt n v') := by
  have hplace : t.place? n = t'.place? n := by simp only [place?, h.row.size_eq]
  have hrow := fun i => h.row.set Aligned.biUnique_eq (rfl : i = i) hv
  simp only [Table.setInt, hplace, h.row.size_eq, hv.isNil]
  split
  · split
    · exact { h with row := shorten_named (hrow _) }
    · exact { h with row := hrow _ }
  · split
    · obtain ⟨hrow, hrest⟩ :=
        extend_named (h.row.push Aligned.biUnique_eq hv) (h.rest.erase (.integer n))
      exact { h with row := hrow, rest := hrest }
    · exact h.setRest (.integer n) hv

/-- **Entries that correspond leave tables that correspond.** -/
theorem set (h : t.Named ρ t') {k k' : Key} (hk : k.Named ρ k') {v v' : Value}
    (hv : v.Named ρ v') : (t.set k v).Named ρ (t'.set k' v') := by
  cases hk with
  | integer n => exact h.setInt n hv
  | boolean b => exact h.setRest (.boolean b) hv
  | float bits => exact h.setRest (.float bits) hv
  | string s => exact h.setRest (.string s) hv
  | table hid => exact h.setRest (.table hid) hv
  | function hf => exact h.setRest (.function hf) hv

theorem length (h : t.Named ρ t') : t.length = t'.length := h.row.size_eq

theorem lengthValue (h : t.Named ρ t') : t.lengthValue.Named ρ t'.lengthValue := by
  simp only [Table.lengthValue, h.length]
  exact .integer _

end Named

theorem empty_named : Table.Named ρ .empty .empty where
  row := Aligned.iff_toList.mpr .nil
  rest := ⟨fun _ => by simp [empty]⟩
  metatable := .none

theorem ofList_named {vs vs' : List Value} (h : List.Forall₂ (Value.Named ρ) vs vs') :
    (ofList vs).Named ρ (ofList vs') := by
  have hfold : ∀ {p p' : Table × Nat}, p.1.Named ρ p'.1 → p.2 = p'.2 →
      (vs.foldl (fun (t, n) v => (setInt t (Int64.ofNat n) v, n + 1)) p).1.Named ρ
        (vs'.foldl (fun (t, n) v => (setInt t (Int64.ofNat n) v, n + 1)) p').1 := by
    induction h with
    | nil => exact fun ht _ => ht
    | cons hv _ ih =>
      rintro ⟨t, n⟩ ⟨t', _⟩ ht rfl
      exact ih (ht.setInt _ hv) rfl
  exact hfold empty_named rfl

end Table

end ResumableVM
