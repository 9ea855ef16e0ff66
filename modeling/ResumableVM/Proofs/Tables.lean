import Mathlib.Tactic
import ResumableVM.Table

/-! # Tables: finite maps in two parts

A table keeps its entries in a row and beside it. The parts are `Apart` when no key of the row has
an entry beside it; a move of an entry from one part to the other then changes nothing that can be
looked up (`get_extend`, `get_shorten`), and a write changes what its own key is mapped to and
nothing else (`Tidy.get_set`).

Every table that writes lead to is `Tidy` (`Written.tidy`): the row does not end with nil, and no
entry beside it could continue it. -/

namespace ResumableVM.Table

/-! ### Looking up -/

/-- The place of a key in rows that are long enough, counted from zero. -/
def position : Key → Option Nat
  | .integer n => if 1 ≤ n.toInt then some (n.toInt - 1).toNat else none
  | _ => none

theorem position_eq_some_iff {k : Key} {i : Nat} :
    position k = some i ↔ ∃ n, k = .integer n ∧ n.toInt = i + 1 := by
  cases k with
  | integer n =>
    simp only [position, Option.ite_none_right_eq_some, Option.some.injEq, Key.integer.injEq,
      exists_eq_left']
    omega
  | _ => simp [position]

/-- No two keys have the same place. -/
theorem position_inj {k k' : Key} {i : Nat} (h : position k = some i) (h' : position k' = some i) :
    k = k' := by
  obtain ⟨n, rfl, hn⟩ := position_eq_some_iff.mp h
  obtain ⟨n', rfl, hn'⟩ := position_eq_some_iff.mp h'
  rw [Int64.toInt_inj.mp (hn.trans hn'.symm)]

/-- Every place is before the longest row's end. -/
theorem position_lt {k : Key} {i : Nat} (h : position k = some i) : i < maxLength := by
  obtain ⟨n, -, hn⟩ := position_eq_some_iff.mp h
  have hmax := Int64.toInt_maxValue
  have := Int64.toInt_le n
  simp only [maxLength]
  omega

theorem place?_eq_some_iff {t : Table} {n : Int64} {i : Nat} :
    t.place? n = some i ↔ position (.integer n) = some i ∧ i < t.row.size := by
  simp only [place?, position, Option.ite_none_right_eq_some, Option.some.injEq]
  omega

/-- What a key is mapped to by its place in the row. -/
theorem get_of_lt {t : Table} {k : Key} {i : Nat} (h : position k = some i)
    (hi : i < t.row.size) : t.get k = t.row[i]?.getD .nil := by
  obtain ⟨n, rfl, -⟩ := position_eq_some_iff.mp h
  have hplace := place?_eq_some_iff.mpr ⟨h, hi⟩
  simp only [get, getInt, hplace]

/-- The key has no place in rows of that length. -/
def Beyond (size : Nat) (k : Key) : Prop := ∀ i, position k = some i → size ≤ i

/-- What a key is mapped to beside the row. -/
theorem get_of_beyond {t : Table} {k : Key} (h : Beyond t.row.size k) :
    t.get k = t.rest[k]?.getD .nil := by
  cases k with
  | integer n =>
    have hplace : t.place? n = none := Option.eq_none_iff_forall_ne_some.mpr fun i hi => by
      obtain ⟨hposition, hlt⟩ := place?_eq_some_iff.mp hi
      exact absurd (h i hposition) (by omega)
    simp only [get, getInt, hplace]
  | _ => rfl

/-- A key has a place in a row, or has its entry beside it. -/
theorem lt_or_beyond (size : Nat) (k : Key) :
    (∃ i, position k = some i ∧ i < size) ∨ Beyond size k := by
  by_cases h : ∃ i, position k = some i ∧ i < size
  · exact .inl h
  · exact .inr fun i hi => Nat.le_of_not_lt fun hlt => h ⟨i, hi, hlt⟩

/-! ### Moves between the parts -/

/-- **No key of the row has an entry beside it.** -/
def Apart (row : Array Value) (rest : Std.HashMap Key Value) : Prop :=
  ∀ k ∈ rest, Beyond row.size k

variable {row : Array Value} {rest : Std.HashMap Key Value} {m : Option TableId}

/-- The next key's place is behind the row. -/
theorem position_nextKey (hroom : row.size < maxLength) :
    position (nextKey row) = some row.size := by
  refine position_eq_some_iff.mpr ⟨_, rfl, ?_⟩
  rw [Int64.toInt_ofNat_of_lt (by simp only [maxLength] at hroom; omega)]
  rfl

theorem eq_nextKey_iff (hroom : row.size < maxLength) {k : Key} :
    k = nextKey row ↔ position k = some row.size :=
  ⟨fun h => h ▸ position_nextKey hroom, fun h => position_inj h (position_nextKey hroom)⟩

theorem Apart.erase (h : Apart row rest) (k : Key) : Apart row (rest.erase k) := fun q hq =>
  h q (Std.HashMap.mem_of_mem_erase hq)

theorem Apart.of_size_le (h : Apart row rest) {row' : Array Value} (hsize : row'.size ≤ row.size) :
    Apart row' rest := fun k hk i hi => hsize.trans (h k hk i hi)

/-- The parts stay apart when the row is continued and the entry beside it is given up. -/
theorem Apart.push (h : Apart row rest) (hroom : row.size < maxLength) (v : Value) :
    Apart (row.push v) (rest.erase (nextKey row)) := fun k hk i hi => by
  obtain ⟨hne, hmem⟩ := Std.HashMap.mem_erase.mp hk
  have hnext : i ≠ row.size := fun he => by
    have hk : k = nextKey row := (eq_nextKey_iff hroom).mpr (he ▸ hi)
    rw [hk, beq_self_eq_true] at hne
    cases hne
  have := h k hmem i hi
  rw [Array.size_push]
  omega

/-- A row that is continued maps the next key to the value. -/
theorem get_push (hroom : row.size < maxLength) (v : Value) (k : Key) :
    get ⟨row.push v, rest.erase (nextKey row), m⟩ k =
      if k = nextKey row then v else get ⟨row, rest, m⟩ k := by
  by_cases hk : k = nextKey row
  · rw [if_pos hk, get_of_lt ((eq_nextKey_iff hroom).mp hk) (by simp)]
    simp
  · have hne (i : Nat) (hi : position k = some i) : i ≠ row.size := fun he =>
      hk ((eq_nextKey_iff hroom).mpr (he ▸ hi))
    rw [if_neg hk]
    rcases lt_or_beyond row.size k with ⟨i, hi, hlt⟩ | hbeyond
    · rw [get_of_lt hi (by simp; omega), get_of_lt hi hlt, Array.getElem?_push_lt hlt,
        Array.getElem?_eq_getElem hlt]
    · have hbeyond' : Beyond (row.push v).size k := fun i hi => by
        have := hbeyond i hi
        have := hne i hi
        rw [Array.size_push]
        omega
      rw [get_of_beyond hbeyond', get_of_beyond hbeyond, Std.HashMap.getElem?_erase,
        if_neg (by simpa using Ne.symm hk)]

/-- **Drawing in the entries that continue a row changes nothing that can be looked up.** -/
theorem get_extend (k : Key) :
    get ⟨(extend row rest).1, (extend row rest).2, m⟩ k = get ⟨row, rest, m⟩ k := by
  fun_induction extend row rest with
  | case1 row rest hmem ih =>
    have hbeyond : Beyond row.size (nextKey row) := fun i hi => by
      rw [position_nextKey hmem.2] at hi
      exact (Option.some.inj hi).le
    rw [ih, get_push hmem.2]
    split
    · next hk =>
      rw [hk, get_of_beyond hbeyond, Std.HashMap.getElem?_eq_some_getElem hmem.1]
      rfl
    · rfl
  | case2 row rest hmem => rfl

/-- A nil at the end of a row stands for no entry. -/
theorem get_pop (h : Apart row rest) (hsize : row.size ≠ 0)
    (hnil : row[row.size - 1] = .nil) (k : Key) :
    get ⟨row.pop, rest, m⟩ k = get ⟨row, rest, m⟩ k := by
  rcases lt_or_beyond row.size k with ⟨i, hi, hlt⟩ | hbeyond
  · by_cases hlast : i = row.size - 1
    · have hbeyond : Beyond row.pop.size k := fun j hj => by
        rw [hi] at hj
        obtain rfl := Option.some.inj hj
        rw [Array.size_pop]
        omega
      have hfree : k ∉ rest := fun hmem => absurd (h k hmem i hi) (by omega)
      rw [get_of_beyond hbeyond, Std.HashMap.getElem?_eq_none hfree, get_of_lt hi hlt]
      subst hlast
      rw [Array.getElem?_eq_getElem hlt, hnil]
      rfl
    · rw [get_of_lt hi (by simp; omega), get_of_lt hi hlt, Array.getElem?_pop, if_pos (by omega)]
  · have hbeyond' : Beyond row.pop.size k := fun i hi => by
      have := hbeyond i hi
      rw [Array.size_pop]
      omega
    rw [get_of_beyond hbeyond', get_of_beyond hbeyond]

/-- **Giving up the nils at the end of a row changes nothing that can be looked up.** -/
theorem get_shorten (h : Apart row rest) (k : Key) :
    get ⟨shorten row, rest, m⟩ k = get ⟨row, rest, m⟩ k := by
  fun_induction shorten row with
  | case1 row hsize => rfl
  | case2 row hsize hnil ih =>
    rw [ih (h.of_size_le (by simp)), get_pop h hsize (Value.isNil_iff.mp hnil)]
  | case3 row hsize hnil => rfl

/-! ### Writing -/

/-- A value in the row in place of another. -/
theorem get_setIfInBounds {i : Nat} {k : Key} (hk : position k = some i) (hi : i < row.size)
    (v : Value) (q : Key) :
    get ⟨row.setIfInBounds i v, rest, m⟩ q = if q = k then v else get ⟨row, rest, m⟩ q := by
  rcases lt_or_beyond row.size q with ⟨j, hj, hlt⟩ | hbeyond
  · have heq : q = k ↔ i = j := ⟨fun h => Option.some.inj (hk.symm.trans (h ▸ hj)),
      fun h => position_inj hj (h ▸ hk)⟩
    rw [get_of_lt hj (by simpa using hlt), Array.getElem?_setIfInBounds, get_of_lt hj hlt]
    by_cases hij : i = j
    · rw [if_pos hij, if_pos (heq.mpr hij), if_pos hi, Option.getD_some]
    · rw [if_neg hij, if_neg (fun h => hij (heq.mp h))]
  · have hne : q ≠ k := fun h => absurd (hbeyond i (h ▸ hk)) (by omega)
    rw [if_neg hne, get_of_beyond (by simpa using hbeyond), get_of_beyond hbeyond]

/-- A value beside the row in place of another. -/
theorem get_setRest {t : Table} {k : Key} (hk : Beyond t.row.size k) (v : Value) (q : Key) :
    (t.setRest k v).get q = if q = k then v else t.get q := by
  have hrow : (t.setRest k v).row = t.row := by
    unfold setRest
    split <;> rfl
  have hrest : (t.setRest k v).rest[q]?.getD .nil = if q = k then v else t.rest[q]?.getD .nil := by
    unfold setRest
    split
    · next hnil =>
      rw [Std.HashMap.getElem?_erase, Value.isNil_iff.mp hnil]
      simp only [beq_iff_eq, eq_comm (a := k)]
      split <;> rfl
    · rw [Std.HashMap.getElem?_insert]
      simp only [beq_iff_eq, eq_comm (a := k)]
      split <;> rfl
  rcases lt_or_beyond t.row.size q with ⟨i, hi, hlt⟩ | hbeyond
  · have hne : q ≠ k := fun h => absurd (hk i (h ▸ hi)) (by omega)
    rw [if_neg hne, get_of_lt hi (hrow ▸ hlt), get_of_lt hi hlt, hrow]
  · rw [get_of_beyond (hrow ▸ hbeyond), hrest]
    split
    · rfl
    · rw [get_of_beyond hbeyond]

/-- No entry beside a row is nil. -/
def Filled (rest : Std.HashMap Key Value) : Prop := ∀ k : Key, rest[k]? ≠ some .nil

/-- **The parts of a table as writes leave them.** -/
structure Tidy (t : Table) : Prop where
  /-- Every place in the row is that of a key. -/
  room : t.row.size ≤ maxLength
  /-- The row does not end with nil. -/
  last : t.row.back? ≠ some .nil
  /-- No entry beside the row is for a key of the row or for the next one. -/
  beside : ∀ k ∈ t.rest, Beyond (t.row.size + 1) k
  filled : Filled t.rest

theorem Tidy.apart {t : Table} (h : t.Tidy) : Apart t.row t.rest := fun k hk i hi =>
  Nat.le_of_succ_le (h.beside k hk i hi)

theorem Filled.erase (h : Filled rest) (k : Key) : Filled (rest.erase k) := fun q => by
  rw [Std.HashMap.getElem?_erase]
  split
  · exact nofun
  · exact h q

theorem Filled.insert (h : Filled rest) (k : Key) {v : Value} (hv : v ≠ .nil) :
    Filled (rest.insert k v) := fun q => by
  rw [Std.HashMap.getElem?_insert]
  split
  · exact fun he => hv (Option.some.inj he)
  · exact h q

theorem back?_shorten (row : Array Value) : (shorten row).back? ≠ some .nil := by
  fun_induction shorten row with
  | case1 row hsize => simp [Array.eq_empty_of_size_eq_zero hsize]
  | case2 row hsize hnil ih => exact ih
  | case3 row hsize hnil =>
    rw [Array.back?, Array.getElem?_eq_getElem (by omega), ne_eq, Option.some.injEq]
    exact fun h => hnil (Value.isNil_iff.mpr h)

theorem size_shorten_le (row : Array Value) : (shorten row).size ≤ row.size := by
  fun_induction shorten row with
  | case1 row hsize => exact le_rfl
  | case2 row hsize hnil ih => exact ih.trans (by simp)
  | case3 row hsize hnil => exact le_rfl

/-- When no further entry continues the row, the parts are tidy. -/
theorem tidy_extend (hroom : row.size ≤ maxLength) (hlast : row.back? ≠ some .nil)
    (happart : Apart row rest) (hfilled : Filled rest) :
    Tidy ⟨(extend row rest).1, (extend row rest).2, m⟩ := by
  fun_induction extend row rest with
  | case1 row rest hmem ih =>
    have hnext : rest.get (nextKey row) hmem.1 ≠ .nil := fun h => by
      refine hfilled (nextKey row) ?_
      rw [Std.HashMap.getElem?_eq_some_getElem hmem.1]
      exact congrArg some h
    refine ih ?_ ?_ (happart.push hmem.2 _) (hfilled.erase _)
    · rw [Array.size_push]
      exact hmem.2
    · rw [Array.back?_push, ne_eq, Option.some.injEq]
      exact hnext
  | case2 row rest hmem =>
    refine ⟨hroom, hlast, fun k hk i hi => ?_, hfilled⟩
    -- The next key would have been drawn in.
    have hnext : i ≠ row.size := fun he => by
      have hlt : row.size < maxLength := he ▸ position_lt hi
      have hkey : k = nextKey row := (eq_nextKey_iff hlt).mpr (he ▸ hi)
      exact hmem ⟨hkey ▸ hk, hlt⟩
    have := happart k hk i hi
    show row.size + 1 ≤ i
    omega

/-- What a write of an integer key does to the parts. -/
inductive Sets (t : Table) (n : Int64) (v : Value) : Table → Prop
  /-- The value takes its place in the row. -/
  | inside {i : Nat} (hi : position (.integer n) = some i) (hlt : i + 1 < t.row.size) :
    Sets t n v { t with row := t.row.setIfInBounds i v }
  /-- It is the last of the row; if it is nil, the row gets shorter. -/
  | last {i : Nat} (hi : position (.integer n) = some i) (hsize : i + 1 = t.row.size) :
    Sets t n v { t with row := shorten (t.row.setIfInBounds i v) }
  /-- It continues the row, and with it the entries that come after. -/
  | next (hv : v ≠ .nil) (hroom : t.row.size < maxLength) (hn : .integer n = nextKey t.row) :
    Sets t n v { t with
      row := (extend (t.row.push v) (t.rest.erase (nextKey t.row))).1
      rest := (extend (t.row.push v) (t.rest.erase (nextKey t.row))).2 }
  /-- It is kept beside the row. -/
  | beside (hn : Beyond t.row.size (.integer n))
      (hv : v = .nil ∨ Beyond (t.row.size + 1) (.integer n)) :
    Sets t n v (t.setRest (.integer n) v)

theorem sets_setInt (t : Table) (n : Int64) (v : Value) : t.Sets n v (t.setInt n v) := by
  unfold setInt
  cases hplace : t.place? n with
  | some i =>
    obtain ⟨hposition, hlt⟩ := place?_eq_some_iff.mp hplace
    by_cases hsize : i + 1 = t.row.size
    · simpa only [hsize, if_true] using .last hposition hsize
    · simpa only [hsize, if_false] using .inside hposition (by omega)
  | none =>
    have hbeyond : Beyond t.row.size (.integer n) := fun i hi => by
      by_contra hlt
      rw [place?_eq_some_iff.mpr ⟨hi, by omega⟩] at hplace
      cases hplace
    by_cases hnext : position (.integer n) = some t.row.size ∧ v ≠ .nil
    · -- The write asks for the integer, which is the same as asking for the place.
      obtain ⟨hposition, hv⟩ := hnext
      have hroom := position_lt hposition
      have hn := (eq_nextKey_iff hroom).mpr hposition
      have htest : n.toInt = t.row.size + 1 ∧ (!v.isNil) = true := by
        obtain ⟨n, ⟨⟩, hn⟩ := position_eq_some_iff.mp hposition
        refine ⟨hn, ?_⟩
        rw [Bool.not_eq_true', ← Bool.not_eq_true]
        exact fun hnil => hv (Value.isNil_iff.mp hnil)
      simpa only [htest, and_self, if_true, hn] using .next hv hroom hn
    · have htest : ¬(n.toInt = t.row.size + 1 ∧ (!v.isNil) = true) := fun ⟨hn, hv⟩ =>
        hnext ⟨position_eq_some_iff.mpr ⟨n, rfl, hn⟩, by
          rintro rfl
          cases hv⟩
      simp only [htest, if_false]
      refine .beside hbeyond (or_iff_not_imp_left.mpr fun hv i hi => ?_)
      have hne : i ≠ t.row.size := fun he => hnext ⟨he ▸ hi, hv⟩
      have := hbeyond i hi
      omega

namespace Tidy

variable {t : Table}

/-- **A write of an integer key changes what that key is mapped to and nothing else.** -/
theorem get_setInt (h : t.Tidy) (n : Int64) (v : Value) (k : Key) :
    (t.setInt n v).get k = if k = .integer n then v else t.get k := by
  generalize ht' : t.setInt n v = t'
  cases (ht' ▸ sets_setInt t n v : t.Sets n v t') with
  | inside hi hlt => exact get_setIfInBounds hi (by omega) v k
  | @last i hi hsize =>
    have happart : Apart (t.row.setIfInBounds i v) t.rest := h.apart.of_size_le (by simp)
    rw [get_shorten happart]
    exact get_setIfInBounds hi (by omega) v k
  | next hv hroom hn => rw [get_extend, get_push hroom, hn]
  | beside hn hv => exact get_setRest hn v k

/-- A value beside the row, for a key that does not continue it. -/
theorem setRest (h : t.Tidy) {k : Key} {v : Value}
    (hv : v = .nil ∨ Beyond (t.row.size + 1) k) : (t.setRest k v).Tidy := by
  unfold Table.setRest
  split
  · exact { h with
      beside := fun q hq => h.beside q (Std.HashMap.mem_of_mem_erase hq)
      filled := h.filled.erase k }
  · next hnil =>
    have hne : v ≠ .nil := fun he => hnil (Value.isNil_iff.mpr he)
    refine { h with beside := fun q hq => ?_, filled := h.filled.insert k hne }
    rcases Std.HashMap.mem_insert.mp hq with hq | hq
    · exact beq_iff_eq.mp hq ▸ hv.resolve_left hne
    · exact h.beside q hq

theorem setInt (h : t.Tidy) (n : Int64) (v : Value) : (t.setInt n v).Tidy := by
  generalize ht' : t.setInt n v = t'
  cases (ht' ▸ sets_setInt t n v : t.Sets n v t') with
  | @inside i hi hlt =>
    refine ⟨by simpa using h.room, ?_, by simpa using h.beside, h.filled⟩
    have hlast : (t.row.setIfInBounds i v).back? = t.row.back? := by
      rw [Array.back?, Array.back?, Array.size_setIfInBounds, Array.getElem?_setIfInBounds_ne]
      omega
    simpa only [hlast] using h.last
  | @last i hi hsize =>
    have hle : (shorten (t.row.setIfInBounds i v)).size ≤ t.row.size :=
      (size_shorten_le _).trans (by simp)
    exact ⟨hle.trans h.room, back?_shorten _,
      fun k hk j hj => (Nat.succ_le_succ hle).trans (h.beside k hk j hj), h.filled⟩
  | next hv hroom hn =>
    refine tidy_extend ?_ ?_ (h.apart.push hroom v) (h.filled.erase _)
    · rw [Array.size_push]
      exact hroom
    · rw [Array.back?_push, ne_eq, Option.some.injEq]
      exact hv
  | beside hn hv => exact h.setRest hv

/-- **A write changes what its key is mapped to and nothing else.** -/
theorem get_set (h : t.Tidy) (k : Key) (v : Value) (q : Key) :
    (t.set k v).get q = if q = k then v else t.get q := by
  cases k with
  | integer n => exact h.get_setInt n v q
  | _ => exact get_setRest (fun i hi => by simp [position] at hi) v q

/-- Every write leaves the parts tidy. -/
theorem set (h : t.Tidy) (k : Key) (v : Value) : (t.set k v).Tidy := by
  cases k with
  | integer n => exact h.setInt n v
  | _ => exact h.setRest (.inr fun i hi => by simp [position] at hi)

end Tidy

theorem tidy_empty : Tidy .empty where
  room := Nat.zero_le _
  last := by simp [empty]
  beside := by simp [empty]
  filled := by simp [empty, Filled]

theorem tidy_ofList (vs : List Value) : (ofList vs).Tidy := by
  have hfold : ∀ p : Table × Nat, p.1.Tidy →
      (vs.foldl (fun (t, n) v => (setInt t (Int64.ofNat n) v, n + 1)) p).1.Tidy := by
    induction vs with
    | nil => exact fun _ hp => hp
    | cons v vs ih => exact fun p hp => ih _ (hp.setInt _ v)
  exact hfold _ tidy_empty

/-- **The tables that writes lead to**, in any order and from any start. -/
inductive Written : Table → Prop
  | empty : Written .empty
  | ofList (vs : List Value) : Written (.ofList vs)
  | rawSet {t t' : Table} (h : Written t) {k v : Value} (hset : t.rawSet k v = .ok t') : Written t'
  | setInt {t : Table} (h : Written t) (n : Int64) (v : Value) : Written (t.setInt n v)
  | setString {t : Table} (h : Written t) (s : String) (v : Value) : Written (t.setString s v)
  | withMetatable {t : Table} (h : Written t) (m : Option TableId) : Written (t.withMetatable m)

/-- A value is written for as the slot that it names. -/
theorem rawSet_eq_ok_iff {t t' : Table} {k v : Value} :
    t.rawSet k v = .ok t' ↔ ∃ key, k.key? = some key ∧ t.set key v = t' := by
  unfold Table.rawSet keyFor
  cases k.key? with
  | none => simp [bind, Except.bind]
  | some key => simp [bind, Except.bind, pure, Except.pure]

theorem Written.tidy {t : Table} (h : t.Written) : t.Tidy := by
  induction h with
  | empty => exact tidy_empty
  | ofList vs => exact tidy_ofList vs
  | rawSet _ hset ih =>
    obtain ⟨key, -, rfl⟩ := rawSet_eq_ok_iff.mp hset
    exact ih.set key _
  | setInt _ n v ih => exact ih.setInt n v
  | setString _ s v ih => exact ih.set (.string s) v
  | withMetatable _ m ih => exact ⟨ih.room, ih.last, ih.beside, ih.filled⟩

end ResumableVM.Table
