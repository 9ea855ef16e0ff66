import ResumableVM.Proofs.Tables

/-! # Borders: the length of a table

The length is that of the row. In a tidy table the row ends with a value other than nil, and what
would continue it is in the row already: the length is a border, and the only one if the positive
keys leave no gap (`Tidy.bordered`). -/

namespace ResumableVM.Table

/-- The rounds of drawing in the entries that continue a row, up to where it stops. -/
inductive Draws : Nat → Array Value → Std.HashMap Key Value → Array Value →
    Std.HashMap Key Value → Prop
  | stop {row : Array Value} {rest : Std.HashMap Key Value}
    (h : nextKey row ∉ rest ∨ maxLength ≤ row.size) : Draws 0 row rest row rest
  | draw {row row' : Array Value} {rest rest' : Std.HashMap Key Value} {v : Value} {rounds : Nat}
    (hv : rest[nextKey row]? = some v) (hroom : row.size < maxLength)
    (h : Draws rounds (row.push v) (rest.erase (nextKey row)) row' rest') :
    Draws (rounds + 1) row rest row' rest'

/-- **Drawing in stops**, after no more rounds than there are entries beside the row. -/
theorem draws_extend (row : Array Value) (rest : Std.HashMap Key Value) :
    ∃ rounds ≤ rest.size, Draws rounds row rest (extend row rest).1 (extend row rest).2 := by
  fun_induction extend row rest with
  | case1 row rest hmem ih =>
    obtain ⟨rounds, hle, h⟩ := ih
    have hpos : rest.size ≠ 0 := by
      have hne := Std.HashMap.isEmpty_eq_false_iff_exists_mem.mpr ⟨_, hmem.1⟩
      rwa [Std.HashMap.isEmpty_eq_size_eq_zero, beq_eq_false_iff_ne] at hne
    rw [Std.HashMap.size_erase, if_pos hmem.1] at hle
    exact ⟨rounds + 1, by omega, .draw (Std.HashMap.getElem?_eq_some_getElem hmem.1) hmem.2 h⟩
  | case2 row rest hmem =>
    rw [not_and_or, not_lt] at hmem
    exact ⟨0, Nat.zero_le _, .stop hmem⟩

/-- **The length is a border, and the row is as long as can be.** -/
structure Bordered (t : Table) : Prop where
  /-- The length is that of the row, and the last entry of the row is not nil. -/
  last : ∃ n : Int64, t.lengthValue = .integer n ∧ n.toInt = t.length ∧
    (t.length = 0 ∨ t.getInt n ≠ .nil)
  /-- The next key is mapped to nil. -/
  next : ∀ n : Int64, n.toInt = t.length + 1 → t.getInt n = .nil
  /-- No entry beside the row is nil or could stand in the row or continue it. -/
  beside : ∀ (k : Key) (v : Value), t.rest[k]? = some v →
    v ≠ .nil ∧ ∀ n : Int64, k = .integer n → ¬(1 ≤ n.toInt ∧ n.toInt ≤ t.length + 1)
  /-- If the positive keys are `1, …, m`, the length is `m`. -/
  unique : ∀ m : Nat, {j : ℤ | 1 ≤ j ∧ ∃ n : Int64, n.toInt = j ∧ t.getInt n ≠ .nil} =
    Set.Icc 1 (m : ℤ) → t.length = m

theorem Tidy.next {t : Table} (h : t.Tidy) {n : Int64} (hn : n.toInt = t.length + 1) :
    t.getInt n = .nil := by
  have hposition : position (.integer n) = some t.row.size := position_eq_some_iff.mpr ⟨n, rfl, hn⟩
  have hbeyond : Beyond t.row.size (.integer n) := fun i hi => by
    rw [hposition] at hi
    exact (Option.some.inj hi).le
  have hfree : Key.integer n ∉ t.rest := fun hmem =>
    absurd (h.beside _ hmem _ hposition) (Nat.not_succ_le_self _)
  rw [show t.getInt n = t.get (.integer n) from rfl, get_of_beyond hbeyond,
    Std.HashMap.getElem?_eq_none hfree]
  rfl

theorem Tidy.last_ne_nil {t : Table} (h : t.Tidy) {n : Int64} (hn : n.toInt = t.length)
    (hpos : t.length ≠ 0) : t.getInt n ≠ .nil := by
  have hsize : t.row.size ≠ 0 := hpos
  have hposition : position (.integer n) = some (t.row.size - 1) :=
    position_eq_some_iff.mpr ⟨n, rfl, by rw [hn, length]; omega⟩
  rw [show t.getInt n = t.get (.integer n) from rfl, get_of_lt hposition (by omega),
    Array.getElem?_eq_getElem (by omega), Option.getD_some]
  intro hnil
  refine h.last ?_
  rw [Array.back?, Array.getElem?_eq_getElem (by omega), hnil]

/-- The length is a word. -/
theorem Tidy.toInt_ofNat_length {t : Table} (h : t.Tidy) :
    (Int64.ofNat t.length).toInt = t.length :=
  Int64.toInt_ofNat_of_lt (Nat.lt_of_le_of_lt h.room (by decide))

theorem Tidy.bordered {t : Table} (h : t.Tidy) : t.Bordered where
  last := ⟨_, rfl, h.toInt_ofNat_length,
    or_iff_not_imp_left.mpr (h.last_ne_nil h.toInt_ofNat_length)⟩
  next n hn := h.next hn
  beside k v hv := by
    refine ⟨fun hnil => h.filled k (hnil ▸ hv), ?_⟩
    rintro n rfl ⟨hpos, hle⟩
    have hmem := (Std.HashMap.mem_iff_isSome_getElem?).mpr (Option.isSome_of_eq_some hv)
    have hposition : position (.integer n) = some (n.toInt - 1).toNat :=
      position_eq_some_iff.mpr ⟨n, rfl, by omega⟩
    have := h.beside _ hmem _ hposition
    rw [length] at hle
    omega
  unique m hm := by
    have hiff (j : ℤ) : (1 ≤ j ∧ ∃ n : Int64, n.toInt = j ∧ t.getInt n ≠ .nil) ↔ 1 ≤ j ∧ j ≤ m :=
      Set.ext_iff.mp hm j
    refine le_antisymm ?_ ?_
    · -- The last key of the row is among the positive keys.
      by_contra hlt
      have hlast := h.last_ne_nil h.toInt_ofNat_length (by omega)
      have := (hiff t.length).mp ⟨by omega, _, h.toInt_ofNat_length, hlast⟩
      omega
    · -- The key after it is not.
      by_contra hlt
      obtain ⟨-, n, hn, hne⟩ := (hiff (t.length + 1)).mpr ⟨by omega, by omega⟩
      exact hne (h.next hn)

/-- **The length is always a border**, and drawing in the entries that continue a row stops on every
row and entries beside it. -/
theorem written_bordered {t : Table} (h : t.Written) :
    t.Bordered ∧ ∀ (row : Array Value) (rest : Std.HashMap Key Value),
      ∃ rounds ≤ rest.size, Draws rounds row rest (extend row rest).1 (extend row rest).2 :=
  ⟨h.tidy.bordered, draws_extend⟩

/-- A table whose last entry was cleared behind a hole, so that its row is empty again. -/
theorem written_bordered_hole :
    (((Table.ofList [.boolean true, .boolean false]).setInt 1 .nil).setInt 2 .nil).Written ∧
    (((Table.ofList [.boolean true, .boolean false]).setInt 1 .nil).setInt 2 .nil).Bordered :=
  have hwritten := ((Written.ofList [.boolean true, .boolean false]).setInt 1 .nil).setInt 2 .nil
  ⟨hwritten, (written_bordered hwritten).1⟩

end ResumableVM.Table
