import ResumableVM.Error
import ResumableVM.Value.Number
import Std.Data.HashMap

/-! # Table: finite maps from values to values

A table keeps the values of keys `1, 2, …, n` in a row and all other entries beside it. Keys are
normalised first: a float that is an integer names the integer's slot, and neither nil nor NaN is a
key. A nil value means that there is no entry.

`Table.get` is the view: what a key is mapped to, wherever the entry is kept. Writing past the end
of the row extends it and draws in the entries beside it that now continue it; clearing the last
entry of the row shortens it to the last entry that is left. -/

namespace ResumableVM

/-- A normalised key. -/
inductive Key where
  | boolean (b : Bool)
  | integer (n : Int64)
  /-- The bits of a float that is no integer. -/
  | float (bits : UInt64)
  | string (s : String)
  | table (id : TableId)
  | function (f : Function)
deriving DecidableEq, Hashable

/-- The key that a value is, unless it is nil or NaN. -/
def Value.key? : Value → Option Key
  | nil => none
  | boolean b => some (.boolean b)
  | integer n => some (.integer n)
  | float x =>
    if Binary64.isNaN x then none
    else match Binary64.toInt64? x with
      | some n => some (.integer n)
      | none => some (.float x.toBits)
  | string s => some (.string s)
  | table id => some (.table id)
  | function f => some (.function f)

/-- A table with an optional metatable. -/
structure Table where
  /-- Values of the keys from 1 on. -/
  row : Array Value
  /-- All other entries. -/
  rest : Std.HashMap Key Value
  metatable : Option TableId

namespace Table

/-- The table without entries. -/
def empty : Table := ⟨#[], ∅, none⟩

instance : Inhabited Table := ⟨empty⟩

/-- The key's place in the row, counted from zero. -/
def place? (t : Table) (n : Int64) : Option Nat :=
  if 1 ≤ n.toInt ∧ n.toInt ≤ t.row.size then some (n.toInt - 1).toNat else none

/-- What an integer key is mapped to. -/
def getInt (t : Table) (n : Int64) : Value :=
  match t.place? n with
  | some i => t.row[i]?.getD .nil
  | none => t.rest[Key.integer n]?.getD .nil

/-- The **view of a table**: what a key is mapped to, nil when there is no entry. -/
def get (t : Table) : Key → Value
  | .integer n => t.getInt n
  | k => t.rest[k]?.getD .nil

/-- What a value is mapped to as a key. -/
def rawGet (t : Table) (v : Value) : Value :=
  match v.key? with
  | some k => t.get k
  | none => .nil

/-- What a string is mapped to. -/
def getString (t : Table) (s : String) : Value := t.get (.string s)

/-- An entry beside the row, or its removal. -/
def setRest (t : Table) (k : Key) (v : Value) : Table :=
  if v.isNil then { t with rest := t.rest.erase k } else { t with rest := t.rest.insert k v }

/-- The row without the nils at its end. -/
def shorten (row : Array Value) : Array Value :=
  if h : row.size = 0 then row
  else if row[row.size - 1].isNil then shorten row.pop else row
termination_by row.size
decreasing_by simp; omega

/-- The length of the longest row: the largest key. -/
def maxLength : Nat := 0x7FFFFFFFFFFFFFFF

/-- The key that would continue a row. -/
def nextKey (row : Array Value) : Key := .integer (Int64.ofNat (row.size + 1))

/-- The row with the entries that continue it drawn in. -/
def extend (row : Array Value) (rest : Std.HashMap Key Value) :
    Array Value × Std.HashMap Key Value :=
  if h : nextKey row ∈ rest ∧ row.size < maxLength then
    extend (row.push (rest.get (nextKey row) h.1)) (rest.erase (nextKey row))
  else (row, rest)
termination_by rest.size
decreasing_by
  have : rest.size ≠ 0 := fun h0 => by
    have := Std.HashMap.isEmpty_iff_forall_not_mem.mp
      (by simpa [Std.HashMap.isEmpty_eq_size_eq_zero] using h0) (nextKey row)
    exact this h.1
  rw [Std.HashMap.size_erase, if_pos h.1]
  omega

/-- The table with an integer key mapped to a value. -/
def setInt (t : Table) (n : Int64) (v : Value) : Table :=
  let size := t.row.size
  match t.place? n with
  | some i =>
    let row := t.row.setIfInBounds i v
    { t with row := if i + 1 = size then shorten row else row }
  | none =>
    if n.toInt = size + 1 ∧ !v.isNil then
      let (row, rest) := extend (t.row.push v) (t.rest.erase (.integer n))
      { t with row := row, rest := rest }
    else t.setRest (.integer n) v

/-- The table with a key mapped to a value. -/
def set (t : Table) (k : Key) (v : Value) : Table :=
  match k with
  | .integer n => t.setInt n v
  | k => t.setRest k v

/-- The key that an entry for a value is kept under; nil and NaN cannot be keys. -/
def keyFor (k : Value) : Except Failure Key :=
  match k.key? with
  | some key => .ok key
  | none => .error (if k.isNil then .keyIsNil else .keyIsNaN)

/-- The table with a value mapped to another. -/
def rawSet (t : Table) (k v : Value) : Except Failure Table := do
  let key ← keyFor k
  pure (t.set key v)

/-- The table with a string mapped to a value. -/
def setString (t : Table) (s : String) (v : Value) : Table := t.set (.string s) v

/-- The table that maps `1, 2, …` to the given values. -/
def ofList (vs : List Value) : Table :=
  (vs.foldl (fun (t, n) v => (setInt t (Int64.ofNat n) v, n + 1)) (empty, 1)).1

/-- The length of the row. -/
def length (t : Table) : Nat := t.row.size

/-- The length as a value. -/
def lengthValue (t : Table) : Value := .integer (Int64.ofNat t.length)

/-- The table with another metatable, or none. -/
def withMetatable (t : Table) (m : Option TableId) : Table := { t with metatable := m }

end Table

end ResumableVM
