import ResumableVM.Machine.Activation
import ResumableVM.Proofs.Keys
import ResumableVM.Proofs.Tables

/-! # Maps: tables as finite maps over primitive equality

What a table maps a value to depends on the slot that the value names, and values that are
primitively equal name the same one. So a write changes what the values equal to its key are mapped
to, and nothing else (`Tidy.rawGet_rawSet`). -/

namespace ResumableVM.Table

/-- **A write changes what the values equal to its key are mapped to, and nothing else.** -/
theorem Tidy.rawGet_rawSet {t t' : Table} (h : t.Tidy) {k v : Value}
    (hset : t.rawSet k v = .ok t') (q : Value) :
    t'.rawGet q = if q.rawEquals k then v else t.rawGet q := by
  obtain ⟨key, hk, rfl⟩ := rawSet_eq_ok_iff.mp hset
  have hNaN : k.isNaN = false := Bool.eq_false_iff.mpr fun hNaN => by
    rw [Value.key?_eq_none_iff.mpr (.inr hNaN)] at hk
    cases hk
  cases hq : q.isNaN with
  | true =>
    have hnone : q.key? = none := Value.key?_eq_none_iff.mpr (.inr hq)
    simp only [rawGet, hnone, Value.rawEquals_eq_false_of_isNaN hq, Bool.false_eq_true, if_false]
  | false =>
    simp only [Value.rawEquals_iff_key?_eq hq hNaN, hk, rawGet]
    cases q.key? with
    | none => rfl
    | some key' => simp only [Option.some.injEq, h.get_set]

/-- Only finitely many keys are mapped to values other than nil. -/
theorem finite_keys (t : Table) : {k : Key | t.get k ≠ .nil}.Finite := by
  have hrow : {k : Key | ∃ i, position k = some i ∧ i < t.row.size}.Finite := by
    refine Set.Finite.of_finite_image (f := position)
      (((Set.finite_lt_nat t.row.size).image some).subset ?_) ?_
    · rintro _ ⟨k, ⟨i, hi, hlt⟩, rfl⟩
      exact ⟨i, hlt, hi.symm⟩
    · rintro k ⟨i, hi, -⟩ k' - heq
      exact position_inj hi (heq ▸ hi)
  refine (hrow.union (List.finite_toSet t.rest.keys)).subset fun k hk => ?_
  rcases lt_or_beyond t.row.size k with h | h
  · exact .inl h
  · refine .inr (Std.HashMap.mem_keys.mpr ?_)
    by_contra hfree
    refine hk (show t.get k = .nil from ?_)
    rw [get_of_beyond h, Std.HashMap.getElem?_eq_none hfree]
    rfl

/-- Only nil and NaN cannot be written for. -/
theorem rawSet_eq_error_iff {t : Table} {k v : Value} {failure : Failure} :
    t.rawSet k v = .error failure ↔
      k = .nil ∧ failure = .keyIsNil ∨ k.isNaN = true ∧ failure = .keyIsNaN := by
  have hiff := Value.key?_eq_none_iff (v := k)
  unfold Table.rawSet keyFor
  cases hk : k.key? with
  | some key =>
    have hkey : k ≠ .nil ∧ k.isNaN ≠ true := by simpa [hk] using hiff
    simp [bind, Except.bind, pure, Except.pure, hkey]
  | none =>
    simp only [bind, Except.bind, Except.error.injEq]
    rcases hiff.mp hk with rfl | hNaN
    · simp [Value.isNil, Value.isNaN, eq_comm]
    · have hne : k ≠ .nil := by
        rintro rfl
        cases hNaN
      have hnil : k.isNil = false := Bool.eq_false_iff.mpr fun h => hne (Value.isNil_iff.mp h)
      simp [hNaN, hne, hnil, eq_comm]

/-- **A finite map over primitive equality**: what its lookups and writes do to each other. -/
structure IsMap (t : Table) : Prop where
  finite : {k : Key | t.get k ≠ .nil}.Finite
  /-- A write changes what the values equal to its key are mapped to, and nothing else. -/
  rawGet_rawSet : ∀ {k v : Value} {t' : Table}, t.rawSet k v = .ok t' →
    ∀ q : Value, t'.rawGet q = if q.rawEquals k then v else t.rawGet q
  /-- Only nil and NaN cannot be written for. -/
  rawSet_fails_iff : ∀ (k v : Value) (failure : Failure), t.rawSet k v = .error failure ↔
    k = .nil ∧ failure = .keyIsNil ∨ k.isNaN = true ∧ failure = .keyIsNaN
  /-- The lookups and writes for keys of one kind are those for the values. -/
  getInt_eq : ∀ n : Int64, t.getInt n = t.rawGet (.integer n)
  getString_eq : ∀ s : String, t.getString s = t.rawGet (.string s)
  setInt_eq : ∀ (n : Int64) (v : Value), t.rawSet (.integer n) v = .ok (t.setInt n v)
  setString_eq : ∀ (s : String) (v : Value), t.rawSet (.string s) v = .ok (t.setString s v)

theorem Tidy.isMap {t : Table} (h : t.Tidy) : t.IsMap where
  finite := finite_keys t
  rawGet_rawSet hset q := h.rawGet_rawSet hset q
  rawSet_fails_iff _ _ _ := rawSet_eq_error_iff
  getInt_eq _ := rfl
  getString_eq _ := rfl
  setInt_eq _ _ := rfl
  setString_eq _ _ := rfl

/-- The instruction that writes leaves every object as it was if the write fails. -/
theorem setIndex_eq {a : Activation} {st : Store} {id : TableId} {key value : Source} {k v : Value}
    (hk : a.frame.read st key = .ok k) (hv : a.frame.read st value = .ok v) :
    a.setIndex st (.table id) key value = .ok (match (st.table id).rawSet k v with
      | .ok t => (st.modifyTable id fun _ => t, .runs a)
      | .error failure => (st, .fails (.failed failure))) := by
  have hmodify (q : Key) : st.modifyTable id (·.set q v) =
      st.modifyTable id fun _ => (st.table id).set q v := by
    simp only [Store.modifyTable, Store.table]
    congr 1
    refine Array.ext_getElem? fun i => ?_
    rw [Array.getElem?_modify, Array.getElem?_modify]
    split
    · next hid =>
      subst hid
      cases st.tables[id.index]? <;> rfl
    · rfl
  simp only [Activation.setIndex, hk, hv, bind, Except.bind, Table.rawSet]
  cases keyFor k with
  | ok q => simp only [pure, Except.pure, hmodify]
  | error failure => rfl

/-- **Every table that writes lead to is a finite map over primitive equality.**

A write that fails leaves every object as it was. Off NaN, primitive equality is an equivalence, and
equal are the values that name the same slot; an integer and a float do when the float is exactly
that integer. Where entries are kept cannot be found out by lookups: tables with the same lookups
keep having the same ones, and no move between the parts of a table changes one. -/
theorem written_isMap {t : Table} (h : t.Written) :
    t.IsMap ∧
    (∀ (a : Activation) (st : Store) (id : TableId) (key value : Source) (k v : Value),
      a.frame.read st key = .ok k → a.frame.read st value = .ok v →
      a.setIndex st (.table id) key value = .ok (match (st.table id).rawSet k v with
        | .ok t => (st.modifyTable id fun _ => t, .runs a)
        | .error failure => (st, .fails (.failed failure)))) ∧
    (Equivalence fun v w : {v : Value // v.isNaN = false} => v.1.rawEquals w.1 = true) ∧
    (∀ v w : Value, v.isNaN = false → w.isNaN = false →
      (v.rawEquals w = true ↔ v.key? = w.key?)) ∧
    (∀ (n : Int64) (x : Float), (Value.integer n).key? = (Value.float x).key? ↔
      Binary64.isFinite x = true ∧ Binary64.value x = n.toInt) ∧
    (∀ {t' : Table}, t'.Written → (∀ q, t.rawGet q = t'.rawGet q) →
      ∀ {k v : Value} {u : Table}, t.rawSet k v = .ok u →
        ∃ u', t'.rawSet k v = .ok u' ∧ ∀ q, u.rawGet q = u'.rawGet q) ∧
    (∀ (row : Array Value) (rest : Std.HashMap Key Value) (m : Option TableId), Apart row rest →
      ∀ k : Key, get ⟨shorten row, rest, m⟩ k = get ⟨row, rest, m⟩ k ∧
        get ⟨(extend row rest).1, (extend row rest).2, m⟩ k = get ⟨row, rest, m⟩ k) := by
  refine ⟨h.tidy.isMap, fun a st id key value k v hk hv => setIndex_eq hk hv,
    Value.equivalence_rawEquals, fun v w hv hw => Value.rawEquals_iff_key?_eq hv hw,
    fun n x => Value.integer_key?_eq_iff, ?_,
    fun row rest m happart k => ⟨get_shorten happart k, get_extend k⟩⟩
  intro t' h' hsame k v u hset
  obtain ⟨key, hk, rfl⟩ := rawSet_eq_ok_iff.mp hset
  have hset' : t'.rawSet k v = .ok (t'.set key v) := rawSet_eq_ok_iff.mpr ⟨key, hk, rfl⟩
  refine ⟨_, hset', fun q => ?_⟩
  rw [h.tidy.rawGet_rawSet hset, h'.tidy.rawGet_rawSet hset', hsame]

/-- A table whose entries were written out of order, so that one was drawn into the row. -/
theorem written_isMap_drawn :
    ((Table.empty.setInt 2 (.boolean true)).setInt 1 (.boolean false)).Written ∧
    ((Table.empty.setInt 2 (.boolean true)).setInt 1 (.boolean false)).IsMap :=
  ⟨(Written.empty.setInt 2 _).setInt 1 _, (written_isMap ((Written.empty.setInt 2 _).setInt 1 _)).1⟩

end ResumableVM.Table
