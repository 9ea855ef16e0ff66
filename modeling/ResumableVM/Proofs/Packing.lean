import ResumableVM.Proofs.Borders
import ResumableVM.Proofs.Protection

/-! # Packing: `unpack` undoes `pack`

The table that writes of `1, 2, …` in order lead to maps every key of a place to the value there,
wherever the holes are (`get_ofList`): which part of the table an entry ends up in is decided by the
writes, and no look-up depends on it. Its length is that of some prefix (`length_ofList_le`), so
reading the table from `1` on up to its length gives no value that was not packed.

Routines that neither ask nor suspend are over in one step, whoever calls them
(`returns_of_invoked`). -/

namespace ResumableVM

/-- A value that is not nil is found where it stands in the list. -/
theorem valueAt_eq_iff {vs : List Value} {i : Nat} {v : Value} (hv : v ≠ .nil) :
    valueAt vs i = v ↔ vs[i]? = some v := by
  rw [valueAt, Option.getD_eq_iff]
  exact or_iff_left fun h => hv h.2.symm

namespace Table

/-! ### Writing a list -/

/-- One more value is written behind the last key. -/
theorem ofList_concat (vs : List Value) (v : Value) :
    ofList (vs ++ [v]) = (ofList vs).setInt (Int64.ofNat (vs.length + 1)) v := by
  have hcount : ∀ (vs : List Value) (p : Table × Nat),
      (vs.foldl (fun (t, n) v => (setInt t (Int64.ofNat n) v, n + 1)) p).2 = p.2 + vs.length := by
    intro vs
    induction vs with
    | nil => exact fun _ => rfl
    | cons v vs ih =>
      rintro ⟨t, n⟩
      rw [List.foldl_cons, ih, List.length_cons]
      exact Nat.succ_add_eq_add_succ n vs.length
  have hnumber := hcount vs (empty, 1)
  rw [Nat.add_comm] at hnumber
  rw [← hnumber, ofList, List.foldl_append]
  rfl

/-- **A list that is written can be read again**, with its holes: a key of a place is mapped to the
value there, and nothing else is mapped. -/
theorem get_ofList {vs : List Value} (h : vs.length ≤ maxLength) (k : Key) :
    (ofList vs).get k = (position k).elim .nil (valueAt vs) := by
  induction vs using List.reverseRecOn with
  | nil =>
    have hget : (ofList []).get k = .nil := by
      have hbeyond : Beyond (ofList []).row.size k := fun i _ => Nat.zero_le i
      rw [get_of_beyond hbeyond]
      simp [ofList, empty]
    rw [hget]
    cases position k <;> rfl
  | append_singleton vs v ih =>
    rw [List.length_append, List.length_singleton] at h
    have hnext : k = .integer (Int64.ofNat (vs.length + 1)) ↔ position k = some vs.length :=
      @eq_nextKey_iff vs.toArray h k
    rw [ofList_concat, (tidy_ofList vs).get_setInt, ih (by omega)]
    -- The new value has the next key's place; nil was there before.
    split
    · next hk => simp [hnext.mp hk, valueAt]
    · next hk =>
      cases hposition : position k with
      | none => rfl
      | some i =>
        have hne : i ≠ vs.length := fun he => hk (hnext.mpr (he ▸ hposition))
        rcases Nat.lt_or_gt_of_ne hne with hlt | hgt
        · simp [valueAt, List.getElem?_append_left hlt]
        · simp [valueAt, List.getElem?_eq_none (show vs.length ≤ i by omega),
            List.getElem?_eq_none (show (vs ++ [v]).length ≤ i by simp; omega)]

theorem metatable_ofList (vs : List Value) : (ofList vs).metatable = none := by
  induction vs using List.reverseRecOn with
  | nil => rfl
  | append_singleton vs v ih => rw [ofList_concat]; exact (metatable_set _ (.integer _) v).trans ih

/-- The last entry of the row is one of the values. -/
theorem length_ofList_le {vs : List Value} (h : vs.length ≤ maxLength) :
    (ofList vs).length ≤ vs.length := by
  have htidy := tidy_ofList vs
  by_contra hlt
  refine htidy.last_ne_nil htidy.toInt_ofNat_length (by omega) ?_
  have hposition : position (.integer (Int64.ofNat (ofList vs).length)) =
      some ((ofList vs).length - 1) :=
    position_eq_some_iff.mpr ⟨_, rfl, by rw [htidy.toInt_ofNat_length]; omega⟩
  show (ofList vs).get (.integer _) = _
  rw [get_ofList h, hposition, Option.elim_some, valueAt, List.getElem?_eq_none (by omega)]
  rfl

/-! ### The table of arguments -/

/-- The table that `pack` makes of its arguments. -/
def packed (args : List Value) : Table :=
  (ofList args).setString "n" (.integer (Int64.ofNat args.length))

/-- **What a table of arguments holds**: their number under `n`, and otherwise exactly those that
are not nil, at the keys from `1` on. -/
structure Packs (t : Table) (args : List Value) (n : Int64) : Prop where
  size : n.toInt = args.length
  count : t.getString "n" = .integer n
  entries : ∀ (k : Key) (v : Value), k ≠ .string "n" → v ≠ .nil →
    (t.get k = v ↔ ∃ (i : Nat) (j : Int64), k = .integer j ∧ j.toInt = i + 1 ∧ args[i]? = some v)
  metatable : t.metatable = none
  /-- The length is that of a prefix. -/
  length_le : t.length ≤ args.length

variable {args : List Value}

theorem get_packed (h : args.length ≤ maxLength) (k : Key) :
    (packed args).get k = if k = .string "n" then .integer (Int64.ofNat args.length)
      else (position k).elim .nil (valueAt args) := by
  rw [packed, setString, (tidy_ofList args).get_set, get_ofList h]

/-- **The table of arguments holds them.** The count is kept beside the row and leaves its length
alone. -/
theorem packs_packed (h : args.length ≤ maxLength) :
    (packed args).Packs args (Int64.ofNat args.length) where
  size := Int64.toInt_ofNat_of_lt (Nat.lt_of_le_of_lt h (by decide))
  count := by rw [getString, get_packed h, if_pos rfl]
  entries k v hk hv := by
    rw [get_packed h, if_neg hk]
    constructor
    · intro hget
      cases hposition : position k with
      | none => exact absurd (by rwa [hposition] at hget : Value.nil = v).symm hv
      | some i =>
        obtain ⟨j, rfl, hj⟩ := position_eq_some_iff.mp hposition
        rw [hposition, Option.elim_some] at hget
        exact ⟨i, j, rfl, hj, (valueAt_eq_iff hv).mp hget⟩
    · rintro ⟨i, j, rfl, hj, hi⟩
      rw [position_eq_some_iff.mpr ⟨j, rfl, hj⟩, Option.elim_some]
      exact (valueAt_eq_iff hv).mpr hi
  metatable := (metatable_set _ (.string "n") _).trans (metatable_ofList args)
  length_le := length_ofList_le h

/-- The length of a table of arguments is a word. -/
theorem Packs.toInt_ofNat_length {t : Table} {n : Int64} (h : t.Packs args n)
    (hargs : args.length ≤ maxLength) : (Int64.ofNat t.length).toInt = t.length :=
  Int64.toInt_ofNat_of_lt (Nat.lt_of_le_of_lt (h.length_le.trans hargs) (by decide))

/-- The key of a place in a table of arguments is mapped to the argument there, or to nil. -/
theorem Packs.getInt {t : Table} {n : Int64} (h : t.Packs args n) {i : Nat} {j : Int64}
    (hj : j.toInt = i + 1) : t.getInt j = valueAt args i := by
  have hentry {v : Value} (hv : v ≠ .nil) : t.getInt j = v ↔ valueAt args i = v := by
    refine (h.entries (.integer j) v nofun hv).trans ((valueAt_eq_iff hv).trans ?_).symm
    constructor
    · exact fun hi => ⟨i, j, rfl, hj, hi⟩
    · rintro ⟨i', j', hkey, hj', hi⟩
      obtain rfl := Key.integer.inj hkey
      obtain rfl : i = i' := by omega
      exact hi
  by_cases hnil : t.getInt j = .nil
  · by_contra hne
    exact hne ((hentry fun he => hne (hnil.trans he.symm)).mpr rfl)
  · exact ((hentry hnil).mp rfl).symm

end Table

/-- `pack` adds the table of its arguments to the store. -/
theorem Routine.invoke_pack (st : Store) (args : List Value) :
    pack.invoke st args = .ok ((st.addTable (.packed args)).2,
      .answers [.table (st.addTable (.packed args)).1]) := rfl

/-! ### Reading the table -/

namespace Routine.Unpack

variable {args : List Value} {n : Int64} {st : Store} {id : TableId}

/-- The elements from `1` on are the arguments. -/
theorem elements_of_packs {t : Table} (h : t.Packs args n) (hargs : args.length ≤ maxResults)
    {count : Nat} (hcount : count ≤ args.length) : elements t 1 count = args.take count := by
  refine List.ext_getElem (by simp [elements, hcount]) fun i hi hi' => ?_
  rw [elements, List.length_map, List.length_range] at hi
  have hkey : (Int64.ofInt ((1 : Int64).toInt + i)).toInt = i + 1 := by
    have hone : (1 : Int64).toInt = 1 := rfl
    have hmax : maxResults < 2 ^ 63 := by decide
    rw [Int64.toInt_ofInt_of_le (by omega) (by omega)]
    omega
  simp only [elements, List.getElem_map, List.getElem_range, List.getElem_take, h.getInt hkey]
  rw [valueAt, List.getElem?_eq_getElem (by omega), Option.getD_some]

/-- A table of arguments has no handlers. -/
theorem plainTable?_of_packs (h : (st.table id).Packs args n) (event : Event) :
    plainTable? st (.table id) event = some id := by
  have hhandler : st.handler (.table id) event = .nil := by
    simp only [Store.handler, Store.metatableOf, h.metatable]
  rw [plainTable?, hhandler]
  rfl

/-- Between the bounds `1` and `count`, the arguments up to there are the answer. -/
theorem begin_of_packs (h : (st.table id).Packs args n) (hargs : args.length ≤ maxResults)
    {last : Int64} {count : Nat} (hlast : last.toInt = count) (hcount : count ≤ args.length) :
    begin st ⟨.table id, 1, last, 0, #[]⟩ = .answers (args.take count) := by
  have hspan : last.toInt - (1 : Int64).toInt + 1 = count := by
    rw [hlast]
    exact Int.sub_add_cancel _ 1
  simp only [begin, hspan]
  split
  · next hle =>
    obtain rfl : count = 0 := by omega
    rfl
  · rw [if_neg (by omega)]
    simp only [plainTable?_of_packs h, Int.toNat_natCast, elements_of_packs h hargs hcount]

/-- With the number of arguments as the end, all of them are the answer. -/
theorem start_of_packs (h : (st.table id).Packs args n) (hargs : args.length ≤ maxResults) :
    start st [.table id, .integer 1, .integer n] = .ok (.answers args) := by
  have hbegin := begin_of_packs h hargs h.size le_rfl
  rw [List.take_length] at hbegin
  exact congrArg Except.ok hbegin

/-- Without bounds, the arguments up to the length are the answer. -/
theorem start_of_packs_length (h : (st.table id).Packs args n) (hargs : args.length ≤ maxResults) :
    start st [.table id] = .ok (.answers (args.take (st.table id).length)) := by
  have hlength := h.toInt_ofNat_length (hargs.trans (by decide))
  have hbegin := begin_of_packs h hargs hlength h.length_le
  have hplain := plainTable?_of_packs h .length
  simp [start, argument, valueAt, optionalInteger, Value.isNil, bind, Except.bind, pure,
    Except.pure, hplain, hbegin]

end Routine.Unpack

/-! ### Calls that are over at once -/

namespace Run

variable {r r' : Run} {c : Control} {st : Store} {vs : List Value}

/-- **A step that returns**: the results are in the channel, and the stack is as it was. -/
structure Returns (r : Run) (c : Control) (st : Store) (vs : List Value) (r' : Run) : Prop where
  step : r.step c = .next r' .settled
  channel : r'.machine.channel = ⟨vs, none⟩
  store : r'.machine.store = st
  stack : ∃ depth, depth.current = r.machine.depth.current ∧ r.Has depth r.live r.pending r'

/-- A call of a routine invokes it if there is room for one more level. -/
theorem invoked?_routine (hroom : r.machine.depth.current < r.machine.limits.maxCallDepth)
    (id : RoutineId) (args : List Value) :
    r.invoked? (.invoke (.routine id) args) = some (id, args) := by
  simp only [invoked?, Value.routine, Store.callee, CallDepth.enter?, if_pos hroom]
  rfl

/-- A routine that only answers returns its values, whoever invokes it. -/
theorem returns_of_invoked {id : RoutineId} {routine : Routine} {args : List Value}
    (hcall : r.invoked? c = some (id, args))
    (hroutine : r.machine.library.find? id = some routine)
    (hinvoke : routine.invoke r.machine.store args = .ok (st, .answers vs)) :
    ∃ r', r.Returns c st vs r' := by
  obtain ⟨w, n, hdepth, hlive, hpending, hstep⟩ := step_of_invoked hcall hroutine
  rw [hinvoke] at hstep
  obtain ⟨hcurrent, -, -⟩ := CallDepth.of_enter? hdepth
  refine ⟨_, hstep, rfl, rfl, w.depth.leave, ?_, ⟨rfl, rfl, rfl⟩, rfl, rfl, hlive, hpending⟩
  rw [CallDepth.leave, hcurrent]
  rfl

/-- For the host, a call that returns in its first step is over. -/
theorem Returns.start {m : Machine} {callable : Value} {args : List Value}
    (h : Returns ⟨{ m with channel := m.channel.reset }, [], [], true⟩ (.invoke callable args)
      st vs r) (fuel : Nat) :
    m.start (fuel + 2) callable args = some (.done { r.machine with channel := .empty } vs) := by
  obtain ⟨depth, -, hhas⟩ := h.stack
  have hsettle : r.step .settled = .done (.settled r.machine) := by
    simp only [Run.step, Run.settle, Run.proceed, Channel.takeTailCall, h.channel, hhas.live,
      hhas.pending]
  simp only [Machine.start, Machine.perform, Run.run, h.step, hsettle, Option.map_some,
    Outcome.answer, h.channel, Channel.takeValues]
  rfl

end Run

/-! ### Packing and unpacking -/

/-- **`unpack` undoes `pack`.** Wherever `pack` is called, it returns a new table, which holds its
arguments. Wherever that table is unpacked while it holds them, they come back up to their number
with their nils; without bounds those up to the length of the table do. -/
theorem unpack_pack {r : Run} {c : Control} {p : RoutineId} {args : List Value}
    (hcall : r.invoked? c = some (p, args)) (hpack : r.machine.library.find? p = some .pack)
    (hargs : args.length ≤ 1000000) :
    ∃ (t : Table) (n : Int64) (id : TableId) (st : Store) (r' : Run),
      t.Packs args n ∧ r.machine.store.addTable t = (id, st) ∧ st.table id = t ∧
      r.Returns c st [.table id] r' ∧
      ∀ {r₁ : Run} {c₁ : Control} {f : RoutineId}, (r₁.machine.store.table id).Packs args n →
        (r₁.machine.library.find? f = some .unpack →
          r₁.invoked? c₁ = some (f, [.table id, .integer 1, .integer n]) →
          ∃ r₂, r₁.Returns c₁ r₁.machine.store args r₂) ∧
        ∃ len : Int64, len.toInt = (r₁.machine.store.table id).length ∧
          (r₁.machine.library.find? f = some .rawlen → r₁.invoked? c₁ = some (f, [.table id]) →
            ∃ r₂, r₁.Returns c₁ r₁.machine.store [.integer len] r₂) ∧
          (r₁.machine.library.find? f = some .unpack → r₁.invoked? c₁ = some (f, [.table id]) →
            ∃ r₂, r₁.Returns c₁ r₁.machine.store (args.take len.toInt.toNat) r₂) := by
  have hlength : args.length ≤ Table.maxLength := hargs.trans (by decide)
  obtain ⟨r', hreturns⟩ := Run.returns_of_invoked hcall hpack (Routine.invoke_pack _ args)
  refine ⟨.packed args, Int64.ofNat args.length, _, _, r', Table.packs_packed hlength, rfl,
    Store.table_addTable _ _, hreturns, fun {r₁ c₁ f} h => ?_⟩
  have hlen := h.toInt_ofNat_length hlength
  refine ⟨fun hunpack hcall => Run.returns_of_invoked hcall hunpack ?_, _, hlen,
    fun hrawlen hcall => Run.returns_of_invoked hcall hrawlen rfl,
    fun hunpack hcall => Run.returns_of_invoked hcall hunpack ?_⟩
  · simp only [Routine.unpack, Routine.Unpack.start_of_packs h hargs]
  · rw [hlen, Int.toNat_natCast]
    simp only [Routine.unpack, Routine.Unpack.start_of_packs_length h hargs]

/-- Nils around a value come back from a host's calls of the standard routines. -/
theorem unpack_pack_nils : ∃ (m₁ m₂ : Machine) (id : TableId),
    (Machine.standard .standard).start 2 (.routine ⟨7⟩) [.nil, .boolean true, .nil] =
      some (.done m₁ [.table id]) ∧
    m₁.start 2 (.routine ⟨8⟩) [.table id, .integer 1, .integer 3] =
      some (.done m₂ [.nil, .boolean true, .nil]) := by
  obtain ⟨t, n, id, st, r, hpacks, -, htable, hpack, hlater⟩ :=
    unpack_pack (r := ⟨Machine.standard .standard, [], [], true⟩)
      (Run.invoked?_routine (by decide) ⟨7⟩ [.nil, .boolean true, .nil]) rfl (by decide)
  obtain rfl : n = 3 := Int64.toInt_inj.mp (hpacks.size.trans (by decide))
  obtain ⟨depth, hcurrent, hhas⟩ := hpack.stack
  have hroom : r.machine.depth.current < r.machine.limits.maxCallDepth := by
    rw [hhas.depth, hcurrent, hhas.keeps.limits]
    decide
  have hlibrary : r.machine.library.find? ⟨8⟩ = some .unpack := by
    rw [hhas.keeps.library]
    rfl
  let r₁ : Run := ⟨{ r.machine with channel := .empty }, [], [], true⟩
  have hstored : (r₁.machine.store.table id).Packs [.nil, .boolean true, .nil] 3 := by
    show (r.machine.store.table id).Packs _ _
    rwa [hpack.store, htable]
  have hcall : r₁.invoked? (.invoke (.routine ⟨8⟩) [.table id, .integer 1, .integer 3]) = _ :=
    Run.invoked?_routine hroom ⟨8⟩ _
  obtain ⟨r₂, hunpack⟩ := (hlater hstored).1 hlibrary hcall
  exact ⟨_, _, id, hpack.start 0, hunpack.start 0⟩

end ResumableVM
