import ResumableVM.Proofs.Limits
import ResumableVM.Proofs.Operations

/-! # IndexChains: what indexing comes to

Indexing looks into a value, then into the table that its metatable has under `__index`, then into
the table that the metatable of that one has there, until it finds an entry or no such table.
`IndexChain` gives the values of this chain their numbers, and `IndexEnds` says how the chain ends
at a value; both speak of nothing but what tables map keys to. An index operation does what the
first end among as many values as the limit allows says, and is too long without one
(`resolveIndex_eq_iff`); a chain that comes back to a value has no end at all
(`resolveIndex_of_cycle`). Only the entries of these values are read, and the handlers of those that
have none (`resolveIndex_congr`), so any objects may be behind them. -/

namespace ResumableVM

namespace Store

/-- There is no entry in this value: it maps the key to nil, or is no table. -/
def Lacks (st : Store) (key v : Value) : Prop :=
  ∀ id, v = .table id → (st.table id).rawGet key = .nil

/-- What the metatable of a value maps `__index` to. -/
def indexHandler (st : Store) (v : Value) : Value :=
  match st.metatableOf v with
  | some id => (st.table id).rawGet (.string "__index")
  | none => .nil

/-- **The values of the chain** that starts at `v`, by their number: after a value without an entry
comes the table that handles its index events. -/
inductive IndexChain (st : Store) (key v : Value) : Nat → Value → Prop
  | start : IndexChain st key v 0 v
  | next {n : Nat} {w : Value} {id : TableId} (h : IndexChain st key v n w)
      (hlacks : st.Lacks key w) (hhandler : st.indexHandler w = .table id) :
      IndexChain st key v (n + 1) (.table id)

/-- **How a chain ends at a value**, and what becomes of the operation then. -/
inductive IndexEnds (st : Store) (key v : Value) : Resolution → Prop
  /-- There is an entry. -/
  | entry {id : TableId} {x : Value} (hv : v = .table id) (h : (st.table id).rawGet key = x)
      (hx : x ≠ .nil) : IndexEnds st key v (.value x)
  /-- Nothing handles the index events of a table. -/
  | unhandled {id : TableId} (hv : v = .table id) (h : (st.table id).rawGet key = .nil)
      (hhandler : st.indexHandler v = .nil) : IndexEnds st key v (.value .nil)
  /-- Nothing handles those of a value that is no table. -/
  | unindexable (hv : ∀ id, v ≠ .table id) (hhandler : st.indexHandler v = .nil) :
      IndexEnds st key v (.error (.illegalOperation .index v.typeName))
  /-- A function does, and is called. -/
  | function {f : Function} (h : st.Lacks key v) (hhandler : st.indexHandler v = .function f) :
      IndexEnds st key v (.handler (.function f) [v, key])
  /-- The handler is of any other kind. -/
  | illegal (h : st.Lacks key v) (hnil : st.indexHandler v ≠ .nil)
      (hfunction : ∀ f, st.indexHandler v ≠ .function f)
      (htable : ∀ id, st.indexHandler v ≠ .table id) :
      IndexEnds st key v (.error (.illegalOperation .index v.typeName))

variable {st st' : Store} {key v w : Value} {limit n : Nat} {res : Resolution}

/-! ### One look -/

theorem handler_index (st : Store) (v : Value) : st.handler v .index = st.indexHandler v := rfl

theorem lacks_of_no_table (hv : ∀ id, v ≠ .table id) : st.Lacks key v :=
  fun id hid => absurd hid (hv id)

theorem rawEntry_eq_nil_iff : st.rawEntry v key = .nil ↔ st.Lacks key v := by
  cases v with
  | table id => exact ⟨fun h _ hid => by cases hid; exact h, fun h => h id rfl⟩
  | _ => exact ⟨fun _ _ hid => (by cases hid), fun _ => rfl⟩

theorem isNil_rawEntry (h : st.Lacks key v) : (st.rawEntry v key).isNil = true :=
  Value.isNil_iff.mpr (rawEntry_eq_nil_iff.mpr h)

/-- At every value the chain ends or goes on. -/
theorem exists_indexEnds (st : Store) (key v : Value) :
    (∃ res, st.IndexEnds key v res) ∨
      st.Lacks key v ∧ ∃ id, st.indexHandler v = .table id := by
  by_cases h : st.Lacks key v
  · cases hhandler : st.indexHandler v with
    | nil =>
      by_cases hv : ∃ id, v = .table id
      · obtain ⟨id, hv⟩ := hv
        exact .inl ⟨_, .unhandled hv (h id hv) hhandler⟩
      · exact .inl ⟨_, .unindexable (fun id hid => hv ⟨id, hid⟩) hhandler⟩
    | function f => exact .inl ⟨_, .function h hhandler⟩
    | table id => exact .inr ⟨h, id, rfl⟩
    | boolean | integer | float | string =>
      exact .inl ⟨_, .illegal h (by simp [hhandler]) (by simp [hhandler]) (by simp [hhandler])⟩
  · simp only [Lacks, not_forall] at h
    obtain ⟨id, hv, hx⟩ := h
    exact .inl ⟨_, .entry hv rfl hx⟩

theorem resolveIndex_of_indexEnds (h : st.IndexEnds key v res) (limit : Nat) :
    st.resolveIndex key (limit + 1) v = res := by
  cases h with
  | @entry id x hv h hx =>
    subst hv
    have hentry : st.rawEntry (.table id) key = x := h
    have hsome : x.isNil = false := Bool.eq_false_iff.mpr fun hnil => hx (Value.isNil_iff.mp hnil)
    simp [resolveIndex, hentry, hsome]
  | @unhandled id hv h hhandler =>
    subst hv
    have hentry : st.rawEntry (.table id) key = .nil := h
    simp [resolveIndex, hentry, Value.isNil, handler_index, hhandler]
  | unindexable hv hhandler =>
    have hnil : (st.rawEntry v key).isNil = true := isNil_rawEntry (lacks_of_no_table hv)
    cases v with
    | table id => exact absurd rfl (hv id)
    | _ => simp [resolveIndex, hnil, handler_index, hhandler]
  | function h hhandler => simp [resolveIndex, isNil_rawEntry h, handler_index, hhandler]
  | illegal h hnil hfunction htable =>
    cases hhandler : st.indexHandler v with
    | nil => exact absurd hhandler hnil
    | function f => exact absurd hhandler (hfunction f)
    | table id => exact absurd hhandler (htable id)
    | _ => simp [resolveIndex, isNil_rawEntry h, handler_index, hhandler]

/-! ### The walk -/

theorem IndexChain.unique {w' : Value} (h : st.IndexChain key v n w)
    (h' : st.IndexChain key v n w') : w = w' := by
  induction h generalizing w' with
  | start => cases h'; rfl
  | next _ _ hhandler ih =>
    cases h' with
    | next h' _ hhandler' =>
      cases ih h'
      exact hhandler.symm.trans hhandler'

/-- As many looks as the chain has values lead to its next one. -/
theorem resolveIndex_of_chain (h : st.IndexChain key v n w) (limit : Nat) :
    st.resolveIndex key (n + limit) v = st.resolveIndex key limit w := by
  induction h generalizing limit with
  | start => rw [Nat.zero_add]
  | @next n w id _ hlacks hhandler ih =>
    rw [Nat.add_right_comm, Nat.add_assoc, ih]
    simp [resolveIndex, isNil_rawEntry hlacks, handler_index, hhandler]

theorem resolveIndex_of_chain_ends (h : st.IndexChain key v n w) (hn : n < limit)
    (hends : st.IndexEnds key w res) : st.resolveIndex key limit v = res := by
  obtain ⟨rest, rfl⟩ : ∃ rest, limit = n + (rest + 1) := ⟨limit - n - 1, by omega⟩
  rw [resolveIndex_of_chain h, resolveIndex_of_indexEnds hends]

theorem resolveIndex_of_long_chain (h : st.IndexChain key v limit w) :
    st.resolveIndex key limit v = .error .indexChainTooLong :=
  resolveIndex_of_chain h 0

/-- **A chain has its first end within the limit, or is as long as the limit.** -/
theorem exists_chain_ends (st : Store) (key v : Value) (limit : Nat) :
    (∃ n < limit, ∃ w res, st.IndexChain key v n w ∧ st.IndexEnds key w res) ∨
      ∃ w, st.IndexChain key v limit w := by
  induction limit with
  | zero => exact .inr ⟨v, .start⟩
  | succ limit ih =>
    rcases ih with ⟨n, hn, hends⟩ | ⟨w, hchain⟩
    · exact .inl ⟨n, Nat.lt_succ_of_lt hn, hends⟩
    · rcases exists_indexEnds st key w with ⟨res, h⟩ | ⟨hlacks, id, hhandler⟩
      · exact .inl ⟨limit, Nat.lt_succ_self limit, w, res, hchain, h⟩
      · exact .inr ⟨.table id, .next hchain hlacks hhandler⟩

/-- **What indexing comes to**: what the end of the chain says, or that the chain is too long. -/
theorem resolveIndex_eq_iff :
    st.resolveIndex key limit v = res ↔
      (∃ n < limit, ∃ w, st.IndexChain key v n w ∧ st.IndexEnds key w res) ∨
        (∃ w, st.IndexChain key v limit w) ∧ res = .error .indexChainTooLong := by
  constructor
  · rintro rfl
    rcases exists_chain_ends st key v limit with ⟨n, hn, w, res, hchain, h⟩ | ⟨w, hchain⟩
    · rw [resolveIndex_of_chain_ends hchain hn h]
      exact .inl ⟨n, hn, w, hchain, h⟩
    · exact .inr ⟨⟨w, hchain⟩, resolveIndex_of_long_chain hchain⟩
  · rintro (⟨n, hn, w, hchain, h⟩ | ⟨⟨w, hchain⟩, rfl⟩)
    · exact resolveIndex_of_chain_ends hchain hn h
    · exact resolveIndex_of_long_chain hchain

/-! ### Cycles -/

/-- **A chain that comes back to a value is too long for every limit.** -/
theorem resolveIndex_of_cycle {period : Nat} (hperiod : 0 < period)
    (h : st.IndexChain key v n w) (hback : st.IndexChain key v (n + period) w) (limit : Nat) :
    st.resolveIndex key limit v = .error .indexChainTooLong := by
  -- One round more changes nothing.
  have hround (rest : Nat) :
      st.resolveIndex key (period + rest) w = st.resolveIndex key rest w := by
    rw [← resolveIndex_of_chain h, ← Nat.add_assoc, resolveIndex_of_chain hback]
  have hrounds (k : Nat) : st.resolveIndex key (k * period) w = .error .indexChainTooLong := by
    induction k with
    | zero => rw [Nat.zero_mul]; rfl
    | succ k ih => rw [Nat.succ_mul, Nat.add_comm, hround, ih]
  have hfar : st.resolveIndex key (n + limit * period) v = .error .indexChainTooLong := by
    rw [resolveIndex_of_chain h, hrounds]
  -- As many rounds as the limit are at least as long as it.
  have hle : limit ≤ n + limit * period := by
    have := Nat.le_mul_of_pos_right limit hperiod
    omega
  rcases st.resolveIndex_mono key v hle with hlong | hsame
  · exact hlong
  · rw [← hsame, hfar]

/-! ### What is read -/

/-- The look into this value is the same in both stores. -/
structure LooksAlike (st st' : Store) (key v : Value) : Prop where
  entry : ∀ id, v = .table id → (st'.table id).rawGet key = (st.table id).rawGet key
  /-- The handler is read only where there is no entry. -/
  handler : st.Lacks key v → st'.indexHandler v = st.indexHandler v

theorem LooksAlike.lacks (h : LooksAlike st st' key v) (hlacks : st.Lacks key v) :
    st'.Lacks key v := fun id hv => (h.entry id hv).trans (hlacks id hv)

theorem IndexEnds.congr (h : st.IndexEnds key v res) (halike : LooksAlike st st' key v) :
    st'.IndexEnds key v res := by
  have hhandler := halike.handler
  cases h with
  | entry hv h hx => exact .entry hv ((halike.entry _ hv).trans h) hx
  | @unhandled id hv h hnil =>
    have hlacks : st.Lacks key v := fun _ hid => by cases hv.symm.trans hid; exact h
    exact .unhandled hv ((halike.entry _ hv).trans h) ((hhandler hlacks).trans hnil)
  | unindexable hv hnil =>
    exact .unindexable hv ((hhandler (lacks_of_no_table hv)).trans hnil)
  | function h hf => exact .function (halike.lacks h) ((hhandler h).trans hf)
  | illegal h hnil hfunction htable =>
    rw [← hhandler h] at hnil hfunction htable
    exact .illegal (halike.lacks h) hnil hfunction htable

/-- A chain whose values look alike is a chain in both stores. -/
theorem IndexChain.congr (h : st.IndexChain key v n w)
    (halike : ∀ k < n, ∀ u, st.IndexChain key v k u → LooksAlike st st' key u) :
    st'.IndexChain key v n w := by
  induction h with
  | start => exact .start
  | @next n w id h hlacks hhandler ih =>
    have hlook := halike n (Nat.lt_succ_self n) w h
    exact .next (ih fun k hk => halike k (Nat.lt_succ_of_lt hk)) (hlook.lacks hlacks)
      ((hlook.handler hlacks).trans hhandler)

/-- **Indexing reads** only the entries of as many values as the limit allows, and only the handlers
of those that have no entry. -/
theorem resolveIndex_congr
    (h : ∀ n < limit, ∀ w, st.IndexChain key v n w → LooksAlike st st' key w) :
    st'.resolveIndex key limit v = st.resolveIndex key limit v := by
  rcases exists_chain_ends st key v limit with ⟨n, hn, w, res, hchain, hends⟩ | ⟨w, hchain⟩
  · have hchain' := hchain.congr fun k hk => h k (hk.trans hn)
    rw [resolveIndex_of_chain_ends hchain hn hends,
      resolveIndex_of_chain_ends hchain' hn (hends.congr (h n hn w hchain))]
  · rw [resolveIndex_of_long_chain hchain, resolveIndex_of_long_chain (hchain.congr h)]

end Store

/-! ### The operation -/

/-- The machine after an index operation was counted, and so many calls of a handler. -/
def Machine.indexed (m : Machine) (handlers : Nat) : Machine :=
  { m with counters :=
      { m.counters with
        index := m.counters.index + 1
        handlers := m.counters.handlers + handlers } }

/-- What an index operation does when this becomes of it. -/
def Run.indexed (r : Run) : Resolution → Step
  | .value x =>
    .next { r with machine := { r.machine.indexed 0 with channel := ⟨[x], none⟩ } } .settled
  | .error e => Run.fail { r with machine := r.machine.indexed 0 } e
  | .handler f args => .next { r with machine := r.machine.indexed 1 } (.invoke f args)

theorem Run.step_index (r : Run) (v key : Value) :
    r.step (.request (.index v key)) = r.indexed (r.machine.resolve (.index v key)) := by
  simp only [step, request, Machine.resolve_count]
  cases r.machine.resolve (.index v key) <;> rfl

/-- **Indexing follows its chain exactly, and ends.** In any machine and for any value and key: the
operation comes to what the first end of the chain says, within as many values as the limit allows,
and is too long otherwise; a chain that comes back to a value is too long for every limit; only
entries of these values are read, and handlers of those without an entry. On any stack the operation
leaves the objects alone: it puts a value into the channel, or fails, or makes one call, and is over
when the call is, with no tail call left. -/
theorem index_chain_exact (m : Machine) (v key : Value) :
    (∀ res, m.resolve (.index v key) = res ↔
      (∃ n < m.limits.maxIndexChain, ∃ w,
        m.store.IndexChain key v n w ∧ m.store.IndexEnds key w res) ∨
      (∃ w, m.store.IndexChain key v m.limits.maxIndexChain w) ∧
        res = .error .indexChainTooLong) ∧
    (∀ (n period : Nat) (w : Value), 0 < period → m.store.IndexChain key v n w →
      m.store.IndexChain key v (n + period) w →
        ∀ limit, m.store.resolve limit (.index v key) = .error .indexChainTooLong) ∧
    (∀ st' : Store, (∀ n < m.limits.maxIndexChain, ∀ w, m.store.IndexChain key v n w →
        m.store.LooksAlike st' key w) →
      st'.resolve m.limits.maxIndexChain (.index v key) = m.resolve (.index v key)) ∧
    (∀ live pending flatten, Run.step ⟨m, live, pending, flatten⟩ (.request (.index v key)) =
      Run.indexed ⟨m, live, pending, flatten⟩ (m.resolve (.index v key))) ∧
    (∀ m', m.Completes (.request (.index v key)) m' ↔
      (∃ x, m.resolve (.index v key) = .value x ∧
        m' = { m.indexed 0 with channel := ⟨[x], none⟩ }) ∨
      ∃ f args, m.resolve (.index v key) = .handler f args ∧
        (m.indexed 1).Completes (.invoke f args) m' ∧ m'.channel.tailCall = none) := by
  refine ⟨fun res => Store.resolveIndex_eq_iff,
    fun n period w hperiod h hback limit => Store.resolveIndex_of_cycle hperiod h hback limit,
    fun st' h => Store.resolveIndex_congr h,
    fun live pending flatten => Run.step_index ⟨m, live, pending, flatten⟩ v key, fun m' => ?_⟩
  cases hresolve : m.resolve (.index v key) with
  | value x =>
    have hcount : m.count (.index v key) = m.indexed 0 := rfl
    rw [Machine.completes_of_value hresolve, hcount]
    simp
  | error e => simpa using Machine.not_completes_of_error hresolve
  | handler f args =>
    rw [Machine.completes_of_handler hresolve]
    constructor
    · exact fun h => .inr ⟨f, args, rfl, h, h.tailCall (by simp)⟩
    · rintro (⟨x, hx, -⟩ | ⟨f', args', heq, h, -⟩)
      · cases hx
      · cases heq
        exact h

/-- A store with a tower of three tables, each of which handles the index events of the one below
it. The highest has one entry, and a function handles its index events. Beside the tower is a table
that handles its own. -/
def Store.tower : Store :=
  let handled (handler : Value) : Table := Table.empty.setString "__index" handler
  let top := Table.empty.set (.boolean true) (.integer 7)
  { empty with
    tables := #[Table.empty.withMetatable (some ⟨1⟩), handled (.table ⟨2⟩),
      Table.empty.withMetatable (some ⟨3⟩), handled (.table ⟨4⟩),
      top.withMetatable (some ⟨5⟩), handled (.function (.routine ⟨1⟩)),
      (handled (.table ⟨6⟩)).withMetatable (some ⟨6⟩)] }

namespace Store

theorem rawGet_handled (handler : Value) (hnil : handler.isNil = false) :
    (Table.empty.setString "__index" handler).rawGet (.string "__index") = handler := by
  simp [Table.setString, Table.set, Table.setRest, Table.rawGet, Value.key?, Table.get, hnil]

theorem lacks_tower (b : Bool) {id : TableId} (hid : id ∈ [⟨0⟩, ⟨2⟩, ⟨6⟩]) :
    tower.Lacks (.boolean b) (.table id) := by
  rintro _ ⟨⟩
  fin_cases hid <;>
    simp [tower, table, Table.rawGet, Value.key?, Table.get, Table.empty, Table.withMetatable,
      Table.setString, Table.set, Table.setRest, Value.isNil]

theorem chain_tower (b : Bool) : tower.IndexChain (.boolean b) (.table ⟨0⟩) 1 (.table ⟨2⟩) ∧
    tower.IndexChain (.boolean b) (.table ⟨0⟩) 2 (.table ⟨4⟩) := by
  have hfirst : tower.IndexChain (.boolean b) (.table ⟨0⟩) 1 (.table ⟨2⟩) :=
    .next .start (lacks_tower b (by simp)) (rawGet_handled (.table ⟨2⟩) rfl)
  exact ⟨hfirst, .next hfirst (lacks_tower b (by simp)) (rawGet_handled (.table ⟨4⟩) rfl)⟩

theorem rawGet_top (b : Bool) :
    (tower.table ⟨4⟩).rawGet (.boolean b) = if b then .integer 7 else .nil := by
  cases b <;>
    simp [tower, table, Table.rawGet, Value.key?, Table.get, Table.empty, Table.withMetatable,
      Table.set, Table.setRest, Value.isNil]

/-- Whatever handles the index events of the top, the way to its entry looks the same. -/
theorem looksAlike_tower (t : Table) {w : Value} (hn : n < 3)
    (h : tower.IndexChain (.boolean true) (.table ⟨0⟩) n w) :
    tower.LooksAlike (tower.modifyTable ⟨5⟩ fun _ => t) (.boolean true) w := by
  obtain ⟨hfirst, htop⟩ := chain_tower true
  match n, hn with
  | 0, _ =>
    cases h.unique .start
    exact ⟨fun _ hid => (by cases hid; rfl), fun _ => rfl⟩
  | 1, _ =>
    cases h.unique hfirst
    exact ⟨fun _ hid => (by cases hid; rfl), fun _ => rfl⟩
  | 2, _ =>
    cases h.unique htop
    refine ⟨fun _ hid => (by cases hid; rfl), fun hlacks => ?_⟩
    have hnil := (rawGet_top true).symm.trans (hlacks ⟨4⟩ rfl)
    cases hnil

end Store

/-- A machine with the tower that looks into so many values. -/
def Machine.climbing (limit : Nat) : Machine :=
  { Machine.standard ⟨200, limit⟩ with store := .tower }

/-- The function that handles the index events of the top is `type`. -/
theorem Machine.completes_climbing : ∃ m', ((climbing 3).indexed 1).Completes
    (.invoke (.function (.routine ⟨1⟩)) [.table ⟨4⟩, .boolean false]) m' ∧
      m'.channel = ⟨[.string "table"], none⟩ := by
  obtain ⟨m', hrun, hchannel⟩ : ∃ m', Run.run 2 ⟨(climbing 3).indexed 1, [], [], true⟩
      (.invoke (.function (.routine ⟨1⟩)) [.table ⟨4⟩, .boolean false]) = some (.settled m') ∧
        m'.channel = ⟨[.string "table"], none⟩ := ⟨_, rfl, rfl⟩
  exact ⟨m', Run.completes_of_run hrun, hchannel⟩

/-- In the tower: the entry of the top is found with three looks, also where nothing handles the
index events of the top any more, and not with two. Without an entry the function is called with the
top, and leaves its results. Beside the tower, indexing ends with two thousand looks as with two. -/
theorem index_chain_exact_tower :
    (∃ m', (Machine.climbing 3).Completes (.request (.index (.table ⟨0⟩) (.boolean true))) m' ∧
      m'.channel.values = [.integer 7]) ∧
    (Store.tower.modifyTable ⟨5⟩ fun _ => .empty).resolve 3
      (.index (.table ⟨0⟩) (.boolean true)) = .value (.integer 7) ∧
    Store.tower.resolve 2 (.index (.table ⟨0⟩) (.boolean true)) = .error .indexChainTooLong ∧
    (∃ m', (Machine.climbing 3).Completes (.request (.index (.table ⟨0⟩) (.boolean false))) m' ∧
      m'.channel.values = [.string "table"]) ∧
    Store.tower.resolve 2000 (.index (.table ⟨6⟩) (.boolean true)) = .error .indexChainTooLong ∧
    Store.tower.resolve 2 (.index (.table ⟨6⟩) (.boolean true)) = .error .indexChainTooLong := by
  obtain ⟨hfound, -, hreads, -, hcompletes⟩ :=
    index_chain_exact (.climbing 3) (.table ⟨0⟩) (.boolean true)
  obtain ⟨hshort, -⟩ := index_chain_exact (.climbing 2) (.table ⟨0⟩) (.boolean true)
  obtain ⟨hcalled, -, -, -, hcalls⟩ :=
    index_chain_exact (.climbing 3) (.table ⟨0⟩) (.boolean false)
  obtain ⟨-, hcycle, -⟩ := index_chain_exact (.climbing 3) (.table ⟨6⟩) (.boolean true)
  have hentry : (Machine.climbing 3).resolve (.index (.table ⟨0⟩) (.boolean true)) =
      .value (.integer 7) :=
    (hfound _).mpr (.inl ⟨2, by decide, _, (Store.chain_tower true).2,
      .entry rfl (Store.rawGet_top true) nofun⟩)
  have hlacks : Store.tower.Lacks (.boolean false) (.table ⟨4⟩) := fun _ hid => by
    cases hid
    exact Store.rawGet_top false
  have hhandler : (Machine.climbing 3).resolve (.index (.table ⟨0⟩) (.boolean false)) =
      .handler (.function (.routine ⟨1⟩)) [.table ⟨4⟩, .boolean false] :=
    (hcalled _).mpr (.inl ⟨2, by decide, _, (Store.chain_tower false).2,
      .function hlacks (Store.rawGet_handled (.function (.routine ⟨1⟩)) rfl)⟩)
  have hround : Store.tower.IndexChain (.boolean true) (.table ⟨6⟩) (0 + 1) (.table ⟨6⟩) :=
    .next .start (Store.lacks_tower true (by simp)) (Store.rawGet_handled (.table ⟨6⟩) rfl)
  have htoo := hcycle 0 1 (.table ⟨6⟩) Nat.one_pos .start hround
  obtain ⟨m', hover, hchannel⟩ := Machine.completes_climbing
  refine ⟨⟨_, (hcompletes _).mpr (.inl ⟨_, hentry, rfl⟩), rfl⟩, ?_,
    (hshort _).mpr (.inr ⟨⟨_, (Store.chain_tower true).2⟩, rfl⟩),
    ⟨m', (hcalls m').mpr (.inr ⟨_, _, hhandler, hover, by rw [hchannel]⟩), by rw [hchannel]⟩,
    htoo 2000, htoo 2⟩
  exact (hreads _ fun n hn w hw => Store.looksAlike_tower .empty hn hw).trans hentry

end ResumableVM
