import Mathlib.Logic.Relation
import ResumableVM.Proofs.CallDepth

/-! # Protection: a metatable that shows something else stays in place

A table is protected when its metatable has an entry under `__metatable`. What a machine does to a
table is little: an instruction may write an entry, `setmetatable` may give it a metatable, and new
tables come from an instruction and from `pack` (`Activation.Changes`, `Routine.Reaches`). None of it
takes a metatable from a protected table, unless it writes the entry that protects it
(`Stage.Moves.protects`).

A `Stage` is a machine between host calls or in one of them, and `Stage.Moves` is what may happen
next, with procedures that were accepted, suspensions and resumptions. Along any number of moves that
write no such entry a protected table stays protected (`protection_persists`): `setmetatable` is
refused, and `getmetatable` shows the entry. -/

namespace ResumableVM

/-! ### Tables -/

namespace Table

/-- Entries that are drawn into the row have integers as keys. -/
theorem getElem?_extend_string (row : Array Value) (rest : Std.HashMap Key Value) (s : String) :
    (extend row rest).2[Key.string s]? = rest[Key.string s]? := by
  fun_induction extend row rest with
  | case1 row rest h ih =>
    rw [ih, Std.HashMap.getElem?_erase]
    simp [nextKey]
  | case2 row rest h => rfl

theorem getString_setRest_of_ne (t : Table) {k : Key} {s : String} (h : k ≠ .string s) (v : Value) :
    (t.setRest k v).getString s = t.getString s := by
  simp only [getString, get, setRest]
  split
  · simp [Std.HashMap.getElem?_erase, h]
  · simp [Std.HashMap.getElem?_insert, h]

/-- An integer key leaves the entries of strings alone. -/
theorem getString_setInt (t : Table) (n : Int64) (v : Value) (s : String) :
    (t.setInt n v).getString s = t.getString s := by
  unfold setInt
  dsimp only
  split
  · rfl
  · split
    · simp only [getString, get, getElem?_extend_string, Std.HashMap.getElem?_erase]
      simp
    · exact getString_setRest_of_ne t (by simp) v

/-- Other keys leave the entry of a string alone. -/
theorem getString_set_of_ne (t : Table) {k : Key} {s : String} (h : k ≠ .string s) (v : Value) :
    (t.set k v).getString s = t.getString s := by
  cases k with
  | integer n => exact getString_setInt t n v s
  | _ => exact getString_setRest_of_ne t h v

theorem metatable_setRest (t : Table) (k : Key) (v : Value) :
    (t.setRest k v).metatable = t.metatable := by
  unfold setRest
  split <;> rfl

/-- Writing an entry leaves the metatable alone. -/
theorem metatable_set (t : Table) (k : Key) (v : Value) : (t.set k v).metatable = t.metatable := by
  cases k with
  | integer n =>
    show (t.setInt n v).metatable = _
    unfold setInt
    dsimp only
    split
    · rfl
    · split
      · rfl
      · exact metatable_setRest t _ v
  | _ => exact metatable_setRest t _ v

end Table

/-! ### Stores -/

/-- A table has a metatable that shows a value in its place. -/
structure Store.Protects (st : Store) (t mt : TableId) (v : Value) : Prop where
  metatable : (st.table t).metatable = some mt
  shows : Routine.guard st mt = v
  notNil : v.isNil = false

namespace Store

variable {st st' : Store} {t mt : TableId} {v : Value}

theorem table_of_le (h : st.tables.size ≤ t.index) : st.table t = .empty := by
  simp [table, Array.getElem?_eq_none h]
  rfl

theorem table_congr (h : st'.tables = st.tables) (id : TableId) : st'.table id = st.table id := by
  simp [table, h]

/-- Whatever a change does to the entries, it leaves the metatable alone. -/
theorem metatable_modifyTable {f : Table → Table} (hf : ∀ t, (f t).metatable = t.metatable)
    (id t : TableId) : ((st.modifyTable id f).table t).metatable = (st.table t).metatable := by
  by_cases ht : t.index < st.tables.size
  · by_cases hid : id = t
    · rw [hid, table_modifyTable st f ht, hf]
    · rw [table_modifyTable_of_ne st f hid]
  · have hle : st.tables.size ≤ t.index := Nat.le_of_not_lt ht
    rw [table_of_le hle, table_of_le (by simpa [modifyTable] using hle)]

theorem getString_modifyTable {f : Table → Table} {s : String} {id : TableId}
    (hf : id = t → ∀ t, (f t).getString s = t.getString s) :
    ((st.modifyTable id f).table t).getString s = (st.table t).getString s := by
  by_cases ht : t.index < st.tables.size
  · by_cases hid : id = t
    · rw [hid, table_modifyTable st f ht, hf hid]
    · rw [table_modifyTable_of_ne st f hid]
  · have hle : st.tables.size ≤ t.index := Nat.le_of_not_lt ht
    rw [table_of_le hle, table_of_le (by simpa [modifyTable] using hle)]

namespace Protects

theorem isProtected (h : st.Protects t mt v) : Routine.isProtected st t = true := by
  simp [Routine.isProtected, h.metatable, h.shows, h.notNil]

theorem lt (h : st.Protects t mt v) : t.index < st.tables.size := by
  by_contra hle
  have hmetatable := h.metatable
  rw [table_of_le (Nat.le_of_not_lt hle)] at hmetatable
  cases hmetatable

theorem metatable_lt (h : st.Protects t mt v) : mt.index < st.tables.size := by
  by_contra hle
  have hshows := h.shows
  rw [Routine.guard, table_of_le (Nat.le_of_not_lt hle)] at hshows
  have hnil : Table.empty.getString "__metatable" = .nil := by
    simp [Table.getString, Table.get, Table.empty]
  rw [hnil] at hshows
  have hnotNil := h.notNil
  rw [← hshows] at hnotNil
  cases hnotNil

theorem of_tables (h : st.Protects t mt v) (heq : st'.tables = st.tables) :
    st'.Protects t mt v where
  metatable := by rw [table_congr heq]; exact h.metatable
  shows := by rw [Routine.guard, table_congr heq]; exact h.shows
  notNil := h.notNil

/-- A new table is another one. -/
theorem addTable (h : st.Protects t mt v) (new : Table) : (st.addTable new).2.Protects t mt v where
  metatable := by rw [table_addTable_of_lt st new h.lt]; exact h.metatable
  shows := by rw [Routine.guard, table_addTable_of_lt st new h.metatable_lt]; exact h.shows
  notNil := h.notNil

/-- An entry is written, but not the one that is shown. -/
theorem set (h : st.Protects t mt v) {id : TableId} {k : Key}
    (hk : id = mt → k ≠ .string "__metatable") (value : Value) :
    (st.modifyTable id (·.set k value)).Protects t mt v where
  metatable := by
    rw [metatable_modifyTable fun t => Table.metatable_set t k value]
    exact h.metatable
  shows := by
    rw [Routine.guard, getString_modifyTable fun hid t => Table.getString_set_of_ne t (hk hid) value]
    exact h.shows
  notNil := h.notNil

/-- Another table gets a metatable. -/
theorem setMetatable (h : st.Protects t mt v) {id : TableId}
    (hid : Routine.isProtected st id = false) (m : Option TableId) :
    (st.setMetatable id m).Protects t mt v where
  metatable := by
    have hne : id ≠ t := by
      rintro rfl
      cases hid.symm.trans h.isProtected
    rw [Store.setMetatable, table_modifyTable_of_ne st _ hne]
    exact h.metatable
  shows := by
    rw [Routine.guard, Store.setMetatable,
      getString_modifyTable (f := (·.withMetatable m)) fun _ _ => rfl]
    exact h.shows
  notNil := h.notNil

end Protects

end Store

/-! ### Instructions and routines -/

/-- A moment of a call at which an instruction writes an entry of a table. -/
structure Run.Writes (r : Run) (c : Control) (id : TableId) (q : Key) : Prop where
  advances : c = .advance
  instr : ∃ a rest slot key value k, r.live = .compiled a :: rest ∧
    a.closure.code.instrs[a.pc]? = some (.setIndex slot key value) ∧
    a.frame.window.get r.machine.store slot = .ok (.table id) ∧
    a.frame.read r.machine.store key = .ok k ∧ Table.keyFor k = .ok q

/-- What a standard routine does to the store. -/
inductive Routine.Touches (st : Store) : Store → Prop
  | nothing : Touches st st
  | makes (t : Table) : Touches st (st.addTable t).2
  | assigns {id : TableId} (h : Routine.isProtected st id = false) (m : Option TableId) :
      Touches st (st.setMetatable id m)

namespace Routine

variable {st st' : Store} {reply : Reply}

theorem Touches.protects {t mt : TableId} {v : Value} (h : Touches st st')
    (hp : st.Protects t mt v) : st'.Protects t mt v := by
  cases h with
  | nothing => exact hp
  | makes new => exact hp.addTable new
  | assigns hid m => exact hp.setMetatable hid m

/-- Whatever a routine comes to, at first or when it goes on, it only touches the store. -/
structure OnlyTouches (r : Routine) : Prop where
  invoke : ∀ {st st' args reply}, r.invoke st args = .ok (st', reply) → Touches st st'
  resume : ∀ {st st' received phase locals reply},
    r.resume st received phase locals = .ok (st', reply) → Touches st st'

/-- A native routine does to the store what its effect does. -/
theorem onlyTouches_native {name : String} {plan : Store → List Value → Except Error Effect}
    (hplan : ∀ st args effect, plan st args = .ok effect → Touches st (effect st).1) :
    (native name plan).OnlyTouches where
  invoke {st st' args reply} h := by
    simp only [native] at h
    split at h
    · next effect heffect => cases h; exact hplan st args effect heffect
    · cases h; exact .nothing
  resume h := by cases h

theorem onlyTouches_setmetatable : setmetatable.OnlyTouches :=
  onlyTouches_native fun st args effect h => by
    obtain ⟨id, -, h⟩ := bind_eq_ok_iff.mp h
    obtain ⟨m, -, h⟩ := bind_eq_ok_iff.mp h
    split at h
    · cases h
    · next hid =>
      cases h
      exact .assigns (by simpa using hid) m

theorem onlyTouches_pack : pack.OnlyTouches :=
  onlyTouches_native fun st args effect h => by
    cases h
    exact .makes _

theorem onlyTouches_pause : pause.OnlyTouches where
  invoke h := by cases h; exact .nothing
  resume h := by
    simp only [pause] at h
    split at h
    · cases h
    · split at h <;> cases h
      exact .nothing

theorem onlyTouches_unpack : unpack.OnlyTouches where
  invoke h := by
    simp only [unpack] at h
    split at h <;> cases h <;> exact .nothing
  resume h := by
    simp only [unpack] at h
    split at h
    · obtain ⟨reply', -, h⟩ := map_eq_ok_iff.mp h
      cases h
      exact .nothing
    · cases h

/-- **The standard routines only touch the store.** -/
theorem onlyTouches_standard {id : RoutineId} {r : Routine}
    (hr : Library.standard.find? id = some r) : r.OnlyTouches := by
  have hmem : r ∈ [select, type, rawlen, rawget, rawequal, setmetatable, getmetatable, pack, unpack,
      pause] := by
    rw [Library.find?, routines_standard] at hr
    simpa using Array.mem_of_getElem? hr
  simp only [List.mem_cons, List.not_mem_nil, or_false] at hmem
  rcases hmem with rfl | rfl | rfl | rfl | rfl | rfl | rfl | rfl | rfl | rfl
  case inr.inr.inr.inr.inr.inl => exact onlyTouches_setmetatable
  case inr.inr.inr.inr.inr.inr.inr.inl => exact onlyTouches_pack
  case inr.inr.inr.inr.inr.inr.inr.inr.inl => exact onlyTouches_unpack
  case inr.inr.inr.inr.inr.inr.inr.inr.inr => exact onlyTouches_pause
  -- the others answer what they have read
  all_goals
    refine onlyTouches_native fun st args effect h => ?_
    try simp only [bind, Except.bind] at h
    repeat' split at h
    all_goals first | (cases h; exact .nothing) | cases h

end Routine

namespace Run

variable {r : Run} {c : Control} {w : Work} {st : Store} {d : Deed} {t mt : TableId} {v : Value}

/-- **Work keeps protected tables protected**, unless it writes the entry that is shown. -/
theorem Does.protects (h : r.Does c w st d) (hlibrary : r.machine.library = .standard)
    (hw : r.work? c = some w) (hspares : ¬r.Writes c mt (.string "__metatable"))
    (hp : r.machine.store.Protects t mt v) : st.Protects t mt v := by
  cases h with
  | starts | turns | revives | missing => exact hp
  | invokes hcallee hid hw hroutine h =>
    rw [hlibrary] at hroutine
    exact ((Routine.onlyTouches_standard hroutine).invoke h).protects hp
  | resumes hw hroutine h =>
    rw [hlibrary] at hroutine
    exact ((Routine.onlyTouches_standard hroutine).resume h).protects hp
  | @carriesOut w a st p hworker h =>
    obtain ⟨i, hi, hchanges, -⟩ := Activation.follows_advance h
    cases hchanges with
    | cells h => exact hp.of_tables h.tables
    | makesTable h => exact (hp.addTable .empty).of_tables h.tables
    | makesClosure hcode h => exact hp.of_tables h.tables
    | @writes slot key value id k v q htable hkey hq =>
      refine hp.set ?_ _
      rintro rfl rfl
      rcases live_of_nextWork hw with ⟨task, htask, hlive⟩ | ⟨f, hf, -, -⟩
      · cases hworker.symm.trans htask
        exact hspares ⟨rfl, a, w.live, slot, key, value, k, hlive, hi, htable, hkey, hq⟩
      · cases hworker.symm.trans hf

end Run

/-! ### Steps -/

/-- The machine behind a step, if the step did not break. -/
def Step.machine? : Step → Option Machine
  | .next r _ => some r.machine
  | .done o => o.machine?

namespace Run

variable {r r' : Run} {c c' : Control} {m : Machine} {t mt : TableId} {v : Value}

/-- What no step changes. -/
theorem keeps_step (h : (r.step c).machine? = some m) : r.machine.Keeps m := by
  cases hs : r.step c with
  | next r' c' =>
    rw [hs] at h
    cases h
    exact (keeps_next hs).1
  | done o =>
    rw [hs] at h
    exact keeps_done hs h

/-- **The store behind a step** is what a worker has made of it, and otherwise the same. -/
theorem store_step (h : (r.step c).machine? = some m) :
    m.store = r.machine.store ∨ ∃ w d, r.work? c = some w ∧ r.Does c w m.store d := by
  cases hw : r.work? c with
  | none =>
    have hidles := idles_step hw
    generalize r.step c = s at hidles h
    cases hidles <;> cases h <;> exact Or.inl rfl
  | some w =>
    have hworks := works_step hw
    generalize r.step c = s at hworks h
    cases hworks with
    | breaks => cases h
    | @does st n d hd =>
      refine Or.inr ⟨w, d, rfl, ?_⟩
      cases d <;> cases h <;> exact hd

/-- **A step keeps protected tables protected**, unless it writes the entry that is shown. -/
theorem protects_step (h : (r.step c).machine? = some m)
    (hlibrary : r.machine.library = .standard)
    (hspares : ¬r.Writes c mt (.string "__metatable")) (hp : r.machine.store.Protects t mt v) :
    m.store.Protects t mt v := by
  rcases store_step h with hsame | ⟨w, d, hw, hd⟩
  · rwa [hsame]
  · exact hd.protects hlibrary hw hspares hp

/-! ### Calls of routines -/

/-- The routine that a step invokes, with its arguments. -/
def invoked? (r : Run) : Control → Option (RoutineId × List Value)
  | .invoke target args =>
    match r.machine.store.callee target, r.machine.depth.enter? r.machine.limits.maxCallDepth with
    | .ok callee, some _ =>
      match callee.function with
      | .routine id => some (id, callee.arguments target args)
      | .closure _ => none
    | _, _ => none
  | _ => none

/-- A routine that is invoked runs on a level of its own, above the stack as it is. -/
theorem step_of_invoked {id : RoutineId} {args : List Value} {routine : Routine}
    (h : r.invoked? c = some (id, args)) (hroutine : r.machine.library.find? id = some routine) :
    ∃ w n, r.machine.depth.enter? r.machine.limits.maxCallDepth = some w.depth ∧
      w.live = r.live ∧ w.pending = r.pending ∧
      r.step c = (r.during w r.machine.store n).replied id
        (routine.invoke r.machine.store args) := by
  cases c with
  | invoke target given =>
    simp only [invoked?] at h
    split at h
    · next callee depth hcallee hdepth =>
      split at h
      · next id' hid =>
        cases h
        obtain ⟨n, hcount⟩ := exists_countInvocation r.machine callee
        refine ⟨⟨.function callee.function, depth, r.live, r.pending⟩, n, hdepth, rfl, rfl, ?_⟩
        simp only [step, invoke, hcallee, hcount, enter, hdepth, hid, withRoutine, hroutine]
        rfl
      · cases h
    · cases h
  | _ => cases h

/-- **`setmetatable` is refused** for a protected table, and nothing is changed. -/
theorem step_setmetatable {id : RoutineId} {args : List Value} {new : Option TableId}
    (h : r.invoked? c = some (id, args)) (hid : r.machine.library.find? id = some .setmetatable)
    (htable : args[0]? = some (.table t))
    (hnew : Routine.metatableArgument (Routine.argument args 2) = .ok new)
    (hp : r.machine.store.Protects t mt v) :
    ∃ m, r.step c = .done (.failed m (.failed .protectedMetatable)) ∧
      m.store = r.machine.store := by
  obtain ⟨w, n, -, -, -, hstep⟩ := step_of_invoked h hid
  have hinvoke : Routine.setmetatable.invoke r.machine.store args =
      .ok (r.machine.store, .fails (.failed .protectedMetatable)) := by
    have htableArgument : Routine.tableArgument args 1 "setmetatable" = .ok t := by
      simp [Routine.tableArgument, htable]
    simp [Routine.setmetatable, Routine.native, htableArgument, hnew, hp.isProtected, bind,
      Except.bind]
  rw [hinvoke] at hstep
  exact ⟨_, hstep, rfl⟩

/-- **`getmetatable` shows the entry** in place of the metatable. -/
theorem step_getmetatable {id : RoutineId} {args : List Value}
    (h : r.invoked? c = some (id, args)) (hid : r.machine.library.find? id = some .getmetatable)
    (htable : args[0]? = some (.table t)) (hp : r.machine.store.Protects t mt v) :
    ∃ r', r.step c = .next r' .settled ∧ r'.machine.channel = ⟨[v], none⟩ ∧
      r'.machine.store = r.machine.store := by
  obtain ⟨w, n, -, -, -, hstep⟩ := step_of_invoked h hid
  have hinvoke : Routine.getmetatable.invoke r.machine.store args =
      .ok (r.machine.store, .answers [v]) := by
    have hargument : Routine.argument args 1 = .table t := by
      simp [Routine.argument, valueAt, htable]
    simp [Routine.getmetatable, Routine.native, hargument, Store.metatableOf, hp.metatable,
      hp.shows, hp.notNil, Effect.answer]
  rw [hinvoke] at hstep
  exact ⟨_, hstep, rfl, rfl⟩

end Run

/-! ### Any number of steps -/

/-- A machine between host calls or in one of them, with the signals that have come out of it. -/
inductive Stage where
  | idle (m : Machine) (signals : List Signal)
  | calling (r : Run) (c : Control) (signals : List Signal)

namespace Stage

/-- The machine. -/
def machine : Stage → Machine
  | idle m _ => m
  | calling r _ _ => r.machine

/-- **What may happen next**: an accepted procedure becomes a closure, an operation begins or a
suspended one goes on, and it takes one step after the other until it ends or suspends. -/
inductive Moves : Stage → Stage → Prop
  | instantiates {m m' : Machine} {signals : List Signal} {p : Procedure} {code : Code}
      {id : ClosureId} (hp : p.compile = .ok code) (hm : m.instantiate code = .ok (id, m')) :
      Moves (.idle m signals) (.idle m' signals)
  | begins {m : Machine} {signals : List Signal} {channel : Channel} {flatten : Bool} {c : Control} :
      Moves (.idle m signals) (.calling ⟨{ m with channel := channel }, [], [], flatten⟩ c signals)
  | resumes {m : Machine} {signals : List Signal} {s : Signal} {values : List Value}
      (hs : s ∈ signals) (hroom : m.hasRoom s = true) :
      Moves (.idle m signals) (.calling (m.resumed s values) .settled signals)
  /-- A suspended stack does not fit. -/
  | refuses {m m' : Machine} {signals : List Signal} {s : Signal} {values : List Value} {fuel : Nat}
      {e : Error} (hs : s ∈ signals) (hroom : m.hasRoom s = false)
      (h : m.resume fuel s values = some (.failed m' e)) :
      Moves (.idle m signals) (.idle m' signals)
  | steps {r r' : Run} {c c' : Control} {signals : List Signal} (h : r.step c = .next r' c') :
      Moves (.calling r c signals) (.calling r' c' signals)
  | ends {r : Run} {c : Control} {signals new : List Signal} {o : Outcome} {m : Machine}
      (h : r.step c = .done o) (hl : o.answer.Leaves m new) :
      Moves (.calling r c signals) (.idle m (new ++ signals))

/-- No instruction is about to write the entry that a metatable shows. -/
def Spares (mt : TableId) : Stage → Prop
  | idle _ _ => True
  | calling r c _ => ¬r.Writes c mt (.string "__metatable")

variable {s s' : Stage} {t mt : TableId} {v : Value}

/-- **A move keeps protected tables protected**, unless it writes the entry that is shown. -/
theorem Moves.protects (h : s.Moves s') (hspares : s.Spares mt)
    (hlibrary : s.machine.library = .standard) (hp : s.machine.store.Protects t mt v) :
    s'.machine.library = .standard ∧ s'.machine.store.Protects t mt v := by
  cases h with
  | instantiates hcompile hm =>
    obtain ⟨hkeeps, -, upvalues, hsame⟩ := Machine.instantiate_eq hm
    exact ⟨hkeeps.library.trans hlibrary, hp.of_tables hsame.tables⟩
  | begins | resumes hs hroom => exact ⟨hlibrary, hp⟩
  | refuses hs hroom h =>
    rw [Machine.resume_of_not_hasRoom hroom] at h
    cases h
    exact ⟨hlibrary, hp⟩
  | @steps r r' c c' signals h =>
    have hm : (r.step c).machine? = some r'.machine := by rw [h]; rfl
    exact ⟨(Run.keeps_step hm).library.trans hlibrary, Run.protects_step hm hlibrary hspares hp⟩
  | @ends r c signals new o m h hl =>
    obtain ⟨m', channel, hm', rfl, -⟩ := Machine.machine_of_leaves hl
    have hm : (r.step c).machine? = some m' := by rw [h]; exact hm'
    have hp' : m'.store.Protects t mt v := Run.protects_step hm hlibrary hspares hp
    exact ⟨(Run.keeps_step hm).library.trans hlibrary, hp'⟩

/-- Any number of moves, none of which writes the entry that a metatable shows. -/
def Leads (mt : TableId) : Stage → Stage → Prop :=
  Relation.ReflTransGen fun s s' => s.Moves s' ∧ s.Spares mt

theorem Leads.protects (h : Leads mt s s') (hlibrary : s.machine.library = .standard)
    (hp : s.machine.store.Protects t mt v) :
    s'.machine.library = .standard ∧ s'.machine.store.Protects t mt v := by
  induction h with
  | refl => exact ⟨hlibrary, hp⟩
  | tail _ h ih => exact h.1.protects h.2 ih.1 ih.2

end Stage

/-- **A protected metatable stays in place.** After any number of steps, in any number of calls with
suspensions and resumptions, none of which writes the entry that is shown, the table has the same
metatable. Until then `setmetatable` is refused for it and changes nothing, and `getmetatable` gives
the entry. -/
theorem protection_persists {s s' : Stage} {t mt : TableId} {v : Value}
    (hlibrary : s.machine.library = .standard) (hp : s.machine.store.Protects t mt v)
    (hleads : Stage.Leads mt s s') :
    (s'.machine.store.table t).metatable = some mt ∧
      ∀ (r : Run) (c : Control) (signals : List Signal) (id : RoutineId) (args : List Value),
        s' = .calling r c signals → r.invoked? c = some (id, args) → args[0]? = some (.table t) →
        (Library.standard.find? id = some .setmetatable →
          (∃ new, Routine.metatableArgument (Routine.argument args 2) = .ok new) →
          ∃ m e, r.step c = .done (.failed m e) ∧
            e.message = "cannot change a protected metatable" ∧ m.store = r.machine.store) ∧
        (Library.standard.find? id = some .getmetatable →
          ∃ r', r.step c = .next r' .settled ∧ r'.machine.channel = ⟨[v], none⟩ ∧
            r'.machine.store = r.machine.store) := by
  obtain ⟨hlibrary', hp'⟩ := hleads.protects hlibrary hp
  refine ⟨hp'.metatable, ?_⟩
  rintro r c signals id args rfl hinvoked htable
  have hlibrary' : r.machine.library = .standard := hlibrary'
  refine ⟨fun hid hnew => ?_, fun hid => ?_⟩
  · obtain ⟨new, hnew⟩ := hnew
    obtain ⟨m, hstep, hstore⟩ :=
      Run.step_setmetatable hinvoked (hlibrary' ▸ hid) htable hnew hp'
    exact ⟨m, _, hstep, rfl, hstore⟩
  · exact Run.step_getmetatable hinvoked (hlibrary' ▸ hid) htable hp'

/-- A machine with a table whose metatable shows a string. -/
def Machine.locked : Machine :=
  let m := Machine.standard .standard
  let withTable := (m.store.addTable (Table.empty.withMetatable (some ⟨2⟩))).2
  { m with
    store := (withTable.addTable (Table.empty.setString "__metatable" (.string "locked"))).2 }

theorem Machine.protects_locked :
    Machine.locked.store.Protects ⟨1⟩ ⟨2⟩ (.string "locked") where
  metatable := rfl
  shows := by
    show (Table.empty.setString "__metatable" (.string "locked")).getString "__metatable" = _
    simp [Table.setString, Table.set, Table.setRest, Table.getString, Table.get, Value.isNil]
  notNil := rfl

/-- A call that would take the metatable away fails, and the metatable is still there. -/
theorem protection_persists_locked :
    ∃ m e, Run.step ⟨.locked, [], [], true⟩
        (.invoke (.function (.routine ⟨5⟩)) [.table ⟨1⟩, .nil]) = .done (.failed m e) ∧
      e.message = "cannot change a protected metatable" ∧
      Stage.Leads ⟨2⟩ (.idle .locked []) (.idle m []) ∧
      (m.store.table ⟨1⟩).metatable = some ⟨2⟩ := by
  have hbegins : Stage.Leads ⟨2⟩ (.idle .locked []) (.calling ⟨.locked, [], [], true⟩
      (.invoke (.function (.routine ⟨5⟩)) [.table ⟨1⟩, .nil]) []) :=
    .single ⟨.begins, trivial⟩
  have hprotects : (Stage.idle .locked []).machine.store.Protects ⟨1⟩ ⟨2⟩ (.string "locked") :=
    Machine.protects_locked
  obtain ⟨-, hroutines⟩ := protection_persists rfl hprotects hbegins
  obtain ⟨m, e, hstep, hmessage, -⟩ :=
    (hroutines _ _ _ ⟨5⟩ [.table ⟨1⟩, .nil] rfl rfl rfl).1 rfl ⟨none, rfl⟩
  have hends : Stage.Leads ⟨2⟩ (.idle .locked []) (.idle m []) :=
    hbegins.tail ⟨.ends hstep .failed, fun h => by cases h.advances⟩
  exact ⟨m, e, hstep, hmessage, hends, (protection_persists rfl hprotects hends).1⟩

end ResumableVM
