import ResumableVM.Proofs.Scripts
import ResumableVM.Proofs.Tables
import ResumableVM.Proofs.Unheard

/-! # PlainLoop: `unpack` is a plain loop

`unpack` goes through phases so that it can be suspended in each of them, and reads a table directly
where no handler could interfere. `plainLoop` is what it comes to: take the length if no end is
given, check the bounds, and look up one key after the other. `unpack` ends as the loop does,
whatever it is interrupted by, and makes the requests of the loop but for what it reads directly
(`isPlainLoop_unpack`). Each phase goes on as the loop does from there (`follows_elements`,
`follows_begin`, `follows_takeLength`, `follows_start`). -/

namespace ResumableVM.Routine.Unpack

/-! ### The loop -/

/-- So many keys from a start on. -/
def keysFrom (start : Int) (count : Nat) : List Int64 :=
  (List.range count).map fun (i : Nat) => Int64.ofInt (start + i)

/-- The keys between two bounds. -/
def keys (first last : Int64) : List Int64 :=
  keysFrom first.toInt (last.toInt - first.toInt + 1).toNat

/-- Look the keys up one by one; only the first result of each counts. -/
def collect (object : Value) : List Int64 → List Value → Script
  | [], done => .returns done
  | k :: ks, done =>
    .asks (.index object (.integer k)) fun vs => collect object ks (done ++ [valueAt vs 0])

/-- The values between two bounds. -/
def collectBetween (object : Value) (first last : Int64) : Script :=
  if last < first then .returns []
  else if maxResults < last.toInt - first.toInt + 1 then .fails (.failed .tooManyResults)
  else collect object (keys first last) []

/-- **The loop.** -/
def plainLoop (args : List Value) : Script :=
  let object := argument args 1
  match optionalInteger args 2 "unpack" 1 with
  | .error e => .fails e
  | .ok first =>
    if (argument args 3).isNil then
      .asks (.length object) fun vs =>
        match (valueAt vs 0).toInt64? with
        | some last => collectBetween object first last
        | none => .fails (.failed .lengthNotInteger)
    else
      match integerArgument args 3 "unpack" with
      | .error e => .fails e
      | .ok last => collectBetween object first last

/-! ### Keys -/

theorem keysFrom_succ (start : Int) (count : Nat) :
    keysFrom start (count + 1) = Int64.ofInt start :: keysFrom (start + 1) count := by
  unfold keysFrom
  rw [List.range_succ_eq_map, List.map_cons, List.map_map]
  refine congrArg₂ List.cons (by simp) (List.map_congr_left fun i _ => ?_)
  simp only [Function.comp_apply, Nat.succ_eq_add_one]
  congr 1
  push_cast
  ring

theorem ofInt_toInt_add_one (k : Int64) : Int64.ofInt (k.toInt + 1) = k + 1 := by
  rw [Int64.ofInt_add, Int64.ofInt_toInt]
  rfl

/-- Below a bound there is a next key. -/
theorem toInt_add_one {k l : Int64} (h : k.toInt < l.toInt) : (k + 1).toInt = k.toInt + 1 := by
  have hlower := k.le_toInt
  have hupper := l.toInt_lt
  rw [← ofInt_toInt_add_one, Int64.toInt_ofInt_of_le (by omega) (by omega)]

theorem keys_succ {first last : Int64} (h : first.toInt ≤ last.toInt) :
    keys first last =
      first :: keysFrom (first.toInt + 1) (last.toInt - first.toInt).toNat := by
  have hcount : (last.toInt - first.toInt + 1).toNat = (last.toInt - first.toInt).toNat + 1 := by
    omega
  rw [keys, hcount, keysFrom_succ, Int64.ofInt_toInt]

/-- **The keys are the integers between the bounds**, each once and in order. -/
theorem toInt_keys (first last : Int64) : (keys first last).map Int64.toInt =
    (List.range (last.toInt - first.toInt + 1).toNat).map fun (i : Nat) => first.toInt + i := by
  have hlower := first.le_toInt
  have hupper := last.toInt_lt
  rw [keys, keysFrom, List.map_map]
  refine List.map_congr_left fun i hi => ?_
  have hi := List.mem_range.mp hi
  exact Int64.toInt_ofInt_of_le (by omega) (by omega)

/-- **The loop looks each key up at most once**, in order, and each of them if it returns. -/
theorem lookups_collect {m : Machine} {object : Value} {e : Ending} :
    ∀ {ks : List Int64} {done heard : List Value} {st : Store} {asked : List Request}
      {ps : List Pause}, (collect object ks done).Ends m st heard asked ps e →
        asked <+: ks.map (fun k => .index object (.integer k)) ∧
          ∀ st' vs, e = .returns st' vs →
            asked = ks.map (fun k => .index object (.integer k)) ∧
              vs.length = done.length + ks.length := by
  intro ks
  induction ks with
  | nil =>
    rintro done heard st asked ps ⟨rfl, rfl, rfl⟩
    refine ⟨List.nil_prefix, ?_⟩
    rintro st' vs h
    cases h
    exact ⟨rfl, rfl⟩
  | cons k ks ih =>
    rintro done heard st asked ps ⟨later, ps₁, ps₂, e₁, rfl, rfl, -, hthen⟩
    rw [List.map_cons]
    cases hthen with
    | returns hrest =>
      obtain ⟨hinit, hreturns⟩ := ih hrest
      refine ⟨(List.cons_prefix_cons).mpr ⟨rfl, hinit⟩, fun st' vs h => ?_⟩
      obtain ⟨rfl, hlength⟩ := hreturns st' vs h
      refine ⟨rfl, ?_⟩
      rw [hlength, List.length_append, List.length_singleton, List.length_cons]
      omega
    | fails => exact ⟨(List.cons_prefix_cons).mpr ⟨rfl, List.nil_prefix⟩, by simp⟩
    | breaks => exact ⟨(List.cons_prefix_cons).mpr ⟨rfl, List.nil_prefix⟩, by simp⟩

/-! ### Phases -/

section Phases

/-- On this machine a call of `unpack` is under way. -/
structure UnderWay (m : Machine) (id : RoutineId) : Prop where
  find : m.library.find? id = some .unpack
  chain : 1 ≤ m.limits.maxIndexChain
  pos : 1 ≤ m.depth.current
  room : m.depth.current ≤ m.limits.maxCallDepth

variable {m : Machine} {id : RoutineId} {st : Store}

theorem resumeRoutine_eq (hcall : UnderWay m id) {received : List Value}
    {phase : Nat} {u : Unpacking} {reply : Reply} (h : goOn st received phase u = .ok reply) :
    Run.resumeRoutine ⟨m.holding st received, [], [], true⟩ id phase (.unpacking u) =
      Run.reply ⟨m.holding st received, [], [], true⟩ id reply := by
  have hfind : (m.holding st received).library.find? id = some .unpack := hcall.find
  have hresume : unpack.resume (m.holding st received).store (m.holding st received).channel.values
      phase (.unpacking u) = .ok (st, reply) := by
    show (goOn st received phase u).map (st, ·) = _
    rw [h]
    rfl
  simp only [Run.resumeRoutine, Run.withRoutine, hfind, hresume]
  rfl

/-- **An element has arrived**: so many are still to come. -/
theorem follows_elements (hcall : UnderWay m id) {count : Nat} :
    ∀ {u : Unpacking}, u.current.toInt + count = u.last.toInt → ∀ st received,
      (Run.resumeRoutine ⟨m.holding st received, [], [], true⟩ id 3 (.unpacking u)).Follows m
        (· = ·) (collect u.object (keysFrom (u.current.toInt + 1) count)
          (u.done.toList ++ [valueAt received 0])) st received := by
  induction count with
  | zero =>
    intro u hcount st received
    have hlast : ¬ u.current.toInt < u.last.toInt := by omega
    have hreply : goOn st received 3 u =
        .ok (.answers (u.done.toList ++ [valueAt received 0])) := by
      simp [goOn, takeElement, hlast]
    rw [resumeRoutine_eq hcall hreply]
    exact follows_answers rfl _
  | succ count ih =>
    intro u hcount st received
    have hnext : u.current.toInt < u.last.toInt := by omega
    have hreply : goOn st received 3 u = .ok (.asks (.index u.object (.integer (u.current + 1))) 3
        (.unpacking
          { u with current := u.current + 1, done := u.done.push (valueAt received 0) })) := by
      simp [goOn, takeElement, hnext]
    rw [resumeRoutine_eq hcall hreply, keysFrom_succ, ofInt_toInt_add_one]
    refine follows_asks (· = ·) hcall.pos hcall.room rfl (congrArg _) Iff.rfl fun st vs => ?_
    have hstep := toInt_add_one hnext
    have hcount' : (u.current + 1).toInt + count = u.last.toInt := by omega
    have hrest := @ih
      { u with current := u.current + 1, done := u.done.push (valueAt received 0) } hcount' st vs
    rw [hstep, Array.toList_push] at hrest
    exact hrest

theorem eq_of_plainTable? {id : TableId} {object : Value} {event : Event}
    (h : plainTable? st object event = some id) :
    object = .table id ∧ st.handler (.table id) event = .nil := by
  cases object with
  | table id' =>
    simp only [plainTable?] at h
    split at h
    · next hhandler =>
      cases h
      exact ⟨rfl, Value.isNil_iff.mp hhandler⟩
    · cases h
  | _ => cases h

/-- A table without a handler for indexing has its entries. -/
theorem resolve_index_of_plain {id : TableId} {object : Value} {limit : Nat} (hlimit : 1 ≤ limit)
    (h : plainTable? st object .index = some id) (k : Int64) :
    st.resolve limit (.index object (.integer k)) = .value ((st.table id).getInt k) := by
  obtain ⟨rfl, hhandler⟩ := eq_of_plainTable? h
  obtain ⟨limit, rfl⟩ : ∃ n, limit = n + 1 := ⟨limit - 1, by omega⟩
  have hentry : st.rawEntry (.table id) (.integer k) = (st.table id).getInt k := rfl
  simp only [Store.resolve, Store.resolveIndex, hentry, hhandler]
  split
  · rfl
  · next hraw =>
    have hraw : (st.table id).getInt k = .nil := Value.isNil_iff.mp (by simpa using hraw)
    rw [hraw]

theorem resolve_length_of_plain {id : TableId} {object : Value} (limit : Nat)
    (h : plainTable? st object .length = some id) :
    st.resolve limit (.length object) = .value (.integer (Int64.ofNat (st.table id).length)) := by
  obtain ⟨rfl, hhandler⟩ := eq_of_plainTable? h
  simp only [Store.resolve, Store.resolveLength, hhandler]
  rfl

/-- The loop over a table without a handler. -/
theorem collect_ends_plain {id : TableId} {object : Value} (hchain : 1 ≤ m.limits.maxIndexChain)
    (h : plainTable? st object .index = some id) {ps : List Pause} {e : Ending} :
    ∀ {ks : List Int64} {done heard : List Value} {asked : List Request},
      (collect object ks done).Ends m st heard asked ps e ↔
        asked = ks.map (fun k => .index object (.integer k)) ∧ ps = [] ∧
          e = .returns st (done ++ ks.map (st.table id).getInt) := by
  intro ks
  induction ks with
  | nil =>
    intro done heard asked
    rw [List.map_nil, List.map_nil, List.append_nil]
    exact Iff.rfl
  | cons k ks ih =>
    intro done heard asked
    rw [collect, Script.ends_asks_value (resolve_index_of_plain hchain h k)]
    have hdone : done ++ (k :: ks).map (st.table id).getInt =
        done ++ [(st.table id).getInt k] ++ ks.map (st.table id).getInt := by
      rw [List.append_assoc]
      rfl
    rw [hdone]
    constructor
    · rintro ⟨later, rfl, hrest⟩
      obtain ⟨rfl, rfl, rfl⟩ := ih.mp hrest
      exact ⟨rfl, rfl, rfl⟩
    · rintro ⟨rfl, rfl, rfl⟩
      exact ⟨_, rfl, ih.mpr ⟨rfl, rfl, rfl⟩⟩

/-- The elements of a table without a handler are read, not asked for. -/
def Reads (st : Store) (object : Value) (asked log : List Request) : Prop :=
  log = if (plainTable? st object .index).isSome then [] else asked

theorem reads_nil {object : Value} : Reads st object [] [] := by
  unfold Reads
  split <;> rfl

/-- **The bounds are known.** -/
theorem follows_begin (hcall : UnderWay m id) {received heard : List Value} {u : Unpacking}
    (hheard : ∀ {q ps e}, (m.holding st received).Ends (.request q) ps e ↔
      (m.holding st heard).Ends (.request q) ps e) :
    (Run.reply ⟨m.holding st received, [], [], true⟩ id (begin st u)).Follows m
      (Reads st u.object) (collectBetween u.object u.first u.last) st heard := by
  unfold collectBetween begin
  simp only [Int64.lt_iff_toInt_lt]
  by_cases hempty : u.last.toInt < u.first.toInt
  · rw [if_pos hempty, if_pos (by omega)]
    exact follows_answers reads_nil []
  · rw [if_neg hempty, if_neg (by omega)]
    by_cases hmany : (maxResults : Int) < u.last.toInt - u.first.toInt + 1
    · rw [if_pos hmany, if_pos hmany]
      exact follows_fails reads_nil _
    · rw [if_neg hmany, if_neg hmany]
      cases hplain : plainTable? st u.object .index with
      | some table =>
        have helements : elements (st.table table) u.first
            (u.last.toInt - u.first.toInt + 1).toNat =
            [] ++ (keys u.first u.last).map (st.table table).getInt := by
          rw [List.nil_append, keys, keysFrom, List.map_map]
          rfl
        have hreads (asked : List Request) : Reads st u.object asked [] := by
          rw [Reads, hplain]
          rfl
        refine ⟨fun h => ?_, fun h => ?_⟩
        · obtain ⟨rfl, rfl, rfl⟩ := ends_answers_iff.mp h
          rw [helements]
          exact ⟨_, (collect_ends_plain hcall.chain hplain).mpr ⟨rfl, rfl, rfl⟩, hreads _⟩
        · obtain ⟨rfl, rfl, rfl⟩ := (collect_ends_plain hcall.chain hplain).mp h
          rw [← helements]
          exact ⟨[], ends_answers_iff.mpr ⟨rfl, rfl, rfl⟩, hreads _⟩
      | none =>
        have hmakes {q : Request} {asked log : List Request} (h : asked = log) :
            Reads st u.object (q :: asked) (q :: log) := by
          rw [Reads, hplain, h]
          rfl
        rw [keys_succ (by omega)]
        refine follows_asks (· = ·) hcall.pos hcall.room rfl hmakes hheard fun st vs => ?_
        have hcount : u.first.toInt + (u.last.toInt - u.first.toInt).toNat = u.last.toInt := by
          omega
        exact follows_elements (u := { u with current := u.first, done := #[] }) hcall hcount st vs

/-- What `unpack` starts with. -/
def firstReply (st : Store) (args : List Value) : Reply :=
  match start st args with
  | .ok reply => reply
  | .error e => .fails e

theorem invoke_eq (st : Store) (args : List Value) :
    unpack.invoke st args = .ok (st, firstReply st args) := by
  simp only [unpack, firstReply]
  cases start st args <;> rfl

/-- Which requests of the loop are made in a call that starts with these objects. -/
inductive Routes (st : Store) (args : List Value) : List Request → List Request → Prop
  /-- There is no such call. -/
  | refused : Routes st args [] []
  | bounded {asked log : List Request} (hend : (argument args 3).isNil = false)
      (h : Reads st (argument args 1) asked log) : Routes st args asked log
  /-- The length of a table without a handler for it is read, not asked for. -/
  | measured {asked log : List Request} (hend : (argument args 3).isNil = true)
      (hplain : (plainTable? st (argument args 1) .length).isSome)
      (h : Reads st (argument args 1) asked log) :
      Routes st args (.length (argument args 1) :: asked) log
  | asks {asked log : List Request} {st' : Store} (hend : (argument args 3).isNil = true)
      (hplain : plainTable? st (argument args 1) .length = none)
      (h : Reads st' (argument args 1) asked log) :
      Routes st args (.length (argument args 1) :: asked) (.length (argument args 1) :: log)

/-- **The length has arrived.** -/
theorem follows_takeLength (hcall : UnderWay m id) (u : Unpacking) (st : Store)
    (received : List Value) :
    (Run.resumeRoutine ⟨m.holding st received, [], [], true⟩ id 1 (.unpacking u)).Follows m
      (fun asked log => ∃ st', Reads st' u.object asked log)
      (match (valueAt received 0).toInt64? with
        | some last => collectBetween u.object u.first last
        | none => .fails (.failed .lengthNotInteger)) st received := by
  have hreply : goOn st received 1 u = .ok (takeLength st received u) := rfl
  rw [resumeRoutine_eq hcall hreply, takeLength]
  cases (valueAt received 0).toInt64? with
  | some last =>
    exact (follows_begin (u := { u with last := last }) hcall Iff.rfl).mono fun h => ⟨st, h⟩
  | none => exact follows_fails ⟨st, reads_nil⟩ _

/-- **The call starts.** Where the loop asks for a length that `unpack` reads, the channel holds it
when the first element is asked for, and something else in `unpack`; nobody listens. -/
theorem follows_start (hcall : UnderWay m id) (hstore : st.Compiled)
    (hlibrary : m.library.KeepsCompiled) (args heard : List Value) :
    (Run.reply ⟨m.holding st heard, [], [], true⟩ id (firstReply st args)).Follows m
      (Routes st args) (plainLoop args) st heard := by
  unfold firstReply start plainLoop
  cases hfirst : optionalInteger args 2 "unpack" 1 with
  | error e => exact follows_fails .refused e
  | ok first =>
    cases hend : (argument args 3).isNil with
    | false =>
      simp only [bind, Except.bind, Bool.not_false, if_true, if_false, Bool.false_eq_true]
      cases hlast : integerArgument args 3 "unpack" with
      | error e => exact follows_fails .refused e
      | ok last =>
        exact (follows_begin (u := ⟨argument args 1, first, last, 0, #[]⟩) hcall Iff.rfl).mono
          fun h => .bounded hend h
    | true =>
      simp only [bind, Except.bind, Bool.not_true, if_true, if_false, Bool.false_eq_true]
      cases hplain : plainTable? st (argument args 1) .length with
      | some table =>
        have hunheard {ch ch' : List Value} {q : Request} {ps : List Pause} {e : Ending}
            (h : (m.holding st ch).Ends (.request q) ps e) :
            (m.holding st ch').Ends (.request q) ps e :=
          Machine.ends_unheard (m := m.holding st ch) hstore hlibrary h ⟨ch', none⟩
        refine follows_spares (resolve_length_of_plain _ hplain)
          (fun h => .measured hend (hplain ▸ rfl) h) ?_
        exact follows_begin (u := ⟨argument args 1, first, _, 0, #[]⟩) hcall ⟨hunheard, hunheard⟩
      | none =>
        refine follows_asks _ hcall.pos hcall.room ⟨st, reads_nil⟩ ?_ Iff.rfl
          (follows_takeLength hcall ⟨argument args 1, first, 0, 0, #[]⟩)
        rintro asked log ⟨st', h⟩
        exact .asks hend hplain h

/-- The machine within a call of a routine. -/
def calling (m : Machine) (id : RoutineId) : Machine :=
  (m.countInvocation (.direct (.routine id))).deeper

/-- The script as a call: there has to be room for it. -/
def called (m : Machine) (script : Script) : Script :=
  if m.depth.current < m.limits.maxCallDepth then script
  else .fails (.stackOverflow m.limits.maxCallDepth)

/-- **A call of `unpack` follows the loop.** -/
theorem follows_call (hid : m.library.find? id = some .unpack) (hchain : 1 ≤ m.limits.maxIndexChain)
    (hstore : m.store.Compiled) (hlibrary : m.library.KeepsCompiled) (args heard : List Value) :
    (Step.next ⟨m.holding m.store heard, [], [], true⟩
      (.invoke (.function (.routine id)) args)).Follows (calling m id) (Routes m.store args)
        (called m (plainLoop args)) m.store heard := by
  refine .next rfl ?_
  have hfind : (m.holding m.store heard).library.find? id = some .unpack := hid
  by_cases hroom : m.depth.current < m.limits.maxCallDepth
  · have henter : m.depth.enter? m.limits.maxCallDepth = some m.deeper.depth := if_pos hroom
    have hstep : Run.step ⟨m.holding m.store heard, [], [], true⟩
        (.invoke (.function (.routine id)) args) =
        Run.reply ⟨(calling m id).holding m.store heard, [], [], true⟩ id
          (firstReply m.store args) := by
      have hinvoke : unpack.invoke (m.holding m.store heard).store args =
          .ok (m.store, firstReply m.store args) := invoke_eq m.store args
      simp only [Run.step, Run.invoke, Store.callee, Callee.function, Callee.arguments, Run.enter,
        Run.withRoutine, Machine.countInvocation, Machine.holding, henter, hid] at hinvoke ⊢
      rw [hinvoke]
      rfl
    rw [hstep, called, if_pos hroom]
    have hcall : UnderWay (calling m id) id := ⟨hid, hchain, Nat.succ_pos _, hroom⟩
    exact follows_start hcall hstore hlibrary args heard
  · have henter : m.depth.enter? m.limits.maxCallDepth = none := if_neg hroom
    have hstep : Run.step ⟨m.holding m.store heard, [], [], true⟩
        (.invoke (.function (.routine id)) args) =
        .done (.failed (Run.unwound ⟨(m.holding m.store heard).countInvocation
          (.direct (.routine id)), [], [], true⟩) (.stackOverflow m.limits.maxCallDepth)) := by
      simp only [Run.step, Run.invoke, Store.callee, Run.enter, Machine.countInvocation,
        Machine.holding, henter]
      rfl
    rw [hstep, called, if_neg hroom]
    exact .at_once .refused (Step.ends_done_iff rfl) Iff.rfl

end Phases

/-! ### Integers that fit -/

/-- The next key is one more. -/
theorem current_takeElement {received : List Value} {u u' : Unpacking} {q : Request} {phase : Nat}
    (h : takeElement received u = .asks q phase (.unpacking u')) :
    u'.current.toInt = u.current.toInt + 1 := by
  simp only [takeElement] at h
  split at h
  · next hlt =>
    cases h
    exact toInt_add_one hlt
  · cases h

/-- The number of elements that are asked for is an integer of 64 bits, and so is what it is
computed from. -/
theorem count_begin {st : Store} {u : Unpacking} {q : Request} {phase : Nat} {locals : Locals}
    (h : begin st u = .asks q phase locals) :
    (u.last - u.first).toInt = u.last.toInt - u.first.toInt ∧
      (u.last - u.first + 1).toInt = u.last.toInt - u.first.toInt + 1 := by
  simp only [begin] at h
  split at h
  · cases h
  · next hpos =>
    split at h
    · cases h
    · next hmany =>
      have hmax : (maxResults : Int) = 1000000 := rfl
      have hdifference : (u.last - u.first).toInt = u.last.toInt - u.first.toInt := by
        rw [Int64.toInt_sub]
        exact Int.bmod_eq_of_le (by omega) (by omega)
      refine ⟨hdifference, ?_⟩
      have hbelow : (u.last - u.first).toInt < (1000000 : Int64).toInt := by
        have hbound : (1000000 : Int64).toInt = 1000000 := rfl
        omega
      rw [toInt_add_one hbelow, hdifference]

/-! ### The main result -/

/-- A machine with a table whose elements `pause` answers. -/
def pausing : Machine :=
  let (handlers, st) := (Machine.standard .standard).store.addTable
    (Table.empty.setString Event.index.key (.function (.routine ⟨9⟩)))
  let (_, st) := st.addTable (Table.empty.withMetatable (some handlers))
  { Machine.standard .standard with store := st }

theorem resolve_pausing (k : Int64) :
    pausing.store.resolve 2000 (.index (.table ⟨2⟩) (.integer k)) =
      .handler (.function (.routine ⟨9⟩)) [.table ⟨2⟩, .integer k] := by
  have hentry : pausing.store.rawEntry (.table ⟨2⟩) (.integer k) = .nil := by
    show (Table.empty.withMetatable (some ⟨1⟩)).getInt k = .nil
    simp only [Table.getInt, Table.withMetatable, Table.empty]
    split <;> simp
  have hhandler : pausing.store.handler (.table ⟨2⟩) .index = .function (.routine ⟨9⟩) := by
    have hhandlers : pausing.store.table ⟨1⟩ =
        Table.empty.set (.string Event.index.key) (.function (.routine ⟨9⟩)) := rfl
    have hmetatable : pausing.store.metatableOf (.table ⟨2⟩) = some ⟨1⟩ := rfl
    simp only [Store.handler, hmetatable, hhandlers, Table.getString]
    rw [Table.tidy_empty.get_set, if_pos rfl]
  simp only [Store.resolve, Store.resolveIndex, hentry, hhandler]
  rfl

/-- **What it means that a call of `unpack` is the plain loop.** -/
structure IsPlainLoop (m : Machine) (id : RoutineId) (args heard : List Value) : Prop where
  /-- The call ends as the loop does, whatever it is interrupted by: with the same values or the
  same error, and with the same objects. -/
  ends : ∀ ps e, (m.holding m.store heard).Ends (.invoke (.function (.routine id)) args) ps e ↔
    ∃ asked, (called m (plainLoop args)).Ends (calling m id) m.store heard asked ps e
  /-- It makes the requests of the loop, but for what it reads directly. -/
  requests : (Step.next ⟨m.holding m.store heard, [], [], true⟩
    (.invoke (.function (.routine id)) args)).Follows (calling m id) (Routes m.store args)
      (called m (plainLoop args)) m.store heard
  /-- The loop looks up one key after the other, none of them twice; if it returns, it has left none
  out. -/
  lookups : ∀ object ks done st received asked ps e,
    (collect object ks done).Ends (calling m id) st received asked ps e →
      asked <+: ks.map (fun k => .index object (.integer k)) ∧
        ∀ st' vs, e = .returns st' vs →
          asked = ks.map (fun k => .index object (.integer k)) ∧
            vs.length = done.length + ks.length
  /-- The keys are the integers between the bounds. -/
  keys : ∀ first last, (keys first last).map Int64.toInt =
    (List.range (last.toInt - first.toInt + 1).toNat).map fun (i : Nat) => first.toInt + i
  /-- No computation on the bounds goes beyond 64 bits. -/
  count : ∀ st u q phase locals, begin st u = .asks q phase locals →
    (u.last - u.first).toInt = u.last.toInt - u.first.toInt ∧
      (u.last - u.first + 1).toInt = u.last.toInt - u.first.toInt + 1
  /-- No computation on the present key does. -/
  current : ∀ received u u' q phase, takeElement received u = .asks q phase (.unpacking u') →
    u'.current.toInt = u.current.toInt + 1

/-- **`unpack` is the plain loop on every route.** Closures have compiled code, as they do on every
machine in service (`Service.kept`). -/
theorem isPlainLoop_unpack {m : Machine} {id : RoutineId} (hid : m.library.find? id = some .unpack)
    (hchain : 1 ≤ m.limits.maxIndexChain) (hstore : m.store.Compiled)
    (hlibrary : m.library.KeepsCompiled) (args heard : List Value) :
    IsPlainLoop m id args heard := by
  have hfollows := follows_call hid hchain hstore hlibrary args heard
  constructor
  · intro ps e
    rw [Machine.ends_iff]
    constructor
    · rintro ⟨log, h⟩
      obtain ⟨asked, hends, -⟩ := hfollows.follows h
      exact ⟨asked, hends⟩
    · rintro ⟨asked, h⟩
      obtain ⟨log, hends, -⟩ := hfollows.followed h
      exact ⟨log, hends⟩
  · exact hfollows
  · intro object ks done st received asked ps e
    exact lookups_collect
  · exact toInt_keys
  · intro st u q phase locals
    exact count_begin
  · intro received u u' q phase
    exact current_takeElement

/-- The call is suspended for each element, and returns what the host gives. -/
theorem isPlainLoop_pausing :
    (pausing.library.find? ⟨8⟩ = some .unpack ∧ 1 ≤ pausing.limits.maxIndexChain ∧
      pausing.store.Compiled ∧ pausing.library.KeepsCompiled) ∧
    (pausing.holding pausing.store []).Ends
      (.invoke (.function (.routine ⟨8⟩)) [.table ⟨2⟩, .integer 1, .integer 2])
      [⟨[.table ⟨2⟩, .integer 1], pausing.store, [.integer 10], pausing.store⟩,
        ⟨[.table ⟨2⟩, .integer 2], pausing.store, [.integer 20], pausing.store⟩]
      (.returns pausing.store [.integer 10, .integer 20]) := by
  have hid : pausing.library.find? ⟨8⟩ = some .unpack := rfl
  have hchain : 1 ≤ pausing.limits.maxIndexChain := by decide
  have hstore : pausing.store.Compiled := by
    intro c hc
    exact absurd hc (Array.not_mem_empty c)
  have hlibrary : pausing.library.KeepsCompiled := keepsCompiled_standard
  refine ⟨⟨hid, hchain, hstore, hlibrary⟩, ?_⟩
  have hasks (k : Int64) (heard : List Value) (given : Value) :
      ((calling pausing ⟨8⟩).holding pausing.store heard).Ends
        (.request (.index (.table ⟨2⟩) (.integer k)))
        [⟨[.table ⟨2⟩, .integer k], pausing.store, [given], pausing.store⟩]
        (.returns pausing.store [given]) :=
    Machine.ends_request_handler (resolve_pausing k) heard
      (Machine.ends_pause rfl (by show 1 < 200; decide) (List.cons_ne_nil _ _) pausing.store)
  have hloop : (called pausing (plainLoop [.table ⟨2⟩, .integer 1, .integer 2])).Ends
      (calling pausing ⟨8⟩) pausing.store []
      [.index (.table ⟨2⟩) (.integer 1), .index (.table ⟨2⟩) (.integer 2)]
      [⟨[.table ⟨2⟩, .integer 1], pausing.store, [.integer 10], pausing.store⟩,
        ⟨[.table ⟨2⟩, .integer 2], pausing.store, [.integer 20], pausing.store⟩]
      (.returns pausing.store [.integer 10, .integer 20]) :=
    ⟨[_], [_], [_], _, rfl, rfl, hasks 1 [] (.integer 10), .returns
      ⟨[], [_], [], _, rfl, rfl, hasks 2 _ (.integer 20), .returns ⟨rfl, rfl, rfl⟩⟩⟩
  exact ((isPlainLoop_unpack hid hchain hstore hlibrary _ []).ends _ _).mpr ⟨_, hloop⟩

end ResumableVM.Routine.Unpack
