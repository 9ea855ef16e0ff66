import ResumableVM.Proofs.Layout
import ResumableVM.Machine.Activation

/-! # CompiledCode: what any call of compiled code keeps

`Activation.Changes` says what an instruction makes of the store, whatever the registers hold: it
makes a table or a closure, writes an entry of a table, or changes nothing but cells
(`follows_advance`). Nothing here asks that the instruction can be carried out.

A store is compiled when the code of all its closures is. An instruction of compiled code keeps that,
and a question leaves the call at an address that its resumption point goes on at
(`compiled_advance`). -/

namespace ResumableVM

theorem bind_eq_ok_iff {ε α β : Type} {x : Except ε α} {f : α → Except ε β} {b : β} :
    x >>= f = .ok b ↔ ∃ a, x = .ok a ∧ f a = .ok b := by
  cases x with
  | error e => simp [bind, Except.bind]
  | ok a => simp [bind, Except.bind]

theorem map_eq_ok_iff {ε α β : Type} {x : Except ε α} {f : α → β} {b : β} :
    f <$> x = .ok b ↔ ∃ a, x = .ok a ∧ f a = b := by
  cases x with
  | error e => simp [Functor.map, Except.map]
  | ok a => simp [Functor.map, Except.map]

/-- The code of some accepted procedure. -/
def Code.Compiled (code : Code) : Prop := ∃ p : Procedure, p.compile = .ok code

/-- The procedure whose code returns nothing. -/
def Procedure.inert : Procedure := ⟨"", 0, false, 0, [], [⟨[], .ret ⟨[], false⟩⟩], []⟩

theorem Procedure.compile_inert : Procedure.inert.compile = .ok Code.inert :=
  compile_eq_ok_iff.mpr ⟨check_eq_ok_iff.mp rfl, [], .nil, rfl⟩

theorem Code.Compiled.nested {code n : Code} (h : code.Compiled) (hn : n ∈ code.nested) :
    n.Compiled := by
  obtain ⟨p, hp⟩ := h
  obtain ⟨-, codes, hcodes, rfl⟩ := Procedure.compile_eq_ok_iff.mp hp
  obtain ⟨i, hi, rfl⟩ := List.mem_iff_getElem.mp hn
  exact ⟨_, hcodes.get (hcodes.length_eq ▸ hi) hi⟩

theorem Code.Compiled.resumesAt {code : Code} (h : code.Compiled) {pc point : Nat} {q : Question}
    (hq : code.instrs[pc]? = some (.ask q point)) : code.ResumesAt point (pc + 1) := by
  obtain ⟨p, hp⟩ := h
  obtain ⟨-, codes, -, rfl⟩ := Procedure.compile_eq_ok_iff.mp hp
  exact Procedure.resumesAt_of_ask hq

namespace Store

variable {P : Closure → Prop} {st : Store}

/-- What holds of all closures holds of the closure at a place. -/
theorem forall_closure (h : ∀ c ∈ st.closures, P c) (hdefault : P default) (id : ClosureId) :
    P (st.closure id) := by
  unfold Store.closure
  cases hc : st.closures[id.index]? with
  | none => exact hdefault
  | some c => exact h c (Array.mem_of_getElem? hc)

theorem forall_addClosure (h : ∀ c ∈ st.closures, P c) {c : Closure} (hc : P c) :
    ∀ d ∈ (st.addClosure c).2.closures, P d := by
  intro d hd
  rcases Array.mem_push.mp hd with hd | rfl
  · exact h d hd
  · exact hc

end Store

/-- The code of every closure is compiled. -/
def Store.Compiled (st : Store) : Prop := ∀ c ∈ st.closures, c.code.Compiled

namespace Store.Compiled

variable {st st' : Store}

theorem closure (h : st.Compiled) (id : ClosureId) : (st.closure id).code.Compiled :=
  forall_closure h ⟨_, Procedure.compile_inert⟩ id

theorem of_eq (h : st.Compiled) (heq : st'.closures = st.closures) : st'.Compiled := by
  unfold Store.Compiled
  rw [heq]
  exact h

theorem addClosure (h : st.Compiled) {c : Closure} (hc : c.code.Compiled) :
    (st.addClosure c).2.Compiled := forall_addClosure h hc

end Store.Compiled

/-! ### Registers -/

/-- Another store with the same objects, apart from the cells. -/
def Store.SameButCells (st st' : Store) : Prop := ∃ cells, st' = { st with cells := cells }

namespace Store.SameButCells

variable {st st' st'' : Store}

theorem refl (st : Store) : st.SameButCells st := ⟨_, rfl⟩

theorem trans (h : st.SameButCells st') (h' : st'.SameButCells st'') : st.SameButCells st'' := by
  obtain ⟨cells, rfl⟩ := h
  obtain ⟨cells', rfl⟩ := h'
  exact ⟨cells', rfl⟩

theorem closures (h : st.SameButCells st') : st'.closures = st.closures := by
  obtain ⟨cells, rfl⟩ := h
  rfl

theorem tables (h : st.SameButCells st') : st'.tables = st.tables := by
  obtain ⟨cells, rfl⟩ := h
  rfl

theorem addClosure (h : st.SameButCells st') (c : Closure) :
    (st.addClosure c).2.SameButCells (st'.addClosure c).2 := by
  obtain ⟨cells, rfl⟩ := h
  exact ⟨cells, rfl⟩

end Store.SameButCells

section Registers

variable {w w' : Window} {f f' : Frame} {st st' : Store}

theorem Window.sameButCells_set {s : SlotRef} {v : Value} (h : w.set st s v = .ok (w', st')) :
    st.SameButCells st' := by
  unfold Window.set at h
  split at h <;> cases h
  · exact .refl _
  · exact ⟨_, rfl⟩

theorem Window.sameButCells_capture {r : Nat} (h : w.capture st r = .ok (w', st')) :
    st.SameButCells st' := by
  unfold Window.capture at h
  split at h <;> cases h
  exact ⟨_, rfl⟩

theorem Frame.sameButCells_write {s : SlotRef} {v : Value} (h : f.write st s v = .ok (f', st')) :
    st.SameButCells st' := by
  obtain ⟨⟨w, st₁⟩, hset, heq⟩ := bind_eq_ok_iff.mp h
  cases heq
  exact Window.sameButCells_set hset

theorem Frame.sameButCells_writeAll : ∀ {slots : List SlotRef} {vs : List Value} {f : Frame}
    {st : Store}, f.writeAll st slots vs = .ok (f', st') → st.SameButCells st'
  | [], vs, f, st, h => by cases h; exact .refl _
  | s :: slots, vs, f, st, h => by
    obtain ⟨⟨f₁, st₁⟩, hwrite, hrest⟩ := bind_eq_ok_iff.mp h
    exact (sameButCells_write hwrite).trans (sameButCells_writeAll hrest)

theorem Frame.sameButCells_receive {receiver : Receiver} {vs : List Value}
    (h : f.receive st receiver vs = .ok (f', st')) : st.SameButCells st' := by
  cases receiver with
  | discard => cases h; exact .refl st
  | one dst => exact sameButCells_write h
  | fixed dsts => exact sameButCells_writeAll h
  | multi => cases h; exact .refl st

end Registers

/-! ### Instructions -/

namespace Activation

/-- Progress of a call that has carried out an instruction: it has the same closure, and it has
just passed the instruction if that asks. -/
def Follows (a : Activation) (i : Instr) : Progress Activation → Prop
  | .runs a' => a'.closure = a.closure
  | .asks a' _ => a'.closure = a.closure ∧ a'.pc = a.pc ∧ ∃ q, i = .ask q a'.frame.point
  | .returns _ | .tailCalls _ _ | .fails _ => True

/-- What an instruction makes of the store: cells may change, and only three kinds of instructions
change or make other objects. -/
inductive Changes (a : Activation) (st : Store) : Instr → Store → Prop
  | cells {i : Instr} {st' : Store} (h : st.SameButCells st') : Changes a st i st'
  | makesTable {dst : SlotRef} {st' : Store} (h : (st.addTable .empty).2.SameButCells st') :
      Changes a st (.newTable dst) st'
  | makesClosure {dst : SlotRef} {proto : Nat} {code : Code} {upvalues : Array CellId}
      {st' : Store} (hcode : a.nestedCode proto = .ok code)
      (h : (st.addClosure ⟨code, upvalues⟩).2.SameButCells st') :
      Changes a st (.closure dst proto) st'
  | writes {slot : SlotRef} {key value : Source} {id : TableId} {k v : Value} {q : Key}
      (htable : a.frame.window.get st slot = .ok (.table id)) (hkey : a.frame.read st key = .ok k)
      (hq : Table.keyFor k = .ok q) :
      Changes a st (.setIndex slot key value) (st.modifyTable id (·.set q v))

variable {a : Activation} {st st' : Store} {received : List Value} {i : Instr}
  {pr : Progress Activation}

theorem follows_goOn {x : Except Defect (Frame × Store)} (h : a.goOn <$> x = .ok (st', pr))
    (hx : ∀ after, x = .ok after → st.SameButCells after.2) :
    st.SameButCells st' ∧ a.Follows i pr := by
  obtain ⟨after, hafter, heq⟩ := map_eq_ok_iff.mp h
  cases heq
  exact ⟨hx after hafter, rfl⟩

theorem follows_assign {dst : SlotRef} {v : Value} (h : a.assign st dst v = .ok (st', pr)) :
    st.SameButCells st' ∧ a.Follows i pr :=
  follows_goOn h fun _ hx => Frame.sameButCells_write hx

theorem follows_setIndex {slot : SlotRef} {t : Value} {key value : Source}
    (ht : a.frame.window.get st slot = .ok t) (h : a.setIndex st t key value = .ok (st', pr)) :
    a.Changes st (.setIndex slot key value) st' ∧ a.Follows i pr := by
  cases t with
  | table id =>
    obtain ⟨k, hk, h⟩ := bind_eq_ok_iff.mp h
    obtain ⟨v, -, h⟩ := bind_eq_ok_iff.mp h
    split at h
    · next q hq => cases h; exact ⟨.writes ht hk hq, rfl⟩
    · cases h; exact ⟨.cells (.refl st), trivial⟩
  | _ => cases h; exact ⟨.cells (.refl st), trivial⟩

theorem follows_arithRaw {op : ArithOp} {dst : SlotRef} {x y : Value}
    (h : a.arithRaw st op dst x y = .ok (st', pr)) :
    st.SameButCells st' ∧ a.Follows i pr := by
  unfold arithRaw at h
  split at h
  · exact follows_assign h
  · cases h; exact ⟨.refl st, trivial⟩
  · cases h; exact ⟨.refl st, trivial⟩

theorem follows_compare {op : CompareOp} {dst : SlotRef} {x y : Value}
    (h : a.compare st op dst x y = .ok (st', pr)) :
    st.SameButCells st' ∧ a.Follows i pr := by
  unfold compare at h
  split at h
  · exact follows_assign h
  · cases h; exact ⟨.refl st, trivial⟩

theorem follows_makeClosure {dst : SlotRef} {proto : Nat}
    (h : a.makeClosure st dst proto = .ok (st', pr)) :
    a.Changes st (.closure dst proto) st' ∧ a.Follows i pr := by
  obtain ⟨code, hcode, h⟩ := bind_eq_ok_iff.mp h
  obtain ⟨cells, -, h⟩ := bind_eq_ok_iff.mp h
  exact (follows_assign h).imp_left (.makesClosure hcode)

/-- **What an instruction does**: to the store, and to the call. -/
theorem follows_execute (h : a.execute st received i = .ok (st', pr)) :
    a.Changes st i st' ∧ a.Follows i pr := by
  cases i with
  | closure dst proto => exact follows_makeClosure h
  | ask question point =>
    obtain ⟨r, -, h⟩ := bind_eq_ok_iff.mp h
    cases h
    exact ⟨.cells (.refl st), rfl, rfl, question, rfl⟩
  | capture r =>
    obtain ⟨⟨w, st₁⟩, hcapture, h⟩ := bind_eq_ok_iff.mp h
    cases h
    exact ⟨.cells (Window.sameButCells_capture hcapture), rfl⟩
  | uncapture r =>
    obtain ⟨w, -, h⟩ := bind_eq_ok_iff.mp h
    cases h
    exact ⟨.cells (.refl st), rfl⟩
  | setUpvalue index src =>
    obtain ⟨v, -, h⟩ := bind_eq_ok_iff.mp h
    obtain ⟨cell, -, h⟩ := bind_eq_ok_iff.mp h
    cases h
    exact ⟨.cells ⟨_, rfl⟩, rfl⟩
  | jump target => cases h; exact ⟨.cells (.refl st), rfl⟩
  | jumpIfFalse cond target =>
    obtain ⟨v, -, h⟩ := bind_eq_ok_iff.mp h
    cases h
    exact ⟨.cells (.refl st), by simp only [Follows]; split <;> rfl⟩
  | ret args =>
    obtain ⟨vs, -, h⟩ := bind_eq_ok_iff.mp h
    cases h
    exact ⟨.cells (.refl st), trivial⟩
  | tailCall target args =>
    obtain ⟨t, -, h⟩ := bind_eq_ok_iff.mp h
    obtain ⟨vs, -, h⟩ := bind_eq_ok_iff.mp h
    cases h
    exact ⟨.cells (.refl st), trivial⟩
  | move dst src =>
    obtain ⟨v, -, h⟩ := bind_eq_ok_iff.mp h
    exact (follows_assign h).imp_left .cells
  | getUpvalue dst index =>
    obtain ⟨cell, -, h⟩ := bind_eq_ok_iff.mp h
    exact (follows_assign h).imp_left .cells
  | newTable dst => exact (follows_assign h).imp_left .makesTable
  | setIndex table key value =>
    obtain ⟨t, ht, h⟩ := bind_eq_ok_iff.mp h
    exact follows_setIndex ht h
  | arithRaw op dst x y =>
    obtain ⟨v, -, h⟩ := bind_eq_ok_iff.mp h
    obtain ⟨w, -, h⟩ := bind_eq_ok_iff.mp h
    exact (follows_arithRaw h).imp_left .cells
  | not dst src =>
    obtain ⟨v, -, h⟩ := bind_eq_ok_iff.mp h
    exact (follows_assign h).imp_left .cells
  | compare op dst x y =>
    obtain ⟨v, -, h⟩ := bind_eq_ok_iff.mp h
    obtain ⟨w, -, h⟩ := bind_eq_ok_iff.mp h
    exact (follows_compare h).imp_left .cells
  | receive receiver =>
    exact (follows_goOn h fun _ hx => Frame.sameButCells_receive hx).imp_left .cells
  | vararg receiver =>
    exact (follows_goOn h fun _ hx => Frame.sameButCells_receive hx).imp_left .cells

/-- An advance carries out the instruction that comes next. -/
theorem follows_advance (h : a.advance st received = .ok (st', pr)) :
    ∃ i, a.closure.code.instrs[a.pc]? = some i ∧ a.Changes st i st' ∧
      Follows ⟨a.closure, a.frame, a.pc + 1⟩ i pr := by
  obtain ⟨i, hi, h⟩ := bind_eq_ok_iff.mp h
  have hinstr : a.closure.code.instrs[a.pc]? = some i := by
    unfold instr at hi
    split at hi
    · next hget => cases hi; exact hget
    · cases hi
  obtain ⟨hchanges, hfollows⟩ := follows_execute (a := ⟨a.closure, a.frame, a.pc + 1⟩) h
  refine ⟨i, hinstr, ?_, hfollows⟩
  -- nothing that an instruction does to the store depends on its address
  cases hchanges with
  | cells h => exact .cells h
  | makesTable h => exact .makesTable h
  | makesClosure hcode h => exact .makesClosure hcode h
  | writes htable hkey hq => exact .writes htable hkey hq

/-- Only the instruction that makes a closure adds one, with code that is nested in the call's. -/
theorem Changes.compiled (h : a.Changes st i st') (hcode : a.closure.code.Compiled)
    (hst : st.Compiled) : st'.Compiled := by
  cases h with
  | cells h => exact hst.of_eq h.closures
  | makesTable h => exact hst.of_eq h.closures
  | makesClosure hnested h =>
    refine (hst.addClosure ?_).of_eq h.closures
    unfold nestedCode at hnested
    split at hnested
    · next hmem =>
      cases hnested
      exact hcode.nested (List.mem_of_getElem? hmem)
    · cases hnested
  | writes htable hkey hq => exact hst.of_eq rfl

/-- The call is of compiled code, and its frame goes on where it stands. -/
structure Resumable (a : Activation) : Prop where
  code : a.closure.code.Compiled
  resumes : a.closure.code.ResumesAt a.frame.point a.pc

/-- **Whoever asks can be resumed**, and the store stays compiled. -/
theorem compiled_advance (hcode : a.closure.code.Compiled) (hst : st.Compiled)
    (h : a.advance st received = .ok (st', pr)) :
    st'.Compiled ∧ (∀ a', pr = .runs a' → a'.closure.code.Compiled) ∧
      ∀ a' q, pr = .asks a' q → a'.Resumable := by
  obtain ⟨i, hinstr, hchanges, hfollows⟩ := follows_advance h
  have hstore := hchanges.compiled hcode hst
  refine ⟨hstore, ?_, ?_⟩
  · rintro a' rfl
    have hsame : a'.closure = a.closure := hfollows
    exact hsame ▸ hcode
  · rintro a' q rfl
    obtain ⟨hsame, hpc, q', rfl⟩ := hfollows
    have hpc : a'.pc = a.pc + 1 := hpc
    have hsame : a'.closure = a.closure := hsame
    exact ⟨hsame ▸ hcode, by rw [hsame, hpc]; exact hcode.resumesAt hinstr⟩

end Activation

end ResumableVM
