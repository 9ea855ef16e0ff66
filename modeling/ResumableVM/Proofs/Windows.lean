import ResumableVM.Proofs.Captures
import ResumableVM.Proofs.Scope

/-! # Windows: accesses that agree with the analysis

`Window.states` are the states of the registers that a window holds. Where they are those of the
analysis, every access that the code makes has the mode that the register is in: reading, writing
and receiving through slots are reading, assigning and receiving in the scope (`read_source`,
`write_slot`, `receive_receiver`). Only sharing and closing change the states, and they change them
as the analysis says (`states_perform`). -/

namespace ResumableVM

/-- The state that a register is in. -/
def Slot.state : Slot → SlotState
  | .plain _ => .plain
  | .boxed _ => .captured

namespace Window

/-- The states of the registers. -/
def states (w : Window) : SlotStates := w.slots.toList.map Slot.state

theorem length_states (w : Window) : w.states.length = w.size := by simp [states, size]

theorem getElem?_states (w : Window) (r : Nat) : w.states[r]? = w.slots[r]?.map Slot.state := by
  simp [states]

theorem plain_of_states {w : Window} {r : Nat} (hr : r < w.size) (h : w.states.of r = .plain) :
    ∃ v, w.slots[r]? = some (.plain v) := by
  have hlt : r < w.slots.size := hr
  simp only [SlotStates.of, getElem?_states, Array.getElem?_eq_getElem hlt, Option.map_some,
    Option.getD_some] at h
  cases hs : w.slots[r] with
  | plain v => exact ⟨v, by rw [Array.getElem?_eq_getElem hlt, hs]⟩
  | boxed c => rw [hs] at h; cases h

theorem boxed_of_states {w : Window} {r : Nat} (h : w.states.of r = .captured) :
    ∃ c, w.slots[r]? = some (.boxed c) := by
  simp only [SlotStates.of, getElem?_states] at h
  cases hs : w.slots[r]? with
  | none => rw [hs] at h; cases h
  | some s =>
    rw [hs] at h
    cases s with
    | plain v => cases h
    | boxed c => exact ⟨c, rfl⟩

theorem lt_of_states {w : Window} {r : Nat} (h : w.states.of r = .captured) : r < w.size := by
  obtain ⟨c, hc⟩ := boxed_of_states h
  exact (Array.getElem?_eq_some_iff.mp hc).1

theorem states_of_plain {w : Window} {r : Nat} {v : Value} (h : w.slots[r]? = some (.plain v)) :
    w.states.of r = .plain := by
  simp [SlotStates.of, getElem?_states, h, Slot.state]

theorem states_of_boxed {w : Window} {r : Nat} {c : CellId} (h : w.slots[r]? = some (.boxed c)) :
    w.states.of r = .captured := by
  simp [SlotStates.of, getElem?_states, h, Slot.state]

theorem states_put (w : Window) (r : Nat) (s : Slot) :
    (w.put r s).states = w.states.set r s.state := by
  simp [states, put, Array.toList_setIfInBounds, List.map_set]

theorem set_states_self {w : Window} {r : Nat} {s : Slot} (h : w.slots[r]? = some s) :
    w.states.set r s.state = w.states := by
  refine List.ext_getElem? fun i => ?_
  by_cases hi : r = i
  · subst hi
    have hlt : r < w.states.length := by
      rw [length_states]
      exact (Array.getElem?_eq_some_iff.mp h).1
    rw [List.getElem?_set_self hlt, getElem?_states, h, Option.map_some]
  · rw [List.getElem?_set_ne hi]

theorem set_of_getElem?_eq_none {w : Window} {r : Nat} (s : SlotState) (h : w.slots[r]? = none) :
    w.states.set r s = w.states := by
  have : w.slots.size ≤ r := by simpa using h
  exact List.set_eq_of_length_le (by rw [length_states]; exact this)

/-! ### What register operations do to the states -/

theorem states_assign (w : Window) (st : Store) (r : Nat) (v : Value) :
    (w.assign st r v).1.states = w.states := by
  unfold assign
  split
  · rfl
  · rw [states_put]
    cases hs : w.slots[r]? with
    | none => exact set_of_getElem?_eq_none _ hs
    | some s =>
      cases s with
      | plain u =>
        have h := set_states_self hs
        exact h
      | boxed c => next h => exact absurd hs (h c)

theorem states_share (w : Window) (st : Store) (r : Nat) :
    (w.share st r).1.states = w.states.set r .captured := by
  unfold share
  split
  · exact states_put _ _ _
  · cases hs : w.slots[r]? with
    | none => exact (set_of_getElem?_eq_none _ hs).symm
    | some s =>
      cases s with
      | plain u => next h => exact absurd hs (h u)
      | boxed c => exact (set_states_self hs).symm

theorem states_close (w : Window) (st : Store) (r : Nat) :
    (w.close st r).states = w.states.set r .plain := by
  unfold close
  split
  · exact states_put _ _ _
  · cases hs : w.slots[r]? with
    | none => exact (set_of_getElem?_eq_none _ hs).symm
    | some s =>
      cases s with
      | plain u => exact (set_states_self hs).symm
      | boxed c => next h => exact absurd hs (h c)

/-! ### Accesses through slots -/

theorem get_slot {w : Window} (st : Store) {r : Nat} (hr : r < w.size) :
    w.get st (w.states.slot r) = .ok (w.value st r) := by
  unfold get slot SlotStates.slot value
  cases hs : w.states.of r with
  | plain =>
    obtain ⟨v, hv⟩ := plain_of_states hr hs
    simp only [hv]
    rfl
  | captured =>
    obtain ⟨c, hc⟩ := boxed_of_states hs
    simp only [hc]
    rfl

theorem set_slot {w : Window} (st : Store) (v : Value) {r : Nat} (hr : r < w.size) :
    w.set st (w.states.slot r) v = .ok (w.assign st r v) := by
  unfold set SlotStates.slot assign
  cases hs : w.states.of r with
  | plain =>
    obtain ⟨u, hu⟩ := plain_of_states hr hs
    simp only [hu]
  | captured =>
    obtain ⟨c, hc⟩ := boxed_of_states hs
    simp only [hc]

theorem capture_of_plain {w : Window} (st : Store) {r : Nat} (hr : r < w.size)
    (h : w.states.of r = .plain) : w.capture st r = .ok (w.share st r) := by
  obtain ⟨v, hv⟩ := plain_of_states hr h
  simp only [capture, share, hv]

theorem uncapture_of_captured {w : Window} (st : Store) {r : Nat}
    (h : w.states.of r = .captured) : w.uncapture st r = .ok (w.close st r) := by
  obtain ⟨c, hc⟩ := boxed_of_states h
  simp only [uncapture, close, hc]

theorem cell_of_captured {w : Window} {r : Nat} (h : w.states.of r = .captured) :
    w.cell r = .ok (w.cellOf r) := by
  obtain ⟨c, hc⟩ := boxed_of_states h
  simp only [cell, slot, cellOf, hc]
  rfl

theorem share_of_captured {w : Window} (st : Store) {r : Nat} (h : w.states.of r = .captured) :
    w.share st r = (w, st) := by
  obtain ⟨c, hc⟩ := boxed_of_states h
  simp only [share, hc]

theorem close_of_plain {w : Window} (st : Store) {r : Nat} (h : w.states.of r = .plain) :
    w.close st r = w := by
  unfold close
  split
  · next c hc => rw [states_of_boxed hc] at h; cases h
  · rfl

end Window

/-! ### What operations do to the states -/

namespace Scope

theorem states_assign (s : Scope Window) (st : Store) (r : Nat) (v : Value) :
    (s.assign st r v).1.file.states = s.file.states :=
  Window.states_assign _ _ _ _

theorem states_assignAll : ∀ (rs : List Nat) (s : Scope Window) (st : Store) (vs : List Value),
    (s.assignAll st rs vs).1.file.states = s.file.states
  | [], _, _, _ => rfl
  | r :: rs, s, st, vs => by
    rw [assignAll, states_assignAll rs, states_assign]

theorem states_receive (s : Scope Window) (st : Store) (results : Results) (vs : List Value) :
    (s.receive st results vs).1.file.states = s.file.states := by
  cases results with
  | fixed rs => exact states_assignAll rs s st vs
  | multi => rfl

theorem states_each {x : SlotState} {change : Window → Store → Nat → Window × Store}
    (h : ∀ w st r, (change w st r).1.states = w.states.set r x) :
    ∀ (rs : List Nat) (s : Scope Window) (st : Store),
      (s.each change st rs).1.file.states = s.file.states.setAll rs x
  | [], _, _ => rfl
  | r :: rs, s, st => by
    rw [each, states_each h rs]
    exact congrArg (SlotStates.setAll · rs x) (h _ _ _)

theorem states_shareAll (rs : List Nat) (s : Scope Window) (st : Store) :
    (s.shareAll st rs).1.file.states = s.file.states.setAll rs .captured :=
  states_each Window.states_share rs s st

theorem states_closeAll (rs : List Nat) (s : Scope Window) (st : Store) :
    (s.closeAll st rs).1.file.states = s.file.states.setAll rs .plain :=
  states_each Window.states_close rs s st

end Scope

/-- **An operation changes the states as the analysis says.** -/
theorem Setting.states_perform {c : Setting} {s s' : Scope Window} {st st' : Store} {op : Op}
    (h : c.perform s st op = .goesOn s' st') :
    s'.file.states = c.procedure.captureFlow s.file.states op := by
  cases op with
  | close rs =>
    simp only [perform, goOn, Performed.goesOn.injEq] at h
    rw [← h.1]
    exact Scope.states_closeAll rs s st
  | closure dst proto =>
    simp only [perform, assignNew, goOn, Performed.goesOn.injEq] at h
    rw [← h.1, Scope.states_assign]
    exact Scope.states_shareAll _ s st
  | setIndex table key value =>
    simp only [perform, setIndex] at h
    split at h
    · split at h
      · cases h; rfl
      · cases h
    · cases h
  | unary dst op src =>
    cases op with
    | not =>
      simp only [perform, goOn, Performed.goesOn.injEq] at h
      rw [← h.1, Scope.states_assign]; rfl
    | _ => cases h
  | compare dst op a b =>
    simp only [perform, keep] at h
    split at h
    · simp only [goOn, Performed.goesOn.injEq] at h
      rw [← h.1, Scope.states_assign]; rfl
    · cases h
  | vararg results =>
    simp only [perform, goOn, Performed.goesOn.injEq] at h
    rw [← h.1, Scope.states_receive]; rfl
  | setUpvalue i src => cases h; rfl
  | index | arith | call => cases h
  | move | load | getUpvalue | newTable =>
    simp only [perform, assignNew, goOn, Performed.goesOn.injEq] at h
    rw [← h.1, Scope.states_assign]; rfl

/-! ### Frames -/

namespace Frame

/-- A frame and a store after something was done to the scope. -/
def after (f : Frame) (x : Scope Window × Store) : Frame × Store := (f.withScope x.1, x.2)

variable {f : Frame} (st : Store)

theorem read_source {o : Operand} (h : ∀ r ∈ o.registers, r < f.window.size) :
    f.read st (f.window.states.source o) = .ok (f.scope.value st o) := by
  cases o with
  | register r => exact Window.get_slot st (h r (by simp [Operand.registers]))
  | const c => rfl

theorem arguments_sources {args : Args} (h : ∀ r ∈ args.registers, r < f.window.size) :
    f.arguments st (f.window.states.sources args) = .ok (f.scope.values st args) := by
  have hread : ∀ o ∈ args.fixed,
      (f.read st ∘ f.window.states.source) o = .ok (f.scope.value st o) := fun o ho =>
    read_source st fun r hr => h r (List.mem_flatMap.mpr ⟨o, ho, hr⟩)
  unfold arguments SlotStates.sources
  rw [List.mapM_map, mapM_eq_ok hread]
  rfl

theorem write_slot (v : Value) {r : Nat} (hr : r < f.window.size) :
    f.write st (f.window.states.slot r) v = .ok (f.after (f.scope.assign st r v)) := by
  unfold write
  rw [Window.set_slot st v hr]
  rfl

theorem size_assign (r : Nat) (v : Value) :
    (f.scope.assign st r v).1.file.size = f.window.size := by
  rw [← Window.length_states, Scope.states_assign, Window.length_states]
  rfl

theorem writeAll_slots : ∀ {rs : List Nat} {f : Frame} {st : Store} {vs : List Value},
    (∀ r ∈ rs, r < f.window.size) →
      f.writeAll st (rs.map f.window.states.slot) vs = .ok (f.after (f.scope.assignAll st rs vs))
  | [], _, _, _, _ => rfl
  | r :: rs, f, st, vs, h => by
    have hr := List.forall_mem_cons.mp h
    rw [List.map_cons, writeAll, write_slot st _ hr.1]
    let s := f.scope.assign st r (vs.headD .nil)
    have hsize : s.1.file.size = f.window.size := size_assign st r _
    have hstates : s.1.file.states = f.window.states := Scope.states_assign _ _ _ _
    have ih : (f.withScope s.1).writeAll s.2 (rs.map s.1.file.states.slot) vs.tail =
        .ok (f.after (s.1.assignAll s.2 rs vs.tail)) :=
      writeAll_slots fun i hi => lt_of_lt_of_eq (hr.2 i hi) hsize.symm
    rwa [hstates] at ih

theorem receive_receiver {results : Results} (vs : List Value)
    (h : ∀ r ∈ results.registers, r < f.window.size) :
    f.receive st (f.window.states.receiver results) vs =
      .ok (f.after (f.scope.receive st results vs)) := by
  cases results with
  | multi => rfl
  | fixed rs =>
    match rs, h with
    | [], _ => rfl
    | [r], h => exact write_slot st _ (h r (by simp [Results.registers]))
    | r :: r' :: rs, h => exact writeAll_slots h

end Frame

end ResumableVM
