import ResumableVM.Proofs.NamedStores

/-! # Named calls: instructions do not tell names apart

Registers, frames and activations correspond under a naming when the values and the cells in them
do. An instruction then does the same to both: it fails alike, makes requests that correspond, or
leaves frames and stores that correspond (`Activation.advance_named`). -/

namespace ResumableVM

variable {ρ : Naming} {st st' : Store}

namespace Window

variable {w w' : Window}

theorem slot_named (h : w.Named ρ w') (r : Nat) :
    Both (Slot.Named ρ) (w.slot r) (w'.slot r) := by
  have hheld := h.held (rfl : r = r)
  simp only [slot, h.size_eq]
  generalize w.slots[r]? = s, w'.slots[r]? = s' at hheld
  cases hheld with
  | some hs => exact .ok hs
  | none => exact .error _

theorem put_named (h : w.Named ρ w') (r : Nat) {s s' : Slot} (hs : s.Named ρ s') :
    (w.put r s).Named ρ (w'.put r s') := h.set Aligned.biUnique_eq rfl hs

theorem get_named (h : w.Named ρ w') (hst : st.Named ρ st') (s : SlotRef) :
    Both (Value.Named ρ) (w.get st s) (w'.get st' s) := by
  refine (slot_named h s.register).bind fun hs => ?_
  cases hs with
  | plain hv =>
    cases s.mode with
    | direct => exact .ok hv
    | boxed => exact .error _
  | boxed hcell =>
    cases s.mode with
    | direct => exact .error _
    | boxed => exact .ok (hst.cell hcell)

theorem set_named (h : w.Named ρ w') (hst : st.Named ρ st') (s : SlotRef) {v v' : Value}
    (hv : v.Named ρ v') :
    Both (fun x x' => x.1.Named ρ x'.1 ∧ x.2.Named ρ x'.2) (w.set st s v) (w'.set st' s v') := by
  have hheld := h.held (rfl : s.register = s.register)
  simp only [set, h.size_eq]
  generalize w.slots[s.register]? = x, w'.slots[s.register]? = x', s.mode = mode at hheld
  cases hheld with
  | none => exact .error _
  | some hs =>
    cases hs with
    | plain _ =>
      cases mode with
      | direct => exact .ok ⟨put_named h _ (.plain hv), hst⟩
      | boxed => exact .error _
    | boxed hcell =>
      cases mode with
      | direct => exact .error _
      | boxed => exact .ok ⟨h, hst.setCell hcell hv⟩

theorem capture_named (h : w.Named ρ w') (hst : st.Named ρ st') (r : Nat) :
    Both (fun x x' => x.1.Named ρ x'.1 ∧ x.2.Named ρ x'.2) (w.capture st r)
      (w'.capture st' r) := by
  have hheld := h.held (rfl : r = r)
  simp only [capture, h.size_eq]
  generalize w.slots[r]? = s, w'.slots[r]? = s' at hheld
  cases hheld with
  | none => exact .error _
  | some hs =>
    cases hs with
    | plain hv =>
      obtain ⟨hcell, hst⟩ := hst.addCell hv
      exact .ok ⟨put_named h r (.boxed hcell), hst⟩
    | boxed _ => exact .error _

theorem uncapture_named (h : w.Named ρ w') (hst : st.Named ρ st') (r : Nat) :
    Both (Window.Named ρ) (w.uncapture st r) (w'.uncapture st' r) := by
  have hheld := h.held (rfl : r = r)
  simp only [uncapture, h.size_eq]
  generalize w.slots[r]? = s, w'.slots[r]? = s' at hheld
  cases hheld with
  | none => exact .error _
  | some hs =>
    cases hs with
    | plain _ => exact .error _
    | boxed hcell => exact .ok (put_named h r (.plain (hst.cell hcell)))

theorem cell_named (h : w.Named ρ w') (r : Nat) :
    Both (CellId.Named ρ) (w.cell r) (w'.cell r) := by
  refine (slot_named h r).bind fun hs => ?_
  cases hs with
  | plain _ => exact .error _
  | boxed hcell => exact .ok hcell

end Window

namespace Frame

variable {f f' : Frame}

theorem start_named (code : Code) {vs vs' : List Value} (hvs : ρ.Values vs vs') :
    (Frame.start code vs).Named ρ (Frame.start code vs') where
  window := by
    refine Aligned.iff_toList.mpr (List.rel_append ?_ ?_)
    · rw [List.forall₂_map_left_iff, List.forall₂_map_right_iff, List.forall₂_same]
      exact fun i _ => .plain (valueAt_named hvs i)
    · exact List.forall₂_same.mpr fun s hs => by
        rw [List.eq_of_mem_replicate hs]
        exact .plain .nil
  varargs := by
    simp only [start]
    split
    · exact List.forall₂_drop _ hvs
    · exact .nil
  multi := .nil
  point := rfl

theorem read_named (h : f.Named ρ f') (hst : st.Named ρ st') (s : Source) :
    Both (Value.Named ρ) (f.read st s) (f'.read st' s) := by
  cases s with
  | slot s => exact Window.get_named h.window hst s
  | const c => exact .ok c.toValue_named

theorem arguments_named (h : f.Named ρ f') (hst : st.Named ρ st') (args : SourceList) :
    Both ρ.Values (f.arguments st args) (f'.arguments st' args) := by
  refine (Both.mapM (read_named h hst) args.fixed).bind fun hfixed => ?_
  split
  · exact .ok (List.rel_append hfixed h.multi)
  · exact .ok (List.rel_append hfixed .nil)

theorem write_named (h : f.Named ρ f') (hst : st.Named ρ st') (s : SlotRef) {v v' : Value}
    (hv : v.Named ρ v') :
    Both (fun x x' => x.1.Named ρ x'.1 ∧ x.2.Named ρ x'.2) (f.write st s v)
      (f'.write st' s v') :=
  (Window.set_named h.window hst s hv).bind fun hx => .ok ⟨{ h with window := hx.1 }, hx.2⟩

theorem writeAll_named : ∀ (slots : List SlotRef) {f f' : Frame} {st st' : Store}
    {vs vs' : List Value}, f.Named ρ f' → st.Named ρ st' → ρ.Values vs vs' →
    Both (fun x x' => x.1.Named ρ x'.1 ∧ x.2.Named ρ x'.2) (f.writeAll st slots vs)
      (f'.writeAll st' slots vs')
  | [], _, _, _, _, _, _, h, hst, _ => .ok ⟨h, hst⟩
  | s :: slots, _, _, _, _, _, _, h, hst, hvs =>
    (write_named h hst s (headD_named hvs)).bind fun hx =>
      writeAll_named slots hx.1 hx.2 (tail_named hvs)

theorem receive_named (h : f.Named ρ f') (hst : st.Named ρ st') (receiver : Receiver)
    {vs vs' : List Value} (hvs : ρ.Values vs vs') :
    Both (fun x x' => x.1.Named ρ x'.1 ∧ x.2.Named ρ x'.2) (f.receive st receiver vs)
      (f'.receive st' receiver vs') := by
  cases receiver with
  | discard => exact .ok ⟨h, hst⟩
  | one dst => exact write_named h hst dst (headD_named hvs)
  | fixed dsts => exact writeAll_named dsts h hst hvs
  | multi => exact .ok ⟨{ h with multi := hvs }, hst⟩

end Frame

namespace Activation

variable {a a' : Activation}

/-- What an instruction leads to: stores and progress that correspond. -/
abbrev Alike (ρ : Naming) : Store × Progress Activation → Store × Progress Activation → Prop :=
  fun x x' => x.1.Named ρ x'.1 ∧ x.2.Like ρ.likeness x'.2

theorem upvalue_named (h : a.Like ρ.likeness a') (i : Nat) :
    Both (CellId.Named ρ) (a.upvalue i) (a'.upvalue i) := by
  have hupvalues : Aligned (· = ·) (CellId.Named ρ) a.closure.upvalues a'.closure.upvalues :=
    h.closure.upvalues
  have hheld := hupvalues.held (rfl : i = i)
  simp only [upvalue, hupvalues.size_eq]
  generalize a.closure.upvalues[i]? = c, a'.closure.upvalues[i]? = c' at hheld
  cases hheld with
  | some hc => exact .ok hc
  | none => exact .error _

theorem capturedCell_named (h : a.Like ρ.likeness a') (source : CaptureSource) :
    Both (CellId.Named ρ) (a.capturedCell source) (a'.capturedCell source) := by
  cases source with
  | register r => exact Window.cell_named h.frame.window r
  | upvalue i => exact upvalue_named h i

theorem assign_named (h : a.Like ρ.likeness a') (hst : st.Named ρ st') (dst : SlotRef)
    {v v' : Value} (hv : v.Named ρ v') :
    Both (Alike ρ) (a.assign st dst v) (a'.assign st' dst v') :=
  (Frame.write_named h.frame hst dst hv).map fun hx => ⟨hx.2, .runs { h with frame := hx.1 }⟩

theorem request_named {f f' : Frame} (h : f.Named ρ f') (hst : st.Named ρ st')
    (question : Question) :
    Both (Request.Like ρ.likeness) (request f st question) (request f' st' question) := by
  have hread := Frame.read_named h hst
  cases question with
  | arith op x y => exact (hread x).bind fun hx => (hread y).bind fun hy => .ok (.arith hx hy)
  | length src => exact (hread src).bind fun hv => .ok (.length hv)
  | index table key =>
    exact (hread table).bind fun ht => (hread key).bind fun hk => .ok (.index ht hk)
  | call target args =>
    exact (Window.get_named h.window hst target).bind fun ht =>
      (Frame.arguments_named h hst args).bind fun hargs => .ok (.call ht hargs)

theorem makeClosure_named (h : a.Like ρ.likeness a') (hst : st.Named ρ st') (dst : SlotRef)
    (proto : Nat) : Both (Alike ρ) (a.makeClosure st dst proto) (a'.makeClosure st' dst proto) := by
  have hcode : a.closure.code = a'.closure.code := h.closure.code
  have hnested : a.nestedCode proto = a'.nestedCode proto := by simp only [nestedCode, hcode]
  refine (Both.of_eq hnested).bind fun {code _} heq => ?_
  subst heq
  refine (Both.mapM (capturedCell_named h) code.upvalues).bind fun {cells cells'} hcells => ?_
  have hclosure : Closure.Named ρ ⟨code, cells.toArray⟩ ⟨code, cells'.toArray⟩ :=
    ⟨rfl, Aligned.iff_toList.mpr hcells⟩
  obtain ⟨hid, hst⟩ := hst.addClosure hclosure
  exact assign_named h hst dst (.function (.closure hid))

theorem keyFor_named {k k' : Value} (h : k.Named ρ k') :
    Both (Key.Named ρ) (Table.keyFor k) (Table.keyFor k') := by
  have hkey := h.key?
  simp only [Table.keyFor, h.isNil]
  generalize k.key? = key, k'.key? = key' at hkey
  cases hkey with
  | some hk => exact .ok hk
  | none => exact .error _

theorem setIndex_named (h : a.Like ρ.likeness a') (hst : st.Named ρ st') {t t' : Value}
    (ht : t.Named ρ t') (key value : Source) :
    Both (Alike ρ) (a.setIndex st t key value) (a'.setIndex st' t' key value) := by
  have htype := ht.typeName
  cases ht with
  | table hid =>
    refine (Frame.read_named h.frame hst key).bind fun {k k'} hk => ?_
    refine (Frame.read_named h.frame hst value).bind fun {v v'} hv => ?_
    have hkey := keyFor_named hk
    generalize Table.keyFor k = x, Table.keyFor k' = x' at hkey
    cases hkey with
    | ok hk => exact .ok ⟨hst.modifyTable hid fun ht => ht.set hk hv, .runs h⟩
    | error e => exact .ok ⟨hst, .fails _⟩
  | _ =>
    simp only [setIndex, htype]
    exact .ok ⟨hst, .fails _⟩

theorem arithRaw_named (h : a.Like ρ.likeness a') (hst : st.Named ρ st') (op : ArithOp)
    (dst : SlotRef) {x x' y y' : Value} (hx : x.Named ρ x') (hy : y.Named ρ y') :
    Both (Alike ρ) (a.arithRaw st op dst x y) (a'.arithRaw st' op dst x' y') := by
  simp only [arithRaw, ← hx.rawArithmetic? hy, hx.arithmeticCulprit hy]
  split
  · next hraw => exact assign_named h hst dst (rawArithmetic?_named hraw)
  · exact .ok ⟨hst, .fails _⟩
  · exact .ok ⟨hst, .fails _⟩

theorem compare_named (h : a.Like ρ.likeness a') (hst : st.Named ρ st') (op : CompareOp)
    (dst : SlotRef) {x x' y y' : Value} (hx : x.Named ρ x') (hy : y.Named ρ y') :
    Both (Alike ρ) (a.compare st op dst x y) (a'.compare st' op dst x' y') := by
  simp only [compare, hst.compare op hx hy]
  split
  · exact assign_named h hst dst (.boolean _)
  · exact .ok ⟨hst, .fails _⟩

/-- An instruction does the same to activations that correspond. -/
theorem execute_named (h : a.Like ρ.likeness a') (hst : st.Named ρ st') {vs vs' : List Value}
    (hvs : ρ.Values vs vs') (instr : Instr) :
    Both (Alike ρ) (a.execute st vs instr) (a'.execute st' vs' instr) := by
  have hframe : a.frame.Named ρ a'.frame := h.frame
  have hread := Frame.read_named hframe hst
  cases instr with
  | move dst src => exact (hread src).bind fun hv => assign_named h hst dst hv
  | getUpvalue dst i =>
    exact (upvalue_named h i).bind fun hcell => assign_named h hst dst (hst.cell hcell)
  | setUpvalue i src =>
    exact (hread src).bind fun hv => (upvalue_named h i).bind fun hcell =>
      .ok ⟨hst.setCell hcell hv, .runs h⟩
  | newTable dst =>
    obtain ⟨hid, hst⟩ := hst.addTable Table.empty_named
    exact assign_named h hst dst (.table hid)
  | setIndex table key value =>
    exact (Window.get_named hframe.window hst table).bind fun ht =>
      setIndex_named h hst ht key value
  | capture r =>
    exact (Window.capture_named hframe.window hst r).bind fun hx =>
      .ok ⟨hx.2, .runs { h with frame := { hframe with window := hx.1 } }⟩
  | uncapture r =>
    exact (Window.uncapture_named hframe.window hst r).bind fun hw =>
      .ok ⟨hst, .runs { h with frame := { hframe with window := hw } }⟩
  | closure dst proto => exact makeClosure_named h hst dst proto
  | ask question point =>
    have hpoint : Frame.Named ρ { a.frame with point := point } { a'.frame with point := point } :=
      { hframe with point := rfl }
    exact (request_named hpoint hst question).bind fun hq =>
      .ok ⟨hst, .asks { h with frame := hpoint } hq⟩
  | arithRaw op dst x y =>
    exact (hread x).bind fun hx => (hread y).bind fun hy => arithRaw_named h hst op dst hx hy
  | not dst src =>
    refine (hread src).bind fun hv => ?_
    rw [hv.isTruthy]
    exact assign_named h hst dst (.boolean _)
  | compare op dst x y =>
    exact (hread x).bind fun hx => (hread y).bind fun hy => compare_named h hst op dst hx hy
  | receive receiver =>
    exact (Frame.receive_named hframe hst receiver hvs).map fun hx =>
      ⟨hx.2, .runs { h with frame := hx.1 }⟩
  | vararg receiver =>
    exact (Frame.receive_named hframe hst receiver hframe.varargs).map fun hx =>
      ⟨hx.2, .runs { h with frame := hx.1 }⟩
  | jump target => exact .ok ⟨hst, .runs { h with pc := rfl }⟩
  | jumpIfFalse cond target =>
    refine (Window.get_named hframe.window hst cond).bind fun hv => ?_
    rw [hv.isTruthy]
    split
    · exact .ok ⟨hst, .runs h⟩
    · exact .ok ⟨hst, .runs { h with pc := rfl }⟩
  | ret args =>
    exact (Frame.arguments_named hframe hst args).bind fun hargs => .ok ⟨hst, .returns hargs⟩
  | tailCall target args =>
    exact (Window.get_named hframe.window hst target).bind fun ht =>
      (Frame.arguments_named hframe hst args).bind fun hargs => .ok ⟨hst, .tailCalls ht hargs⟩

/-- **Activations that correspond take steps that do.** -/
theorem advance_named (h : a.Like ρ.likeness a') (hst : st.Named ρ st') {vs vs' : List Value}
    (hvs : ρ.Values vs vs') : Both (Alike ρ) (a.advance st vs) (a'.advance st' vs') := by
  have hcode : a.closure.code = a'.closure.code := h.closure.code
  have hinstr : a.instr = a'.instr := by simp only [instr, hcode, h.pc]
  refine (Both.of_eq hinstr).bind fun {i _} heq => ?_
  subst heq
  have hnext : Activation.Like ρ.likeness { a with pc := a.pc + 1 } { a' with pc := a'.pc + 1 } :=
    { h with pc := congrArg (· + 1) h.pc }
  exact execute_named hnext hst hvs i

end Activation

end ResumableVM
