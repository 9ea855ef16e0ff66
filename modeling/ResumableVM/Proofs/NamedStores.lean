import ResumableVM.Proofs.Likeness
import ResumableVM.Proofs.Naming

/-! # Named stores: what a store answers does not depend on names

Stores correspond under a naming when objects that stand for each other have contents that
correspond (`Store.Named`). New objects take the next free places on both sides, so the naming
already says that those stand for each other and need not grow. Whatever a store is asked for
corresponds then: what a value is called with (`callee`), what becomes of a request (`resolve`), and
comparisons come out the same (`compare`). -/

namespace ResumableVM

section Named

variable (ρ : Naming)

structure Closure.Named (c c' : Closure) : Prop where
  code : c.code = c'.code
  upvalues : Aligned (· = ·) (CellId.Named ρ) c.upvalues c'.upvalues

/-- **The same objects under other names.** -/
structure Store.Named (st st' : Store) : Prop where
  tables : Aligned ρ.table (Table.Named ρ) st.tables st'.tables
  closures : Aligned ρ.closure (Closure.Named ρ) st.closures st'.closures
  cells : Aligned ρ.cell (Value.Named ρ) st.cells st'.cells
  kinds : ∀ kind : Kind,
    Option.Rel (TableId.Named ρ) (st.kindMetatable kind) (st'.kindMetatable kind)

inductive Slot.Named : Slot → Slot → Prop
  | plain {v v' : Value} (h : v.Named ρ v') : Named (.plain v) (.plain v')
  | boxed {cell cell' : CellId} (h : cell.Named ρ cell') : Named (.boxed cell) (.boxed cell')

abbrev Window.Named (w w' : Window) : Prop := Aligned (· = ·) (Slot.Named ρ) w.slots w'.slots

/-- Values that differ in the names of objects only, one by one. -/
abbrev Naming.Values : List Value → List Value → Prop := List.Forall₂ (Value.Named ρ)

structure Frame.Named (f f' : Frame) : Prop where
  window : f.window.Named ρ f'.window
  varargs : ρ.Values f.varargs f'.varargs
  multi : ρ.Values f.multi f'.multi
  point : f.point = f'.point

structure Unpacking.Named (u u' : Unpacking) : Prop where
  object : u.object.Named ρ u'.object
  first : u.first = u'.first
  last : u.last = u'.last
  current : u.current = u'.current
  done : Aligned (· = ·) (Value.Named ρ) u.done u'.done

inductive Locals.Named : Locals → Locals → Prop
  | foreign : Named .foreign .foreign
  | values {vs vs' : List Value} (h : ρ.Values vs vs') : Named (.values vs) (.values vs')
  | integers (ns : List Int64) : Named (.integers ns) (.integers ns)
  | unpacking {u u' : Unpacking} (h : u.Named ρ u') : Named (.unpacking u) (.unpacking u')

/-- To correspond under a naming. -/
def Naming.likeness : Likeness where
  store := Store.Named ρ
  value := Value.Named ρ
  closure := Closure.Named ρ
  frame := Frame.Named ρ
  locals := Locals.Named ρ

end Named

variable {ρ : Naming}

theorem Closure.default_named : Closure.Named ρ default default :=
  ⟨rfl, Aligned.iff_toList.mpr .nil⟩

/-- A value that names no object. -/
theorem Number.toValue_named (n : Number) : n.toValue.Named ρ n.toValue := by
  cases n with
  | integer n => exact .integer n
  | float x => exact .float x

theorem Const.toValue_named (c : Const) : c.toValue.Named ρ c.toValue := by
  cases c with
  | nil => exact .nil
  | boolean b => exact .boolean b
  | integer n => exact .integer n
  | float x => exact .float x
  | string s => exact .string s

namespace Value.Named

variable {a a' b b' : Value}

theorem rawArithmetic? (ha : a.Named ρ a') (hb : b.Named ρ b') (op : ArithOp) :
    ResumableVM.rawArithmetic? op a b = ResumableVM.rawArithmetic? op a' b' := by
  simp only [ResumableVM.rawArithmetic?, ha.toNumber?, hb.toNumber?]

theorem arithmeticCulprit (ha : a.Named ρ a') (hb : b.Named ρ b') :
    (ResumableVM.arithmeticCulprit a b).typeName
      = (ResumableVM.arithmeticCulprit a' b').typeName := by
  simp only [ResumableVM.arithmeticCulprit, ha.toNumber?]
  split
  · exact ha.typeName
  · exact hb.typeName

theorem rawCompare? (ha : a.Named ρ a') (hb : b.Named ρ b') :
    ResumableVM.rawCompare? a b = ResumableVM.rawCompare? a' b' := by
  cases ha <;> cases hb <;> rfl

theorem isOrdered (ha : a.Named ρ a') : Store.isOrdered a = Store.isOrdered a' := by
  cases ha <;> rfl

end Value.Named

/-- Arithmetic answers with numbers. -/
theorem rawArithmetic?_named {op : ArithOp} {a b v : Value}
    (h : rawArithmetic? op a b = some (.ok v)) : v.Named ρ v := by
  simp only [rawArithmetic?, Option.bind_eq_bind, Option.bind_eq_some_iff, Option.pure_def,
    Option.some.injEq] at h
  obtain ⟨x, -, y, -, h⟩ := h
  obtain ⟨n, -, rfl⟩ := map_eq_ok_iff.mp h
  exact n.toValue_named

namespace Store.Named

variable {st st' : Store}

theorem table (h : st.Named ρ st') {id id' : TableId} (hid : id.Named ρ id') :
    (st.table id).Named ρ (st'.table id') := h.tables.getD hid Table.empty_named

theorem closure (h : st.Named ρ st') {id id' : ClosureId} (hid : id.Named ρ id') :
    (st.closure id).Named ρ (st'.closure id') := h.closures.getD hid Closure.default_named

theorem cell (h : st.Named ρ st') {id id' : CellId} (hid : id.Named ρ id') :
    (st.cell id).Named ρ (st'.cell id') := h.cells.getD hid .nil

/-! Changes -/

theorem addTable (h : st.Named ρ st') {t t' : Table} (ht : t.Named ρ t') :
    (st.addTable t).1.Named ρ (st'.addTable t').1 ∧
      (st.addTable t).2.Named ρ (st'.addTable t').2 :=
  ⟨h.tables.fresh 0, { h with tables := h.tables.push ρ.tables ht }⟩

theorem addClosure (h : st.Named ρ st') {c c' : Closure} (hc : c.Named ρ c') :
    (st.addClosure c).1.Named ρ (st'.addClosure c').1 ∧
      (st.addClosure c).2.Named ρ (st'.addClosure c').2 :=
  ⟨h.closures.fresh 0, { h with closures := h.closures.push ρ.closures hc }⟩

theorem addCell (h : st.Named ρ st') {v v' : Value} (hv : v.Named ρ v') :
    (st.addCell v).1.Named ρ (st'.addCell v').1 ∧
      (st.addCell v).2.Named ρ (st'.addCell v').2 :=
  ⟨h.cells.fresh 0, { h with cells := h.cells.push ρ.cells hv }⟩

theorem setCell (h : st.Named ρ st') {id id' : CellId} (hid : id.Named ρ id') {v v' : Value}
    (hv : v.Named ρ v') : (st.setCell id v).Named ρ (st'.setCell id' v') :=
  { h with cells := h.cells.set ρ.cells hid hv }

theorem modifyTable (h : st.Named ρ st') {id id' : TableId} (hid : id.Named ρ id')
    {f f' : Table → Table} (hf : ∀ {t t' : Table}, t.Named ρ t' → (f t).Named ρ (f' t')) :
    (st.modifyTable id f).Named ρ (st'.modifyTable id' f') :=
  { h with tables := h.tables.modify ρ.tables hid hf }

/-! Answers -/

theorem metatableOf (h : st.Named ρ st') {v v' : Value} (hv : v.Named ρ v') :
    Option.Rel (TableId.Named ρ) (st.metatableOf v) (st'.metatableOf v') := by
  cases hv with
  | table hid => exact (h.table hid).metatable
  | _ => exact h.kinds _

theorem handler (h : st.Named ρ st') {v v' : Value} (hv : v.Named ρ v') (event : Event) :
    (st.handler v event).Named ρ (st'.handler v' event) := by
  have hmeta := h.metatableOf hv
  unfold Store.handler
  generalize st.metatableOf v = m, st'.metatableOf v' = m' at hmeta
  cases hmeta with
  | some hm => exact (h.table hm).getString _
  | none => exact .nil

theorem binaryHandler (h : st.Named ρ st') {a a' b b' : Value} (ha : a.Named ρ a')
    (hb : b.Named ρ b') (event : Event) :
    (st.binaryHandler a b event).Named ρ (st'.binaryHandler a' b' event) := by
  simp only [Store.binaryHandler, (h.handler ha event).isNil]
  split
  · exact h.handler hb event
  · exact h.handler ha event

theorem rawEntry (h : st.Named ρ st') {v v' k k' : Value} (hv : v.Named ρ v')
    (hk : k.Named ρ k') : (st.rawEntry v k).Named ρ (st'.rawEntry v' k') := by
  cases hv with
  | table hid => exact (h.table hid).rawGet hk
  | _ => exact .nil

theorem function (h : st.Named ρ st') {f f' : Function} (hf : f.Named ρ f') :
    Function.Like ρ.likeness st st' f f' := by
  cases hf with
  | closure hid => exact .closure (h.closure hid)
  | routine id => exact .routine id

theorem callee (h : st.Named ρ st') {v v' : Value} (hv : v.Named ρ v') :
    Both (Callee.Like ρ.likeness st st') (st.callee v) (st'.callee v') := by
  have hhandler := h.handler hv .call
  have htype := hv.typeName
  cases hv with
  | function hf => exact .ok (.direct (h.function hf))
  | _ =>
    simp only [Store.callee, htype]
    generalize st.handler _ .call = g, st'.handler _ .call = g' at hhandler
    cases hhandler with
    | function hf => exact .ok (.handler (h.function hf))
    | _ => exact .error _

theorem resolveIndex (h : st.Named ρ st') {k k' : Value} (hk : k.Named ρ k') :
    ∀ (limit : Nat) {v v' : Value}, v.Named ρ v' →
      (st.resolveIndex k limit v).Like ρ.likeness (st'.resolveIndex k' limit v')
  | 0, _, _, _ => .error _
  | limit + 1, v, v', hv => by
    have hentry := h.rawEntry hv hk
    have hhandler := h.handler hv .index
    simp only [Store.resolveIndex, hentry.isNil, hv.typeName]
    split
    · exact .value hentry
    · generalize st.handler v .index = g, st'.handler v' .index = g' at hhandler
      cases hhandler with
      | function hf => exact .handler (.function hf) (.cons hv (.cons hk .nil))
      -- The next link of the chain: the induction is on the links that are left.
      | table hid => exact resolveIndex h hk limit (.table hid)
      | nil =>
        cases hv with
        | table hid => exact .value .nil
        | _ => exact .error _
      | _ => exact .error _

theorem resolveLength (h : st.Named ρ st') {v v' : Value} (hv : v.Named ρ v') :
    (st.resolveLength v).Like ρ.likeness (st'.resolveLength v') := by
  have hhandler := h.handler hv .length
  have hself := hv
  cases hv with
  | string s => exact .value (.integer _)
  | table hid =>
    simp only [Store.resolveLength]
    generalize st.handler _ .length = g, st'.handler _ .length = g' at hhandler
    cases hhandler with
    | function hf => exact .handler (.function hf) (.cons hself .nil)
    | _ => exact .value (h.table hid).lengthValue
  | _ =>
    simp only [Store.resolveLength]
    generalize st.handler _ .length = g, st'.handler _ .length = g' at hhandler
    cases hhandler with
    | function hf => exact .handler (.function hf) (.cons hself .nil)
    | _ => exact .error _

theorem resolveArith (h : st.Named ρ st') (op : ArithOp) {a a' b b' : Value}
    (ha : a.Named ρ a') (hb : b.Named ρ b') :
    (st.resolveArith op a b).Like ρ.likeness (st'.resolveArith op a' b') := by
  have hhandler := h.binaryHandler ha hb op.event
  simp only [Store.resolveArith, ha.arithmeticCulprit hb, ← ha.rawArithmetic? hb, hhandler.isNil]
  split
  · next hraw => exact .value (rawArithmetic?_named hraw)
  · exact .error _
  · split
    · exact .error _
    · exact .handler hhandler (.cons ha (.cons hb .nil))

/-- **What becomes of a request does not depend on names.** -/
theorem resolve (h : st.Named ρ st') (limit : Nat) {q q' : Request}
    (hq : q.Like ρ.likeness q') :
    (st.resolve limit q).Like ρ.likeness (st'.resolve limit q') := by
  cases hq with
  | call hv hvs => exact .handler hv hvs
  | index hv hk => exact h.resolveIndex hk limit hv
  | length hv => exact h.resolveLength hv
  | arith ha hb => exact h.resolveArith _ ha hb

theorem equal (h : st.Named ρ st') {a a' b b' : Value} (ha : a.Named ρ a')
    (hb : b.Named ρ b') : st.equal a b = st'.equal a' b' := by
  have hhandler := h.binaryHandler ha hb .equal
  unfold Store.equal
  rw [ha.rawEquals hb]
  cases ha with
  | table ha =>
    cases hb with
    | table hb => simp only [hhandler.isNil]
    | _ => rfl
  | _ => rfl

theorem order (h : st.Named ρ st') {a a' b b' : Value} (ha : a.Named ρ a')
    (hb : b.Named ρ b') (event : Event) : st.order a b event = st'.order a' b' event := by
  have htype : (if isOrdered a then b else a).typeName
      = (if isOrdered a' then b' else a').typeName := by
    rw [ha.isOrdered]
    split
    · exact hb.typeName
    · exact ha.typeName
  unfold Store.order
  rw [ha.rawCompare? hb, (h.binaryHandler ha hb event).isNil, htype]

/-- **Comparisons do not depend on names.** -/
theorem compare (h : st.Named ρ st') (op : CompareOp) {a a' b b' : Value} (ha : a.Named ρ a')
    (hb : b.Named ρ b') : st.compare op a b = st'.compare op a' b' := by
  cases op <;> simp only [Store.compare, less, lessEqual, h.equal ha hb, h.order ha hb]

end Store.Named

end ResumableVM
