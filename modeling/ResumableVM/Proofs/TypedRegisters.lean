import ResumableVM.Machine.Request
import ResumableVM.Proofs.Positions

/-! # TypedRegisters: operations keep the types of registers

`TypeSeq.Fits` says that every register in place holds a value of its type; what is in a cell can
change at any call, so nothing is said of it. Reading gives a value of the type that is known
(`staticType_value`), arithmetic a value of the type that its operands promise
(`rawArithmetic?_of_isNumeric`), and registers fit what is known after an operation
(`fits_perform`), also when the operation was answered from elsewhere (`fits_answered`). -/

namespace ResumableVM

/-! ### Numbers -/

/-- The values of numeric types are numbers. -/
theorem Value.exists_number {v : Value} (h : v.staticType.isNumeric = true) :
    ∃ n : Number, v.toNumber? = some n ∧ v = n.toValue := by
  cases v with
  | integer n => exact ⟨.integer n, rfl, rfl⟩
  | float x => exact ⟨.float x, rfl, rfl⟩
  | _ => cases h

theorem ValueType.isNumeric_iff {t : ValueType} :
    t.isNumeric = true ↔ t = number ∨ t = integer ∨ t = float := by
  cases t <;> decide

/-- **The result of arithmetic** has the type that the types of the operands promise. -/
theorem ArithOp.staticType_apply {op : ArithOp} {a b n : Number} (h : op.apply a b = .ok n) :
    n.toValue.staticType = op.resultType a.toValue.staticType b.toValue.staticType := by
  have hfloat : ∀ s t : ValueType, s.isNumeric = true → t.isNumeric = true →
      s = .float ∨ t = .float → op.resultType s t = .float := by
    intro s t hs ht hst
    simp only [resultType, hs, ht]
    cases op <;> simp [hst]
  cases a with
  | float x => cases h; exact (hfloat _ _ rfl (by cases b <;> rfl) (Or.inl rfl)).symm
  | integer x =>
    cases b with
    | float y => cases h; exact (hfloat _ _ rfl rfl (Or.inr rfl)).symm
    | integer y =>
      cases op with
      | floorDivide | modulo =>
        simp only [apply, onIntegers] at h
        split at h
        · cases h
        · cases h; rfl
      | _ => cases h; rfl

/-- More precise operands have a more precise result. -/
theorem ArithOp.resultType_mono {op : ArithOp} {s s' t t' : ValueType}
    (hs : s.isSubtypeOf s' = true) (ht : t.isSubtypeOf t' = true) (hs' : s'.isNumeric = true)
    (ht' : t'.isNumeric = true) :
    (op.resultType s t).isSubtypeOf (op.resultType s' t') = true := by
  have hns := ValueType.isNumeric_iff.mp (ValueType.isNumeric_of_isSubtypeOf hs hs')
  have hnt := ValueType.isNumeric_iff.mp (ValueType.isNumeric_of_isSubtypeOf ht ht')
  rw [ValueType.isNumeric_iff] at hs' ht'
  rcases hns with rfl | rfl | rfl <;> rcases hs' with rfl | rfl | rfl <;>
    first
    | exact absurd hs (by decide)
    | rcases hnt with rfl | rfl | rfl <;> rcases ht' with rfl | rfl | rfl <;>
        first
        | exact absurd ht (by decide)
        | cases op <;> rfl

/-- **Arithmetic on operands of known numeric types** has an answer, and its value is of the type of
the result. -/
theorem rawArithmetic?_of_isNumeric (op : ArithOp) {x y : Value} {s t : ValueType}
    (hx : x.staticType.isSubtypeOf s = true) (hy : y.staticType.isSubtypeOf t = true)
    (hs : s.isNumeric = true) (ht : t.isNumeric = true) :
    ∃ answer, rawArithmetic? op x y = some answer ∧
      ∀ v, answer = .ok v → v.staticType.isSubtypeOf (op.resultType s t) = true := by
  obtain ⟨a, ha, rfl⟩ := Value.exists_number (ValueType.isNumeric_of_isSubtypeOf hx hs)
  obtain ⟨b, hb, rfl⟩ := Value.exists_number (ValueType.isNumeric_of_isSubtypeOf hy ht)
  refine ⟨(op.apply a b).map Number.toValue, by simp [rawArithmetic?, ha, hb], ?_⟩
  intro v hv
  cases hn : op.apply a b with
  | error e => rw [hn] at hv; cases hv
  | ok n =>
    rw [hn] at hv
    cases hv
    rw [ArithOp.staticType_apply hn]
    exact ArithOp.resultType_mono hx hy hs ht

/-! ### Registers in place -/

/-- Every register in place holds a value of its type. -/
def TypeSeq.Fits (types : TypeSeq) (w : Window) : Prop :=
  ∀ (r : Nat) (v : Value), w.slots[r]? = some (.plain v) →
    v.staticType.isSubtypeOf (types.get r) = true

namespace TypeSeq.Fits

variable {types : TypeSeq} {w : Window} {st : Store}

theorem mono {types' : TypeSeq} (h : types.Fits w)
    (hle : ∀ r < w.size, (types.get r).isSubtypeOf (types'.get r) = true) : types'.Fits w := by
  intro r v hr
  exact ValueType.isSubtypeOf_trans (h r v hr) (hle r (Array.getElem?_eq_some_iff.mp hr).1)

/-- A value of a type is put into a register. -/
theorem assign (h : types.Fits w) (hlen : types.fixed.length = w.size) {r : Nat} {v : Value}
    {t : ValueType} (hv : v.staticType.isSubtypeOf t = true) :
    (types.set r t).Fits (w.assign st r v).1 := by
  intro i u hi
  have hlt : i < types.fixed.length := by
    have := (Array.getElem?_eq_some_iff.mp hi).1
    have hsize : (w.assign st r v).1.size = w.size := by
      rw [← Window.length_states, Window.states_assign, Window.length_states]
    rw [hlen, ← hsize]
    exact this
  unfold Window.assign at hi
  split at hi
  · next c hc =>
    have hne : r ≠ i := by
      rintro rfl
      cases hc.symm.trans hi
    rw [get_set_of_ne _ hne]
    exact h i u hi
  · by_cases hir : r = i
    · subst hir
      have hput : (w.put r (.plain v)).slots[r]? = some (.plain v) := by
        have : r < w.slots.size := lt_of_lt_of_eq hlt hlen
        simp [Window.put, this]
      cases hput.symm.trans hi
      rwa [get_set _ hlt]
    · rw [get_set_of_ne _ hir]
      refine h i u ?_
      simpa [Window.put, hir] using hi

/-- Sharing takes registers out of their places. -/
theorem share (h : types.Fits w) (r : Nat) : types.Fits (w.share st r).1 := by
  intro i u hi
  unfold Window.share at hi
  split at hi
  · by_cases hir : r = i
    · subst hir
      simp only [Window.put, Array.getElem?_setIfInBounds_self] at hi
      split at hi <;> cases hi
    · refine h i u ?_
      simpa [Window.put, hir] using hi
  · exact h i u hi

theorem shareAll : ∀ {rs : List Nat} {s : Scope Window} {st : Store}, types.Fits s.file →
    types.Fits (s.shareAll st rs).1.file
  | [], _, _, h => h
  | r :: _, s, st, h =>
    shareAll (s := ⟨(s.file.share st r).1, s.varargs, s.multi⟩) (share h r)

theorem assignAll : ∀ {rs : List Nat} {types : TypeSeq} {s : Scope Window} {st : Store}
    {vs : List Value}, types.Fits s.file → types.fixed.length = s.file.size →
      (types.setAll (rs.map (·, .any))).Fits (s.assignAll st rs vs).1.file
  | [], _, _, _, _, h, _ => h
  | r :: rs, types, s, st, vs, h, hlen => by
    have hsize : (s.file.assign st r (vs.headD .nil)).1.size = s.file.size := by
      rw [← Window.length_states, Window.states_assign, Window.length_states]
    exact assignAll (s := ⟨(s.file.assign st r (vs.headD .nil)).1, s.varargs, s.multi⟩)
      (assign h hlen (ValueType.isSubtypeOf_any _))
      (by show (types.fixed.set r .any).length = _; rw [List.length_set, hlen]; exact hsize.symm)

/-- What is known after captured registers are forgotten. -/
theorem forget {before after : SlotStates} (hlen : before.length = after.length)
    (htypes : types.fixed.length = w.size)
    (h : ∀ (r : Nat) (v : Value), w.slots[r]? = some (.plain v) →
      before.of r = .captured ∨ v.staticType.isSubtypeOf (types.get r) = true) :
    (forgetCaptured before after types).Fits w := by
  intro r v hr
  have hlt : r < w.size := (Array.getElem?_eq_some_iff.mp hr).1
  rw [get_forgetCaptured hlen (htypes.symm ▸ hlt)]
  split
  · exact ValueType.isSubtypeOf_any _
  · next hneither =>
    exact (h r v hr).resolve_left fun hb => hneither (Or.inl hb)

end TypeSeq.Fits

/-- A register that is in place after a close was captured before, or has kept its value. -/
theorem Window.slots_close {w : Window} {st : Store} {r i : Nat} {v : Value}
    (h : (w.close st r).slots[i]? = some (.plain v)) :
    w.states.of i = .captured ∨ w.slots[i]? = some (.plain v) := by
  unfold close at h
  split at h
  · next c hc =>
    by_cases hri : r = i
    · subst hri
      exact Or.inl (states_of_boxed hc)
    · exact Or.inr (by simpa [put, hri] using h)
  · exact Or.inr h

theorem Scope.slots_closeAll : ∀ {rs : List Nat} {s : Scope Window} {st : Store} {i : Nat}
    {v : Value}, (s.closeAll st rs).1.file.slots[i]? = some (.plain v) →
      s.file.states.of i = .captured ∨ s.file.slots[i]? = some (.plain v)
  | [], _, _, _, _, h => Or.inr h
  | r :: rs, s, st, i, v, h => by
    rcases slots_closeAll (s := ⟨s.file.close st r, s.varargs, s.multi⟩) h with hcap | hslot
    · left
      by_contra hplain
      rw [show (⟨s.file.close st r, s.varargs, s.multi⟩ : Scope Window).file.states =
        s.file.states.set r .plain from Window.states_close _ _ _] at hcap
      by_cases hri : r = i
      · subst hri
        by_cases hlt : r < s.file.states.length
        · cases (SlotStates.of_set _ _ hlt).symm.trans hcap
        · rw [List.set_eq_of_length_le (by omega)] at hcap
          exact hplain hcap
      · rw [SlotStates.of_set_of_ne _ _ hri] at hcap
        exact hplain hcap
    · exact Window.slots_close hslot

/-! ### Values that are read -/

section

variable {info : RegisterInfo} {s : Scope Window} (st : Store)

/-- **A register has a value of the type that is known.** -/
theorem staticType_value (h : info.types.Fits s.file) (hs : s.file.states = info.states)
    {r : Nat} (hr : r < s.file.size) :
    (s.value st (.register r)).staticType.isSubtypeOf (info.typeOf r) = true := by
  unfold RegisterInfo.typeOf
  split
  · exact ValueType.isSubtypeOf_any _
  · next hplain =>
    rw [← hs] at hplain
    obtain ⟨v, hv⟩ := Window.plain_of_states hr hplain
    show (Window.value s.file st r).staticType.isSubtypeOf _ = true
    simp only [Window.value, hv]
    exact h r v hv

theorem staticType_operand (h : info.types.Fits s.file) (hs : s.file.states = info.states)
    {o : Operand} (hr : ∀ r ∈ o.registers, r < s.file.size) :
    (s.value st o).staticType.isSubtypeOf (info.operandType o) = true := by
  cases o with
  | register r => exact staticType_value st h hs (hr r (by simp [Operand.registers]))
  | const c => exact ValueType.isSubtypeOf_refl _

end

/-! ### Operations -/

variable {c : Setting} {info : RegisterInfo} {s s' : Scope Window} {st st' : Store} {op : Op}

/-- What is known after an operation that leaves the states of the registers alone. -/
theorem fits_typeFlow {p : Procedure} (hsized : p.Sized info) (hs : s.file.states = info.states)
    (hflow : p.captureFlow info.states op = info.states)
    (h : (info.types.setAll (op.writtenTypes info)).Fits s.file) :
    (p.typeFlow info op).types.Fits s.file := by
  rw [Procedure.typeFlow_types, hflow]
  refine TypeSeq.Fits.forget rfl ?_ fun r v hr => Or.inr (h r v hr)
  rw [(TypeSeq.HasLength.setAll _ hsized.types).length, ← Window.length_states, hs, hsized.states]

theorem size_eq (hsized : c.procedure.Sized info) (hs : s.file.states = info.states) :
    s.file.size = c.procedure.registers := by
  rw [← Window.length_states, hs, hsized.states]

/-- A value of the type that the operation writes is put into a register. -/
theorem fits_assign (hsized : c.procedure.Sized info) (hs : s.file.states = info.states)
    (h : info.types.Fits s.file) (hflow : c.procedure.captureFlow info.states op = info.states)
    {dst : Nat} {t : ValueType} (hwritten : op.writtenTypes info = [(dst, t)]) {v : Value}
    (hv : v.staticType.isSubtypeOf t = true) :
    (c.procedure.typeFlow info op).types.Fits (s.assign st dst v).1.file := by
  have hlen : info.types.fixed.length = s.file.size := by
    rw [hsized.types.length, size_eq hsized hs]
  refine fits_typeFlow hsized ((Scope.states_assign _ _ _ _).trans hs) hflow ?_
  rw [hwritten]
  exact h.assign hlen hv

/-- Results of any types are received. -/
theorem fits_receive (hsized : c.procedure.Sized info) (hs : s.file.states = info.states)
    (h : info.types.Fits s.file) (hflow : c.procedure.captureFlow info.states op = info.states)
    {results : Results} (hwritten : op.writtenTypes info = results.registers.map (·, .any))
    (vs : List Value) :
    (c.procedure.typeFlow info op).types.Fits (s.receive st results vs).1.file := by
  have hlen : info.types.fixed.length = s.file.size := by
    rw [hsized.types.length, size_eq hsized hs]
  refine fits_typeFlow hsized ((Scope.states_receive _ _ _ _).trans hs) hflow ?_
  rw [hwritten]
  cases results with
  | fixed rs => exact TypeSeq.Fits.assignAll h hlen
  | multi => exact h

/-- **An operation keeps the types of registers.** -/
theorem fits_perform (hop : c.procedure.ValidOp op) (hsized : c.procedure.Sized info)
    (hs : s.file.states = info.states) (h : info.types.Fits s.file)
    (hperform : c.perform s st op = .goesOn s' st') :
    (c.procedure.typeFlow info op).types.Fits s'.file := by
  have hsize := size_eq hsized hs
  have hlen : info.types.fixed.length = s.file.size := by rw [hsized.types.length, hsize]
  have hreg : ∀ r ∈ op.registers, r < s.file.size := fun r hr => hsize.symm ▸ hop.registers r hr
  cases op with
  | move dst src =>
    cases hperform
    exact fits_assign hsized hs h rfl rfl
      (staticType_value st h hs (hreg src (by simp [Op.registers])))
  | load dst value =>
    cases hperform
    exact fits_assign hsized hs h rfl rfl (ValueType.isSubtypeOf_refl _)
  | getUpvalue dst i =>
    cases hperform
    exact fits_assign hsized hs h rfl rfl (ValueType.isSubtypeOf_any _)
  | setUpvalue i src =>
    cases hperform
    exact fits_typeFlow hsized hs rfl h
  | newTable dst =>
    cases hperform
    exact fits_assign hsized hs h rfl rfl (ValueType.isSubtypeOf_refl _)
  | setIndex table key value =>
    simp only [Setting.perform, Setting.setIndex] at hperform
    split at hperform
    · split at hperform
      · cases hperform
        exact fits_typeFlow hsized hs rfl h
      · cases hperform
    · cases hperform
  | unary dst op src =>
    cases op with
    | not =>
      cases hperform
      exact fits_assign hsized hs h rfl rfl (ValueType.isSubtypeOf_refl _)
    | _ => cases hperform
  | compare dst op x y =>
    simp only [Setting.perform, Setting.keep] at hperform
    split at hperform
    · cases hperform
      exact fits_assign hsized hs h rfl rfl (ValueType.isSubtypeOf_refl _)
    · cases hperform
  | closure dst proto =>
    cases hperform
    rw [Procedure.typeFlow_types]
    have hshared : (s.shareAll st (c.procedure.capturedBy proto)).1.file.size = s.file.size :=
      Scope.size_shareAll s st _
    have hassigned : ∀ (st' : Store) (id : ClosureId), (info.types.set dst .function).Fits
        ((s.shareAll st (c.procedure.capturedBy proto)).1.assign st' dst (.closure id)).1.file :=
      fun st' id => (TypeSeq.Fits.shareAll h).assign (hlen.trans hshared.symm)
        (ValueType.isSubtypeOf_refl _)
    refine TypeSeq.Fits.forget (Procedure.length_captureFlow _ _).symm ?_
      fun r v hr => Or.inr (hassigned _ _ r v hr)
    show (info.types.fixed.set dst .function).length = Window.size _
    rw [List.length_set, hlen, ← hshared, ← Window.length_states, ← Window.length_states]
    exact congrArg List.length (Scope.states_assign _ _ _ _).symm
  | close rs =>
    cases hperform
    rw [Procedure.typeFlow_types]
    refine TypeSeq.Fits.forget (Procedure.length_captureFlow _ _).symm ?_ fun r v hr => ?_
    · exact hlen.trans (Scope.size_closeAll s st rs).symm
    · rw [← hs]
      exact (Scope.slots_closeAll hr).imp_right (h r v)
  | vararg results =>
    cases hperform
    exact fits_receive hsized hs h rfl rfl _
  | index | arith | call => cases hperform

/-! ### Answers -/

theorem ArithOp.resultType_of_not_isNumeric {op : ArithOp} {t u : ValueType}
    (h : ¬ (t.isNumeric = true ∧ u.isNumeric = true)) : op.resultType t u = .any := by
  unfold resultType
  rw [if_pos]
  cases ht : t.isNumeric <;> cases hu : u.isNumeric <;> simp_all

theorem UnaryOp.resultType_negate (t : ValueType) :
    negate.resultType t = ArithOp.negate.resultType t t := by
  cases t <;> rfl

/-- The answer to arithmetic on operands of known types is put into a register. -/
theorem fits_arith {limit : Nat} (hsized : c.procedure.Sized info)
    (hs : s.file.states = info.states) (h : info.types.Fits s.file)
    (hflow : c.procedure.captureFlow info.states op = info.states) {aop : ArithOp} {dst : Nat}
    {x y : Operand} (hx : ∀ r ∈ x.registers, r < s.file.size)
    (hy : ∀ r ∈ y.registers, r < s.file.size)
    (hwritten : op.writtenTypes info =
      [(dst, aop.resultType (info.operandType x) (info.operandType y))])
    {vs : List Value}
    (hans : (Request.arith aop (s.value st x) (s.value st y)).Answers limit st st' vs) :
    (c.procedure.typeFlow info op).types.Fits (s.receive st' (Setting.into dst) vs).1.file := by
  by_cases hnum : (info.operandType x).isNumeric = true ∧ (info.operandType y).isNumeric = true
  · obtain ⟨answer, hanswer, htype⟩ := rawArithmetic?_of_isNumeric aop
      (staticType_operand st h hs hx) (staticType_operand st h hs hy)
      hnum.1 hnum.2
    simp only [Request.Answers, Store.resolve, Store.resolveArith, hanswer] at hans
    cases answer with
    | error e => exact hans.elim
    | ok v =>
      obtain ⟨-, rfl⟩ := hans
      exact fits_assign hsized hs h hflow hwritten (htype v rfl)
  · rw [ArithOp.resultType_of_not_isNumeric hnum] at hwritten
    exact @fits_receive c info s st' op hsized hs h hflow (.fixed [dst]) hwritten vs

/-- **An answer keeps the types of registers**, whatever a call has done to the store. -/
theorem fits_answered {limit : Nat} {request : Request} {results : Results} {vs : List Value}
    (hop : c.procedure.ValidOp op) (hsized : c.procedure.Sized info)
    (hs : s.file.states = info.states) (h : info.types.Fits s.file)
    (hperform : c.perform s st op = .asks request results)
    (hans : request.Answers limit st st' vs) :
    (c.procedure.typeFlow info op).types.Fits (s.receive st' results vs).1.file := by
  have hreg : ∀ r ∈ op.registers, r < s.file.size := fun r hr =>
    (size_eq hsized hs).symm ▸ hop.registers r hr
  have hflow := (Setting.captureFlow_of_asks (p := c.procedure) hperform info.states).1
  cases op with
  | index dst table key =>
    cases hperform
    exact fits_receive hsized hs h hflow rfl vs
  | call target args results =>
    cases hperform
    exact fits_receive hsized hs h hflow rfl vs
  | arith dst op x y =>
    cases hperform
    simp only [Op.registers, List.forall_mem_cons, List.forall_mem_append] at hreg
    exact fits_arith hsized hs h hflow hreg.2.1 hreg.2.2 rfl hans
  | unary dst op src =>
    simp only [Op.registers, List.forall_mem_cons] at hreg
    cases op with
    | not => cases hperform
    | negate =>
      cases hperform
      refine fits_arith hsized hs h hflow hreg.2 hreg.2 ?_ hans
      rw [← UnaryOp.resultType_negate]
      rfl
    | length =>
      cases hperform
      by_cases hstring : info.operandType src = .string
      · have htype := staticType_operand st h hs hreg.2
        rw [hstring, ValueType.isSubtypeOf_iff] at htype
        cases hv : s.value st src with
        | string text =>
          simp only [Request.Answers, Store.resolve, Store.resolveLength, hv] at hans
          obtain ⟨-, rfl⟩ := hans
          refine fits_assign hsized hs h hflow rfl ?_
          rw [hstring]
          exact ValueType.isSubtypeOf_refl _
        | _ => rw [hv] at htype; simp [Value.staticType] at htype
      · refine fits_receive hsized hs h hflow ?_ vs
        simp [Op.writtenTypes, UnaryOp.resultType, hstring, Setting.into, Results.registers]
  | setIndex table key value =>
    simp only [Setting.perform, Setting.setIndex] at hperform
    split at hperform
    · split at hperform <;> cases hperform
    · cases hperform
  | compare dst op x y =>
    simp only [Setting.perform, Setting.keep] at hperform
    split at hperform <;> cases hperform
  | _ => cases hperform

/-! ### Calls -/

namespace Activation

variable {p : Procedure} {codes : List Code} {b i : Nat} {info : RegisterInfo} {a : Activation}
  {st st' : Store} {op : Op}

/-- Registers fit what is known behind an operation that was carried out. -/
theorem StandsAt.fits_perform (h : a.StandsAt p codes b i info)
    (hfits : info.types.Fits a.frame.window) (ho : (p.opsOf b)[i]? = some op) {s : Scope Window}
    (hperform : (a.closure.setting p codes).perform a.frame.scope st op = .goesOn s st') :
    (p.typeFlow info op).types.Fits s.file :=
  ResumableVM.fits_perform (c := a.closure.setting p codes)
    (Procedure.validOp_of_getElem? h.implements.valid ho)
    (Procedure.sized_infoAt h.implements.valid h.known) h.states hfits hperform

/-- Registers fit what is known behind an operation that was answered. -/
theorem StandsAt.fits_answered {limit : Nat} {request : Request} {results : Results}
    {vs : List Value} (h : a.StandsAt p codes b i info) (hfits : info.types.Fits a.frame.window)
    (ho : (p.opsOf b)[i]? = some op)
    (hperform : (a.closure.setting p codes).perform a.frame.scope st op = .asks request results)
    (hans : request.Answers limit st st' vs) :
    (p.typeFlow info op).types.Fits (a.frame.scope.receive st' results vs).1.file :=
  ResumableVM.fits_answered (c := a.closure.setting p codes)
    (Procedure.validOp_of_getElem? h.implements.valid ho)
    (Procedure.sized_infoAt h.implements.valid h.known) h.states hfits hperform hans

theorem Waits.fits_answered {limit : Nat} {request : Request} {results : Results}
    {vs : List Value} (h : a.Waits p codes b i info op results)
    (hfits : info.types.Fits a.frame.window)
    (hperform : (a.closure.setting p codes).perform a.frame.scope st op = .asks request results)
    (hans : request.Answers limit st st' vs) :
    (p.typeFlow info op).types.Fits (a.frame.scope.receive st' results vs).1.file :=
  ResumableVM.fits_answered (c := a.closure.setting p codes)
    (Procedure.validOp_of_getElem? h.implements.valid h.atOp)
    (Procedure.sized_infoAt h.implements.valid h.known) h.states hfits hperform hans

end Activation

end ResumableVM
