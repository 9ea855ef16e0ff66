import ResumableVM.Proofs.Execution

/-! # Lowering: the instructions of an operation do what the operation does

An activation that stands at the lines of an operation carries them out and comes to what
`Setting.perform` says (`leads_op`), provided that its registers are in the states that the lines
were made for. Arithmetic is left open by `perform`: an activation asks for it, or computes it when
the types promise numbers. An operation without lines does nothing (`perform_of_lowerOp_eq_nil`).
Exits come to what `Exit.leave` says, with the registers that the next block expects in cells shared
on the way (`leads_exit`). -/

namespace ResumableVM

/-- A closure with the code of a valid procedure. -/
structure Closure.Implements (c : Closure) (p : Procedure) (codes : List Code) : Prop where
  valid : p.Valid
  nested : List.Forall₂ (fun n code => n.compile = .ok code) p.nested codes
  code : c.code = p.assemble codes
  upvalues : c.upvalues.size = p.upvalues.length

/-- What a call of a closure has besides its registers. -/
def Closure.setting (c : Closure) (p : Procedure) (codes : List Code) : Setting :=
  ⟨p, codes, c.upvalues⟩

namespace Activation

/-- The activation while the question at its address is under way. -/
def asking (a : Activation) (point : Nat) : Activation :=
  ⟨a.closure, { a.frame with point := point }, a.pc + 1⟩

/-- The types promise that the operand is a number. -/
structure Promised (info : RegisterInfo) (a : Activation) (o : Operand) : Prop where
  numeric : (info.operandType o).isNumeric = true
  registers : ∀ r ∈ o.registers, r < a.frame.window.size

/-- What the lines of an operation come to, against what the operation does; `next` is the address
behind them. -/
inductive Comes (info : RegisterInfo) (a : Activation) (st : Store) (next : Nat) :
    Performed Window → Store → Progress Activation → Prop
  | goesOn {s : Scope Window} {st' : Store} :
      Comes info a st next (.goesOn s st') st' (.runs (a.moved s next))
  | fails {e : Error} : Comes info a st next (.fails e) st (.fails e)
  /-- A question is made, and the line behind it receives the answer. -/
  | asks {question : Question} {point : Nat} {request : Request} {results : Results}
      (ask : a.closure.code.instrs[a.pc]? = some (.ask question point))
      (receive : a.closure.code.instrs[a.pc + 1]? =
        some (.receive (a.frame.window.states.receiver results)))
      (two : next = a.pc + 2) :
      Comes info a st next (.asks request results) st (.asks (a.asking point) request)
  /-- Arithmetic on known numbers has a result. -/
  | computes {op : ArithOp} {x y : Operand} {v : Value} {dst : Nat} (hx : Promised info a x)
      (hy : Promised info a y)
      (h : rawArithmetic? op (a.frame.scope.value st x) (a.frame.scope.value st y) = some (.ok v)) :
      Comes info a st next
        (.asks (.arith op (a.frame.scope.value st x) (a.frame.scope.value st y)) (Setting.into dst))
        (a.frame.scope.assign st dst v).2 (.runs (a.moved (a.frame.scope.assign st dst v).1 next))
  /-- Arithmetic on known numbers fails. -/
  | refuses {op : ArithOp} {x y : Operand} {dst : Nat} {e : Error} (hx : Promised info a x)
      (hy : Promised info a y)
      (h : rawArithmetic? op (a.frame.scope.value st x) (a.frame.scope.value st y) =
        some (.error e)) :
      Comes info a st next
        (.asks (.arith op (a.frame.scope.value st x) (a.frame.scope.value st y)) (Setting.into dst))
        st (.fails e)
  /-- What was known to be numbers is none. -/
  | baffled {op : ArithOp} {x y : Operand} {dst : Nat} (hx : Promised info a x)
      (hy : Promised info a y)
      (h : rawArithmetic? op (a.frame.scope.value st x) (a.frame.scope.value st y) = none) :
      Comes info a st next
        (.asks (.arith op (a.frame.scope.value st x) (a.frame.scope.value st y)) (Setting.into dst))
        st (.fails (.illegalOperation .arithmetic
          (arithmeticCulprit (a.frame.scope.value st x) (a.frame.scope.value st y)).typeName))

variable {p : Procedure} {codes : List Code} {a : Activation} {st : Store}
  {received : List Value} {M : Activation → Prop} {starts : List Nat} {types : TypeSeq}

/-- A question is made. -/
theorem leads_ask {info : RegisterInfo} {question : Question} {request : Request}
    (results : Results)
    (hl : a.closure.code.Holds starts a.pc
      (Line.askInto question (a.frame.window.states.receiver results)))
    (hq : ∀ point, Activation.request { a.frame with point := point } st question = .ok request) :
    Leads received M (a.Comes info st (a.pc + 2) (.asks request results)) a st := by
  obtain ⟨⟨point, hi, -⟩, hreceive, -⟩ := hl
  refine .of_instr hi ?_ (.asks hi hreceive rfl)
  show (do
    let r ← Activation.request { a.frame with point := point } st question
    pure (st, Progress.asks (a.asking point) r)) = _
  rw [hq point]
  rfl

/-- A value is put into a register. -/
theorem execute_assign {v : Value} {dst : Nat} (hr : dst < a.frame.window.size) :
    (a.atPc (a.pc + 1)).assign st (a.frame.window.states.slot dst) v =
      .ok ((a.frame.scope.assign st dst v).2,
        .runs (a.moved (a.frame.scope.assign st dst v).1 (a.pc + 1))) :=
  assign_slot (a := a.atPc (a.pc + 1)) st v hr

/-- Arithmetic is asked for, or carried out when the types promise numbers. -/
theorem leads_arith {op : ArithOp} {dst : Nat} {x y : Operand}
    (hl : a.closure.code.Holds starts a.pc
      (lowerArith ⟨a.frame.window.states, types⟩ op dst x y))
    (hdst : dst < a.frame.window.size) (hx : ∀ r ∈ x.registers, r < a.frame.window.size)
    (hy : ∀ r ∈ y.registers, r < a.frame.window.size) :
    Leads received M (a.Comes ⟨a.frame.window.states, types⟩ st
      (a.pc + (lowerArith ⟨a.frame.window.states, types⟩ op dst x y).length)
      (.asks (.arith op (a.frame.scope.value st x) (a.frame.scope.value st y))
        (Setting.into dst))) a st := by
  unfold lowerArith at hl ⊢
  split at hl
  · next hnum =>
    rw [Bool.and_eq_true] at hnum
    rw [if_pos (by rw [Bool.and_eq_true]; exact hnum)]
    have he : (a.atPc (a.pc + 1)).execute st received
        (.arithRaw op (a.frame.window.states.slot dst) (a.frame.window.states.source x)
          (a.frame.window.states.source y)) =
        (a.atPc (a.pc + 1)).arithRaw st op (a.frame.window.states.slot dst)
          (a.frame.scope.value st x) (a.frame.scope.value st y) := by
      show (do
        (a.atPc (a.pc + 1)).arithRaw st op (a.frame.window.states.slot dst)
          (← a.frame.read st (a.frame.window.states.source x))
          (← a.frame.read st (a.frame.window.states.source y))) = _
      rw [Frame.read_source st hx, Frame.read_source st hy]
      rfl
    unfold arithRaw at he
    split at he
    · next v hv =>
      exact .of_instr hl.1 (he.trans (execute_assign hdst))
        (.computes ⟨hnum.1, hx⟩ ⟨hnum.2, hy⟩ hv)
    · next e hv => exact .of_instr hl.1 he (.refuses ⟨hnum.1, hx⟩ ⟨hnum.2, hy⟩ hv)
    · next hv => exact .of_instr hl.1 he (.baffled ⟨hnum.1, hx⟩ ⟨hnum.2, hy⟩ hv)
  · next hnum =>
    rw [if_neg hnum]
    refine leads_ask (Setting.into dst) hl fun point => ?_
    show (do pure (Request.arith op
      (← a.frame.read st (a.frame.window.states.source x))
      (← a.frame.read st (a.frame.window.states.source y)))) = _
    rw [Frame.read_source st hx, Frame.read_source st hy]
    rfl

/-- The cells that a nested procedure captures, once its registers have cells. -/
theorem mapM_capturedCell {n : Procedure} (hup : a.closure.upvalues.size = p.upvalues.length)
    (hs : ∀ s ∈ n.upvalues, p.HasSource s)
    (hcap : ∀ r ∈ n.capturedRegisters, a.frame.window.states.of r = .captured) :
    n.upvalues.mapM a.capturedCell =
      .ok (n.upvalues.map ((a.closure.setting p codes).capturedCell a.frame.scope)) := by
  refine mapM_eq_ok fun source hmem => ?_
  cases source with
  | register r =>
    exact Window.cell_of_captured (hcap r (List.mem_filterMap.mpr ⟨_, hmem, rfl⟩))
  | upvalue i =>
    have hi : i < a.closure.upvalues.size := hup.symm ▸ hs _ hmem
    simp only [capturedCell, upvalue, Setting.capturedCell, Setting.upvalue, Closure.setting,
      Array.getElem?_eq_getElem hi, Option.getD_some]

/-- A closure is made of a nested procedure whose registers have cells. -/
theorem execute_closure {dst proto : Nat} (himp : a.closure.Implements p codes)
    (hop : p.ValidOp (.closure dst proto)) (hdst : dst < a.frame.window.size)
    (hcap : ∀ r ∈ p.capturedBy proto, a.frame.window.states.of r = .captured)
    {made : ClosureId × Store}
    (hmade : made = st.addClosure ((a.closure.setting p codes).closureOf a.frame.scope proto)) :
    (a.atPc (a.pc + 1)).execute st received (.closure (a.frame.window.states.slot dst) proto) =
      .ok ((a.frame.scope.assign made.2 dst (.closure made.1)).2,
        .runs (a.moved (a.frame.scope.assign made.2 dst (.closure made.1)).1 (a.pc + 1))) := by
  obtain ⟨n, hn, hsources⟩ := hop.nested
  obtain ⟨code, hcode, hcompile⟩ := Procedure.getElem?_nested himp.nested hn
  have hreg : n.capturedRegisters = p.capturedBy proto := by simp [Procedure.capturedBy, hn]
  have hcells := @mapM_capturedCell p codes a n himp.upvalues hsources
    (fun r hr => hcap r (hreg ▸ hr))
  have hclosure : (a.closure.setting p codes).closureOf a.frame.scope proto =
      ⟨code, (n.upvalues.map ((a.closure.setting p codes).capturedCell a.frame.scope)).toArray⟩ := by
    simp [Setting.closureOf, Setting.sources, Closure.setting, hcode, hn]
  have hnested : a.closure.code.nested[proto]? = some code := by rw [himp.code]; exact hcode
  have hmapM : code.upvalues.mapM (a.atPc (a.pc + 1)).capturedCell =
      .ok (n.upvalues.map ((a.closure.setting p codes).capturedCell a.frame.scope)) := by
    rw [Procedure.upvalues_of_compile hcompile]
    exact hcells
  have hcode' : (a.atPc (a.pc + 1)).nestedCode proto = .ok code := by
    simp only [nestedCode, atPc, hnested]
  simp only [execute, makeClosure, hcode', hmapM, bind, Except.bind]
  rw [hmade, hclosure]
  exact execute_assign hdst

/-- The registers that a nested procedure captures move into cells, and a closure is made. -/
theorem leads_closure {dst proto : Nat} (himp : a.closure.Implements p codes)
    (hop : p.ValidOp (.closure dst proto)) (hsize : a.frame.window.size = p.registers)
    (hl : a.closure.code.Holds p.starts a.pc
      (p.lowerOp ⟨a.frame.window.states, types⟩ (.closure dst proto))) :
    Leads received
      (Within a.closure a.pc
        (a.pc + (p.lowerOp ⟨a.frame.window.states, types⟩ (.closure dst proto)).length))
      (a.Comes ⟨a.frame.window.states, types⟩ st
        (a.pc + (p.lowerOp ⟨a.frame.window.states, types⟩ (.closure dst proto)).length)
        ((a.closure.setting p codes).perform a.frame.scope st (.closure dst proto))) a st := by
  have hcap : ∀ r ∈ p.capturedBy proto, r < a.frame.window.size := fun r hr =>
    hsize.symm ▸ hop.capturedBy_lt r hr
  obtain ⟨hcaptures, hclosure, -⟩ := Code.Holds.append_iff.mp hl
  dsimp only [Procedure.lowerOp] at hcaptures hclosure ⊢
  set plain := firstAppearances
    ((p.capturedBy proto).filter (a.frame.window.states.of · == .plain)) with hplain
  have hshare : a.frame.scope.shareAll st plain = a.frame.scope.shareAll st (p.capturedBy proto) :=
    Scope.shareAll_firstAppearances (s := a.frame.scope) st hcap
  have hnodup : plain.Nodup := nodup_firstAppearances _
  have hlen : (Line.captureAll plain).length = plain.length := List.length_map _
  have hstates : (a.frame.scope.shareAll st (p.capturedBy proto)).1.file.states =
      p.captureFlow a.frame.window.states (.closure dst proto) :=
    Scope.states_shareAll _ a.frame.scope st
  have hsize' : (a.frame.scope.shareAll st (p.capturedBy proto)).1.file.size =
      a.frame.window.size := Scope.size_shareAll a.frame.scope st _
  rw [List.length_append, hlen, List.length_singleton]
  refine leads_captureAll_append hnodup (fun r hr => ?_) hcaptures le_rfl (by omega) ?_
  · obtain ⟨hmem, hof⟩ := List.mem_filter.mp (mem_firstAppearances.mp hr)
    exact ⟨hcap r hmem, by simpa using hof⟩
  · rw [hshare]
    rw [← hstates, hlen] at hclosure
    refine .of_instr hclosure (execute_closure (p := p)
      (a := a.moved (a.frame.scope.shareAll st (p.capturedBy proto)).1 (a.pc + plain.length))
      himp hop ?_ (fun r hr => ?_) rfl) ?_
    · exact lt_of_lt_of_eq (hsize.symm ▸ hop.registers dst (by simp [Op.registers])) hsize'.symm
    · have hof := Scope.of_shareAll (s := a.frame.scope) st (p.capturedBy proto) (hcap r hr)
      rwa [if_pos hr] at hof
    · exact .goesOn

/-- The registers that are in cells leave them. -/
theorem leads_close {rs : List Nat}
    (hrs : (rs.filter (a.frame.window.states.of · == .captured)).Nodup)
    (hl : a.closure.code.Holds p.starts a.pc
      (p.lowerOp ⟨a.frame.window.states, types⟩ (.close rs)))
    (hne : p.lowerOp ⟨a.frame.window.states, types⟩ (.close rs) ≠ []) :
    Leads received
      (Within a.closure a.pc
        (a.pc + (p.lowerOp ⟨a.frame.window.states, types⟩ (.close rs)).length))
      (a.Comes ⟨a.frame.window.states, types⟩ st
        (a.pc + (p.lowerOp ⟨a.frame.window.states, types⟩ (.close rs)).length)
        ((a.closure.setting p codes).perform a.frame.scope st (.close rs))) a st := by
  dsimp only [Procedure.lowerOp] at hl hne ⊢
  have hclose := Scope.closeAll_filter (s := a.frame.scope) st hrs
  rw [List.length_map]
  refine leads_uncaptureAll (by simpa using hne) hrs (fun r hr => ?_) hl le_rfl ?_
  · have hof : a.frame.window.states.of r = .captured := by simpa using (List.mem_filter.mp hr).2
    exact ⟨Window.lt_of_states hof, hof⟩
  · have hfilter : rs.filter (a.frame.window.states.of · == .captured) =
        rs.filter (a.frame.scope.file.states.of · == .captured) := rfl
    rw [hfilter, hclose]
    exact .goesOn

/-- A table is written. -/
theorem execute_setIndex {table : Nat} {key value : Operand}
    (hregs : ∀ r ∈ table :: (key.registers ++ value.registers), r < a.frame.window.size) :
    ∃ st' pr, (a.atPc (a.pc + 1)).execute st received
      (.setIndex (a.frame.window.states.slot table) (a.frame.window.states.source key)
        (a.frame.window.states.source value)) = .ok (st', pr) ∧
      ∀ info, a.Comes info st (a.pc + 1)
        (Setting.setIndex a.frame.scope st (a.frame.scope.value st (.register table))
          (a.frame.scope.value st key) (a.frame.scope.value st value)) st' pr := by
  have hreg := List.forall_mem_cons.mp hregs
  have hkey : ∀ r ∈ key.registers, r < a.frame.window.size := fun r hr =>
    hreg.2 r (List.mem_append_left _ hr)
  have hvalue : ∀ r ∈ value.registers, r < a.frame.window.size := fun r hr =>
    hreg.2 r (List.mem_append_right _ hr)
  have he : (a.atPc (a.pc + 1)).execute st received
      (.setIndex (a.frame.window.states.slot table) (a.frame.window.states.source key)
        (a.frame.window.states.source value)) =
      (a.atPc (a.pc + 1)).setIndex st (a.frame.scope.value st (.register table))
        (a.frame.window.states.source key) (a.frame.window.states.source value) := by
    show (do
      (a.atPc (a.pc + 1)).setIndex st
        (← a.frame.window.get st (a.frame.window.states.slot table)) _ _) = _
    rw [Window.get_slot st hreg.1]
    rfl
  unfold Setting.setIndex
  rw [he]
  unfold setIndex
  cases htable : a.frame.scope.value st (.register table) with
  | table id =>
    have hk : (a.atPc (a.pc + 1)).frame.read st (a.frame.window.states.source key) =
        .ok (a.frame.scope.value st key) := Frame.read_source st hkey
    have hv : (a.atPc (a.pc + 1)).frame.read st (a.frame.window.states.source value) =
        .ok (a.frame.scope.value st value) := Frame.read_source st hvalue
    dsimp only
    rw [hk, hv]
    dsimp only [bind, Except.bind, Store.rawSet]
    cases Table.keyFor (a.frame.scope.value st key) with
    | ok k => exact ⟨_, _, rfl, fun _ => .goesOn⟩
    | error failure => exact ⟨_, _, rfl, fun _ => .fails⟩
  | _ => exact ⟨_, _, rfl, fun _ => .fails⟩

/-- **The lines of an operation do what the operation does.** -/
theorem leads_op {op : Op} (himp : a.closure.Implements p codes)
    (hsize : a.frame.window.size = p.registers) (hop : p.ValidOp op)
    (honce : op.LeavesOnce a.frame.window.states)
    (hl : a.closure.code.Holds p.starts a.pc (p.lowerOp ⟨a.frame.window.states, types⟩ op))
    (hne : p.lowerOp ⟨a.frame.window.states, types⟩ op ≠ []) :
    Leads received
      (Within a.closure a.pc (a.pc + (p.lowerOp ⟨a.frame.window.states, types⟩ op).length))
      (a.Comes ⟨a.frame.window.states, types⟩ st
        (a.pc + (p.lowerOp ⟨a.frame.window.states, types⟩ op).length)
        ((a.closure.setting p codes).perform a.frame.scope st op)) a st := by
  have hreg : ∀ r ∈ op.registers, r < a.frame.window.size := fun r hr =>
    hsize.symm ▸ hop.registers r hr
  cases op with
  | move dst src =>
    simp only [Op.registers, List.forall_mem_cons] at hreg
    refine .of_instr hl.1 ?_ .goesOn
    show (do
      (a.atPc (a.pc + 1)).assign st (a.frame.window.states.slot dst)
        (← a.frame.window.get st (a.frame.window.states.slot src))) = _
    rw [Window.get_slot st hreg.2.1]
    exact execute_assign hreg.1
  | load dst value =>
    exact .of_instr hl.1 (execute_assign (hreg dst (by simp [Op.registers]))) .goesOn
  | getUpvalue dst i =>
    have hi : i < a.closure.upvalues.size := himp.upvalues.symm ▸ hop.upvalue_lt_of_get
    refine .of_instr hl.1 ?_ .goesOn
    have hcell : (a.atPc (a.pc + 1)).upvalue i = .ok ((a.closure.setting p codes).upvalue i) := by
      simp only [upvalue, atPc, Setting.upvalue, Closure.setting, Array.getElem?_eq_getElem hi,
        Option.getD_some]
    show (do
      (a.atPc (a.pc + 1)).assign st (a.frame.window.states.slot dst)
        (st.cell (← (a.atPc (a.pc + 1)).upvalue i))) = _
    rw [hcell]
    exact execute_assign (hreg dst (by simp [Op.registers]))
  | setUpvalue i src =>
    have hi : i < a.closure.upvalues.size := himp.upvalues.symm ▸ hop.upvalue_lt_of_set
    refine .of_instr hl.1 ?_ .goesOn
    have hcell : (a.atPc (a.pc + 1)).upvalue i = .ok ((a.closure.setting p codes).upvalue i) := by
      simp only [upvalue, atPc, Setting.upvalue, Closure.setting, Array.getElem?_eq_getElem hi,
        Option.getD_some]
    show (do
      let v ← a.frame.read st (a.frame.window.states.source src)
      let cell ← (a.atPc (a.pc + 1)).upvalue i
      pure (st.setCell cell v, Progress.runs (a.atPc (a.pc + 1)))) = _
    rw [Frame.read_source st hreg, hcell]
    rfl
  | newTable dst =>
    exact .of_instr hl.1 (execute_assign (hreg dst (by simp [Op.registers]))) .goesOn
  | index dst table key =>
    simp only [Op.registers, List.forall_mem_cons, List.forall_mem_append] at hreg
    refine leads_ask (Setting.into dst) hl fun point => ?_
    show (do pure (Request.index
      (← a.frame.read st (a.frame.window.states.source table))
      (← a.frame.read st (a.frame.window.states.source key)))) = _
    rw [Frame.read_source st hreg.2.1, Frame.read_source st hreg.2.2]
    rfl
  | setIndex table key value =>
    obtain ⟨st', pr, he, hc⟩ := execute_setIndex hreg
    exact .of_instr hl.1 he (hc _)
  | arith dst op x y =>
    simp only [Op.registers, List.forall_mem_cons, List.forall_mem_append] at hreg
    exact leads_arith hl hreg.1 hreg.2.1 hreg.2.2
  | unary dst op src =>
    simp only [Op.registers, List.forall_mem_cons] at hreg
    cases op with
    | negate => exact leads_arith hl hreg.1 hreg.2 hreg.2
    | not =>
      refine .of_instr hl.1 ?_ .goesOn
      show (do
        (a.atPc (a.pc + 1)).assign st (a.frame.window.states.slot dst)
          (.boolean !(← a.frame.read st (a.frame.window.states.source src)).isTruthy)) = _
      rw [Frame.read_source st hreg.2]
      exact execute_assign hreg.1
    | length =>
      refine leads_ask (Setting.into dst) hl fun point => ?_
      show (do pure (Request.length
        (← a.frame.read st (a.frame.window.states.source src)))) = _
      rw [Frame.read_source st hreg.2]
      rfl
  | compare dst op x y =>
    simp only [Op.registers, List.forall_mem_cons, List.forall_mem_append] at hreg
    have he : (a.atPc (a.pc + 1)).execute st received
        (.compare op (a.frame.window.states.slot dst) (a.frame.window.states.source x)
          (a.frame.window.states.source y)) =
        (a.atPc (a.pc + 1)).compare st op (a.frame.window.states.slot dst)
          (a.frame.scope.value st x) (a.frame.scope.value st y) := by
      show (do
        (a.atPc (a.pc + 1)).compare st op (a.frame.window.states.slot dst)
          (← a.frame.read st (a.frame.window.states.source x))
          (← a.frame.read st (a.frame.window.states.source y))) = _
      rw [Frame.read_source st hreg.2.1, Frame.read_source st hreg.2.2]
      rfl
    have hperform : (a.closure.setting p codes).perform a.frame.scope st (.compare dst op x y) =
        Setting.keep a.frame.scope st dst
          (st.compare op (a.frame.scope.value st x) (a.frame.scope.value st y)) := rfl
    unfold compare at he
    rw [hperform]
    cases hc : st.compare op (a.frame.scope.value st x) (a.frame.scope.value st y) with
    | ok b =>
      rw [hc] at he
      exact .of_instr hl.1 (he.trans (execute_assign hreg.1)) .goesOn
    | error e =>
      rw [hc] at he
      exact .of_instr hl.1 he .fails
  | call target args results =>
    simp only [Op.registers, List.forall_mem_cons, List.forall_mem_append] at hreg
    refine leads_ask results hl fun point => ?_
    show (do pure (Request.call
      (← a.frame.window.get st (a.frame.window.states.slot target))
      (← a.frame.arguments st (a.frame.window.states.sources args)))) = _
    rw [Window.get_slot st hreg.1, Frame.arguments_sources st hreg.2.1]
    rfl
  | closure dst proto => exact leads_closure himp hop hsize hl
  | close rs => exact leads_close (honce rs rfl) hl hne
  | vararg results =>
    refine .of_instr hl.1 ?_ .goesOn
    show ((a.atPc (a.pc + 1)).goOn <$> a.frame.receive st
      (a.frame.window.states.receiver results) a.frame.varargs) = _
    rw [Frame.receive_receiver st _ hreg]
    rfl

/-- **An operation without lines does nothing.** -/
theorem perform_of_lowerOp_eq_nil {op : Op} (honce : op.LeavesOnce a.frame.window.states)
    (h : p.lowerOp ⟨a.frame.window.states, types⟩ op = []) :
    (a.closure.setting p codes).perform a.frame.scope st op = .goesOn a.frame.scope st := by
  cases op with
  | close rs =>
    have hnil : rs.filter (a.frame.scope.file.states.of · == .captured) = [] :=
      List.map_eq_nil_iff.mp h
    have hclose := Scope.closeAll_filter (s := a.frame.scope) st (honce rs rfl)
    rw [hnil] at hclose
    show Setting.goOn (a.frame.scope.closeAll st rs) = _
    rw [← hclose]
    rfl
  | closure dst proto => simp [Procedure.lowerOp] at h
  | arith dst op x y =>
    simp only [Procedure.lowerOp, lowerArith, Line.askInto] at h
    split at h <;> cases h
  | unary dst op src =>
    cases op with
    | negate =>
      simp only [Procedure.lowerOp, lowerArith, Line.askInto] at h
      split at h <;> cases h
    | _ => cases h
  | _ => cases h

/-! ### Answers -/

/-- **The answer to a question is received.** -/
theorem advance_receive {results : Results}
    (hi : a.closure.code.instrs[a.pc]? =
      some (.receive (a.frame.window.states.receiver results)))
    (hreg : ∀ r ∈ results.registers, r < a.frame.window.size) :
    a.advance st received = .ok ((a.frame.scope.receive st results received).2,
      .runs (a.moved (a.frame.scope.receive st results received).1 (a.pc + 1))) := by
  rw [advance_of_instr hi]
  show ((a.atPc (a.pc + 1)).goOn <$> a.frame.receive st
    (a.frame.window.states.receiver results) received) = _
  rw [Frame.receive_receiver st received hreg]
  rfl

/-! ### Exits -/

/-- The scope and the store at the entry of a block that expects registers in these states. -/
def crossed (s : Scope Window) (st : Store) (there : SlotStates) : Scope Window × Store :=
  s.shareAll st (s.file.states.newlyCaptured there)

/-- What the lines of an exit come to, against how the block is left. -/
inductive Leaves (p : Procedure) (a : Activation) (st : Store) :
    Departure → Store → Progress Activation → Prop
  | goesTo {b : Nat} {there : SlotStates} (h : p.entryStates b = some there) :
      Leaves p a st (.goesTo b) (crossed a.frame.scope st there).2
        (.runs (a.moved (crossed a.frame.scope st there).1 (p.startOf b)))
  | returns {values : List Value} : Leaves p a st (.returns values) st (.returns values)
  | tailCalls {target : Value} {args : List Value} :
      Leaves p a st (.tailCalls target args) st (.tailCalls target args)

/-- The registers that a block expects in cells move there, and the block is entered. -/
theorem leads_edge {b lo hi : Nat} {there : SlotStates} {a : Activation}
    {Q : Store → Progress Activation → Prop} (hthere : p.entryStates b = some there)
    (hlen : there.length = a.frame.window.size)
    (hl : a.closure.code.Holds p.starts a.pc
      (Procedure.lowerEdge p.captures a.frame.window.states b))
    (hlo : lo ≤ a.pc)
    (hhi : a.pc + (Procedure.lowerEdge p.captures a.frame.window.states b).length ≤ hi)
    (hq : Q (crossed a.frame.scope st there).2
      (.runs (a.moved (crossed a.frame.scope st there).1 (p.startOf b)))) :
    Leads received (Within a.closure lo hi) Q a st := by
  have hthere' : p.captures[b]?.join.getD [] = there := by
    have h : p.captures[b]?.join = some there := hthere
    rw [h]; rfl
  simp only [Procedure.lowerEdge, hthere', List.length_append, List.length_singleton,
    Line.captureAll, List.length_map] at hl hhi
  have hl' := Code.Holds.append_iff.mp hl
  rw [List.length_map] at hl'
  have hlen' : a.frame.window.states.length = there.length := by rw [Window.length_states, hlen]
  refine leads_captureAll_append (SlotStates.nodup_newlyCaptured _ _) (fun r hr => ?_) hl'.1 hlo
    (by omega) ?_
  · obtain ⟨hplain, hcap⟩ := (SlotStates.mem_newlyCaptured hlen').mp hr
    refine ⟨?_, hplain⟩
    by_contra hlt
    rw [SlotStates.of_eq_plain_of_le (by omega)] at hcap
    cases hcap
  · exact .of_instr hl'.2.1 rfl hq

/-- **The lines of an exit leave the block as the exit says.** -/
theorem leads_exit {e : Exit} (hsize : a.frame.window.size = p.registers) (he : p.ValidExit e)
    (hnext : ∀ b ∈ e.successors,
      ∃ there, p.entryStates b = some there ∧ there.length = p.registers)
    (hl : a.closure.code.Holds p.starts a.pc
      (Procedure.lowerExit p.captures a.frame.window.states e)) :
    Leads received
      (Within a.closure a.pc
        (a.pc + (Procedure.lowerExit p.captures a.frame.window.states e).length))
      (a.Leaves p st (e.leave a.frame.scope st)) a st := by
  have hreg : ∀ r ∈ e.registers, r < a.frame.window.size := fun r hr =>
    hsize.symm ▸ he.registers r hr
  cases e with
  | jump b =>
    obtain ⟨there, hthere, hlen⟩ := hnext b (by simp [Exit.successors])
    exact leads_edge hthere (hlen.trans hsize.symm) hl le_rfl le_rfl (.goesTo hthere)
  | branch cond b c =>
    simp only [Procedure.lowerExit, List.cons_append] at hl ⊢
    obtain ⟨hskip, hrest⟩ := hl
    obtain ⟨htaken, hother⟩ := Code.Holds.append_iff.mp hrest
    have hread := Window.get_slot (w := a.frame.window) st (hreg cond (by simp [Exit.registers]))
    have hstep : a.advance st received = .ok (st, .runs
        (if (a.frame.scope.value st (.register cond)).isTruthy then a.atPc (a.pc + 1)
          else a.atPc
            (a.pc + 1 + (Procedure.lowerEdge p.captures a.frame.window.states b).length))) := by
      rw [advance_of_instr hskip]
      show (do
        let v ← a.frame.window.get st (a.frame.window.states.slot cond)
        pure (st, Progress.runs (if v.isTruthy then a.atPc (a.pc + 1)
          else a.atPc (a.pc + 1 + _)))) = _
      rw [hread]
      rfl
    simp only [List.length_cons, List.length_append]
    have hpos : ∀ t, 0 < (Procedure.lowerEdge p.captures a.frame.window.states t).length :=
      fun t => by simp [Procedure.lowerEdge]
    have hb := hpos b
    have hc := hpos c
    obtain ⟨there, hthere, hlen⟩ := hnext b (by simp [Exit.successors])
    obtain ⟨there', hthere', hlen'⟩ := hnext c (by simp [Exit.successors])
    show Leads _ _ (a.Leaves p st (.goesTo
      (if (a.frame.scope.value st (.register cond)).isTruthy then b else c))) a st
    split
    · next htrue =>
      rw [if_pos htrue] at hstep
      refine .more hstep ⟨rfl, by show a.pc < a.pc + 1; omega, by show a.pc + 1 < _; omega⟩ ?_
      refine leads_edge (a := a.atPc (a.pc + 1)) hthere (hlen.trans hsize.symm) htaken
        (by show a.pc ≤ a.pc + 1; omega) ?_ (.goesTo hthere)
      show a.pc + 1 + (Procedure.lowerEdge p.captures a.frame.window.states b).length ≤ _
      omega
    · next hfalse =>
      rw [if_neg hfalse] at hstep
      refine .more hstep ⟨rfl, by show a.pc < a.pc + 1 + _; omega, ?_⟩ ?_
      · show a.pc + 1 + (Procedure.lowerEdge p.captures a.frame.window.states b).length < _
        omega
      · refine leads_edge
          (a := a.atPc (a.pc + 1 + (Procedure.lowerEdge p.captures a.frame.window.states b).length))
          hthere' (hlen'.trans hsize.symm) hother (by show a.pc ≤ a.pc + 1 + _; omega) ?_
          (.goesTo hthere')
        show a.pc + 1 + (Procedure.lowerEdge p.captures a.frame.window.states b).length +
          (Procedure.lowerEdge p.captures a.frame.window.states c).length ≤ _
        omega
  | ret args =>
    refine .of_instr hl.1 ?_ .returns
    show (do pure (st, Progress.returns
      (← a.frame.arguments st (a.frame.window.states.sources args)))) = _
    rw [Frame.arguments_sources st hreg]
    rfl
  | tailCall target args =>
    simp only [Exit.registers, List.forall_mem_cons] at hreg
    refine .of_instr hl.1 ?_ .tailCalls
    show (do
      let t ← a.frame.window.get st (a.frame.window.states.slot target)
      pure (st, Progress.tailCalls t
        (← a.frame.arguments st (a.frame.window.states.sources args)))) = _
    rw [Window.get_slot st hreg.1, Frame.arguments_sources st hreg.2]
    rfl

end Activation

end ResumableVM
