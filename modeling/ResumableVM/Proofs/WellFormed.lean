import ResumableVM.Proofs.Acceptance

/-! # WellFormed: the graphs that are compiled

The rules are stated by what an operation or an exit names, position by position (`Op.Names`,
`Exit.Names`), without the lists that the check goes through. A procedure that keeps them is one
that the check passes (`rules_iff_valid`: no position is forgotten and none is added), and it is
compiled exactly when everything nested in it keeps them too (`isCompiled_iff`). -/

namespace ResumableVM

/-! ### What is named -/

/-- The register is an operand. -/
inductive Operand.Names : Operand → Nat → Prop
  | register (r : Nat) : Names (.register r) r

/-- The register is among the arguments. -/
inductive Args.Names : Args → Nat → Prop
  | intro {args : Args} {o : Operand} {r : Nat} (ho : o ∈ args.fixed) (h : o.Names r) :
    Names args r

/-- The register is among those that results go to. -/
inductive Results.Names : Results → Nat → Prop
  | intro {rs : List Nat} {r : Nat} (h : r ∈ rs) : Names (.fixed rs) r

/-- **The register is named by an operation.** -/
inductive Op.Names : Op → Nat → Prop
  | moveTo (dst src : Nat) : Names (.move dst src) dst
  | moveFrom (dst src : Nat) : Names (.move dst src) src
  | loadTo (dst : Nat) (c : Const) : Names (.load dst c) dst
  | getUpvalueTo (dst i : Nat) : Names (.getUpvalue dst i) dst
  | setUpvalueFrom (i : Nat) {src : Operand} {r : Nat} (h : src.Names r) :
    Names (.setUpvalue i src) r
  | newTableTo (dst : Nat) : Names (.newTable dst) dst
  | indexTo (dst : Nat) (table key : Operand) : Names (.index dst table key) dst
  | indexTable (dst : Nat) {table : Operand} (key : Operand) {r : Nat} (h : table.Names r) :
    Names (.index dst table key) r
  | indexKey (dst : Nat) (table : Operand) {key : Operand} {r : Nat} (h : key.Names r) :
    Names (.index dst table key) r
  | setIndexTable (table : Nat) (key value : Operand) : Names (.setIndex table key value) table
  | setIndexKey (table : Nat) {key : Operand} (value : Operand) {r : Nat} (h : key.Names r) :
    Names (.setIndex table key value) r
  | setIndexValue (table : Nat) (key : Operand) {value : Operand} {r : Nat} (h : value.Names r) :
    Names (.setIndex table key value) r
  | arithTo (dst : Nat) (op : ArithOp) (a b : Operand) : Names (.arith dst op a b) dst
  | arithLeft (dst : Nat) (op : ArithOp) {a : Operand} (b : Operand) {r : Nat} (h : a.Names r) :
    Names (.arith dst op a b) r
  | arithRight (dst : Nat) (op : ArithOp) (a : Operand) {b : Operand} {r : Nat} (h : b.Names r) :
    Names (.arith dst op a b) r
  | unaryTo (dst : Nat) (op : UnaryOp) (src : Operand) : Names (.unary dst op src) dst
  | unaryFrom (dst : Nat) (op : UnaryOp) {src : Operand} {r : Nat} (h : src.Names r) :
    Names (.unary dst op src) r
  | compareTo (dst : Nat) (op : CompareOp) (a b : Operand) : Names (.compare dst op a b) dst
  | compareLeft (dst : Nat) (op : CompareOp) {a : Operand} (b : Operand) {r : Nat}
    (h : a.Names r) : Names (.compare dst op a b) r
  | compareRight (dst : Nat) (op : CompareOp) (a : Operand) {b : Operand} {r : Nat}
    (h : b.Names r) : Names (.compare dst op a b) r
  | callTarget (target : Nat) (args : Args) (results : Results) :
    Names (.call target args results) target
  | callArgument (target : Nat) {args : Args} (results : Results) {r : Nat} (h : args.Names r) :
    Names (.call target args results) r
  | callResult (target : Nat) (args : Args) {results : Results} {r : Nat} (h : results.Names r) :
    Names (.call target args results) r
  | closureTo (dst proto : Nat) : Names (.closure dst proto) dst
  | closeOf {rs : List Nat} {r : Nat} (h : r ∈ rs) : Names (.close rs) r
  | varargResult {results : Results} {r : Nat} (h : results.Names r) : Names (.vararg results) r

/-- The upvalue is named by an operation. -/
inductive Op.NamesUpvalue : Op → Nat → Prop
  | get (dst i : Nat) : NamesUpvalue (.getUpvalue dst i) i
  | set (i : Nat) (src : Operand) : NamesUpvalue (.setUpvalue i src) i

/-- **The register is named by an exit.** -/
inductive Exit.Names : Exit → Nat → Prop
  | branchCondition (cond ifTrue ifFalse : Nat) : Names (.branch cond ifTrue ifFalse) cond
  | retArgument {args : Args} {r : Nat} (h : args.Names r) : Names (.ret args) r
  | tailCallTarget (target : Nat) (args : Args) : Names (.tailCall target args) target
  | tailCallArgument (target : Nat) {args : Args} {r : Nat} (h : args.Names r) :
    Names (.tailCall target args) r

/-- The block is named by an exit. -/
inductive Exit.LeadsTo : Exit → Nat → Prop
  | jump (target : Nat) : LeadsTo (.jump target) target
  | ifTrue (cond ifTrue ifFalse : Nat) : LeadsTo (.branch cond ifTrue ifFalse) ifTrue
  | ifFalse (cond ifTrue ifFalse : Nat) : LeadsTo (.branch cond ifTrue ifFalse) ifFalse

theorem Operand.names_iff {o : Operand} {r : Nat} : o.Names r ↔ r ∈ o.registers := by
  constructor
  · rintro ⟨⟩
    exact List.mem_singleton_self r
  · intro h
    cases o with
    | register r' =>
      obtain rfl := List.mem_singleton.mp h
      exact .register r
    | const c => cases h

theorem Args.names_iff {args : Args} {r : Nat} : args.Names r ↔ r ∈ args.registers := by
  rw [Args.registers, List.mem_flatMap]
  exact ⟨fun ⟨ho, h⟩ => ⟨_, ho, Operand.names_iff.mp h⟩,
    fun ⟨_, ho, h⟩ => ⟨ho, Operand.names_iff.mpr h⟩⟩

theorem Results.names_iff {results : Results} {r : Nat} :
    results.Names r ↔ r ∈ results.registers := by
  constructor
  · rintro ⟨h⟩
    exact h
  · intro h
    cases results with
    | fixed rs => exact ⟨h⟩
    | multi => cases h

/-- **The check looks at every register that an operation names**, and at no other. -/
theorem Op.names_iff {op : Op} {r : Nat} : op.Names r ↔ r ∈ op.registers := by
  constructor
  · intro h
    cases h <;>
      simp_all [Op.registers, Operand.names_iff, Args.names_iff, Results.names_iff]
  · intro h
    cases op <;> simp only [Op.registers, List.mem_cons, List.mem_append, List.not_mem_nil,
      or_false, ← Operand.names_iff, ← Args.names_iff, ← Results.names_iff] at h
    case move dst src =>
      rcases h with rfl | rfl
      · exact .moveTo _ _
      · exact .moveFrom _ _
    case load => exact h ▸ .loadTo _ _
    case getUpvalue => exact h ▸ .getUpvalueTo _ _
    case setUpvalue => exact .setUpvalueFrom _ h
    case newTable => exact h ▸ .newTableTo _
    case index =>
      rcases h with rfl | h | h
      · exact .indexTo _ _ _
      · exact .indexTable _ _ h
      · exact .indexKey _ _ h
    case setIndex =>
      rcases h with rfl | h | h
      · exact .setIndexTable _ _ _
      · exact .setIndexKey _ _ h
      · exact .setIndexValue _ _ h
    case arith =>
      rcases h with rfl | h | h
      · exact .arithTo _ _ _ _
      · exact .arithLeft _ _ _ h
      · exact .arithRight _ _ _ h
    case unary =>
      rcases h with rfl | h
      · exact .unaryTo _ _ _
      · exact .unaryFrom _ _ h
    case compare =>
      rcases h with rfl | h | h
      · exact .compareTo _ _ _ _
      · exact .compareLeft _ _ _ h
      · exact .compareRight _ _ _ h
    case call =>
      rcases h with rfl | h | h
      · exact .callTarget _ _ _
      · exact .callArgument _ _ h
      · exact .callResult _ _ h
    case closure => exact h ▸ .closureTo _ _
    case close => exact .closeOf h
    case vararg => exact .varargResult h

/-- The check looks at every register that an exit names, and at no other. -/
theorem Exit.names_iff {e : Exit} {r : Nat} : e.Names r ↔ r ∈ e.registers := by
  constructor
  · intro h
    cases h <;> simp_all [Exit.registers, Args.names_iff]
  · intro h
    cases e <;> simp only [Exit.registers, List.mem_cons, List.not_mem_nil, or_false,
      ← Args.names_iff] at h
    case branch => exact h ▸ .branchCondition _ _ _
    case ret => exact .retArgument h
    case tailCall =>
      rcases h with rfl | h
      · exact .tailCallTarget _ _
      · exact .tailCallArgument _ h

theorem Exit.leadsTo_iff {e : Exit} {b : Nat} : e.LeadsTo b ↔ b ∈ e.successors := by
  constructor
  · rintro ⟨⟩ <;> simp [Exit.successors]
  · intro h
    cases e <;> simp only [Exit.successors, List.mem_cons, List.not_mem_nil, or_false] at h
    case jump => exact h ▸ .jump _
    case branch =>
      rcases h with rfl | rfl
      · exact .ifTrue _ _ _
      · exact .ifFalse _ _ _

namespace Procedure

/-! ### The rules -/

/-- **The rules that a procedure keeps**, in all of its blocks. -/
structure Rules (p : Procedure) : Prop where
  blocks : p.blocks ≠ []
  params : p.params ≤ p.registers
  /-- Every register that is named exists. -/
  registers : ∀ b ∈ p.blocks, (∀ op ∈ b.ops, ∀ r, op.Names r → r < p.registers) ∧
    ∀ r, b.exit.Names r → r < p.registers
  /-- Every upvalue that is named exists. -/
  upvalues : ∀ b ∈ p.blocks, ∀ op ∈ b.ops, ∀ i, op.NamesUpvalue i → i < p.upvalues.length
  /-- A closure is made of a nested procedure, and what that captures exists. -/
  closures : ∀ b ∈ p.blocks, ∀ dst proto, Op.closure dst proto ∈ b.ops →
    ∃ n, p.nested[proto]? = some n ∧ (∀ r, .register r ∈ n.upvalues → r < p.registers) ∧
      ∀ i, .upvalue i ∈ n.upvalues → i < p.upvalues.length
  /-- Every block that an exit leads to exists. -/
  targets : ∀ b ∈ p.blocks, ∀ t, b.exit.LeadsTo t → t < p.blocks.length
  /-- Varargs are read only where there are any. -/
  varargs : ∀ b ∈ p.blocks, ∀ results, Op.vararg results ∈ b.ops → p.isVararg = true

/-- **A procedure that keeps the rules, as do all that are nested in it.** -/
inductive WellFormed : Procedure → Prop
  | intro {p : Procedure} (rules : p.Rules) (nested : ∀ n ∈ p.nested, WellFormed n) : WellFormed p

variable {p : Procedure}

theorem hasSource_iff {sources : List CaptureSource} : (∀ s ∈ sources, p.HasSource s) ↔
    (∀ r, .register r ∈ sources → r < p.registers) ∧
      ∀ i, .upvalue i ∈ sources → i < p.upvalues.length := by
  constructor
  · exact fun h => ⟨fun r hr => h _ hr, fun i hi => h _ hi⟩
  · rintro ⟨hr, hi⟩ (r | i) hs
    · exact hr r hs
    · exact hi i hs

/-- What an operation refers to besides registers exists, by its kind. -/
theorem checkReferences_eq_ok_iff {op : Op} : p.checkReferences op = .ok () ↔
    (∀ i, op.NamesUpvalue i → i < p.upvalues.length) ∧
    (∀ dst proto, op = .closure dst proto →
      ∃ n, p.nested[proto]? = some n ∧ ∀ s ∈ n.upvalues, p.HasSource s) ∧
    (∀ results, op = .vararg results → p.isVararg = true) := by
  constructor
  · intro h
    refine ⟨?_, ?_, ?_⟩
    · rintro i (⟨dst, i⟩ | ⟨i, src⟩) <;> exact checkUpvalue_eq_ok_iff.mp h
    · rintro dst proto rfl
      simp only [checkReferences] at h
      cases hn : p.nested[proto]? with
      | none => rw [hn] at h; cases h
      | some n =>
        rw [hn] at h
        exact ⟨n, rfl, fun s hs => checkSource_eq_ok_iff.mp ((forM_eq_ok_iff _ _).mp h s hs)⟩
    · rintro results rfl
      by_contra hv
      simp [checkReferences, hv] at h
  · rintro ⟨hupvalues, hclosures, hvarargs⟩
    cases op with
    | getUpvalue dst i => exact checkUpvalue_eq_ok_iff.mpr (hupvalues i (.get dst i))
    | setUpvalue i src => exact checkUpvalue_eq_ok_iff.mpr (hupvalues i (.set i src))
    | closure dst proto =>
      obtain ⟨n, hn, hs⟩ := hclosures dst proto rfl
      simp only [checkReferences, hn, forM_eq_ok_iff]
      exact fun s hmem => checkSource_eq_ok_iff.mpr (hs s hmem)
    | vararg results => simp only [checkReferences, hvarargs results rfl, if_true]
    | _ => rfl

/-- **The rules are what the check passes.** -/
theorem rules_iff_valid : p.Rules ↔ p.Valid := by
  constructor
  · intro h
    refine ⟨List.length_pos_iff.mpr h.blocks, h.params, fun b hb op hop => ⟨?_, ?_⟩,
      fun b hb => ⟨?_, ?_⟩⟩
    · exact fun r hr => (h.registers b hb).1 op hop r (Op.names_iff.mpr hr)
    · refine checkReferences_eq_ok_iff.mpr ⟨h.upvalues b hb op hop, ?_, ?_⟩
      · rintro dst proto rfl
        obtain ⟨n, hn, hs⟩ := h.closures b hb dst proto hop
        exact ⟨n, hn, hasSource_iff.mpr hs⟩
      · rintro results rfl
        exact h.varargs b hb results hop
    · exact fun r hr => (h.registers b hb).2 r (Exit.names_iff.mpr hr)
    · exact fun t ht => h.targets b hb t (Exit.leadsTo_iff.mpr ht)
  · intro h
    have hreferences {b : Block} (hb : b ∈ p.blocks) {op : Op} (hop : op ∈ b.ops) :=
      checkReferences_eq_ok_iff.mp (h.op b hb op hop).references
    exact {
      blocks := List.length_pos_iff.mp h.nonempty
      params := h.params_le
      registers := fun b hb =>
        ⟨fun op hop r hr => (h.op b hb op hop).registers r (Op.names_iff.mp hr),
          fun r hr => (h.exit b hb).registers r (Exit.names_iff.mp hr)⟩
      upvalues := fun b hb op hop => (hreferences hb hop).1
      closures := fun b hb dst proto hop => by
        obtain ⟨n, hn, hs⟩ := (hreferences hb hop).2.1 dst proto rfl
        exact ⟨n, hn, hasSource_iff.mp hs⟩
      targets := fun b hb t ht => (h.exit b hb).successors t (Exit.leadsTo_iff.mp ht)
      varargs := fun b hb results hop => (hreferences hb hop).2.2 results rfl }

theorem sizeOf_lt_of_mem_nested {n : Procedure} (h : n ∈ p.nested) : sizeOf n < sizeOf p := by
  refine (List.sizeOf_lt_of_mem h).trans ?_
  cases p
  simp only [mk.sizeOf_spec]
  omega

/-- A procedure that is compiled is well-formed, by induction on the nesting. -/
theorem wellFormed_of_compile (p : Procedure) {code : Code} (h : p.compile = .ok code) :
    p.WellFormed := by
  obtain ⟨hvalid, codes, hnested, -⟩ := compile_eq_ok_iff.mp h
  refine .intro (rules_iff_valid.mpr hvalid) fun n hn => ?_
  obtain ⟨i, hi⟩ := List.getElem?_of_mem hn
  obtain ⟨_, -, hcode⟩ := getElem?_nested hnested hi
  have := sizeOf_lt_of_mem_nested hn
  exact wellFormed_of_compile n hcode
termination_by sizeOf p

theorem exists_forall₂ {α β : Type} {R : α → β → Prop} :
    ∀ {l : List α}, (∀ a ∈ l, ∃ b, R a b) → ∃ l', List.Forall₂ R l l'
  | [], _ => ⟨[], .nil⟩
  | a :: l, h => by
    obtain ⟨⟨b, hb⟩, hl⟩ := List.forall_mem_cons.mp h
    obtain ⟨l', hl'⟩ := exists_forall₂ hl
    exact ⟨b :: l', .cons hb hl'⟩

/-- **A procedure is compiled exactly when it is well-formed.** -/
theorem isCompiled_iff (p : Procedure) : (∃ code, p.compile = .ok code) ↔ p.WellFormed := by
  refine ⟨fun ⟨_, h⟩ => wellFormed_of_compile p h, fun h => ?_⟩
  induction h with
  | @intro p rules _ ih =>
    obtain ⟨codes, hcodes⟩ := exists_forall₂ ih
    exact ⟨_, compile_eq_ok_iff.mpr ⟨rules_iff_valid.mp rules, codes, hcodes, rfl⟩⟩

end Procedure

end ResumableVM
