import ResumableVM.Proofs.Listings
import ResumableVM.Proofs.WellFormedCode

/-! # Disassembly: what is compiled can be told from its listing

Literals of a line are literals of the operation or exit that it comes from, and a list of receivers
is only made for several registers. So where no literal of a procedure is NaN, every line of it can be
read back (`legible_lines`), and so can every instruction that compiling it emits, for itself or for a
procedure nested in it (`Emits.legible`). Such instructions have one text only if they are the same or
one subtracts where the other negates (`emitted_text_eq_iff`). -/

namespace ResumableVM

/-! ### The literals of a procedure -/

/-- The literal that an operand is, if it is one. -/
def Operand.constants : Operand → List Const
  | register _ => []
  | const c => [c]

/-- The literals among arguments. -/
def Args.constants (args : Args) : List Const := args.fixed.flatMap Operand.constants

/-- The literals of an operation. -/
def Op.constants : Op → List Const
  | load _ c => [c]
  | setUpvalue _ src | unary _ _ src => src.constants
  | index _ a b | setIndex _ a b | arith _ _ a b | compare _ _ a b => a.constants ++ b.constants
  | call _ args _ => args.constants
  | move _ _ | getUpvalue _ _ | newTable _ | closure _ _ | close _ | vararg _ => []

/-- The literals of an exit. -/
def Exit.constants : Exit → List Const
  | ret args | tailCall _ args => args.constants
  | jump _ | branch _ _ _ => []

/-- The literals of a procedure, without those of the procedures nested in it. -/
def Procedure.constants (p : Procedure) : List Const :=
  p.blocks.flatMap fun block => block.ops.flatMap Op.constants ++ block.exit.constants

/-- No literal of the procedure is NaN, and none of a procedure nested in it. -/
def Procedure.FreeOfNaN (p : Procedure) : Prop :=
  ∀ path q, p.nestedAt path = some q → ∀ c ∈ q.constants, c.NotNaN

/-! ### What operations become -/

namespace SlotStates

variable {states : SlotStates}

theorem notNaN_source {a : Operand} (h : ∀ c ∈ a.constants, c.NotNaN) :
    (states.source a).NotNaN := by
  cases a with
  | register r => trivial
  | const c => exact h c List.mem_cons_self

theorem notNaN_source_pair {a b : Operand} (h : ∀ c ∈ a.constants ++ b.constants, c.NotNaN) :
    (states.source a).NotNaN ∧ (states.source b).NotNaN :=
  (List.forall_mem_append.mp h).imp notNaN_source notNaN_source

theorem notNaN_sources {args : Args} (h : ∀ c ∈ args.constants, c.NotNaN) :
    (states.sources args).NotNaN := by
  intro x hx
  obtain ⟨a, ha, rfl⟩ := List.mem_map.mp hx
  exact notNaN_source fun c hc => h c (List.mem_flatMap.mpr ⟨a, ha, hc⟩)

theorem settled_receiver (results : Results) : (states.receiver results).Settled := by
  cases results with
  | multi => trivial
  | fixed rs =>
    match rs with
    | [] => trivial
    | [_] => trivial
    | _ :: _ :: rs => exact Nat.le_add_left 2 _

end SlotStates

/-- What the line becomes can be read back. -/
def Line.Legible : Line → Prop
  | .instr i => i.Legible
  | .ask question => question.NotNaN
  | .jump _ | .skipUnless _ _ => True

theorem Line.Legible.linkLine {line : Line} (h : line.Legible) (starts : List Nat)
    (address point : Nat) : (Assembly.linkLine starts address point line).Legible := by
  cases line with
  | instr i => exact h
  | ask question => exact h
  | jump block => trivial
  | skipUnless cond count => trivial

namespace Procedure

variable {p : Procedure} {info : RegisterInfo}

open SlotStates

theorem legible_instr {i : Instr} (h : i.Legible) : ∀ line ∈ [Line.instr i], line.Legible :=
  List.forall_mem_singleton.mpr h

theorem legible_askInto {question : Question} {receiver : Receiver} (hq : question.NotNaN)
    (hr : receiver.Settled) : ∀ line ∈ Line.askInto question receiver, line.Legible :=
  List.forall_mem_cons.mpr ⟨hq, legible_instr hr⟩

theorem legible_captureAll (rs : List Nat) : ∀ line ∈ Line.captureAll rs, line.Legible :=
  List.forall_mem_map.mpr fun _ _ => trivial

theorem legible_lowerArith {op : ArithOp} {dst : Nat} {a b : Operand}
    (h : ∀ c ∈ a.constants ++ b.constants, c.NotNaN) :
    ∀ line ∈ lowerArith info op dst a b, line.Legible := by
  unfold lowerArith
  split
  · exact legible_instr (notNaN_source_pair h)
  · exact legible_askInto (notNaN_source_pair h) trivial

theorem legible_lowerOp {op : Op} (h : ∀ c ∈ op.constants, c.NotNaN) :
    ∀ line ∈ p.lowerOp info op, line.Legible := by
  cases op with
  | move dst src => exact legible_instr trivial
  | load dst c => exact legible_instr (h c List.mem_cons_self)
  | getUpvalue dst i => exact legible_instr trivial
  | setUpvalue i src => exact legible_instr (notNaN_source h)
  | newTable dst => exact legible_instr trivial
  | setIndex table key value => exact legible_instr (notNaN_source_pair h)
  | index dst table key => exact legible_askInto (notNaN_source_pair h) trivial
  | arith dst op a b => exact legible_lowerArith h
  | unary dst op src =>
    cases op with
    | negate => exact legible_lowerArith (List.forall_mem_append.mpr ⟨h, h⟩)
    | not => exact legible_instr (notNaN_source h)
    | length => exact legible_askInto (notNaN_source h) trivial
  | compare dst op a b => exact legible_instr (notNaN_source_pair h)
  | call target args results => exact legible_askInto (notNaN_sources h) (settled_receiver results)
  | closure dst proto =>
    exact List.forall_mem_append.mpr ⟨legible_captureAll _, legible_instr trivial⟩
  | close rs => exact List.forall_mem_map.mpr fun _ _ => trivial
  | vararg results => exact legible_instr (settled_receiver results)

theorem legible_lowerOps : ∀ {ops : List Op} {info : RegisterInfo},
    (∀ c ∈ ops.flatMap Op.constants, c.NotNaN) → ∀ line ∈ (p.lowerOps info ops).1, line.Legible
  | [], _, _ => List.forall_mem_nil _
  | _ :: _, _, h =>
    have ⟨hop, hops⟩ := List.forall_mem_append.mp h
    List.forall_mem_append.mpr ⟨legible_lowerOp hop, legible_lowerOps hops⟩

theorem legible_lowerEdge {captures : Dataflow.Entries SlotStates} {states : SlotStates}
    {target : Nat} : ∀ line ∈ lowerEdge captures states target, line.Legible :=
  List.forall_mem_append.mpr ⟨legible_captureAll _, List.forall_mem_singleton.mpr trivial⟩

theorem legible_lowerExit {captures : Dataflow.Entries SlotStates} {states : SlotStates} {e : Exit}
    (h : ∀ c ∈ e.constants, c.NotNaN) : ∀ line ∈ lowerExit captures states e, line.Legible := by
  cases e with
  | jump target => exact legible_lowerEdge
  | branch cond ifTrue ifFalse =>
    exact List.forall_mem_append.mpr
      ⟨List.forall_mem_cons.mpr ⟨trivial, legible_lowerEdge⟩, legible_lowerEdge⟩
  | ret args => exact legible_instr (notNaN_sources h)
  | tailCall target args => exact legible_instr (notNaN_sources h)

theorem legible_blockLines (h : ∀ c ∈ p.constants, c.NotNaN) :
    ∀ lines ∈ p.blockLines, ∀ line ∈ lines, line.Legible := by
  intro lines hlines
  simp only [blockLines, lowerBlocks, List.map_map, List.mem_map, Function.comp_apply] at hlines
  obtain ⟨⟨block, b⟩, hblock, rfl⟩ := hlines
  have hmem : block ∈ p.blocks := List.fst_mem_of_mem_zipIdx hblock
  obtain ⟨hops, hexit⟩ := List.forall_mem_append.mp
    fun c hc => h c (List.mem_flatMap.mpr ⟨block, hmem, hc⟩)
  split
  · exact List.forall_mem_append.mpr ⟨legible_lowerOps hops, legible_lowerExit hexit⟩
  · exact List.forall_mem_nil _

/-- **Every line can be read back**, if no literal is NaN. -/
theorem legible_lines (h : ∀ c ∈ p.constants, c.NotNaN) : ∀ line ∈ p.lines, line.Legible := by
  refine List.forall_mem_append.mpr ⟨legible_captureAll _, fun line hline => ?_⟩
  obtain ⟨lines, hlines, hmem⟩ := List.mem_flatten.mp hline
  exact legible_blockLines h lines hlines line hmem

/-! ### Emitted instructions -/

theorem legible_assemble {codes : List Code} (h : ∀ c ∈ p.constants, c.NotNaN) :
    ∀ i ∈ (p.assemble codes).instrs, i.Legible := by
  intro i hi
  obtain ⟨pc, hpc⟩ := Array.mem_iff_getElem?.mp hi
  obtain ⟨line, point, hline, rfl⟩ := exists_line hpc
  exact (legible_lines h line (List.mem_of_getElem? hline)).linkLine p.starts pc point

/-- Code nested in that of a procedure is the code of one nested there. -/
theorem exists_nestedAt_of_code : ∀ {path : List Nat} {p : Procedure} {code c : Code},
    p.compile = .ok code → code.nestedAt path = some c →
    ∃ q, p.nestedAt path = some q ∧ q.compile = .ok c
  | [], p, code, c, h, hc => by
    cases hc
    exact ⟨p, rfl, h⟩
  | k :: path, p, code, c, h, hc => by
    obtain ⟨inner, hinner, hc⟩ := Option.bind_eq_some_iff.mp hc
    obtain ⟨-, codes, hcodes, rfl⟩ := compile_eq_ok_iff.mp h
    obtain ⟨hlt, rfl⟩ := List.getElem?_eq_some_iff.mp hinner
    have hk : k < p.nested.length := hcodes.length_eq ▸ hlt
    obtain ⟨q, hq, hcompile⟩ := exists_nestedAt_of_code (hcodes.get hk hlt) hc
    refine ⟨q, ?_, hcompile⟩
    rw [nestedAt, List.getElem?_eq_getElem hk]
    exact hq

/-- Compiling the procedure emits the instruction, for itself or for one nested in it. -/
def Emits (p : Procedure) (i : Instr) : Prop :=
  ∃ code path c, p.compile = .ok code ∧ code.nestedAt path = some c ∧ i ∈ c.instrs

/-- **What is emitted can be read back**, if no literal is NaN. -/
theorem Emits.legible {i : Instr} (hp : p.FreeOfNaN) (h : p.Emits i) : i.Legible := by
  obtain ⟨code, path, c, hcode, hc, hi⟩ := h
  obtain ⟨q, hq, hcompile⟩ := exists_nestedAt_of_code hcode hc
  obtain ⟨-, codes, -, rfl⟩ := compile_eq_ok_iff.mp hcompile
  exact legible_assemble (hp path q hq) i hi

/-- **Emitted instructions can be told apart by their texts**, but for a subtraction and a negation of
the same operands: with no literal NaN, two instructions have one text exactly if they are the same or
one subtracts where the other negates. -/
theorem emitted_text_eq_iff {p q : Procedure} {i j : Instr} (hp : p.FreeOfNaN) (hq : q.FreeOfNaN)
    (hi : p.Emits i) (hj : q.Emits j) :
    i.text = j.text ↔ i = j ∨ i.SharesMinus j ∨ j.SharesMinus i := by
  constructor
  · exact Instr.readsAs_of_text_eq (hi.legible hp) (hj.legible hq)
  · rintro (rfl | h | h)
    · rfl
    · exact h.text_eq
    · exact h.text_eq.symm

theorem freeOfNaN_of_nested_nil (hnested : p.nested = []) (h : ∀ c ∈ p.constants, c.NotNaN) :
    p.FreeOfNaN := by
  intro path q hq
  cases path with
  | nil => exact Option.some.inj hq ▸ h
  | cons k path =>
    rw [nestedAt, hnested] at hq
    cases hq

theorem emits_of_getElem? {i : Instr} {pc : Nat} {codes : List Code}
    (hp : p.compile = .ok (p.assemble codes)) (h : (p.assemble codes).instrs[pc]? = some i) :
    p.Emits i :=
  ⟨_, [], _, hp, rfl, Array.mem_of_getElem? h⟩

/-- One as an integer, as a float and as a string. -/
def ones : Procedure where
  name := "ones"
  params := 0
  isVararg := false
  registers := 1
  upvalues := []
  blocks := [⟨[.load 0 (.integer 1), .load 0 (.float (Float.ofBits 0x3FF0000000000000)),
    .load 0 (.string "1")], .ret ⟨[.register 0], false⟩⟩]
  nested := []

/-- The three are told apart. -/
theorem emitted_text_eq_iff_ones : ones.FreeOfNaN ∧ ∃ i j k, ones.Emits i ∧ ones.Emits j ∧
    ones.Emits k ∧ i.text ≠ j.text ∧ j.text ≠ k.text ∧ i.text ≠ k.text := by
  have hcompile : ones.compile = .ok (ones.assemble []) :=
    compile_eq_ok_iff.mpr ⟨check_eq_ok_iff.mp rfl, [], .nil, rfl⟩
  have hfree : ones.FreeOfNaN := freeOfNaN_of_nested_nil rfl (by
    rintro c hc x rfl
    have hx : x = Float.ofBits 0x3FF0000000000000 := by
      simpa [constants, ones, Op.constants, Exit.constants, Args.constants, Operand.constants] using hc
    rw [hx]
    decide)
  have hi := @emits_of_getElem? ones _ 0 [] hcompile rfl
  have hj := @emits_of_getElem? ones _ 1 [] hcompile rfl
  have hk := @emits_of_getElem? ones _ 2 [] hcompile rfl
  refine ⟨hfree, _, _, _, hi, hj, hk, ?_, ?_, ?_⟩
  · rw [ne_eq, emitted_text_eq_iff hfree hfree hi hj]
    rintro (h | h | h) <;> cases h
  · rw [ne_eq, emitted_text_eq_iff hfree hfree hj hk]
    rintro (h | h | h) <;> cases h
  · rw [ne_eq, emitted_text_eq_iff hfree hfree hi hk]
    rintro (h | h | h) <;> cases h

/-- Take one from one, then negate one. -/
def signs : Procedure where
  name := "signs"
  params := 0
  isVararg := false
  registers := 1
  upvalues := []
  blocks := [⟨[.arith 0 .subtract (.const (.integer 1)) (.const (.integer 1)),
    .unary 0 .negate (.const (.integer 1))], .ret ⟨[.register 0], false⟩⟩]
  nested := []

/-- The difference and the negation have one text, but are not the same instruction. -/
theorem emitted_text_shared_signs : signs.FreeOfNaN ∧
    signs.Emits (.arithRaw .subtract ⟨0, .direct⟩ (.const (.integer 1)) (.const (.integer 1))) ∧
    signs.Emits (.arithRaw .negate ⟨0, .direct⟩ (.const (.integer 1)) (.const (.integer 1))) ∧
    (Instr.arithRaw .subtract ⟨0, .direct⟩ (.const (.integer 1)) (.const (.integer 1))).text =
      (Instr.arithRaw .negate ⟨0, .direct⟩ (.const (.integer 1)) (.const (.integer 1))).text ∧
    Instr.arithRaw .subtract ⟨0, .direct⟩ (.const (.integer 1)) (.const (.integer 1)) ≠
      .arithRaw .negate ⟨0, .direct⟩ (.const (.integer 1)) (.const (.integer 1)) := by
  have hcompile : signs.compile = .ok (signs.assemble []) :=
    compile_eq_ok_iff.mpr ⟨check_eq_ok_iff.mp rfl, [], .nil, rfl⟩
  have hfree : signs.FreeOfNaN := freeOfNaN_of_nested_nil rfl (by
    rintro c hc x rfl
    simp [constants, signs, Op.constants, Exit.constants, Args.constants, Operand.constants] at hc)
  exact ⟨hfree, @emits_of_getElem? signs _ 0 [] hcompile rfl,
    @emits_of_getElem? signs _ 1 [] hcompile rfl, rfl, by decide⟩

end Procedure

end ResumableVM
