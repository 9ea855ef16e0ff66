import Mathlib.Data.List.Forall2
import Mathlib.Tactic
import ResumableVM.Compile.Basic

/-! # Acceptance: what it means that a procedure is compiled

A check passes exactly when every part of it does. `Procedure.Valid` is what passing says: all
registers, upvalues, blocks and nested procedures that are named exist. A procedure is compiled
exactly when it is valid and all nested procedures are compiled; the code is then what `assemble`
makes of theirs (`compile_eq_ok_iff`). -/

namespace ResumableVM

theorem forM_eq_ok_iff {ε α : Type} (f : α → Except ε Unit) :
    ∀ (l : List α), l.forM f = .ok () ↔ ∀ x ∈ l, f x = .ok ()
  | [] => by simp [pure, Except.pure]
  | a :: l => by
    rw [List.forM_eq_forM, List.forM_cons]
    cases h : f a with
    | error e => simp [bind, Except.bind, h]
    | ok u =>
      have ih := forM_eq_ok_iff f l
      rw [List.forM_eq_forM] at ih
      simpa [bind, Except.bind, h] using ih

theorem seq_eq_ok_iff {ε : Type} (x : Except ε Unit) (y : Except ε Unit) :
    (do x; y) = .ok () ↔ x = .ok () ∧ y = .ok () := by
  cases x with
  | error e => simp [bind, Except.bind]
  | ok u => simp [bind, Except.bind]

theorem mapM_eq_ok {ε α β : Type} {f : α → Except ε β} {g : α → β} :
    ∀ {l : List α}, (∀ x ∈ l, f x = .ok (g x)) → l.mapM f = .ok (l.map g)
  | [], _ => rfl
  | a :: l, h => by
    have ha := List.forall_mem_cons.mp h
    rw [List.mapM_cons, ha.1, mapM_eq_ok ha.2]
    rfl

theorem mapM_eq_some_iff {α β : Type} {f : α → Option β} {l : List α} {r : List β} :
    l.mapM f = some r ↔ l.map f = r.map some := by
  induction l generalizing r with
  | nil => cases r <;> simp
  | cons x l ih =>
    simp only [List.mapM_cons, List.map_cons, Option.bind_eq_bind, Option.bind_eq_some_iff, ih]
    constructor
    · rintro ⟨y, hy, ys, hys, heq⟩
      cases heq
      rw [hy, hys, List.map_cons]
    · intro h
      cases r with
      | nil => cases h
      | cons y ys =>
        obtain ⟨hy, hys⟩ := List.cons.inj h
        exact ⟨y, hy, ys, hys, rfl⟩

namespace Procedure

variable {p : Procedure}

theorem checkRegister_eq_ok_iff {r : Nat} : p.checkRegister r = .ok () ↔ r < p.registers := by
  unfold checkRegister; split <;> simp [*]

theorem checkUpvalue_eq_ok_iff {i : Nat} : p.checkUpvalue i = .ok () ↔ i < p.upvalues.length := by
  unfold checkUpvalue; split <;> simp [*]

theorem checkTarget_eq_ok_iff {b : Nat} : p.checkTarget b = .ok () ↔ b < p.blocks.length := by
  unfold checkTarget; split <;> simp [*]

/-- An operation names only what exists. -/
structure ValidOp (p : Procedure) (op : Op) : Prop where
  registers : ∀ r ∈ op.registers, r < p.registers
  references : p.checkReferences op = .ok ()

/-- An exit names only what exists. -/
structure ValidExit (p : Procedure) (e : Exit) : Prop where
  registers : ∀ r ∈ e.registers, r < p.registers
  successors : ∀ b ∈ e.successors, b < p.blocks.length

/-- A procedure names only what exists. -/
structure Valid (p : Procedure) : Prop where
  nonempty : 0 < p.blocks.length
  params_le : p.params ≤ p.registers
  op : ∀ b ∈ p.blocks, ∀ op ∈ b.ops, p.ValidOp op
  exit : ∀ b ∈ p.blocks, p.ValidExit b.exit

theorem checkOp_eq_ok_iff {op : Op} : p.checkOp op = .ok () ↔ p.ValidOp op := by
  unfold checkOp
  rw [seq_eq_ok_iff, forM_eq_ok_iff]
  simp only [checkRegister_eq_ok_iff]
  exact ⟨fun h => ⟨h.1, h.2⟩, fun h => ⟨h.registers, h.references⟩⟩

theorem checkBlock_eq_ok_iff {b : Block} :
    p.checkBlock b = .ok () ↔ (∀ op ∈ b.ops, p.ValidOp op) ∧ p.ValidExit b.exit := by
  unfold checkBlock
  rw [seq_eq_ok_iff, seq_eq_ok_iff, forM_eq_ok_iff, forM_eq_ok_iff, forM_eq_ok_iff]
  simp only [checkOp_eq_ok_iff, checkRegister_eq_ok_iff, checkTarget_eq_ok_iff]
  exact ⟨fun h => ⟨h.1, h.2.1, h.2.2⟩, fun h => ⟨h.1, h.2.registers, h.2.successors⟩⟩

/-- **A check passes exactly for valid procedures.** -/
theorem check_eq_ok_iff : p.check = .ok () ↔ p.Valid := by
  unfold check
  cases hb : p.blocks with
  | nil => simpa using fun h : p.Valid => by have := h.nonempty; simp [hb] at this
  | cons b bs =>
    by_cases hp : p.registers < p.params
    · simpa [hp] using fun h : p.Valid => by have := h.params_le; omega
    · simp only [List.isEmpty_cons, Bool.false_eq_true, if_false, if_neg hp]
      rw [← hb, forM_eq_ok_iff]
      simp only [checkBlock_eq_ok_iff]
      exact ⟨fun h => ⟨by simp [hb], by omega, fun b hb => (h b hb).1, fun b hb => (h b hb).2⟩,
        fun h b hb => ⟨h.op b hb, h.exit b hb⟩⟩

/-! ### What operations refer to -/

theorem ValidOp.upvalue_lt_of_get {dst i : Nat} (h : p.ValidOp (.getUpvalue dst i)) :
    i < p.upvalues.length := checkUpvalue_eq_ok_iff.mp h.references

theorem ValidOp.upvalue_lt_of_set {i : Nat} {src : Operand} (h : p.ValidOp (.setUpvalue i src)) :
    i < p.upvalues.length := checkUpvalue_eq_ok_iff.mp h.references

/-- A source of a nested procedure exists in its parent. -/
def HasSource (p : Procedure) : CaptureSource → Prop
  | .register r => r < p.registers
  | .upvalue i => i < p.upvalues.length

theorem checkSource_eq_ok_iff {s : CaptureSource} : p.checkSource s = .ok () ↔ p.HasSource s := by
  cases s with
  | register r => exact checkRegister_eq_ok_iff
  | upvalue i => exact checkUpvalue_eq_ok_iff

theorem ValidOp.nested {dst proto : Nat} (h : p.ValidOp (.closure dst proto)) :
    ∃ n, p.nested[proto]? = some n ∧ ∀ s ∈ n.upvalues, p.HasSource s := by
  have := h.references
  simp only [checkReferences] at this
  cases hn : p.nested[proto]? with
  | none => rw [hn] at this; cases this
  | some n =>
    rw [hn] at this
    refine ⟨n, rfl, fun s hs => ?_⟩
    exact checkSource_eq_ok_iff.mp ((forM_eq_ok_iff p.checkSource n.upvalues).mp this s hs)

/-- The registers that a nested procedure captures exist. -/
theorem ValidOp.capturedBy_lt {dst proto : Nat} (h : p.ValidOp (.closure dst proto)) :
    ∀ r ∈ p.capturedBy proto, r < p.registers := by
  obtain ⟨n, hn, hs⟩ := h.nested
  intro r hr
  simp only [capturedBy, hn, Option.map_some, Option.getD_some, capturedRegisters,
    List.mem_filterMap] at hr
  obtain ⟨s, hmem, hr⟩ := hr
  cases s with
  | register r' =>
    simp only [CaptureSource.register?, Option.some.injEq] at hr
    exact hr ▸ hs _ hmem
  | upvalue i => simp [CaptureSource.register?] at hr

theorem ValidOp.isVararg {results : Results} (h : p.ValidOp (.vararg results)) :
    p.isVararg = true := by
  have := h.references
  by_contra hv
  simp [checkReferences, hv] at this

/-! ### Compilation -/

theorem compileAll_eq_ok_iff :
    ∀ {ps : List Procedure} {codes : List Code},
      compileAll ps = .ok codes ↔ List.Forall₂ (fun p code => p.compile = .ok code) ps codes
  | [], codes => by
    unfold compileAll
    simp only [pure, Except.pure, Except.ok.injEq, List.forall₂_nil_left_iff]
    exact eq_comm
  | p :: ps, codes => by
    unfold compileAll
    cases hp : p.compile with
    | error e =>
      simp only [bind, Except.bind, reduceCtorEq, false_iff]
      intro h
      cases h with
      | cons h _ => rw [hp] at h; cases h
    | ok code =>
      cases hps : compileAll ps with
      | error e =>
        simp only [bind, Except.bind, reduceCtorEq, false_iff]
        intro h
        cases h with
        | cons _ h => rw [compileAll_eq_ok_iff.mpr h] at hps; cases hps
      | ok rest =>
        simp only [bind, Except.bind, pure, Except.pure, Except.ok.injEq]
        constructor
        · rintro rfl
          exact .cons hp (compileAll_eq_ok_iff.mp hps)
        · intro h
          cases h with
          | cons h1 h2 =>
            rw [hp] at h1
            rw [compileAll_eq_ok_iff.mpr h2] at hps
            cases h1; cases hps; rfl

theorem compile_eq (p : Procedure) :
    p.compile = (do p.check; let codes ← compileAll p.nested; pure (p.assemble codes)) := by
  cases p; rw [compile]

/-- **A procedure is compiled** exactly when it is valid and all nested ones are compiled. -/
theorem compile_eq_ok_iff {code : Code} :
    p.compile = .ok code ↔
      p.Valid ∧ ∃ codes, List.Forall₂ (fun n c => n.compile = .ok c) p.nested codes ∧
        code = p.assemble codes := by
  simp only [← compileAll_eq_ok_iff]
  rw [← check_eq_ok_iff, compile_eq]
  cases hc : p.check with
  | error e => simp [bind, Except.bind]
  | ok u =>
    cases hn : compileAll p.nested with
    | error e => simp [bind, Except.bind]
    | ok codes => simp [bind, Except.bind, pure, Except.pure, eq_comm]

theorem getElem?_nested {codes : List Code}
    (h : List.Forall₂ (fun n c => Procedure.compile n = .ok c) p.nested codes) {proto : Nat}
    {n : Procedure} (hn : p.nested[proto]? = some n) :
    ∃ code, codes[proto]? = some code ∧ n.compile = .ok code := by
  obtain ⟨hlt, rfl⟩ := List.getElem?_eq_some_iff.mp hn
  have hlt' : proto < codes.length := h.length_eq ▸ hlt
  exact ⟨codes[proto], List.getElem?_eq_getElem hlt', h.get hlt hlt'⟩

theorem upvalues_of_compile {code : Code} (h : p.compile = .ok code) :
    code.upvalues = p.upvalues := by
  obtain ⟨-, codes, -, rfl⟩ := compile_eq_ok_iff.mp h
  rfl

/-! ### Closing each register once -/

/-- No close operation names a register twice. -/
def ClosesOnce (p : Procedure) : Prop :=
  ∀ b ∈ p.blocks, ∀ rs, Op.close rs ∈ b.ops → rs.Nodup

/-- The same of a procedure and all that are nested in it. -/
inductive ClosesOnceInside : Procedure → Prop
  | intro {p : Procedure} (own : p.ClosesOnce) (nested : ∀ n ∈ p.nested, ClosesOnceInside n) :
      ClosesOnceInside p

end Procedure

end ResumableVM
