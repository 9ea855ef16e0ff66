import ResumableVM.Graph.Builder
import ResumableVM.Proofs.Acceptance

/-! # BuiltProcedures: a builder leaves room for every register that is named

`Builder.performAll` makes calls on a builder, one after the other, and keeps what comes back. None of
them changes the parameters or fixes the number of registers, and captures are only added behind the
others (`Builder.Grows`), so the index that a capture returned still is the index of its source when
the procedure is built.

The number of registers is inferred by a maximum over all that are named. Every fault that a check
reports says something about the procedure (`Procedure.finds_of_check`), so a procedure that was built
never has too few registers for its parameters, and lacks at most the last register of sixteen bits,
which a count of sixteen bits has no room for (`built_procedure_fits`). -/

namespace ResumableVM

namespace Builder

/-! ### Calls -/

/-- A call on a builder, apart from the one that fixes the number of registers. -/
inductive Call where
  | acceptVarargs
  | capture (source : CaptureSource)
  | nest (p : Procedure)
  | newBlock
  | switchTo (block : Nat)
  | push (op : Op)
  | terminate (exit : Exit)

/-- What a call captures. -/
def Call.sources : Call → List CaptureSource
  | capture source => [source]
  | _ => []

/-- The index that a call returns, if it returns one, and the builder after it. -/
def perform (b : Builder) : Call → Except Defect (Option Nat × Builder)
  | .acceptVarargs => .ok (none, b.acceptVarargs)
  | .capture source => .ok ((b.capture source).map some id)
  | .nest p => .ok ((b.nest p).map some id)
  | .newBlock => .ok (b.newBlock.map some id)
  | .switchTo block => .ok (none, b.switchTo block)
  | .push op => (b.push op).map (none, ·)
  | .terminate exit => (b.terminate exit).map (none, ·)

/-- Calls one after the other: what each of them returned, and the builder after the last. -/
def performAll (b : Builder) : List Call → Except Defect (List (Option Nat) × Builder)
  | [] => .ok ([], b)
  | call :: calls => do
    let (answer, b) ← b.perform call
    let (answers, b) ← b.performAll calls
    pure (answer :: answers, b)

/-- What calls keep of a builder, and what they add to its upvalues. -/
structure Grows (b b' : Builder) (sources : List CaptureSource) : Prop where
  name : b'.name = b.name
  params : b'.params = b.params
  registers : b'.registers = b.registers
  upvalues : b'.upvalues = b.upvalues ++ sources

variable {b b' : Builder} {call : Call} {calls : List Call} {answer : Option Nat}
  {answers : List (Option Nat)}

theorem Grows.refl (b : Builder) : b.Grows b [] := ⟨rfl, rfl, rfl, (List.append_nil _).symm⟩

theorem Grows.trans {b'' : Builder} {xs ys : List CaptureSource} (h : b.Grows b' xs)
    (h' : b'.Grows b'' ys) : b.Grows b'' (xs ++ ys) :=
  ⟨h'.name.trans h.name, h'.params.trans h.params, h'.registers.trans h.registers,
    by rw [h'.upvalues, h.upvalues, List.append_assoc]⟩

theorem grows_modifyCurrent {f : OpenBlock → OpenBlock} (h : b.modifyCurrent f = .ok b') :
    b.Grows b' [] := by
  unfold modifyCurrent at h
  split at h
  · cases h
    exact ⟨rfl, rfl, rfl, (List.append_nil _).symm⟩
  · cases h

theorem eq_ok_of_map_eq_ok {ε α β : Type} {f : α → β} {x : Except ε α} {y : β}
    (h : x.map f = .ok y) : ∃ a, x = .ok a ∧ f a = y := by
  cases x with
  | error e => cases h
  | ok a => exact ⟨a, rfl, Except.ok.inj h⟩

/-- **What one call does.** -/
theorem grows_perform (h : b.perform call = .ok (answer, b')) : b.Grows b' call.sources := by
  cases call with
  | push op =>
    obtain ⟨b'', hpush, heq⟩ := eq_ok_of_map_eq_ok h
    cases heq
    exact grows_modifyCurrent hpush
  | terminate exit =>
    obtain ⟨b'', hterminate, heq⟩ := eq_ok_of_map_eq_ok h
    cases heq
    exact grows_modifyCurrent hterminate
  | capture source =>
    cases h
    exact ⟨rfl, rfl, rfl, rfl⟩
  | _ =>
    cases h
    exact ⟨rfl, rfl, rfl, (List.append_nil _).symm⟩

theorem performAll_cons_eq_ok (h : b.performAll (call :: calls) = .ok (answers, b')) :
    ∃ answer rest mid, b.perform call = .ok (answer, mid) ∧ mid.performAll calls = .ok (rest, b') ∧
      answers = answer :: rest := by
  rw [performAll] at h
  cases hcall : b.perform call with
  | error e =>
    rw [hcall] at h
    cases h
  | ok r =>
    rw [hcall] at h
    cases hcalls : r.2.performAll calls with
    | error e =>
      simp only [bind, Except.bind, hcalls] at h
      cases h
    | ok rs =>
      simp only [bind, Except.bind, hcalls] at h
      cases h
      exact ⟨r.1, rs.1, r.2, rfl, hcalls, rfl⟩

theorem performAll_cons {mid : Builder} (hcall : b.perform call = .ok (answer, mid))
    (hcalls : mid.performAll calls = .ok (answers, b')) :
    b.performAll (call :: calls) = .ok (answer :: answers, b') := by
  simp only [performAll, hcall, hcalls, bind, Except.bind, pure, Except.pure]

/-- **What calls do**, one after the other. -/
theorem grows_performAll : ∀ {calls : List Call} {b : Builder} {answers : List (Option Nat)},
    b.performAll calls = .ok (answers, b') → b.Grows b' (calls.flatMap Call.sources)
  | [], _, _, h => by
    cases h
    exact .refl _
  | _ :: _, _, _, h => by
    obtain ⟨answer, rest, mid, hcall, hcalls, -⟩ := performAll_cons_eq_ok h
    exact (grows_perform hcall).trans (grows_performAll hcalls)

/-- **The index that a capture returned** counts the upvalues before it, in sixteen bits. -/
theorem answer_of_capture : ∀ {calls : List Call} {b : Builder} {answers : List (Option Nat)} {k : Nat}
    {source : CaptureSource}, b.performAll calls = .ok (answers, b') →
    calls[k]? = some (.capture source) →
    answers[k]? = some (some
      ((b.upvalues.length + ((calls.take k).flatMap Call.sources).length) % (largest + 1)))
  | [], _, _, _, _, _, hk => by simp at hk
  | call :: calls, b, _, 0, source, h, hk => by
    obtain ⟨answer, rest, mid, hcall, -, rfl⟩ := performAll_cons_eq_ok h
    cases Option.some.inj hk
    cases hcall
    rfl
  | call :: calls, b, _, k + 1, source, h, hk => by
    obtain ⟨answer, rest, mid, hcall, hcalls, rfl⟩ := performAll_cons_eq_ok h
    have ih := answer_of_capture hcalls (k := k) hk
    rw [(grows_perform hcall).upvalues, List.length_append, Nat.add_assoc] at ih
    simpa using ih

/-- The source of a capture stands behind those before it. -/
theorem source_of_capture : ∀ {calls : List Call} {k : Nat} {source : CaptureSource},
    calls[k]? = some (.capture source) →
    (calls.flatMap Call.sources)[((calls.take k).flatMap Call.sources).length]? = some source
  | call :: calls, 0, source, h => by
    cases Option.some.inj h
    rfl
  | call :: calls, k + 1, source, h => by
    have ih := @source_of_capture calls k source h
    rw [List.take_succ_cons, List.flatMap_cons, List.flatMap_cons, List.length_append,
      List.getElem?_append_right (Nat.le_add_right _ _), Nat.add_sub_cancel_left, ih]

/-! ### The number of registers -/

theorem le_foldl_makeRoom : ∀ (rs : List Nat) (count : Nat), count ≤ rs.foldl makeRoom count
  | [], _ => Nat.le_refl _
  | _ :: rs, _ => (Nat.le_max_left _ _).trans (le_foldl_makeRoom rs _)

/-- There is room for a register, as far as sixteen bits go. -/
theorem min_le_foldl_makeRoom {r : Nat} : ∀ {rs : List Nat}, r ∈ rs → ∀ count,
    min (r + 1) largest ≤ rs.foldl makeRoom count
  | r' :: rs, h, count => by
    rcases List.mem_cons.mp h with rfl | h
    · exact (Nat.le_max_right _ _).trans (le_foldl_makeRoom rs _)
    · exact min_le_foldl_makeRoom h (makeRoom count r')

end Builder

namespace Procedure

/-- The registers that a procedure names, in its blocks and in what is nested in it. -/
def namedRegisters (p : Procedure) : List Nat :=
  p.blocks.flatMap Block.registers ++ p.nested.flatMap capturedRegisters

end Procedure

namespace Builder

variable {b : Builder} {p : Procedure}

/-- What a builder makes. -/
structure Makes (b : Builder) (p : Procedure) : Prop where
  name : p.name = b.name
  params : p.params = b.params
  upvalues : p.upvalues = b.upvalues
  registers : b.registers = none → p.registers = p.namedRegisters.foldl makeRoom p.params

theorem makes_of_build (h : b.build = .ok p) : b.Makes p := by
  unfold build at h
  cases hblocks : finishBlocks b.name 0 b.blocks with
  | error e =>
    rw [hblocks] at h
    cases h
  | ok blocks =>
    rw [hblocks] at h
    cases h
    exact ⟨rfl, rfl, rfl, fun h => by rw [h]; rfl⟩

end Builder

/-! ### What a check finds -/

theorem forM_eq_error {ε α : Type} {f : α → Except ε Unit} {e : ε} :
    ∀ {l : List α}, l.forM f = .error e → ∃ x ∈ l, f x = .error e
  | [], h => by cases h
  | x :: l, h => by
    rw [List.forM_eq_forM, List.forM_cons] at h
    cases hx : f x with
    | error e' =>
      rw [hx] at h
      cases h
      exact ⟨x, List.mem_cons_self, hx⟩
    | ok u =>
      rw [hx] at h
      obtain ⟨y, hy, herror⟩ := forM_eq_error (f := f) (l := l) (by rwa [List.forM_eq_forM])
      exact ⟨y, List.mem_cons_of_mem _ hy, herror⟩

theorem seq_eq_error {ε : Type} {x y : Except ε Unit} {e : ε} (h : (do x; y) = .error e) :
    x = .error e ∨ y = .error e := by
  cases x with
  | error e' => exact .inl h
  | ok u => exact .inr h

namespace Procedure

variable {p : Procedure} {e : GraphError}

/-- What a fault that a check reports says about the procedure. -/
inductive Finds (p : Procedure) : GraphError → Prop
  | noBlocks (h : p.blocks = []) : Finds p (.noBlocks p.name)
  | tooManyParameters (h : p.registers < p.params) :
      Finds p (.tooManyParameters p.name p.params p.registers)
  | register {r : Nat} (hr : r ∈ p.namedRegisters) (h : p.registers ≤ r) :
      Finds p (.invalidRegister p.name r p.registers)
  | upvalue {i : Nat} (h : p.upvalues.length ≤ i) : Finds p (.invalidUpvalue p.name i)
  | nested {i : Nat} (h : p.nested.length ≤ i) : Finds p (.invalidNested p.name i)
  | block {t : Nat} (h : p.blocks.length ≤ t) : Finds p (.invalidBlock p.name t)
  | vararg (h : p.isVararg = false) : Finds p (.varargOutside p.name)

theorem finds_of_checkRegister {r : Nat} (hr : r ∈ p.namedRegisters)
    (h : p.checkRegister r = .error e) : p.Finds e := by
  unfold checkRegister at h
  split at h
  · cases h
  · next hge => exact Except.error.inj h ▸ .register hr (not_lt.mp hge)

theorem finds_of_checkUpvalue {i : Nat} (h : p.checkUpvalue i = .error e) : p.Finds e := by
  unfold checkUpvalue at h
  split at h
  · cases h
  · next hge => exact Except.error.inj h ▸ .upvalue (not_lt.mp hge)

theorem finds_of_checkTarget {t : Nat} (h : p.checkTarget t = .error e) : p.Finds e := by
  unfold checkTarget at h
  split at h
  · cases h
  · next hge => exact Except.error.inj h ▸ .block (not_lt.mp hge)

theorem finds_of_checkReferences {op : Op} (h : p.checkReferences op = .error e) : p.Finds e := by
  cases op with
  | getUpvalue dst i => exact finds_of_checkUpvalue h
  | setUpvalue i src => exact finds_of_checkUpvalue h
  | vararg results =>
    simp only [checkReferences] at h
    split at h
    · cases h
    · next hvararg => exact Except.error.inj h ▸ .vararg (Bool.eq_false_of_not_eq_true hvararg)
  | closure dst proto =>
    simp only [checkReferences] at h
    split at h
    · next inner hinner =>
      obtain ⟨source, hsource, herror⟩ := forM_eq_error h
      cases source with
      | upvalue i => exact finds_of_checkUpvalue herror
      | register r =>
        exact finds_of_checkRegister (List.mem_append_right _ (List.mem_flatMap.mpr ⟨inner,
          List.mem_of_getElem? hinner, List.mem_filterMap.mpr ⟨_, hsource, rfl⟩⟩)) herror
    · next hnone => exact Except.error.inj h ▸ .nested (List.getElem?_eq_none_iff.mp hnone)
  | _ => cases h

/-- **What a check finds** is a fault of the procedure. -/
theorem finds_of_check (h : p.check = .error e) : p.Finds e := by
  unfold check at h
  split at h
  · next hempty => exact Except.error.inj h ▸ .noBlocks (List.isEmpty_iff.mp hempty)
  split at h
  · next hlt => exact Except.error.inj h ▸ .tooManyParameters hlt
  obtain ⟨block, hblock, h⟩ := forM_eq_error h
  have hnamed : ∀ r ∈ block.registers, r ∈ p.namedRegisters := fun r hr =>
    List.mem_append_left _ (List.mem_flatMap.mpr ⟨block, hblock, hr⟩)
  rcases seq_eq_error h with h | h
  · obtain ⟨op, hop, h⟩ := forM_eq_error h
    rcases seq_eq_error h with h | h
    · obtain ⟨r, hr, h⟩ := forM_eq_error h
      exact finds_of_checkRegister (hnamed r (List.mem_append_left _
        (List.mem_flatMap.mpr ⟨op, hop, hr⟩))) h
    · exact finds_of_checkReferences h
  rcases seq_eq_error h with h | h
  · obtain ⟨r, hr, h⟩ := forM_eq_error h
    exact finds_of_checkRegister (hnamed r (List.mem_append_right _ hr)) h
  · obtain ⟨t, -, h⟩ := forM_eq_error h
    exact finds_of_checkTarget h

/-- What is reported is a fault of the procedure, or of one nested in it. -/
theorem compile_eq_error (h : p.compile = .error e) :
    p.check = .error e ∨ p.check = .ok () ∧ compileAll p.nested = .error e := by
  rw [compile_eq] at h
  cases hcheck : p.check with
  | error e' =>
    rw [hcheck] at h
    cases h
    exact .inl rfl
  | ok u =>
    rw [hcheck] at h
    cases hnested : compileAll p.nested with
    | error e' =>
      simp only [bind, Except.bind, hnested] at h
      cases h
      exact .inr ⟨rfl, rfl⟩
    | ok codes =>
      simp only [bind, Except.bind, hnested] at h
      cases h

end Procedure

namespace Builder

variable {name : String} {params : Nat} {calls : List Call} {answers : List (Option Nat)} {b : Builder}
  {p : Procedure}

/-- **A built procedure has room for the registers it names**, and its upvalues are where the builder
said.

After any calls on a new builder, if the procedure is built, its parameters have registers, and so has
every register that it names, apart from the last one of sixteen bits. When it is not compiled for a
fault of its own, the fault is not a lack of registers for the parameters, and it is a register that
does not exist only for that last one. Each capture, as long as indexes fit in sixteen bits, returned
the index of its source. -/
theorem built_procedure_fits (hcalls : (start name params).performAll calls = .ok (answers, b))
    (hbuild : b.build = .ok p) :
    p.params ≤ p.registers ∧
    (∀ r ∈ p.namedRegisters, r < largest → r < p.registers) ∧
    (∀ e, p.compile = .error e →
      (p.check = .ok () ∧ Procedure.compileAll p.nested = .error e) ∨
      (p.check = .error e ∧ (∀ n k l, e ≠ .tooManyParameters n k l) ∧
        ∀ n r k, e = .invalidRegister n r k → largest ≤ r)) ∧
    ∀ k source, calls[k]? = some (.capture source) →
      ((calls.take k).flatMap Call.sources).length ≤ largest →
      ∃ i, answers[k]? = some (some i) ∧ p.upvalues[i]? = some source := by
  have hgrows := grows_performAll hcalls
  have hmakes := makes_of_build hbuild
  have hregisters := hmakes.registers hgrows.registers
  have hparams : p.params ≤ p.registers := hregisters ▸ le_foldl_makeRoom _ _
  have hroom : ∀ r ∈ p.namedRegisters, r < largest → r < p.registers := by
    intro r hr hlt
    have := min_le_foldl_makeRoom hr p.params
    omega
  refine ⟨hparams, hroom, fun e he => ?_, fun k source hk hlt => ?_⟩
  · rcases Procedure.compile_eq_error he with hcheck | hnested
    · have hfinds := Procedure.finds_of_check hcheck
      refine .inr ⟨hcheck, ?_, ?_⟩
      · rintro n k l rfl
        cases hfinds with
        | tooManyParameters hfew => exact absurd hparams (not_le.mpr hfew)
      · rintro n r k rfl
        cases hfinds with
        | register hr hge => exact not_lt.mp fun hlt => absurd (hroom r hr hlt) (not_lt.mpr hge)
    · exact .inl hnested
  · have hanswer := answer_of_capture hcalls hk
    have hupvalues : p.upvalues = calls.flatMap Call.sources := hmakes.upvalues.trans hgrows.upvalues
    rw [show (start name params).upvalues.length = 0 from rfl, Nat.zero_add,
      Nat.mod_eq_of_lt (Nat.lt_succ_of_le hlt)] at hanswer
    exact ⟨_, hanswer, hupvalues ▸ source_of_capture hk⟩

/-- Calls that name the register before the last one, behind a capture. -/
def penultimate : List Call :=
  [.capture (.register 3), .push (.load 65534 .nil), .terminate (.ret ⟨[], false⟩)]

/-- There is a register for every other number of sixteen bits. -/
theorem built_procedure_fits_penultimate : ∃ b p,
    (start "penultimate" 2).performAll penultimate = .ok ([some 0, none, none], b) ∧
    b.build = .ok p ∧ 65534 < p.registers ∧ p.upvalues[0]? = some (.register 3) := by
  obtain ⟨b, hcalls⟩ : ∃ b,
      (start "penultimate" 2).performAll penultimate = .ok ([some 0, none, none], b) := ⟨_, rfl⟩
  obtain ⟨p, hbuild⟩ : ∃ p, b.build = .ok p := by
    cases hcalls
    exact ⟨_, rfl⟩
  obtain ⟨-, hroom, -, hcaptures⟩ := built_procedure_fits hcalls hbuild
  refine ⟨b, p, hcalls, hbuild, hroom 65534 ?_ (by decide), ?_⟩
  · cases hcalls
    cases hbuild
    exact List.mem_append_left _ (by decide)
  · obtain ⟨i, hi, hsource⟩ := hcaptures 0 _ rfl (by decide)
    cases hi
    exact hsource

/-- Sources that are captured one after the other are the upvalues, in their order. -/
theorem performAll_captures : ∀ (sources : List CaptureSource) (b : Builder),
    ∃ answers, b.performAll (sources.map .capture) =
      .ok (answers, { b with upvalues := b.upvalues ++ sources })
  | [], b => ⟨[], by rw [List.append_nil]; rfl⟩
  | source :: sources, b => by
    obtain ⟨answers, h⟩ := performAll_captures sources (b.capture source).2
    refine ⟨some (b.capture source).1 :: answers, performAll_cons rfl (h.trans ?_)⟩
    simp only [capture, List.append_assoc, List.singleton_append]

/-- Calls that end the block and capture these sources. -/
def capturing (sources : List CaptureSource) : List Call :=
  .terminate (.ret ⟨[], false⟩) :: sources.map .capture

/-- Each of the captures returns what sixteen bits leave of the index of its source. -/
theorem build_capturing (name : String) (sources : List CaptureSource) : ∃ answers b p,
    (start name 0).performAll (capturing sources) = .ok (answers, b) ∧ b.build = .ok p ∧
    p.upvalues = sources ∧
    ∀ k < sources.length, answers[k + 1]? = some (some (k % (largest + 1))) := by
  obtain ⟨answers, h⟩ := performAll_captures sources
    ⟨name, 0, false, none, [], [⟨[], some (.ret ⟨[], false⟩)⟩], [], 0⟩
  have hcalls : (start name 0).performAll (capturing sources) = .ok (none :: answers, _) :=
    performAll_cons rfl h
  refine ⟨none :: answers, _, _, hcalls, rfl, rfl, fun k hk => ?_⟩
  have hbefore : (((capturing sources).take (k + 1)).flatMap Call.sources).length = k := by
    simp [capturing, ← List.map_take, List.flatMap_map, Call.sources, hk.le]
  have hcall : (capturing sources)[k + 1]? = some (.capture sources[k]) := by simp [capturing, hk]
  have hanswer := answer_of_capture hcalls hcall
  rw [hbefore] at hanswer
  exact hanswer.trans (by rw [show (start name 0).upvalues.length = 0 from rfl, Nat.zero_add])

/-- The last register of sixteen bits has no room, so its procedure is built and not compiled; and the
capture behind as many as there are numbers of sixteen bits returns the index of another source. -/
theorem built_procedure_without_room : (∃ b p,
      (start "last" 0).performAll [.push (.load 65535 .nil), .terminate (.ret ⟨[], false⟩)] =
        .ok ([none, none], b) ∧
      b.build = .ok p ∧ 65535 ∈ p.namedRegisters ∧ ¬ 65535 < p.registers ∧
      p.compile = .error (.invalidRegister "last" 65535 65535)) ∧
    ∃ answers b p, (start "many" 0).performAll
        (capturing (List.replicate (largest + 1) (.register 0) ++ [.upvalue 0])) = .ok (answers, b) ∧
      b.build = .ok p ∧ answers[largest + 2]? = some (some 0) ∧
      p.upvalues[largest + 1]? = some (.upvalue 0) ∧ p.upvalues[0]? = some (.register 0) := by
  constructor
  · refine ⟨_, _, rfl, rfl, ?_, ?_, rfl⟩
    · decide
    · decide
  · obtain ⟨answers, b, p, hcalls, hbuild, hupvalues, hanswers⟩ :=
      build_capturing "many" (List.replicate (largest + 1) (.register 0) ++ [.upvalue 0])
    refine ⟨answers, b, p, hcalls, hbuild, ?_, ?_, ?_⟩
    · rw [hanswers (largest + 1) (by simp), Nat.mod_self]
    · rw [hupvalues, List.getElem?_append_right (by rw [List.length_replicate]),
        List.length_replicate, Nat.sub_self]
      rfl
    · rw [hupvalues, List.replicate_succ]
      rfl

end Builder

end ResumableVM
