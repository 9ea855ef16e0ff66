import ResumableVM.Proofs.Departures
import ResumableVM.Proofs.Shapes

/-! # ReturnTypes: the inferred return type covers what is returned

A shape covers some values when each of them is of the type at its position, a missing one counting
as nil, and there are no more of them than the run has places, unless more may follow
(`TypeSeq.Covers`). The return type of a procedure is the join of the shapes of all exits that can
be reached (`returnShapes`), and what covers values still does after a join. A call is over in a
state whose registers have the types that the analysis gives, so the shape of its exit covers what
it returns (`return_type_covers`).

The length of a join is that of the longer run. So the length that a return type gives is the
greatest of the exits' lengths, and a call may return fewer values (`exact_length_greatest`,
`not_exact_choosing`). -/

namespace ResumableVM

/-! ### Shapes and values -/

namespace TypeSeq

/-- **The shape covers these values.** -/
structure Covers (shape : TypeSeq) (vs : List Value) : Prop where
  types : ∀ i, (valueAt vs i).staticType.isSubtypeOf (shape.get i) = true
  length : shape.hasTail = false → vs.length ≤ shape.fixed.length

variable {a b : TypeSeq} {vs : List Value}

theorem covers_vararg (vs : List Value) : vararg.Covers vs :=
  ⟨fun _ => ValueType.isSubtypeOf_any _, nofun⟩

theorem length_join (a b : TypeSeq) :
    (a.join b).fixed.length = max a.fixed.length b.fixed.length := by
  simp [join, sideBySide_eq]

theorem Covers.join_left (h : a.Covers vs) (b : TypeSeq) : (a.join b).Covers vs where
  types i := ValueType.isSubtypeOf_trans (h.types i)
    (isSubsumedBy_iff.mp (isSubsumedBy_join_left a b) i)
  length htail := by
    rw [length_join]
    exact (h.length (Bool.or_eq_false_iff.mp htail).1).trans (le_max_left _ _)

theorem Covers.join_right (h : b.Covers vs) (a : TypeSeq) : (a.join b).Covers vs where
  types i := ValueType.isSubtypeOf_trans (h.types i)
    (isSubsumedBy_iff.mp (isSubsumedBy_join_right a b) i)
  length htail := by
    rw [length_join]
    exact (h.length (Bool.or_eq_false_iff.mp htail).2).trans (le_max_right _ _)

/-- What one of some shapes covers, their join covers. -/
theorem covers_foldl_join : ∀ {shapes : List TypeSeq} {shape : TypeSeq},
    (∃ s ∈ shape :: shapes, s.Covers vs) → (shapes.foldl join shape).Covers vs
  | [], shape, ⟨s, hs, h⟩ => List.mem_singleton.mp hs ▸ h
  | next :: shapes, shape, ⟨s, hs, h⟩ => by
    show (shapes.foldl join (shape.join next)).Covers vs
    refine covers_foldl_join ?_
    rcases List.mem_cons.mp hs with rfl | hs
    · exact ⟨_, List.mem_cons_self, h.join_left next⟩
    rcases List.mem_cons.mp hs with rfl | hs
    · exact ⟨_, List.mem_cons_self, h.join_right shape⟩
    · exact ⟨s, List.mem_cons_of_mem _ hs, h⟩

/-! #### Lengths -/

/-- The length of a join is the greater one, if both are known. -/
theorem exactLength?_join {n : Nat} : (a.join b).exactLength? = some n ↔
    ∃ k l, a.exactLength? = some k ∧ b.exactLength? = some l ∧ max k l = n := by
  have htail : (a.join b).hasTail = (a.hasTail || b.hasTail) := rfl
  unfold exactLength?
  rw [htail, length_join]
  cases a.hasTail <;> cases b.hasTail <;> simp

/-- **The length of a join is the greatest**, if all are known. -/
theorem exactLength?_foldl_join {n : Nat} : ∀ {shapes : List TypeSeq} {shape : TypeSeq},
    (shapes.foldl join shape).exactLength? = some n →
      (∀ s ∈ shape :: shapes, ∃ k ≤ n, s.exactLength? = some k) ∧
        ∃ s ∈ shape :: shapes, s.exactLength? = some n
  | [], shape, h => ⟨fun s hs => ⟨n, le_rfl, List.mem_singleton.mp hs ▸ h⟩, shape, by simp, h⟩
  | next :: shapes, shape, h => by
    have h : (shapes.foldl join (shape.join next)).exactLength? = some n := h
    obtain ⟨hall, s, hs, hsn⟩ := exactLength?_foldl_join h
    obtain ⟨⟨m, hm, hjoin⟩, hrest⟩ := List.forall_mem_cons.mp hall
    obtain ⟨k, l, hk, hl, hmax⟩ := exactLength?_join.mp hjoin
    refine ⟨List.forall_mem_cons.mpr ⟨⟨k, by omega, hk⟩,
      List.forall_mem_cons.mpr ⟨⟨l, by omega, hl⟩, hrest⟩⟩, ?_⟩
    -- The first two shapes have become one; the greater of them stands for it.
    rcases List.mem_cons.mp hs with rfl | hs
    · obtain rfl : m = n := Option.some.inj (hjoin.symm.trans hsn)
      rcases max_choice k l with heq | heq
      · exact ⟨shape, by simp, by rw [hk, ← hmax, heq]⟩
      · exact ⟨next, by simp, by rw [hl, ← hmax, heq]⟩
    · exact ⟨s, List.mem_cons_of_mem _ (List.mem_cons_of_mem _ hs), hsn⟩

end TypeSeq

/-! ### The shapes of the exits -/

/-- The values of arguments are covered by the types that are known of their operands. -/
theorem covers_values {info : RegisterInfo} {s : Scope Window} {args : Args} (st : Store)
    (h : info.types.Fits s.file) (hs : s.file.states = info.states)
    (hr : ∀ r ∈ args.registers, r < s.file.size) :
    TypeSeq.Covers ⟨args.fixed.map info.operandType, args.spread⟩ (s.values st args) where
  types i := by
    cases ho : args.fixed[i]? with
    | some o =>
      have hvalue : valueAt (s.values st args) i = s.value st o := by
        have hlt : i < (args.fixed.map (s.value st)).length := by
          simpa using (List.getElem?_eq_some_iff.mp ho).1
        rw [valueAt, Scope.values, List.getElem?_append_left hlt, List.getElem?_map, ho]
        rfl
      have htype : TypeSeq.get ⟨args.fixed.map info.operandType, args.spread⟩ i =
          info.operandType o := by simp [TypeSeq.get, ho]
      rw [hvalue, htype]
      exact staticType_operand st h hs fun r hmem =>
        hr r (List.mem_flatMap.mpr ⟨o, List.mem_of_getElem? ho, hmem⟩)
    | none =>
      have hlen : args.fixed.length ≤ i := List.getElem?_eq_none_iff.mp ho
      rw [TypeSeq.get_of_length_le _ (by simpa using hlen), TypeSeq.filler]
      -- Behind the operands anything may be spread, or nothing follows.
      cases hspread : args.spread with
      | true => exact ValueType.isSubtypeOf_any _
      | false =>
        have hvalue : valueAt (s.values st args) i = .nil := by
          simp [valueAt, Scope.values, hspread, hlen]
        rw [hvalue]
        rfl
  length hspread := by
    have hspread : args.spread = false := hspread
    simp [Scope.values, hspread]

namespace Procedure

variable {p : Procedure} {codes : List Code} {b : Nat} {info : RegisterInfo}

/-- The shapes of what is returned at the exits that can be reached. -/
def returnShapes (p : Procedure) : List TypeSeq := p.lowerBlocks.filterMap (·.2)

theorem mem_returnShapes {block : Block} {shape : TypeSeq} (hb : p.blocks[b]? = some block)
    (h : p.infoAt b block.ops.length = some info)
    (hshape : returnShape? info block.exit = some shape) : shape ∈ p.returnShapes := by
  obtain ⟨entry, hentry, rfl⟩ := Option.map_eq_some_iff.mp h
  rw [opsOf_eq hb, List.take_length] at hshape
  obtain ⟨hs, ht⟩ := entryInfo_eq_some.mp hentry
  have hs' : p.captures[b]?.join = some entry.states := hs
  have ht' : (p.registerTypes p.captures)[b]?.join = some entry.types := ht
  have hget : p.lowerBlocks[b]? = some (p.lowerBlock p.captures entry block) := by
    simp only [lowerBlocks, List.getElem?_map, List.getElem?_zipIdx, hb, Option.map_some,
      Nat.zero_add, hs', ht']
  refine List.mem_filterMap.mpr ⟨_, List.mem_of_getElem? hget, ?_⟩
  rw [← hshape, ← lowerOps_snd]
  rfl

theorem covers_returnType {shapes : List TypeSeq} {shape : TypeSeq} {vs : List Value}
    (hmem : shape ∈ shapes) (h : shape.Covers vs) : (returnType shapes).Covers vs := by
  cases shapes with
  | nil => cases hmem
  | cons first rest => exact TypeSeq.covers_foldl_join ⟨shape, hmem, h⟩

/-- **The length of the return type is the greatest** of those of the shapes, if all are known. -/
theorem exactLength?_returnType {shapes : List TypeSeq} {shape : TypeSeq} {n : Nat}
    (hmem : shape ∈ shapes) (h : (returnType shapes).exactLength? = some n) :
    (∀ s ∈ shapes, ∃ k ≤ n, s.exactLength? = some k) ∧ ∃ s ∈ shapes, s.exactLength? = some n := by
  cases shapes with
  | nil => cases hmem
  | cons first rest => exact TypeSeq.exactLength?_foldl_join h

/-- **Where a call returns** there is an exit that does, with its shape among those of the
procedure. -/
theorem exists_ret {pc : Nat} {sources : SourceList}
    (h : (p.assemble codes).instrs[pc]? = some (.ret sources)) :
    ∃ b block info args, p.blocks[b]? = some block ∧ block.exit = .ret args ∧
      p.infoAt b block.ops.length = some info ∧ pc = p.opAddress b block.ops.length ∧
      sources = info.states.sources args ∧
      ⟨args.fixed.map info.operandType, args.spread⟩ ∈ p.returnShapes := by
  have hdeparts : Instr.Departs (.ret sources) := trivial
  obtain ⟨b, block, info, hb, hinfo, hpc, hlines⟩ := exists_exit hdeparts h
  cases hexit : block.exit with
  | ret args =>
    rw [hexit] at hlines
    cases hlines
    exact ⟨b, block, info, args, hb, hexit, hinfo, hpc, rfl,
      mem_returnShapes hb hinfo (by rw [hexit]; rfl)⟩
  | tailCall | branch => rw [hexit] at hlines; cases hlines
  | jump c =>
    rw [hexit] at hlines
    exact absurd hdeparts (stays_lowerEdge (.instr _) (hlines ▸ List.mem_singleton_self _))

/-- Where a call leaves a tail call there is the shape of any results. -/
theorem vararg_mem_returnShapes {pc : Nat} {slot : SlotRef} {sources : SourceList}
    (h : (p.assemble codes).instrs[pc]? = some (.tailCall slot sources)) :
    .vararg ∈ p.returnShapes := by
  have hdeparts : Instr.Departs (.tailCall slot sources) := trivial
  obtain ⟨b, block, info, hb, hinfo, -, hlines⟩ := exists_exit hdeparts h
  cases hexit : block.exit with
  | tailCall target args => exact mem_returnShapes hb hinfo (by rw [hexit]; rfl)
  | ret | branch => rw [hexit] at hlines; cases hlines
  | jump c =>
    rw [hexit] at hlines
    exact absurd hdeparts (stays_lowerEdge (.instr _) (hlines ▸ List.mem_singleton_self _))

end Procedure

/-! ### Calls that are over -/

/-- A list that is made without an error has as many elements. -/
theorem length_of_mapM_eq_ok {α β ε : Type} {f : α → Except ε β} : ∀ {xs : List α} {ys : List β},
    xs.mapM f = .ok ys → ys.length = xs.length
  | [], _, h => by cases h; rfl
  | x :: xs, _, h => by
    rw [List.mapM_cons] at h
    obtain ⟨y, -, h⟩ := bind_eq_ok_iff.mp h
    obtain ⟨rest, hrest, h⟩ := bind_eq_ok_iff.mp h
    cases h
    rw [List.length_cons, List.length_cons, length_of_mapM_eq_ok hrest]

theorem Frame.length_arguments {f : Frame} {st : Store} {sources : SourceList} {vs : List Value}
    (h : f.arguments st sources = .ok vs) (hspread : sources.spread = false) :
    vs.length = sources.fixed.length := by
  obtain ⟨fixed, hfixed, heq⟩ := bind_eq_ok_iff.mp h
  cases heq
  simp [hspread, length_of_mapM_eq_ok hfixed]

namespace Activation

variable {p : Procedure} {codes : List Code} {limit : Nat} {closure : Closure}
  {args vs : List Value}

/-- **The shape of some exit covers what a call leaves.** -/
theorem Departs.exists_covers (himp : closure.Implements p codes) (honce : p.ClosesOnce)
    (h : Departs limit closure args vs) : ∃ shape ∈ p.returnShapes, shape.Covers vs := by
  cases h with
  | tailCalls h hadv =>
    obtain ⟨slot, sources, hi⟩ := tailCall_of_tailCalls hadv
    rw [h.closure_eq, himp.code] at hi
    exact ⟨.vararg, Procedure.vararg_mem_returnShapes hi, TypeSeq.covers_vararg vs⟩
  | @returns a st st' received h hadv =>
    obtain ⟨sources, hi, harguments⟩ := ret_of_returns hadv
    rw [h.closure_eq, himp.code] at hi
    obtain ⟨b, block, info, args, hb, hexit, hinfo, hpc, rfl, hmem⟩ := Procedure.exists_ret hi
    obtain ⟨hstates, hfits⟩ := (typed_of_reached himp honce h).at_opAddress hinfo hpc
    have hregisters : ∀ r ∈ args.registers, r < a.frame.window.size := by
      have hvalid := (himp.valid.exit block (List.mem_of_getElem? hb)).registers
      rw [hexit] at hvalid
      rw [← Window.length_states, hstates, (Procedure.sized_infoAt himp.valid hinfo).states]
      exact hvalid
    rw [← hstates, Frame.arguments_sources st hregisters] at harguments
    cases harguments
    exact ⟨_, hmem, covers_values st hfits hstates hregisters⟩

/-- **A call leaves as many values as some exit**, if the shape of that exit has a length. -/
theorem Departs.exists_length (hcode : closure.code = p.assemble codes)
    (h : Departs limit closure args vs) :
    ∃ shape ∈ p.returnShapes, ∀ n, shape.exactLength? = some n → vs.length = n := by
  cases h with
  | tailCalls h hadv =>
    obtain ⟨slot, sources, hi⟩ := tailCall_of_tailCalls hadv
    rw [h.closure_eq, hcode] at hi
    exact ⟨.vararg, Procedure.vararg_mem_returnShapes hi, nofun⟩
  | returns h hadv =>
    obtain ⟨sources, hi, harguments⟩ := ret_of_returns hadv
    rw [h.closure_eq, hcode] at hi
    obtain ⟨b, block, info, args, -, -, -, -, rfl, hmem⟩ := Procedure.exists_ret hi
    refine ⟨_, hmem, fun n hn => ?_⟩
    cases hspread : args.spread with
    | true => simp [TypeSeq.exactLength?, hspread] at hn
    | false =>
      rw [Frame.length_arguments harguments hspread]
      simpa [TypeSeq.exactLength?, hspread, SlotStates.sources] using hn

end Activation

/-- A value is called by this operation: by itself, or as the handler of a request. -/
def Machine.CallsBy (m : Machine) (target : Value) (args : List Value) (c : Control) : Prop :=
  c = .invoke target args ∨ ∃ q, c = .request q ∧ m.resolve q = .handler target args

namespace Machine

variable {p : Procedure} {codes : List Code} {m m' : Machine} {c : Control} {target : Value}
  {args : List Value} {callee : Callee} {id : ClosureId}

/-- A request that is over is so with the call of its handler. -/
theorem CallsBy.completes (hcalls : m.CallsBy target args c) (h : m.Completes c m') :
    ∃ m₁ : Machine, m₁.store = m.store ∧ m₁.limits = m.limits ∧
      m₁.Completes (.invoke target args) m' := by
  rcases hcalls with rfl | ⟨q, rfl, hresolve⟩
  · exact ⟨m, rfl, rfl, h⟩
  · obtain ⟨n, hcount⟩ := Run.exists_count m q
    obtain ⟨n', hhandler⟩ := Run.exists_countHandler { m with counters := n } q
    rw [completes_of_handler hresolve, hcount, hhandler] at h
    exact ⟨{ m with counters := n' }, rfl, rfl, h⟩

theorem CallsBy.departs (hcalls : m.CallsBy target args c)
    (hcallee : m.store.callee target = .ok callee) (hid : callee.function = .closure id)
    (hcode : (m.store.closure id).code.Compiled) (h : m.Completes c m') :
    Activation.Departs m.limits.maxIndexChain (m.store.closure id) (callee.arguments target args)
      m'.channel.values := by
  obtain ⟨m₁, hstore, hlimits, h⟩ := hcalls.completes h
  rw [← hstore] at hcallee hcode ⊢
  rw [← hlimits]
  exact h.departs hcallee hid hcode

end Machine

section Calls

variable {p : Procedure} {code : Code} {m : Machine} {c : Control} {target : Value}
  {args : List Value} {callee : Callee} {id : ClosureId}

/-- **The return type covers what is returned.** A closure of an accepted procedure is called. When
the call is over, after any suspensions, by a return or by a tail call that is over, the return type
covers its results; and above any stack it ends by handing these results to whoever waits. -/
theorem return_type_covers (hcompile : p.compile = .ok code) (honce : p.ClosesOnce)
    (hcallee : m.store.callee target = .ok callee) (hid : callee.function = .closure id)
    (hcode : (m.store.closure id).code = code)
    (hupvalues : (m.store.closure id).upvalues.size = p.upvalues.length)
    (hcalls : m.CallsBy target args c) :
    (∀ m', m.Completes c m' → code.returns.Covers m'.channel.values) ∧
    ∀ (below u : Run) (c' : Control) (m' : Machine), below.isBase = false →
      Run.ComesTo ⟨m, [], [], true⟩ c u c' → Run.Atop below u c' →
      u.step c' = .done (.settled m') →
        (u.above below).step c' = (below.withMachine m').proceed ∧
          code.returns.Covers m'.channel.values := by
  have hcovers : ∀ m', m.Completes c m' → code.returns.Covers m'.channel.values := by
    intro m' h
    have hdeparts := hcalls.departs hcallee hid ⟨p, hcode ▸ hcompile⟩ h
    obtain ⟨hvalid, codes, hnested, rfl⟩ := Procedure.compile_eq_ok_iff.mp hcompile
    obtain ⟨shape, hmem, hshape⟩ :=
      hdeparts.exists_covers ⟨hvalid, hnested, hcode, hupvalues⟩ honce
    exact Procedure.covers_returnType hmem hshape
  refine ⟨hcovers, fun below u c' m' hbelow hcomes hatop hs => ⟨?_, hcovers m' ⟨u, c', hcomes, hs⟩⟩⟩
  rw [Run.step_above hatop fun _ hbase => by simp [hbelow] at hbase, hs]
  rfl

/-- A machine with one closure, of this procedure. -/
def Machine.ofProcedure (p : Procedure) : Machine :=
  { Machine.standard .standard with
    store := ((Machine.standard .standard).store.addClosure ⟨p.assemble [], #[]⟩).2 }

theorem Machine.callee_ofProcedure (p : Procedure) :
    (Machine.ofProcedure p).store.callee (.closure ⟨0⟩) = .ok (.direct (.closure ⟨0⟩)) := rfl

theorem Machine.closure_ofProcedure (p : Procedure) :
    (Machine.ofProcedure p).store.closure ⟨0⟩ = ⟨p.assemble [], #[]⟩ := rfl

/-- The procedure calls a routine that suspends; after the resumption it returns a number, and
nothing else. -/
theorem return_type_covers_doubling : ∃ m',
    (Machine.ofProcedure Activation.doubling).Completes (.invoke (.closure ⟨0⟩) [.routine ⟨9⟩]) m' ∧
    m'.channel.values = [.integer 6] ∧
    (Activation.doubling.assemble []).returns = ⟨[.integer], false⟩ ∧
    (Activation.doubling.assemble []).returns.Covers m'.channel.values := by
  have honce : Activation.doubling.ClosesOnce := by
    intro b hb rs hrs
    simp only [Activation.doubling, List.mem_singleton] at hb
    subst hb
    simp at hrs
  obtain ⟨m₁, s, m₂, hsuspended, hroom, hresumed, hvalues⟩ : ∃ m₁ s m₂,
      Run.run 20 ⟨Machine.ofProcedure Activation.doubling, [], [], true⟩
        (.invoke (.closure ⟨0⟩) [.routine ⟨9⟩]) = some (.suspended m₁ s) ∧ m₁.hasRoom s = true ∧
      (m₁.resumed s []).run 20 .settled = some (.settled m₂) ∧ m₂.channel.values = [.integer 6] :=
    ⟨_, _, _, rfl, rfl, rfl, rfl⟩
  have h : (Machine.ofProcedure Activation.doubling).Completes
      (.invoke (.closure ⟨0⟩) [.routine ⟨9⟩]) m₂ :=
    Run.completes_of_suspended hsuspended ⟨.refl m₁, id⟩ hroom (Run.completes_of_run hresumed)
  have hclosure := Machine.closure_ofProcedure Activation.doubling
  obtain ⟨hcovers, -⟩ := return_type_covers Activation.compile_doubling honce
    (Machine.callee_ofProcedure _) rfl (congrArg _ hclosure) (by rw [hclosure]; rfl) (.inl rfl)
  exact ⟨m₂, h, hvalues, rfl, hcovers m₂ h⟩

/-! ### Lengths -/

/-- **The length of the return type is the greatest that a return has.** A call of a closure of an
accepted procedure is over. It has left no more values than the return type says, and as many as
some exit returns; so it has left as many as the return type says if all exits return as many. -/
theorem exact_length_greatest {m' : Machine} {n : Nat} (hcompile : p.compile = .ok code)
    (hcallee : m.store.callee target = .ok callee) (hid : callee.function = .closure id)
    (hcode : (m.store.closure id).code = code) (hcalls : m.CallsBy target args c)
    (h : m.Completes c m') (hn : code.returns.exactLength? = some n) :
    m'.channel.values.length ≤ n ∧
    (∃ shape ∈ p.returnShapes, shape.exactLength? = some m'.channel.values.length) ∧
    (∃ shape ∈ p.returnShapes, shape.exactLength? = some n) ∧
    ((∀ a ∈ p.returnShapes, ∀ b ∈ p.returnShapes, a.exactLength? = b.exactLength?) →
      m'.channel.values.length = n) := by
  have hdeparts := hcalls.departs hcallee hid ⟨p, hcode ▸ hcompile⟩ h
  obtain ⟨-, codes, -, rfl⟩ := Procedure.compile_eq_ok_iff.mp hcompile
  obtain ⟨shape, hmem, hlength⟩ := hdeparts.exists_length hcode
  obtain ⟨hall, longest, hlongest, hgreatest⟩ := Procedure.exactLength?_returnType hmem hn
  obtain ⟨k, hle, hk⟩ := hall shape hmem
  obtain rfl := hlength k hk
  refine ⟨hle, ⟨shape, hmem, hk⟩, ⟨longest, hlongest, hgreatest⟩, fun hsame => ?_⟩
  exact Option.some.inj (hk.symm.trans ((hsame shape hmem longest hlongest).trans hgreatest))

/-- A procedure that returns a number, or nothing. -/
def Procedure.choosing : Procedure where
  name := "choosing"
  params := 1
  isVararg := false
  registers := 1
  upvalues := []
  blocks := [⟨[], .branch 0 1 2⟩, ⟨[], .ret ⟨[.const (.integer 1)], false⟩⟩, ⟨[], .ret ⟨[], false⟩⟩]
  nested := []

theorem compile_choosing : Procedure.choosing.compile = .ok (Procedure.choosing.assemble []) :=
  Procedure.compile_eq_ok_iff.mpr ⟨Procedure.check_eq_ok_iff.mp rfl, [], .nil, rfl⟩

/-- The call that returns the number has the greatest length. -/
theorem exact_length_greatest_choosing : ∃ m',
    (Machine.ofProcedure .choosing).Completes (.invoke (.closure ⟨0⟩) [.boolean true]) m' ∧
    m'.channel.values = [.integer 1] ∧ m'.channel.values.length ≤ 1 ∧
    ∃ shape ∈ Procedure.choosing.returnShapes,
      shape.exactLength? = some m'.channel.values.length := by
  obtain ⟨m', hrun, hvalues⟩ : ∃ m',
      Run.run 20 ⟨Machine.ofProcedure .choosing, [], [], true⟩
        (.invoke (.closure ⟨0⟩) [.boolean true]) = some (.settled m') ∧
      m'.channel.values = [.integer 1] := ⟨_, rfl, rfl⟩
  have h : (Machine.ofProcedure .choosing).Completes (.invoke (.closure ⟨0⟩) [.boolean true]) m' :=
    Run.completes_of_run hrun
  obtain ⟨hle, hshape, -⟩ :=
    exact_length_greatest compile_choosing (Machine.callee_ofProcedure _) rfl
      (congrArg _ (Machine.closure_ofProcedure _)) (.inl rfl) h rfl
  exact ⟨m', h, hvalues, hle, hshape⟩

/-- The return type says that there is exactly one value, and a call returns none. -/
theorem not_exact_choosing : ∃ m',
    Procedure.choosing.compile = .ok (Procedure.choosing.assemble []) ∧
    (Procedure.choosing.assemble []).returns.exactLength? = some 1 ∧
    (Machine.ofProcedure .choosing).Completes (.invoke (.closure ⟨0⟩) [.boolean false]) m' ∧
    m'.channel.values.length ≠ 1 := by
  obtain ⟨m', hrun, hvalues⟩ : ∃ m',
      Run.run 20 ⟨Machine.ofProcedure .choosing, [], [], true⟩
        (.invoke (.closure ⟨0⟩) [.boolean false]) = some (.settled m') ∧
      m'.channel.values = [] := ⟨_, rfl, rfl⟩
  exact ⟨m', compile_choosing, rfl, Run.completes_of_run hrun, by simp [hvalues]⟩

end Calls

end ResumableVM
