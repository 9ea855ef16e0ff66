import ResumableVM.Proofs.Checked
import ResumableVM.Proofs.RegisterTypes

/-! # CheckedAnalyses: the analyses find what they look up

For a procedure that the check passes, the analyses with every look-up checked come to what the
analyses come to (`captures_eq`, `registerTypes_eq`). An analysis is `Safe` when every state that an
entry can hold flows through its block; then no visit of a block crashes. The states that the arena
has at a point are those that flow there (`statesAt_eq`). -/

namespace ResumableVM.Checked

/-- A fold without errors is that of the results, where something is kept along the way. -/
theorem foldlM_eq_ok {ε α β : Type} {f : β → α → Except ε β} {g : β → α → β} {P : β → Prop} :
    ∀ {l : List α} {b : β}, P b → (∀ b, P b → ∀ a ∈ l, f b a = .ok (g b a) ∧ P (g b a)) →
      l.foldlM f b = .ok (l.foldl g b) ∧ P (l.foldl g b)
  | [], _, hb, _ => ⟨rfl, hb⟩
  | a :: l, b, hb, h => by
    obtain ⟨ha, hnext⟩ := h b hb a List.mem_cons_self
    rw [List.foldlM_cons, ha, List.foldl_cons]
    exact foldlM_eq_ok hnext fun b hb x hx => h b hb x (List.mem_cons_of_mem a hx)

variable {p : Procedure} {states : SlotStates} {types : TypeSeq}

/-! ### Registers -/

theorem stateOf_eq {r : Nat} (h : r < states.length) : stateOf states r = .ok (states.of r) := by
  rw [stateOf, SlotStates.getElem?_eq_of h]

theorem slot_eq {r : Nat} (h : r < states.length) : slot states r = .ok (states.slot r) := by
  rw [slot, stateOf_eq h, SlotStates.slot]
  cases states.of r <;> rfl

theorem source_eq {o : Operand} (h : ∀ r ∈ o.registers, r < states.length) :
    source states o = .ok (states.source o) := by
  cases o with
  | register r =>
    rw [source, slot_eq (h r (List.mem_singleton_self r))]
    rfl
  | const c => rfl

theorem sources_eq {args : Args} (h : ∀ r ∈ args.registers, r < states.length) :
    sources states args = .ok (states.sources args) := by
  have hall : args.fixed.mapM (source states) = .ok (args.fixed.map states.source) :=
    mapM_eq_ok fun o ho => source_eq fun r hr => h r (List.mem_flatMap.mpr ⟨o, ho, hr⟩)
  rw [sources, hall]
  rfl

theorem receiver_eq {results : Results} (h : ∀ r ∈ results.registers, r < states.length) :
    receiver states results = .ok (states.receiver results) := by
  match results with
  | .multi => rfl
  | .fixed [] => rfl
  | .fixed [r] =>
    rw [receiver, slot_eq (h r (List.mem_singleton_self r))]
    rfl
  | .fixed (r :: r' :: rs) =>
    have hall : (r :: r' :: rs).mapM (slot states) = .ok ((r :: r' :: rs).map states.slot) :=
      mapM_eq_ok fun i hi => slot_eq (h i hi)
    show Receiver.fixed <$> (r :: r' :: rs).mapM (slot states) = _
    rw [hall]
    rfl

theorem inState_eq (s : SlotState) : ∀ {rs : List Nat}, (∀ r ∈ rs, r < states.length) →
    inState states s rs = .ok (rs.filter (states.of · == s))
  | [], _ => rfl
  | r :: rs, h => by
    obtain ⟨hr, hrs⟩ := List.forall_mem_cons.mp h
    rw [inState, stateOf_eq hr, inState_eq s hrs, List.filter_cons]
    simp [bind, Except.bind, pure, Except.pure]

theorem capturedBy_eq {dst proto : Nat} (h : p.ValidOp (.closure dst proto)) :
    capturedBy p proto = .ok (p.capturedBy proto) := by
  obtain ⟨n, hn, -⟩ := h.nested
  simp only [capturedBy, Procedure.capturedBy, hn, Option.map_some, Option.getD_some]

theorem setAll_eq {s : SlotState} {rs : List Nat} (h : ∀ r ∈ rs, r < states.length) :
    rs.foldlM (setState s) states = .ok (states.setAll rs s) := by
  refine (foldlM_eq_ok (P := fun t => t.length = states.length) rfl fun t ht r hr => ?_).1
  exact ⟨if_pos (ht ▸ h r hr), by rw [List.length_set, ht]⟩

/-- **The states flow through an operation** that names only what exists. -/
theorem captureFlow_eq (hlen : states.length = p.registers) {op : Op} (hop : p.ValidOp op) :
    captureFlow p states op = .ok (p.captureFlow states op) := by
  cases op with
  | closure dst proto =>
    rw [captureFlow, capturedBy_eq hop]
    exact setAll_eq fun r hr => hlen ▸ hop.capturedBy_lt r hr
  | close rs => exact setAll_eq fun r hr => hlen ▸ hop.registers r hr
  | _ => rfl

/-! ### Types -/

theorem typeOf_eq {r : Nat} (h : r < states.length) :
    typeOf ⟨states, types⟩ r = .ok (RegisterInfo.typeOf ⟨states, types⟩ r) := by
  rw [typeOf, stateOf_eq h, RegisterInfo.typeOf]
  cases states.of r <;> rfl

theorem operandType_eq {o : Operand} (h : ∀ r ∈ o.registers, r < states.length) :
    operandType ⟨states, types⟩ o = .ok (RegisterInfo.operandType ⟨states, types⟩ o) := by
  cases o with
  | register r => exact typeOf_eq (h r (List.mem_singleton_self r))
  | const c => rfl

theorem writtenTypes_eq {op : Op} (h : ∀ r ∈ op.registers, r < states.length) :
    writtenTypes ⟨states, types⟩ op = .ok (op.writtenTypes ⟨states, types⟩) := by
  cases op with
  | move dst src =>
    rw [writtenTypes, typeOf_eq (h src (by simp [Op.registers]))]
    rfl
  | arith dst op a b =>
    rw [writtenTypes, operandType_eq fun r hr => h r (by simp [Op.registers, hr]),
      operandType_eq fun r hr => h r (by simp [Op.registers, hr])]
    rfl
  | unary dst op src =>
    have hsrc : operandType ⟨states, types⟩ src =
        .ok (RegisterInfo.operandType ⟨states, types⟩ src) :=
      operandType_eq fun r hr => h r (by simp [Op.registers, hr])
    cases op with
    | not => rfl
    | _ =>
      rw [writtenTypes, hsrc]
      rfl
  | _ => rfl

theorem forget_eq : ∀ {states : SlotStates} {ts : List ValueType} (r : Nat),
    states.length ≤ ts.length → forget r states ts = .ok (SlotStates.forget states ts)
  | [], ts, _, _ => by cases ts <;> rfl
  | .captured :: states, t :: ts, r, h => by
    rw [forget, forget_eq (r + 1) (by simpa using h)]
    rfl
  | .plain :: states, t :: ts, r, h => by
    rw [forget, forget_eq (r + 1) (by simpa using h)]
    rfl

/-- An operation writes to registers that it names. -/
theorem mem_registers_of_mem_writtenTypes {info : RegisterInfo} {op : Op} {w : Nat × ValueType}
    (h : w ∈ op.writtenTypes info) : w.1 ∈ op.registers := by
  cases op with
  | call target args results =>
    obtain ⟨r, hr, rfl⟩ := List.mem_map.mp h
    exact List.mem_cons_of_mem _ (List.mem_append_right _ hr)
  | vararg results =>
    obtain ⟨r, hr, rfl⟩ := List.mem_map.mp h
    exact hr
  | setUpvalue | setIndex | close => cases h
  | _ =>
    obtain rfl := List.mem_singleton.mp h
    simp [Op.registers]

/-- **The types flow through an operation** that names only what exists. -/
theorem typeFlow_eq (hinfo : p.Sized ⟨states, types⟩) {op : Op} (hop : p.ValidOp op) :
    typeFlow op states (p.captureFlow states op) types =
      .ok (p.typeFlow ⟨states, types⟩ op).types := by
  have hlen : states.length = p.registers := hinfo.states
  have hregisters (r : Nat) (hr : r ∈ op.registers) : r < states.length :=
    hlen ▸ hop.registers r hr
  obtain ⟨hfold, hwritten⟩ := foldlM_eq_ok (f := setType) (g := fun types w => types.set w.1 w.2)
    (P := (·.HasLength p.registers)) (l := op.writtenTypes ⟨states, types⟩) hinfo.types
    fun t ht w hw => ⟨if_pos (ht.length ▸ hop.registers _ (mem_registers_of_mem_writtenTypes hw)),
      ht.set w.1 w.2⟩
  have hshort : (states.zipWith SlotState.join (p.captureFlow states op)).length ≤ p.registers := by
    rw [List.length_zipWith, hlen]
    omega
  rw [typeFlow, writtenTypes_eq hregisters]
  simp only [bind, Except.bind, hfold, forget_eq 0 (hshort.trans_eq hwritten.length.symm),
    pure, Except.pure]
  rfl

/-! ### The analyses -/

section Dataflow

variable {α : Type} {d : Dataflow α} {flow : Nat → α → Except Crash α}
  {I : Dataflow.Entries α → Prop} {K : Nat → α → Prop}

/-- **What keeps an analysis from crashing**: its successors exist, and every state that an entry
can hold flows through its block. `I` is kept along the way, and says `K` of a state that is read
from an entry. -/
structure Safe (d : Dataflow α) (flow : Nat → α → Except Crash α)
    (I : Dataflow.Entries α → Prop) (K : Nat → α → Prop) : Prop where
  nonempty : 0 < d.blocks.size
  initial : I d.initial
  size : ∀ es, I es → es.size = d.blocks.size
  read : ∀ es b s, I es → es[b]? = some (some s) → K b s
  merge : ∀ b block s t es, d.blocks[b]? = some block → K b s → t ∈ block.successors →
    I es → I (es.modify t (d.merge (block.flow s)))
  flows : ∀ b block s, d.blocks[b]? = some block → K b s → flow b s = .ok (block.flow s)
  successors : ∀ block ∈ d.blocks, ∀ t ∈ block.successors, t < d.blocks.size

/-- A visit of a block does not crash. -/
theorem Safe.propagate_eq (h : Safe d flow I K) {es : Dataflow.Entries α} (hes : I es) {b : Nat}
    (hb : b < d.blocks.size) :
    propagate d flow es b = .ok (d.propagate es b) ∧ I (d.propagate es b) := by
  have hblock : d.blocks[b]? = some d.blocks[b] := Array.getElem?_eq_getElem hb
  obtain ⟨entry, hentry⟩ : ∃ entry, es[b]? = some entry :=
    ⟨_, Array.getElem?_eq_getElem (by rwa [h.size es hes])⟩
  simp only [propagate, Dataflow.propagate, hblock, hentry]
  cases entry with
  | none => exact ⟨rfl, hes⟩
  | some s =>
    have hK := h.read es b s hes hentry
    simp only [h.flows b _ s hblock hK, bind, Except.bind]
    refine foldlM_eq_ok hes fun es' hes' t ht => ⟨if_pos ?_, h.merge b _ s t es' hblock hK ht hes'⟩
    rw [h.size es' hes']
    exact h.successors _ (Array.getElem_mem hb) t ht

/-- **Visits of blocks do not crash**, in whatever order they are made. -/
theorem Safe.visits_eq (h : Safe d flow I K) {order : List Nat}
    (horder : ∀ b ∈ order, b < d.blocks.size) {es : Dataflow.Entries α} (hes : I es) :
    order.foldlM (propagate d flow) es = .ok (order.foldl d.propagate es) ∧
      I (order.foldl d.propagate es) :=
  foldlM_eq_ok hes fun _ hes b hb => h.propagate_eq hes (horder b hb)

/-- **The analysis does not crash.** -/
theorem Safe.solve_eq [DecidableEq α] (h : Safe d flow I K) : solve d flow = .ok d.solve := by
  have hiterate (fuel : Nat) : ∀ es, I es → iterate d flow fuel es = .ok (d.iterate fuel es) := by
    induction fuel with
    | zero => exact fun _ _ => rfl
    | succ fuel ih =>
      intro es hes
      obtain ⟨hsweep, hkept⟩ := h.visits_eq (fun b hb => List.mem_range.mp hb) hes
      simp only [iterate, hsweep, bind, Except.bind, Dataflow.iterate]
      change (if d.sweep es = es then _ else _) = _
      split
      · rfl
      · exact ih _ hkept
  rw [solve, if_pos h.nonempty]
  exact hiterate _ _ h.initial

theorem eq_zero_of_initial {b : Nat} {s : α} (h : d.initial[b]? = some (some s)) : b = 0 := by
  by_contra hne
  rw [Dataflow.initial, Array.getElem?_setIfInBounds_ne (Ne.symm hne),
    Array.getElem?_replicate] at h
  split at h <;> simp at h

end Dataflow

theorem blockAt_eq {b : Nat} {block : Block} (hb : p.blocks[b]? = some block) :
    blockAt p b = .ok block := by
  rw [blockAt, hb]

/-- Every state that the analysis of captured registers comes to flows through its block. -/
theorem safe_captureAnalysis (hp : p.Valid) : Safe p.captureAnalysis (statesThrough p)
    (Dataflow.AllGood p.captureAnalysis (·.length = p.registers))
    (fun _ s => s.length = p.registers) := by
  have hlaw := Procedure.lawful_captureAnalysis hp
  refine ⟨?_, Dataflow.allGood_initial hlaw, fun es hes => hes.1, fun es b s hes => hes.2 b s,
    ?_, ?_, hlaw.successors⟩
  · rw [Procedure.size_captureAnalysis]
    exact hp.nonempty
  · intro b block s t es hb hs ht hes
    have hmem := Array.mem_of_getElem? hb
    exact (Dataflow.merge_rising hlaw (hlaw.flow block hmem s hs)
      (hlaw.successors block hmem t ht) es hes).1
  · intro b flowBlock s hb hs
    rw [Procedure.getElem?_captureAnalysis] at hb
    obtain ⟨block, hblock, rfl⟩ := Option.map_eq_some_iff.mp hb
    have hmem := List.mem_of_getElem? hblock
    simp only [statesThrough, blockAt_eq hblock, bind, Except.bind]
    refine (foldlM_eq_ok (P := fun t => t.length = p.registers) hs fun t ht op hop => ?_).1
    exact ⟨captureFlow_eq ht (hp.op block hmem op hop), by rw [Procedure.length_captureFlow, ht]⟩

theorem captures_eq (hp : p.Valid) : captures p = .ok p.captures :=
  (safe_captureAnalysis hp).solve_eq

/-! ### The arena -/

/-- The states at each point of a block. -/
theorem statesAlong_eq : ∀ {ops : List Op} {states : SlotStates}, states.length = p.registers →
    (∀ op ∈ ops, p.ValidOp op) → statesAlong p states ops = .ok (p.statesAlong states ops)
  | [], _, _, _ => rfl
  | op :: ops, states, hlen, h => by
    obtain ⟨hop, hops⟩ := List.forall_mem_cons.mp h
    have hnext : (p.captureFlow states op).length = p.registers := by
      rw [Procedure.length_captureFlow, hlen]
    rw [statesAlong, captureFlow_eq hlen hop]
    simp only [bind, Except.bind, statesAlong_eq hnext hops]
    rfl

theorem getElem?_statesAlong : ∀ {ops : List Op} {states : SlotStates} {i : Nat}, i ≤ ops.length →
    (p.statesAlong states ops)[i]? = some ((ops.take i).foldl p.captureFlow states)
  | [], states, i, h => by
    obtain rfl : i = 0 := Nat.le_zero.mp h
    rfl
  | op :: ops, states, 0, _ => rfl
  | op :: ops, states, i + 1, h => by
    rw [Procedure.statesAlong, List.getElem?_cons_succ, List.take_succ_cons, List.foldl_cons]
    exact getElem?_statesAlong (by simpa using h)

/-- The points of a block stand behind those before it. -/
theorem getElem?_offsetsFrom : ∀ {blocks : List (Option (List SlotStates))} (count : Nat) {b : Nat}
    {points : List SlotStates}, blocks[b]? = some (some points) →
    ∃ offset, (offsetsFrom count blocks)[b]? = some (some (count + offset)) ∧
      ∀ i < points.length, (blocks.map (·.getD [])).flatten[offset + i]? = points[i]?
  | [], _, _, _, h => by simp at h
  | none :: blocks, count, 0, points, h => by simp at h
  | none :: blocks, count, b + 1, points, h => by
    obtain ⟨offset, hoffset, hpoints⟩ := getElem?_offsetsFrom count (by simpa using h)
    exact ⟨offset, by simpa [offsetsFrom] using hoffset, by simpa using hpoints⟩
  | some before :: blocks, count, 0, points, h => by
    obtain rfl : before = points := by simpa using h
    refine ⟨0, by simp [offsetsFrom], fun i hi => ?_⟩
    simp [List.getElem?_append_left hi]
  | some before :: blocks, count, b + 1, points, h => by
    obtain ⟨offset, hoffset, hpoints⟩ :=
      getElem?_offsetsFrom (count + before.length) (by simpa using h)
    refine ⟨before.length + offset, ?_, fun i hi => ?_⟩
    · simpa [offsetsFrom, Nat.add_assoc] using hoffset
    · rw [← hpoints i hi, List.map_cons, List.flatten_cons, Option.getD_some,
        List.getElem?_append_right (by omega)]
      congr 1
      omega

/-- A row of pieces of one length is cut at multiples of it. -/
theorem take_drop_flatten {α : Type} {n : Nat} : ∀ {pieces : List (List α)} {i : Nat}
    {piece : List α}, (∀ x ∈ pieces, x.length = n) → pieces[i]? = some piece →
    i * n + n ≤ pieces.flatten.length ∧ (pieces.flatten.drop (i * n)).take n = piece
  | [], _, _, _, h => by simp at h
  | x :: pieces, 0, piece, hlen, h => by
    obtain rfl : x = piece := by simpa using h
    have hx : x.length = n := hlen x List.mem_cons_self
    simp [← hx]
  | x :: pieces, i + 1, piece, hlen, h => by
    obtain ⟨hx, hrest⟩ := List.forall_mem_cons.mp hlen
    obtain ⟨hle, hcut⟩ := take_drop_flatten hrest (by simpa using h)
    rw [List.flatten_cons, List.length_append, hx, Nat.add_one_mul]
    refine ⟨by omega, ?_⟩
    rw [← hcut, Nat.add_comm, ← List.drop_drop, List.drop_left' hx]

/-- The points of a procedure's blocks. -/
def blockPoints (p : Procedure) : List (Option (List SlotStates)) :=
  p.blocks.zipIdx.map fun block => (p.entryStates block.2).map (p.statesAlong · block.1.ops)

/-- The arena of a procedure that keeps the rules. -/
def arenaOf (p : Procedure) : Arena :=
  ⟨p.registers, offsetsFrom 0 (blockPoints p), ((blockPoints p).map (·.getD [])).flatten.flatten⟩

theorem getElem?_blockPoints {b : Nat} {block : Block} (hb : p.blocks[b]? = some block) :
    (blockPoints p)[b]? = some ((p.entryStates b).map (p.statesAlong · block.ops)) := by
  simp [blockPoints, List.getElem?_zipIdx, hb]

theorem arena_eq (hp : p.Valid) : arena p p.captures = .ok (arenaOf p) := by
  have hpoints : p.blocks.zipIdx.mapM (points p p.captures) = .ok (blockPoints p) := by
    refine mapM_eq_ok fun ⟨block, b⟩ hmem => ?_
    have hb : p.blocks[b]? = some block := List.mem_zipIdx_iff_getElem?.mp hmem
    have hsize : p.captures.size = p.blocks.length :=
      (Dataflow.allGood_solve (Procedure.lawful_captureAnalysis hp)).1.trans
        Procedure.size_captureAnalysis
    obtain ⟨entry, hentry⟩ : ∃ entry, p.captures[b]? = some entry :=
      ⟨_, Array.getElem?_eq_getElem (hsize ▸ (List.getElem?_eq_some_iff.mp hb).1)⟩
    have hstates : p.entryStates b = entry := by
      rw [Procedure.entryStates, hentry, Option.join_some]
    simp only [points, hentry, hstates]
    cases entry with
    | none => rfl
    | some states =>
      show some <$> statesAlong p states block.ops = _
      rw [statesAlong_eq (Procedure.length_entryStates hp hstates)
        (hp.op block (List.mem_of_getElem? hb))]
      rfl
  rw [arena, hpoints]
  rfl

theorem length_of_mem_statesAlong : ∀ {ops : List Op} {states x : SlotStates},
    x ∈ p.statesAlong states ops → x.length = states.length
  | [], states, x, h => by rw [List.mem_singleton.mp h]
  | op :: ops, states, x, h => by
    rcases List.mem_cons.mp h with rfl | h
    · rfl
    · rw [length_of_mem_statesAlong h, Procedure.length_captureFlow]

/-- **The states before an operation are where the arena has them.** -/
theorem statesAt_eq (hp : p.Valid) {b i : Nat} {block : Block} (hb : p.blocks[b]? = some block)
    (hi : i ≤ block.ops.length) {entry : SlotStates} (he : p.entryStates b = some entry) :
    (arenaOf p).statesAt b i = .ok ((block.ops.take i).foldl p.captureFlow entry) := by
  have hpoints := getElem?_blockPoints hb
  rw [he, Option.map_some] at hpoints
  obtain ⟨offset, hoffset, hflat⟩ := getElem?_offsetsFrom 0 hpoints
  have hpoint : (p.statesAlong entry block.ops)[i]? =
      some ((block.ops.take i).foldl p.captureFlow entry) := getElem?_statesAlong hi
  have hlt := (List.getElem?_eq_some_iff.mp hpoint).1
  -- All pieces of the row have one length, so the point's is cut out whole.
  have hlength : ∀ x ∈ ((blockPoints p).map (·.getD [])).flatten, x.length = p.registers := by
    intro x hx
    obtain ⟨_, hpiece, hx⟩ := List.mem_flatten.mp hx
    obtain ⟨_, hblock, rfl⟩ := List.mem_map.mp hpiece
    obtain ⟨⟨block', b'⟩, -, rfl⟩ := List.mem_map.mp hblock
    cases he' : p.entryStates b' with
    | none => simp [he'] at hx
    | some entry' =>
      simp only [he', Option.map_some, Option.getD_some] at hx
      rw [length_of_mem_statesAlong hx, Procedure.length_entryStates hp he']
  obtain ⟨hle, hcut⟩ := take_drop_flatten hlength ((hflat i hlt).trans hpoint)
  rw [Nat.zero_add] at hoffset
  simp only [Arena.statesAt, arenaOf, hoffset, if_pos hle, hcut]

theorem map_isSome_offsetsFrom : ∀ (count : Nat) (blocks : List (Option (List SlotStates))),
    (offsetsFrom count blocks).map Option.isSome = blocks.map Option.isSome
  | _, [] => rfl
  | count, none :: blocks => by
    rw [offsetsFrom, List.map_cons, List.map_cons, map_isSome_offsetsFrom count blocks]
    rfl
  | count, some points :: blocks => by
    rw [offsetsFrom, List.map_cons, List.map_cons, map_isSome_offsetsFrom _ blocks]
    rfl

/-- The arena has the points of the blocks that have states on entry. -/
theorem isReachable_eq {b : Nat} {block : Block} (hb : p.blocks[b]? = some block) :
    (arenaOf p).isReachable b = (p.entryStates b).isSome := by
  have hsome := congrArg (·[b]?) (map_isSome_offsetsFrom 0 (blockPoints p))
  simp only [List.getElem?_map, getElem?_blockPoints hb, Option.map_some, Option.isSome_map]
    at hsome
  obtain ⟨offset, hoffset, hiff⟩ := Option.map_eq_some_iff.mp hsome
  simp only [Arena.isReachable, arenaOf, hoffset, Option.join_some, hiff]

/-! ### Through a block -/

/-- A point of a block that can be reached, with what is known there and the operations left. -/
structure At (p : Procedure) (b : Nat) (block : Block) (i : Nat) (info : RegisterInfo)
    (ops : List Op) : Prop where
  here : p.blocks[b]? = some block
  inside : i ≤ block.ops.length
  left : block.ops.drop i = ops
  states : ∃ entry, p.entryStates b = some entry ∧
    (block.ops.take i).foldl p.captureFlow entry = info.states
  sized : p.Sized info

namespace At

variable {b i : Nat} {block : Block} {info : RegisterInfo} {op : Op} {ops : List Op}

/-- The arena has the states of the point. -/
theorem statesAt (hp : p.Valid) (h : At p b block i info ops) :
    (arenaOf p).statesAt b i = .ok info.states := by
  obtain ⟨entry, he, hstates⟩ := h.states
  rw [statesAt_eq hp h.here h.inside he, hstates]

theorem validOp (hp : p.Valid) (h : At p b block i info (op :: ops)) : p.ValidOp op := by
  refine hp.op block (List.mem_of_getElem? h.here) op (List.mem_of_mem_drop (i := i) ?_)
  rw [h.left]
  exact List.mem_cons_self

/-- The next point. -/
theorem next (h : At p b block i info (op :: ops)) :
    At p b block (i + 1) (p.typeFlow info op) ops where
  here := h.here
  inside := by
    by_contra hlt
    have := h.left
    rw [List.drop_eq_nil_of_le (by omega)] at this
    cases this
  left := by rw [← List.drop_drop, h.left]; rfl
  states := by
    obtain ⟨entry, he, hstates⟩ := h.states
    have hop : block.ops[i]? = some op := by
      rw [← List.head?_drop, h.left]
      rfl
    refine ⟨entry, he, ?_⟩
    rw [List.take_add_one, hop, Option.toList_some, List.foldl_append, hstates]
    rfl
  sized := h.sized.typeFlow op

/-- The point before the first operation. -/
theorem first (hp : p.Valid) {block : Block} (hb : p.blocks[b]? = some block)
    (he : p.entryStates b = some info.states) (ht : info.types.HasLength p.registers) :
    At p b block 0 info block.ops where
  here := hb
  inside := Nat.zero_le _
  left := rfl
  states := ⟨_, he, rfl⟩
  sized := ⟨Procedure.length_entryStates hp he, ht⟩

end At

/-- The types flow through the operations of a block. -/
theorem typesAlong_eq (hp : p.Valid) {b : Nat} {block : Block} : ∀ {ops : List Op} {i : Nat}
    {info : RegisterInfo}, At p b block i info ops →
    typesAlong (arenaOf p) b i info.types ops = .ok (p.typeFlowAll info ops).types
  | [], _, _, _ => rfl
  | op :: ops, i, info, h => by
    have hflow := typeFlow_eq h.sized (h.validOp hp)
    rw [typesAlong, h.statesAt hp, h.next.statesAt hp]
    simp only [bind, Except.bind, Procedure.typeFlow_states, hflow]
    exact typesAlong_eq hp h.next

/-- Every state that the analysis of register types comes to flows through its block. Only blocks
that can be reached get an entry, and those have states in the arena. -/
theorem safe_typeAnalysis (hp : p.Valid) :
    Safe (p.typeAnalysis p.captures) (typesThrough p (arenaOf p))
      (fun es => Dataflow.AllGood (p.typeAnalysis p.captures) (·.HasLength p.registers) es ∧
        ∀ b types, es[b]? = some (some types) → p.Reaches b)
      (fun b types => types.HasLength p.registers ∧ p.Reaches b) := by
  have hlaw := @Procedure.lawful_typeAnalysis p p.captures hp
  have hsuccessors {b t : Nat} {block : FlowBlock TypeSeq}
      (hb : (p.typeAnalysis p.captures).blocks[b]? = some block) (ht : t ∈ block.successors) :
      t ∈ p.successorsOf b := by
    have hsuccessorsOf : (p.typeAnalysis p.captures).successorsOf b = p.successorsOf b :=
      Procedure.successorsOf_typeAnalysis b
    rw [← hsuccessorsOf, Dataflow.successorsOf, hb]
    exact ht
  refine ⟨?_, ⟨Dataflow.allGood_initial hlaw, ?_⟩, fun es hes => hes.1.1,
    fun es b s hes hs => ⟨hes.1.2 b s hs, hes.2 b s hs⟩, ?_, ?_, hlaw.successors⟩
  · rw [Procedure.size_typeAnalysis]
    exact hp.nonempty
  · intro b types hb
    rw [eq_zero_of_initial hb]
    exact .first
  · intro b block s t es hb hs ht hes
    have hmem := Array.mem_of_getElem? hb
    refine ⟨(Dataflow.merge_rising hlaw (hlaw.flow block hmem s hs.1)
      (hlaw.successors block hmem t ht) es hes.1).1, fun c types hc => ?_⟩
    -- A visit makes entries only for the successors of its block.
    rw [Array.getElem?_modify] at hc
    split at hc
    · next htc => exact htc ▸ hs.2.next (hsuccessors hb ht)
    · exact hes.2 c types hc
  · intro b flowBlock types hb hK
    rw [Procedure.getElem?_typeAnalysis] at hb
    obtain ⟨block, hblock, rfl⟩ := Option.map_eq_some_iff.mp hb
    obtain ⟨states, hstates⟩ := (Procedure.isSome_entryStates_iff hp).mpr hK.2
    have hentry : p.captures[b]?.join = some states := hstates
    have hfirst : At p b block 0 ⟨states, types⟩ block.ops := .first hp hblock hstates hK.1
    simp only [typesThrough, blockAt_eq hblock, bind, Except.bind, hentry, Option.getD_some]
    exact typesAlong_eq hp hfirst

theorem registerTypes_eq (hp : p.Valid) :
    registerTypes p p.captures (arenaOf p) = .ok (p.registerTypes p.captures) :=
  (safe_typeAnalysis hp).solve_eq

end ResumableVM.Checked
