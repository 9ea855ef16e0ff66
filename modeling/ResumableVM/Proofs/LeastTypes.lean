import ResumableVM.Proofs.CapturePaths
import ResumableVM.Proofs.PointwiseComparison
import ResumableVM.Proofs.TypedRegisters

/-! # LeastTypes: the analysis of register types ends with the most precise solution

An assignment of types to blocks is a solution when it takes in the types of a call's start and, at
every successor of a reachable block, what leaves the block (`Procedure.Admits`). Less precise types
before an operation give less precise types after it (`typeFlow_mono`), so by induction on the
analysis its entries lie below every solution (`isSubsumedBy_of_admits`); they are one themselves
(`admits_entryTypes`).

The types are found with a queue of blocks: what leaves the first one is delivered to its
successors, and those whose entries did not cover it yet wait at the end (`Dataflow.drainQueue`).
That is one order of visits, so the queue gets empty, with the entries of any other order. -/

namespace ResumableVM

/-! ### A queue of blocks -/

namespace Dataflow

variable {α : Type} {d : Dataflow α} {good : α → Prop} {rank : α → Nat} {covers : α → α → Bool}

/-- The entry covers what comes in. -/
def isCovered (covers : α → α → Bool) (out : α) (entry : Option α) : Bool :=
  (entry.map (covers out)).getD false

/-- What leaves a block is joined into the entry of a successor that does not cover it; then the
successor waits in the queue. -/
def deliver (d : Dataflow α) (covers : α → α → Bool) (out : α) (w : Agenda α) (t : Nat) :
    Agenda α :=
  if isCovered covers out w.entries[t]?.join then w
  else ⟨w.entries.modify t (d.merge out), enqueue w.pending t⟩

/-- What leaves a block is delivered to its successors. -/
def serve (d : Dataflow α) (covers : α → α → Bool) (w : Agenda α) (b : Nat) : Agenda α :=
  match w.entries[b]?.join, d.blocks[b]? with
  | some s, some block => block.successors.foldl (d.deliver covers (block.flow s)) w
  | _, _ => w

/-- The entries once the queue is empty, if it gets empty within a number of rounds. -/
def drainQueue (d : Dataflow α) (covers : α → α → Bool) : Nat → Agenda α → Option (Entries α)
  | _, ⟨es, []⟩ => some es
  | 0, ⟨_, _ :: _⟩ => none
  | fuel + 1, ⟨es, b :: queue⟩ => d.drainQueue covers fuel (d.serve covers ⟨es, queue⟩ b)

/-- An entry covers a state that it lies above. -/
def Covering (d : Dataflow α) (good : α → Prop) (covers : α → α → Bool) : Prop :=
  ∀ s t, good s → good t → (covers s t = true ↔ d.Le s t)

theorem mem_enqueue {queue : List Nat} {t u : Nat} :
    u ∈ enqueue queue t ↔ u ∈ queue ∨ u = t := by
  have h := mem_foldl_enqueue (t := u) [t] queue
  rwa [List.foldl_cons, List.foldl_nil, List.mem_singleton] at h

/-- A delivery changes an entry exactly if it was not covered. -/
theorem merge_eq_self_iff (hcovers : Covering d good covers) {out : α} (hout : good out)
    {entry : Option α} (hentry : ∀ s, entry = some s → good s) :
    d.merge out entry = entry ↔ isCovered covers out entry = true := by
  cases entry with
  | none => simp [merge, isCovered]
  | some s =>
    have hs := hcovers out s hout (hentry s rfl)
    simp only [merge, isCovered, Option.some.injEq, Option.map_some, Option.getD_some, hs]
    rfl

/-- A delivery joins what comes in into the entry, and queues the successor if that changes it. -/
theorem deliver_eq (hcovers : Covering d good covers) {out : α} (hout : good out) {w : Agenda α}
    (hw : AllGood d good w.entries) {t : Nat} (ht : t < d.blocks.size) :
    (d.deliver covers out w t).entries = w.entries.modify t (d.merge out) ∧
    ∀ u, u ∈ (d.deliver covers out w t).pending ↔
      u ∈ w.pending ∨ (u = t ∧ (w.entries.modify t (d.merge out))[u]? ≠ w.entries[u]?) := by
  have hlt : t < w.entries.size := hw.1 ▸ ht
  have hget := Array.getElem?_eq_getElem hlt
  have hmerge : d.merge out w.entries[t] = w.entries[t] ↔ isCovered covers out w.entries[t] = true :=
    merge_eq_self_iff hcovers hout fun s hs => hw.2 t s (hget.trans (congrArg some hs))
  have hchanged : (w.entries.modify t (d.merge out))[t]? = w.entries[t]? ↔
      d.merge out w.entries[t] = w.entries[t] := by
    rw [Array.getElem?_modify, if_pos rfl, hget, Option.map_some, Option.some.injEq]
  have hjoin : w.entries[t]?.join = w.entries[t] := by rw [hget]; rfl
  unfold deliver
  rw [hjoin]
  split
  · next hcovered =>
    have hsame := hmerge.mpr hcovered
    refine ⟨Array.ext_getElem? fun u => ?_, fun u => (or_iff_left ?_).symm⟩
    · by_cases hu : t = u
      · subst hu
        exact (hchanged.mpr hsame).symm
      · rw [Array.getElem?_modify, if_neg hu]
    · rintro ⟨rfl, hne⟩
      exact hne (hchanged.mpr hsame)
  · next hcovered =>
    refine ⟨rfl, fun u => mem_enqueue.trans (or_congr_right (iff_self_and.mpr ?_))⟩
    rintro rfl hsame
    exact hcovered (hmerge.mp (hchanged.mp hsame))

theorem nodup_deliver {out : α} {w : Agenda α} (h : w.pending.Nodup) (t : Nat) :
    (d.deliver covers out w t).pending.Nodup := by
  unfold deliver
  split
  · exact h
  · exact nodup_foldl_enqueue [t] h

/-- What was joined in once is there. -/
theorem merge_merge (ho : Ordered d good) {out : α} (hout : good out) {entry : Option α}
    (hentry : ∀ s, entry = some s → good s) :
    d.merge out (d.merge out entry) = d.merge out entry := by
  cases entry with
  | none => simp only [merge, ho.idem _ hout]
  | some s => simp only [merge, ho.assoc _ _ _ (hentry s rfl) hout hout, ho.idem _ hout]

/-- Where an entry covers what leaves a block, deliveries change nothing. -/
theorem getElem?_foldl_merge {out : α} {es : Entries α} {t : Nat}
    (h : ∀ entry, es[t]? = some entry → d.merge out entry = entry) (ts : List Nat) :
    (ts.foldl (fun es t => es.modify t (d.merge out)) es)[t]? = es[t]? := by
  rw [getElem?_foldl_modify t ts _ fun entry hentry => by rw [h entry hentry, h entry hentry]]
  split
  · cases hget : es[t]? with
    | none => rfl
    | some entry => rw [Option.map_some, h entry hget]
  · rfl

/-- What leaves a block is joined into the entries of its successors, and those that it changes wait
in the queue. -/
theorem foldl_deliver (hd : Lawful d good rank) (ho : Ordered d good)
    (hcovers : Covering d good covers) {out : α} (hout : good out) :
    ∀ (ts : List Nat) {w : Agenda α}, (∀ t ∈ ts, t < d.blocks.size) → AllGood d good w.entries →
      (ts.foldl (d.deliver covers out) w).entries =
          ts.foldl (fun es t => es.modify t (d.merge out)) w.entries ∧
        (∀ u, u ∈ (ts.foldl (d.deliver covers out) w).pending ↔ u ∈ w.pending ∨
          (ts.foldl (fun es t => es.modify t (d.merge out)) w.entries)[u]? ≠ w.entries[u]?) ∧
        (w.pending.Nodup → (ts.foldl (d.deliver covers out) w).pending.Nodup)
  | [], w, _, _ => by simp
  | t :: ts, w, hlt, hw => by
    obtain ⟨ht, hts⟩ := List.forall_mem_cons.mp hlt
    obtain ⟨hentries, hpending⟩ := deliver_eq hcovers hout hw ht
    have hgood : AllGood d good (d.deliver covers out w t).entries := by
      rw [hentries]
      exact (merge_rising hd hout ht w.entries hw).1
    obtain ⟨hfold, hmem, hnodup⟩ := foldl_deliver hd ho hcovers hout ts hts hgood
    -- later deliveries to the same successor change nothing
    have hfixed : (ts.foldl (fun es t => es.modify t (d.merge out))
        (w.entries.modify t (d.merge out)))[t]? = (w.entries.modify t (d.merge out))[t]? := by
      refine getElem?_foldl_merge (fun entry hentry => ?_) ts
      rw [Array.getElem?_modify, if_pos rfl] at hentry
      obtain ⟨before, hget, rfl⟩ := Option.map_eq_some_iff.mp hentry
      exact merge_merge ho hout fun s hs => hw.2 t s (hs ▸ hget)
    rw [hentries] at hfold hmem
    refine ⟨hfold, fun u => ?_, fun h => hnodup (nodup_deliver h t)⟩
    rw [List.foldl_cons, List.foldl_cons, hmem u, hpending u, or_assoc]
    refine or_congr_right ?_
    by_cases hu : u = t
    · subst hu
      rw [hfixed]
      simp
    · rw [Array.getElem?_modify, if_neg (Ne.symm hu)]
      simp [hu]

/-- **To serve the first block of the queue is to visit it.** -/
theorem Sound.visits_serve [DecidableEq α] (hd : Lawful d good rank) (ho : Ordered d good)
    (hcovers : Covering d good covers) {es : Entries α} {b : Nat} {queue : List Nat}
    (h : Sound d good ⟨es, b :: queue⟩) :
    Visits d ⟨es, b :: queue⟩ (d.serve covers ⟨es, queue⟩ b) := by
  obtain ⟨hnotin, hqueue⟩ := List.nodup_cons.mp h.nodup
  have hleft : ∀ u, u ∈ queue ↔ u ∈ b :: queue ∧ u ≠ b := fun u =>
    ⟨fun hu => ⟨List.mem_cons_of_mem _ hu, fun heq => hnotin (heq ▸ hu)⟩,
      fun hu => (List.mem_cons.mp hu.1).resolve_left hu.2⟩
  obtain ⟨block, hblock⟩ : ∃ block, d.blocks[b]? = some block :=
    ⟨_, Array.getElem?_eq_getElem (h.lt b List.mem_cons_self)⟩
  cases hs : es[b]?.join with
  | none =>
    have hsame : d.propagate es b = es := propagate_eq_self fun s hsome => by
      rw [hsome] at hs
      cases hs
    have hserve : d.serve covers ⟨es, queue⟩ b = ⟨d.propagate es b, queue⟩ := by
      rw [hsame, serve]
      simp only [hs]
    rw [hserve]
    refine .visit List.mem_cons_self (fun u => ?_) hqueue
    rw [hsame, hleft]
    simp
  | some s =>
    have hentry := Option.join_eq_some_iff.mp hs
    have hmem := Array.mem_of_getElem? hblock
    have hout := hd.flow _ hmem s (h.good.2 b s hentry)
    obtain ⟨hfold, hpending, hnodup⟩ := foldl_deliver hd ho hcovers hout (w := ⟨es, queue⟩)
      block.successors (hd.successors _ hmem) h.good
    have hpropagate : d.propagate es b =
        block.successors.foldl (fun es t => es.modify t (d.merge (block.flow s))) es := by
      simp only [propagate, hs, hblock]
    have hserve : d.serve covers ⟨es, queue⟩ b =
        ⟨d.propagate es b, (d.serve covers ⟨es, queue⟩ b).pending⟩ := by
      simp only [serve, hs, hblock, hpropagate, ← hfold]
    rw [hserve]
    simp only [serve, hs, hblock]
    refine .visit List.mem_cons_self (fun u => ?_) (hnodup hqueue)
    rw [hpending, hpropagate, hleft]

theorem Sound.drainQueue_eq [DecidableEq α] (hd : Lawful d good rank) (ho : Ordered d good)
    (hcovers : Covering d good covers) :
    ∀ {fuel : Nat} {w : Agenda α}, Sound d good w → w.distance d rank ≤ fuel →
      d.drainQueue covers fuel w = some d.solve
  | fuel, ⟨es, []⟩, h, _ => by
    rw [drainQueue]
    exact congrArg some (h.entries_eq hd ho rfl)
  | 0, ⟨es, b :: queue⟩, h, hfuel => absurd hfuel (by simp [Agenda.distance])
  | fuel + 1, ⟨es, b :: queue⟩, h, hfuel => by
    have hv := h.visits_serve hd ho hcovers
    have hlt := h.distance_lt hd ho hv
    rw [drainQueue]
    exact Sound.drainQueue_eq hd ho hcovers (h.visits hd ho hv) (by omega)

/-- **The queue gets empty**, and then the entries are the solution. -/
theorem drainQueue_first [DecidableEq α] (hd : Lawful d good rank) (ho : Ordered d good)
    (hcovers : Covering d good covers) (hpos : 0 < d.blocks.size) :
    d.drainQueue covers d.visitBound (.first d) = some d.solve :=
  (sound_first hd ho hpos).drainQueue_eq hd ho hcovers distance_first_le

end Dataflow

/-! ### Less precise types -/

namespace ValueType

variable {s s' t t' : ValueType}

/-- The result of arithmetic on less precise operands is less precise. -/
theorem isSubtypeOf_resultType (op : ArithOp) (hs : s.isSubtypeOf s' = true)
    (ht : t.isSubtypeOf t' = true) :
    (op.resultType s t).isSubtypeOf (op.resultType s' t') = true := by
  cases hs' : s'.isNumeric with
  | false => simp [ArithOp.resultType, hs', isSubtypeOf_any]
  | true =>
    cases ht' : t'.isNumeric with
    | false => simp [ArithOp.resultType, ht', isSubtypeOf_any]
    | true => exact ArithOp.resultType_mono hs ht hs' ht'

/-- A type below one without other subtypes is that one. -/
theorem eq_string_of_isSubtypeOf (h : s.isSubtypeOf .string = true) : s = .string := by
  rcases isSubtypeOf_iff.mp h with rfl | h | ⟨h, -⟩
  · rfl
  · cases h
  · cases h

theorem isSubtypeOf_unaryResult (op : UnaryOp) (h : s.isSubtypeOf s' = true) :
    (op.resultType s).isSubtypeOf (op.resultType s') = true := by
  cases op with
  | not => rfl
  | negate =>
    cases hs' : s'.isNumeric with
    | false => simp [UnaryOp.resultType, hs', isSubtypeOf_any]
    | true => simpa [UnaryOp.resultType, hs', isNumeric_of_isSubtypeOf h hs'] using h
  | length =>
    by_cases hs' : s' = .string
    · subst hs'
      rw [eq_string_of_isSubtypeOf h]
      rfl
    · simp [UnaryOp.resultType, hs', isSubtypeOf_any]

end ValueType

namespace TypeSeq

variable {a b : TypeSeq}

/-- Shapes of one length that lie below each other are equal. -/
theorem HasLength.antisymm {n : Nat} (ha : a.HasLength n) (hb : b.HasLength n)
    (hab : a.isSubsumedBy b = true) (hba : b.isSubsumedBy a = true) : a = b := by
  have hget (i : Nat) : a.get i = b.get i :=
    ValueType.isSubtypeOf_antisymm (isSubsumedBy_iff.mp hab i) (isSubsumedBy_iff.mp hba i)
  have hfixed : a.fixed = b.fixed := by
    refine List.ext_getElem (ha.length.trans hb.length.symm) fun i hi hi' => ?_
    have hi := hget i
    simpa [get, *] using hi
  have htail : a.hasTail = b.hasTail := ha.noTail.trans hb.noTail.symm
  cases a
  cases b
  exact mk.injEq .. ▸ ⟨hfixed, htail⟩

theorem isSubsumedBy_set (h : a.isSubsumedBy b = true) {r : Nat} {s t : ValueType}
    (hst : s.isSubtypeOf t = true) (ha : r < a.fixed.length) (hb : r < b.fixed.length) :
    (a.set r s).isSubsumedBy (b.set r t) = true := by
  refine isSubsumedBy_iff.mpr fun i => ?_
  by_cases hir : r = i
  · subst hir
    rwa [get_set _ ha, get_set _ hb]
  · rw [get_set_of_ne _ hir, get_set_of_ne _ hir]
    exact isSubsumedBy_iff.mp h i

theorem length_setAll : ∀ (written : List (Nat × ValueType)) (a : TypeSeq),
    (a.setAll written).fixed.length = a.fixed.length
  | [], _ => rfl
  | _ :: written, _ => (length_setAll written _).trans List.length_set

/-- What is written is less precise on the right. -/
theorem isSubsumedBy_setAll {written written' : List (Nat × ValueType)}
    (hwritten : List.Forall₂ (fun w w' => w.1 = w'.1 ∧ w.2.isSubtypeOf w'.2 = true) written written')
    {n : Nat} (hlt : ∀ w ∈ written, w.1 < n) :
    ∀ {a b : TypeSeq}, n ≤ a.fixed.length → n ≤ b.fixed.length → a.isSubsumedBy b = true →
      (a.setAll written).isSubsumedBy (b.setAll written') = true := by
  induction hwritten with
  | nil => exact fun _ _ h => h
  | @cons w w' written written' hw _ ih =>
    intro a b ha hb h
    obtain ⟨hfirst, hrest⟩ := List.forall_mem_cons.mp hlt
    refine ih hrest (ha.trans_eq List.length_set.symm) (hb.trans_eq List.length_set.symm) ?_
    show (a.set w.1 w.2).isSubsumedBy (b.set w'.1 w'.2) = true
    rw [← hw.1]
    exact isSubsumedBy_set h hw.2 (by omega) (by omega)

end TypeSeq

/-- What is known of every register after captured ones are forgotten. -/
theorem get_forgetCaptured_everywhere {before after : SlotStates}
    (hlen : before.length = after.length) {types : TypeSeq}
    (h : before.length ≤ types.fixed.length) (r : Nat) :
    (forgetCaptured before after types).get r =
      if before.of r = .captured ∨ after.of r = .captured then .any else types.get r := by
  by_cases hr : r < types.fixed.length
  · exact get_forgetCaptured hlen hr
  · rw [SlotStates.of_eq_plain_of_le (by omega), SlotStates.of_eq_plain_of_le (by omega), if_neg]
    · have hforget : (forgetCaptured before after types).fixed.length = types.fixed.length :=
        SlotStates.length_forget _ _
      rw [TypeSeq.get_of_length_le types (by omega), TypeSeq.get_of_length_le _ (by omega)]
      rfl
    · rintro (h | h) <;> cases h

namespace RegisterInfo

variable {states : SlotStates} {a b : TypeSeq}

theorem isSubtypeOf_typeOf (h : a.isSubsumedBy b = true) (r : Nat) :
    (typeOf ⟨states, a⟩ r).isSubtypeOf (typeOf ⟨states, b⟩ r) = true := by
  unfold typeOf
  cases states.of r with
  | captured => rfl
  | plain => exact TypeSeq.isSubsumedBy_iff.mp h r

theorem isSubtypeOf_operandType (h : a.isSubsumedBy b = true) (o : Operand) :
    (operandType ⟨states, a⟩ o).isSubtypeOf (operandType ⟨states, b⟩ o) = true := by
  cases o with
  | register r => exact isSubtypeOf_typeOf h r
  | const c => exact ValueType.isSubtypeOf_refl _

/-- An operation writes to the same registers, and what it writes is less precise on the right. -/
theorem forall₂_writtenTypes (h : a.isSubsumedBy b = true) (op : Op) :
    List.Forall₂ (fun w w' => w.1 = w'.1 ∧ w.2.isSubtypeOf w'.2 = true)
      (op.writtenTypes ⟨states, a⟩) (op.writtenTypes ⟨states, b⟩) := by
  have hone {r : Nat} {s t : ValueType} (hst : s.isSubtypeOf t = true) :
      List.Forall₂ (fun w w' => w.1 = w'.1 ∧ w.2.isSubtypeOf w'.2 = true) [(r, s)] [(r, t)] :=
    .cons ⟨rfl, hst⟩ .nil
  cases op with
  | move dst src => exact hone (isSubtypeOf_typeOf h src)
  | arith dst op x y =>
    exact hone (ValueType.isSubtypeOf_resultType op (isSubtypeOf_operandType h x)
      (isSubtypeOf_operandType h y))
  | unary dst op src =>
    exact hone (ValueType.isSubtypeOf_unaryResult op (isSubtypeOf_operandType h src))
  | _ => exact List.forall₂_same.mpr fun w _ => ⟨rfl, ValueType.isSubtypeOf_refl _⟩

end RegisterInfo

namespace Procedure

variable {p : Procedure} {states : SlotStates} {a b : TypeSeq}

theorem length_typeFlow (info : RegisterInfo) (op : Op) :
    (p.typeFlow info op).types.fixed.length = info.types.fixed.length := by
  rw [typeFlow_types, forgetCaptured, SlotStates.length_forget, TypeSeq.length_setAll]

/-- **Operations are monotone**: with less precise types before, those after are less precise. -/
theorem typeFlow_mono {n : Nat} (hstates : states.length ≤ n) (ha : n ≤ a.fixed.length)
    (hb : n ≤ b.fixed.length) {op : Op} (hop : ∀ r ∈ op.registers, r < n)
    (h : a.isSubsumedBy b = true) :
    (p.typeFlow ⟨states, a⟩ op).types.isSubsumedBy (p.typeFlow ⟨states, b⟩ op).types = true := by
  have hwritten := TypeSeq.isSubsumedBy_setAll (@RegisterInfo.forall₂_writtenTypes states a b h op)
    (fun w hw => hop _ (Checked.mem_registers_of_mem_writtenTypes hw)) ha hb h
  have hlen : states.length = (p.captureFlow states op).length := (length_captureFlow states op).symm
  refine TypeSeq.isSubsumedBy_iff.mpr fun r => ?_
  rw [typeFlow_types, typeFlow_types,
    get_forgetCaptured_everywhere hlen (hstates.trans (ha.trans_eq (TypeSeq.length_setAll ..).symm)),
    get_forgetCaptured_everywhere hlen (hstates.trans (hb.trans_eq (TypeSeq.length_setAll ..).symm))]
  split
  · rfl
  · exact TypeSeq.isSubsumedBy_iff.mp hwritten r

/-- Operations in a row are monotone. -/
theorem typeFlowAll_mono {n : Nat} : ∀ {ops : List Op} {states : SlotStates} {a b : TypeSeq},
    states.length ≤ n → n ≤ a.fixed.length → n ≤ b.fixed.length →
    (∀ op ∈ ops, ∀ r ∈ op.registers, r < n) → a.isSubsumedBy b = true →
    (p.typeFlowAll ⟨states, a⟩ ops).types.isSubsumedBy (p.typeFlowAll ⟨states, b⟩ ops).types = true
  | [], _, _, _, _, _, _, _, h => h
  | op :: ops, states, a, b, hstates, ha, hb, hops, h => by
    obtain ⟨hop, hrest⟩ := List.forall_mem_cons.mp hops
    exact @typeFlowAll_mono n ops (p.captureFlow states op) _ _
      ((length_captureFlow states op).trans_le hstates)
      (ha.trans_eq (length_typeFlow ⟨states, a⟩ op).symm)
      (hb.trans_eq (length_typeFlow ⟨states, b⟩ op).symm) hrest
      (typeFlow_mono hstates ha hb hop h)

/-! ### The order of states -/

variable {captures : Dataflow.Entries SlotStates}

/-- The order of the analysis is subsumption. -/
theorem le_typeAnalysis_iff (ha : a.HasLength p.registers) (hb : b.HasLength p.registers) :
    (p.typeAnalysis captures).Le a b ↔ a.isSubsumedBy b = true := by
  constructor
  · intro h
    have hjoin : b.join a = b := h
    rw [← hjoin]
    exact TypeSeq.isSubsumedBy_join_right b a
  · intro h
    exact (hb.join ha).antisymm hb
      (TypeSeq.join_isSubsumedBy (TypeSeq.isSubsumedBy_refl b) h) (TypeSeq.isSubsumedBy_join_left b a)

theorem covering_typeAnalysis :
    Dataflow.Covering (p.typeAnalysis captures) (·.HasLength p.registers) TypeSeq.isSubsumedBy :=
  fun _ _ ha hb => (le_typeAnalysis_iff ha hb).symm

/-- The types after a block, from those on entry to it. -/
def typesAfter (p : Procedure) (b : Nat) (types : TypeSeq) : TypeSeq :=
  (p.typeFlowAll ⟨(p.entryStates b).getD [], types⟩ (p.opsOf b)).types

theorem flow_typeAnalysis {b : Nat} {block : FlowBlock TypeSeq}
    (hb : (p.typeAnalysis p.captures).blocks[b]? = some block) :
    block.flow = p.typesAfter b ∧ block.successors = p.successorsOf b := by
  rw [getElem?_typeAnalysis] at hb
  obtain ⟨block', hb', rfl⟩ := Option.map_eq_some_iff.mp hb
  refine ⟨funext fun types => ?_, by simp [successorsOf, hb']⟩
  simp [typesAfter, opsOf, hb', entryStates]

theorem length_getD_entryStates_le (hp : p.Valid) (b : Nat) :
    ((p.entryStates b).getD []).length ≤ p.registers := by
  cases h : p.entryStates b with
  | none => exact Nat.zero_le _
  | some states => exact (length_entryStates hp h).le

/-- **Blocks are monotone.** -/
theorem typesAfter_mono (hp : p.Valid) (c : Nat) (ha : p.registers ≤ a.fixed.length)
    (hb : p.registers ≤ b.fixed.length) (h : a.isSubsumedBy b = true) :
    (p.typesAfter c a).isSubsumedBy (p.typesAfter c b) = true := by
  refine typeFlowAll_mono (length_getD_entryStates_le hp c) ha hb (fun op hop => ?_) h
  unfold opsOf at hop
  cases hc : p.blocks[c]? with
  | none => simp [hc] at hop
  | some block =>
    rw [hc] at hop
    exact (hp.op block (List.mem_of_getElem? hc) op hop).registers

/-- Joins of types are least upper bounds, and blocks keep the order. -/
theorem ordered_typeAnalysis (hp : p.Valid) :
    Dataflow.Ordered (p.typeAnalysis p.captures) (·.HasLength p.registers) where
  idem s hs := (le_typeAnalysis_iff hs hs).mpr (TypeSeq.isSubsumedBy_refl s)
  comm s t hs ht := (hs.join ht).antisymm (ht.join hs)
    (TypeSeq.join_isSubsumedBy (TypeSeq.isSubsumedBy_join_right t s)
      (TypeSeq.isSubsumedBy_join_left t s))
    (TypeSeq.join_isSubsumedBy (TypeSeq.isSubsumedBy_join_right s t)
      (TypeSeq.isSubsumedBy_join_left s t))
  assoc s t u hs ht hu := by
    have hinner := TypeSeq.isSubsumedBy_join_right s (t.join u)
    have houter := TypeSeq.isSubsumedBy_join_left (s.join t) u
    refine ((hs.join ht).join hu).antisymm (hs.join (ht.join hu)) ?_ ?_
    · exact TypeSeq.join_isSubsumedBy
        (TypeSeq.join_isSubsumedBy (TypeSeq.isSubsumedBy_join_left s _)
          (TypeSeq.isSubsumedBy_trans (TypeSeq.isSubsumedBy_join_left t u) hinner))
        (TypeSeq.isSubsumedBy_trans (TypeSeq.isSubsumedBy_join_right t u) hinner)
    · exact TypeSeq.join_isSubsumedBy
        (TypeSeq.isSubsumedBy_trans (TypeSeq.isSubsumedBy_join_left s t) houter)
        (TypeSeq.join_isSubsumedBy
          (TypeSeq.isSubsumedBy_trans (TypeSeq.isSubsumedBy_join_right s t) houter)
          (TypeSeq.isSubsumedBy_join_right _ u))
  flow block hmem s t hs ht hle := by
    obtain ⟨b, hb⟩ := Array.mem_iff_getElem?.mp hmem
    have hgood := (@lawful_typeAnalysis p p.captures hp).flow block hmem
    rw [le_typeAnalysis_iff (hgood s hs) (hgood t ht), (flow_typeAnalysis hb).1]
    exact typesAfter_mono hp b hs.length.ge ht.length.ge ((le_typeAnalysis_iff hs ht).mp hle)

/-! ### The least solution -/

/-- Types on entry to blocks that take in those of a call's start, and of every edge that control
can pass along. -/
structure Admits (p : Procedure) (types : Nat → TypeSeq) : Prop where
  length : ∀ b, p.Reaches b → p.registers ≤ (types b).fixed.length
  start : p.startTypes.isSubsumedBy (types 0) = true
  flow : ∀ b t, p.Reaches b → t ∈ p.successorsOf b →
    (p.typesAfter b (types b)).isSubsumedBy (types t) = true

theorem lt_of_reaches (hp : p.Valid) {b : Nat} (h : p.Reaches b) : b < p.blocks.length := by
  obtain ⟨ops, hops⟩ := reaches_iff_path.mp h
  exact hops.lt hp

theorem hasLength_entryTypes (hp : p.Valid) {b : Nat} {types : TypeSeq}
    (h : p.entryTypes b = some types) : types.HasLength p.registers :=
  (Dataflow.allGood_solve (lawful_typeAnalysis hp)).2 b types (entryTypes_eq_some.mp h)

/-- **The analysis solves its equations.** -/
theorem admits_entryTypes (hp : p.Valid) : p.Admits fun b => (p.entryTypes b).getD .empty where
  length b hb := by
    obtain ⟨types, htypes⟩ := (isSome_entryTypes_iff hp).mpr hb
    simp only [htypes, Option.getD_some]
    exact (hasLength_entryTypes hp htypes).length.ge
  start := by
    obtain ⟨types, hsolve, hle⟩ := Dataflow.start_le_solve (lawful_typeAnalysis hp)
      (ordered_typeAnalysis hp) (size_typeAnalysis ▸ hp.nonempty)
    have htypes := entryTypes_eq_some.mpr hsolve
    rw [le_typeAnalysis_iff (hasLength_start hp) (hasLength_entryTypes hp htypes)] at hle
    simp only [htypes, Option.getD_some]
    exact hle
  flow b t hb ht := by
    obtain ⟨types, htypes⟩ := (isSome_entryTypes_iff hp).mpr hb
    have hlt : b < (p.typeAnalysis p.captures).blocks.size :=
      size_typeAnalysis (p := p) ▸ lt_of_reaches hp hb
    have hblock := Array.getElem?_eq_getElem hlt
    obtain ⟨hflow, hsucc⟩ := flow_typeAnalysis hblock
    have hlaw := @lawful_typeAnalysis p p.captures hp
    have hlen := hasLength_entryTypes hp htypes
    have hout := hlaw.flow _ (Array.getElem_mem hlt) types hlen
    obtain ⟨there, hsolve, hjoin⟩ := Dataflow.stable_solve hlaw hblock
      (entryTypes_eq_some.mp htypes) (hsucc ▸ ht)
    have hthere := entryTypes_eq_some.mpr hsolve
    rw [hflow] at hout hjoin
    simp only [htypes, hthere, Option.getD_some]
    exact (le_typeAnalysis_iff hout (hasLength_entryTypes hp hthere)).mp hjoin

/-- **The analysis stays below every solution.** The induction is on the analysis. -/
theorem isSubsumedBy_of_admits (hp : p.Valid) {types : Nat → TypeSeq} (h : p.Admits types) {b : Nat}
    {entry : TypeSeq} (hentry : p.entryTypes b = some entry) :
    entry.isSubsumedBy (types b) = true := by
  have hlaw := @lawful_typeAnalysis p p.captures hp
  -- what leaves a block stays below what the solution has at its successors
  have hflow : ∀ {b t : Nat} {block : FlowBlock TypeSeq} {s : TypeSeq},
      (p.typeAnalysis p.captures).blocks[b]? = some block →
      (p.Reaches b ∧ s.HasLength p.registers ∧ s.isSubsumedBy (types b) = true) →
      t ∈ block.successors → p.Reaches t ∧ (block.flow s).HasLength p.registers ∧
        (block.flow s).isSubsumedBy (types t) = true := by
    rintro b t block s hblock ⟨hb, hs, hle⟩ ht
    have hout := hlaw.flow block (Array.mem_of_getElem? hblock) s hs
    obtain ⟨hflow, hsucc⟩ := flow_typeAnalysis hblock
    rw [hsucc] at ht
    rw [hflow] at hout ⊢
    exact ⟨hb.next ht, hout, TypeSeq.isSubsumedBy_trans
      (typesAfter_mono hp b hs.length.ge (h.length b hb) hle) (h.flow b t hb ht)⟩
  refine (Dataflow.solve_induction (d := p.typeAnalysis p.captures)
    (P := fun b s => p.Reaches b ∧ s.HasLength p.registers ∧ s.isSubsumedBy (types b) = true)
    ⟨.first, hasLength_start hp, h.start⟩ (fun b block s t hblock hb ht _ => hflow hblock hb ht) ?_
    (entryTypes_eq_some.mp hentry)).2.2
  rintro b block s t there hblock hb ht ⟨hreaches, hthere, hle⟩
  obtain ⟨-, hout, hle'⟩ := hflow hblock hb ht
  exact ⟨hreaches, hthere.join hout, TypeSeq.join_isSubsumedBy hle hle'⟩

end Procedure

/-! ### The numbers of blocks -/

theorem Exit.renumber_renumber {σ τ : Nat → Nat} {e : Exit} (h : ∀ t ∈ e.successors, τ (σ t) = t) :
    (e.renumber σ).renumber τ = e := by
  cases e with
  | jump t => simp [renumber, h t (by simp [successors])]
  | branch cond ifTrue ifFalse =>
    simp [renumber, h ifTrue (by simp [successors]), h ifFalse (by simp [successors])]
  | ret args => rfl
  | tailCall target args => rfl

theorem Block.renumber_renumber {σ τ : Nat → Nat} {b : Block}
    (h : ∀ t ∈ b.exit.successors, τ (σ t) = t) : (b.renumber σ).renumber τ = b := by
  rw [renumber, renumber, Exit.renumber_renumber h]

namespace Procedure.Renumbers

variable {p : Procedure} {σ : Nat → Nat} {blocks : List Block} (h : p.Renumbers σ blocks)
include h

theorem typesAfter_eq (hp : p.Valid) {b : Nat} (hb : b < p.blocks.length) (types : TypeSeq) :
    (p.withBlocks blocks).typesAfter (σ b) types = p.typesAfter b types := by
  have hentry : ∀ (q : Procedure) (c : Nat), q.statesAt c 0 = q.entryStates c := fun q c => by
    simp [Procedure.statesAt]
  have hstates := h.statesAt_eq hp hb (i := 0)
  rw [hentry, hentry] at hstates
  simp only [typesAfter, hstates, h.opsOf hb]
  rfl

theorem reaches_iff (hp : p.Valid) {b : Nat} (hb : b < p.blocks.length) :
    (p.withBlocks blocks).Reaches (σ b) ↔ p.Reaches b := by
  simp only [reaches_iff_path, h.path_iff hp hb]

/-- The blocks can be put back in order. -/
theorem exists_inverse (hp : p.Valid) : ∃ τ, (p.withBlocks blocks).Renumbers τ p.blocks ∧
    ∀ b < p.blocks.length, τ (σ b) = b := by
  have hexists : ∀ c, ∃ b, c < p.blocks.length → b < p.blocks.length ∧ σ b = c := fun c => by
    by_cases hc : c < p.blocks.length
    · obtain ⟨b, hb, hσ⟩ := h.exists_block hc
      exact ⟨b, fun _ => ⟨hb, hσ⟩⟩
    · exact ⟨0, fun h => absurd h hc⟩
  choose τ hτ using hexists
  have hleft : ∀ b < p.blocks.length, τ (σ b) = b := fun b hb => by
    obtain ⟨hlt, hσ⟩ := hτ (σ b) (h.lt hb)
    exact h.injective _ hlt b hb hσ
  have hlength : (p.withBlocks blocks).blocks.length = p.blocks.length := h.length
  refine ⟨τ, ⟨?_, fun b hb c hc heq => ?_, h.length.symm, fun c block hc => ?_⟩, hleft⟩
  · have := hleft 0 hp.nonempty
    rwa [h.first] at this
  · rw [hlength] at hb hc
    rw [← (hτ b hb).2, ← (hτ c hc).2, heq]
  · have hlt : c < p.blocks.length := hlength ▸ (List.getElem?_eq_some_iff.mp hc).1
    obtain ⟨b, hb, rfl⟩ := h.exists_block hlt
    have hget := List.getElem?_eq_getElem hb
    have hblock : block = p.blocks[b].renumber σ :=
      Option.some.inj (hc.symm.trans (h.block b _ hget))
    rw [hleft b hb, hget, hblock]
    exact congrArg some (Block.renumber_renumber fun t ht =>
      hleft t ((hp.exit _ (List.getElem_mem hb)).successors t ht)).symm

/-- A solution of the renumbered procedure is one of the procedure. -/
theorem admits (hp : p.Valid) {types : Nat → TypeSeq} (htypes : (p.withBlocks blocks).Admits types) :
    p.Admits fun b => types (σ b) := by
  have hreaches : ∀ {b}, p.Reaches b → (p.withBlocks blocks).Reaches (σ b) := fun hb =>
    (h.reaches_iff hp (lt_of_reaches hp hb)).mpr hb
  refine ⟨fun b hb => htypes.length _ (hreaches hb), ?_, fun b t hb ht => ?_⟩
  · rw [h.first]
    exact htypes.start
  · have hlt := lt_of_reaches hp hb
    rw [← h.typesAfter_eq hp hlt]
    exact htypes.flow _ _ (hreaches hb) (h.successorsOf hlt ▸ List.mem_map_of_mem ht)

/-- The entry of a block is below that of the block it became. -/
theorem entryTypes_le (hp : p.Valid) {b : Nat} {here there : TypeSeq}
    (hhere : p.entryTypes b = some here)
    (hthere : (p.withBlocks blocks).entryTypes (σ b) = some there) :
    here.isSubsumedBy there = true := by
  have hle := isSubsumedBy_of_admits hp (h.admits hp (admits_entryTypes (h.valid hp))) hhere
  rwa [hthere] at hle

/-- **The analysis does not depend on the numbers of blocks.** -/
theorem entryTypes_eq (hp : p.Valid) {b : Nat} (hb : b < p.blocks.length) :
    (p.withBlocks blocks).entryTypes (σ b) = p.entryTypes b := by
  have hp' := h.valid hp
  have hiff : (∃ types, (p.withBlocks blocks).entryTypes (σ b) = some types) ↔
      ∃ types, p.entryTypes b = some types := by
    rw [isSome_entryTypes_iff hp', isSome_entryTypes_iff hp, h.reaches_iff hp hb]
  cases hhere : p.entryTypes b with
  | none =>
    rw [hhere] at hiff
    rw [Option.eq_none_iff_forall_ne_some]
    intro types htypes
    obtain ⟨types, hnone⟩ := hiff.mp ⟨types, htypes⟩
    cases hnone
  | some here =>
    obtain ⟨there, hthere⟩ := hiff.mpr ⟨here, hhere⟩
    obtain ⟨τ, hτ, hleft⟩ := h.exists_inverse hp
    have hback : ((p.withBlocks blocks).withBlocks p.blocks).entryTypes (τ (σ b)) = some here := by
      rw [hleft b hb]
      exact hhere
    rw [hthere]
    exact congrArg some ((hasLength_entryTypes hp' hthere).antisymm (hasLength_entryTypes hp hhere)
      (hτ.entryTypes_le hp' hthere hback) (h.entryTypes_le hp hhere hthere))

end Procedure.Renumbers

namespace Procedure

variable {p : Procedure} {code : Code}

/-- **The analysis of register types ends with the most precise solution.**

For a procedure that is compiled, the queue of blocks gets empty. Then exactly the blocks that can be
reached have an entry; the entries take in the types of a call's start and whatever control passes
along an edge, and they lie below all types of blocks that do. Every operation is monotone.

In whatever order blocks are visited, and whatever numbers they have, the visits come to an end, and
the types are the same. -/
theorem types_least_solution (h : p.compile = .ok code) :
    (p.typeAnalysis p.captures).drainQueue TypeSeq.isSubsumedBy (p.typeAnalysis p.captures).visitBound
        (.first (p.typeAnalysis p.captures)) = some (p.registerTypes p.captures) ∧
    (∀ b, (∃ types, p.entryTypes b = some types) ↔ p.Reaches b) ∧
    (∀ r < p.registers, p.startTypes.get r = if r < p.params then .any else .nil) ∧
    p.Admits (fun b => (p.entryTypes b).getD .empty) ∧
    (∀ types, p.Admits types → ∀ b entry, p.entryTypes b = some entry →
      entry.isSubsumedBy (types b) = true) ∧
    (∀ op states a b, (∀ r ∈ op.registers, r < p.registers) → states.length ≤ p.registers →
      p.registers ≤ a.fixed.length → p.registers ≤ b.fixed.length → a.isSubsumedBy b = true →
      (p.typeFlow ⟨states, a⟩ op).types.isSubsumedBy (p.typeFlow ⟨states, b⟩ op).types = true) ∧
    (∀ visits : List (Dataflow.Agenda TypeSeq),
      List.IsChain (p.typeAnalysis p.captures).Visits (.first (p.typeAnalysis p.captures) :: visits) →
        visits.length ≤ (p.typeAnalysis p.captures).visitBound) ∧
    (∀ agenda, Relation.ReflTransGen (p.typeAnalysis p.captures).Visits
        (.first (p.typeAnalysis p.captures)) agenda →
      (agenda.pending = [] → agenda.entries = p.registerTypes p.captures) ∧
      (agenda.pending ≠ [] → ∃ next, (p.typeAnalysis p.captures).Visits agenda next)) ∧
    ∀ σ blocks, p.Renumbers σ blocks → (∃ code', (p.withBlocks blocks).compile = .ok code') ∧
      ∀ b < p.blocks.length, (p.withBlocks blocks).entryTypes (σ b) = p.entryTypes b := by
  obtain ⟨hp, codes, hcodes, -⟩ := compile_eq_ok_iff.mp h
  have hlaw := @lawful_typeAnalysis p p.captures hp
  have hordered := ordered_typeAnalysis hp
  have hpos : 0 < (p.typeAnalysis p.captures).blocks.size := size_typeAnalysis ▸ hp.nonempty
  obtain ⟨hbound, hend, -⟩ := Dataflow.visits_end_at_solve hlaw hordered hpos
  exact ⟨Dataflow.drainQueue_first hlaw hordered covering_typeAnalysis hpos,
    fun b => isSome_entryTypes_iff hp, fun r hr => get_startTypes hp hr, admits_entryTypes hp,
    fun types htypes b entry hentry => isSubsumedBy_of_admits hp htypes hentry,
    fun op states a b hop hstates ha hb hle => typeFlow_mono hstates ha hb hop hle, hbound, hend,
    fun σ blocks hσ => ⟨⟨_, compile_eq_ok_iff.mpr ⟨hσ.valid hp, codes, hcodes, rfl⟩⟩,
      fun b hb => hσ.entryTypes_eq hp hb⟩⟩

/-- A loop that adds a fraction to its first register, which starts as an integer. -/
def accumulate : Procedure where
  name := "accumulate"
  params := 0
  isVararg := false
  registers := 2
  upvalues := []
  blocks := [⟨[.load 0 (.integer 0)], .jump 1⟩,
    ⟨[.arith 0 .add (.register 0) (.const (.float 0x3FE0000000000000)),
      .compare 1 .less (.register 0) (.const (.integer 10))], .branch 1 1 2⟩,
    ⟨[], .ret ⟨[], false⟩⟩]
  nested := []

/-- In the loop the register is known to be a number, and behind it to be a fraction. -/
theorem types_least_accumulate : ∃ code, accumulate.compile = .ok code ∧
    accumulate.entryTypes 1 = some (.ofList [.number, .any]) ∧
    accumulate.entryTypes 2 = some (.ofList [.float, .boolean]) := by
  have hcompile : accumulate.compile = .ok (accumulate.assemble []) :=
    compile_eq_ok_iff.mpr ⟨check_eq_ok_iff.mp rfl, [], .nil, rfl⟩
  obtain ⟨hqueue, -⟩ := types_least_solution hcompile
  have hrow : (accumulate.typeAnalysis accumulate.captures).drainQueue TypeSeq.isSubsumedBy
      (accumulate.typeAnalysis accumulate.captures).visitBound
      (.first (accumulate.typeAnalysis accumulate.captures)) = some #[some (.ofList [.nil, .nil]),
        some (.ofList [.number, .any]), some (.ofList [.float, .boolean])] := rfl
  have htypes := Option.some.inj (hqueue.symm.trans hrow)
  refine ⟨_, hcompile, ?_, ?_⟩ <;> rw [entryTypes, htypes] <;> rfl

end Procedure

end ResumableVM
