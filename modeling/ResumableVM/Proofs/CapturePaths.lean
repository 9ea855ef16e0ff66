import ResumableVM.Proofs.CheckedAnalyses
import ResumableVM.Proofs.Worklist

/-! # CapturePaths: the analysis of captured registers is exact over paths

`Procedure.Path p ops b` says that the operations `ops` are those of the blocks on a path of edges
from the first block to the block `b`. A register is captured at a point, for the analysis, exactly
when on some path to it an operation captures the register and none behind that closes it
(`of_statesAt_eq_captured_iff`). One direction is an induction on the analysis, the other one on the
path: along every edge the analysis keeps what is captured (`captured_mono`).

Joins of states are least upper bounds (`ordered_captureAnalysis`), so the analysis may visit blocks
in any order; and as paths do not depend on the numbers of blocks, neither does the analysis
(`Renumbers.entryStates_eq`). -/

namespace ResumableVM

theorem SlotState.ext {a b : SlotState} (h : a = .captured ↔ b = .captured) : a = b := by
  cases a <;> cases b <;> simp at h ⊢

namespace Procedure

variable {p : Procedure} {r b i : Nat} {ops xs ys : List Op}

/-! ### Operations in a row -/

/-- None of the operations closes the register. -/
def StaysOpen (r : Nat) (ops : List Op) : Prop := ∀ rs, .close rs ∈ ops → r ∉ rs

/-- One of the operations captures the register, and none behind it closes it. -/
def CapturedIn (p : Procedure) (r : Nat) (ops : List Op) : Prop :=
  ∃ before dst proto after, ops = before ++ .closure dst proto :: after ∧
    r ∈ p.capturedBy proto ∧ StaysOpen r after

theorem staysOpen_append : StaysOpen r (xs ++ ys) ↔ StaysOpen r xs ∧ StaysOpen r ys := by
  simp only [StaysOpen, List.mem_append, or_imp, forall_and]

theorem capturedIn_append :
    p.CapturedIn r (xs ++ ys) ↔ p.CapturedIn r ys ∨ (p.CapturedIn r xs ∧ StaysOpen r ys) := by
  constructor
  · rintro ⟨before, dst, proto, after, heq, hr, hopen⟩
    obtain ⟨zs, rfl, hys⟩ | ⟨zs, hxs, hafter⟩ := List.append_eq_append_iff.mp heq
    · -- the closure operation is one of the second row
      exact .inl ⟨zs, dst, proto, after, hys, hr, hopen⟩
    · cases zs with
      | nil => exact .inl ⟨[], dst, proto, after, hafter.symm, hr, hopen⟩
      | cons op zs =>
        obtain ⟨rfl, rfl⟩ := List.cons.inj hafter
        obtain ⟨hzs, hys⟩ := staysOpen_append.mp hopen
        exact .inr ⟨⟨before, dst, proto, zs, hxs, hr, hzs⟩, hys⟩
  · rintro (⟨before, dst, proto, after, rfl, hr, hopen⟩ |
      ⟨⟨before, dst, proto, after, rfl, hr, hopen⟩, hys⟩)
    · exact ⟨xs ++ before, dst, proto, after, (List.append_assoc _ _ _).symm, hr, hopen⟩
    · exact ⟨before, dst, proto, after ++ ys, by rw [List.append_assoc, List.cons_append], hr,
        staysOpen_append.mpr ⟨hopen, hys⟩⟩

theorem capturedIn_singleton {op : Op} :
    p.CapturedIn r [op] ↔ ∃ dst proto, op = .closure dst proto ∧ r ∈ p.capturedBy proto := by
  constructor
  · rintro ⟨before, dst, proto, after, heq, hr, -⟩
    cases before with
    | nil => exact ⟨dst, proto, (List.cons.inj heq).1, hr⟩
    | cons op' before => cases before <;> cases (List.cons.inj heq).2
  · rintro ⟨dst, proto, rfl, hr⟩
    exact ⟨[], dst, proto, [], rfl, hr, fun _ h => by cases h⟩

theorem staysOpen_singleton {op : Op} : StaysOpen r [op] ↔ ∀ rs, op = .close rs → r ∉ rs := by
  simp only [StaysOpen, List.mem_singleton, eq_comm]

/-- **What an operation leaves captured.** -/
theorem of_captureFlow {states : SlotStates} (hr : r < states.length) (op : Op) :
    (p.captureFlow states op).of r = .captured ↔
      p.CapturedIn r [op] ∨ (states.of r = .captured ∧ StaysOpen r [op]) := by
  rw [capturedIn_singleton, staysOpen_singleton]
  cases op with
  | closure dst proto =>
    rw [of_captureFlow_closure states dst proto hr]
    by_cases hmem : r ∈ p.capturedBy proto <;> simp [hmem]
  | close rs =>
    rw [of_captureFlow_close states rs hr]
    by_cases hmem : r ∈ rs <;> simp [hmem]
  | _ => simp [captureFlow]

/-- **What operations in a row leave captured.** -/
theorem of_foldl_captureFlow : ∀ (ops : List Op) {states : SlotStates}, r < states.length →
    ((ops.foldl p.captureFlow states).of r = .captured ↔
      p.CapturedIn r ops ∨ (states.of r = .captured ∧ StaysOpen r ops))
  | [], states, _ => by
    have hnone : ¬ p.CapturedIn r [] := by
      rintro ⟨before, dst, proto, after, heq, -⟩
      cases before <;> cases heq
    have hopen : StaysOpen r [] := fun _ h => by cases h
    simp [hnone, hopen]
  | op :: ops, states, hr => by
    rw [List.foldl_cons, of_foldl_captureFlow ops (by rwa [length_captureFlow]),
      of_captureFlow hr op, show op :: ops = [op] ++ ops from rfl, capturedIn_append,
      staysOpen_append]
    tauto

/-! ### Paths -/

/-- The operations of the blocks on a path of edges from the first block to a block. -/
inductive Path (p : Procedure) : List Op → Nat → Prop
  | entry : Path p [] 0
  | next {ops : List Op} {b t : Nat} (h : Path p ops b) (ht : t ∈ p.successorsOf b) :
      Path p (ops ++ p.opsOf b) t

/-- On some path to a point, the register is captured and not closed after that. -/
def CapturedOnPath (p : Procedure) (r b i : Nat) : Prop :=
  ∃ ops, p.Path ops b ∧ p.CapturedIn r (ops ++ (p.opsOf b).take i)

theorem reaches_iff_path : p.Reaches b ↔ ∃ ops, p.Path ops b := by
  constructor
  · intro h
    induction h with
    | first => exact ⟨[], .entry⟩
    | next _ ht ih =>
      obtain ⟨ops, hops⟩ := ih
      exact ⟨_, hops.next ht⟩
  · rintro ⟨ops, h⟩
    induction h with
    | entry => exact .first
    | next _ ht ih => exact .next ih ht

theorem Path.lt (hp : p.Valid) (h : p.Path ops b) : b < p.blocks.length := by
  cases h with
  | entry => exact hp.nonempty
  | @next ops c _ _ ht =>
    unfold successorsOf at ht
    cases hc : p.blocks[c]? with
    | none => simp [hc] at ht
    | some block =>
      rw [hc] at ht
      exact (hp.exit block (List.mem_of_getElem? hc)).successors _ ht

/-- Some path leads to the block, and if the register is captured on entry, it is so on a path. -/
structure Explained (p : Procedure) (r b : Nat) (states : SlotStates) : Prop where
  reached : ∃ ops, p.Path ops b
  length : states.length = p.registers
  captured : states.of r = .captured → ∃ ops, p.Path ops b ∧ p.CapturedIn r ops

/-- What is explained on entry to a block is explained on entry to its successors. -/
theorem Explained.flow {states : SlotStates} (h : p.Explained r b states) (hr : r < p.registers)
    {t : Nat} (ht : t ∈ p.successorsOf b) :
    p.Explained r t ((p.opsOf b).foldl p.captureFlow states) where
  reached := h.reached.imp' (· ++ p.opsOf b) fun _ hops => hops.next ht
  length := (length_foldl_captureFlow _ _).trans h.length
  captured hcaptured := by
    rcases (of_foldl_captureFlow _ (h.length ▸ hr)).mp hcaptured with hin | ⟨hentry, hopen⟩
    · obtain ⟨ops, hops⟩ := h.reached
      exact ⟨_, hops.next ht, capturedIn_append.mpr (.inl hin)⟩
    · obtain ⟨ops, hops, hin⟩ := h.captured hentry
      exact ⟨_, hops.next ht, capturedIn_append.mpr (.inr ⟨hin, hopen⟩)⟩

theorem flow_of_getElem? {block : FlowBlock SlotStates}
    (hb : p.captureAnalysis.blocks[b]? = some block) :
    block.flow = (p.opsOf b).foldl p.captureFlow ∧ block.successors = p.successorsOf b := by
  rw [getElem?_captureAnalysis] at hb
  obtain ⟨block', hb', rfl⟩ := Option.map_eq_some_iff.mp hb
  simp [opsOf, successorsOf, hb']

/-- **What the analysis finds captured is captured on a path.** The induction is on the analysis. -/
theorem explained_entryStates {states : SlotStates} (h : p.entryStates b = some states)
    (hr : r < p.registers) : p.Explained r b states := by
  refine Dataflow.solve_induction (d := p.captureAnalysis) (P := p.Explained r)
    ⟨⟨[], .entry⟩, List.length_replicate, fun h => ?_⟩ ?_ ?_ (entryStates_eq_some.mp h)
  · cases (SlotStates.of_replicate p.registers r).symm.trans h
  · rintro b block states t hb hexp ht -
    obtain ⟨hflow, hsucc⟩ := flow_of_getElem? hb
    rw [hflow]
    exact hexp.flow hr (hsucc ▸ ht)
  · rintro b block states t there hb hexp ht hthere
    obtain ⟨hflow, hsucc⟩ := flow_of_getElem? hb
    have hout := hexp.flow hr (hsucc ▸ ht)
    have hlen := hthere.length.trans hout.length.symm
    rw [hflow]
    refine ⟨hthere.reached, ?_, fun hcaptured => ?_⟩
    · show (List.zipWith SlotState.join there _).length = _
      rw [List.length_zipWith, ← hlen, Nat.min_self, hthere.length]
    · rw [show p.captureAnalysis.join = List.zipWith SlotState.join from rfl,
        SlotStates.of_zipWith_join hlen] at hcaptured
      cases hof : there.of r with
      | captured => exact hthere.captured hof
      | plain =>
        refine hout.captured ?_
        rw [hof] at hcaptured
        revert hcaptured
        cases ((p.opsOf b).foldl p.captureFlow states).of r <;> simp [SlotState.join]

/-- **What is captured on a path is captured for the analysis.** The induction is on the path. -/
theorem captured_of_path (hp : p.Valid) (hr : r < p.registers) (h : p.Path ops b)
    (hin : p.CapturedIn r ops) {states : SlotStates} (hs : p.entryStates b = some states) :
    states.of r = .captured := by
  induction h generalizing states with
  | entry =>
    obtain ⟨before, dst, proto, after, heq, -⟩ := hin
    cases before <;> cases heq
  | @next ops b t hpath ht ih =>
    obtain ⟨block, hb⟩ : ∃ block, p.blocks[b]? = some block :=
      ⟨_, List.getElem?_eq_getElem (hpath.lt hp)⟩
    obtain ⟨here, hhere⟩ := (isSome_entryStates_iff hp).mpr (reaches_iff_path.mpr ⟨ops, hpath⟩)
    have hops : p.opsOf b = block.ops := by simp [opsOf, hb]
    have hsucc : t ∈ block.exit.successors := by simpa [successorsOf, hb] using ht
    obtain ⟨there, hthere, hmono⟩ := captured_mono hp hb hhere hsucc
    cases hs.symm.trans hthere
    have hlen : r < here.length := (length_entryStates hp hhere).symm ▸ hr
    rw [hops] at hin
    refine hmono r ((of_foldl_captureFlow _ hlen).mpr ?_)
    exact (capturedIn_append.mp hin).imp_right fun h => ⟨ih h.1 hhere, h.2⟩

/-- **The analysis is exact over paths.** -/
theorem of_statesAt_eq_captured_iff (hp : p.Valid) (hr : r < p.registers) {states : SlotStates}
    (h : p.statesAt b i = some states) :
    states.of r = .captured ↔ p.CapturedOnPath r b i := by
  obtain ⟨entry, hentry, rfl⟩ := Option.map_eq_some_iff.mp h
  have hexp := explained_entryStates hentry hr
  rw [of_foldl_captureFlow _ (hexp.length ▸ hr)]
  constructor
  · rintro (hin | ⟨hcaptured, hopen⟩)
    · obtain ⟨ops, hops⟩ := hexp.reached
      exact ⟨ops, hops, capturedIn_append.mpr (.inl hin)⟩
    · obtain ⟨ops, hops, hin⟩ := hexp.captured hcaptured
      exact ⟨ops, hops, capturedIn_append.mpr (.inr ⟨hin, hopen⟩)⟩
  · rintro ⟨ops, hops, hin⟩
    exact (capturedIn_append.mp hin).imp_right fun h => ⟨captured_of_path hp hr hops h.1 hentry, h.2⟩

/-! ### The order of visits -/

theorem le_captureAnalysis_iff {s t : SlotStates} (hs : s.length = p.registers)
    (ht : t.length = p.registers) :
    p.captureAnalysis.Le s t ↔ ∀ r, s.of r = .captured → t.of r = .captured := by
  have hlen : t.length = s.length := ht.trans hs.symm
  show List.zipWith SlotState.join t s = t ↔ _
  constructor
  · intro h r hr
    have hof := SlotStates.of_zipWith_join hlen r
    rw [h, hr] at hof
    rw [hof]
    cases t.of r <;> rfl
  · intro h
    refine SlotStates.ext_of (by simp [hlen]) fun r _ => ?_
    rw [SlotStates.of_zipWith_join hlen]
    cases ht : t.of r with
    | captured => rfl
    | plain =>
      cases hs : s.of r with
      | plain => rfl
      | captured => cases (h r hs).symm.trans ht

/-- Captured on either side is the least upper bound, and operations keep the order. -/
theorem ordered_captureAnalysis (hp : p.Valid) :
    Dataflow.Ordered p.captureAnalysis (·.length = p.registers) where
  idem s hs := by
    refine SlotStates.ext_of (by simp [captureAnalysis]) fun r _ => ?_
    rw [show p.captureAnalysis.join = List.zipWith SlotState.join from rfl,
      SlotStates.of_zipWith_join rfl]
    cases s.of r <;> rfl
  comm s t hs ht := by
    refine List.zipWith_comm_of_comm fun x y => ?_
    cases x <;> cases y <;> rfl
  assoc s t u hs ht hu := by
    refine SlotStates.ext_of (by simp [captureAnalysis, hs, ht, hu]) fun r _ => ?_
    simp only [show p.captureAnalysis.join = List.zipWith SlotState.join from rfl]
    rw [SlotStates.of_zipWith_join (by simp [hs, ht, hu]),
      SlotStates.of_zipWith_join (by simp [hs, ht]),
      SlotStates.of_zipWith_join (by simp [hs, ht, hu]),
      SlotStates.of_zipWith_join (by simp [ht, hu])]
    cases s.of r <;> cases t.of r <;> cases u.of r <;> rfl
  flow block hmem s t hs ht hle := by
    obtain ⟨b, hb⟩ := Array.mem_iff_getElem?.mp hmem
    have hlen : ∀ s : SlotStates, s.length = p.registers → (block.flow s).length = p.registers :=
      fun s hs => (lawful_captureAnalysis hp).flow block hmem s hs
    rw [le_captureAnalysis_iff (hlen s hs) (hlen t ht)]
    rw [le_captureAnalysis_iff hs ht] at hle
    obtain ⟨hflow, -⟩ := flow_of_getElem? hb
    intro r hr
    have hlt : r < p.registers := by
      by_contra hge
      rw [SlotStates.of_eq_plain_of_le (by rw [hlen s hs]; omega)] at hr
      cases hr
    rw [hflow] at hr ⊢
    rw [of_foldl_captureFlow _ (ht ▸ hlt)]
    exact ((of_foldl_captureFlow _ (hs ▸ hlt)).mp hr).imp_right fun h => ⟨hle r h.1, h.2⟩

/-! ### The numbers of blocks -/

end Procedure

/-- The exit with the numbers of its blocks changed. -/
def Exit.renumber (σ : Nat → Nat) : Exit → Exit
  | .jump t => .jump (σ t)
  | .branch cond ifTrue ifFalse => .branch cond (σ ifTrue) (σ ifFalse)
  | .ret args => .ret args
  | .tailCall target args => .tailCall target args

/-- The block with the numbers of other blocks changed. -/
def Block.renumber (σ : Nat → Nat) (b : Block) : Block := ⟨b.ops, b.exit.renumber σ⟩

theorem Exit.successors_renumber (σ : Nat → Nat) (e : Exit) :
    (e.renumber σ).successors = e.successors.map σ := by
  cases e <;> rfl

theorem Exit.registers_renumber (σ : Nat → Nat) (e : Exit) :
    (e.renumber σ).registers = e.registers := by
  cases e <;> rfl

namespace Procedure

/-- The procedure with other blocks. -/
def withBlocks (p : Procedure) (blocks : List Block) : Procedure := { p with blocks := blocks }

/-- The blocks are those of the procedure in another order, the first one still first. -/
structure Renumbers (p : Procedure) (σ : Nat → Nat) (blocks : List Block) : Prop where
  first : σ 0 = 0
  injective : ∀ b < p.blocks.length, ∀ c < p.blocks.length, σ b = σ c → b = c
  length : blocks.length = p.blocks.length
  block : ∀ b block, p.blocks[b]? = some block → blocks[σ b]? = some (block.renumber σ)

namespace Renumbers

variable {p : Procedure} {σ : Nat → Nat} {blocks : List Block} (h : p.Renumbers σ blocks)
  {r b i : Nat} {ops : List Op}
include h

theorem lt (hb : b < p.blocks.length) : σ b < p.blocks.length := by
  have hget := h.block b _ (List.getElem?_eq_getElem hb)
  rw [← h.length]
  exact (List.getElem?_eq_some_iff.mp hget).1

/-- Every block comes from one of the procedure. -/
theorem exists_block {c : Nat} (hc : c < p.blocks.length) : ∃ b < p.blocks.length, σ b = c := by
  have hinj : Function.Injective fun b : Fin p.blocks.length => (⟨σ b, h.lt b.2⟩ : Fin _) :=
    fun a b hab => Fin.ext (h.injective a a.2 b b.2 (Fin.mk.inj hab))
  obtain ⟨b, hb⟩ := Finite.injective_iff_surjective.mp hinj ⟨c, hc⟩
  exact ⟨b, b.2, Fin.mk.inj hb⟩

theorem opsOf (hb : b < p.blocks.length) : (p.withBlocks blocks).opsOf (σ b) = p.opsOf b := by
  have hget := List.getElem?_eq_getElem hb
  have hget' : (p.withBlocks blocks).blocks[σ b]? = _ := h.block b _ hget
  simp only [Procedure.opsOf, hget, hget', Option.map_some, Block.renumber]

theorem successorsOf (hb : b < p.blocks.length) :
    (p.withBlocks blocks).successorsOf (σ b) = (p.successorsOf b).map σ := by
  have hget := List.getElem?_eq_getElem hb
  have hget' : (p.withBlocks blocks).blocks[σ b]? = _ := h.block b _ hget
  simp only [Procedure.successorsOf, hget, hget', Option.map_some, Block.renumber,
    Exit.successors_renumber, Option.getD_some]

/-- The procedure still names only what exists. -/
theorem valid (hp : p.Valid) : (p.withBlocks blocks).Valid := by
  have hmem : ∀ block ∈ blocks, ∃ old ∈ p.blocks, block = old.renumber σ := by
    intro block hblock
    obtain ⟨c, hc⟩ := List.mem_iff_getElem?.mp hblock
    obtain ⟨b, hb, rfl⟩ := h.exists_block (h.length ▸ (List.getElem?_eq_some_iff.mp hc).1)
    have hget := h.block b _ (List.getElem?_eq_getElem hb)
    exact ⟨_, List.getElem_mem hb, Option.some.inj (hc.symm.trans hget)⟩
  refine ⟨h.length ▸ hp.nonempty, hp.params_le, fun block hblock op hop => ?_,
    fun block hblock => ?_⟩
  · obtain ⟨old, hold, rfl⟩ := hmem block hblock
    have hvalid := hp.op old hold op hop
    refine ⟨hvalid.registers, ?_⟩
    rw [← hvalid.references]
    cases op <;> rfl
  · obtain ⟨old, hold, rfl⟩ := hmem block hblock
    have hvalid := hp.exit old hold
    refine ⟨fun r hr => ?_, fun t ht => ?_⟩
    · rw [Block.renumber, Exit.registers_renumber] at hr
      exact hvalid.registers r hr
    · rw [Block.renumber, Exit.successors_renumber] at ht
      obtain ⟨t, hmem, rfl⟩ := List.mem_map.mp ht
      exact h.length ▸ h.lt (hvalid.successors t hmem)

theorem path (hp : p.Valid) (hpath : p.Path ops b) : (p.withBlocks blocks).Path ops (σ b) := by
  induction hpath with
  | entry =>
    rw [h.first]
    exact .entry
  | @next ops b t hpath ht ih =>
    have hb := hpath.lt hp
    rw [← h.opsOf hb]
    exact ih.next (h.successorsOf hb ▸ List.mem_map_of_mem ht)

theorem exists_path (hp : p.Valid) {c : Nat} (hpath : (p.withBlocks blocks).Path ops c) :
    ∃ b, σ b = c ∧ p.Path ops b := by
  induction hpath with
  | entry => exact ⟨0, h.first, .entry⟩
  | @next ops c t hpath ht ih =>
    obtain ⟨b, rfl, hb⟩ := ih
    rw [h.successorsOf (hb.lt hp)] at ht
    obtain ⟨t, hmem, rfl⟩ := List.mem_map.mp ht
    rw [h.opsOf (hb.lt hp)]
    exact ⟨t, rfl, hb.next hmem⟩

/-- **Paths do not depend on the numbers of blocks.** -/
theorem path_iff (hp : p.Valid) (hb : b < p.blocks.length) :
    (p.withBlocks blocks).Path ops (σ b) ↔ p.Path ops b := by
  refine ⟨fun hpath => ?_, h.path hp⟩
  obtain ⟨c, hc, hpath⟩ := h.exists_path hp hpath
  rwa [h.injective c (hpath.lt hp) b hb hc] at hpath

theorem capturedOnPath_iff (hp : p.Valid) (hb : b < p.blocks.length) :
    (p.withBlocks blocks).CapturedOnPath r (σ b) i ↔ p.CapturedOnPath r b i := by
  simp only [CapturedOnPath, h.path_iff hp hb, h.opsOf hb]
  rfl

/-- **The analysis does not depend on the numbers of blocks.** -/
theorem statesAt_eq (hp : p.Valid) (hb : b < p.blocks.length) :
    (p.withBlocks blocks).statesAt (σ b) i = p.statesAt b i := by
  have hsome : ∀ (q : Procedure) (c : Nat), q.Valid →
      ((∃ states, q.statesAt c i = some states) ↔ ∃ ops, q.Path ops c) := by
    intro q c hq
    rw [← reaches_iff_path, ← isSome_entryStates_iff hq]
    simp only [Procedure.statesAt, Option.map_eq_some_iff]
    exact ⟨fun ⟨_, entry, he, _⟩ => ⟨entry, he⟩, fun ⟨entry, he⟩ => ⟨_, entry, he, rfl⟩⟩
  have hlength : ∀ (q : Procedure) (c : Nat) (states : SlotStates), q.Valid →
      q.statesAt c i = some states → states.length = q.registers := by
    intro q c states hq hs
    obtain ⟨entry, he, rfl⟩ := Option.map_eq_some_iff.mp hs
    rw [length_foldl_captureFlow, length_entryStates hq he]
  have hp' := h.valid hp
  have hiff : (∃ states, (p.withBlocks blocks).statesAt (σ b) i = some states) ↔
      ∃ states, p.statesAt b i = some states := by
    rw [hsome _ _ hp', hsome _ _ hp]
    simp only [h.path_iff hp hb]
  cases hs : p.statesAt b i with
  | none =>
    rw [hs] at hiff
    rw [Option.eq_none_iff_forall_ne_some]
    intro states hstates
    obtain ⟨states, hnone⟩ := hiff.mp ⟨states, hstates⟩
    cases hnone
  | some states =>
    obtain ⟨states', hs'⟩ := hiff.mpr ⟨states, hs⟩
    have hlen := hlength _ _ _ hp hs
    have hlen' : states'.length = p.registers :=
      hlength (p.withBlocks blocks) (σ b) states' hp' hs'
    rw [hs']
    refine congrArg some (SlotStates.ext_of (hlen'.trans hlen.symm) fun r hr => ?_)
    have hr : r < p.registers := hlen' ▸ hr
    have h1 := of_statesAt_eq_captured_iff hp hr hs
    have h2 := of_statesAt_eq_captured_iff (p := p.withBlocks blocks) hp' hr hs'
    rw [h.capturedOnPath_iff hp hb, ← h1] at h2
    exact SlotState.ext h2

end Renumbers

end Procedure

namespace Procedure

variable {p : Procedure} {code : Code}

/-- **The analysis of captured registers is exact over paths.**

For a procedure that is compiled, the analysis ends without a crash. A block counts as reachable
exactly when a path of edges leads to it, and at each point of such a block a register is captured
exactly when some path to the point captures it and does not close it after that.

In whatever order blocks are visited, and whatever numbers they have, the visits come to an end, and
the states are the same. -/
theorem captures_exact_over_paths (h : p.compile = .ok code) :
    (∃ arena, Checked.arena p p.captures = .ok arena ∧
      ∀ b < p.blocks.length, (arena.isReachable b = true ↔ p.Reaches b) ∧
        ∀ i ≤ (p.opsOf b).length, p.Reaches b → ∃ states, arena.statesAt b i = .ok states ∧
          states.length = p.registers ∧
          ∀ r < p.registers, (states.of r = .captured ↔ p.CapturedOnPath r b i)) ∧
    (∀ visits : List (Dataflow.Agenda SlotStates),
      List.IsChain p.captureAnalysis.Visits (.first p.captureAnalysis :: visits) →
        visits.length ≤ p.captureAnalysis.visitBound) ∧
    (∀ agenda, Relation.ReflTransGen p.captureAnalysis.Visits (.first p.captureAnalysis) agenda →
      (agenda.pending = [] → agenda.entries = p.captures) ∧
      (agenda.pending ≠ [] → ∃ next, p.captureAnalysis.Visits agenda next)) ∧
    p.captureAnalysis.drain p.captureAnalysis.visitBound p.captureAnalysis.initial [0] =
      some p.captures ∧
    ∀ σ blocks, p.Renumbers σ blocks → (∃ code', (p.withBlocks blocks).compile = .ok code') ∧
      ∀ b < p.blocks.length, ∀ i, (p.withBlocks blocks).statesAt (σ b) i = p.statesAt b i := by
  obtain ⟨hp, codes, hcodes, -⟩ := compile_eq_ok_iff.mp h
  obtain ⟨hbound, hend, hqueue⟩ := Dataflow.visits_end_at_solve (lawful_captureAnalysis hp)
    (ordered_captureAnalysis hp) (size_captureAnalysis ▸ hp.nonempty)
  refine ⟨⟨Checked.arenaOf p, Checked.arena_eq hp, fun b hb => ⟨?_, fun i hi hreaches => ?_⟩⟩, hbound,
    hend, hqueue, fun σ blocks hσ => ⟨⟨_, compile_eq_ok_iff.mpr ⟨hσ.valid hp, codes, hcodes, rfl⟩⟩,
      fun b hb i => hσ.statesAt_eq hp hb⟩⟩
  · rw [Checked.isReachable_eq (List.getElem?_eq_getElem hb), Option.isSome_iff_exists]
    exact isSome_entryStates_iff hp
  · obtain ⟨entry, hentry⟩ := (isSome_entryStates_iff hp).mpr hreaches
    have hget := List.getElem?_eq_getElem hb
    have hops : p.opsOf b = p.blocks[b].ops := by simp [opsOf, hget]
    have hat : p.statesAt b i = some ((p.blocks[b].ops.take i).foldl p.captureFlow entry) := by
      rw [statesAt, hentry, hops]
      rfl
    refine ⟨_, Checked.statesAt_eq hp hget (hops ▸ hi) hentry, ?_, fun r hr =>
      of_statesAt_eq_captured_iff hp hr hat⟩
    rw [length_foldl_captureFlow, length_entryStates hp hentry]

/-- A loop that makes a closure of its first register and closes the register again. -/
def reopen : Procedure where
  name := "reopen"
  params := 1
  isVararg := false
  registers := 2
  upvalues := []
  blocks := [⟨[], .jump 1⟩, ⟨[.closure 1 0, .close [0]], .branch 1 1 2⟩, ⟨[], .ret ⟨[], false⟩⟩]
  nested := [⟨"inner", 0, false, 0, [.register 0], [⟨[], .ret ⟨[], false⟩⟩], []⟩]

/-- Inside the loop the register is captured between the two operations only. -/
theorem captures_exact_reopen : ∃ code, reopen.compile = .ok code ∧
    reopen.CapturedOnPath 0 1 1 ∧ ¬ reopen.CapturedOnPath 0 1 0 ∧ ¬ reopen.CapturedOnPath 0 1 2 := by
  have hinner : (⟨"inner", 0, false, 0, [.register 0], [⟨[], .ret ⟨[], false⟩⟩], []⟩ :
      Procedure).compile = .ok _ :=
    compile_eq_ok_iff.mpr ⟨check_eq_ok_iff.mp rfl, [], .nil, rfl⟩
  have hcompile : reopen.compile = .ok (reopen.assemble [_]) :=
    compile_eq_ok_iff.mpr ⟨check_eq_ok_iff.mp rfl, _, .cons hinner .nil, rfl⟩
  obtain ⟨⟨arena, harena, hpoints⟩, -⟩ := captures_exact_over_paths hcompile
  have hrow : Checked.arena reopen reopen.captures = .ok ⟨2, [some 0, some 1, some 4],
      [.plain, .plain, .plain, .plain, .captured, .plain, .plain, .plain, .plain, .plain]⟩ := rfl
  cases harena.symm.trans hrow
  have hreaches : reopen.Reaches 1 := .next .first (List.mem_singleton_self 1)
  obtain ⟨-, hstates⟩ := hpoints 1 (by decide)
  obtain ⟨s₀, h₀, -, hiff₀⟩ := hstates 0 (by decide) hreaches
  obtain ⟨s₁, h₁, -, hiff₁⟩ := hstates 1 (by decide) hreaches
  obtain ⟨s₂, h₂, -, hiff₂⟩ := hstates 2 (by decide) hreaches
  cases h₀
  cases h₁
  cases h₂
  refine ⟨_, hcompile, (hiff₁ 0 (by decide)).mp rfl, fun h => ?_, fun h => ?_⟩
  · cases (hiff₀ 0 (by decide)).mpr h
  · cases (hiff₂ 0 (by decide)).mpr h

end Procedure

end ResumableVM
