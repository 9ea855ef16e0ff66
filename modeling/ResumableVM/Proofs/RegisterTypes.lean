import ResumableVM.Compile.RegisterTypes
import ResumableVM.Proofs.Captures

/-! # RegisterTypes: what the analysis of register types guarantees

The types form a tree of height two, so an entry can be raised twice for every register and the
analysis is lawful over any states of the registers. The first block is entered with any type for
the parameters (`le_entryInfo_zero`), and what is known at the end of a block still holds at the
entry of every successor (`flows_entryInfo`). Blocks have a known entry exactly when they can be
reached. `infoAt` reads what is known before an operation. -/

namespace ResumableVM

namespace ValueType

theorem isSubtypeOf_iff {s t : ValueType} :
    s.isSubtypeOf t = true ↔ s = t ∨ t = any ∨ t = number ∧ (s = integer ∨ s = float) := by
  cases s <;> cases t <;> decide

theorem isSubtypeOf_trans {s t u : ValueType} (h : s.isSubtypeOf t = true)
    (h' : t.isSubtypeOf u = true) : s.isSubtypeOf u = true := by
  rw [isSubtypeOf_iff] at *
  rcases h with rfl | rfl | ⟨rfl, h⟩
  · exact h'
  · rcases h' with rfl | rfl | ⟨rfl, h'⟩ <;> simp_all
  · rcases h' with rfl | rfl | ⟨rfl, h'⟩ <;> simp_all

theorem isSubtypeOf_join_left (s t : ValueType) : s.isSubtypeOf (s.join t) = true := by
  cases s <;> cases t <;> decide

theorem isSubtypeOf_join_right (s t : ValueType) : t.isSubtypeOf (s.join t) = true := by
  cases s <;> cases t <;> decide

/-- The height of a type in the tree. -/
def rank : ValueType → Nat
  | any => 2
  | number => 1
  | _ => 0

theorem join_raises (s t : ValueType) : s.join t = s ∨ s.rank < (s.join t).rank := by
  cases s <;> cases t <;> decide

theorem rank_le (t : ValueType) : t.rank ≤ 2 := by cases t <;> decide

/-- A number is what a numeric type promises. -/
theorem isNumeric_of_isSubtypeOf {s t : ValueType} (h : s.isSubtypeOf t = true)
    (ht : t.isNumeric = true) : s.isNumeric = true := isSubtypeOf_trans h ht

end ValueType

namespace TypeSeq

/-- A shape of exactly `n` values. -/
structure HasLength (a : TypeSeq) (n : Nat) : Prop where
  length : a.fixed.length = n
  noTail : a.hasTail = false

theorem HasLength.filler {a : TypeSeq} {n : Nat} (h : a.HasLength n) : a.filler = .nil := by
  simp [TypeSeq.filler, h.noTail]

theorem sideBySide_of_length_eq {a b : TypeSeq} (h : a.fixed.length = b.fixed.length) :
    sideBySide a b = a.fixed.zip b.fixed := by
  simp [sideBySide, padded, h]

theorem join_fixed {a b : TypeSeq} {n : Nat} (ha : a.HasLength n) (hb : b.HasLength n) :
    (a.join b).fixed = List.zipWith ValueType.join a.fixed b.fixed := by
  simp only [join, sideBySide_of_length_eq (ha.length.trans hb.length.symm)]
  rw [List.zip, List.map_zipWith]

theorem HasLength.join {a b : TypeSeq} {n : Nat} (ha : a.HasLength n) (hb : b.HasLength n) :
    (a.join b).HasLength n where
  length := by rw [join_fixed ha hb]; simp [ha.length, hb.length]
  noTail := by simp [TypeSeq.join, ha.noTail, hb.noTail]

theorem HasLength.set {a : TypeSeq} {n : Nat} (ha : a.HasLength n) (i : Nat) (t : ValueType) :
    (a.set i t).HasLength n where
  length := by simp [TypeSeq.set, ha.length]
  noTail := ha.noTail

theorem get_set {a : TypeSeq} {i : Nat} (t : ValueType) (h : i < a.fixed.length) :
    (a.set i t).get i = t := by
  simp [set, get, h]

theorem get_set_of_ne {a : TypeSeq} {i j : Nat} (t : ValueType) (h : i ≠ j) :
    (a.set i t).get j = a.get j := by
  unfold set get filler
  rw [List.getElem?_set_ne h]

/-- The heights of all types together. -/
def rank (a : TypeSeq) : Nat := (a.fixed.map ValueType.rank).sum

theorem rank_le {a : TypeSeq} {n : Nat} (ha : a.HasLength n) : a.rank ≤ 3 * n := by
  have h : ∀ l : List ValueType, (l.map ValueType.rank).sum ≤ 3 * l.length := by
    intro l
    induction l with
    | nil => simp
    | cons t l ih =>
      have := t.rank_le
      simp only [List.map_cons, List.sum_cons, List.length_cons]; omega
  rw [← ha.length]
  exact h a.fixed

theorem zipWith_join_raises : ∀ (a b : List ValueType), a.length = b.length →
    List.zipWith ValueType.join a b = a ∨
      (a.map ValueType.rank).sum < ((List.zipWith ValueType.join a b).map ValueType.rank).sum
  | [], [], _ => Or.inl rfl
  | s :: a, t :: b, h => by
    have ih := zipWith_join_raises a b (by simpa using h)
    simp only [List.zipWith_cons_cons, List.map_cons, List.sum_cons]
    rcases ValueType.join_raises s t with hs | hs <;> rcases ih with ih | ih
    · left; rw [hs, ih]
    · right; rw [hs]; omega
    · right; rw [ih]; omega
    · right; omega

theorem join_raises {a b : TypeSeq} {n : Nat} (ha : a.HasLength n) (hb : b.HasLength n) :
    a.join b = a ∨ a.rank < (a.join b).rank := by
  have h := zipWith_join_raises a.fixed b.fixed (ha.length.trans hb.length.symm)
  rw [← join_fixed ha hb] at h
  rcases h with h | h
  · left
    have ht : (a.join b).hasTail = a.hasTail := by rw [(ha.join hb).noTail, ha.noTail]
    cases hab : a.join b
    cases a
    simp_all
  · right; exact h

/-- A shape is below its join with another, position by position. -/
theorem get_isSubtypeOf_join {a b : TypeSeq} {n : Nat} (ha : a.HasLength n) (hb : b.HasLength n)
    (i : Nat) :
    (a.get i).isSubtypeOf ((a.join b).get i) = true ∧
      (b.get i).isSubtypeOf ((a.join b).get i) = true := by
  by_cases hi : i < n
  · rw [get_join a b (by rw [ha.length]; omega)]
    exact ⟨ValueType.isSubtypeOf_join_left _ _, ValueType.isSubtypeOf_join_right _ _⟩
  · rw [get_of_length_le a (by rw [ha.length]; omega), get_of_length_le b (by rw [hb.length]; omega),
      get_of_length_le _ (by rw [(ha.join hb).length]; omega), ha.filler, hb.filler,
      (ha.join hb).filler]
    exact ⟨rfl, rfl⟩

end TypeSeq

/-! ### What is known after an operation -/

/-- What is known here still holds there, where more registers may be captured. -/
structure RegisterInfo.Flows (here there : RegisterInfo) : Prop where
  captured : ∀ r, here.states.of r = .captured → there.states.of r = .captured
  types : ∀ r, (here.types.get r).isSubtypeOf (there.types.get r) = true

theorem SlotStates.length_forget : ∀ (states : SlotStates) (ts : List ValueType),
    (SlotStates.forget states ts).length = ts.length
  | [], ts => by cases ts <;> rfl
  | s :: states, [] => by cases s <;> rfl
  | .captured :: states, _ :: ts => by simp [forget, length_forget states ts]
  | .plain :: states, _ :: ts => by simp [forget, length_forget states ts]

theorem SlotStates.getElem?_forget : ∀ (states : SlotStates) (ts : List ValueType) (r : Nat),
    (SlotStates.forget states ts)[r]? =
      ts[r]?.map fun t => if of states r = .captured then .any else t
  | [], ts, r => by cases ts <;> simp [forget, of]
  | s :: states, [], r => by cases s <;> simp [forget]
  | s :: states, t :: ts, 0 => by cases s <;> simp [forget, of]
  | s :: states, t :: ts, r + 1 => by
    have ih := getElem?_forget states ts r
    have hof : of (s :: states) (r + 1) = of states r := by simp [of]
    cases s <;> simpa [forget, hof] using ih

theorem get_forgetCaptured {before after : SlotStates} (h : before.length = after.length)
    {types : TypeSeq} {r : Nat} (hr : r < types.fixed.length) :
    (forgetCaptured before after types).get r =
      if before.of r = .captured ∨ after.of r = .captured then .any else types.get r := by
  simp only [forgetCaptured, TypeSeq.get, SlotStates.getElem?_forget,
    SlotStates.of_zipWith_join h r, List.getElem?_eq_getElem hr, Option.map_some, Option.getD_some]
  cases before.of r <;> cases after.of r <;> simp [SlotState.join]

namespace TypeSeq

theorem HasLength.forgetCaptured {a : TypeSeq} {n : Nat} (h : a.HasLength n)
    (before after : SlotStates) : (ResumableVM.forgetCaptured before after a).HasLength n where
  length := by simp [ResumableVM.forgetCaptured, SlotStates.length_forget, h.length]
  noTail := h.noTail

/-- The shape after some positions are written. -/
def setAll (a : TypeSeq) (written : List (Nat × ValueType)) : TypeSeq :=
  written.foldl (fun types (r, t) => types.set r t) a

theorem HasLength.setAll {n : Nat} :
    ∀ (written : List (Nat × ValueType)) {a : TypeSeq}, a.HasLength n →
      (a.setAll written).HasLength n
  | [], _, h => h
  | (r, t) :: written, _, h => HasLength.setAll written (h.set r t)

end TypeSeq

namespace Procedure

variable {p : Procedure}

theorem typeFlow_states (info : RegisterInfo) (op : Op) :
    (p.typeFlow info op).states = p.captureFlow info.states op := rfl

theorem typeFlow_types (info : RegisterInfo) (op : Op) :
    (p.typeFlow info op).types =
      forgetCaptured info.states (p.captureFlow info.states op)
        (info.types.setAll (op.writtenTypes info)) := rfl

theorem typeFlowAll_states :
    ∀ (ops : List Op) (info : RegisterInfo),
      (p.typeFlowAll info ops).states = ops.foldl p.captureFlow info.states
  | [], _ => rfl
  | op :: ops, info => typeFlowAll_states ops (p.typeFlow info op)

theorem hasLength_typeFlow {info : RegisterInfo} {n : Nat} (h : info.types.HasLength n) (op : Op) :
    (p.typeFlow info op).types.HasLength n :=
  (TypeSeq.HasLength.setAll _ h).forgetCaptured _ _

theorem hasLength_typeFlowAll {n : Nat} :
    ∀ (ops : List Op) {info : RegisterInfo}, info.types.HasLength n →
      (p.typeFlowAll info ops).types.HasLength n
  | [], _, h => h
  | op :: ops, _, h => hasLength_typeFlowAll ops (hasLength_typeFlow h op)

/-! ### The solution -/

variable {captures : Dataflow.Entries SlotStates}

theorem size_typeAnalysis : (p.typeAnalysis captures).blocks.size = p.blocks.length := by
  simp [typeAnalysis]

theorem getElem?_typeAnalysis (b : Nat) :
    (p.typeAnalysis captures).blocks[b]? =
      p.blocks[b]?.map fun block =>
        ⟨fun types => (p.typeFlowAll ⟨captures[b]?.join.getD [], types⟩ block.ops).types,
          block.exit.successors⟩ := by
  simp only [typeAnalysis, List.getElem?_toArray, List.getElem?_map, List.getElem?_zipIdx,
    Option.map_map]
  cases p.blocks[b]? <;> simp

theorem hasLength_start (hp : p.Valid) : (p.typeAnalysis captures).start.HasLength p.registers where
  length := by
    have := hp.params_le
    simp [typeAnalysis, TypeSeq.ofList]; omega
  noTail := rfl

/-- The analysis is lawful, whatever the states of the registers. -/
theorem lawful_typeAnalysis (hp : p.Valid) :
    Dataflow.Lawful (p.typeAnalysis captures) (·.HasLength p.registers) TypeSeq.rank where
  start := hasLength_start hp
  flow block hb s hs := by
    obtain ⟨b, hb⟩ := Array.getElem?_of_mem hb
    rw [getElem?_typeAnalysis] at hb
    obtain ⟨blk, -, rfl⟩ := Option.map_eq_some_iff.mp hb
    exact hasLength_typeFlowAll _ hs
  join s t hs ht := hs.join ht
  rank_le s hs := TypeSeq.rank_le hs
  join_raises s t hs ht := TypeSeq.join_raises hs ht
  successors block hb t ht := by
    rw [size_typeAnalysis]
    obtain ⟨b, hb⟩ := Array.getElem?_of_mem hb
    rw [getElem?_typeAnalysis] at hb
    obtain ⟨blk, hblk, rfl⟩ := Option.map_eq_some_iff.mp hb
    exact (hp.exit blk (List.mem_of_getElem? hblk)).successors t ht

/-- The types on entry to a block, if it can be reached. -/
def entryTypes (p : Procedure) (b : Nat) : Option TypeSeq := (p.registerTypes p.captures)[b]?.join

theorem entryTypes_eq_some {b : Nat} {types : TypeSeq} :
    p.entryTypes b = some types ↔
      (p.typeAnalysis p.captures).solve[b]? = some (some types) :=
  Option.join_eq_some_iff

/-- What is known on entry to a block, if it can be reached. -/
def entryInfo (p : Procedure) (b : Nat) : Option RegisterInfo :=
  match p.entryStates b, p.entryTypes b with
  | some states, some types => some ⟨states, types⟩
  | _, _ => none

theorem entryInfo_eq_some {b : Nat} {info : RegisterInfo} :
    p.entryInfo b = some info ↔
      p.entryStates b = some info.states ∧ p.entryTypes b = some info.types := by
  unfold entryInfo
  cases p.entryStates b <;> cases p.entryTypes b <;> simp
  exact ⟨fun h => h ▸ ⟨rfl, rfl⟩, fun ⟨h1, h2⟩ => by cases info; simp_all⟩

/-- What is known fits the registers of a procedure. -/
structure Sized (p : Procedure) (info : RegisterInfo) : Prop where
  states : info.states.length = p.registers
  types : info.types.HasLength p.registers

theorem sized_entryInfo (hp : p.Valid) {b : Nat} {info : RegisterInfo}
    (h : p.entryInfo b = some info) : p.Sized info := by
  obtain ⟨hs, ht⟩ := entryInfo_eq_some.mp h
  exact ⟨length_entryStates hp hs,
    (Dataflow.allGood_solve (lawful_typeAnalysis hp)).2 b _ (entryTypes_eq_some.mp ht)⟩

theorem Sized.typeFlow {info : RegisterInfo} (h : p.Sized info) (op : Op) :
    p.Sized (p.typeFlow info op) :=
  ⟨by rw [typeFlow_states, length_captureFlow, h.states], hasLength_typeFlow h.types op⟩

theorem Sized.typeFlowAll : ∀ (ops : List Op) {info : RegisterInfo}, p.Sized info →
    p.Sized (p.typeFlowAll info ops)
  | [], _, h => h
  | op :: ops, _, h => Sized.typeFlowAll ops (h.typeFlow op)

theorem successorsOf_typeAnalysis (b : Nat) :
    (p.typeAnalysis captures).successorsOf b = p.successorsOf b := by
  unfold Dataflow.successorsOf successorsOf
  rw [getElem?_typeAnalysis, Option.map_map]
  rfl

theorem isSome_entryTypes_iff (hp : p.Valid) {b : Nat} :
    (∃ types, p.entryTypes b = some types) ↔ p.Reaches b := by
  have h := Dataflow.isSome_solve_iff (@lawful_typeAnalysis p p.captures hp)
    (by rw [size_typeAnalysis]; exact hp.nonempty) (b := b)
  rw [funext successorsOf_typeAnalysis] at h
  simp only [entryTypes_eq_some]
  exact h

/-- **The two analyses agree on what can be reached.** -/
theorem isSome_entryInfo_iff (hp : p.Valid) {b : Nat} :
    (∃ info, p.entryInfo b = some info) ↔ p.Reaches b := by
  constructor
  · rintro ⟨info, h⟩
    exact (isSome_entryStates_iff hp).mp ⟨_, (entryInfo_eq_some.mp h).1⟩
  · intro h
    obtain ⟨states, hs⟩ := (isSome_entryStates_iff hp).mpr h
    obtain ⟨types, ht⟩ := (isSome_entryTypes_iff hp).mpr h
    exact ⟨⟨states, types⟩, entryInfo_eq_some.mpr ⟨hs, ht⟩⟩

/-- **What is known at the end of a block holds at the entry of its successors.** -/
theorem flows_entryInfo (hp : p.Valid) {b t : Nat} {block : Block} {info : RegisterInfo}
    (hb : p.blocks[b]? = some block) (hi : p.entryInfo b = some info)
    (ht : t ∈ block.exit.successors) :
    ∃ there, p.entryInfo t = some there ∧ (p.typeFlowAll info block.ops).Flows there := by
  obtain ⟨hs, htypes⟩ := entryInfo_eq_some.mp hi
  obtain ⟨states, hstates, hmono⟩ := captured_mono hp hb hs ht
  have hlaw := @lawful_typeAnalysis p p.captures hp
  obtain ⟨types, hsolve, hjoin⟩ := Dataflow.stable_solve hlaw
    (by rw [getElem?_typeAnalysis, hb]; rfl) (entryTypes_eq_some.mp htypes) ht
  refine ⟨⟨states, types⟩, entryInfo_eq_some.mpr ⟨hstates, entryTypes_eq_some.mpr hsolve⟩, ?_, ?_⟩
  · rw [typeFlowAll_states]
    exact hmono
  · intro r
    have hentry : p.captures[b]?.join.getD [] = info.states := by
      have : p.captures[b]?.join = some info.states := hs
      rw [this]; rfl
    have hsized := sized_entryInfo hp hi
    have hlen := (Dataflow.allGood_solve hlaw).2 t types hsolve
    have hsub := (TypeSeq.get_isSubtypeOf_join hlen
      (hasLength_typeFlowAll (p := p) block.ops hsized.types) r).2
    have hj : types.join (p.typeFlowAll info block.ops).types = types := by
      rw [hentry] at hjoin
      exact hjoin
    rwa [hj] at hsub

/-- The types with which a call begins. -/
def startTypes (p : Procedure) : TypeSeq := (p.typeAnalysis p.captures).start

theorem get_startTypes (hp : p.Valid) {r : Nat} (hr : r < p.registers) :
    p.startTypes.get r = if r < p.params then .any else .nil := by
  have hle := hp.params_le
  simp only [startTypes, typeAnalysis, TypeSeq.ofList, TypeSeq.get, Nat.min_eq_left hle]
  by_cases h : r < p.params
  · simp [h, List.getElem?_append]
  · have : r - p.params < p.registers - p.params := by omega
    simp [h, List.getElem?_append, this]

/-- **The first block** is known to be entered, with types above those of a call's start. -/
theorem le_entryInfo_zero (hp : p.Valid) :
    ∃ info, p.entryInfo 0 = some info ∧
      ∀ r, (p.startTypes.get r).isSubtypeOf (info.types.get r) = true := by
  obtain ⟨info, hi⟩ := (isSome_entryInfo_iff hp).mpr (Dataflow.Reaches.first : p.Reaches 0)
  refine ⟨info, hi, ?_⟩
  have hlaw := @lawful_typeAnalysis p p.captures hp
  have hsolve := entryTypes_eq_some.mp (entryInfo_eq_some.mp hi).2
  have h := Dataflow.solve_induction
    (P := fun b types => types.HasLength p.registers ∧
      (b = 0 → ∀ r, (p.startTypes.get r).isSubtypeOf (types.get r) = true))
    ⟨hasLength_start hp, fun _ r => ValueType.isSubtypeOf_refl _⟩ ?_ ?_ hsolve
  · exact h.2 rfl
  · intro b block s t hb hP _ hne
    exact ⟨hlaw.flow block (Array.mem_of_getElem? hb) s hP.1, fun h => absurd h hne⟩
  · intro b block s t s' hb hP _ hP'
    have hflow := hlaw.flow block (Array.mem_of_getElem? hb) s hP.1
    refine ⟨hP'.1.join hflow, fun h r => ?_⟩
    exact ValueType.isSubtypeOf_trans (hP'.2 h r) (TypeSeq.get_isSubtypeOf_join hP'.1 hflow r).1

/-- What is known before an operation of a block, or before its exit. -/
def infoAt (p : Procedure) (b i : Nat) : Option RegisterInfo :=
  (p.entryInfo b).map fun info => p.typeFlowAll info ((p.opsOf b).take i)

theorem infoAt_states {b i : Nat} {info : RegisterInfo} (h : p.infoAt b i = some info) :
    p.statesAt b i = some info.states := by
  obtain ⟨entry, he, rfl⟩ := Option.map_eq_some_iff.mp h
  unfold statesAt
  rw [(entryInfo_eq_some.mp he).1, typeFlowAll_states]
  rfl

end Procedure

end ResumableVM
