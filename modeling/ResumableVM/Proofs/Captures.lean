import ResumableVM.Compile.Captures
import ResumableVM.Proofs.Acceptance
import ResumableVM.Proofs.Dataflow

/-! # Captures: what the analysis of captured registers guarantees

States are compared register by register (`SlotStates.of`). A register is captured after an
operation if the operation captures it, or if it was captured before and is not closed
(`of_captureFlow_closure`, `of_captureFlow_close`). The entry of a block has a state for every
register, and a register that is captured at the end of a block is captured at the entry of every
successor (`captured_mono`). `statesAt` reads the states before an operation. -/

namespace ResumableVM

namespace SlotStates

theorem of_eq_plain_of_le {states : SlotStates} {r : Nat} (h : states.length ≤ r) :
    of states r = .plain := by
  simp [of, List.getElem?_eq_none h]

theorem getElem?_eq_of {states : SlotStates} {r : Nat} (h : r < states.length) :
    states[r]? = some (of states r) := by
  simp [of, h]

theorem ext_of {a b : SlotStates} (hlen : a.length = b.length)
    (h : ∀ r < a.length, of a r = of b r) : a = b := by
  refine List.ext_getElem? fun r => ?_
  by_cases hr : r < a.length
  · rw [getElem?_eq_of hr, getElem?_eq_of (hlen ▸ hr), h r hr]
  · rw [List.getElem?_eq_none (by omega), List.getElem?_eq_none (by omega)]

theorem length_setAll (s : SlotState) :
    ∀ (rs : List Nat) (states : SlotStates), (setAll states rs s).length = states.length
  | [], _ => rfl
  | r :: rs, states => by
    show (setAll (states.set r s) rs s).length = _
    rw [length_setAll s rs, List.length_set]

theorem of_setAll (s : SlotState) {r : Nat} :
    ∀ (rs : List Nat) (states : SlotStates), r < states.length →
      of (setAll states rs s) r = if r ∈ rs then s else of states r
  | [], _, _ => by simp [setAll]
  | i :: rs, states, h => by
    show of (setAll (states.set i s) rs s) r = _
    rw [of_setAll s rs _ (by simpa using h)]
    by_cases hr : r ∈ rs
    · simp [hr]
    · by_cases hi : i = r
      · subst hi
        simp [hr, of_set states s h]
      · simp [hr, of_set_of_ne states s hi, Ne.symm hi]

theorem of_replicate (n r : Nat) : of (List.replicate n .plain) r = .plain := by
  by_cases h : r < n <;> simp [of, h]

theorem of_zipWith_join {a b : SlotStates} (h : a.length = b.length) (r : Nat) :
    of (List.zipWith SlotState.join a b) r = (of a r).join (of b r) := by
  by_cases hr : r < a.length
  · have hb : r < b.length := by omega
    simp [of, hr, hb]
  · have hb : b.length ≤ r := by omega
    have ha : a.length ≤ r := by omega
    rw [of_eq_plain_of_le ha, of_eq_plain_of_le hb, of_eq_plain_of_le (by simp; omega)]
    rfl

/-- The number of captured registers. -/
def captured (states : SlotStates) : Nat := states.count .captured

theorem join_raises : ∀ (a b : SlotStates), a.length = b.length →
    List.zipWith SlotState.join a b = a ∨
      captured a < captured (List.zipWith SlotState.join a b)
  | [], [], _ => Or.inl rfl
  | x :: a, y :: b, h => by
    have ih := join_raises a b (by simpa using h)
    unfold captured at ih ⊢
    have hle : a.count .captured ≤ (List.zipWith SlotState.join a b).count .captured := by
      rcases ih with ih | ih
      · rw [ih]
      · omega
    cases x <;> cases y <;> simp only [List.zipWith_cons_cons, SlotState.join]
    case plain.captured => right; simp; omega
    all_goals
      rcases ih with ih | ih
      · left; rw [ih]
      · right; simpa using ih

/-- A register is newly captured if it is plain here and captured there. -/
theorem mem_newlyCaptured {here there : SlotStates} (h : here.length = there.length) {r : Nat} :
    r ∈ newlyCaptured here there ↔ of here r = .plain ∧ of there r = .captured := by
  unfold newlyCaptured
  simp only [List.mem_map, List.mem_filter, Bool.and_eq_true, beq_iff_eq, Prod.exists,
    List.mem_zipIdx_iff_getElem?, List.getElem?_zip_eq_some]
  constructor
  · rintro ⟨a, b, i, ⟨⟨ha, hb⟩, rfl, rfl⟩, rfl⟩
    simp only [of, ha, hb]
    exact ⟨rfl, rfl⟩
  · rintro ⟨ha, hb⟩
    have hr : r < there.length := by
      by_contra hlt
      rw [of_eq_plain_of_le (by omega)] at hb
      cases hb
    exact ⟨_, _, r, ⟨⟨getElem?_eq_of (by omega), getElem?_eq_of hr⟩, ha, hb⟩, rfl⟩

/-- Once the newly captured registers are captured, the states are those there. -/
theorem setAll_newlyCaptured {here there : SlotStates} (hlen : here.length = there.length)
    (hmono : ∀ r, of here r = .captured → of there r = .captured) :
    setAll here (newlyCaptured here there) .captured = there := by
  refine ext_of ((length_setAll _ _ _).trans hlen) fun r hr => ?_
  rw [of_setAll _ _ _ (by rwa [length_setAll] at hr)]
  split
  · next h => exact ((mem_newlyCaptured hlen).mp h).2.symm
  · next h =>
    rw [mem_newlyCaptured hlen] at h
    cases hh : of here r with
    | captured => exact (hmono r hh).symm
    | plain =>
      cases ht : of there r with
      | plain => rfl
      | captured => exact absurd ⟨hh, ht⟩ h

theorem nodup_newlyCaptured (here there : SlotStates) : (newlyCaptured here there).Nodup := by
  unfold newlyCaptured
  refine List.Nodup.sublist (List.Sublist.map _ List.filter_sublist) ?_
  rw [List.zipIdx_map_snd]
  exact List.nodup_range'

end SlotStates

/-- The operation takes no register out of its cell twice. -/
def Op.LeavesOnce (op : Op) (states : SlotStates) : Prop :=
  ∀ rs, op = .close rs → (rs.filter (states.of · == .captured)).Nodup

namespace Procedure

variable {p : Procedure}

theorem length_captureFlow (states : SlotStates) (op : Op) :
    (p.captureFlow states op).length = states.length := by
  cases op <;> first | rfl | exact SlotStates.length_setAll _ _ _

theorem length_foldl_captureFlow :
    ∀ (ops : List Op) (states : SlotStates),
      (ops.foldl p.captureFlow states).length = states.length
  | [], _ => rfl
  | op :: ops, states => by
    rw [List.foldl_cons, length_foldl_captureFlow ops, length_captureFlow]

theorem of_captureFlow_closure (states : SlotStates) (dst proto : Nat) {r : Nat}
    (h : r < states.length) :
    (p.captureFlow states (.closure dst proto)).of r =
      if r ∈ p.capturedBy proto then .captured else states.of r :=
  SlotStates.of_setAll _ _ _ h

/-- A procedure that closes each register once does so whatever its registers hold. -/
theorem ClosesOnce.leavesOnce (hp : p.ClosesOnce) {b i : Nat} {op : Op}
    (ho : (p.opsOf b)[i]? = some op) (states : SlotStates) : op.LeavesOnce states := by
  rintro rs rfl
  cases hb : p.blocks[b]? with
  | none => simp [opsOf, hb] at ho
  | some block =>
    have hmem : Op.close rs ∈ block.ops := by
      simp only [opsOf, hb, Option.map_some, Option.getD_some] at ho
      exact List.mem_of_getElem? ho
    exact (hp block (List.mem_of_getElem? hb) rs hmem).filter _

theorem of_captureFlow_close (states : SlotStates) (rs : List Nat) {r : Nat}
    (h : r < states.length) :
    (p.captureFlow states (.close rs)).of r = if r ∈ rs then .plain else states.of r :=
  SlotStates.of_setAll _ _ _ h

/-! ### The solution -/

theorem size_captureAnalysis : p.captureAnalysis.blocks.size = p.blocks.length := by
  simp [captureAnalysis]

theorem getElem?_captureAnalysis (b : Nat) :
    p.captureAnalysis.blocks[b]? =
      p.blocks[b]?.map fun b => ⟨b.ops.foldl p.captureFlow, b.exit.successors⟩ := by
  simp [captureAnalysis]

/-- The analysis is lawful: a register is captured once at most. -/
theorem lawful_captureAnalysis (hp : p.Valid) :
    Dataflow.Lawful p.captureAnalysis (·.length = p.registers) SlotStates.captured where
  start := by simp [captureAnalysis]
  flow block hb s hs := by
    simp only [captureAnalysis, List.mem_toArray, List.mem_map] at hb
    obtain ⟨b, -, rfl⟩ := hb
    rw [length_foldl_captureFlow, hs]
  join s t hs ht := by simp [captureAnalysis, hs, ht]
  rank_le s hs := by
    have := List.count_le_length (a := SlotState.captured) (l := s)
    simp only [SlotStates.captured, captureAnalysis]; omega
  join_raises s t hs ht := SlotStates.join_raises s t (by rw [hs, ht])
  successors block hb t ht := by
    rw [size_captureAnalysis]
    simp only [captureAnalysis, List.mem_toArray, List.mem_map] at hb
    obtain ⟨b, hb, rfl⟩ := hb
    exact (hp.exit b hb).successors t ht

/-- The states on entry to a block, if it can be reached. -/
def entryStates (p : Procedure) (b : Nat) : Option SlotStates := p.captures[b]?.join

theorem entryStates_eq_some {b : Nat} {states : SlotStates} :
    p.entryStates b = some states ↔ p.captureAnalysis.solve[b]? = some (some states) :=
  Option.join_eq_some_iff

theorem length_entryStates (hp : p.Valid) {b : Nat} {states : SlotStates}
    (h : p.entryStates b = some states) : states.length = p.registers :=
  (Dataflow.allGood_solve (lawful_captureAnalysis hp)).2 b states (entryStates_eq_some.mp h)

/-- **Capture is kept along edges**: the successor of a block has an entry, where a register that is
captured at the end of the block is captured too. -/
theorem captured_mono (hp : p.Valid) {b t : Nat} {block : Block} {states : SlotStates}
    (hb : p.blocks[b]? = some block) (hs : p.entryStates b = some states)
    (ht : t ∈ block.exit.successors) :
    ∃ there, p.entryStates t = some there ∧
      ∀ r, (block.ops.foldl p.captureFlow states).of r = .captured → there.of r = .captured := by
  obtain ⟨there, ht', hjoin⟩ := Dataflow.stable_solve (lawful_captureAnalysis hp)
    (by rw [getElem?_captureAnalysis, hb]; rfl) (entryStates_eq_some.mp hs) ht
  have hthere := entryStates_eq_some.mpr ht'
  refine ⟨there, hthere, fun r hr => ?_⟩
  have hlen : there.length = (block.ops.foldl p.captureFlow states).length := by
    rw [length_foldl_captureFlow, length_entryStates hp hthere, length_entryStates hp hs]
  have hof := SlotStates.of_zipWith_join hlen r
  have hj : List.zipWith SlotState.join there (block.ops.foldl p.captureFlow states) = there :=
    hjoin
  rw [hj, hr] at hof
  rw [hof]
  cases there.of r <;> rfl

/-- The blocks that control can pass to from the first block. -/
def Reaches (p : Procedure) : Nat → Prop := Dataflow.Reaches p.successorsOf

theorem successorsOf_captureAnalysis (b : Nat) :
    p.captureAnalysis.successorsOf b = p.successorsOf b := by
  unfold Dataflow.successorsOf successorsOf
  rw [getElem?_captureAnalysis, Option.map_map]
  rfl

/-- The blocks with states are the reachable ones. -/
theorem isSome_entryStates_iff (hp : p.Valid) {b : Nat} :
    (∃ states, p.entryStates b = some states) ↔ p.Reaches b := by
  have h := Dataflow.isSome_solve_iff (lawful_captureAnalysis hp)
    (by rw [size_captureAnalysis]; exact hp.nonempty) (b := b)
  rw [funext successorsOf_captureAnalysis] at h
  simp only [entryStates_eq_some]
  exact h

/-- The states before an operation of a block, or before its exit. -/
def statesAt (p : Procedure) (b i : Nat) : Option SlotStates :=
  (p.entryStates b).map fun states => ((p.opsOf b).take i).foldl p.captureFlow states

end Procedure

end ResumableVM
