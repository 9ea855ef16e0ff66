import ResumableVM.Proofs.Positions

/-! # Addresses: which operation an address belongs to

The lines of a block stand one after the other and those of different blocks apart, so an address
behind the first line of an operation is the address of no operation (`opAddress_not_between`,
`opAddress_not_in_exit`). Two operations have the same address only when the ones between them have
no lines, and then the same is known before both (`agrees_of_opAddress_eq`). -/

namespace ResumableVM

/-- The same is known about the registers in place. -/
structure RegisterInfo.Agrees (a b : RegisterInfo) : Prop where
  states : a.states = b.states
  types : ∀ r < a.states.length, a.states.of r = .plain → a.types.get r = b.types.get r

theorem RegisterInfo.Agrees.refl (a : RegisterInfo) : a.Agrees a := ⟨rfl, fun _ _ _ => rfl⟩

theorem RegisterInfo.Agrees.trans {a b c : RegisterInfo} (h : a.Agrees b) (h' : b.Agrees c) :
    a.Agrees c :=
  ⟨h.states.trans h'.states, fun r hr hs =>
    (h.types r hr hs).trans (h'.types r (h.states ▸ hr) (h.states ▸ hs))⟩

theorem RegisterInfo.Agrees.symm {a b : RegisterInfo} (h : a.Agrees b) : b.Agrees a :=
  ⟨h.states.symm, fun r hr hs => (h.types r (h.states ▸ hr) (h.states ▸ hs)).symm⟩

namespace Procedure

variable {p : Procedure} {b c i j : Nat} {info : RegisterInfo}

theorem infoAt_mono_step {op : Option Op} (ho : (p.opsOf b)[i]? = op)
    (h : p.infoAt b i = some info) :
    p.infoAt b (i + 1) = some (op.elim info (p.typeFlow info)) := by
  cases op with
  | none =>
    obtain ⟨entry, he, rfl⟩ := Option.map_eq_some_iff.mp h
    have hle : (p.opsOf b).length ≤ i := by simpa using ho
    rw [infoAt, he, Option.map_some, List.take_of_length_le hle,
      List.take_of_length_le (Nat.le_succ_of_le hle)]
    rfl
  | some op => exact infoAt_succ h ho

theorem opAddress_of_le (h : (p.opsOf b).length ≤ i) :
    p.opAddress b i = p.opAddress b (p.opsOf b).length := by
  unfold opAddress
  rw [List.take_of_length_le h, List.take_length]

theorem opAddress_le_succ (h : p.infoAt b i = some info) :
    p.opAddress b i ≤ p.opAddress b (i + 1) := by
  cases ho : (p.opsOf b)[i]? with
  | none =>
    have hle : (p.opsOf b).length ≤ i := by simpa using ho
    rw [opAddress_of_le hle, opAddress_of_le (Nat.le_succ_of_le hle)]
  | some op => rw [opAddress_succ h ho]; omega

theorem exists_infoAt (h : p.infoAt b i = some info) (j : Nat) :
    ∃ there, p.infoAt b j = some there := by
  obtain ⟨entry, he, -⟩ := Option.map_eq_some_iff.mp h
  exact ⟨_, by rw [infoAt, he]; rfl⟩

/-- The addresses of a block grow. -/
theorem opAddress_mono (h : p.infoAt b i = some info) (hij : i ≤ j) :
    p.opAddress b i ≤ p.opAddress b j := by
  induction j, hij using Nat.le_induction with
  | base => exact le_rfl
  | succ j _ ih =>
    obtain ⟨there, hthere⟩ := exists_infoAt h j
    exact ih.trans (opAddress_le_succ hthere)

/-- The address behind the lines of a block. -/
def endOf (p : Procedure) (b : Nat) : Nat := p.startOf b + (p.blockLines[b]?.getD []).length

theorem startOf_le_opAddress (b i : Nat) : p.startOf b ≤ p.opAddress b i := Nat.le_add_right _ _

/-- The exit of a block stands before its end. -/
theorem opAddress_add_exit {block : Block} (hb : p.blocks[b]? = some block)
    (h : p.infoAt b i = some info) (hi : block.ops.length ≤ i) :
    p.opAddress b i + (lowerExit p.captures info.states block.exit).length = p.endOf b := by
  obtain ⟨entry, he, rfl⟩ := Option.map_eq_some_iff.mp h
  rw [endOf, getElem?_blockLines hb he, opAddress_eq he, opsOf_eq hb, List.take_of_length_le hi,
    Option.getD_some, List.length_append, Nat.add_assoc]

theorem lowerExit_pos (captures : Dataflow.Entries SlotStates) (states : SlotStates) (e : Exit) :
    0 < (lowerExit captures states e).length := by
  cases e <;> simp [lowerExit, lowerEdge]

/-- Every operation stands before the end of its block. -/
theorem opAddress_lt_endOf (hp : p.Valid) (h : p.infoAt b i = some info) :
    p.opAddress b i < p.endOf b := by
  obtain ⟨block, hb⟩ := exists_block hp h
  obtain ⟨there, hthere⟩ := exists_infoAt h (max i block.ops.length)
  have hexit := opAddress_add_exit hb hthere (le_max_right _ _)
  have hpos := lowerExit_pos p.captures there.states block.exit
  have hmono := opAddress_mono h (le_max_left i block.ops.length)
  omega

/-- Blocks stand apart. -/
theorem endOf_le_startOf (hp : p.Valid) (hbc : b < c) {there : RegisterInfo}
    (h : p.infoAt b i = some info) (hc : p.infoAt c j = some there) :
    p.endOf b ≤ p.startOf c := by
  obtain ⟨block, hb⟩ := exists_block hp h
  obtain ⟨other, ho⟩ := exists_block hp hc
  obtain ⟨entry, he, -⟩ := Option.map_eq_some_iff.mp h
  have hlines := getElem?_blockLines hb he
  rw [endOf, hlines, Option.getD_some]
  exact startOf_add_le hbc (List.getElem?_eq_some_iff.mp ho).1 hlines

/-- Addresses in a block are addresses of operations of that block. -/
theorem eq_of_opAddress_mem (hp : p.Valid) {there : RegisterInfo} (h : p.infoAt b i = some info)
    (hc : p.infoAt c j = some there) (hlo : p.startOf b ≤ p.opAddress c j)
    (hhi : p.opAddress c j < p.endOf b) : c = b := by
  rcases Nat.lt_trichotomy c b with hlt | heq | hgt
  · have h1 := endOf_le_startOf hp hlt hc h
    have h2 := opAddress_lt_endOf hp hc
    omega
  · exact heq
  · have h1 := endOf_le_startOf hp hgt h hc
    have h2 := startOf_le_opAddress (p := p) c j
    omega

/-- **Behind the first line of an operation** no operation begins. -/
theorem opAddress_not_between (hp : p.Valid) {op : Op} {there : RegisterInfo}
    (h : p.infoAt b i = some info) (ho : (p.opsOf b)[i]? = some op)
    (hc : p.infoAt c j = some there) (hlo : p.opAddress b i < p.opAddress c j) :
    p.opAddress b (i + 1) ≤ p.opAddress c j := by
  by_contra hhi
  have hend := opAddress_lt_endOf hp (infoAt_succ h ho)
  have hstart := startOf_le_opAddress (p := p) b i
  obtain rfl := eq_of_opAddress_mem hp h hc (by omega) (by omega)
  rcases Nat.lt_or_ge i j with hij | hij
  · have := opAddress_mono (infoAt_succ h ho) (j := j) hij
    omega
  · have := opAddress_mono hc (j := i) hij
    omega

/-- Behind the first line of an exit no operation of a block begins before the next block. -/
theorem opAddress_not_in_exit (hp : p.Valid) {block : Block} {there : RegisterInfo}
    (hb : p.blocks[b]? = some block) (h : p.infoAt b i = some info) (hi : block.ops.length ≤ i)
    (hc : p.infoAt c j = some there) (hlo : p.opAddress b i < p.opAddress c j) :
    p.endOf b ≤ p.opAddress c j := by
  by_contra hhi
  have hstart := startOf_le_opAddress (p := p) b i
  obtain rfl := eq_of_opAddress_mem hp h hc (by omega) (by omega)
  have hlen : (p.opsOf c).length ≤ i := by rw [opsOf_eq hb]; exact hi
  rcases Nat.lt_or_ge j i with hij | hij
  · have := opAddress_mono hc (Nat.le_of_lt hij)
    omega
  · rw [opAddress_of_le hlen, opAddress_of_le (hlen.trans hij)] at hlo
    omega

/-- Before the first block there is no operation. -/
theorem startOf_zero_le_opAddress (hp : p.Valid) (h : p.infoAt b i = some info) :
    p.startOf 0 ≤ p.opAddress b i := by
  rcases Nat.eq_zero_or_pos b with rfl | hpos
  · exact startOf_le_opAddress 0 i
  · obtain ⟨entry, hentry, -⟩ := le_entryInfo_zero hp
    have hzero : p.infoAt 0 0 = some entry := by rw [infoAt, hentry]; rfl
    have h1 := endOf_le_startOf hp hpos hzero h
    have h2 := startOf_le_opAddress (p := p) b i
    exact (Nat.le_add_right _ _).trans (h1.trans h2)

/-! ### Operations without lines -/

/-- An operation without lines leaves what is known as it is. -/
theorem agrees_typeFlow (hsized : p.Sized info) {op : Op} (h : p.lowerOp info op = []) :
    info.Agrees (p.typeFlow info op) := by
  cases op with
  | close rs =>
    have hplain : ∀ r ∈ rs, info.states.of r = .plain := fun r hr => by
      have hnot := List.filter_eq_nil_iff.mp (List.map_eq_nil_iff.mp h) r hr
      cases hs : info.states.of r with
      | plain => rfl
      | captured => exact absurd (by simp [hs]) hnot
    have hof : ∀ r < info.states.length,
        (p.captureFlow info.states (.close rs)).of r = info.states.of r := fun r hr => by
      rw [of_captureFlow_close _ _ hr]
      split
      · next hmem => exact (hplain r hmem).symm
      · rfl
    have hstates : info.states = p.captureFlow info.states (.close rs) :=
      SlotStates.ext_of (length_captureFlow _ _).symm fun r hr => (hof r hr).symm
    refine ⟨hstates, fun r hr hs => ?_⟩
    rw [typeFlow_types, get_forgetCaptured (length_captureFlow _ _).symm]
    · rw [if_neg]
      · rfl
      · rw [hof r hr, hs]
        rintro (hcap | hcap) <;> cases hcap
    · exact lt_of_lt_of_eq hr (hsized.states.trans hsized.types.length.symm)
  | closure dst proto => simp [lowerOp] at h
  | arith dst op x y =>
    simp only [lowerOp, lowerArith, Line.askInto] at h
    split at h <;> cases h
  | unary dst op src =>
    cases op with
    | negate =>
      simp only [lowerOp, lowerArith, Line.askInto] at h
      split at h <;> cases h
    | _ => cases h
  | _ => cases h

/-- **At one address of a block one thing is known.** -/
theorem agrees_of_opAddress_eq (hp : p.Valid) (h : p.infoAt b i = some info) (hij : i ≤ j) :
    ∀ {there : RegisterInfo}, p.infoAt b j = some there → p.opAddress b i = p.opAddress b j →
      info.Agrees there := by
  induction j, hij using Nat.le_induction with
  | base =>
    intro there hthere _
    rw [Option.some.inj (h.symm.trans hthere)]
    exact .refl there
  | succ j hij ih =>
    intro there hthere heq
    obtain ⟨mid, hmid⟩ := exists_infoAt h j
    have h1 := opAddress_mono h hij
    have h2 := opAddress_le_succ hmid
    refine (ih hmid (by omega)).trans ?_
    have hnext := infoAt_mono_step rfl hmid
    rw [hthere] at hnext
    cases ho : (p.opsOf b)[j]? with
    | none =>
      rw [ho] at hnext
      rw [Option.some.inj hnext]
      exact .refl mid
    | some op =>
      rw [ho] at hnext
      rw [Option.some.inj hnext]
      have hsucc := opAddress_succ hmid ho
      exact agrees_typeFlow (sized_infoAt hp hmid) (List.length_eq_zero_iff.mp (by omega))

/-- **At one address one thing is known.** -/
theorem agrees_of_same_address (hp : p.Valid) {there : RegisterInfo} (h : p.infoAt b i = some info)
    (hc : p.infoAt c j = some there) (heq : p.opAddress b i = p.opAddress c j) :
    info.Agrees there := by
  have hstart := startOf_le_opAddress (p := p) b i
  have hend := opAddress_lt_endOf hp h
  obtain rfl := eq_of_opAddress_mem hp h hc (by omega) (by omega)
  rcases Nat.le_total i j with hij | hij
  · exact agrees_of_opAddress_eq hp h hij hc heq
  · exact (agrees_of_opAddress_eq hp hc hij h heq.symm).symm

end Procedure

end ResumableVM
