import ResumableVM.Proofs.Layout
import ResumableVM.Proofs.Windows

/-! # Execution: runs of instructions inside one call

`Activation.Leads` says that an activation carries out instructions, one at least, and that the last
of them makes a progress with a given property; all activations in between have another property.
Advancing is a function, so this speaks about the one way in which the call goes on.

Registers move into cells, and out of them, one instruction each. A run of such instructions is
`Scope.shareAll` or `Scope.closeAll` (`leads_captureAll`, `leads_uncaptureAll`), also of lists that
name registers twice or that are where they should be already (`shareAll_firstAppearances`,
`closeAll_filter`). -/

namespace ResumableVM

namespace Activation

/-- The activation carries out instructions, up to one that makes a progress with a property; those
on the way have a property too. -/
inductive Leads (received : List Value) (M : Activation → Prop)
    (Q : Store → Progress Activation → Prop) : Activation → Store → Prop
  | last {a : Activation} {st st' : Store} {pr : Progress Activation}
      (h : a.advance st received = .ok (st', pr)) (hq : Q st' pr) : Leads received M Q a st
  | more {a a' : Activation} {st st' : Store}
      (h : a.advance st received = .ok (st', .runs a')) (hm : M a')
      (rest : Leads received M Q a' st') : Leads received M Q a st

theorem Leads.mono {received : List Value} {M M' : Activation → Prop}
    {Q Q' : Store → Progress Activation → Prop} (hM : ∀ a, M a → M' a)
    (hQ : ∀ st pr, Q st pr → Q' st pr)
    {a : Activation} {st : Store} (h : Leads received M Q a st) : Leads received M' Q' a st := by
  induction h with
  | last h hq => exact .last h (hQ _ _ hq)
  | more h hm _ ih => exact .more h (hM _ hm) ih

/-- The next instruction ends the way, or it goes on. -/
theorem Leads.step {received : List Value} {M : Activation → Prop}
    {Q : Store → Progress Activation → Prop}
    {a : Activation} {st st' : Store} {pr : Progress Activation} (h : Leads received M Q a st)
    (hadv : a.advance st received = .ok (st', pr)) :
    Q st' pr ∨ ∃ a', pr = .runs a' ∧ M a' ∧ Leads received M Q a' st' := by
  cases h with
  | last h hq =>
    cases h.symm.trans hadv
    exact Or.inl hq
  | more h hm hrest =>
    cases h.symm.trans hadv
    exact Or.inr ⟨_, rfl, hm, hrest⟩

/-- One way after the other. -/
theorem Leads.trans {received : List Value} {M M' : Activation → Prop}
    {Q Q' : Store → Progress Activation → Prop} {a : Activation} {st : Store}
    (h : Leads received M Q a st) (hM : ∀ a, M a → M' a)
    (hQ : ∀ st pr, Q st pr → ∃ a, pr = .runs a ∧ M' a ∧ Leads received M' Q' a st) :
    Leads received M' Q' a st := by
  induction h with
  | last h hq =>
    obtain ⟨a', rfl, hm, hrest⟩ := hQ _ _ hq
    exact .more h hm hrest
  | more h hm _ ih => exact .more h (hM _ hm) ih

/-- The activation stands inside some lines of a closure, behind the first one. -/
structure Within (closure : Closure) (lo hi : Nat) (a : Activation) : Prop where
  closure : a.closure = closure
  lt : lo < a.pc
  pc_lt : a.pc < hi

/-- The activation with another scope, at another address. -/
def moved (a : Activation) (s : Scope Window) (pc : Nat) : Activation :=
  ⟨a.closure, a.frame.withScope s, pc⟩

/-- The activation at another address. -/
def atPc (a : Activation) (pc : Nat) : Activation := { a with pc := pc }

theorem advance_of_instr {a : Activation} {i : Instr} (h : a.closure.code.instrs[a.pc]? = some i)
    (st : Store) (received : List Value) :
    a.advance st received = (a.atPc (a.pc + 1)).execute st received i := by
  unfold advance instr
  rw [h]
  rfl

/-- One instruction is carried out, and what it makes is what is asked for. -/
theorem Leads.of_instr {a : Activation} {i : Instr} {st st' : Store} {pr : Progress Activation}
    {received : List Value} {M : Activation → Prop} {Q : Store → Progress Activation → Prop}
    (h : a.closure.code.instrs[a.pc]? = some i)
    (he : (a.atPc (a.pc + 1)).execute st received i = .ok (st', pr)) (hq : Q st' pr) :
    Leads received M Q a st :=
  .last ((advance_of_instr h st received).trans he) hq

theorem assign_slot {a : Activation} (st : Store) (v : Value) {dst : Nat}
    (hr : dst < a.frame.window.size) :
    a.assign st (a.frame.window.states.slot dst) v =
      .ok ((a.frame.scope.assign st dst v).2,
        .runs (a.moved (a.frame.scope.assign st dst v).1 a.pc)) := by
  unfold assign
  rw [Frame.write_slot st v hr]
  rfl

end Activation

/-! ### Sharing -/

namespace Scope

theorem each_append {change : Window → Store → Nat → Window × Store} :
    ∀ (a b : List Nat) (s : Scope Window) (st : Store),
      s.each change st (a ++ b) = (s.each change st a).1.each change (s.each change st a).2 b
  | [], _, _, _ => rfl
  | _ :: a, b, _, _ => each_append a b _ _

theorem shareAll_cons_of_captured {s : Scope Window} (st : Store) {r : Nat}
    (h : s.file.states.of r = .captured) (rs : List Nat) :
    s.shareAll st (r :: rs) = s.shareAll st rs := by
  show Scope.shareAll ⟨(s.file.share st r).1, s.varargs, s.multi⟩ (s.file.share st r).2 rs = _
  rw [Window.share_of_captured st h]

theorem of_shareAll {s : Scope Window} (st : Store) (rs : List Nat) {r : Nat}
    (hr : r < s.file.size) :
    (s.shareAll st rs).1.file.states.of r =
      if r ∈ rs then .captured else s.file.states.of r := by
  rw [states_shareAll, SlotStates.of_setAll]
  rw [Window.length_states]; exact hr

theorem size_shareAll (s : Scope Window) (st : Store) (rs : List Nat) :
    (s.shareAll st rs).1.file.size = s.file.size := by
  rw [← Window.length_states, states_shareAll, SlotStates.length_setAll, Window.length_states]

theorem size_closeAll (s : Scope Window) (st : Store) (rs : List Nat) :
    (s.closeAll st rs).1.file.size = s.file.size := by
  rw [← Window.length_states, states_closeAll, SlotStates.length_setAll, Window.length_states]

/-- One step of `firstAppearances`. -/
def addNew (seen : List Nat) (r : Nat) : List Nat := if seen.contains r then seen else seen ++ [r]

theorem shareAll_foldl_addNew {s : Scope Window} (st : Store) :
    ∀ (rs seen : List Nat), (∀ r ∈ rs, r < s.file.size) →
      s.shareAll st ((rs.filter (s.file.states.of · == .plain)).foldl addNew seen) =
        (s.shareAll st seen).1.shareAll (s.shareAll st seen).2 rs
  | [], _, _ => rfl
  | r :: rs, seen, h => by
    have hr := List.forall_mem_cons.mp h
    have hof := of_shareAll st seen hr.1
    by_cases hplain : s.file.states.of r = .plain
    · rw [List.filter_cons_of_pos (by simp [hplain]), List.foldl_cons,
        shareAll_foldl_addNew st rs _ hr.2]
      unfold addNew
      split
      · next hseen =>
        have hmem : r ∈ seen := by simpa using hseen
        rw [if_pos hmem] at hof
        rw [shareAll_cons_of_captured _ hof]
      · have happ : s.shareAll st (seen ++ [r]) =
            (s.shareAll st seen).1.shareAll (s.shareAll st seen).2 [r] := each_append seen [r] s st
        rw [happ]
        rfl
    · have hcap : s.file.states.of r = .captured := by
        cases hs : s.file.states.of r with
        | plain => exact absurd hs hplain
        | captured => rfl
      have hall : (s.shareAll st seen).1.file.states.of r = .captured := by
        rw [hof, hcap]; exact ite_self _
      rw [List.filter_cons_of_neg (by simp [hcap]), shareAll_foldl_addNew st rs _ hr.2,
        shareAll_cons_of_captured _ hall]

/-- Sharing the plain registers of a list once each is sharing the list. -/
theorem shareAll_firstAppearances {s : Scope Window} (st : Store) {rs : List Nat}
    (h : ∀ r ∈ rs, r < s.file.size) :
    s.shareAll st (firstAppearances (rs.filter (s.file.states.of · == .plain))) =
      s.shareAll st rs :=
  shareAll_foldl_addNew st rs [] h

end Scope

theorem foldl_addNew : ∀ (rs seen : List Nat), seen.Nodup →
    (rs.foldl Scope.addNew seen).Nodup ∧
      ∀ r, r ∈ rs.foldl Scope.addNew seen ↔ r ∈ seen ∨ r ∈ rs
  | [], seen, h => ⟨h, by simp⟩
  | r :: rs, seen, h => by
    have hnew : (Scope.addNew seen r).Nodup ∧ ∀ i, i ∈ Scope.addNew seen r ↔ i ∈ seen ∨ i = r := by
      unfold Scope.addNew
      split
      · next hseen =>
        have hmem : r ∈ seen := by simpa using hseen
        refine ⟨h, fun i => ⟨Or.inl, ?_⟩⟩
        rintro (hi | rfl)
        · exact hi
        · exact hmem
      · next hseen =>
        have hmem : r ∉ seen := by simpa using hseen
        refine ⟨List.nodup_append.mpr ⟨h, by simp, ?_⟩, by simp⟩
        intro a ha b hb
        rw [List.mem_singleton.mp hb]
        rintro rfl
        exact hmem ha
    obtain ⟨hd, hm⟩ := foldl_addNew rs _ hnew.1
    refine ⟨hd, fun i => ?_⟩
    rw [List.foldl_cons, hm, hnew.2, List.mem_cons, or_assoc]

theorem nodup_firstAppearances (rs : List Nat) : (firstAppearances rs).Nodup :=
  (foldl_addNew rs [] List.nodup_nil).1

theorem mem_firstAppearances {rs : List Nat} {r : Nat} : r ∈ firstAppearances rs ↔ r ∈ rs :=
  ((foldl_addNew rs [] List.nodup_nil).2 r).trans (by simp)

/-! ### Closing -/

namespace Scope

/-- Closing the captured registers of a list is closing the list, if it names none of them twice. -/
theorem closeAll_filter : ∀ {rs : List Nat} {s : Scope Window} (st : Store),
    (rs.filter (s.file.states.of · == .captured)).Nodup →
      s.closeAll st (rs.filter (s.file.states.of · == .captured)) = s.closeAll st rs
  | [], _, _, _ => rfl
  | r :: rs, s, st, h => by
    cases hs : s.file.states.of r with
    | plain =>
      rw [List.filter_cons_of_neg (by simp [hs])] at h
      have hc : (⟨(s.file.close st r), s.varargs, s.multi⟩ : Scope Window) = s := by
        rw [Window.close_of_plain st hs]
      have hstep : s.closeAll st (r :: rs) = s.closeAll st rs := by
        show Scope.closeAll ⟨(s.file.close st r), s.varargs, s.multi⟩ st rs = _
        rw [hc]
      rw [List.filter_cons_of_neg (by simp [hs]), closeAll_filter st h, hstep]
    | captured =>
      rw [List.filter_cons_of_pos (by simp [hs])] at h ⊢
      obtain ⟨hr, hrs⟩ := List.nodup_cons.mp h
      have hclosed : rs.filter ((s.file.close st r).states.of · == .captured) =
          rs.filter (s.file.states.of · == .captured) := by
        refine List.filter_congr fun i hi => ?_
        have hne : r ≠ i := by
          rintro rfl
          exact hr (List.mem_filter.mpr ⟨hi, by simp [hs]⟩)
        rw [Window.states_close, SlotStates.of_set_of_ne _ _ hne]
      show Scope.closeAll ⟨(s.file.close st r), s.varargs, s.multi⟩ st _ =
        Scope.closeAll ⟨(s.file.close st r), s.varargs, s.multi⟩ st rs
      have ih := closeAll_filter (s := ⟨s.file.close st r, s.varargs, s.multi⟩) st
        (hclosed.symm ▸ hrs)
      rwa [hclosed] at ih

end Scope

/-! ### Runs -/

namespace Activation

variable {received : List Value} {M : Activation → Prop} {Q : Store → Progress Activation → Prop}
  {starts : List Nat}

/-- **A run of instructions changes the registers one by one.** Each is in the state `x` before its
instruction and in the state `y` behind it. -/
theorem leads_each {lo : Nat} {x y : SlotState} {change : Window → Store → Nat → Window × Store}
    {instr : Nat → Instr} (hchange : ∀ w st r, (change w st r).1.states = w.states.set r y)
    (hexec : ∀ (a : Activation) (st : Store) (r : Nat), r < a.frame.window.size →
      a.frame.window.states.of r = x → a.execute st received (instr r) =
        .ok ((change a.frame.window st r).2,
          .runs { a with frame := { a.frame with window := (change a.frame.window st r).1 } })) :
    ∀ {rs : List Nat} {a : Activation} {st : Store}, rs ≠ [] → rs.Nodup →
      (∀ r ∈ rs, r < a.frame.window.size ∧ a.frame.window.states.of r = x) →
      a.closure.code.Holds starts a.pc (rs.map fun r => .instr (instr r)) → lo ≤ a.pc →
      Q (a.frame.scope.each change st rs).2
        (.runs (a.moved (a.frame.scope.each change st rs).1 (a.pc + rs.length))) →
      Leads received (Within a.closure lo (a.pc + rs.length)) Q a st
  | [], _, _, h, _, _, _, _, _ => absurd rfl h
  | r :: rs, a, st, _, hd, hp, hl, hlo, h => by
    obtain ⟨hr, hrs⟩ := List.nodup_cons.mp hd
    have hp' := List.forall_mem_cons.mp hp
    let s : Scope Window := ⟨(change a.frame.window st r).1, a.frame.varargs, a.frame.multi⟩
    have hstep : a.advance st received =
        .ok ((change a.frame.window st r).2, .runs (a.moved s (a.pc + 1))) :=
      (advance_of_instr hl.1 st received).trans
        (hexec (a.atPc (a.pc + 1)) st r hp'.1.1 hp'.1.2)
    have hsize : s.file.size = a.frame.window.size := by
      rw [← Window.length_states, hchange, List.length_set, Window.length_states]
    rw [List.length_cons, show a.pc + (rs.length + 1) = a.pc + 1 + rs.length by omega] at h ⊢
    cases rs with
    | nil => exact .last hstep h
    | cons r' rs =>
      refine .more hstep ⟨rfl, by show lo < a.pc + 1; omega, ?_⟩ ?_
      · show a.pc + 1 < a.pc + 1 + (r' :: rs).length
        simp
      · refine leads_each hchange hexec (a := a.moved s (a.pc + 1)) (by simp) hrs ?_ hl.2
          (by show lo ≤ a.pc + 1; omega) h
        intro i hi
        have hne : r ≠ i := fun e => hr (e ▸ hi)
        refine ⟨lt_of_lt_of_eq (hp'.2 i hi).1 hsize.symm, ?_⟩
        show s.file.states.of i = x
        rw [hchange, SlotStates.of_set_of_ne _ _ hne]
        exact (hp'.2 i hi).2

/-- A run of captures shares the registers. -/
theorem leads_captureAll {lo : Nat} {rs : List Nat} {a : Activation} {st : Store} (hne : rs ≠ [])
    (hd : rs.Nodup) (hp : ∀ r ∈ rs, r < a.frame.window.size ∧ a.frame.window.states.of r = .plain)
    (hl : a.closure.code.Holds starts a.pc (Line.captureAll rs)) (hlo : lo ≤ a.pc)
    (hq : Q (a.frame.scope.shareAll st rs).2
      (.runs (a.moved (a.frame.scope.shareAll st rs).1 (a.pc + rs.length)))) :
    Leads received (Within a.closure lo (a.pc + rs.length)) Q a st := by
  refine leads_each Window.states_share (fun a st r hr hs => ?_) hne hd hp hl hlo hq
  simp only [execute, Window.capture_of_plain st hr hs]
  rfl

/-- A run of uncaptures closes the registers. -/
theorem leads_uncaptureAll {lo : Nat} {rs : List Nat} {a : Activation} {st : Store} (hne : rs ≠ [])
    (hd : rs.Nodup)
    (hp : ∀ r ∈ rs, r < a.frame.window.size ∧ a.frame.window.states.of r = .captured)
    (hl : a.closure.code.Holds starts a.pc (rs.map fun r => .instr (.uncapture r)))
    (hlo : lo ≤ a.pc)
    (hq : Q (a.frame.scope.closeAll st rs).2
      (.runs (a.moved (a.frame.scope.closeAll st rs).1 (a.pc + rs.length)))) :
    Leads received (Within a.closure lo (a.pc + rs.length)) Q a st := by
  refine leads_each (x := .captured) Window.states_close (fun a st r _ hs => ?_) hne hd hp hl hlo hq
  show (do
    let window ← a.frame.window.uncapture st r
    pure (a.goOn ({ a.frame with window := window }, st))) = _
  rw [Window.uncapture_of_captured st hs]
  rfl

/-- Captures before other instructions. -/
theorem leads_captureAll_append {lo hi : Nat} {rs : List Nat} {a : Activation} {st : Store}
    (hd : rs.Nodup) (hp : ∀ r ∈ rs, r < a.frame.window.size ∧ a.frame.window.states.of r = .plain)
    (hl : a.closure.code.Holds starts a.pc (Line.captureAll rs)) (hlo : lo ≤ a.pc)
    (hhi : a.pc + rs.length < hi)
    (h : Leads received (Within a.closure lo hi) Q
      (a.moved (a.frame.scope.shareAll st rs).1 (a.pc + rs.length))
      (a.frame.scope.shareAll st rs).2) :
    Leads received (Within a.closure lo hi) Q a st := by
  by_cases hne : rs = []
  · subst hne; exact h
  · have hpos : 0 < rs.length := List.length_pos_iff.mpr hne
    refine (leads_captureAll (Q := fun st' pr => st' = (a.frame.scope.shareAll st rs).2 ∧
      pr = .runs (a.moved (a.frame.scope.shareAll st rs).1 (a.pc + rs.length)))
      hne hd hp hl hlo ⟨rfl, rfl⟩).trans
        (fun b hb => ⟨hb.closure, hb.lt, by have := hb.pc_lt; omega⟩) ?_
    rintro _ _ ⟨rfl, rfl⟩
    exact ⟨_, rfl, ⟨rfl, by show lo < a.pc + rs.length; omega, hhi⟩, h⟩

end Activation

end ResumableVM
