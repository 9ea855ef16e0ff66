import ResumableVM.Proofs.Fitting
import ResumableVM.Proofs.Hosted
import ResumableVM.Proofs.WellFormedCode

/-! # Unheard: what nobody listens to

The channel may still hold the results of an earlier call when an operation starts. The operation
does not listen to them: a call looks at the channel only where its code receives an answer,
compiled code asks before it receives (`isDeaf_start`, `isDeaf_next`), and with the answer the
channel is set anew. So an operation ends the same, whatever the channel holds when it starts
(`ends_unheard`). -/

namespace ResumableVM

theorem Code.Compiled.wellFormed {code : Code} (h : code.Compiled) : ∃ p, code.WellFormed p := by
  obtain ⟨p, hp⟩ := h
  obtain ⟨hvalid, codes, -, hcode⟩ := Procedure.compile_eq_ok_iff.mp hp
  exact ⟨p, hcode ▸ Procedure.wellFormed_assemble hvalid codes⟩

/-! ### Calls -/

namespace Activation

variable {a b : Activation} {st st' : Store} {received : List Value}

/-- The next instruction of the call does not receive an answer. -/
def IsDeaf (a : Activation) : Prop :=
  ∀ receiver, a.closure.code.instrs[a.pc]? ≠ some (.receive receiver)

theorem IsDeaf.advance_eq (h : a.IsDeaf) (st : Store) (received received' : List Value) :
    a.advance st received = a.advance st received' := by
  unfold advance
  cases hi : a.instr with
  | error d => rfl
  | ok i =>
    cases i with
    | receive receiver =>
      refine absurd ?_ (h receiver)
      unfold instr at hi
      split at hi
      · next hget => cases hi; exact hget
      · cases hi
    | _ => rfl

/-- Code does not start with a receiver. -/
theorem isDeaf_start {closure : Closure} (h : closure.code.Compiled) (args : List Value) :
    (start closure args).IsDeaf := by
  obtain ⟨p, hwell⟩ := h.wellFormed
  intro receiver hreceive
  obtain ⟨before, q, point, hpc, -⟩ := hwell.receives hreceive
  cases hpc

/-- **A call comes to a receiver only by a question.** -/
theorem isDeaf_next (h : a.closure.code.Compiled)
    (hadvance : a.advance st received = .ok (st', .runs b)) : b.IsDeaf := by
  obtain ⟨p, hwell⟩ := h.wellFormed
  obtain ⟨i, hi, hlands⟩ := lands_advance hadvance
  obtain ⟨_, -, -, hsame⟩ := follows_advance hadvance
  have hsame : b.closure = a.closure := hsame
  intro receiver hreceive
  rw [hsame] at hreceive
  rcases hlands with ⟨hpc, -⟩ | htarget
  · -- The instruction before a receiver asks, and does not run on.
    have hpc : b.pc = a.pc + 1 := hpc
    rw [hpc] at hreceive
    obtain ⟨before, q, point, hbefore, hask⟩ := hwell.receives hreceive
    obtain rfl : a.pc = before := by omega
    obtain ⟨i', hi', hexecute⟩ := bind_eq_ok_iff.mp hadvance
    have hinstr : a.instr = .ok (.ask q point) := by rw [instr, hask]
    cases hinstr.symm.trans hi'
    obtain ⟨r, -, hexecute⟩ := bind_eq_ok_iff.mp hexecute
    cases hexecute
  · obtain ⟨there, hthere, hne⟩ := hwell.targets hi htarget
    exact hne receiver (Option.some.inj (hthere.symm.trans hreceive))

end Activation

/-! ### Steps -/

/-- All code is compiled, and the channel is not what the run goes on with. -/
structure Run.IsDeaf (r : Run) (c : Control) : Prop where
  kept : r.Kept c
  settled : c ≠ .settled
  advance : c = .advance → ∃ a rest, r.live = .compiled a :: rest ∧ a.IsDeaf

/-- The same step, but for what the channel holds if it has not been set. -/
inductive Step.Unheard (ch : Channel) : Step → Step → Prop
  | set {s : Step} : Unheard ch s s
  | next {r : Run} {c : Control} (h : r.IsDeaf c) :
      Unheard ch (.next r c) (.next (r.withChannel ch) c)
  | failed {m : Machine} {e : Error} :
      Unheard ch (.done (.failed m e)) (.done (.failed { m with channel := ch } e))
  | suspended {m : Machine} {s : Signal} :
      Unheard ch (.done (.suspended m s)) (.done (.suspended { m with channel := ch } s))

namespace Run

variable {r : Run} {ch : Channel}

theorem unheard_reply {id : RoutineId} {reply : Reply} (h : (r.reply id reply).Kept) :
    (r.reply id reply).Unheard ch ((r.withChannel ch).reply id reply) := by
  cases reply with
  | answers vs => exact .set
  | asks q phase locals => exact .next ⟨h, by simp, by simp⟩
  | suspends vs phase locals => exact .suspended
  | fails e => exact .failed

theorem unheard_request {q : Request} (h : (r.request q).Kept) :
    (r.request q).Unheard ch ((r.withChannel ch).request q) := by
  have hcount : ((r.withChannel ch).machine.count q).resolve q = (r.machine.count q).resolve q := by
    cases q <;> rfl
  simp only [request, hcount] at h ⊢
  cases hres : (r.machine.count q).resolve q with
  | value v => cases q <;> exact .set
  | handler f args =>
    rw [hres] at h
    have hdeaf {counted : Run} (h : counted.Kept (.invoke f args)) :
        Step.Unheard ch (.next counted (.invoke f args))
          (.next (counted.withChannel ch) (.invoke f args)) :=
      .next ⟨h, by simp, by simp⟩
    cases q <;> exact hdeaf h
  | error e => cases q <;> exact .failed

theorem unheard_enter (hstore : r.machine.store.Compiled) {f : Function} {args : List Value}
    (h : (r.enter f args).Kept) :
    (r.enter f args).Unheard ch ((r.withChannel ch).enter f args) := by
  have hmachine : (r.withChannel ch).machine = { r.machine with channel := ch } := rfl
  simp only [enter, hmachine] at h ⊢
  cases hdepth : r.machine.depth.enter? r.machine.limits.maxCallDepth with
  | none => exact .failed
  | some depth =>
    rw [hdepth] at h
    cases f with
    | closure id =>
      have hdeaf := Activation.isDeaf_start (hstore.closure id) args
      exact .next ⟨h, by simp, fun _ => ⟨_, _, rfl, hdeaf⟩⟩
    | routine id =>
      simp only [withRoutine] at h ⊢
      cases hroutine : r.machine.library.find? id with
      | none => exact .failed
      | some routine =>
        rw [hroutine] at h
        dsimp only at h ⊢
        cases hinvoke : routine.invoke r.machine.store args with
        | error d => exact .set
        | ok after =>
          rw [hinvoke] at h
          exact unheard_reply (r := { r with
            machine := { r.machine with depth := depth, store := after.1 } }) h

theorem unheard_invoke (hstore : r.machine.store.Compiled) {target : Value} {args : List Value}
    (h : (r.invoke target args).Kept) :
    (r.invoke target args).Unheard ch ((r.withChannel ch).invoke target args) := by
  have hmachine : (r.withChannel ch).machine = { r.machine with channel := ch } := rfl
  simp only [invoke, hmachine] at h ⊢
  cases hcallee : r.machine.store.callee target with
  | error e => exact .failed
  | ok c =>
    rw [hcallee] at h
    let counted : Run := { r with machine := r.machine.countInvocation c }
    have henter (hcounted : counted.machine.store.Compiled) :
        (counted.enter c.function (c.arguments target args)).Unheard ch
          ((counted.withChannel ch).enter c.function (c.arguments target args)) :=
      unheard_enter hcounted h
    cases c <;> exact henter hstore

theorem unheard_advance (h : r.IsDeaf .advance) (hkept : r.advance.Kept) :
    r.advance.Unheard ch (r.withChannel ch).advance := by
  obtain ⟨a, rest, hlive, hdeaf⟩ := h.advance rfl
  obtain ⟨m, live, pending, flatten⟩ := r
  obtain rfl : live = .compiled a :: rest := hlive
  have hcode : a.closure.code.Compiled := h.kept.live (.compiled a) List.mem_cons_self
  have hadvance : a.advance m.store ch.values = a.advance m.store m.channel.values :=
    hdeaf.advance_eq _ _ _
  simp only [advance, withChannel, hadvance] at hkept ⊢
  cases hx : a.advance m.store m.channel.values with
  | error d => exact .set
  | ok after =>
    rw [hx] at hkept
    obtain ⟨st, p⟩ := after
    cases p with
    | runs b =>
      exact .next ⟨hkept, by simp, fun _ => ⟨_, _, rfl, Activation.isDeaf_next hcode hx⟩⟩
    | asks b q => exact .next ⟨hkept, by simp, by simp⟩
    | returns vs => exact .set
    | tailCalls target args => exact .set
    | fails e => exact .failed

/-- **A step of a run that is deaf** does the same whatever the channel holds. -/
theorem unheard_step {c : Control} (h : r.IsDeaf c) :
    (r.step c).Unheard ch ((r.withChannel ch).step c) := by
  have hkept := h.kept.step
  cases c with
  | request q => exact unheard_request hkept
  | invoke target args => exact unheard_invoke h.kept.store hkept
  | advance => exact unheard_advance h hkept
  | settled => exact absurd rfl h.settled

end Run

theorem Step.Ends.unheard {ch : Channel} {s : Step} {log : List Request} {ps : List Pause}
    {e : Ending} (h : s.Ends log ps e) : ∀ {s' : Step}, s.Unheard ch s' → s'.Ends log ps e := by
  induction h with
  | @next r c log ps e h ih =>
    intro s' hs
    cases hs with
    | set => exact .next h
    | next hdeaf =>
      exact Ends.next (r := r.withChannel ch) (ih (Run.unheard_step hdeaf))
  | ends h =>
    intro s' hs
    cases hs with
    | set => exact .ends h
    | failed => exact .ends h
    | suspended => cases h
  | resumed hshown hfound hleft hroom h ih =>
    intro s' hs
    cases hs with
    | set => exact .resumed hshown hfound hleft hroom h
    | suspended => exact .resumed hshown hfound { hleft with } hroom h
  | refused hshown hfound hleft hroom =>
    intro s' hs
    cases hs with
    | set => exact .refused hshown hfound hleft hroom
    | suspended => exact .refused hshown hfound { hleft with } hroom

/-- **What the channel holds when an operation starts** does not matter to it. -/
theorem Machine.ends_unheard {m : Machine} (hstore : m.store.Compiled)
    (hlibrary : m.library.KeepsCompiled) {q : Request} {ps : List Pause} {e : Ending}
    (h : m.Ends (.request q) ps e) (ch : Channel) :
    Machine.Ends { m with channel := ch } (.request q) ps e := by
  obtain ⟨log, h⟩ := Machine.ends_iff.mp h
  have hkept : Run.Kept ⟨m, [], [], true⟩ (.request q) :=
    ⟨hstore, hlibrary, by simp, by simp, by simp [Run.waiting]⟩
  exact Machine.ends_iff.mpr ⟨log, h.unheard (.next ⟨hkept, by simp, by simp⟩)⟩

end ResumableVM
