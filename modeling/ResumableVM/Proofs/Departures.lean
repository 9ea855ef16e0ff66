import ResumableVM.Proofs.Results
import ResumableVM.Proofs.StaticTypes
import ResumableVM.Proofs.WellFormedCode

/-! # Departures: how a call is left

Only two instructions end a call, and only the exit of a block becomes one of them: where such an
instruction stands in the code of a procedure, there is the exit of a block that can be reached, and
nothing else is left of the block (`exists_exit`).

A call that is made on a machine is over when it has returned, or when the tail call that it has
left is. In between it asks, each question is answered by an operation that is over, and the call
may have been saved and revived; so it departs in a state that it reaches with some callees
(`Completes.departs`). -/

namespace ResumableVM

/-! ### Instructions that end a call -/

/-- The instruction ends the call. -/
def Instr.Departs : Instr → Prop
  | .ret _ | .tailCall _ _ => True
  | _ => False

/-- The line does not end the call. -/
def Line.Stays : Line → Prop
  | .instr i => ¬ i.Departs
  | _ => True

/-- The call has not ended. -/
def Progress.Stays {κ : Type} : Progress κ → Prop
  | .returns _ | .tailCalls _ _ => False
  | _ => True

namespace Activation

variable {a : Activation} {st st' : Store} {received vs : List Value} {pr : Progress Activation}

theorem stays_goOn {x : Except Defect (Frame × Store)} (h : a.goOn <$> x = .ok (st', pr)) :
    pr.Stays := by
  obtain ⟨after, -, heq⟩ := map_eq_ok_iff.mp h
  cases heq
  trivial

theorem stays_setIndex {t : Value} {key value : Source}
    (h : a.setIndex st t key value = .ok (st', pr)) : pr.Stays := by
  cases t with
  | table id =>
    obtain ⟨k, -, h⟩ := bind_eq_ok_iff.mp h
    obtain ⟨v, -, h⟩ := bind_eq_ok_iff.mp h
    split at h <;> cases h <;> trivial
  | _ => cases h; trivial

theorem stays_arithRaw {op : ArithOp} {dst : SlotRef} {x y : Value}
    (h : a.arithRaw st op dst x y = .ok (st', pr)) : pr.Stays := by
  unfold arithRaw at h
  split at h
  · exact stays_goOn h
  · cases h; trivial
  · cases h; trivial

theorem stays_compare {op : CompareOp} {dst : SlotRef} {x y : Value}
    (h : a.compare st op dst x y = .ok (st', pr)) : pr.Stays := by
  unfold compare at h
  split at h
  · exact stays_goOn h
  · cases h; trivial

theorem stays_makeClosure {dst : SlotRef} {proto : Nat}
    (h : a.makeClosure st dst proto = .ok (st', pr)) : pr.Stays := by
  obtain ⟨code, -, h⟩ := bind_eq_ok_iff.mp h
  obtain ⟨cells, -, h⟩ := bind_eq_ok_iff.mp h
  exact stays_goOn h

/-- **Only these two instructions end a call.** -/
theorem stays_execute {i : Instr} (hi : ¬ i.Departs) (h : a.execute st received i = .ok (st', pr)) :
    pr.Stays := by
  cases i with
  | ret args | tailCall target args => exact absurd trivial hi
  | jump target => cases h; trivial
  | newTable dst => exact stays_goOn h
  | receive receiver | vararg receiver => exact stays_goOn h
  | closure dst proto => exact stays_makeClosure h
  | capture r | uncapture r | ask question point | jumpIfFalse cond target =>
    obtain ⟨x, -, h⟩ := bind_eq_ok_iff.mp h
    cases h
    trivial
  | move dst src | getUpvalue dst i | not dst src =>
    obtain ⟨v, -, h⟩ := bind_eq_ok_iff.mp h
    exact stays_goOn h
  | setUpvalue i src =>
    obtain ⟨v, -, h⟩ := bind_eq_ok_iff.mp h
    obtain ⟨cell, -, h⟩ := bind_eq_ok_iff.mp h
    cases h
    trivial
  | setIndex table key value =>
    obtain ⟨t, -, h⟩ := bind_eq_ok_iff.mp h
    exact stays_setIndex h
  | arithRaw op dst x y =>
    obtain ⟨v, -, h⟩ := bind_eq_ok_iff.mp h
    obtain ⟨w, -, h⟩ := bind_eq_ok_iff.mp h
    exact stays_arithRaw h
  | compare op dst x y =>
    obtain ⟨v, -, h⟩ := bind_eq_ok_iff.mp h
    obtain ⟨w, -, h⟩ := bind_eq_ok_iff.mp h
    exact stays_compare h

/-- A call that ends stands at one of the two instructions. -/
theorem exists_departs (hpr : ¬ pr.Stays) (h : a.advance st received = .ok (st', pr)) :
    ∃ i, i.Departs ∧ a.closure.code.instrs[a.pc]? = some i ∧
      execute { a with pc := a.pc + 1 } st received i = .ok (st', pr) := by
  obtain ⟨i, hi, hexecute⟩ := bind_eq_ok_iff.mp h
  have hget : a.closure.code.instrs[a.pc]? = some i := by
    unfold instr at hi
    split at hi
    · next hget => cases hi; exact hget
    · cases hi
  exact ⟨i, by_contra fun hstays => hpr (stays_execute hstays hexecute), hget, hexecute⟩

theorem ret_of_returns (h : a.advance st received = .ok (st', .returns vs)) :
    ∃ args, a.closure.code.instrs[a.pc]? = some (.ret args) ∧
      a.frame.arguments st args = .ok vs := by
  obtain ⟨i, hi, hget, hexecute⟩ := exists_departs id h
  cases i with
  | ret args =>
    obtain ⟨values, hargs, heq⟩ := bind_eq_ok_iff.mp hexecute
    cases heq
    exact ⟨args, hget, hargs⟩
  | tailCall target args =>
    obtain ⟨t, -, hexecute⟩ := bind_eq_ok_iff.mp hexecute
    obtain ⟨values, -, heq⟩ := bind_eq_ok_iff.mp hexecute
    cases heq
  | _ => cases hi

theorem tailCall_of_tailCalls {target : Value} {args : List Value}
    (h : a.advance st received = .ok (st', .tailCalls target args)) :
    ∃ slot sources, a.closure.code.instrs[a.pc]? = some (.tailCall slot sources) := by
  obtain ⟨i, hi, hget, hexecute⟩ := exists_departs id h
  cases i with
  | ret sources =>
    obtain ⟨values, -, heq⟩ := bind_eq_ok_iff.mp hexecute
    cases heq
  | tailCall slot sources => exact ⟨slot, sources, hget⟩
  | _ => cases hi

end Activation

/-! ### Exits -/

/-- A line of some blocks is a line of one of them. -/
theorem exists_block_of_flatten : ∀ {blocks : List (List Line)} (pc : Nat) {i : Nat} {line : Line},
    blocks.flatten[i]? = some line → ∃ (b : Nat) (lines : List Line) (start k : Nat),
      blocks[b]? = some lines ∧ (Assembly.starts pc blocks)[b]? = some start ∧
        lines[k]? = some line ∧ pc + i = start + k
  | [], _, _, _, h => by simp at h
  | lines :: blocks, pc, i, line, h => by
    rw [List.flatten_cons] at h
    by_cases hi : i < lines.length
    · rw [List.getElem?_append_left hi] at h
      exact ⟨0, lines, pc, i, rfl, rfl, h, rfl⟩
    · rw [List.getElem?_append_right (Nat.le_of_not_lt hi)] at h
      obtain ⟨b, there, start, k, hb, hstart, hk, heq⟩ :=
        exists_block_of_flatten (pc + lines.length) h
      exact ⟨b + 1, there, start, k, hb, hstart, hk, by omega⟩

namespace Procedure

variable {p : Procedure} {codes : List Code} {info : RegisterInfo} {pc : Nat} {i : Instr}

theorem stays_captureAll (rs : List Nat) : ∀ line ∈ Line.captureAll rs, line.Stays := by
  simp [Line.captureAll, Line.Stays, Instr.Departs]

theorem stays_askInto (q : Question) (receiver : Receiver) :
    ∀ line ∈ Line.askInto q receiver, line.Stays := by
  simp [Line.askInto, Line.Stays, Instr.Departs]

theorem stays_lowerArith (op : ArithOp) (dst : Nat) (x y : Operand) :
    ∀ line ∈ lowerArith info op dst x y, line.Stays := by
  unfold lowerArith
  split
  · simp [Line.Stays, Instr.Departs]
  · exact stays_askInto _ _

/-- No operation ends the call. -/
theorem stays_lowerOp (op : Op) : ∀ line ∈ p.lowerOp info op, line.Stays := by
  cases op with
  | arith dst op x y => exact stays_lowerArith op dst x y
  | unary dst op src =>
    cases op with
    | negate => exact stays_lowerArith .negate dst src src
    | not => simp [lowerOp, Line.Stays, Instr.Departs]
    | length => exact stays_askInto _ _
  | index | call => exact stays_askInto _ _
  | closure dst proto =>
    exact List.forall_mem_append.mpr
      ⟨stays_captureAll _, by simp [Line.Stays, Instr.Departs]⟩
  | close rs =>
    intro line h
    obtain ⟨r, -, rfl⟩ := List.mem_map.mp h
    exact id
  | _ => simp [lowerOp, Line.Stays, Instr.Departs]

theorem stays_lowerOps : ∀ (ops : List Op) (info : RegisterInfo),
    ∀ line ∈ (p.lowerOps info ops).1, line.Stays
  | [], _ => by simp [lowerOps]
  | op :: ops, _ => List.forall_mem_append.mpr ⟨stays_lowerOp op, stays_lowerOps ops _⟩

theorem stays_lowerEdge {captures : Dataflow.Entries SlotStates} {states : SlotStates} {b : Nat} :
    ∀ line ∈ lowerEdge captures states b, line.Stays :=
  List.forall_mem_append.mpr ⟨stays_captureAll _, by simp [Line.Stays]⟩

/-- An exit that ends the call is a single line. -/
theorem lowerExit_of_departs {captures : Dataflow.Entries SlotStates} {states : SlotStates}
    {e : Exit} {k : Nat} (hi : i.Departs)
    (h : (lowerExit captures states e)[k]? = some (.instr i)) :
    k = 0 ∧ lowerExit captures states e = [.instr i] := by
  have hsingle {j : Instr} (h : [Line.instr j][k]? = some (.instr i)) :
      k = 0 ∧ [Line.instr j] = [.instr i] := by
    obtain ⟨hk, heq⟩ := List.getElem?_eq_some_iff.mp h
    obtain rfl : k = 0 := by simpa using hk
    exact ⟨rfl, congrArg (fun line => [line]) heq⟩
  cases e with
  | ret args => exact hsingle h
  | tailCall target args => exact hsingle h
  | jump b => exact absurd hi (stays_lowerEdge _ (List.mem_of_getElem? h))
  | branch cond b c =>
    have hstays : ∀ line ∈ lowerExit captures states (.branch cond b c), line.Stays :=
      List.forall_mem_cons.mpr
        ⟨trivial, List.forall_mem_append.mpr ⟨stays_lowerEdge, stays_lowerEdge⟩⟩
    exact absurd hi (hstays _ (List.mem_of_getElem? h))

/-- A block that cannot be reached has no lines. -/
theorem getElem?_blockLines_of_none {b : Nat} {block : Block} (hb : p.blocks[b]? = some block)
    (hnone : p.entryInfo b = none) : p.blockLines[b]? = some [] := by
  simp only [blockLines, lowerBlocks, List.getElem?_map, List.getElem?_zipIdx, hb, Option.map_some,
    Nat.zero_add]
  split
  · next states types hs ht =>
    have hsome : p.entryInfo b = some ⟨states, types⟩ := entryInfo_eq_some.mpr ⟨hs, ht⟩
    cases hnone.symm.trans hsome
  · rfl

/-- **Where a call ends** there is the exit of a block, and nothing else behind its operations. -/
theorem exists_exit (hi : i.Departs) (h : (p.assemble codes).instrs[pc]? = some i) :
    ∃ b block info, p.blocks[b]? = some block ∧ p.infoAt b block.ops.length = some info ∧
      pc = p.opAddress b block.ops.length ∧
      lowerExit p.captures info.states block.exit = [.instr i] := by
  obtain ⟨line, point, hline, heq⟩ := exists_line h
  obtain rfl : line = .instr i := by
    cases line with
    | instr j => exact congrArg _ heq.symm
    | ask q | jump b | skipUnless cond n => subst heq; cases hi
  -- The address is needed, so the line is followed to its place in a block, not only as a member.
  have hpro : p.prologue.length ≤ pc := by
    by_contra hlt
    rw [lines, List.getElem?_append_left (Nat.lt_of_not_le hlt)] at hline
    exact stays_captureAll _ _ (List.mem_of_getElem? hline) hi
  rw [lines, List.getElem?_append_right hpro] at hline
  obtain ⟨b, there, start, k, hb, hstart, hk, hpc⟩ :=
    exists_block_of_flatten p.prologue.length hline
  have hblock : b < p.blocks.length :=
    length_blockLines (p := p) ▸ (List.getElem?_eq_some_iff.mp hb).1
  obtain ⟨block, hget⟩ : ∃ block, p.blocks[b]? = some block := ⟨_, List.getElem?_eq_getElem hblock⟩
  obtain rfl : p.startOf b = start := Option.some.inj ((getElem?_starts hblock).symm.trans hstart)
  cases hentry : p.entryInfo b with
  | none =>
    rw [getElem?_blockLines_of_none hget hentry] at hb
    cases hb
    simp at hk
  | some entry =>
    rw [getElem?_blockLines hget hentry] at hb
    cases hb
    have hops : (p.lowerOps entry block.ops).1.length ≤ k := by
      by_contra hlt
      rw [List.getElem?_append_left (Nat.lt_of_not_le hlt)] at hk
      exact stays_lowerOps _ _ _ (List.mem_of_getElem? hk) hi
    rw [List.getElem?_append_right hops] at hk
    obtain ⟨hzero, hexit⟩ := lowerExit_of_departs hi hk
    refine ⟨b, block, p.typeFlowAll entry block.ops, hget, ?_, ?_, hexit⟩
    · rw [infoAt, hentry, opsOf_eq hget, List.take_length, Option.map_some]
    · rw [opAddress_eq hentry, opsOf_eq hget, List.take_length]
      omega

end Procedure

/-! ### Calls that are over -/

/-- What a request that is over has brought is an answer to it. -/
theorem Machine.Completes.answers {m m' : Machine} {q : Request} (h : m.Completes (.request q) m') :
    q.Answers m.limits.maxIndexChain m.store m'.store m'.channel.values := by
  unfold Request.Answers
  have hresolve : m.store.resolve m.limits.maxIndexChain q = m.resolve q := rfl
  rw [hresolve]
  cases hq : m.resolve q with
  | value v =>
    obtain rfl := (completes_of_value hq).mp h
    obtain ⟨n, hcount⟩ := Run.exists_count m q
    rw [hcount]
    exact ⟨rfl, rfl⟩
  | handler f args => trivial
  | error e => exact absurd h (not_completes_of_error hq)

namespace Activation

variable {limit : Nat} {closure : Closure} {args : List Value} {a : Activation} {st : Store}
  {received : List Value}

theorem Reached.closure_eq (h : Reached limit closure args a st received) :
    a.closure = closure := by
  induction h with
  | start => rfl
  | runs _ hadv ih =>
    obtain ⟨i, -, -, hsame⟩ := follows_advance hadv
    exact hsame.trans ih
  | answered _ hadv _ hgo ih =>
    obtain ⟨i, -, -, hsame, -⟩ := follows_advance hadv
    cases hgo <;> exact hsame.trans ih

/-- **How a call is left**, in a state that it can reach: with these values, or by a tail call,
which may have any results. -/
inductive Departs (limit : Nat) (closure : Closure) (args vs : List Value) : Prop
  | returns {a : Activation} {st st' : Store} {received : List Value}
      (h : Reached limit closure args a st received)
      (hadv : a.advance st received = .ok (st', .returns vs)) : Departs limit closure args vs
  | tailCalls {a : Activation} {st st' : Store} {received : List Value} {target : Value}
      {values : List Value} (h : Reached limit closure args a st received)
      (hadv : a.advance st received = .ok (st', .tailCalls target values)) :
      Departs limit closure args vs

end Activation

namespace Run

/-- The call is alone on the stack, as a task or as the frame that a suspension has saved. -/
inductive Alone (a : Activation) : Run → Prop
  | live (m : Machine) : Alone a ⟨m, [.compiled a], [], true⟩
  | saved (m : Machine) : Alone a ⟨m, [], [.compiled a.closure a.frame], true⟩

variable {a : Activation} {under r r' : Run} {c c' : Control} {m m' : Machine}

theorem Alone.isBase (h : Alone a under) : under.isBase = false := by cases h <;> rfl

theorem Alone.saved_eq (h : Alone a under) (hcode : a.closure.code.isResumable = true) :
    under.saved = [.compiled a.closure a.frame] := by
  cases h with
  | live => simp [Run.saved, Task.saved?, hcode]
  | saved => rfl

/-- Who is alone goes on where it has waited. -/
theorem Alone.proceed (h : Alone a under) :
    (∃ a', a.GoesOn a' ∧
      (under.withMachine m).proceed = .next ⟨m, [.compiled a'], [], true⟩ .advance) ∨
      ∃ d, (under.withMachine m).proceed = .done (.broken d) := by
  cases h with
  | live => exact .inl ⟨a, .atOnce, rfl⟩
  | saved =>
    simp only [withMachine, Run.proceed, revive]
    cases hpc : resumeAddress a.closure.code a.frame.point with
    | ok pc => exact .inl ⟨a.atPc pc, .revived hpc, rfl⟩
    | error d => exact .inr ⟨d, rfl⟩

theorem Alone.broken {o : Outcome} (h : Alone a under)
    (hs : (under.withMachine m).proceed = .done o) : ∃ d, o = .broken d := by
  rcases h.proceed (m := m) with ⟨a', -, hnext⟩ | ⟨d, hbroken⟩
  · cases hnext.symm.trans hs
  · exact ⟨d, Step.done.inj (hs.symm.trans hbroken)⟩

/-- A procedure at work does not suspend, and is not the end. -/
theorem done_of_works {o : Outcome}
    (hs : Run.step ⟨m, [.compiled a], [], true⟩ .advance = .done o) :
    (∃ m' e, o = .failed m' e) ∨ ∃ d, o = .broken d := by
  simp only [step, advance] at hs
  split at hs
  · next st pr hadv =>
    cases pr with
    | fails e => cases hs; exact .inl ⟨_, e, rfl⟩
    | runs | asks | returns | tailCalls => cases hs
  · next d hadv => cases hs; exact .inr ⟨d, rfl⟩

/-- With nobody left and no tail call this is the end. -/
theorem step_ended (htail : m.channel.tailCall = none) :
    Run.step ⟨m, [], [], true⟩ .settled = .done (.settled m) := by
  simp only [step, settle, Channel.takeTailCall, htail]
  rfl

/-- **A moment of a call** that was made on an empty stack: it is at work; or what it has asked for
is under way above it; or it has returned; or it has left a tail call, which is then made. -/
inductive InCall (limit : Nat) (closure : Closure) (args : List Value) : Run → Control → Prop
  | works {m : Machine} {a : Activation} (hlimit : m.limits.maxIndexChain = limit)
      (h : a.Reached limit closure args m.store m.channel.values) :
      InCall limit closure args ⟨m, [.compiled a], [], true⟩ .advance
  | waits {under r : Run} {c : Control} {before a : Activation} {st : Store} {received : List Value}
      {q : Request} {asked : Machine} (hlimit : asked.limits.maxIndexChain = limit)
      (h : before.Reached limit closure args st received)
      (hadv : before.advance st received = .ok (asked.store, .asks a q))
      (alone : Alone a under) (carries : under.Carries asked (.request q) r c) :
      InCall limit closure args r c
  | ended {m : Machine} (h : Activation.Departs limit closure args m.channel.values)
      (htail : m.channel.tailCall = none) :
      InCall limit closure args ⟨m, [], [], true⟩ .settled
  | left {r : Run} {c : Control} (h : ∀ vs, Activation.Departs limit closure args vs) :
      InCall limit closure args r c

variable {limit : Nat} {closure : Closure} {args : List Value}

/-- **A step of a call** leads to another moment of it. -/
theorem InCall.next (h : InCall limit closure args r c) (hs : r.step c = .next r' c') :
    InCall limit closure args r' c' := by
  cases h with
  | @works m a hlimit h =>
    simp only [step, advance] at hs
    split at hs
    · next st pr hadv =>
      cases pr with
      | runs a' => cases hs; exact .works hlimit (.runs h hadv)
      | asks a' q =>
        cases hs
        have hlimit : ({ m with store := st } : Machine).limits.maxIndexChain = limit := hlimit
        exact .waits hlimit h hadv (.live _) (.begins (by simp) ⟨_, [.compiled a'], [], true⟩)
      | returns vs => cases hs; exact .ended (.returns h hadv) rfl
      | tailCalls target values => cases hs; exact .left fun vs => .tailCalls h hadv
      | fails e => cases hs
    · cases hs
  | waits hlimit h hadv halone hcarries =>
    rcases hcarries.next halone.isBase hs with hcarries | ⟨m', hcompletes, hproceed⟩
    · exact .waits hlimit h hadv halone hcarries
    · rcases halone.proceed (m := m') with ⟨a', hgoes, hnext⟩ | ⟨d, hbroken⟩
      · cases hnext.symm.trans hproceed
        have hanswers := hcompletes.answers
        rw [hlimit] at hanswers
        exact .works ((congrArg _ hcompletes.keeps.limits).trans hlimit)
          (.answered h hadv hanswers hgoes)
      · cases hbroken.symm.trans hproceed
  | ended h htail => cases (step_ended htail).symm.trans hs
  | left h => exact .left h

/-- **A suspension and a resumption** lead to another moment of the call. -/
theorem InCall.resumed {s : Signal} (h : InCall limit closure args r c)
    (hcode : closure.code.Compiled) (hs : r.step c = .done (.suspended m s)) (hallows : m.Allows m')
    (hroom : m'.hasRoom s = true) (given : List Value) :
    InCall limit closure args (m'.resumed s given) .settled := by
  cases h with
  | works => rcases done_of_works hs with ⟨m', e, hfails⟩ | ⟨d, hbroken⟩ <;> contradiction
  | @waits under _ _ before a st received q asked hlimit h hadv halone hcarries =>
    rcases hcarries.resumed halone.isBase hs with ⟨-, hcarries⟩ | ⟨m', -, hproceed⟩
    · have hsame : a.closure = closure := by
        obtain ⟨i, -, -, hfollows, -⟩ := Activation.follows_advance hadv
        exact hfollows.trans h.closure_eq
      obtain ⟨targets, htable, -⟩ := (Activation.asked_of_advance hadv).resumesAt (hsame ▸ hcode)
      have hsaved := halone.saved_eq (by simp [Code.isResumable, htable])
      have hcarries := hcarries m' given hallows hroom
      rw [hsaved] at hcarries
      exact .waits hlimit h hadv (.saved _) hcarries
    · obtain ⟨d, hbroken⟩ := halone.broken hproceed
      cases hbroken
  | ended h htail => cases (step_ended htail).symm.trans hs
  | left h => exact .left h

/-- A call that is over has departed. -/
theorem InCall.departs (h : InCall limit closure args r c) (hs : r.step c = .done (.settled m)) :
    Activation.Departs limit closure args m.channel.values := by
  cases h with
  | works => rcases done_of_works hs with ⟨m', e, hfails⟩ | ⟨d, hbroken⟩ <;> contradiction
  | waits hlimit h hadv halone hcarries =>
    -- The end of what it has asked for is not the end of the run: the call goes on.
    obtain ⟨u, -, -, habove⟩ := hcarries.step halone.isBase
    rw [hs] at habove
    cases hu : u.step c with
    | next u' d => rw [hu] at habove; cases habove
    | done o =>
      rw [hu] at habove
      cases o with
      | settled m' =>
        obtain ⟨d, hbroken⟩ := halone.broken habove.symm
        cases hbroken
      | failed m' e | suspended m' s | broken d => cases habove
  | ended h htail =>
    cases (step_ended htail).symm.trans hs
    exact h
  | left h => exact h _

end Run

/-- **A call of a closure that is over**, after any suspensions, has departed in a state that it can
reach. -/
theorem Machine.Completes.departs {m m' : Machine} {target : Value} {args : List Value}
    {callee : Callee} {id : ClosureId} (hcallee : m.store.callee target = .ok callee)
    (hid : callee.function = .closure id) (hcode : (m.store.closure id).code.Compiled)
    (h : m.Completes (.invoke target args) m') :
    Activation.Departs m.limits.maxIndexChain (m.store.closure id) (callee.arguments target args)
      m'.channel.values := by
  obtain ⟨n, hcount⟩ := Run.exists_countInvocation m callee
  have hstep : Run.step ⟨m, [], [], true⟩ (.invoke target args) =
      Run.enter ⟨{ m with counters := n }, [], [], true⟩ (.closure id)
        (callee.arguments target args) := by
    simp only [Run.step, Run.invoke, hcallee, hcount, hid]
  simp only [Run.enter] at hstep
  cases hdepth : m.depth.enter? m.limits.maxCallDepth with
  | none =>
    simp only [hdepth] at hstep
    cases (Run.completes_of_done hstep (by simp)).mp h
  | some depth =>
    simp only [hdepth] at hstep
    obtain ⟨r, c, hcomes, hdone⟩ := (Run.completes_of_next hstep).mp h
    refine Run.InCall.departs ?_ hdone
    clear hdone
    induction hcomes with
    | begins => exact .works rfl (.start _ _)
    | next _ hs ih => exact ih.next hs
    | resumed _ hs hallows hroom given ih => exact ih.resumed hcode hs hallows hroom given

end ResumableVM
