import ResumableVM.Proofs.SavedFrames
import ResumableVM.Proofs.Stack

/-! # Service: a machine between host calls

`Service` is what a host can do with a machine that has some library: it makes closures of compiled
procedures, changes tables, cells, metatables and the channel as it likes, starts calls, lets the
machine perform single operations, and resumes the signals that come out, in any order. No procedure
is asked to close its registers once, so a call may break; nothing follows on that. -/

namespace ResumableVM

/-- A machine between host calls, and the signals that have come out of it. -/
inductive Service (l : Library) (limits : Limits) : Machine → List Signal → Prop
  | begins : Service l limits (.withLibrary limits l) []
  | instantiates {m m' : Machine} {signals : List Signal} {p : Procedure} {code : Code}
      {id : ClosureId} (h : Service l limits m signals) (hp : p.compile = .ok code)
      (hm : m.instantiate code = .ok (id, m')) : Service l limits m' signals
  /-- The host changes objects, leaves something in the channel, or resets the statistics. -/
  | edits {m : Machine} {signals : List Signal} {st : Store} {channel : Channel}
      {counters : Counters} {mark : Nat} (h : Service l limits m signals)
      (hst : st.closures = m.store.closures) :
      Service l limits
        { m with
          store := st, channel := channel, counters := counters, depth.highWater := mark } signals
  /-- The machine performs one operation; a call starts so, with an empty channel. -/
  | performs {m m' : Machine} {signals new : List Signal} {fuel : Nat} {flatten : Bool}
      {c : Control} {o : Outcome} (h : Service l limits m signals)
      (ho : m.perform fuel flatten c = some o) (hl : o.answer.Leaves m' new) :
      Service l limits m' (new ++ signals)
  | resumes {m m' : Machine} {signals new : List Signal} {fuel : Nat} {s : Signal}
      {values : List Value} {answer : Answer} (h : Service l limits m signals) (hmem : s ∈ signals)
      (hr : m.resume fuel s values = some answer) (hl : answer.Leaves m' new) :
      Service l limits m' (new ++ signals)

theorem Service.starts {l : Library} {limits : Limits} {m m' : Machine} {signals new : List Signal}
    {fuel : Nat} {callable : Value} {args : List Value} {answer : Answer}
    (h : Service l limits m signals) (hs : m.start fuel callable args = some answer)
    (hl : answer.Leaves m' new) : Service l limits m' (new ++ signals) := by
  obtain ⟨o, ho, rfl⟩ := Option.map_eq_some_iff.mp hs
  have hreset : Service l limits { m with channel := m.channel.reset } signals := h.edits rfl
  exact hreset.performs ho hl

namespace Machine

variable {m m' : Machine}

/-- An instantiation makes cells and a closure, and changes nothing else. -/
theorem instantiate_eq {code : Code} {id : ClosureId} (h : m.instantiate code = .ok (id, m')) :
    m.Keeps m' ∧ m'.depth = m.depth ∧
      ∃ upvalues, (m.store.addClosure ⟨code, upvalues⟩).2.SameButCells m'.store := by
  unfold instantiate at h
  split at h
  · cases h
  · obtain ⟨-, hsame⟩ := foldl_addCell (.table m.globals) code.upvalues #[] m.store
    cases h
    exact ⟨⟨rfl, rfl, rfl⟩, rfl, _, hsame.addClosure _⟩

/-- The run that a resumption starts: every frame is pending, at the depth that all of them take. -/
def resumed (m : Machine) (s : Signal) (values : List Value) : Run :=
  ⟨{ m with
      channel := m.channel.setValues values
      depth := (m.depth.enterMany m.limits.maxCallDepth s.frames.length).1 }, [], s.frames, true⟩

/-- All levels of a signal can be entered again. -/
def hasRoom (m : Machine) (s : Signal) : Bool :=
  (m.depth.enterMany m.limits.maxCallDepth s.frames.length).2

theorem resume_of_hasRoom {s : Signal} (h : m.hasRoom s = true) (fuel : Nat) (values : List Value) :
    m.resume fuel s values = ((m.resumed s values).run fuel .settled).map Outcome.answer := by
  have h' : (m.depth.enterMany m.limits.maxCallDepth s.frames.length).2 = true := h
  simp only [resume, h', if_true]
  rfl

/-- A stack that does not fit is left again. -/
theorem resume_of_not_hasRoom {s : Signal} (h : m.hasRoom s = false) (fuel : Nat)
    (values : List Value) : m.resume fuel s values =
      some (.failed { m with
        channel := m.channel.setValues values
        depth := (m.resumed s values).machine.depth.leaveMany
          ((m.resumed s values).machine.depth.current - m.depth.current) }
        (.stackOverflow m.limits.maxCallDepth)) := by
  have h' : (m.depth.enterMany m.limits.maxCallDepth s.frames.length).2 = false := h
  simp only [resume, h', Bool.false_eq_true, if_false]
  rfl

end Machine

/-- A machine with one closure, of the procedure that calls its argument. -/
def Machine.relaying : Machine :=
  { Machine.standard .standard with
    store := ((Machine.standard .standard).store.addClosure
      ⟨Procedure.relay.assemble [], #[]⟩).2 }

theorem Service.relaying : Service .standard .standard .relaying [] := by
  have hcompile : Procedure.relay.compile = .ok (Procedure.relay.assemble []) :=
    Procedure.compile_eq_ok_iff.mpr ⟨Procedure.check_eq_ok_iff.mp rfl, [], .nil, rfl⟩
  exact .instantiates .begins hcompile rfl

end ResumableVM
