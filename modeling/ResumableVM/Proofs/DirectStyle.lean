import ResumableVM.Proofs.Work

/-! # DirectStyle: a machine whose calls nest

`Run` keeps everything that is under way on one stack. Here a call is a part of what its caller
does: whoever makes it waits for its end and looks at that. `Machine.nested` does something one level
deeper, and it alone enters a level or leaves one. A suspension passes through the calls that it
comes out of, each of which adds its frame (`Outcome.through`). A resumption goes to the outermost
frame first, which has the frame below it resumed before it goes on itself (`Nested.resumeNext`).

All functions take a bound on the depth of their recursion, and have no outcome when it is too
small. -/

namespace ResumableVM

namespace Outcome

/-- One level less deep, however it has ended. -/
def leave : Outcome → Outcome
  | settled m => .settled { m with depth := m.depth.leave }
  | failed m e => .failed { m with depth := m.depth.leave } e
  | suspended m s => .suspended { m with depth := m.depth.leave } s
  | broken d => .broken d

/-- A suspension passes through a call, which adds its frame if it has one. -/
def through (own : Option SavedFrame) : Outcome → Outcome
  | suspended m s => .suspended m ⟨s.frames ++ own.toList, s.values⟩
  | o => o

/-- A procedure without a resumption table adds none. -/
def throughCode (o : Outcome) (closure : Closure) (frame : Frame) : Outcome :=
  o.through (if closure.code.isResumable then some (.compiled closure frame) else none)

/-- What comes after an operation that is settled; any other end is the end of both. -/
def andThen (o : Outcome) (next : Machine → Option Outcome) : Option Outcome :=
  match o with
  | settled m => next m
  | o => some o

end Outcome

namespace Machine

/-- Something that is done one level deeper. -/
def nested (m : Machine) (body : Machine → Option Outcome) : Option Outcome :=
  match m.depth.enter? m.limits.maxCallDepth with
  | none => some (.failed m (.stackOverflow m.limits.maxCallDepth))
  | some depth => (body { m with depth := depth }).map Outcome.leave

/-- Use a routine that may not exist. -/
def useRoutine (m : Machine) (id : RoutineId) (use : Routine → Option Outcome) : Option Outcome :=
  match m.library.find? id with
  | some routine => use routine
  | none => some (.failed m (.failed (.unknownRoutine id.index)))

/-- The machine with other results in the channel. -/
def withResults (m : Machine) (vs : List Value) : Machine :=
  { m with channel := m.channel.setValues vs }

end Machine

namespace Nested

mutual

/-- Invoke a value once; it may leave a tail call. -/
def invoke : Nat → Machine → Value → List Value → Option Outcome
  | 0, _, _, _ => none
  | n + 1, m, target, args =>
    match m.store.callee target with
    | .error e => some (.failed m e)
    | .ok c =>
      (m.countInvocation c).nested fun m =>
        match c.function with
        | .closure id =>
          let closure := m.store.closure id
          (execute n m (.start closure (c.arguments target args))).map fun (o, frame) =>
            o.throughCode closure frame
        | .routine id =>
          m.useRoutine id fun routine =>
            converse n m id (routine.invoke m.store (c.arguments target args))

/-- Instructions up to the end of the procedure, or up to a request that does not settle. The frame
is as it is then. -/
def execute : Nat → Machine → Activation → Option (Outcome × Frame)
  | 0, _, _ => none
  | n + 1, m, a =>
    match a.advance m.store m.channel.values with
    | .error d => some (.broken d, a.frame)
    | .ok (st, p) =>
      let m := { m with store := st }
      match p with
      | .runs a => execute n m a
      | .asks a q => do
        match ← request n m q with
        | .settled m => execute n m a
        | o => some (o, a.frame)
      | .returns vs => some (.settled (m.withResults vs), a.frame)
      | .tailCalls target args =>
        some (.settled { m with channel := m.channel.setTailCall target args }, a.frame)
      | .fails e => some (.failed m e, a.frame)

/-- What a routine's code leads to, request after request. -/
def converse : Nat → Machine → RoutineId → Except Defect (Store × Reply) → Option Outcome
  | 0, _, _, _ => none
  | _ + 1, _, _, .error d => some (.broken d)
  | n + 1, m, id, .ok (st, reply) =>
    let m := { m with store := st }
    match reply with
    | .answers vs => some (.settled (m.withResults vs))
    | .asks q phase locals => do
      match ← request n m q with
      | .settled m =>
        m.useRoutine id fun routine =>
          converse n m id (routine.resume m.store m.channel.values phase locals)
      | o => some (o.through (some (.routine id phase locals)))
    | .suspends vs phase locals => some (.suspended m ⟨[.routine id phase locals], vs⟩)
    | .fails e => some (.failed m e)

/-- Make a request: its value is the result, its handler is called. -/
def request : Nat → Machine → Request → Option Outcome
  | 0, _, _ => none
  | n + 1, m, q =>
    let m := m.count q
    match m.resolve q with
    | .value v => some (.settled (m.withResults [v]))
    | .handler h args => do
      let o ← invoke n (m.countHandler q) h args
      o.andThen (trampoline n)
    | .error e => some (.failed m e)

/-- Make the tail calls that are left, until the channel holds results. -/
def trampoline : Nat → Machine → Option Outcome
  | 0, _ => none
  | n + 1, m =>
    match m.channel.tailCall with
    | none => some (.settled m)
    | some t => do
      let o ← invoke n m.withoutTailCall t.target t.args
      o.andThen (trampoline n)

end

/-- Invoke a value and make the tail calls that it leaves. -/
def call (n : Nat) (m : Machine) (target : Value) (args : List Value) : Option Outcome := do
  let o ← invoke n m target args
  o.andThen (trampoline n)

/-- A saved frame goes on with what the channel holds. -/
def continueFrame (n : Nat) (m : Machine) : SavedFrame → Option Outcome
  | .compiled closure frame =>
    match Run.resumeAddress closure.code frame.point with
    | .error d => some (.broken d)
    | .ok pc => (execute n m ⟨closure, frame, pc⟩).map fun (o, frame) => o.throughCode closure frame
  | .routine id phase locals =>
    m.useRoutine id fun routine =>
      converse n m id (routine.resume m.store m.channel.values phase locals)

/-- One level deeper, something below a frame is resumed first; then the frame goes on. A suspension
from below puts the frame back. -/
def resumeFrame (n : Nat) (m : Machine) (saved : SavedFrame) (below : Machine → Option Outcome) :
    Option Outcome :=
  m.nested fun m => do
    match ← below m with
    | .settled m => continueFrame n m saved
    | o => some (o.through (some saved))

/-- Resume the outermost of the frames, and make the tail calls that it leaves. -/
def resumeNext (n : Nat) : List SavedFrame → Machine → Option Outcome
  | [], m => some (.settled m)
  | saved :: rest, m => do
    let o ← resumeFrame n m saved (resumeNext n rest)
    o.andThen (trampoline n)

/-- Call a value until it returns or suspends. -/
def start (n : Nat) (m : Machine) (callable : Value) (args : List Value) : Option Answer :=
  (call n { m with channel := m.channel.reset } callable args).map Outcome.answer

/-- Resume a suspended call. -/
def resume (n : Nat) (m : Machine) (s : Signal) (values : List Value) : Option Answer :=
  (resumeNext n s.frames.reverse (m.withResults values)).map Outcome.answer

end Nested

end ResumableVM
