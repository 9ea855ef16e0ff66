import ResumableVM.Machine.Basic

/-! # Run: a host call under way

A run is a machine with a stack of tasks, innermost first. The live tasks stand on top; below them
are the frames of a resumed stack that have not gone on yet. A task is a compiled procedure or a
waiting routine, and each of them occupies one level of call depth.

`Run.step` is the whole machine. It makes a request, invokes a function, lets the innermost task go
on, or settles an operation whose results are in the channel: a tail call left there is made in
place of the task that left it; otherwise the innermost live task goes on; when none is live the
innermost saved frame does, and when none is saved the host call is over.

A suspension turns the stack into a `Signal`: every live task becomes the frame it will go on from,
the frames that had not gone on stay as they are. An error takes the whole stack down. -/

namespace ResumableVM

/-- A frame of a suspended stack. -/
inductive SavedFrame where
  /-- A compiled procedure, which goes on at its resumption point. -/
  | compiled (closure : Closure) (frame : Frame)
  | routine (id : RoutineId) (phase : Nat) (locals : Locals)

/-- A suspended stack on its way to the host. -/
structure Signal where
  /-- Innermost first. -/
  frames : List SavedFrame
  /-- What the suspending routine hands to the host. -/
  values : List Value

/-- A live call. -/
inductive Task where
  | compiled (a : Activation)
  | waiting (id : RoutineId) (phase : Nat) (locals : Locals)

/-- The frame that a task goes on from after a suspension. A procedure that never suspends has no
resumption table and leaves none. -/
def Task.saved? : Task → Option SavedFrame
  | compiled a => if a.closure.code.isResumable then some (.compiled a.closure a.frame) else none
  | waiting id phase locals => some (.routine id phase locals)

/-- A host call under way. -/
structure Run where
  machine : Machine
  /-- Innermost first. -/
  live : List Task
  /-- Frames that have not gone on yet, innermost first; they stand below the live tasks. -/
  pending : List SavedFrame
  /-- A tail call that the outermost task leaves is made too. -/
  flatten : Bool

/-- What a run does next. -/
inductive Control where
  | request (r : Request)
  | invoke (target : Value) (args : List Value)
  /-- The innermost live task carries out its next instruction. -/
  | advance
  /-- The channel holds the results of an operation, or the tail call in its place. -/
  | settled

/-- How a host call ends. -/
inductive Outcome where
  | settled (m : Machine)
  | failed (m : Machine) (e : Error)
  | suspended (m : Machine) (s : Signal)
  | broken (d : Defect)

/-- What a step leads to. -/
inductive Step where
  | next (r : Run) (c : Control)
  | done (o : Outcome)

namespace Run

/-- The number of levels on the stack. -/
def height (r : Run) : Nat := r.live.length + r.pending.length

/-- No task and no frame is left. -/
def isBase (r : Run) : Bool := r.live.isEmpty && r.pending.isEmpty

/-- The run with another channel. -/
def withChannel (r : Run) (c : Channel) : Run := { r with machine.channel := c }

/-- The run one level less deep. -/
def leave (r : Run) : Run := { r with machine.depth := r.machine.depth.leave }

/-- The machine with the whole stack left. -/
def unwound (r : Run) : Machine :=
  { r.machine with depth := r.machine.depth.leaveMany r.height }

/-- An error takes the stack down. -/
def fail (r : Run) (e : Error) : Step := .done (.failed r.unwound e)

/-- A suspension saves the stack below the suspending routine's own frame. -/
def suspend (r : Run) (values : List Value) (own : SavedFrame) : Step :=
  .done (.suspended r.unwound ⟨own :: r.live.filterMap Task.saved? ++ r.pending, values⟩)

/-- A task that has just finished leaves its results in the channel. -/
def finish (r : Run) (c : Channel) : Step := .next ((r.withChannel c).leave) .settled

/-- What the reply of a routine leads to; the routine occupies a level but is not on the stack. -/
def reply (r : Run) (id : RoutineId) : Reply → Step
  | .answers vs => r.finish (r.machine.channel.setValues vs)
  | .asks request phase locals =>
    .next { r with live := .waiting id phase locals :: r.live } (.request request)
  | .suspends vs phase locals => r.leave.suspend vs (.routine id phase locals)
  | .fails e => r.leave.fail e

/-- The outcome of a routine's code. -/
def replied (r : Run) (id : RoutineId) : Except Defect (Store × Reply) → Step
  | .ok (st, reply) => Run.reply { r with machine.store := st } id reply
  | .error d => .done (.broken d)

/-- Use a routine that may not exist; the routine occupies a level but is not on the stack. -/
def withRoutine (r : Run) (id : RoutineId) (use : Routine → Step) : Step :=
  match r.machine.library.find? id with
  | some routine => use routine
  | none => r.leave.fail (.failed (.unknownRoutine id.index))

/-- Make a request: its value is the result, its handler is called. -/
def request (r : Run) (q : Request) : Step :=
  let r := { r with machine := r.machine.count q }
  match r.machine.resolve q with
  | .value v => .next (r.withChannel (r.machine.channel.setTo v)) .settled
  | .handler h args => .next { r with machine := r.machine.countHandler q } (.invoke h args)
  | .error e => r.fail e

/-- One level deeper for a function, which starts to run. -/
def enter (r : Run) (f : Function) (args : List Value) : Step :=
  match r.machine.depth.enter? r.machine.limits.maxCallDepth with
  | none => r.fail (.stackOverflow r.machine.limits.maxCallDepth)
  | some depth =>
    let r := { r with machine.depth := depth }
    match f with
    | .closure id =>
      let a := Activation.start (r.machine.store.closure id) args
      .next { r with live := .compiled a :: r.live } .advance
    | .routine id =>
      r.withRoutine id fun routine => r.replied id (routine.invoke r.machine.store args)

/-- Invoke a value: itself, or its handler for calls. -/
def invoke (r : Run) (target : Value) (args : List Value) : Step :=
  match r.machine.store.callee target with
  | .error e => r.fail e
  | .ok c =>
    Run.enter { r with machine := r.machine.countInvocation c } c.function (c.arguments target args)

/-- Where a saved frame of a procedure goes on. -/
def resumeAddress (code : Code) (point : Nat) : Except Defect Nat :=
  match code.resumeTable with
  | none => .ok 0
  | some targets =>
    match targets[point]? with
    | some pc => .ok pc
    | none => .error (.invalidPoint point targets.size)

/-- A routine goes on with what the channel holds; it occupies a level but is not on the stack. -/
def resumeRoutine (r : Run) (id : RoutineId) (phase : Nat) (locals : Locals) : Step :=
  r.withRoutine id fun routine =>
    r.replied id (routine.resume r.machine.store r.machine.channel.values phase locals)

/-- A saved frame goes on. -/
def revive (r : Run) : SavedFrame → Step
  | .compiled closure frame =>
    match resumeAddress closure.code frame.point with
    | .ok pc => .next { r with live := [.compiled ⟨closure, frame, pc⟩] } .advance
    | .error d => .done (.broken d)
  | .routine id phase locals => r.resumeRoutine id phase locals

/-- The results of an operation are in the channel, and no tail call: whoever is next goes on. -/
def proceed (r : Run) : Step :=
  match r.live, r.pending with
  | .compiled _ :: _, _ => .next r .advance
  | .waiting id phase locals :: rest, _ => Run.resumeRoutine { r with live := rest } id phase locals
  | [], frame :: rest => Run.revive { r with pending := rest } frame
  | [], [] => .done (.settled r.machine)

/-- An operation is over. -/
def settle (r : Run) : Step :=
  match r.machine.channel.takeTailCall with
  | (some t, channel) =>
    if r.isBase && !r.flatten then .done (.settled r.machine)
    else
      let counters := { r.machine.counters with tailCalls := r.machine.counters.tailCalls + 1 }
      .next { r with machine.channel := channel, machine.counters := counters }
        (.invoke t.target t.args)
  | (none, _) => r.proceed

/-- What an instruction of the innermost task leads to; the task has been taken off the stack. -/
def progress (r : Run) : Progress Activation → Step
  | .runs a => .next { r with live := .compiled a :: r.live } .advance
  | .asks a request => .next { r with live := .compiled a :: r.live } (.request request)
  | .returns vs => r.finish (r.machine.channel.setValues vs)
  | .tailCalls target args => r.finish (r.machine.channel.setTailCall target args)
  | .fails e => r.leave.fail e

/-- The innermost live task carries out its next instruction. -/
def advance (r : Run) : Step :=
  match r.live with
  | .compiled a :: rest =>
    match a.advance r.machine.store r.machine.channel.values with
    | .ok (st, p) => Run.progress { r with live := rest, machine.store := st } p
    | .error d => .done (.broken d)
  | _ => r.proceed

/-- One **step of the machine**. -/
def step (r : Run) : Control → Step
  | .request q => r.request q
  | .invoke target args => r.invoke target args
  | .advance => r.advance
  | .settled => r.settle

/-- Steps until the host call is over, or a number of them. -/
def run : Nat → Run → Control → Option Outcome
  | 0, _, _ => none
  | fuel + 1, r, c =>
    match r.step c with
    | .next r c => run fuel r c
    | .done o => some o

end Run

end ResumableVM
