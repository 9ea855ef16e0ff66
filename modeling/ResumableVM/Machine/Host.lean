import ResumableVM.Machine.Run

/-! # Host: what the program that embeds a machine can do

A host makes closures of compiled procedures, starts calls, and resumes what a call suspended. A
signal can be resumed at any later time; the values given become the results of the operation that
suspended. Calls take a bound on the number of steps, and give no answer when it is too small. -/

namespace ResumableVM

/-- How a call ends for the host. -/
inductive Answer where
  | done (m : Machine) (values : List Value)
  | suspended (m : Machine) (s : Signal)
  | failed (m : Machine) (e : Error)
  | broken (d : Defect)

/-- Results are taken out of the channel. -/
def Outcome.answer : Outcome → Answer
  | settled m =>
    let (values, channel) := m.channel.takeValues
    .done { m with channel := channel } values
  | failed m e => .failed m e
  | suspended m s => .suspended m s
  | broken d => .broken d

namespace Machine

/-- A closure of a top-level procedure. Its only upvalue, if it has one, is the table of globals. -/
def instantiate (m : Machine) (code : Code) : Except Error (ClosureId × Machine) :=
  if 1 < code.upvalues.length then
    .error (.failed (.tooManyUpvalues code.name code.upvalues.length))
  else
    let (cells, store) := code.upvalues.foldl
      (fun (cells, store) _ =>
        let (cell, store) := store.addCell (.table m.globals)
        (cells.push cell, store))
      (#[], m.store)
    let (id, store) := store.addClosure ⟨code, cells⟩
    .ok (id, { m with store := store })

/-- One operation on an empty stack. -/
def perform (m : Machine) (fuel : Nat) (flatten : Bool) (c : Control) : Option Outcome :=
  Run.run fuel ⟨m, [], [], flatten⟩ c

/-- Call a value until it returns or suspends. -/
def start (m : Machine) (fuel : Nat) (callable : Value) (args : List Value) : Option Answer :=
  let m := { m with channel := m.channel.reset }
  (m.perform fuel true (.invoke callable args)).map Outcome.answer

/-- Resume a suspended call: every frame has to fit back, then the innermost goes on. -/
def resume (m : Machine) (fuel : Nat) (s : Signal) (values : List Value) : Option Answer :=
  let m := { m with channel := m.channel.setValues values }
  let (depth, fits) := m.depth.enterMany m.limits.maxCallDepth s.frames.length
  if fits then
    let m := { m with depth := depth }
    (Run.run fuel ⟨m, [], s.frames, true⟩ .settled).map Outcome.answer
  else
    let m := { m with depth := depth.leaveMany (depth.current - m.depth.current) }
    some (.failed m (.stackOverflow m.limits.maxCallDepth))

/-- Resume with what a scheduler answers until the call is over; the scheduler keeps a state. -/
def settle {σ : Type} (fuel : Nat) (scheduler : σ → Signal → σ × List Value) :
    Nat → σ → Answer → Option (Answer × σ)
  | 0, _, _ => none
  | n + 1, s, .suspended m signal => do
    let (s, values) := scheduler s signal
    let a ← m.resume fuel signal values
    settle fuel scheduler n s a
  | _ + 1, s, a => some (a, s)

/-- Call a value and resume it until it is over. -/
def complete {σ : Type} (m : Machine) (fuel : Nat) (scheduler : σ → Signal → σ × List Value) (s : σ)
    (callable : Value) (args : List Value) : Option (Answer × σ) := do
  let a ← m.start fuel callable args
  settle fuel scheduler fuel s a

end Machine

end ResumableVM
