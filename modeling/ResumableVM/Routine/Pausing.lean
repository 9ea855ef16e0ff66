import ResumableVM.Routine.Basic

/-! # Pausing routines: handing values to the host

`pause` suspends with its arguments. Resumed with values it returns those; resumed without any it
returns its arguments. `septuple` and `tally` are small routines for hosts to try a library of their
own with: the first never suspends, the second suspends twice and adds up what it is given. -/

namespace ResumableVM.Routine

/-- Hand the arguments to the host and wait. -/
def pause : Routine where
  name := "pause"
  invoke st args := .ok (st, .suspends args 0 (.values args))
  resume st received phase locals :=
    if phase ≠ 0 then .error (.pausePhase phase)
    else match locals with
      | .values args => .ok (st, .answers (if received.isEmpty then args else received))
      | _ => .error (.foreignLocals "pause")

/-- The first value as an integer, zero if it is none. -/
def firstInteger (vs : List Value) : Int64 := (valueAt vs 0).toInt64?.getD 0

/-- Seven times the argument. -/
def septuple (name : String) : Routine := native name fun _ args =>
  .ok (.answer [.integer (7 * firstInteger args)])

/-- Suspend with the argument, then with what came back, and return the sum of all three. -/
def tally (name : String) : Routine where
  name := name
  invoke st args :=
    let x := firstInteger args
    .ok (st, .suspends [.integer x] 0 (.integers [x, 0]))
  resume st received phase locals :=
    match locals with
    | .integers [x, a] =>
      let r := firstInteger received
      if phase = 0 then .ok (st, .suspends [.integer r] 1 (.integers [x, r]))
      else .ok (st, .answers [.integer (x + a + r)])
    | _ => .error (.foreignLocals name)

end ResumableVM.Routine
