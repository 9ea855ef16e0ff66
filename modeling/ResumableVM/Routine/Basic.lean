import ResumableVM.Machine.Request

/-! # Routine: library routines

A routine answers a call without code of its own. It may make requests and may suspend, and says
each time in which phase and with which locals it goes on; what it asked for, or what it is resumed
with, is then what the result channel holds. A routine that does neither has nothing to go on with.
-/

namespace ResumableVM

/-- The state of a routine that goes through an object's elements. -/
structure Unpacking where
  object : Value
  first : Int64
  last : Int64
  /-- The element asked for last. -/
  current : Int64
  done : Array Value

/-- What a routine keeps while it waits. -/
inductive Locals where
  /-- The state of no routine. -/
  | foreign
  | values (vs : List Value)
  | integers (ns : List Int64)
  | unpacking (u : Unpacking)

/-- What a call of a routine leads to. -/
inductive Reply where
  | answers (values : List Value)
  | asks (request : Request) (phase : Nat) (locals : Locals)
  | suspends (values : List Value) (phase : Nat) (locals : Locals)
  | fails (e : Error)

/-- A routine. -/
structure Routine where
  name : String
  /-- Start, with arguments. -/
  invoke : Store → List Value → Except Defect (Store × Reply)
  /-- Go on in a phase, with what the result channel holds. -/
  resume : Store → List Value → Nat → Locals → Except Defect (Store × Reply)

/-- What a routine does that neither asks nor suspends: a change of the store, with results. -/
abbrev Effect := Store → Store × List Value

namespace Effect

/-- No change. -/
def answer (vs : List Value) : Effect := fun st => (st, vs)

end Effect

namespace Routine

/-- A routine that looks at the store, and then either fails or has an effect. -/
def native (name : String) (plan : Store → List Value → Except Error Effect) : Routine where
  name := name
  invoke st args :=
    match plan st args with
    | .ok effect =>
      let (st, vs) := effect st
      .ok (st, .answers vs)
    | .error e => .ok (st, .fails e)
  resume _ _ phase _ := .error (.notResumable name phase)

/-- An argument by position, counted from 1; nil when it is missing. -/
def argument (args : List Value) (position : Nat) : Value := valueAt args (position - 1)

/-- An argument of the wrong type. -/
def typeError (args : List Value) (position : Nat) (routine expected : String) : Error :=
  .badArgument position routine (.expected expected (args[position - 1]?.map Value.typeName))

/-- An argument that has to be a table. -/
def tableArgument (args : List Value) (position : Nat) (routine : String) : Except Error TableId :=
  match args[position - 1]? with
  | some (.table id) => .ok id
  | _ => .error (typeError args position routine "table")

/-- An argument that has to be an integer, or a number or string that represents one. -/
def integerArgument (args : List Value) (position : Nat) (routine : String) : Except Error Int64 :=
  match (argument args position).toNumber? with
  | some n =>
    match n.toInt64? with
    | some i => .ok i
    | none => .error (.badArgument position routine .noInteger)
  | none => .error (typeError args position routine "number")

/-- An integer argument that may be nil or missing. -/
def optionalInteger (args : List Value) (position : Nat) (routine : String) (default : Int64) :
    Except Error Int64 :=
  if (argument args position).isNil then .ok default else integerArgument args position routine

end Routine

end ResumableVM
