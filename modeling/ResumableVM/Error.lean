import ResumableVM.Numeric.Layout

/-! # Error: how an operation can fail

An `Error` is a failure that a program can cause and a host can report. A `Defect` is a broken rule
of the machine itself: code that was not compiled here, or a suspended stack put together by hand.
Both name the cause; `Error.message` and `Defect.message` hold all the wording. -/

namespace ResumableVM

/-- Operations that are undefined for some types. -/
inductive Operation where
  | call
  | index
  | length
  | arithmetic
  | compare
deriving DecidableEq, Repr

namespace Operation

/-- What was attempted. -/
def phrase : Operation → String
  | call => "call"
  | index => "index"
  | length => "get length of"
  | arithmetic => "perform arithmetic on"
  | compare => "compare"

end Operation

/-- What is wrong with an argument of a routine. -/
inductive ArgumentFault where
  /-- A value of some type was expected; there was one of another type, or none. -/
  | expected (what : String) (got : Option String)
  | missing
  | noInteger
  | outOfRange
  | neitherTableNorString
  | neitherNilNorTable
deriving DecidableEq, Repr

namespace ArgumentFault

/-- The fault in words. -/
def phrase : ArgumentFault → String
  | expected what got => what ++ " expected, got " ++ got.getD "no value"
  | missing => "value expected"
  | noInteger => "number has no integer representation"
  | outOfRange => "index out of range"
  | neitherTableNorString => "table or string expected"
  | neitherNilNorTable => "nil or table expected"

end ArgumentFault

/-- Failures with a message of their own. -/
inductive Failure where
  | keyIsNil
  | keyIsNaN
  | protectedMetatable
  | lengthNotInteger
  | tooManyResults
  | unknownRoutine (index : Nat)
  | tooManyUpvalues (procedure : String) (count : Nat)
deriving DecidableEq, Repr

namespace Failure

/-- The failure in words. -/
def message : Failure → String
  | keyIsNil => "table index is nil"
  | keyIsNaN => "table index is NaN"
  | protectedMetatable => "cannot change a protected metatable"
  | lengthNotInteger => "object length is not an integer"
  | tooManyResults => "too many results to unpack"
  | unknownRoutine index => "unknown library routine #" ++ naturalText index
  | tooManyUpvalues procedure count =>
    "top-level procedure '" ++ procedure ++ "' declares " ++ naturalText count ++
      " upvalues; only the globals table can be bound"

end Failure

/-- Errors of a running program. -/
inductive Error where
  /-- The operation is not defined for the type. -/
  | illegalOperation (operation : Operation) (typeName : String)
  /-- There is a handler that cannot be used yet. -/
  | notYetSupported (eventKey : String)
  | badArgument (position : Nat) (routine : String) (fault : ArgumentFault)
  /-- Integer division or remainder by zero. -/
  | divisionByZero (symbol : String)
  | indexChainTooLong
  | stackOverflow (limit : Nat)
  | failed (failure : Failure)
deriving DecidableEq, Repr

namespace Error

/-- The error in words. -/
def message : Error → String
  | illegalOperation operation typeName =>
    "attempt to " ++ operation.phrase ++ " a " ++ typeName ++ " value"
  | notYetSupported eventKey => "'" ++ eventKey ++ "' metamethod dispatch is not yet supported"
  | badArgument position routine fault =>
    "bad argument #" ++ naturalText position ++ " to '" ++ routine ++ "' (" ++ fault.phrase ++ ")"
  | divisionByZero symbol => "attempt to perform 'n" ++ symbol ++ "0'"
  | indexChainTooLong => "'__index' chain too long; possible loop"
  | stackOverflow limit => "stack overflow (more than " ++ naturalText limit ++ " nested calls)"
  | failed failure => failure.message

end Error

/-- Broken rules of the machine. -/
inductive Defect where
  | readMode (register : Nat)
  | writeMode (register : Nat)
  | alreadyCaptured (register : Nat)
  | notCaptured (register : Nat)
  | captureOfPlain (register : Nat)
  | outOfBounds (length index : Nat)
  | invalidPoint (point allocated : Nat)
  | foreignLocals (routine : String)
  | notResumable (routine : String) (phase : Nat)
  | unpackPhase (phase : Nat)
  | pausePhase (phase : Nat)
  | routineExists (name : String)
  | libraryFull
  | unreachableBlock (block : Nat)
deriving DecidableEq, Repr

namespace Defect

/-- The defect in words. -/
def message : Defect → String
  | readMode r => "slot mode mismatch reading r" ++ naturalText r
  | writeMode r => "slot mode mismatch writing r" ++ naturalText r
  | alreadyCaptured r => "r" ++ naturalText r ++ " is already captured"
  | notCaptured r => "r" ++ naturalText r ++ " is not captured"
  | captureOfPlain r => "closure captures r" ++ naturalText r ++ " but it is not boxed"
  | outOfBounds length index =>
    "index out of bounds: the len is " ++ naturalText length ++ " but the index is " ++
      naturalText index
  | invalidPoint point allocated =>
    "invalid resumption point @" ++ naturalText point ++ " (" ++ naturalText allocated ++
      " allocated)"
  | foreignLocals routine => "saved state of '" ++ routine ++ "' has the wrong type"
  | notResumable routine phase =>
    "library routine '" ++ routine ++ "' cannot be resumed (phase " ++ naturalText phase ++ ")"
  | unpackPhase phase => "illegal unpack phase: " ++ naturalText phase
  | pausePhase phase =>
    "assertion `left == right` failed: illegal pause phase\n  left: " ++ naturalText phase ++
      "\n right: 0"
  | routineExists name => "Library routine '" ++ name ++ "' already registered"
  | libraryFull => "Too many library routines (max 65536)"
  | unreachableBlock block => "no capture states for unreachable block " ++ naturalText block

end Defect

/-- Why an operation stopped short of an answer. -/
inductive Stop where
  | error (e : Error)
  | defect (d : Defect)
deriving DecidableEq, Repr

end ResumableVM
