import ResumableVM.Routine.Basic

/-! # Base routines: arguments, types, raw access and metatables

None of these makes a request, so none can suspend. A metatable with an entry under `__metatable` is
protected: that entry is shown in its place, and it cannot be replaced. -/

namespace ResumableVM.Routine

/-- Arguments by position: `select('#', …)` counts the further arguments; `select(n, …)` gives those
from the `n`-th on, counted from the end if `n` is negative. -/
def select : Routine := native "select" fun _ args =>
  let rest := args.tail
  if args.head? = some (.string "#") then
    .ok (.answer [.integer (Int64.ofNat rest.length)])
  else do
    let n ← integerArgument args 1 "select"
    let start : Int := if n.toInt < 0 then rest.length + n.toInt else n.toInt - 1
    if start < 0 then .error (.badArgument 1 "select" .outOfRange)
    else pure (.answer (rest.drop start.toNat))

/-- The name of the argument's type. -/
def type : Routine := native "type" fun _ args =>
  match args with
  | v :: _ => .ok (.answer [.string v.typeName])
  | [] => .error (.badArgument 1 "type" .missing)

/-- The length of a table or a string, without handlers. -/
def rawlen : Routine := native "rawlen" fun st args =>
  match args with
  | .table id :: _ => .ok (.answer [(st.table id).lengthValue])
  | .string s :: _ => .ok (.answer [.integer (Int64.ofNat s.utf8ByteSize)])
  | _ => .error (.badArgument 1 "rawlen" .neitherTableNorString)

/-- An entry of a table, without handlers. -/
def rawget : Routine := native "rawget" fun st args => do
  let id ← tableArgument args 1 "rawget"
  pure (.answer [(st.table id).rawGet (argument args 2)])

/-- Primitive equality. -/
def rawequal : Routine := native "rawequal" fun _ args =>
  match args with
  | v :: w :: _ => .ok (.answer [.boolean (v.rawEquals w)])
  | _ => .error (.badArgument (args.length + 1) "rawequal" .missing)

/-- What stands in for a metatable, or nil if nothing does. -/
def guard (st : Store) (metatable : TableId) : Value :=
  (st.table metatable).getString "__metatable"

/-- The table has a metatable that cannot be replaced. -/
def isProtected (st : Store) (id : TableId) : Bool :=
  match (st.table id).metatable with
  | some m => !(guard st m).isNil
  | none => false

/-- The metatable that an argument names, or none for nil. -/
def metatableArgument : Value → Except Error (Option TableId)
  | .nil => .ok none
  | .table id => .ok (some id)
  | _ => .error (.badArgument 2 "setmetatable" .neitherNilNorTable)

/-- Give a table another metatable, or none. -/
def setmetatable : Routine := native "setmetatable" fun st args => do
  let id ← tableArgument args 1 "setmetatable"
  let m ← metatableArgument (argument args 2)
  if isProtected st id then .error (.failed .protectedMetatable)
  else pure fun st => (st.setMetatable id m, [.table id])

/-- The metatable of a value, or what stands in for it. -/
def getmetatable : Routine := native "getmetatable" fun st args =>
  match st.metatableOf (argument args 1) with
  | some m =>
    let g := guard st m
    .ok (.answer [if g.isNil then .table m else g])
  | none => .ok (.answer [.nil])

end ResumableVM.Routine
