import ResumableVM.Routine.Basic

/-! # Sequence routines: `pack` and `unpack`

`pack` makes a table of its arguments and counts them. `unpack(t, i, j)` gives `t[i], …, t[j]`; the
end `j` is the length of `t` when it is not given. A table without a handler that could interfere is
read directly. Otherwise the length and every element are requested, each of which may suspend, and
`Unpacking` is what the routine keeps meanwhile. Its phases are: the length is needed (0), the
length has arrived (1), the bounds are known (2), an element has arrived (3). -/

namespace ResumableVM.Routine

/-- A table of the arguments, with their count under `n`. -/
def pack : Routine := native "pack" fun _ args =>
  .ok fun st =>
    let t := (Table.ofList args).setString "n" (.integer (Int64.ofNat args.length))
    let (id, st) := st.addTable t
    (st, [.table id])

namespace Unpack

/-- The largest number of results. -/
def maxResults : Nat := 1000000

/-- The object as a table, if no handler for the event could interfere. -/
def plainTable? (st : Store) (v : Value) (event : Event) : Option TableId :=
  match v with
  | .table id => if (st.handler v event).isNil then some id else none
  | _ => none

/-- The values of a table at `count` keys from `first` on. -/
def elements (t : Table) (first : Int64) (count : Nat) : List Value :=
  (List.range count).map fun (i : Nat) => t.getInt (Int64.ofInt (first.toInt + i))

/-- The bounds are known. -/
def begin (st : Store) (u : Unpacking) : Reply :=
  let count := u.last.toInt - u.first.toInt + 1
  if count ≤ 0 then .answers []
  else if maxResults < count then .fails (.failed .tooManyResults)
  else match plainTable? st u.object .index with
    | some id => .answers (elements (st.table id) u.first count.toNat)
    | none =>
      .asks (.index u.object (.integer u.first)) 3
        (.unpacking { u with current := u.first, done := #[] })

/-- The length has arrived. -/
def takeLength (st : Store) (received : List Value) (u : Unpacking) : Reply :=
  match (valueAt received 0).toInt64? with
  | some n => begin st { u with last := n }
  | none => .fails (.failed .lengthNotInteger)

/-- An element has arrived. -/
def takeElement (received : List Value) (u : Unpacking) : Reply :=
  let done := u.done.push (valueAt received 0)
  if u.current.toInt < u.last.toInt then
    let next := u.current + 1
    .asks (.index u.object (.integer next)) 3 (.unpacking { u with current := next, done := done })
  else .answers done.toList

/-- Ask for the length. -/
def askLength (u : Unpacking) : Reply := .asks (.length u.object) 1 (.unpacking u)

/-- Go on in a phase. -/
def goOn (st : Store) (received : List Value) (phase : Nat) (u : Unpacking) :
    Except Defect Reply :=
  match phase with
  | 0 => .ok (askLength u)
  | 1 => .ok (takeLength st received u)
  | 2 => .ok (begin st u)
  | 3 => .ok (takeElement received u)
  | n => .error (.unpackPhase n)

/-- Start, with arguments. -/
def start (st : Store) (args : List Value) : Except Error Reply := do
  let object := argument args 1
  let first ← optionalInteger args 2 "unpack" 1
  let u : Unpacking := ⟨object, first, 0, 0, #[]⟩
  if !(argument args 3).isNil then
    let last ← integerArgument args 3 "unpack"
    pure (begin st { u with last := last })
  else
    match plainTable? st object .length with
    | some id => pure (begin st { u with last := Int64.ofNat (st.table id).length })
    | none => pure (askLength u)

end Unpack

/-- The elements of an object between two bounds. -/
def unpack : Routine where
  name := "unpack"
  invoke st args :=
    match Unpack.start st args with
    | .ok reply => .ok (st, reply)
    | .error e => .ok (st, .fails e)
  resume st received phase locals :=
    match locals with
    | .unpacking u => (Unpack.goOn st received phase u).map (st, ·)
    | _ => .error (.foreignLocals "unpack")

end ResumableVM.Routine
