import ResumableVM.Store.Basic
import ResumableVM.Value.Arithmetic

/-! # Request: operations that depend on types at run time

A request is an operation that a handler may have to answer. `Store.resolve` says what becomes of it
in a store: a value at once, a call of a handler, or an error. Only the call can change the store or
suspend. -/

namespace ResumableVM

/-- An operation on values that may need a handler. -/
inductive Request where
  | call (target : Value) (args : List Value)
  | index (value key : Value)
  | length (value : Value)
  | arith (op : ArithOp) (a b : Value)
deriving DecidableEq

/-- What becomes of a request. -/
inductive Resolution where
  | value (v : Value)
  | handler (h : Value) (args : List Value)
  | error (e : Error)
deriving DecidableEq

/-- What is called when a value is. -/
inductive Callee where
  /-- The value itself. -/
  | direct (f : Function)
  /-- Its handler, with the value before the other arguments. -/
  | handler (f : Function)
deriving DecidableEq

namespace Callee

/-- The function that is called. -/
def function : Callee → Function
  | direct f | handler f => f

/-- What it is called with. -/
def arguments (target : Value) (args : List Value) : Callee → List Value
  | direct _ => args
  | handler _ => target :: args

end Callee

namespace Store

/-- The entry of a table under a key, or nil for any other value. -/
def rawEntry (st : Store) (v key : Value) : Value :=
  match v with
  | .table id => (st.table id).rawGet key
  | _ => .nil

/-- Indexing, `v[key]`: the entry in `v`, or in the first of a chain of tables, each the index
handler of the one before, that has one. A function in the chain is called with the value it handles
and the key. At most `limit` values are looked into. -/
def resolveIndex (st : Store) (key : Value) : Nat → Value → Resolution
  | 0, _ => .error .indexChainTooLong
  | limit + 1, v =>
    let raw := st.rawEntry v key
    if !raw.isNil then .value raw
    else match st.handler v .index, v with
      | .nil, .table _ => .value .nil
      | .function f, _ => .handler (.function f) [v, key]
      | .table id, _ => resolveIndex st key limit (.table id)
      | _, _ => .error (.illegalOperation .index v.typeName)

/-- Length, `#v`: the bytes of a string, the answer of a handler, or the length of a table. -/
def resolveLength (st : Store) (v : Value) : Resolution :=
  match v with
  | .string s => .value (.integer (Int64.ofNat s.utf8ByteSize))
  | _ =>
    match st.handler v .length, v with
    | .function f, _ => .handler (.function f) [v]
    | _, .table id => .value (st.table id).lengthValue
    | _, _ => .error (.illegalOperation .length v.typeName)

/-- Arithmetic: on numbers at once, otherwise by the handler of an operand. -/
def resolveArith (st : Store) (op : ArithOp) (a b : Value) : Resolution :=
  match rawArithmetic? op a b with
  | some (.ok v) => .value v
  | some (.error e) => .error e
  | none =>
    let h := st.binaryHandler a b op.event
    if h.isNil then .error (.illegalOperation .arithmetic (arithmeticCulprit a b).typeName)
    else .handler h [a, b]

/-- What becomes of a request, where at most `limit` values are looked into for an entry. -/
def resolve (st : Store) (limit : Nat) : Request → Resolution
  | .call target args => .handler target args
  | .index v key => st.resolveIndex key limit v
  | .length v => st.resolveLength v
  | .arith op a b => st.resolveArith op a b

/-- What calling a value means: a function is called itself, anything else has to have one as its
handler for calls. -/
def callee (st : Store) (target : Value) : Except Error Callee :=
  match target with
  | .function f => .ok (.direct f)
  | v =>
    match st.handler v .call with
    | .function f => .ok (.handler f)
    | _ => .error (.illegalOperation .call v.typeName)

end Store

end ResumableVM
