import ResumableVM.Store.Basic
import ResumableVM.Value.Arithmetic

/-! # Comparison of values in a store

Equality and order as programs see them. Numbers and strings compare by themselves; elsewhere a
handler would decide, but handlers for comparisons cannot be used yet, so finding one is an error.
-/

namespace ResumableVM.Store

/-- Equality. Only two different tables can have a handler for it. -/
def equal (st : Store) (a b : Value) : Except Error Bool :=
  if a.rawEquals b then .ok true
  else match a, b with
    | .table _, .table _ =>
      if (st.binaryHandler a b .equal).isNil then .ok false
      else .error (.notYetSupported Event.equal.key)
    | _, _ => .ok false

/-- A value that has an order. -/
def isOrdered : Value → Bool
  | .integer _ | .float _ | .string _ => true
  | _ => false

/-- Order of two values; `event` is the event that is raised when they have none. -/
def order (st : Store) (a b : Value) (event : Event) : Except Error (Option Ordering) :=
  match rawCompare? a b with
  | some o => .ok o
  | none =>
    if (st.binaryHandler a b event).isNil then
      .error (.illegalOperation .compare (if isOrdered a then b else a).typeName)
    else .error (.notYetSupported event.key)

/-- Whether `a < b`. -/
def less (st : Store) (a b : Value) : Except Error Bool := do
  let o ← st.order a b .less
  pure (o == some .lt)

/-- Whether `a ≤ b`. -/
def lessEqual (st : Store) (a b : Value) : Except Error Bool := do
  let o ← st.order a b .lessEqual
  pure (o == some .lt || o == some .eq)

/-- A comparison operator. -/
def compare (st : Store) (op : CompareOp) (a b : Value) : Except Error Bool :=
  match op with
  | .equal => st.equal a b
  | .notEqual => (!·) <$> st.equal a b
  | .less => st.less a b
  | .lessEqual => st.lessEqual a b

end ResumableVM.Store
