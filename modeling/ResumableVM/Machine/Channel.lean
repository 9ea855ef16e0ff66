import ResumableVM.Value.Basic

/-! # Channel: where calls leave their results

Every call leaves its results in the channel. A callee that ends in a tail call leaves the call
itself, without values; whoever called it makes that call in its place. -/

namespace ResumableVM

/-- A call left to the caller. -/
structure TailCall where
  target : Value
  args : List Value
deriving DecidableEq

/-- The results of the call made last. -/
structure Channel where
  values : List Value
  tailCall : Option TailCall
deriving DecidableEq

namespace Channel

/-- Nothing. -/
def empty : Channel := ⟨[], none⟩

/-- The channel with exactly these results. -/
def setValues (_ : Channel) (vs : List Value) : Channel := ⟨vs, none⟩

/-- The channel with one result. -/
def setTo (c : Channel) (v : Value) : Channel := c.setValues [v]

/-- The channel without results. -/
def reset (c : Channel) : Channel := c.setValues []

/-- The channel with a call left to the caller. -/
def setTailCall (_ : Channel) (target : Value) (args : List Value) : Channel :=
  ⟨[], some ⟨target, args⟩⟩

/-- The call left to the caller, and the channel without it. -/
def takeTailCall (c : Channel) : Option TailCall × Channel :=
  (c.tailCall, { c with tailCall := none })

/-- The results, and the channel without them. -/
def takeValues (c : Channel) : List Value × Channel := (c.values, { c with values := [] })

/-- The result at a position, nil past the end. -/
def get (c : Channel) (i : Nat) : Value := valueAt c.values i

/-- The first result, nil when there is none. -/
def first (c : Channel) : Value := c.get 0

end Channel

end ResumableVM
