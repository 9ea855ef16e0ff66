import ResumableVM.Machine.Basic
import ResumableVM.Toml.Document

/-! # Configuration: limits from a file

A configuration file may set each limit under its name. A limit that it does not set keeps its
standard value, and everything else in the file is ignored. Both limits have to be positive. -/

namespace ResumableVM

/-- Why a configuration cannot be used. -/
inductive ConfigurationError where
  /-- It is not well-formed, or sets a limit to what is no natural number. -/
  | malformed
  | isZero (key : String)
deriving DecidableEq, Repr

/-- The error in words. -/
def ConfigurationError.message : ConfigurationError → String
  | malformed => "invalid config"
  | isZero key => "invalid config: " ++ key ++ " must be at least 1"

namespace Limits

/-- The name of the limit on nested calls. -/
def callDepthKey : String := "max_call_depth"

/-- The name of the limit on index operations. -/
def indexChainKey : String := "max_index_chain"

/-- A limit that a configuration sets, or its standard value. -/
def setting (ms : TomlMembers) (key : String) (default : Nat) : Except ConfigurationError Nat :=
  match ms.lookup key with
  | none => .ok default
  | some (.integer n) => if 0 ≤ n.toInt then .ok n.toInt.toNat else .error .malformed
  | some _ => .error .malformed

/-- A limit that is not zero. -/
def checkPositive (key : String) (n : Nat) : Except ConfigurationError Unit :=
  if n = 0 then .error (.isZero key) else .ok ()

/-- The limits that a configuration file sets. -/
def ofText (text : String) : Except ConfigurationError Limits := do
  match Toml.ofText? text with
  | none => .error .malformed
  | some ms =>
    let callDepth ← setting ms callDepthKey standard.maxCallDepth
    let indexChain ← setting ms indexChainKey standard.maxIndexChain
    checkPositive callDepthKey callDepth
    checkPositive indexChainKey indexChain
    pure ⟨callDepth, indexChain⟩

end Limits

end ResumableVM
