import ResumableVM.Numeric.Layout

/-! # GraphError: what makes a procedure unfit for compilation

Every error names the procedure it is about. -/

namespace ResumableVM

/-- A fault in a procedure. -/
inductive GraphError where
  | noBlocks (procedure : String)
  | unterminatedBlock (procedure : String) (block : Nat)
  | invalidRegister (procedure : String) (register count : Nat)
  | invalidBlock (procedure : String) (block : Nat)
  | invalidNested (procedure : String) (index : Nat)
  | invalidUpvalue (procedure : String) (index : Nat)
  | varargOutside (procedure : String)
  | tooManyParameters (procedure : String) (params registers : Nat)
deriving DecidableEq, Repr

namespace GraphError

/-- The fault in words. -/
def message : GraphError → String
  | noBlocks p => "procedure '" ++ p ++ "' has no blocks"
  | unterminatedBlock p b => "block " ++ naturalText b ++ " of '" ++ p ++ "' has no terminator"
  | invalidRegister p r count =>
    "register r" ++ naturalText r ++ " out of range in '" ++ p ++ "' (" ++ naturalText count ++
      " registers)"
  | invalidBlock p b => "block " ++ naturalText b ++ " does not exist in '" ++ p ++ "'"
  | invalidNested p i => "nested procedure " ++ naturalText i ++ " does not exist in '" ++ p ++ "'"
  | invalidUpvalue p i => "upvalue " ++ naturalText i ++ " does not exist in '" ++ p ++ "'"
  | varargOutside p => "vararg used in non-vararg procedure '" ++ p ++ "'"
  | tooManyParameters p params registers =>
    "procedure '" ++ p ++ "' declares " ++ naturalText params ++ " parameters but only " ++
      naturalText registers ++ " registers"

end GraphError

end ResumableVM
