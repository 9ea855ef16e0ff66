import ResumableVM.Toml.Scalar

/-! # Toml values: scalars, arrays and tables in braces

An array may run over several lines and end in a comma; a table in braces may do neither. -/

namespace ResumableVM.Toml

open Toml.Parser

/-- The number of arrays and tables in braces that may stand in one another. -/
def depthLimit : Nat := 79

/-- The items of an array up to its closing bracket. -/
def items (value : Parser Toml) : Parser (List Toml) := do
  word ['[']
  gap
  let vs ← many do
    if ← sees [']'] then pure none
    else do
      let v ← value
      gap
      if ← accept [','] then
        gap
        pure (some v)
      else if ← sees [']'] then pure (some v)
      else failure
  word [']']
  pure vs

/-- A key, the equals sign and a value. -/
def assignment (value : Parser Toml) : Parser ((List String × String) × Toml) := do
  let k ← key
  word ['=']
  blanks
  pure (k, ← value)

/-- An assignment in braces. -/
def inlineAssignment (value : Parser Toml) : Parser ((List String × String) × Toml) := do
  let a ← assignment value
  blanks
  pure a

/-- The assignments between braces. -/
def inlineAssignments (value : Parser Toml) : Parser (List ((List String × String) × Toml)) := do
  word ['\x7b']
  blanks
  if ← accept ['\x7d'] then return []
  let first ← inlineAssignment value
  let others ← many do
    if ← accept [','] then some <$> inlineAssignment value else pure none
  word ['\x7d']
  pure (first :: others)

/-- The table that assignments in braces make. -/
def inlineTable (entries : List ((List String × String) × Toml)) : Option Toml :=
  inline <$> entries.foldlM (fun ms ((path, k), v) => assign path k v ms) []

/-- A value in which so many arrays and tables may stand in one another. -/
def value : Nat → Parser Toml
  | 0 => do
    match ← peek? with
    | some '"' | some '\'' => string <$> anyString
    | _ => scalar
  | depth + 1 => do
    match ← peek? with
    | some '"' | some '\'' => string <$> anyString
    | some '[' => array <$> items (value depth)
    | some '\x7b' =>
      match inlineTable (← inlineAssignments (value depth)) with
      | some t => pure t
      | none => failure
    | _ => scalar

end ResumableVM.Toml
