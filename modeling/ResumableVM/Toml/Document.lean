import ResumableVM.Toml.Value

/-! # Toml documents: from a text to a tree

A document is a list of statements, each on a line of its own. A statement assigns a value in the
table of the latest header, or it is a header. -/

namespace ResumableVM

namespace Toml

open Toml.Parser

/-- A statement. -/
inductive Statement where
  | assigns (path : List String) (key : String) (v : Toml)
  | opens (path : List String) (key : String)
  /-- A header in double brackets. -/
  | repeats (path : List String) (key : String)

/-- A header. -/
def header : Parser Statement := do
  if ← accept ['[', '['] then
    let (path, k) ← key
    word [']', ']']
    pure (.repeats path k)
  else
    word ['[']
    let (path, k) ← key
    word [']']
    pure (.opens path k)

/-- A statement of either kind. -/
def statement : Parser Statement := do
  if ← sees ['['] then header
  else
    let ((path, k), v) ← assignment (value depthLimit)
    pure (.assigns path k v)

/-- The statement of a line, if it has one; the end of the text has none. -/
def line : Parser (Option (Option Statement)) := do
  blanks
  match ← peek? with
  | none => pure none
  | some '#' | some '\n' | some '\r' =>
    restOfLine
    pure (some none)
  | some _ =>
    let s ← statement
    restOfLine
    pure (some (some s))

/-- The statements of a text; a byte order mark may stand before it. -/
def statements? (text : String) : Option (List Statement) :=
  let cs := match text.toList with
    | '\uFEFF' :: cs => cs
    | cs => cs
  match many line cs with
  | some (lines, []) => some lines.reduceOption
  | _ => none

/-- The path to the table of the latest header, and all members so far. -/
abbrev Growth := List String × TomlMembers

/-- The tree after one more statement. -/
def Growth.add (g : Growth) : Statement → Option Growth
  | .assigns path k v => do
    let ms ← modifyAt .path (fun _ inner => assign path k v inner) g.1 .header g.2
    pure (g.1, ms)
  | .opens path k => do pure (path ++ [k], ← openTable path k g.2)
  | .repeats path k => do pure (path ++ [k], ← openRepeated path k g.2)

/-- The **members of a document**, if it is well-formed. -/
def ofText? (text : String) : Option TomlMembers := do
  let g ← (← statements? text).foldlM Growth.add ([], [])
  pure g.2

end Toml

end ResumableVM
