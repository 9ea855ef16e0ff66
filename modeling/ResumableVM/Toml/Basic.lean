/-! # Toml: configuration files as trees

A configuration file assigns values to keys. Keys are grouped in tables, and a table comes about in
one of three ways that say who may still add to it: a header names it, the path of a header passes
through it, or a dotted key passes through it.

`Toml.modifyAt` follows a path through tables and makes those that are missing. It is where the
rules on who may add to what are kept. -/

namespace ResumableVM

/-- How a table came about. -/
inductive TomlOrigin where
  /-- A header names it. -/
  | header
  /-- The path of a header passes through it. -/
  | path
  /-- A dotted key passes through it. -/
  | dotted
deriving DecidableEq, Repr

/-- A configuration tree. -/
inductive Toml where
  | string (s : String)
  | integer (n : Int64)
  | real (x : Float)
  | boolean (b : Bool)
  /-- A date, a time of day, or both, as written. -/
  | moment (text : String)
  | array (items : List Toml)
  /-- A table written in braces; nothing can be added to it. -/
  | inline (members : List (String × Toml))
  | table (origin : TomlOrigin) (members : List (String × Toml))
  /-- The tables of repeated headers, the latest first. -/
  | tables (items : List (List (String × Toml)))
deriving Inhabited

/-- The members of a table, in the order in which they were written. -/
abbrev TomlMembers := List (String × Toml)

namespace TomlMembers

/-- The members with another one for a key that is there. -/
def replace (ms : TomlMembers) (key : String) (v : Toml) : TomlMembers :=
  ms.map fun m => if m.1 == key then (key, v) else m

/-- The members and one more, whose key must be new. -/
def add? (ms : TomlMembers) (key : String) (v : Toml) : Option TomlMembers :=
  if (ms.lookup key).isSome then none else some (ms ++ [(key, v)])

end TomlMembers

namespace Toml

/-- Change **the table that a path leads to**. Tables that are missing on the way are made; of
repeated tables the latest is meant. A dotted key may not pass through a table that a header names,
and nothing passes through a value. -/
def modifyAt (made : TomlOrigin) (change : TomlOrigin → TomlMembers → Option TomlMembers) :
    List String → TomlOrigin → TomlMembers → Option TomlMembers
  | [], origin, ms => change origin ms
  | key :: path, _, ms =>
    match ms.lookup key with
    | none => do ms.add? key (.table made (← modifyAt made change path made []))
    | some (.table origin inner) =>
      if made = .dotted ∧ origin = .header then none
      else do pure (ms.replace key (.table origin (← modifyAt made change path origin inner)))
    | some (.tables (latest :: earlier)) => do
      pure (ms.replace key (.tables ((← modifyAt made change path .header latest) :: earlier)))
    | some _ => none

/-- Assign a value under a key with a path before it. Keys with a path go to tables that dotted keys
made, keys without one to all others. -/
def assign (path : List String) (key : String) (v : Toml) (ms : TomlMembers) :
    Option TomlMembers :=
  modifyAt .dotted
    (fun origin inner =>
      if (origin = .dotted) ↔ path.isEmpty then none else inner.add? key v)
    path .header ms

/-- The table that a header names: a new one, or one that other headers passed through. -/
def openTable (path : List String) (key : String) (ms : TomlMembers) : Option TomlMembers :=
  modifyAt .path
    (fun _ inner =>
      match inner.lookup key with
      | none => inner.add? key (.table .header [])
      | some (.table .path members) => some (inner.replace key (.table .header members))
      | some _ => none)
    path .header ms

/-- One more of the tables that a repeated header names. -/
def openRepeated (path : List String) (key : String) (ms : TomlMembers) : Option TomlMembers :=
  modifyAt .path
    (fun _ inner =>
      match inner.lookup key with
      | none => inner.add? key (.tables [[]])
      | some (.tables items) => some (inner.replace key (.tables ([] :: items)))
      | some _ => none)
    path .header ms

end Toml

end ResumableVM
