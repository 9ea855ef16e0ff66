import ResumableVM.Routine.Base
import ResumableVM.Routine.Pausing
import ResumableVM.Routine.Sequence

/-! # Library: the routines of a machine

Routines are numbered in the order in which they are registered, and each name is registered once.
Function values carry only the number. -/

namespace ResumableVM

/-- Registered routines. -/
structure Library where
  routines : Array Routine
  numbers : Std.HashMap String RoutineId

namespace Library

/-- No routines. -/
def empty : Library := ⟨#[], ∅⟩

/-- The number of routines. -/
def size (l : Library) : Nat := l.routines.size

/-- The most routines that a library can hold. -/
def capacity : Nat := 65536

/-- The routine with a number. -/
def find? (l : Library) (id : RoutineId) : Option Routine := l.routines[id.index]?

/-- The number of the routine with a name. -/
def id? (l : Library) (name : String) : Option RoutineId := l.numbers[name]?

/-- One more routine, without a check. -/
def add (l : Library) (r : Routine) : Library :=
  let id : RoutineId := ⟨l.routines.size⟩
  ⟨l.routines.push r, l.numbers.insert r.name id⟩

/-- Why a routine cannot be registered: its name must be new, and there must be room. -/
def obstacle? (l : Library) (r : Routine) : Option Defect :=
  if l.numbers.contains r.name then some (.routineExists r.name)
  else if capacity ≤ l.size then some .libraryFull
  else none

/-- One more routine, and its number. -/
def register (l : Library) (r : Routine) : Except Defect (RoutineId × Library) :=
  match l.obstacle? r with
  | some d => .error d
  | none => .ok (⟨l.size⟩, l.add r)

/-- Names and numbers in order. -/
def entries (l : Library) : List (String × RoutineId) :=
  l.routines.toList.zipIdx.map fun (r, i) => (r.name, ⟨i⟩)

/-- The standard routines. -/
def standard : Library :=
  [Routine.select, Routine.type, Routine.rawlen, Routine.rawget, Routine.rawequal,
    Routine.setmetatable, Routine.getmetatable, Routine.pack, Routine.unpack, Routine.pause].foldl
    add empty

end Library

end ResumableVM
