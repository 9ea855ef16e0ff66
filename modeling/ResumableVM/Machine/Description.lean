import ResumableVM.Machine.Run
import ResumableVM.Text.Quoted

/-! # Description: functions and saved frames in words

A host that reports on a suspended stack shows each frame on one line: what it belongs to and where
it goes on, but not the values that it holds. Names are quoted. -/

namespace ResumableVM

/-- A record in words: its name, and its fields with their texts. -/
def recordText (name : String) (fields : List (String × String)) : String :=
  name ++ " \x7b " ++ ", ".intercalate (fields.map fun (k, v) => k ++ ": " ++ v) ++ " \x7d"

/-- A number with the name of what it numbers. -/
def taggedText (tag : String) (n : Nat) : String := tag ++ "(" ++ naturalText n ++ ")"

/-- A function by its name or number. -/
def Store.describe (st : Store) : Function → String
  | .closure id => "<closure " ++ (st.closure id).code.name ++ ">"
  | .routine id => "<builtin #" ++ naturalText id.index ++ ">"

/-- A closure by its name and the number of its cells. -/
def Closure.describe (c : Closure) : String :=
  recordText "LuaClosure"
    [("proc", Quoted.encode c.code.name), ("upvalues", naturalText c.upvalues.size)]

/-- A saved frame by its owner and the place where it goes on. -/
def SavedFrame.describe : SavedFrame → String
  | compiled closure frame =>
    recordText "Compiled"
      [("procedure", Quoted.encode closure.code.name),
        ("point", taggedText "ResumePoint" frame.point),
        ("registers", naturalText frame.window.size)]
  | routine id phase _ =>
    recordText "Library"
      [("routine", taggedText "BuiltinId" id.index), ("phase", naturalText phase)]

end ResumableVM
