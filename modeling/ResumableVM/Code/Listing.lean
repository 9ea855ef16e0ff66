import ResumableVM.Code.Basic
import ResumableVM.Text.Quoted
import ResumableVM.Value.Number

/-! # Listing: code as text

A listing has a heading with the procedure's properties, its resumption table and one line for each
instruction; the procedures nested in it follow, each under the path that leads to it. Boxed slots
stand in brackets. -/

namespace ResumableVM

/-- A decimal number of at least four digits. -/
def fourDigits (n : Nat) : String :=
  let digits := naturalText n
  String.ofList (List.replicate (4 - digits.length) '0') ++ digits

/-- The slot in a listing. -/
def SlotRef.text (s : SlotRef) : String :=
  match s.mode with
  | .direct => "r" ++ naturalText s.register
  | .boxed => "[r" ++ naturalText s.register ++ "]"

/-- The source in a listing; strings are quoted. -/
def Source.text : Source → String
  | slot s => s.text
  | const (.string s) => Quoted.encode s
  | const c => c.toValue.display

/-- The arguments in a listing. -/
def SourceList.text (args : SourceList) : String :=
  ", ".intercalate (args.fixed.map Source.text ++ if args.spread then ["..."] else [])

/-- The receiver in a listing. -/
def Receiver.text : Receiver → String
  | discard => "_"
  | one dst => dst.text
  | fixed dsts => ", ".intercalate (dsts.map SlotRef.text)
  | multi => "..."

/-- The resumption point in a listing. -/
def pointText (point : Nat) : String := "@" ++ naturalText point

/-- The question in a listing, with its resumption point. -/
def Question.text (point : Nat) : Question → String
  | arith op a b =>
    "ARITH       " ++ a.text ++ " " ++ op.symbol ++ " " ++ b.text ++ " " ++ pointText point
  | length src => "LEN         " ++ src.text ++ " " ++ pointText point
  | index table key => "INDEX       " ++ table.text ++ "[" ++ key.text ++ "] " ++ pointText point
  | call target args =>
    "CALL        " ++ target.text ++ "(" ++ args.text ++ ") " ++ pointText point

/-- The instruction in a listing. -/
def Instr.text : Instr → String
  | move dst src => "MOVE        " ++ dst.text ++ " " ++ src.text
  | getUpvalue dst i => "GETUPVAL    " ++ dst.text ++ " u" ++ naturalText i
  | setUpvalue i src => "SETUPVAL    u" ++ naturalText i ++ " " ++ src.text
  | newTable dst => "NEWTABLE    " ++ dst.text
  | setIndex table key value =>
    "SETINDEX    " ++ table.text ++ "[" ++ key.text ++ "] " ++ value.text
  | capture r => "CAPTURE     r" ++ naturalText r
  | uncapture r => "UNCAPTURE   r" ++ naturalText r
  | closure dst proto => "CLOSURE     " ++ dst.text ++ " proto#" ++ naturalText proto
  | ask question point => question.text point
  | arithRaw op dst a b =>
    "ARITHRAW    " ++ dst.text ++ " " ++ a.text ++ " " ++ op.symbol ++ " " ++ b.text
  | not dst src => "NOT         " ++ dst.text ++ " " ++ src.text
  | compare op dst a b =>
    "COMPARE     " ++ dst.text ++ " " ++ a.text ++ " " ++ op.name ++ " " ++ b.text
  | receive receiver => "RECEIVE     " ++ receiver.text
  | vararg receiver => "VARARG      " ++ receiver.text
  | jump target => "JUMP        " ++ fourDigits target
  | jumpIfFalse cond target => "JUMPIFNOT   " ++ cond.text ++ " " ++ fourDigits target
  | ret args => "RETURN      " ++ args.text
  | tailCall target args => "TAILCALL    " ++ target.text ++ "(" ++ args.text ++ ")"

namespace Listing

/-- A captured register or upvalue in a listing. -/
def captureLine (entry : CaptureSource × Nat) : String :=
  "  [" ++ naturalText entry.2 ++ "] parent " ++
    match entry.1 with
    | .register r => "r" ++ naturalText r
    | .upvalue i => "upvalue " ++ naturalText i

/-- The upvalues of a procedure, if it has any. -/
def upvalueLines (upvalues : List CaptureSource) : List String :=
  if upvalues.isEmpty then [] else "Upvalues:" :: upvalues.zipIdx.map captureLine

/-- The resumption table of a procedure. -/
def tableLines : Option (Array Nat) → List String
  | none => ["Resumption: none"]
  | some targets =>
    "Resumption table:" ::
      targets.toList.zipIdx.map fun (pc, point) =>
        "  " ++ pointText point ++ " -> " ++ fourDigits pc

/-- A procedure without those nested in it. -/
def ownLines (path : String) (code : Code) : List String :=
  ["========== Procedure: " ++ path ++ " ==========",
    "Parameters: " ++ naturalText code.params ++ if code.isVararg then " + varargs" else "",
    "Registers: " ++ naturalText code.registers,
    "Returns: " ++ code.returns.display] ++
  upvalueLines code.upvalues ++ tableLines code.resumeTable ++
  "Code:" :: code.instrs.toList.zipIdx.map fun (instr, pc) => fourDigits pc ++ "  " ++ instr.text

mutual

/-- A procedure and those nested in it. -/
def lines (path : String) : Code → List String
  | code@⟨_, _, _, _, _, _, _, nested, _⟩ => ownLines path code ++ nestedLines path 0 nested

/-- The procedures nested in one, each after an empty line. -/
def nestedLines (path : String) (i : Nat) : List Code → List String
  | [] => []
  | code :: codes =>
    "" :: lines (path ++ ".<" ++ naturalText i ++ ":" ++ code.name ++ ">") code ++
      nestedLines path (i + 1) codes

end

end Listing

/-- The lines of a listing. -/
def Code.listing (code : Code) : List String := Listing.lines code.name code

/-- The listing as a text that ends every line. -/
def Code.listingText (code : Code) : String :=
  String.join (code.listing.map (· ++ "\n"))

end ResumableVM
