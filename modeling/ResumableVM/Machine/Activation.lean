import ResumableVM.Machine.Frame
import ResumableVM.Machine.Request
import ResumableVM.Store.Comparison

/-! # Activation: running the code of one procedure

`Activation.advance` carries out one instruction. Everything that involves other procedures or
routines leaves the activation as a request, a return or a tail call; answers come back through the
values that a receiving instruction is given. -/

namespace ResumableVM

/-- A compiled procedure under way. -/
structure Activation where
  closure : Closure
  frame : Frame
  /-- The instruction that comes next. -/
  pc : Nat
deriving Inhabited

/-- What a step of a call leads to; `κ` is what goes on. -/
inductive Progress (κ : Type) where
  | runs (next : κ)
  | asks (next : κ) (request : Request)
  | returns (values : List Value)
  | tailCalls (target : Value) (args : List Value)
  | fails (e : Error)

namespace Activation

/-- The activation of a closure called with the given arguments. -/
def start (closure : Closure) (args : List Value) : Activation :=
  ⟨closure, Frame.start closure.code args, 0⟩

/-- The instruction that comes next. -/
def instr (a : Activation) : Except Defect Instr :=
  match a.closure.code.instrs[a.pc]? with
  | some i => .ok i
  | none => .error (.outOfBounds a.closure.code.instrs.size a.pc)

/-- The cell of an upvalue. -/
def upvalue (a : Activation) (i : Nat) : Except Defect CellId :=
  match a.closure.upvalues[i]? with
  | some cell => .ok cell
  | none => .error (.outOfBounds a.closure.upvalues.size i)

/-- The cell that a nested procedure captures. -/
def capturedCell (a : Activation) : CaptureSource → Except Defect CellId
  | .register r => a.frame.window.cell r
  | .upvalue i => a.upvalue i

/-- A nested procedure's code. -/
def nestedCode (a : Activation) (proto : Nat) : Except Defect Code :=
  match a.closure.code.nested[proto]? with
  | some code => .ok code
  | none => .error (.outOfBounds a.closure.code.nested.length proto)

/-- Go on with a changed frame. -/
def goOn (a : Activation) (after : Frame × Store) : Store × Progress Activation :=
  (after.2, .runs { a with frame := after.1 })

/-- Go on with a value in a register. -/
def assign (a : Activation) (st : Store) (dst : SlotRef) (v : Value) :
    Except Defect (Store × Progress Activation) :=
  a.goOn <$> a.frame.write st dst v

/-- The request that a question makes. -/
def request (f : Frame) (st : Store) : Question → Except Defect Request
  | .arith op a b => do pure (.arith op (← f.read st a) (← f.read st b))
  | .length src => do pure (.length (← f.read st src))
  | .index table key => do pure (.index (← f.read st table) (← f.read st key))
  | .call target args => do pure (.call (← f.window.get st target) (← f.arguments st args))

/-- Make a closure of a nested procedure. -/
def makeClosure (a : Activation) (st : Store) (dst : SlotRef) (proto : Nat) :
    Except Defect (Store × Progress Activation) := do
  let code ← a.nestedCode proto
  let cells ← code.upvalues.mapM a.capturedCell
  let (id, st) := st.addClosure ⟨code, cells.toArray⟩
  a.assign st dst (.closure id)

/-- Write to a table, without handlers; what is no table is found out before the key is read. -/
def setIndex (a : Activation) (st : Store) (table : Value) (key value : Source) :
    Except Defect (Store × Progress Activation) :=
  match table with
  | .table id => do
    let k ← a.frame.read st key
    let v ← a.frame.read st value
    match Table.keyFor k with
    | .ok k => pure (st.modifyTable id (·.set k v), .runs a)
    | .error failure => pure (st, .fails (.failed failure))
  | other => .ok (st, .fails (.illegalOperation .index other.typeName))

/-- Arithmetic on operands that are known to be numbers. -/
def arithRaw (a : Activation) (st : Store) (op : ArithOp) (dst : SlotRef) (x y : Value) :
    Except Defect (Store × Progress Activation) :=
  match rawArithmetic? op x y with
  | some (.ok v) => a.assign st dst v
  | some (.error e) => .ok (st, .fails e)
  | none => .ok (st, .fails (.illegalOperation .arithmetic (arithmeticCulprit x y).typeName))

/-- Compare and keep the outcome. -/
def compare (a : Activation) (st : Store) (op : CompareOp) (dst : SlotRef) (x y : Value) :
    Except Defect (Store × Progress Activation) :=
  match st.compare op x y with
  | .ok b => a.assign st dst (.boolean b)
  | .error e => .ok (st, .fails e)

/-- Carry out an instruction; the activation already stands behind it. -/
def execute (a : Activation) (st : Store) (received : List Value) :
    Instr → Except Defect (Store × Progress Activation)
  | .move dst src => do a.assign st dst (← a.frame.read st src)
  | .getUpvalue dst i => do a.assign st dst (st.cell (← a.upvalue i))
  | .setUpvalue i src => do
    let v ← a.frame.read st src
    let cell ← a.upvalue i
    pure (st.setCell cell v, .runs a)
  | .newTable dst =>
    let (id, st) := st.addTable .empty
    a.assign st dst (.table id)
  | .setIndex table key value => do a.setIndex st (← a.frame.window.get st table) key value
  | .capture r => do
    let (window, st) ← a.frame.window.capture st r
    pure (a.goOn ({ a.frame with window := window }, st))
  | .uncapture r => do
    let window ← a.frame.window.uncapture st r
    pure (a.goOn ({ a.frame with window := window }, st))
  | .closure dst proto => a.makeClosure st dst proto
  | .ask question point => do
    let frame := { a.frame with point := point }
    let r ← request frame st question
    pure (st, .asks { a with frame := frame } r)
  | .arithRaw op dst x y => do
    a.arithRaw st op dst (← a.frame.read st x) (← a.frame.read st y)
  | .not dst src => do a.assign st dst (.boolean !(← a.frame.read st src).isTruthy)
  | .compare op dst x y => do
    a.compare st op dst (← a.frame.read st x) (← a.frame.read st y)
  | .receive receiver => a.goOn <$> a.frame.receive st receiver received
  | .vararg receiver => a.goOn <$> a.frame.receive st receiver a.frame.varargs
  | .jump target => .ok (st, .runs { a with pc := target })
  | .jumpIfFalse cond target => do
    let v ← a.frame.window.get st cond
    pure (st, .runs (if v.isTruthy then a else { a with pc := target }))
  | .ret args => do pure (st, .returns (← a.frame.arguments st args))
  | .tailCall target args => do
    let t ← a.frame.window.get st target
    pure (st, .tailCalls t (← a.frame.arguments st args))

/-- Carry out the next instruction; `received` is what the result channel holds. -/
def advance (a : Activation) (st : Store) (received : List Value) :
    Except Defect (Store × Progress Activation) := do
  let i ← a.instr
  { a with pc := a.pc + 1 }.execute st received i

end Activation

end ResumableVM
