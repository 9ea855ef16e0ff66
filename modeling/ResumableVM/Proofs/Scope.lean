import ResumableVM.Machine.Activation

/-! # Scope: what operations do to the registers of a call

An operation reads and writes registers, and it does not matter for that how the registers are kept:
a `RegisterFile` has to say what a register holds, how it is written, how it comes to share a cell
with a closure, and how that sharing ends. `Setting.perform` is the effect of one operation on any
such file. It leaves calls, indexing, length and all arithmetic to whoever carries it out, as
requests. `Exit.leave` says how a block is left. -/

namespace ResumableVM

/-- How the registers of a call are kept. -/
class RegisterFile (φ : Type) where
  /-- The value of a register. -/
  value : φ → Store → Nat → Value
  /-- Another value for a register. -/
  assign : φ → Store → Nat → Value → φ × Store
  /-- The register has a cell from now on. -/
  share : φ → Store → Nat → φ × Store
  /-- The cell of a register that has one. -/
  cell : φ → Nat → CellId
  /-- The register keeps its value, but shares it with no closure any more. -/
  close : φ → Store → Nat → φ × Store

/-- The registers of a call, the arguments past the parameters, and the results kept together. -/
structure Scope (φ : Type) where
  file : φ
  varargs : List Value
  multi : List Value

namespace Scope

variable {φ : Type} [RegisterFile φ]

/-- The value of an operand. -/
def value (s : Scope φ) (st : Store) : Operand → Value
  | .register r => RegisterFile.value s.file st r
  | .const c => c.toValue

/-- The values of arguments. -/
def values (s : Scope φ) (st : Store) (args : Args) : List Value :=
  args.fixed.map (s.value st) ++ if args.spread then s.multi else []

/-- Another value for a register. -/
def assign (s : Scope φ) (st : Store) (r : Nat) (v : Value) : Scope φ × Store :=
  let (file, st) := RegisterFile.assign s.file st r v
  ({ s with file := file }, st)

/-- Values for some registers in order, nil where there are not enough. -/
def assignAll (s : Scope φ) (st : Store) : List Nat → List Value → Scope φ × Store
  | [], _ => (s, st)
  | r :: rs, vs =>
    let (s, st) := s.assign st r (vs.headD .nil)
    assignAll s st rs vs.tail

/-- Results are received. -/
def receive (s : Scope φ) (st : Store) (results : Results) (vs : List Value) : Scope φ × Store :=
  match results with
  | .fixed rs => s.assignAll st rs vs
  | .multi => ({ s with multi := vs }, st)

/-- Some registers are changed, in order. -/
def each (change : φ → Store → Nat → φ × Store) (s : Scope φ) (st : Store) :
    List Nat → Scope φ × Store
  | [] => (s, st)
  | r :: rs =>
    let (file, st) := change s.file st r
    each change { s with file := file } st rs

/-- Some registers have cells from now on. -/
def shareAll (s : Scope φ) (st : Store) (rs : List Nat) : Scope φ × Store :=
  s.each RegisterFile.share st rs

/-- Some registers are closed. -/
def closeAll (s : Scope φ) (st : Store) (rs : List Nat) : Scope φ × Store :=
  s.each RegisterFile.close st rs

end Scope

/-- What an operation comes to. -/
inductive Performed (φ : Type) where
  | goesOn (s : Scope φ) (st : Store)
  /-- The answer to the request is received by `results`. -/
  | asks (request : Request) (results : Results)
  | fails (e : Error)

/-- How a block is left. -/
inductive Departure where
  | goesTo (block : Nat)
  | returns (values : List Value)
  | tailCalls (target : Value) (args : List Value)

/-- What a call of a procedure has besides its registers: the code of the nested procedures, and the
cells of the upvalues. -/
structure Setting where
  procedure : Procedure
  nested : List Code
  upvalues : Array CellId

namespace Procedure

/-- The values of the registers when a call starts; missing arguments are nil. -/
def startValues (p : Procedure) (args : List Value) : List Value :=
  (List.range p.registers).map fun r => if r < p.params then valueAt args r else .nil

/-- The arguments past the parameters, which are kept only by a procedure that reads them. -/
def startVarargs (p : Procedure) (args : List Value) : List Value :=
  if p.isVararg then args.drop p.params else []

end Procedure

variable {φ : Type} [RegisterFile φ]

/-- How a block is left, from the values of registers. -/
def Exit.leave (s : Scope φ) (st : Store) : Exit → Departure
  | .jump target => .goesTo target
  | .branch cond ifTrue ifFalse =>
    .goesTo (if (s.value st (.register cond)).isTruthy then ifTrue else ifFalse)
  | .ret args => .returns (s.values st args)
  | .tailCall target args => .tailCalls (s.value st (.register target)) (s.values st args)

namespace Setting

/-- The cell of an upvalue. -/
def upvalue (c : Setting) (i : Nat) : CellId := c.upvalues[i]?.getD default

/-- What a nested procedure captures. -/
def sources (c : Setting) (proto : Nat) : List CaptureSource :=
  (c.procedure.nested[proto]?.map Procedure.upvalues).getD []

/-- The cell that a nested procedure captures. -/
def capturedCell (c : Setting) (s : Scope φ) : CaptureSource → CellId
  | .register r => RegisterFile.cell s.file r
  | .upvalue i => c.upvalue i

/-- A closure of a nested procedure, when the registers that it captures have cells. -/
def closureOf (c : Setting) (s : Scope φ) (proto : Nat) : Closure :=
  ⟨c.nested[proto]?.getD default, ((c.sources proto).map (c.capturedCell s)).toArray⟩

/-- Results in one register. -/
def into (dst : Nat) : Results := .fixed [dst]

/-- The scope and the store go on. -/
def goOn (after : Scope φ × Store) : Performed φ := .goesOn after.1 after.2

/-- A new object in a register. -/
def assignNew {ι : Type} (s : Scope φ) (dst : Nat) (toValue : ι → Value) (made : ι × Store) :
    Performed φ := goOn (s.assign made.2 dst (toValue made.1))

/-- A table is written, without handlers. -/
def setIndex (s : Scope φ) (st : Store) (table key value : Value) : Performed φ :=
  match table with
  | .table id =>
    match st.rawSet id key value with
    | .ok st => .goesOn s st
    | .error failure => .fails (.failed failure)
  | other => .fails (.illegalOperation .index other.typeName)

/-- The outcome of a comparison is kept. -/
def keep (s : Scope φ) (st : Store) (dst : Nat) : Except Error Bool → Performed φ
  | .ok b => goOn (s.assign st dst (.boolean b))
  | .error e => .fails e

/-- **What an operation does.** -/
def perform (c : Setting) (s : Scope φ) (st : Store) : Op → Performed φ
  | .move dst src => goOn (s.assign st dst (s.value st (.register src)))
  | .load dst value => goOn (s.assign st dst value.toValue)
  | .getUpvalue dst i => goOn (s.assign st dst (st.cell (c.upvalue i)))
  | .setUpvalue i src => .goesOn s (st.setCell (c.upvalue i) (s.value st src))
  | .newTable dst => assignNew s dst .table (st.addTable .empty)
  | .index dst table key => .asks (.index (s.value st table) (s.value st key)) (into dst)
  | .setIndex table key value =>
    setIndex s st (s.value st (.register table)) (s.value st key) (s.value st value)
  | .arith dst op a b => .asks (.arith op (s.value st a) (s.value st b)) (into dst)
  | .unary dst .negate src => .asks (.arith .negate (s.value st src) (s.value st src)) (into dst)
  | .unary dst .not src => goOn (s.assign st dst (.boolean !(s.value st src).isTruthy))
  | .unary dst .length src => .asks (.length (s.value st src)) (into dst)
  | .compare dst op a b => keep s st dst (st.compare op (s.value st a) (s.value st b))
  | .call target args results =>
    .asks (.call (s.value st (.register target)) (s.values st args)) results
  | .closure dst proto =>
    let (s, st) := s.shareAll st (c.procedure.capturedBy proto)
    assignNew s dst .closure (st.addClosure (c.closureOf s proto))
  | .close rs => goOn (s.closeAll st rs)
  | .vararg results => goOn (s.receive st results s.varargs)

end Setting

/-! ### Windows as register files -/

namespace Window

/-- The value of a register, in place or in its cell. -/
def value (w : Window) (st : Store) (r : Nat) : Value :=
  match w.slots[r]? with
  | some (.plain v) => v
  | some (.boxed cell) => st.cell cell
  | none => .nil

/-- Another value for a register, in place or in its cell. -/
def assign (w : Window) (st : Store) (r : Nat) (v : Value) : Window × Store :=
  match w.slots[r]? with
  | some (.boxed cell) => (w, st.setCell cell v)
  | _ => (w.put r (.plain v), st)

/-- A register in place moves into a new cell. -/
def share (w : Window) (st : Store) (r : Nat) : Window × Store :=
  match w.slots[r]? with
  | some (.plain v) => (w.put r (.boxed (st.addCell v).1), (st.addCell v).2)
  | _ => (w, st)

/-- The cell of a register that is in one. -/
def cellOf (w : Window) (r : Nat) : CellId :=
  match w.slots[r]? with
  | some (.boxed cell) => cell
  | _ => default

/-- A register in a cell moves out of it. -/
def close (w : Window) (st : Store) (r : Nat) : Window :=
  match w.slots[r]? with
  | some (.boxed cell) => w.put r (.plain (st.cell cell))
  | _ => w

instance : RegisterFile Window where
  value := value
  assign := assign
  share := share
  cell := cellOf
  close w st r := (w.close st r, st)

end Window

namespace Frame

/-- The scope that a frame holds. -/
def scope (f : Frame) : Scope Window := ⟨f.window, f.varargs, f.multi⟩

/-- The frame with another scope. -/
def withScope (f : Frame) (s : Scope Window) : Frame :=
  ⟨s.file, s.varargs, s.multi, f.point⟩

end Frame

end ResumableVM
