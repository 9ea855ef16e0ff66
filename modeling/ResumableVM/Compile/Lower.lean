import ResumableVM.Compile.Assembly
import ResumableVM.Compile.RegisterTypes

/-! # Lower: operations as lines of code

What an operation becomes depends on what is known of the registers before it: their states settle
the access modes, and their types decide whether arithmetic needs a question. A closure operation
first moves the registers it captures into cells, a close operation takes them out again, and the
edge to a block moves those into cells that the block expects there. -/

namespace ResumableVM

namespace SlotStates

/-- The slot of a register. -/
def slot (states : SlotStates) (r : Nat) : SlotRef :=
  ⟨r, match states.of r with
    | .plain => .direct
    | .captured => .boxed⟩

/-- An operand as a source. -/
def source (states : SlotStates) : Operand → Source
  | .register r => .slot (states.slot r)
  | .const c => .const c

/-- Arguments as sources. -/
def sources (states : SlotStates) (args : Args) : SourceList :=
  ⟨args.fixed.map states.source, args.spread⟩

/-- The receiver of results. -/
def receiver (states : SlotStates) : Results → Receiver
  | .multi => .multi
  | .fixed [] => .discard
  | .fixed [r] => .one (states.slot r)
  | .fixed rs => .fixed (rs.map states.slot)

end SlotStates

namespace Line

/-- A question and the instruction that receives its answer. -/
def askInto (question : Question) (receiver : Receiver) : List Line :=
  [ask question, instr (.receive receiver)]

/-- Instructions that move registers into cells. -/
def captureAll (rs : List Nat) : List Line := rs.map fun r => instr (.capture r)

end Line

/-- Arithmetic: at once when both operands are known to be numbers, otherwise a question. -/
def lowerArith (info : RegisterInfo) (op : ArithOp) (dst : Nat) (a b : Operand) : List Line :=
  let states := info.states
  if (info.operandType a).isNumeric && (info.operandType b).isNumeric then
    [.instr (.arithRaw op (states.slot dst) (states.source a) (states.source b))]
  else Line.askInto (.arith op (states.source a) (states.source b)) (.one (states.slot dst))

/-- Each element once, in order of first appearance. -/
def firstAppearances : List Nat → List Nat :=
  List.foldl (fun seen r => if seen.contains r then seen else seen ++ [r]) []

namespace Procedure

/-- The lines of an operation. -/
def lowerOp (p : Procedure) (info : RegisterInfo) (op : Op) : List Line :=
  let states := info.states
  match op with
  | .move dst src => [.instr (.move (states.slot dst) (.slot (states.slot src)))]
  | .load dst value => [.instr (.move (states.slot dst) (.const value))]
  | .getUpvalue dst i => [.instr (.getUpvalue (states.slot dst) i)]
  | .setUpvalue i src => [.instr (.setUpvalue i (states.source src))]
  | .newTable dst => [.instr (.newTable (states.slot dst))]
  | .setIndex table key value =>
    [.instr (.setIndex (states.slot table) (states.source key) (states.source value))]
  | .index dst table key =>
    Line.askInto (.index (states.source table) (states.source key)) (.one (states.slot dst))
  | .arith dst op a b => lowerArith info op dst a b
  | .unary dst .negate src => lowerArith info .negate dst src src
  | .unary dst .not src => [.instr (.not (states.slot dst) (states.source src))]
  | .unary dst .length src =>
    Line.askInto (.length (states.source src)) (.one (states.slot dst))
  | .compare dst op a b =>
    [.instr (.compare op (states.slot dst) (states.source a) (states.source b))]
  | .call target args results =>
    Line.askInto (.call (states.slot target) (states.sources args)) (states.receiver results)
  | .closure dst proto =>
    let plain := (p.capturedBy proto).filter (states.of · == .plain)
    Line.captureAll (firstAppearances plain) ++
      [.instr (.closure ((p.captureFlow states op).slot dst) proto)]
  | .close rs =>
    (rs.filter (states.of · == .captured)).map fun r => .instr (.uncapture r)
  | .vararg results => [.instr (.vararg (states.receiver results))]

/-- The lines of some operations, with what is known after them. -/
def lowerOps (p : Procedure) (info : RegisterInfo) : List Op → List Line × RegisterInfo
  | [] => ([], info)
  | op :: ops =>
    let (lines, final) := lowerOps p (p.typeFlow info op) ops
    (p.lowerOp info op ++ lines, final)

/-- The lines of the edge to a block: the registers it expects in cells move there first. -/
def lowerEdge (captures : Dataflow.Entries SlotStates) (states : SlotStates) (target : Nat) :
    List Line :=
  Line.captureAll (states.newlyCaptured (captures[target]?.join.getD [])) ++ [.jump target]

/-- The lines of an exit. -/
def lowerExit (captures : Dataflow.Entries SlotStates) (states : SlotStates) : Exit → List Line
  | .jump target => lowerEdge captures states target
  | .branch cond ifTrue ifFalse =>
    let taken := lowerEdge captures states ifTrue
    .skipUnless (states.slot cond) taken.length :: taken ++ lowerEdge captures states ifFalse
  | .ret args => [.instr (.ret (states.sources args))]
  | .tailCall target args => [.instr (.tailCall (states.slot target) (states.sources args))]

/-- The shape of what an exit returns, if it leaves the procedure. -/
def returnShape? (info : RegisterInfo) : Exit → Option TypeSeq
  | .ret args => some ⟨args.fixed.map info.operandType, args.spread⟩
  | .tailCall _ _ => some .vararg
  | _ => none

/-- The lines of a block, and the shape of what it returns. -/
def lowerBlock (p : Procedure) (captures : Dataflow.Entries SlotStates) (info : RegisterInfo)
    (b : Block) : List Line × Option TypeSeq :=
  let (lines, final) := p.lowerOps info b.ops
  (lines ++ lowerExit captures final.states b.exit, returnShape? final b.exit)

/-- The lines of every block; a block that cannot be reached has none. -/
def lowerBlocks (p : Procedure) : List (List Line × Option TypeSeq) :=
  let captures := p.captures
  let types := p.registerTypes captures
  p.blocks.zipIdx.map fun (b, i) =>
    match captures[i]?.join, types[i]?.join with
    | some states, some known => p.lowerBlock captures ⟨states, known⟩ b
    | _, _ => ([], none)

/-- Lines before the first block. Only a jump back to the first block makes it expect registers in
cells; such a jump passes these lines by. -/
def prologue (p : Procedure) : List Line :=
  let entry := p.captures[0]?.join.getD []
  Line.captureAll (SlotStates.newlyCaptured (List.replicate p.registers .plain) entry)

end Procedure

end ResumableVM
