import ResumableVM.Compile.Basic

/-! # Checked: compilation with every look-up checked

The compiler relies on the check: it looks up registers, nested procedures and blocks without asking
whether they exist, takes what the analyses know of a block for granted where the block can be
reached, and fills in the targets of jumps when all blocks are laid out. Here the same compiler
looks before it leaps. The states of the registers at all points of all blocks stand in one row, the
`Arena`, and are cut out of it by the place of the point. Where something is missing the compiler
crashes and says what is. -/

namespace ResumableVM

/-- What a compiler that relies on the check would crash on. -/
inductive Crash where
  | noRegister (r : Nat)
  | noNested (proto : Nat)
  | noBlock (b : Nat)
  /-- The states of a block that they do not reach are asked for. -/
  | noStates (b : Nat)
  /-- The analyses disagree on what can be reached. -/
  | noTypes (b : Nat)
  /-- A jump leads to a block that is not laid out. -/
  | noAddress (b : Nat)
  | noInstr (address : Nat)
deriving DecidableEq, Repr

namespace Checked

/-! ### Registers -/

/-- The state of a register. -/
def stateOf (states : SlotStates) (r : Nat) : Except Crash SlotState :=
  match states[r]? with
  | some s => .ok s
  | none => .error (.noRegister r)

/-- The states with that of a register changed. -/
def setState (s : SlotState) (states : SlotStates) (r : Nat) : Except Crash SlotStates :=
  if r < states.length then .ok (states.set r s) else .error (.noRegister r)

/-- The registers that the closure operation for a nested procedure captures. -/
def capturedBy (p : Procedure) (proto : Nat) : Except Crash (List Nat) :=
  match p.nested[proto]? with
  | some n => .ok n.capturedRegisters
  | none => .error (.noNested proto)

/-- The states after an operation. -/
def captureFlow (p : Procedure) (states : SlotStates) : Op → Except Crash SlotStates
  | .closure _ proto => do (← capturedBy p proto).foldlM (setState .captured) states
  | .close rs => rs.foldlM (setState .plain) states
  | _ => .ok states

/-- The static type of a register. -/
def typeOf (info : RegisterInfo) (r : Nat) : Except Crash ValueType := do
  match ← stateOf info.states r with
  | .captured => pure .any
  | .plain => pure (info.types.get r)

/-- The static type of an operand. -/
def operandType (info : RegisterInfo) : Operand → Except Crash ValueType
  | .register r => typeOf info r
  | .const c => .ok c.staticType

/-- What an operation writes to registers, by type. -/
def writtenTypes (info : RegisterInfo) : Op → Except Crash (List (Nat × ValueType))
  | .move dst src => do pure [(dst, ← typeOf info src)]
  | .arith dst op a b => do
    pure [(dst, op.resultType (← operandType info a) (← operandType info b))]
  | .unary dst .negate src => do
    pure [(dst, UnaryOp.resultType .negate (← operandType info src))]
  | .unary dst .length src => do
    pure [(dst, UnaryOp.resultType .length (← operandType info src))]
  | op => .ok (op.writtenTypes info)

/-- The types with that of a register changed. -/
def setType (types : TypeSeq) (written : Nat × ValueType) : Except Crash TypeSeq :=
  if written.1 < types.fixed.length then .ok (types.set written.1 written.2)
  else .error (.noRegister written.1)

/-- Types, from the register `r` on, with any type in place of those of captured registers. -/
def forget (r : Nat) : SlotStates → List ValueType → Except Crash (List ValueType)
  | .captured :: states, _ :: ts => (.any :: ·) <$> forget (r + 1) states ts
  | .captured :: _, [] => .error (.noRegister r)
  | .plain :: states, t :: ts => (t :: ·) <$> forget (r + 1) states ts
  | .plain :: states, [] => forget (r + 1) states []
  | [], ts => .ok ts

/-- The types after an operation, between the states before and after it. -/
def typeFlow (op : Op) (before after : SlotStates) (types : TypeSeq) : Except Crash TypeSeq := do
  let written ← (← writtenTypes ⟨before, types⟩ op).foldlM setType types
  let fixed ← forget 0 (before.zipWith SlotState.join after) written.fixed
  pure { written with fixed := fixed }

/-! ### The analyses -/

section Dataflow

variable {α : Type}

/-- A state joined into the entry of a block. -/
def mergeInto (d : Dataflow α) (out : α) (entries : Dataflow.Entries α) (t : Nat) :
    Except Crash (Dataflow.Entries α) :=
  if t < entries.size then .ok (entries.modify t (d.merge out)) else .error (.noBlock t)

/-- The entry of a block, sent through it to its successors. -/
def propagate (d : Dataflow α) (flow : Nat → α → Except Crash α) (entries : Dataflow.Entries α)
    (b : Nat) : Except Crash (Dataflow.Entries α) :=
  match entries[b]?, d.blocks[b]? with
  | some (some s), some block => do block.successors.foldlM (mergeInto d (← flow b s)) entries
  | some none, some _ => .ok entries
  | _, _ => .error (.noBlock b)

/-- Sweeps until one changes nothing, or a number of them. -/
def iterate [DecidableEq α] (d : Dataflow α) (flow : Nat → α → Except Crash α) :
    Nat → Dataflow.Entries α → Except Crash (Dataflow.Entries α)
  | 0, entries => .ok entries
  | fuel + 1, entries => do
    let next ← (List.range d.blocks.size).foldlM (propagate d flow) entries
    if next = entries then pure entries else iterate d flow fuel next

/-- The states on entry to the blocks, where `flow` is what a block does to a state. -/
def solve [DecidableEq α] (d : Dataflow α) (flow : Nat → α → Except Crash α) :
    Except Crash (Dataflow.Entries α) :=
  if 0 < d.blocks.size then iterate d flow (d.blocks.size * (d.height + 1) + 1) d.initial
  else .error (.noBlock 0)

end Dataflow

/-- A block. -/
def blockAt (p : Procedure) (b : Nat) : Except Crash Block :=
  match p.blocks[b]? with
  | some block => .ok block
  | none => .error (.noBlock b)

/-- The states at the end of a block, from those on entry. -/
def statesThrough (p : Procedure) (b : Nat) (states : SlotStates) : Except Crash SlotStates := do
  (← blockAt p b).ops.foldlM (captureFlow p) states

/-- The states on entry to each block that can be reached. -/
def captures (p : Procedure) : Except Crash (Dataflow.Entries SlotStates) :=
  solve p.captureAnalysis (statesThrough p)

/-- The states of the registers at every point of the blocks that can be reached, in one row. -/
structure Arena where
  registers : Nat
  /-- The number of points before those of each block that can be reached. -/
  offsets : List (Option Nat)
  states : List SlotState

/-- The states at each point of a block: before each operation, then before the exit. -/
def statesAlong (p : Procedure) (states : SlotStates) : List Op → Except Crash (List SlotStates)
  | [] => .ok [states]
  | op :: ops => do
    let rest ← statesAlong p (← captureFlow p states op) ops
    pure (states :: rest)

/-- The points before those of each block that has any. -/
def offsetsFrom (count : Nat) : List (Option (List SlotStates)) → List (Option Nat)
  | [] => []
  | none :: blocks => none :: offsetsFrom count blocks
  | some points :: blocks => some count :: offsetsFrom (count + points.length) blocks

/-- The states at each point of a block, if it can be reached. -/
def points (p : Procedure) (entries : Dataflow.Entries SlotStates) (block : Block × Nat) :
    Except Crash (Option (List SlotStates)) :=
  match entries[block.2]? with
  | some (some states) => some <$> statesAlong p states block.1.ops
  | some none => .ok none
  | none => .error (.noBlock block.2)

/-- The arena of a procedure. -/
def arena (p : Procedure) (entries : Dataflow.Entries SlotStates) : Except Crash Arena := do
  let blocks ← p.blocks.zipIdx.mapM (points p entries)
  pure ⟨p.registers, offsetsFrom 0 blocks, (blocks.map (·.getD [])).flatten.flatten⟩

namespace Arena

/-- The block can be reached. -/
def isReachable (a : Arena) (b : Nat) : Bool := a.offsets[b]?.join.isSome

/-- The states of all registers before the operation `i` of a block. -/
def statesAt (a : Arena) (b i : Nat) : Except Crash SlotStates :=
  match a.offsets[b]? with
  | some (some offset) =>
    let start := (offset + i) * a.registers
    if start + a.registers ≤ a.states.length then .ok ((a.states.drop start).take a.registers)
    else .error (.noStates b)
  | _ => .error (.noStates b)

end Arena

/-- The types at the end of some operations of a block, the first of which is operation `i`. -/
def typesAlong (a : Arena) (b : Nat) : Nat → TypeSeq → List Op → Except Crash TypeSeq
  | _, types, [] => .ok types
  | i, types, op :: ops => do
    let next ← typeFlow op (← a.statesAt b i) (← a.statesAt b (i + 1)) types
    typesAlong a b (i + 1) next ops

/-- The types at the end of a block, from those on entry. -/
def typesThrough (p : Procedure) (a : Arena) (b : Nat) (types : TypeSeq) :
    Except Crash TypeSeq := do
  typesAlong a b 0 types (← blockAt p b).ops

/-- The types on entry to each block that can be reached. -/
def registerTypes (p : Procedure) (entries : Dataflow.Entries SlotStates) (a : Arena) :
    Except Crash (Dataflow.Entries TypeSeq) :=
  solve (p.typeAnalysis entries) (typesThrough p a)

/-! ### Lines -/

/-- The slot of a register. -/
def slot (states : SlotStates) (r : Nat) : Except Crash SlotRef := do
  match ← stateOf states r with
  | .plain => pure ⟨r, .direct⟩
  | .captured => pure ⟨r, .boxed⟩

/-- An operand as a source. -/
def source (states : SlotStates) : Operand → Except Crash Source
  | .register r => .slot <$> slot states r
  | .const c => .ok (.const c)

/-- Arguments as sources. -/
def sources (states : SlotStates) (args : Args) : Except Crash SourceList := do
  pure ⟨← args.fixed.mapM (source states), args.spread⟩

/-- The receiver of results. -/
def receiver (states : SlotStates) : Results → Except Crash Receiver
  | .multi => .ok .multi
  | .fixed [] => .ok .discard
  | .fixed [r] => .one <$> slot states r
  | .fixed rs => .fixed <$> rs.mapM (slot states)

/-- The registers in a state, of some. -/
def inState (states : SlotStates) (s : SlotState) : List Nat → Except Crash (List Nat)
  | [] => .ok []
  | r :: rs => do
    let s' ← stateOf states r
    let rest ← inState states s rs
    pure (if s' = s then r :: rest else rest)

/-- Arithmetic: at once when both operands are known to be numbers, otherwise a question. -/
def lowerArith (info : RegisterInfo) (op : ArithOp) (dst : Nat) (a b : Operand) :
    Except Crash (List Line) := do
  let dst ← slot info.states dst
  let left ← operandType info a
  let right ← operandType info b
  let x ← source info.states a
  let y ← source info.states b
  if left.isNumeric && right.isNumeric then pure [.instr (.arithRaw op dst x y)]
  else pure (Line.askInto (.arith op x y) (.one dst))

/-- The lines of an operation, between the states before and after it. -/
def lowerOp (p : Procedure) (info : RegisterInfo) (after : SlotStates) (op : Op) :
    Except Crash (List Line) :=
  let states := info.states
  match op with
  | .move dst src => do
    pure [.instr (.move (← slot states dst) (.slot (← slot states src)))]
  | .load dst value => do pure [.instr (.move (← slot states dst) (.const value))]
  | .getUpvalue dst i => do pure [.instr (.getUpvalue (← slot states dst) i)]
  | .setUpvalue i src => do pure [.instr (.setUpvalue i (← source states src))]
  | .newTable dst => do pure [.instr (.newTable (← slot states dst))]
  | .setIndex table key value => do
    pure [.instr (.setIndex (← slot states table) (← source states key) (← source states value))]
  | .index dst table key => do
    pure (Line.askInto (.index (← source states table) (← source states key))
      (.one (← slot states dst)))
  | .arith dst op a b => lowerArith info op dst a b
  | .unary dst .negate src => lowerArith info .negate dst src src
  | .unary dst .not src => do pure [.instr (.not (← slot states dst) (← source states src))]
  | .unary dst .length src => do
    pure (Line.askInto (.length (← source states src)) (.one (← slot states dst)))
  | .compare dst op a b => do
    pure [.instr (.compare op (← slot states dst) (← source states a) (← source states b))]
  | .call target args results => do
    pure (Line.askInto (.call (← slot states target) (← sources states args))
      (← receiver states results))
  | .closure dst proto => do
    let plain ← inState states .plain (← capturedBy p proto)
    pure (Line.captureAll (firstAppearances plain) ++ [.instr (.closure (← slot after dst) proto)])
  | .close rs => do
    pure ((← inState states .captured rs).map fun r => .instr (.uncapture r))
  | .vararg results => do pure [.instr (.vararg (← receiver states results))]

/-- The lines of some operations of a block, the first of which is operation `i`, with the types
after them. -/
def lowerOps (p : Procedure) (a : Arena) (b : Nat) :
    Nat → TypeSeq → List Op → Except Crash (List Line × TypeSeq)
  | _, types, [] => .ok ([], types)
  | i, types, op :: ops => do
    let before ← a.statesAt b i
    let after ← a.statesAt b (i + 1)
    let lines ← lowerOp p ⟨before, types⟩ after op
    let next ← typeFlow op before after types
    let (rest, final) ← lowerOps p a b (i + 1) next ops
    pure (lines ++ rest, final)

/-- The lines of the edge to a block. -/
def lowerEdge (a : Arena) (states : SlotStates) (target : Nat) : Except Crash (List Line) := do
  let expected ← a.statesAt target 0
  pure (Line.captureAll (states.newlyCaptured expected) ++ [.jump target])

/-- The lines of an exit. -/
def lowerExit (a : Arena) (states : SlotStates) : Exit → Except Crash (List Line)
  | .jump target => lowerEdge a states target
  | .branch cond ifTrue ifFalse => do
    let cond ← slot states cond
    let taken ← lowerEdge a states ifTrue
    let skipped ← lowerEdge a states ifFalse
    pure (.skipUnless cond taken.length :: taken ++ skipped)
  | .ret args => do pure [.instr (.ret (← sources states args))]
  | .tailCall target args => do
    pure [.instr (.tailCall (← slot states target) (← sources states args))]

/-- The shape of what an exit returns, if it leaves the procedure. -/
def returnShape? (info : RegisterInfo) : Exit → Except Crash (Option TypeSeq)
  | .ret args => do pure (some ⟨← args.fixed.mapM (operandType info), args.spread⟩)
  | .tailCall _ _ => .ok (some .vararg)
  | _ => .ok none

/-- The types on entry to a block. -/
def typesAt (types : Dataflow.Entries TypeSeq) (b : Nat) : Except Crash TypeSeq :=
  match types[b]? with
  | some (some known) => .ok known
  | _ => .error (.noTypes b)

/-- The lines of a block that can be reached, and the shape of what it returns. -/
def lowerBlock (p : Procedure) (a : Arena) (types : Dataflow.Entries TypeSeq)
    (block : Block × Nat) : Except Crash (Option (List Line × Option TypeSeq)) :=
  if a.isReachable block.2 then do
    let known ← typesAt types block.2
    let (lines, final) ← lowerOps p a block.2 0 known block.1.ops
    let states ← a.statesAt block.2 block.1.ops.length
    let shape ← returnShape? ⟨states, final⟩ block.1.exit
    let exit ← lowerExit a states block.1.exit
    pure (some (lines ++ exit, shape))
  else .ok none

/-- Lines before the first block. -/
def prologue (p : Procedure) (a : Arena) : Except Crash (List Line) := do
  let entry ← a.statesAt 0 0
  pure (Line.captureAll (SlotStates.newlyCaptured (List.replicate p.registers .plain) entry))

/-! ### Code -/

/-- Where a jump or a branch goes on. -/
inductive Target where
  /-- The first line of a block. -/
  | block (b : Nat)
  | address (n : Nat)
deriving DecidableEq, Repr

/-- The target of what is laid out before its target is known. -/
def unknown : Nat := UInt64.size - 1

/-- The instructions of some lines from an address and a resumption point on, with targets left
open, and the addresses at which they are, with the targets. -/
def draft (address point : Nat) : List Line → List Instr × List (Nat × Target)
  | [] => ([], [])
  | line :: lines =>
    let (instrs, fixups) := draft (address + 1) (Assembly.nextPoint point line) lines
    match line with
    | .instr i => (i :: instrs, fixups)
    | .ask question => (.ask question point :: instrs, fixups)
    | .jump b => (.jump unknown :: instrs, (address, .block b) :: fixups)
    | .skipUnless cond count =>
      (.jumpIfFalse cond unknown :: instrs, (address, .address (address + 1 + count)) :: fixups)

/-- The address of a target, where `starts` are those of the blocks that are laid out. -/
def resolve (starts : List (Option Nat)) : Target → Except Crash Nat
  | .block b =>
    match starts[b]? with
    | some (some start) => .ok start
    | some none => .error (.noAddress b)
    | none => .error (.noBlock b)
  | .address n => .ok n

/-- The instruction with another target, if it has one. -/
def withTarget (n : Nat) : Instr → Instr
  | .jump _ => .jump n
  | .jumpIfFalse cond _ => .jumpIfFalse cond n
  | i => i

/-- The instructions with the target of one filled in. -/
def patch (starts : List (Option Nat)) (instrs : List Instr) (fixup : Nat × Target) :
    Except Crash (List Instr) := do
  let n ← resolve starts fixup.2
  match instrs[fixup.1]? with
  | some i => pure (instrs.set fixup.1 (withTarget n i))
  | none => .error (.noInstr fixup.1)

/-- The instructions of some lines, with all targets filled in. -/
def link (starts : List (Option Nat)) (lines : List Line) : Except Crash (List Instr) :=
  let (instrs, fixups) := draft 0 1 lines
  fixups.foldlM (patch starts) instrs

/-- The code of a procedure, given the code of those nested in it. -/
def assemble (p : Procedure) (nested : List Code) : Except Crash Code := do
  let entries ← captures p
  let a ← arena p entries
  let types ← registerTypes p entries a
  let prologue ← prologue p a
  let laidOut ← p.blocks.zipIdx.mapM (lowerBlock p a types)
  let blocks := laidOut.map (·.getD ([], none))
  let lines := prologue ++ (blocks.map (·.1)).flatten
  let starts := Assembly.starts prologue.length (blocks.map (·.1))
  let addresses := laidOut.zipWith (fun block start => block.map fun _ => start) starts
  let instrs ← link addresses lines
  pure {
    name := p.name
    params := p.params
    isVararg := p.isVararg
    registers := p.registers
    instrs := instrs.toArray
    resumeTable := Assembly.resumeTable lines
    upvalues := p.upvalues
    nested := nested
    returns := Procedure.returnType (blocks.filterMap (·.2)) }

mutual

/-- The code of a procedure, or the rule that it breaks. -/
def compile : Procedure → Except Crash (Except GraphError Code)
  | p@⟨_, _, _, _, _, _, nested⟩ =>
    match p.check with
    | .error e => .ok (.error e)
    | .ok () => do
      match ← compileAll nested with
      | .error e => pure (.error e)
      | .ok codes => .ok <$> assemble p codes

/-- The code of some procedures, in order. -/
def compileAll : List Procedure → Except Crash (Except GraphError (List Code))
  | [] => .ok (.ok [])
  | p :: ps => do
    match ← compile p with
    | .error e => pure (.error e)
    | .ok code =>
      match ← compileAll ps with
      | .error e => pure (.error e)
      | .ok codes => pure (.ok (code :: codes))

end

end Checked

end ResumableVM
