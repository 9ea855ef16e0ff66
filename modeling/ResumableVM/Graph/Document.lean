import ResumableVM.Graph.Basic
import ResumableVM.Json.Decoder
import ResumableVM.Json.Writer

/-! # Procedures in documents

Every type of the graph has a decoder and a writer. Operations, exits, operands and the other
choices are variants, so their names appear in the document; procedures and blocks are records. What
may be absent on reading (a vararg flag, upvalues, nested procedures, a spread flag) is always
written. -/

namespace ResumableVM

open Decoder

/-- A variant with one payload. -/
def variantJson (name : String) (payload : Json) : Json := .ofMembers [(name, payload)]

/-- A variant that carries a record. -/
def recordJson (name : String) (fields : List (String × Json)) : Json :=
  variantJson name (.ofMembers fields)

namespace Const

/-- A literal. -/
def decoder : Decoder Const := fun depth j => do
  match ← variant? depth j with
  | ("Nil", payload) => if isUnit payload then pure nil else none
  | ("Boolean", payload) => boolean <$> required Decoder.boolean (depth - 1) payload
  | ("Integer", payload) => integer <$> required integer64 (depth - 1) payload
  | ("Float", payload) => float <$> required Decoder.float (depth - 1) payload
  | ("String", payload) => string <$> required Decoder.string (depth - 1) payload
  | _ => none

/-- The literal as a document. -/
def toJson : Const → Json
  | nil => .ofString "Nil"
  | boolean b => variantJson "Boolean" (.boolean b)
  | integer n => variantJson "Integer" (.ofInt n.toInt)
  | float x => variantJson "Float" (.number (.real x))
  | string s => variantJson "String" (.ofString s)

end Const

namespace Operand

/-- A register or a literal. -/
def decoder : Decoder Operand := fun depth j => do
  match ← variant? depth j with
  | ("Reg", payload) => register <$> required word16 (depth - 1) payload
  | ("Const", payload) => const <$> required Const.decoder (depth - 1) payload
  | _ => none

/-- The operand as a document. -/
def toJson : Operand → Json
  | register r => variantJson "Reg" (.ofNat r)
  | const c => variantJson "Const" c.toJson

end Operand

/-- A list of registers as a document. -/
def registersJson (rs : List Nat) : Json := .array (rs.map Json.ofNat)

namespace Results

/-- A place for results. -/
def decoder : Decoder Results := fun depth j => do
  match ← variant? depth j with
  | ("Multi", payload) => if isUnit payload then pure multi else none
  | ("Fixed", payload) => fixed <$> required (list word16) (depth - 1) payload
  | _ => none

/-- The place as a document. -/
def toJson : Results → Json
  | fixed rs => variantJson "Fixed" (registersJson rs)
  | multi => .ofString "Multi"

end Results

namespace Args

/-- Arguments; they spread only if they say so. -/
def decoder : Decoder Args := fun depth j => do
  match ← fields ["fixed", "spread"] depth j with
  | [fixed, spread] =>
    pure ⟨← required (list Operand.decoder) (depth - 1) fixed,
      ← withDefault boolean false (depth - 1) spread⟩
  | _ => none

/-- The arguments as a document. -/
def toJson (args : Args) : Json :=
  .ofMembers [("fixed", .array (args.fixed.map Operand.toJson)), ("spread", .boolean args.spread)]

end Args

namespace CaptureSource

/-- A captured register or upvalue. -/
def decoder : Decoder CaptureSource := fun depth j => do
  match ← variant? depth j with
  | ("Local", payload) => register <$> required word16 (depth - 1) payload
  | ("Upvalue", payload) => upvalue <$> required word16 (depth - 1) payload
  | _ => none

/-- The capture as a document. -/
def toJson : CaptureSource → Json
  | register r => variantJson "Local" (.ofNat r)
  | upvalue i => variantJson "Upvalue" (.ofNat i)

end CaptureSource

/-- An arithmetic operator by name. -/
def ArithOp.decoder : Decoder ArithOp := unitVariant ArithOp.ofName?

/-- A unary operator by name. -/
def UnaryOp.decoder : Decoder UnaryOp := unitVariant UnaryOp.ofName?

/-- A comparison operator by name. -/
def CompareOp.decoder : Decoder CompareOp := unitVariant CompareOp.ofName?

namespace Op

/-- The fields of each operation, in order. -/
def fieldNames : String → Option (List String)
  | "Move" => some ["dst", "src"]
  | "Load" => some ["dst", "value"]
  | "GetUpvalue" => some ["dst", "index"]
  | "SetUpvalue" => some ["index", "src"]
  | "NewTable" => some ["dst"]
  | "Index" => some ["dst", "table", "key"]
  | "SetIndex" => some ["table", "key", "value"]
  | "Arith" => some ["dst", "op", "a", "b"]
  | "Unary" => some ["dst", "op", "src"]
  | "Compare" => some ["dst", "op", "a", "b"]
  | "Call" => some ["target", "args", "results"]
  | "Closure" => some ["dst", "proto"]
  | "Close" => some ["regs"]
  | "Vararg" => some ["results"]
  | _ => none

/-- An operation from its name and the values of its fields. -/
def ofFields? (depth : Nat) : String → List (Option Json) → Option Op
  | "Move", [dst, src] => do pure (move (← required word16 depth dst) (← required word16 depth src))
  | "Load", [dst, value] => do
    pure (load (← required word16 depth dst) (← required Const.decoder depth value))
  | "GetUpvalue", [dst, i] => do
    pure (getUpvalue (← required word16 depth dst) (← required word16 depth i))
  | "SetUpvalue", [i, src] => do
    pure (setUpvalue (← required word16 depth i) (← required Operand.decoder depth src))
  | "NewTable", [dst] => do pure (newTable (← required word16 depth dst))
  | "Index", [dst, table, key] => do
    pure (index (← required word16 depth dst) (← required Operand.decoder depth table)
      (← required Operand.decoder depth key))
  | "SetIndex", [table, key, value] => do
    pure (setIndex (← required word16 depth table) (← required Operand.decoder depth key)
      (← required Operand.decoder depth value))
  | "Arith", [dst, op, a, b] => do
    pure (arith (← required word16 depth dst) (← required ArithOp.decoder depth op)
      (← required Operand.decoder depth a) (← required Operand.decoder depth b))
  | "Unary", [dst, op, src] => do
    pure (unary (← required word16 depth dst) (← required UnaryOp.decoder depth op)
      (← required Operand.decoder depth src))
  | "Compare", [dst, op, a, b] => do
    pure (compare (← required word16 depth dst) (← required CompareOp.decoder depth op)
      (← required Operand.decoder depth a) (← required Operand.decoder depth b))
  | "Call", [target, args, results] => do
    pure (call (← required word16 depth target) (← required Args.decoder depth args)
      (← required Results.decoder depth results))
  | "Closure", [dst, proto] => do
    pure (closure (← required word16 depth dst) (← required word64 depth proto))
  | "Close", [regs] => do pure (close (← required (list word16) depth regs))
  | "Vararg", [results] => do pure (vararg (← required Results.decoder depth results))
  | _, _ => none

/-- An operation. -/
def decoder : Decoder Op := fun depth j => do
  let (name, payload) ← variant? depth j
  let values ← fields (← fieldNames name) (depth - 1) (← payload)
  ofFields? (depth - 2) name values

/-- The operation as a document. -/
def toJson : Op → Json
  | move dst src => recordJson "Move" [("dst", .ofNat dst), ("src", .ofNat src)]
  | load dst value => recordJson "Load" [("dst", .ofNat dst), ("value", value.toJson)]
  | getUpvalue dst i => recordJson "GetUpvalue" [("dst", .ofNat dst), ("index", .ofNat i)]
  | setUpvalue i src => recordJson "SetUpvalue" [("index", .ofNat i), ("src", src.toJson)]
  | newTable dst => recordJson "NewTable" [("dst", .ofNat dst)]
  | index dst table key =>
    recordJson "Index" [("dst", .ofNat dst), ("table", table.toJson), ("key", key.toJson)]
  | setIndex table key value =>
    recordJson "SetIndex" [("table", .ofNat table), ("key", key.toJson), ("value", value.toJson)]
  | arith dst op a b =>
    recordJson "Arith" [("dst", .ofNat dst), ("op", .ofString op.name), ("a", a.toJson),
      ("b", b.toJson)]
  | unary dst op src =>
    recordJson "Unary" [("dst", .ofNat dst), ("op", .ofString op.name), ("src", src.toJson)]
  | compare dst op a b =>
    recordJson "Compare" [("dst", .ofNat dst), ("op", .ofString op.name), ("a", a.toJson),
      ("b", b.toJson)]
  | call target args results =>
    recordJson "Call" [("target", .ofNat target), ("args", args.toJson),
      ("results", results.toJson)]
  | closure dst proto => recordJson "Closure" [("dst", .ofNat dst), ("proto", .ofNat proto)]
  | close rs => recordJson "Close" [("regs", registersJson rs)]
  | vararg results => recordJson "Vararg" [("results", results.toJson)]

end Op

namespace Exit

/-- The exit of a block. -/
def decoder : Decoder Exit := fun depth j => do
  let (name, payload) ← variant? depth j
  match name with
  | "Jump" => jump <$> required word64 (depth - 1) payload
  | "Return" => ret <$> required Args.decoder (depth - 1) payload
  | "Branch" =>
    match ← fields ["cond", "then_block", "else_block"] (depth - 1) (← payload) with
    | [cond, ifTrue, ifFalse] =>
      pure (branch (← required word16 (depth - 2) cond) (← required word64 (depth - 2) ifTrue)
        (← required word64 (depth - 2) ifFalse))
    | _ => none
  | "TailCall" =>
    match ← fields ["target", "args"] (depth - 1) (← payload) with
    | [target, args] =>
      pure (tailCall (← required word16 (depth - 2) target)
        (← required Args.decoder (depth - 2) args))
    | _ => none
  | _ => none

/-- The exit as a document. -/
def toJson : Exit → Json
  | jump target => variantJson "Jump" (.ofNat target)
  | branch cond ifTrue ifFalse =>
    recordJson "Branch" [("cond", .ofNat cond), ("then_block", .ofNat ifTrue),
      ("else_block", .ofNat ifFalse)]
  | ret args => variantJson "Return" args.toJson
  | tailCall target args =>
    recordJson "TailCall" [("target", .ofNat target), ("args", args.toJson)]

end Exit

namespace Block

/-- A block. -/
def decoder : Decoder Block := fun depth j => do
  match ← fields ["ops", "exit"] depth j with
  | [ops, exit] =>
    pure ⟨← required (list Op.decoder) (depth - 1) ops, ← required Exit.decoder (depth - 1) exit⟩
  | _ => none

/-- The block as a document. -/
def toJson (b : Block) : Json :=
  .ofMembers [("ops", .array (b.ops.map Op.toJson)), ("exit", b.exit.toJson)]

end Block

namespace Procedure

/-- The fields of a procedure, in order. -/
def fieldNames : List String :=
  ["name", "params", "is_vararg", "registers", "upvalues", "blocks", "nested"]

/-- A procedure. Its blocks and its nested procedures are lists, so two containers at least must be
left to open. -/
def decoder : Decoder Procedure
  | depth + 2, j => do
    match ← fields fieldNames (depth + 2) j with
    | [name, params, isVararg, registers, upvalues, blocks, nested] =>
      let nestedProcedures ← match nested with
        | none => some []
        | some (.array items) => items.mapM (decoder depth)
        | some _ => none
      pure {
        name := ← required string (depth + 1) name
        params := ← required word16 (depth + 1) params
        isVararg := ← withDefault boolean false (depth + 1) isVararg
        registers := ← required word16 (depth + 1) registers
        upvalues := ← withDefault (list CaptureSource.decoder) [] (depth + 1) upvalues
        blocks := ← required (list Block.decoder) (depth + 1) blocks
        nested := nestedProcedures }
    | _ => none
  | _, _ => none

mutual

/-- The procedure as a document. -/
def toJson : Procedure → Json
  | ⟨name, params, isVararg, registers, upvalues, blocks, nested⟩ =>
    .ofMembers [("name", .ofString name), ("params", .ofNat params),
      ("is_vararg", .boolean isVararg), ("registers", .ofNat registers),
      ("upvalues", .array (upvalues.map CaptureSource.toJson)),
      ("blocks", .array (blocks.map Block.toJson)), ("nested", .array (toJsonAll nested))]

/-- Procedures as documents. -/
def toJsonAll : List Procedure → List Json
  | [] => []
  | p :: ps => toJson p :: toJsonAll ps

end

/-- The procedure written in a text. -/
def ofText? (text : String) : Option Procedure := Decoder.ofText? decoder text

/-- The procedure as a text on many lines. -/
def toText (p : Procedure) : String := p.toJson.pretty

end Procedure

end ResumableVM
