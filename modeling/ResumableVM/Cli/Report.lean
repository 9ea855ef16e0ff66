import ResumableVM.Cli.Command
import ResumableVM.Code.Listing
import ResumableVM.Code.Summary
import ResumableVM.Compile.Basic
import ResumableVM.Graph.Document
import ResumableVM.Json.Writer
import ResumableVM.Machine.Configuration
import ResumableVM.Machine.Host

/-! # Report: what a command prints and how it ends

A command reads its configuration, then the file it is about, and stops at the first of them that
cannot be used. What it prints, its exit code and the message of a failure make up a `Report`. Files
are read in any monad, so that a command can be carried out on files that are only given. -/

namespace ResumableVM.Cli

/-- What a command prints, and how it ends. -/
structure Report where
  code : Nat
  output : String
  /-- The first line of the message when the command fails. -/
  failure : Option String
deriving DecidableEq, Repr

namespace Report

/-- A command that succeeds. -/
def success (output : String) : Report := ⟨0, output, none⟩

/-- A command that fails, after printing something. -/
def failed (output message : String) : Report := ⟨1, output, some ("Error: " ++ message)⟩

/-- A command line that cannot be carried out. -/
def misuse (e : UsageError) : Report := ⟨2, "", some ("error: " ++ e.message)⟩

/-- A command that a defect of the machine brings down. -/
def broken (output : String) (d : Defect) : Report := ⟨101, output, some d.message⟩

end Report

/-- The name and the version of the program. -/
def versionText : String := "lunaria 0.1.0\n"

/-- How the program is used. -/
def helpText : String :=
  "Compile and run procedure graphs\n\n" ++
    "Usage: lunaria [--config FILE] COMMAND\n\n" ++
    "Commands:\n" ++
    "  run FILE [ARGS]...  Run a procedure graph\n" ++
    "  check FILE          Check that a procedure graph compiles\n" ++
    "  inspect FILE        Show what a compiled procedure is like\n" ++
    "  disassemble FILE    List the code of a procedure\n\n" ++
    "Options:\n" ++
    "  --config FILE       Limits of the machine (TOML)\n" ++
    "  --debug-bytecode    With run: list the code first\n" ++
    "  -h, --help          Show this text\n" ++
    "  -V, --version       Show the version\n"

/-- The bound on the steps of a call, more than any machine can carry out. -/
def patience : Nat := 1000000000000000000

/-- The value that an argument spells: nil, a truth value, a number, or the string itself. -/
def argumentValue (text : String) : Value :=
  match text with
  | "nil" => .nil
  | "true" => .boolean true
  | "false" => .boolean false
  | _ =>
    match Numeral.integer64? text.toList, Numeral.float? text.toList with
    | some n, _ => .integer n
    | none, some x => .float x
    | none, none => .string text

/-- Values on one line. -/
def valuesLine (vs : List Value) : String := "\t".intercalate (vs.map Value.display) ++ "\n"

/-- The report of a compilation that succeeded. -/
def checkText (code : Code) : String :=
  "✓ Compilation OK\n" ++
    if code.isResumable then "  " ++ naturalText code.pointCount ++ " resumption points\n"
    else "  never suspends\n"

/-- Run code, resuming every suspension without values. -/
def runReport (limits : Limits) (code : Code) (args : List String) (showsCode : Bool) : Report :=
  let listing := if showsCode then code.listingText else ""
  match (Machine.standard limits).instantiate code with
  | .error e => .failed listing e.message
  | .ok (id, m) =>
    let answer := m.complete patience (fun _ _ => ((), [])) () (.closure id)
      (args.map argumentValue)
    match answer with
    | some (.done _ vs, _) => .success (listing ++ valuesLine vs)
    | some (.failed _ e, _) => .failed listing e.message
    | some (.broken d, _) => .broken listing d
    | _ => .failed listing "the call does not end"

/-- The report on code that has been compiled. -/
def codeReport (limits : Limits) (code : Code) : Command → Report
  | .run _ args showsCode => runReport limits code args showsCode
  | .check _ => .success (checkText code)
  | .inspect _ => .success (code.summary.pretty ++ "\n")
  | .disassemble file =>
    .success ("Disassembly of '" ++ file ++ "':\n\n" ++ code.listingText)

/-- The file that a command is about. -/
def Command.file : Command → String
  | run file _ _ | check file | inspect file | disassemble file => file

/-- What keeps a file from being used. -/
def fileMessage (problem file : String) : String := problem ++ " '" ++ file ++ "'"

/-- The limits that a text sets, or why the file that holds it cannot be used. -/
def limitsOf (path : String) (text : Option String) : Except String Limits :=
  match text.map Limits.ofText with
  | some (.ok limits) => .ok limits
  | _ => .error (fileMessage "Failed to load configuration" path)

/-- The code of the procedure in a text, or why the file that holds it cannot be used. -/
def codeOf (file : String) (text : Option String) : Except String Code :=
  match text with
  | none => .error (fileMessage "Error reading file" file)
  | some text =>
    match Procedure.ofText? text with
    | none => .error (fileMessage "Invalid procedure graph in" file)
    | some p =>
      match p.compile with
      | .ok code => .ok code
      | .error _ => .error (fileMessage "Compilation error in" file)

/-- The report on a command, from the texts of its files. -/
def commandReport (command : Command) (limits : Except String Limits) (text : Option String) :
    Report :=
  match limits with
  | .error message => .failed "" message
  | .ok limits =>
    match codeOf command.file text with
    | .error message => .failed "" message
    | .ok code => codeReport limits code command

/-- The **report on a command line**; `read` gives the text of a file that can be read. -/
def report {m : Type → Type} [Monad m] (read : String → m (Option String)) (args : List String) :
    m Report :=
  match Invocation.ofArguments args with
  | .error .help => pure (.success helpText)
  | .error .version => pure (.success versionText)
  | .error (.mistake e) => pure (.misuse e)
  | .ok ⟨config, command⟩ => do
    let limits ← match config with
      | some path => limitsOf path <$> read path
      | none => pure (.ok .standard)
    pure (commandReport command limits (← read command.file))

end ResumableVM.Cli
