/-! # Commands: what the arguments of a command line ask for

A command line names a command, a file that it is about, and options. An argument that begins with a
hyphen and is longer than that is an option, wherever it stands, unless two hyphens stand alone
before it. The option for a configuration file may stand before the command or after it, and counts
after it if it stands in both places.

`Invocation.ofArguments` reads the arguments from left to right. A request for help or for the
version ends the reading where it stands, and so does the first mistake. -/

namespace ResumableVM.Cli

/-- A command and what it is about. -/
inductive Command where
  | run (file : String) (args : List String) (showsCode : Bool)
  | check (file : String)
  | inspect (file : String)
  | disassemble (file : String)
deriving DecidableEq, Repr

/-- A mistake in a command line. -/
inductive UsageError where
  | noCommand
  | unknownCommand (name : String)
  | unknownOption (option : String)
  | repeatedOption (option : String)
  | missingValue (option : String)
  | emptyPath
  | missingFile
  | unexpectedArgument (argument : String)
deriving DecidableEq, Repr

namespace UsageError

/-- The mistake in words. -/
def message : UsageError → String
  | noCommand => "no command is given"
  | unknownCommand name => "there is no command '" ++ name ++ "'"
  | unknownOption option => "there is no option '" ++ option ++ "' here"
  | repeatedOption option => "the option '" ++ option ++ "' stands twice"
  | missingValue option => "the option '" ++ option ++ "' needs a value"
  | emptyPath => "the name of a file is empty"
  | missingFile => "no file is given"
  | unexpectedArgument argument => "the argument '" ++ argument ++ "' is one too many"

end UsageError

/-- Why arguments are not read to their end. -/
inductive Interruption where
  | help
  | version
  | mistake (e : UsageError)
deriving DecidableEq, Repr

/-- The commands by name. -/
inductive CommandName where
  | run
  | check
  | inspect
  | disassemble
deriving DecidableEq, Repr

/-- A command with its name. -/
def CommandName.ofText? : String → Option CommandName
  | "run" => some run
  | "check" => some check
  | "inspect" => some inspect
  | "disassemble" => some disassemble
  | _ => none

/-- Options that were given. -/
structure Options where
  config : Option String := none
  showsCode : Bool := false
deriving DecidableEq, Repr

/-- The option for a configuration file. -/
def configOption : String := "--config"

/-- The option to show the code before it runs. -/
def listingOption : String := "--debug-bytecode"

/-- An argument is an option. -/
def isOption (arg : String) : Bool := arg.startsWith "-" && arg != "-"

namespace Options

/-- The options with a configuration file. -/
def withConfig (o : Options) (path : String) : Except Interruption Options :=
  if o.config.isSome then .error (.mistake (.repeatedOption configOption))
  else if path.isEmpty then .error (.mistake .emptyPath)
  else .ok { o with config := some path }

/-- The options with the configuration file that the next argument names. -/
def withNextConfig (o : Options) (path : String) : Except Interruption Options :=
  if isOption path then .error (.mistake (.missingValue configOption)) else o.withConfig path

/-- The options with the listing. -/
def withListing (o : Options) : Except Interruption Options :=
  if o.showsCode then .error (.mistake (.repeatedOption listingOption))
  else .ok { o with showsCode := true }

/-- The options and one that stands in a single argument; `command` is the command it follows. -/
def add (o : Options) (command : Option CommandName) (arg : String) :
    Except Interruption Options :=
  match arg.toList with
  | '-' :: '-' :: 'c' :: 'o' :: 'n' :: 'f' :: 'i' :: 'g' :: '=' :: path =>
    o.withConfig (String.ofList path)
  | '-' :: 'h' :: _ => .error .help
  | '-' :: 'V' :: _ =>
    .error (if command.isNone then .version else .mistake (.unknownOption arg))
  | _ =>
    if arg = "--help" then .error .help
    else if arg = "--version" ∧ command.isNone then .error .version
    else if arg = listingOption ∧ command = some .run then o.withListing
    else .error (.mistake (.unknownOption arg))

end Options

/-- The options of a command and its other arguments in order. -/
def sortArguments (command : CommandName) :
    Options → List String → Except Interruption (Options × List String)
  | o, [] => .ok (o, [])
  | o, arg :: rest =>
    if arg = "--" then .ok (o, rest)
    else if arg = configOption then
      match rest with
      | path :: rest => do sortArguments command (← o.withNextConfig path) rest
      | [] => .error (.mistake (.missingValue configOption))
    else if isOption arg then do sortArguments command (← o.add (some command) arg) rest
    else do
      let (o, others) ← sortArguments command o rest
      pure (o, arg :: others)

/-- The only argument that a command takes. -/
def onlyFile : List String → Except Interruption String
  | [] => .error (.mistake .missingFile)
  | [file] => if file.isEmpty then .error (.mistake .emptyPath) else .ok file
  | _ :: extra :: _ => .error (.mistake (.unexpectedArgument extra))

/-- The command with a name, from the arguments after the name that are no options. -/
def Command.ofArguments (name : CommandName) (showsCode : Bool) (args : List String) :
    Except Interruption Command :=
  match name with
  | .run => do
    let file ← onlyFile (args.take 1)
    pure (.run file args.tail showsCode)
  | .check => .check <$> onlyFile args
  | .inspect => .inspect <$> onlyFile args
  | .disassemble => .disassemble <$> onlyFile args

/-- A command to carry out, with the file that configures it. -/
structure Invocation where
  config : Option String
  command : Command
deriving DecidableEq, Repr

/-- What follows a request for help: nothing, or one command. -/
def helpOn : List String → Interruption
  | [] => .help
  | name :: rest =>
    if (CommandName.ofText? name).isNone ∧ name ≠ "help" then .mistake (.unknownCommand name)
    else match rest with
      | [] => .help
      | extra :: _ => .mistake (.unknownCommand extra)

/-- The invocation whose command comes first. -/
def readCommand (config : Option String) (name : String) (args : List String) :
    Except Interruption Invocation :=
  match CommandName.ofText? name with
  | some command => do
    let (o, others) ← sortArguments command {} args
    pure ⟨o.config <|> config, ← Command.ofArguments command o.showsCode others⟩
  | none => .error (if name = "help" then helpOn args else .mistake (.unknownCommand name))

/-- The invocation that is left to read, with the options so far. -/
def readInvocation : Options → List String → Except Interruption Invocation
  | _, [] => .error (.mistake .noCommand)
  | o, arg :: rest =>
    if arg = "--" then
      .error (.mistake ((rest.head?.map UsageError.unexpectedArgument).getD .noCommand))
    else if arg = configOption then
      match rest with
      | path :: rest => do readInvocation (← o.withNextConfig path) rest
      | [] => .error (.mistake (.missingValue configOption))
    else if isOption arg then do readInvocation (← o.add none arg) rest
    else readCommand o.config arg rest

/-- What **the arguments of a command line** ask for. -/
def Invocation.ofArguments (args : List String) : Except Interruption Invocation :=
  readInvocation {} args

end ResumableVM.Cli
