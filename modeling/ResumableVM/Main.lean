import ResumableVM.Cli.Report

/-! # Main: the program

The program carries out one command on the files of the machine it runs on. -/

open ResumableVM

/-- The text of a file, if it can be read. -/
def readText (path : String) : IO (Option String) := do
  try
    let text ← IO.FS.readFile path
    pure (some text)
  catch _ => pure none

/-- Carry out a command line. -/
def main (args : List String) : IO UInt32 := do
  let report ← Cli.report readText args
  IO.print report.output
  if let some message := report.failure then IO.eprintln message
  pure report.code.toUInt32
