import SymVec.CommandLine.Answer

/-!
# The program

Runs the command line: reads the file that it names, prints the answer, and ends with the exit code
of a failure. Warnings and failures go to standard error.
-/

open SymVec

/-- The text of a file, if it can be read as text. -/
def readText? (path : String) : IO (Option String) := do
  try
    let text ← IO.FS.readFile path
    pure (some text)
  catch _ => pure none

/-- A failure with its causes on standard error. -/
def report (failure : Failure) : IO UInt32 := do
  IO.eprintln failure.message
  failure.causes.forM fun cause => IO.eprintln s!"  {cause}"
  pure failure.exitCode.toUInt32

def main (arguments : List String) : IO UInt32 := do
  match Command.parse arguments with
  | .error e => report (.command e)
  | .ok command =>
    let contents ←
      match command.file? with
      | some path => readText? path
      | none => pure none
    match command.answer contents with
    | .error failure => report failure
    | .ok answer =>
      answer.warnings.forM fun warning => IO.eprintln s!"warning: {warning.message}"
      IO.print answer.text
      pure 0
