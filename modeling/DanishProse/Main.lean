/-
  The program: reads its arguments and the file that they name, and prints.
-/
import DanishProse.CommandLine

open DanishProse

/-- The text of a file that can be read. -/
def readSource (name : String) : IO (Option String) := do
  try
    return some (← IO.FS.readFile name)
  catch _ =>
    return none

/-- Prints what the command says.  It never fails. -/
def main (arguments : List String) : IO Unit := do
  let command := Command.parse arguments
  let source ← match command.file? with
    | some name => readSource name
    | none => pure none
  let out ← IO.getStdout
  out.putStr (command.output source)
  out.flush
