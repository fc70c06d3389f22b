import SyntaxLowering.Command.Run

/-!
# The program

The command line on the files of the system.
-/

namespace SyntaxLowering.Command

/-- Runs an action that may fail; a failure is a value. -/
def attempt (action : IO Unit) : IO (Except String Unit) := do
  try
    action
    return .ok ()
  catch e => return .error e.toString

/-- The files and the standard output of the system. -/
def systemHost : Host IO where
  readText path := do
    try
      return some (← IO.FS.readFile path)
    catch _ => return none
  createDirectories path := attempt do
    unless path.isEmpty do IO.FS.createDirAll path
  writeText path content := attempt (IO.FS.writeFile path content)
  printLine line := IO.println line

end SyntaxLowering.Command

open SyntaxLowering

/-- Carries out the arguments, and reports on the standard error. -/
def main (args : List String) : IO UInt32 := do
  let exit ← Command.run Command.systemHost args
  if let some stop := exit.usage then
    IO.eprintln ("error: " ++ stop.message)
  for failure in exit.failures do
    IO.eprintln failure.message
  if let some error := exit.error then
    IO.eprintln ("Error: " ++ error)
  return UInt32.ofNat exit.code
