import MessageSelector.Command.Line

/-!
# The command line program

Reads standard input only if the command needs a message that its line does not give.
-/

open MessageSelector in
/-- Answers a command line on the standard streams. -/
def main (words : List String) : IO UInt32 := do
  let needsInput := ((CommandLine.read? words).map (·.readsInput)).getD false
  let given ← if needsInput then (← IO.getStdin).readToEnd else pure ""
  let outcome := CommandLine.answer words given
  IO.print outcome.stdout
  IO.eprint outcome.stderr
  return UInt32.ofNat outcome.exitCode
