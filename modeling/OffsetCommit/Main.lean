import OffsetCommit.CommandLine.Execution

/-!
# The program

Executes the command line: the report goes to the standard output, and what is said about a
failure to the standard error. The source of chance is the one at hand, `Chance.ofDraws`.
-/

/-- The entry point of the program. -/
def main (arguments : List String) : IO UInt32 := do
  let execution := OffsetCommit.CommandLine.execute .ofDraws arguments
  for line in execution.output do
    IO.println line
  if let some message := execution.message then
    IO.eprintln message
  return execution.exitCode
