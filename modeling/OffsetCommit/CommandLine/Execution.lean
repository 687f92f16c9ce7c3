import OffsetCommit.CommandLine.Help
import OffsetCommit.CommandLine.PlainText
import OffsetCommit.CommandLine.Reading

/-!
# Executing a command line

From the arguments to what the program writes and the exit code that it ends with.
-/

namespace OffsetCommit.CommandLine

/-- How a run of the program ends. -/
structure Execution where
  /-- The exit code. -/
  exitCode : UInt32
  /-- The lines on the standard output. -/
  output : List String
  /-- What is said about a failure. -/
  message : Option String
deriving DecidableEq

/-- A text between quotation marks. -/
def quoted (text : String) : String := "\"" ++ text ++ "\""

/-- A refused setting in the notation of a diagnostic, field by field. -/
def diagnostic (cause : InvalidArgument) : String :=
  "InvalidArgument \x7b name: " ++ quoted cause.name ++ ", reason: " ++ quoted cause.reason
    ++ " \x7d"

/-- How an error shows that ends the program before there is a report. -/
def errorText : Error → String
  | .config cause => "Config(" ++ diagnostic cause ++ ")"
  | error => quoted error.message

/-- The failure that a finished simulation ends with, if any. Notifications are never refused
for records that were read, and without faults of the broker no partition falls short. -/
def failure? (s : Simulation.Settings) (r : Simulation.Report) : Option String :=
  if 0 < r.refused then
    some (quoted (toString r.refused ++ " dispatch notifications were rejected"))
  else if r.fallsShort s ∧ s.commitFailRate.atMost 0 then
    some (quoted "committed offsets fell short without commit faults")
  else none

/-- How the program ends with a report. -/
def ending (s : Simulation.Settings) (r : Simulation.Report) : Execution :=
  match failure? s r with
  | some text => ⟨1, r.lines, some ("Error: " ++ text)⟩
  | none => ⟨0, r.lines, none⟩

/-- Runs a simulation as the program does. -/
def simulate (chance : Simulation.Chance) (s : Simulation.Settings) : Execution :=
  match Simulation.run chance s with
  | .error error => ⟨1, [], some ("Error: " ++ errorText error)⟩
  | .ok report => ending s report

/-- What is written behind a refusal. It tells where to find help, with the option in bold. -/
def refusalHint : String :=
  "\n\nFor more information, try '\x1b[1m--help\x1b[0m'.\n"

/-- What is said about a refusal: the first line that shows of it and its hint. A control string
that the refused text leaves open hides what follows, line breaks included, up to the bold type
in the hint. -/
def refusalLine (refusal : String) : String :=
  plainLine (refusal ++ refusalHint)

/-- Executes a command line. -/
def execute (chance : Simulation.Chance) (arguments : List String) : Execution :=
  match read arguments with
  | .error error => ⟨2, [], error.message?.map refusalLine⟩
  | .ok .help => ⟨0, helpLines, none⟩
  | .ok .version => ⟨0, [versionLine], none⟩
  | .ok (.simulate options) => simulate chance options.settings

end OffsetCommit.CommandLine
