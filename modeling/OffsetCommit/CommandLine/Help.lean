import OffsetCommit.CommandLine.Option

/-!
# The help text

The explanation of the options, one paragraph each, filled to a width of one hundred columns.
-/

namespace OffsetCommit.CommandLine

/-- The program with its version. -/
def versionLine : String := "dispatch-sim 0.1.0"

/-- What the program does. -/
def aboutLine : String :=
  "Out-of-order offset commit tracking for the Relay dispatch data plane"

/-- What an option means and its default. -/
def Flag.help : Flag → String
  | partitions => "Number of partitions to consume [default: 4]"
  | records => "Records read from each partition [default: 10000]"
  | seed => "Seed for outcomes, delays and commit faults [default: 42]"
  | topic => "Topic name [default: relay-sim]"
  | deadLetterRate =>
      "Probability that subscriber delivery fails and the record goes to the dead-letter sink " ++
        "[default: 0.05]"
  | deadLetterFailRate => "Probability that a dead-letter delivery fails too [default: 0.2]"
  | discardRate => "Probability that a record does not pass the filter [default: 0.1]"
  | commitFailRate => "Probability that a commit is rejected by the consumer [default: 0.0]"
  | maxDelay => "Upper bound of the random dispatch latency per record [default: 2]"
  | shrinkThreshold => "Tracker bitmap blocks kept across a reset [default: 128]"
  | logLevel => "Log level (trace, debug, info, warn, error) [default: info]"

/-- The name under which an option's value is explained: the option's name in capitals. -/
def Flag.valueName (flag : Flag) : String :=
  String.ofList (flag.name.toList.map fun c => if c = '-' then '_' else c.toUpper)

/-- Fills lines with words. A line takes the next word as long as it stays within the width. -/
def fill (width : Nat) (line : String) : List String → List String
  | [] => [line]
  | word :: rest =>
      let longer := if line.isEmpty then word else line ++ " " ++ word
      if line.isEmpty ∨ longer.length ≤ width then fill width longer rest
      else line :: fill width word rest

/-- A paragraph, moved in by ten columns. -/
def paragraph (text : String) : List String :=
  (fill 90 "" (text.splitOn " ")).map fun line => "          " ++ line

/-- The explanation of an option. -/
def Flag.helpLines (flag : Flag) : List String :=
  ("      --" ++ flag.name ++ " <" ++ flag.valueName ++ ">") :: paragraph flag.help

/-- The whole help text. -/
def helpLines : List String :=
  [aboutLine, "", "Usage: dispatch-sim [OPTIONS]", "", "Options:"]
    ++ Flag.all.flatMap Flag.helpLines
    ++ ["  -h, --help"] ++ paragraph "Print help"
    ++ ["  -V, --version"] ++ paragraph "Print version"

end OffsetCommit.CommandLine
