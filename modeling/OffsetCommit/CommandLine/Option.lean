import OffsetCommit.Binary64.Reading
import OffsetCommit.Binary64.Shortest
import OffsetCommit.Log
import OffsetCommit.Simulation.Basic

/-!
# The options of the command line

Every option has a name, a default and a kind of value. This module says which texts are values
of which option, and what a value changes in the request for a simulation.
-/

namespace OffsetCommit.CommandLine

/-- What the command line asks for. -/
structure Options where
  /-- The simulation to run. -/
  settings : Simulation.Settings
  /-- The greatest delay of a record's dispatch in milliseconds. The report does not depend on
  how long dispatch takes. -/
  maxDelay : Nat
  /-- The least important events that are logged. The report does not depend on the log. -/
  logLevel : Level
deriving DecidableEq

/-- What is run when nothing is asked for. -/
def Options.standard : Options :=
  { settings :=
      { topic := "relay-sim"
        partitions := 4
        records := 10000
        seed := 42
        deadLetterRate := .ofDecimal false 5 (-2)
        deadLetterFailRate := .ofDecimal false 2 (-1)
        discardRate := .ofDecimal false 1 (-1)
        commitFailRate := .zero
        shrinkThreshold := Config.standard.shrinkThreshold }
    maxDelay := 2
    logLevel := .info }

/-- An option that takes a value. -/
inductive Flag where
  | partitions
  | records
  | seed
  | topic
  | deadLetterRate
  | deadLetterFailRate
  | discardRate
  | commitFailRate
  | maxDelay
  | shrinkThreshold
  | logLevel
deriving DecidableEq, Inhabited

/-- The options in the order in which they are explained. -/
def Flag.all : List Flag :=
  [.partitions, .records, .seed, .topic, .deadLetterRate, .deadLetterFailRate, .discardRate,
    .commitFailRate, .maxDelay, .shrinkThreshold, .logLevel]

/-- The name of an option, which follows two hyphens on the command line. -/
def Flag.name : Flag → String
  | partitions => "partitions"
  | records => "records"
  | seed => "seed"
  | topic => "topic"
  | deadLetterRate => "dead-letter-rate"
  | deadLetterFailRate => "dead-letter-fail-rate"
  | discardRate => "discard-rate"
  | commitFailRate => "commit-fail-rate"
  | maxDelay => "max-delay-ms"
  | shrinkThreshold => "shrink-threshold"
  | logLevel => "log-level"

/-- The option of a given name. -/
def Flag.ofName? (name : String) : Option Flag :=
  Flag.all.find? fun flag => flag.name = name

/-! ## Errors -/

/-- Why a command line is refused. -/
inductive UsageError where
  /-- A rate is not written as a number. -/
  | notANumber (text : String)
  /-- A rate is not a probability. -/
  | notAProbability (rate : Binary64)
  /-- The value of an option is not of its kind. -/
  | invalidValue (flag : Flag) (text : String)
  /-- An option lacks its value. -/
  | missingValue (flag : Flag)
  /-- An option is given twice. -/
  | repeated (flag : Flag)
  /-- An argument is neither an option nor the value of one. -/
  | unexpected (argument : String)
deriving DecidableEq

/-- The wording of a refused rate. The other refusals have none: the exit code says it all. -/
def UsageError.message? : UsageError → Option String
  | notANumber text => some ("invalid rate '" ++ text ++ "', expected a number")
  | notAProbability rate => some ("rate must be between 0 and 1, got " ++ rate.text)
  | invalidValue _ _ => none
  | missingValue _ => none
  | repeated _ => none
  | unexpected _ => none

/-! ## Values -/

/-- Reads decimal digits, if there are any and nothing else. -/
def readDigits? (text : List Char) : Option Nat :=
  if text ≠ [] ∧ text.all Binary64.isDigit then some (Binary64.digitsValue text) else none

/-- Reads a number below a bound, with or without a plus sign. -/
def readNatBelow? (bound : Nat) (text : String) : Option Nat :=
  let digits :=
    match text.toList with
    | '+' :: rest => rest
    | rest => rest
  (readDigits? digits).filter (· < bound)

/-- Reads the number of a partition. A minus sign is read as well, but leaves only zero. -/
def readPartitionNumber? (text : String) : Option Nat :=
  match text.toList with
  | '-' :: digits => (readDigits? digits).filter (· = 0)
  | _ => readNatBelow? UInt32.size text

/-- Reads a probability. -/
def readRate (text : String) : Except UsageError Binary64 :=
  match Binary64.ofText? text with
  | none => .error (.notANumber text)
  | some rate =>
      if rate.atLeast 0 ∧ rate.atMost 1 then .ok rate else .error (.notAProbability rate)

/-- Reads a log level: its name in any case, or its number from one, for errors only, to five. -/
def readLevel? (text : String) : Option Level :=
  let levels : List (Level × Nat × String) :=
    [(.error, 1, "error"), (.warn, 2, "warn"), (.info, 3, "info"), (.debug, 4, "debug"),
      (.trace, 5, "trace")]
  let number := readNatBelow? UInt64.size text
  let lower := text.toList.map Char.toLower
  (levels.find? fun (_, n, name) => number = some n ∨ lower = name.toList).map (·.1)

/-- Reads the value of an option into what is asked for. -/
def Flag.assign (flag : Flag) (text : String) (o : Options) : Except UsageError Options :=
  let natural := fun (bound : Nat) (set : Nat → Options) =>
    match readNatBelow? bound text with
    | some n => .ok (set n)
    | none => .error (.invalidValue flag text)
  let rate := fun (set : Binary64 → Simulation.Settings) =>
    (readRate text).map fun r => { o with settings := set r }
  let s := o.settings
  match flag with
  | partitions =>
      match readPartitionNumber? text with
      | some n => .ok { o with settings := { s with partitions := n } }
      | none => .error (.invalidValue flag text)
  | records => natural UInt64.size fun n => { o with settings := { s with records := n } }
  | seed => natural UInt64.size fun n => { o with settings := { s with seed := .ofNat n } }
  | topic => .ok { o with settings := { s with topic := text } }
  | deadLetterRate => rate fun r => { s with deadLetterRate := r }
  | deadLetterFailRate => rate fun r => { s with deadLetterFailRate := r }
  | discardRate => rate fun r => { s with discardRate := r }
  | commitFailRate => rate fun r => { s with commitFailRate := r }
  | maxDelay => natural UInt64.size fun n => { o with maxDelay := n }
  | shrinkThreshold =>
      natural UInt64.size fun n => { o with settings := { s with shrinkThreshold := n } }
  | logLevel =>
      match readLevel? text with
      | some level => .ok { o with logLevel := level }
      | none => .error (.invalidValue flag text)

end OffsetCommit.CommandLine
