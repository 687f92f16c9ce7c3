import OffsetCommit.Outcome
import OffsetCommit.Error

/-!
# Log lines

What the library reports while it works is a list of typed events: one type for the decisions
of the coordinator and one for the execution of commits. Every event has one line of text,
level, message and fields, which `LogLine.text` writes.
-/

namespace OffsetCommit

/-! ## Lines -/

/-- How much an event matters. -/
inductive Level where
  | error
  | warn
  | info
  | debug
  | trace
deriving DecidableEq, Inhabited

/-- The level as it is written. -/
def Level.text : Level → String
  | error => "ERROR"
  | warn => "WARN"
  | info => "INFO"
  | debug => "DEBUG"
  | trace => "TRACE"

/-- A line of the log before it is written. -/
structure LogLine where
  /-- How much the event matters. -/
  level : Level
  /-- What happened. -/
  message : String
  /-- What it happened to: names with values. -/
  fields : List (String × String)
deriving DecidableEq, Inhabited

/-- The written line: level and message, then each field as name and value with an equals sign
between them, all separated by blanks. -/
def LogLine.text (line : LogLine) : String :=
  " ".intercalate
    (line.level.text :: line.message :: line.fields.map fun field => field.1 ++ "=" ++ field.2)

/-- The two fields that name a partition. -/
def partitionFields (p : Partition) : List (String × String) :=
  [("topic", p.topic), ("partition", p.numberText)]

/-- The three fields that name a place in a partition. -/
def placeFields (p : Partition) (o : Offset) : List (String × String) :=
  partitionFields p ++ [("offset", toString o)]

/-! ## Events of the coordinator -/

/-- What a coordinator reports. -/
inductive DecisionEvent where
  /-- A partition is tracked from this offset on. -/
  | tracking (partition : Partition) (offset : Offset)
  /-- The dead-letter sink did not take a record. -/
  | deadLetterFailed (partition : Partition) (offset : Offset) (cause : String)
  /-- A terminal notification came for a partition that is not tracked. -/
  | untracked (partition : Partition) (offset : Offset) (outcome : Outcome)
  /-- A terminal notification came for an offset that a commit covers already. -/
  | belowCommitPoint (partition : Partition) (offset : Offset) (commitPoint : Offset)
  /-- A terminal notification came for an offset that was resolved before. -/
  | resolvedTwice (partition : Partition) (offset : Offset)
  /-- A commit was issued. -/
  | issued (partition : Partition) (offset : Offset) (count : Nat)
  /-- A partition is tracked no longer. -/
  | revoked (partition : Partition) (commitPoint : Offset)
  /-- All of so many tracked partitions are tracked no longer. -/
  | revokedAll (count : Nat)
  /-- The coordinator was closed and every issued commit has ended. -/
  | closed (revoked : Nat)
deriving DecidableEq, Inhabited

/-- The line of a coordinator's event. -/
def DecisionEvent.line : DecisionEvent → LogLine
  | tracking p o => ⟨.debug, "Tracking partition", placeFields p o⟩
  | deadLetterFailed p o cause =>
      ⟨.warn, "Failed to send record to dead letter sink, resolving offset anyway",
        placeFields p o ++ [("error", cause)]⟩
  | untracked p o outcome =>
      ⟨.error, "Terminal notification for untracked partition",
        placeFields p o ++ [("outcome", outcome.label)]⟩
  | belowCommitPoint p o commitPoint =>
      ⟨.debug, "Ignoring resolution below commit point",
        placeFields p o ++ [("commit_point", toString commitPoint)]⟩
  | resolvedTwice p o => ⟨.warn, "Offset resolved twice", placeFields p o⟩
  | issued p o count =>
      ⟨.debug, "Issued commit", placeFields p o ++ [("count", toString count)]⟩
  | revoked p commitPoint =>
      ⟨.info, "Revoked partition",
        partitionFields p ++ [("commit_point", toString commitPoint)]⟩
  | revokedAll count => ⟨.info, "Revoked all partitions", [("count", toString count)]⟩
  | closed count => ⟨.debug, "Closed commit coordinator", [("revoked", toString count)]⟩

/-! ## Events of the commit path -/

/-- What the commit path reports. -/
inductive CommitEvent where
  /-- A lane was closed; it still works off its queue. -/
  | laneClosed (partition : Partition)
  /-- A request found its open lane dead, and the lane is opened anew. -/
  | laneReopened (partition : Partition) (offset : Offset)
  /-- A lane that was just opened did not take a request. -/
  | laneRefused (partition : Partition)
  /-- The lane before a reopened one had crashed. -/
  | predecessorCrashed (partition : Partition)
  /-- The observer crashed on a commit that went through. -/
  | observerCrashed (partition : Partition) (offset : Offset)
  /-- The broker stored an offset. -/
  | committed (partition : Partition) (offset : Offset) (count : Nat)
  /-- The broker rejected an offset. -/
  | failed (partition : Partition) (offset : Offset) (error : Error)
  /-- A lane that was awaited at the end had crashed. -/
  | laneCrashed
  /-- The commit path has stopped. -/
  | stopped
deriving DecidableEq, Inhabited

/-- The line of an event of the commit path. -/
def CommitEvent.line : CommitEvent → LogLine
  | laneClosed p => ⟨.debug, "Closed commit lane", [("partition", toString p)]⟩
  | laneReopened p o =>
      ⟨.error, "Commit lane stopped unexpectedly, reopening", placeFields p o⟩
  | laneRefused p =>
      ⟨.error, "Reopened commit lane is not accepting requests", partitionFields p⟩
  | predecessorCrashed p => ⟨.error, "Revoked commit lane ended abnormally", partitionFields p⟩
  | observerCrashed p o => ⟨.error, "Commit observer panicked", placeFields p o⟩
  | committed p o count =>
      ⟨.debug, "Committed offset", placeFields p o ++ [("count", toString count)]⟩
  | failed p o error =>
      ⟨.error, "Failed to commit offset", placeFields p o ++ [("error", error.message)]⟩
  | laneCrashed => ⟨.error, "Commit lane ended abnormally", []⟩
  | stopped => ⟨.debug, "CommitActor stopped", []⟩

end OffsetCommit
