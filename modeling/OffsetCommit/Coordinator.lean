import OffsetCommit.Config
import OffsetCommit.Log
import OffsetCommit.Record
import OffsetCommit.Tracker.Basic

/-!
# The coordinator

The coordinator turns notifications about records into commits. A received record seeds a
tracker for its partition. Later every record has a terminal notification, in any order; it
resolves the record's offset, and a success takes the run of resolved offsets out of the
tracker when there is no gap in it.

A coordinator decides and does not act. Each operation returns the next state together with
what is to be done and what is to be reported, so a decision can be stated without the commit
path that carries it out.
-/

namespace OffsetCommit

/-- The trackers of the partitions that are assigned at present. -/
structure Coordinator where
  /-- The settings. -/
  config : Config
  /-- A tracker for each tracked partition. -/
  trackers : Partition.Table Tracker

namespace Coordinator

/-- A coordinator without partitions; its settings have to be valid. -/
def start (config : Config) : Except Error Coordinator :=
  match config.validate with
  | .ok () => .ok ⟨config, ∅⟩
  | .error cause => .error (.config cause)

/-! ## Queries -/

/-- The tracked partitions in ascending order. -/
def tracked (c : Coordinator) : List Partition :=
  c.trackers.keys

/-- What can be seen of a partition's tracker. -/
def snapshot? (c : Coordinator) (p : Partition) : Option Snapshot :=
  c.trackers[p]?.map Tracker.snapshot

/-- Puts the tracker of a partition in place. -/
def setTracker (c : Coordinator) (p : Partition) (t : Tracker) : Coordinator :=
  { c with trackers := c.trackers.insert p t }

/-- Takes the tracker of a partition out of the table, if there is one. Nothing else refers to
the tracker then, and a change of it needs no copy of its bitmap. -/
@[noinline] def take? (c : Coordinator) (p : Partition) : Option (Tracker × Coordinator) :=
  c.trackers[p]?.map fun tracker => (tracker, { c with trackers := c.trackers.erase p })

/-! ## Notifications -/

/-- A record was read. The first one of a partition seeds its tracker. -/
def receive (c : Coordinator) (r : Record) : Coordinator × List DecisionEvent :=
  match c.trackers[r.partition]? with
  | some _ => (c, [])
  | none =>
      (c.setTracker r.partition (.start r.offset c.config.shrinkThreshold),
        [.tracking r.partition r.offset])

/-- What follows from a terminal notification. -/
structure Decision where
  /-- The coordinator afterwards. -/
  coordinator : Coordinator
  /-- The run to commit, if one is complete; or why the notification is refused. -/
  answer : Except Error (Option Advance)
  /-- What there is to report. -/
  events : List DecisionEvent

/-- What is reported of an outcome before its offset is looked at. -/
def warnings (r : Record) : Outcome → List DecisionEvent
  | .deadLetterFailed cause => [.deadLetterFailed r.partition r.offset cause]
  | _ => []

/-- What is reported of how a tracker took an offset. -/
def remarks (r : Record) (commitPoint : Offset) : Resolution → List DecisionEvent
  | .marked => []
  | .stale => [.belowCommitPoint r.partition r.offset commitPoint]
  | .duplicate => [.resolvedTwice r.partition r.offset]

/-- Takes the run out of a tracker if the offset and the outcome allow it: an offset that a
commit covers already changes nothing, and only a success attempts a commit. -/
def attempt (resolution : Resolution) (outcome : Outcome) (t : Tracker) :
    Option Advance × Tracker :=
  if resolution ≠ .stale ∧ outcome.attemptsCommit then t.takeRun else (none, t)

/-- The dispatch of a record has ended. -/
def resolve (c : Coordinator) (r : Record) (outcome : Outcome) : Decision :=
  match c.take? r.partition with
  | none =>
      ⟨c, .error (.untracked r.partition r.offset),
        warnings r outcome ++ [.untracked r.partition r.offset outcome]⟩
  | some (tracker, others) =>
      let commitPoint := tracker.commitPoint
      let (resolution, marked) := tracker.resolve r.offset
      let (advance, left) := attempt resolution outcome marked
      let issued := advance.toList.map fun a => .issued r.partition a.offset a.count
      ⟨others.setTracker r.partition left, .ok advance,
        warnings r outcome ++ remarks r commitPoint resolution ++ issued⟩

/-! ## Assignment -/

/-- Stops tracking a partition, if it is tracked. -/
def revoke? (c : Coordinator) (p : Partition) : Option (Coordinator × List DecisionEvent) :=
  (c.take? p).map fun (tracker, others) => (others, [.revoked p tracker.commitPoint])

/-- Stops tracking every partition. -/
def revokeAll (c : Coordinator) : Coordinator × List DecisionEvent :=
  ({ c with trackers := ∅ },
    if c.trackers.isEmpty then [] else [.revokedAll c.trackers.size])

end Coordinator

end OffsetCommit
