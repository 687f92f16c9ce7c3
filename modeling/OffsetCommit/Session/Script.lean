import OffsetCommit.Pipeline

/-!
# Scripts of a session

What can be done in a session, one step after another, and what is answered. A *call* returns
at once; calls can be made in a batch, between which the engine does not move. The other steps
let time pass or wait for something, and stand alone.
-/

namespace OffsetCommit

/-- How the session holds on to the commit path. -/
inductive Attachment where
  /-- Only the coordinator can send commands to the engine. -/
  | exclusive
  /-- The session can send commands of its own. -/
  | shared
deriving DecidableEq, Inhabited

/-- What the coordinator is told about a record. -/
inductive Notice where
  /-- The record was read. -/
  | received
  /-- The dispatch of the record has ended. -/
  | ended (outcome : Outcome)
deriving DecidableEq, Inhabited

/-- A call that returns at once. -/
inductive Call where
  /-- Tells the coordinator about a record. -/
  | notify (notice : Notice) (partition : Partition) (offset : Offset)
  /-- Tells the coordinator the same about several records of a partition. -/
  | notifyEach (notice : Notice) (partition : Partition) (offsets : List Offset)
  /-- Stops tracking a partition. -/
  | revokePartition (partition : Partition)
  /-- Stops tracking every partition. -/
  | revokeAll
  /-- Asks for the tracked partitions. -/
  | tracked
  /-- Asks for what can be seen of a partition's tracker. -/
  | snapshot (partition : Partition)
  /-- Asks for the coordinator's shrink threshold. -/
  | threshold
  /-- Lets go of the coordinator and of the engine. -/
  | dropCoordinator
  /-- Issues a commit past the coordinator. -/
  | commit (partition : Partition) (advance : Advance)
  /-- Has a partition's lane closed past the coordinator. -/
  | closeLane (partition : Partition)
  /-- Asks whether the engine refuses commands. -/
  | isClosed
  /-- Begins a shutdown and does not wait for it. -/
  | beginShutdown
  /-- Lets go of a receipt. -/
  | dropReceipt (receipt : Nat)
  /-- Changes how the broker treats commits. -/
  | changeFaults (new : FaultsChange)
  /-- Asks how the broker treats commits. -/
  | faults
  /-- Asks for the offset committed last. -/
  | committed (partition : Partition)
  /-- Asks for every committed offset. -/
  | history (partition : Partition)
  /-- Asks for the number of rejected commits. -/
  | failures (partition : Partition)
  /-- Asks for the number of stored commits on all partitions. -/
  | total
deriving DecidableEq, Inhabited

/-- A step of a session. -/
inductive Step where
  /-- One call, after which the engine does what it can. -/
  | call (call : Call)
  /-- Several calls, after all of which the engine does what it can. -/
  | batch (calls : List Call)
  /-- Closes the coordinator and waits for it. -/
  | close
  /-- Shuts the engine down and waits for it. -/
  | shutdown
  /-- Waits for the commit of a receipt. -/
  | wait (receipt : Nat)
  /-- Waits for a given time in milliseconds. -/
  | elapse (span : Nat)
  /-- Asks the broker for commits of consecutive offsets, each after the one before it. -/
  | commitDirectly (partition : Partition) (offset : Offset) (times : Nat)
deriving DecidableEq, Inhabited

/-- The partition that a call names. -/
def Call.partition? : Call → Option Partition
  | notify _ p _ => some p
  | notifyEach _ p _ => some p
  | revokePartition p => some p
  | snapshot p => some p
  | commit p _ => some p
  | closeLane p => some p
  | committed p => some p
  | history p => some p
  | failures p => some p
  | revokeAll => none
  | tracked => none
  | threshold => none
  | dropCoordinator => none
  | isClosed => none
  | beginShutdown => none
  | dropReceipt _ => none
  | changeFaults _ => none
  | faults => none
  | total => none

/-- The partitions that a step names. -/
def Step.partitions : Step → List Partition
  | call c => c.partition?.toList
  | batch calls => calls.filterMap Call.partition?
  | commitDirectly p _ _ => [p]
  | close => []
  | shutdown => []
  | wait _ => []
  | elapse _ => []

/-! ## Answers -/

/-- What came of telling the coordinator the same about several records. -/
structure Tally where
  /-- For how many records there was nothing to answer. -/
  unanswered : Nat
  /-- The receipts of the issued commits, in the order of issue. -/
  receipts : Array Receipt
  /-- The refusals, in order. -/
  refusals : Array Error
deriving DecidableEq, Inhabited

/-- Nothing was told. -/
def Tally.empty : Tally := ⟨0, #[], #[]⟩

/-- Counts one more answer. -/
def Tally.add (t : Tally) : Except Error (Option Receipt) → Tally
  | .ok none => { t with unanswered := t.unanswered + 1 }
  | .ok (some receipt) => { t with receipts := t.receipts.push receipt }
  | .error error => { t with refusals := t.refusals.push error }

/-- The answer to a call or a step. -/
inductive Answer where
  /-- There is nothing to answer. -/
  | nothing
  /-- The call was refused. -/
  | refused (error : Error)
  /-- What the call is made to has been let go. -/
  | dropped
  /-- The session does not hold the receipt, or has had its status already. -/
  | noReceipt
  /-- A commit was issued. -/
  | receipt (value : Receipt)
  /-- Yes or no. -/
  | flag (value : Bool)
  /-- A number. -/
  | number (value : Nat)
  /-- An offset, if there is one. -/
  | offset (value : Option Offset)
  /-- Offsets in order. -/
  | offsets (values : List Offset)
  /-- Partitions in order. -/
  | partitions (values : List Partition)
  /-- What can be seen of a tracker, if there is one. -/
  | snapshot (value : Option Snapshot)
  /-- How the broker treats commits, apart from the rate. -/
  | faults (force : Bool) (delay : Option Nat)
  /-- What came of several notifications. -/
  | tally (value : Tally)
  /-- The time at which the step was over. -/
  | time (now : Nat)
  /-- What became of a commit, and when the wait for it was over. -/
  | status (value : Status) (now : Nat)
  /-- The broker's decisions on direct commits, and when the last one was made. -/
  | decisions (values : Array (Except Error Unit)) (now : Nat)
  /-- The answers to the calls of a batch. -/
  | batch (values : List Answer)

/-- What is told of a step. -/
structure Report where
  /-- The answer to the step. -/
  answer : Answer
  /-- The held receipts whose commits ended during the step, with their statuses. -/
  done : List (Nat × Status)
  /-- The counts that the observer noted during the step, in ascending order. -/
  seen : List Nat
  /-- What the coordinator reported during the step, in order. -/
  decisions : List DecisionEvent
  /-- What the commit path reported during the step, in order. -/
  commits : List CommitEvent

/-- The lines of the coordinator, in order. -/
def Report.decisionLog (r : Report) : List String :=
  r.decisions.map fun event => event.line.text

/-- The lines of the commit path, sorted: lanes that work at the same time report in no
particular order. -/
def Report.commitLog (r : Report) : List String :=
  (r.commits.map fun event => event.line.text).mergeSort

/-- What is told of a partition at the end. -/
structure PartitionSummary where
  /-- The partition. -/
  partition : Partition
  /-- The offset committed last. -/
  committed : Option Offset
  /-- Every committed offset. -/
  history : List Offset
  /-- The number of rejected commits. -/
  failures : Nat
  /-- What can be seen of its tracker. -/
  snapshot : Option Snapshot

/-- What is told of a session at the end. -/
structure Summary where
  /-- The partitions that the steps named, in order. -/
  partitions : List PartitionSummary
  /-- The number of stored commits on all partitions. -/
  total : Nat
  /-- The time. -/
  now : Nat
  /-- The held receipts whose commits have not ended. -/
  pending : List Nat
  /-- The number of shutdowns begun and not answered. -/
  shuttingDown : Nat

end OffsetCommit
