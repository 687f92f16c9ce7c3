import OffsetCommit.Offset
import OffsetCommit.Partition
import OffsetCommit.Queue

/-!
# Lanes

A lane executes the commits of one partition, one at a time and in the order in which it was
handed them. A lane that replaces a revoked one first waits for it to end, so the commits of a
partition never overlap, however often its lane is closed and opened again.
-/

namespace OffsetCommit

/-- A commit on its way to the broker. -/
structure Request where
  /-- The number of the ticket on which the commit's status is entered. -/
  ticket : Nat
  /-- The partition whose offset is committed. -/
  partition : Partition
  /-- The offset to commit: the next one to read. -/
  offset : Offset
  /-- The number of records folded into the commit. -/
  count : Nat
deriving DecidableEq, Inhabited

/-- What a lane is doing. -/
inductive Phase where
  /-- It waits until the lane before it, given by its number, has ended. -/
  | waiting (predecessor : Nat)
  /-- It is free to take the next request. -/
  | ready
  /-- A commit is under way and is decided at the given time. -/
  | committing (request : Request) (due : Nat)
  /-- It does nothing any more. It crashed, or it was closed and its queue is worked off. -/
  | ended (crashed : Bool)
deriving DecidableEq, Inhabited

/-- The commit queue of one partition. -/
structure Lane where
  /-- The partition whose commits the lane executes. -/
  partition : Partition
  /-- The requests that wait for their turn. -/
  queue : Queue Request
  /-- Whether further requests may be handed to the lane. -/
  isOpen : Bool
  /-- What the lane is doing. -/
  phase : Phase
deriving Inhabited

namespace Lane

/-- A lane that has just been opened, behind a predecessor if there is one. -/
def opening (p : Partition) (predecessor : Option Nat) : Lane :=
  ⟨p, .empty, true, match predecessor with | some i => .waiting i | none => .ready⟩

/-- How the lane ended, if it has: `true` after a crash. -/
def ending? (lane : Lane) : Option Bool :=
  match lane.phase with
  | .ended crashed => some crashed
  | _ => none

/-- Whether the lane has ended. -/
def hasEnded (lane : Lane) : Bool :=
  lane.ending?.isSome

/-- The lane with a request at the end of its queue. -/
def push (lane : Lane) (r : Request) : Lane :=
  { lane with queue := lane.queue.push r }

/-- The lane without its way in; it works off what is queued. -/
def close (lane : Lane) : Lane :=
  { lane with isOpen := false }

/-- The time at which the commit under way is decided. -/
def due? (lane : Lane) : Option Nat :=
  match lane.phase with
  | .committing _ due => some due
  | _ => none

/-- The request under way, if any. -/
def current? (lane : Lane) : Option Request :=
  match lane.phase with
  | .committing r _ => some r
  | _ => none

end Lane

end OffsetCommit
