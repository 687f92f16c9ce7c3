import OffsetCommit.Engine.Move

/-!
# Running the engine

One order in which to make the moves of an engine, and the passing of time. As long as any move
is possible the clock stands still: `settle` makes moves until none is left. Then the only way
on is to wait for the earliest commit that is under way, and `await` moves the clock straight
to it. A commit therefore ends at exactly its own time.

Every run is bounded by `work`, the number of moves that the engine can still make before
someone asks something new of it.
-/

namespace OffsetCommit

/-! ## How much is left to do -/

/-- The moves that a lane can still make: two for every queued request and those of its phase. -/
def Lane.work (lane : Lane) : Nat :=
  2 * lane.queue.size +
    match lane.phase with
    | .waiting _ => 2
    | .ready => 1
    | .committing _ _ => 2
    | .ended _ => 0

/-- The moves that a command can still cause. A commit may open a lane on its way. -/
def Command.work : Command → Nat
  | .commit _ => 6
  | .revoke _ => 1
  | .shutdown _ => 1

namespace Engine

/-- The moves that the loop can still make besides taking commands: one for each lane to wait
for, one to begin to wait and one to end. -/
def loopWork (e : Engine) : Nat :=
  match e.stage with
  | .serving => e.lanes.opened.size + e.lanes.retired.size + 2
  | .draining _ awaited => awaited.length + 1
  | .stopped => 0

/-- A bound on the moves that the engine can still make, however long one waits. -/
def work (e : Engine) : Nat :=
  e.pendingCalls.length
    + (e.mailbox.toList.map Command.work).foldr (· + ·) 0
    + e.loopWork
    + (e.lanes.all.toList.map Lane.work).foldr (· + ·) 0

/-! ## The order of moves -/

/-- The move of the loop that comes before those of the lanes, if it is possible. -/
def urgent? (e : Engine) : Option Move :=
  if e.isPossible .take then some .take
  else if e.isPossible .hangUp then some .hangUp
  else none

/-- The move of the loop that comes after those of the lanes, if it is possible. -/
def patient? (e : Engine) : Option Move :=
  if e.isPossible .collect then some .collect
  else if e.isPossible .stop then some .stop
  else none

/-- The move to make next, if any is possible: direct calls come first, then the mailbox, then
the lanes from the oldest on, and last the loop's waiting. -/
def next? (e : Engine) : Option Move :=
  ((e.pendingCalls.findIdx? e.canAnswer).map Move.answer)
    <|> e.urgent?
    <|> ((e.lanes.all.findIdx? e.canWork).map Move.work)
    <|> e.patient?

/-- Makes at most so many moves, each the next one in order. -/
def runMoves : Nat → Engine → Engine
  | 0, e => e
  | fuel + 1, e =>
      match e.next? with
      | none => e
      | some move => runMoves fuel (e.make move)

/-- Makes every move that is possible without the clock moving. -/
def settle (e : Engine) : Engine :=
  runMoves e.work e

/-! ## Time -/

/-- The times at which commits under way are decided. -/
def dueTimes (e : Engine) : List Nat :=
  e.pendingCalls.map PendingCall.due ++ e.lanes.all.toList.filterMap Lane.due?

/-- The earliest time at which a commit under way is decided. -/
def nextDue? (e : Engine) : Option Nat :=
  e.dueTimes.min?

/-- Settles, and moves the clock from one decided commit to the next, until the engine is as
asked for or nothing is under way; at most so many commits are waited for. -/
def awaitWithin : Nat → (Engine → Bool) → Engine → Engine
  | 0, _, e => e.settle
  | fuel + 1, isDone, e =>
      let settled := e.settle
      if isDone settled then settled
      else
        match settled.nextDue? with
        | none => settled
        | some due => awaitWithin fuel isDone (settled.passTo due)

/-- Lets time pass until the engine is as asked for. -/
def await (isDone : Engine → Bool) (e : Engine) : Engine :=
  awaitWithin e.work isDone e

/-- Whether no commit is decided up to a given time. -/
def isIdleUntil (time : Nat) (e : Engine) : Bool :=
  match e.nextDue? with
  | none => true
  | some due => time < due

/-- Lets so much time pass. -/
def elapse (e : Engine) (span : Nat) : Engine :=
  let time := e.now + span
  ((e.await (isIdleUntil time)).passTo time).settle

end Engine

end OffsetCommit
