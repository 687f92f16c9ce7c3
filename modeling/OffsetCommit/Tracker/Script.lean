import OffsetCommit.OffsetRange
import OffsetCommit.Tracker.Basic

/-!
# Scripts of a tracker

What can be done to a single tracker, one step after another, and what is told after each step.
-/

namespace OffsetCommit

/-- A step of a tracker. -/
inductive TrackerStep where
  /-- An offset is resolved. -/
  | resolve (offset : Offset)
  /-- Offsets are resolved one by one. -/
  | resolveEach (offsets : List Offset)
  /-- Offsets are resolved one by one, and the answers are counted. -/
  | resolveRange (range : OffsetRange)
  /-- Offsets are resolved one by one, and the tracker is put back afterwards. -/
  | probe (offsets : List Offset)
  /-- The run is taken out if it is complete. -/
  | takeRun
  /-- The commit point is moved. -/
  | rebase (offset : Offset)
deriving DecidableEq

/-- The answer to a step of a tracker. -/
inductive TrackerAnswer where
  /-- There is nothing to answer. -/
  | nothing
  /-- How the offset was taken. -/
  | resolution (value : Resolution)
  /-- How each offset was taken, and whether a run was complete then. -/
  | resolutions (values : List (Resolution × Bool))
  /-- How many offsets were taken in each of the three ways. -/
  | counts (marked stale duplicate : Nat)
  /-- The run that was taken out, if one was complete. -/
  | advance (value : Option Advance)
deriving DecidableEq

/-- What is told after a step of a tracker. -/
structure TrackerReport where
  /-- The answer to the step. -/
  answer : TrackerAnswer
  /-- What can be seen of the tracker. -/
  snapshot : Snapshot
  /-- The last offset that a decided commit covers. -/
  lastAcknowledged : Option Offset
  /-- The number of offsets from the commit point up to the highest resolved one. -/
  pendingRun : Nat
  /-- The offset to commit once the pending run is complete. -/
  nextCommit : Offset
deriving DecidableEq

namespace Tracker

/-- What is told of a tracker after a step with the given answer. -/
def report (t : Tracker) (answer : TrackerAnswer) : TrackerReport :=
  ⟨answer, t.snapshot, t.lastAcknowledged, t.pendingRun, t.nextCommit⟩

/-- Resolves offsets one by one. Each answer goes with whether a run is complete after it. -/
def resolveEach (t : Tracker) : List Offset → List (Resolution × Bool) × Tracker
  | [] => ([], t)
  | o :: rest =>
      let (resolution, t) := t.resolve o
      let ready := t.isCommittable
      let (answers, t) := t.resolveEach rest
      ((resolution, ready) :: answers, t)

/-- Resolves offsets one by one. -/
def resolveAll (t : Tracker) : List Offset → List Resolution × Tracker
  | [] => ([], t)
  | o :: rest =>
      let (resolution, t) := t.resolve o
      let (answers, t) := t.resolveAll rest
      (resolution :: answers, t)

/-- Does a step. -/
def step (t : Tracker) : TrackerStep → TrackerAnswer × Tracker
  | .resolve o =>
      let (resolution, t) := t.resolve o
      (.resolution resolution, t)
  | .resolveEach offsets =>
      let (answers, t) := t.resolveEach offsets
      (.resolutions answers, t)
  | .resolveRange range =>
      let (answers, t) := t.resolveAll range.toList
      (.counts (answers.count .marked) (answers.count .stale) (answers.count .duplicate), t)
  | .probe offsets => (.resolutions (t.resolveEach offsets).1, t)
  | .takeRun =>
      let (advance, t) := t.takeRun
      (.advance advance, t)
  | .rebase o => (.nothing, t.rebase o)

/-- Does steps one by one and tells of each. -/
def playAll (t : Tracker) : List TrackerStep → List TrackerReport
  | [] => []
  | next :: rest =>
      let (answer, t) := t.step next
      t.report answer :: t.playAll rest

/-- What is told of a tracker before its first step and after each step. -/
def play (t : Tracker) (steps : List TrackerStep) : List TrackerReport :=
  t.report .nothing :: t.playAll steps

end Tracker

end OffsetCommit
