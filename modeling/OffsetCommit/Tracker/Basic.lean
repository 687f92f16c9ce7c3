import OffsetCommit.Offset
import OffsetCommit.Tracker.Bitmap

/-!
# Trackers

A tracker belongs to one partition. It knows the partition's commit point, the first offset
that no decided commit covers, and which offsets from there on are resolved. A bitmap that
begins at the commit point holds them, together with the highest place marked so far.

A run can be committed when every offset from the commit point up to the highest resolved one
is resolved. Taking the run out moves the commit point behind it and empties the bitmap. A mark
says that a commit may pass over the offset, whatever became of its record.
-/

namespace OffsetCommit

/-! ## Answers -/

/-- What a tracker answers to the news that an offset is resolved. -/
inductive Resolution where
  /-- The offset was not known to be resolved and is marked now. -/
  | marked
  /-- The offset lies below the commit point: an earlier commit covers it. -/
  | stale
  /-- The offset was marked before. -/
  | duplicate
deriving DecidableEq, Inhabited

/-- A run that was taken out of a tracker. -/
structure Advance where
  /-- The offset to commit: the next one to read. -/
  offset : Offset
  /-- The number of offsets folded into the run. -/
  count : Nat
deriving DecidableEq, Inhabited

/-- What can be seen of a tracker from outside. -/
structure Snapshot where
  /-- The first offset that no decided commit covers. -/
  commitPoint : Offset
  /-- The highest offset resolved since the last re-base. -/
  highest : Option Offset
  /-- The number of allocated blocks. -/
  capacity : Nat
  /-- Whether a run is ready to be taken out. -/
  committable : Bool
deriving DecidableEq, Inhabited

/-- The length of the run that waits for a commit; zero when there is a gap in it. -/
def Snapshot.committableRun (s : Snapshot) : Nat :=
  match s.committable, s.highest with
  | true, some high => high.toNat - s.commitPoint.toNat + 1
  | _, _ => 0

/-- A tracker was asked for with a shrink threshold of zero. -/
inductive ThresholdError where
  | zero
deriving DecidableEq, Inhabited

/-- The wording of a refused threshold. -/
def ThresholdError.message : ThresholdError → String
  | zero => "shrink threshold must be positive"

/-! ## Trackers -/

/-- The resolved offsets of one partition from its commit point on. -/
structure Tracker where
  /-- The first offset that no decided commit covers. -/
  commitPoint : Offset
  /-- The resolved offsets, as distances from the commit point. -/
  bitmap : Bitmap
  /-- The highest place marked since the last re-base. -/
  highWater : Option Position
  /-- A bitmap of more blocks than this is given up when the tracker is re-based. -/
  shrinkThreshold : Nat
deriving DecidableEq, Inhabited

namespace Tracker

/-- A tracker at the first offset that was read, with nothing resolved. -/
def start (first : Offset) (threshold : Nat) : Tracker :=
  ⟨first, .fresh, none, threshold⟩

/-- A tracker with a threshold given from outside. -/
def new? (first : Offset) (threshold : Nat) : Except ThresholdError Tracker :=
  if threshold = 0 then .error .zero else .ok (start first threshold)

/-! ### Resolving -/

/-- Where the bitmap keeps an offset at or above the commit point. -/
def position (t : Tracker) (o : Offset) : Position :=
  .ofDistance (o.toNat - t.commitPoint.toNat)

/-- Whether an offset has been resolved since the last re-base. -/
def isMarked (t : Tracker) (o : Offset) : Bool :=
  t.commitPoint ≤ o && t.bitmap.test (t.position o)

/-- The higher of the marked place and the place known so far. -/
def raise (highWater : Option Position) (p : Position) : Option Position :=
  match highWater with
  | none => some p
  | some high => some (if high < p then p else high)

/-- Notes that an offset is resolved. An offset below the commit point changes nothing. -/
def resolve (t : Tracker) (o : Offset) : Resolution × Tracker :=
  if o < t.commitPoint then
    (.stale, t)
  else
    let p := t.position o
    let bitmap := t.bitmap.reserve p.block
    if bitmap.test p then
      (.duplicate, { t with bitmap := bitmap })
    else
      (.marked, { t with bitmap := bitmap.mark p, highWater := raise t.highWater p })

/-! ### Runs -/

/-- Whether every offset from the commit point up to the highest resolved one is resolved. -/
def isCommittable (t : Tracker) : Bool :=
  match t.highWater with
  | none => false
  | some high => t.bitmap.isFilledTo high

/-- The number of offsets from the commit point up to the highest resolved one. -/
def pendingRun (t : Tracker) : Nat :=
  match t.highWater with
  | none => 0
  | some high => high.distance + 1

/-- The offset to commit once the pending run is complete. -/
def nextCommit (t : Tracker) : Offset :=
  t.commitPoint.advance t.pendingRun

/-- Moves the commit point and forgets every resolved offset. -/
def rebase (t : Tracker) (commitPoint : Offset) : Tracker :=
  { t with
    commitPoint := commitPoint
    bitmap := t.bitmap.clear t.shrinkThreshold
    highWater := none }

/-- Takes the run out if it is complete. -/
def takeRun (t : Tracker) : Option Advance × Tracker :=
  if t.isCommittable then
    (some ⟨t.nextCommit, t.pendingRun⟩, t.rebase t.nextCommit)
  else
    (none, t)

/-! ### Views -/

/-- The last offset that a decided commit covers. -/
def lastAcknowledged (t : Tracker) : Option Offset :=
  t.commitPoint.prev?

/-- The highest offset resolved since the last re-base. -/
def highestResolved (t : Tracker) : Option Offset :=
  t.highWater.map fun high => t.commitPoint.advance high.distance

/-- The number of allocated blocks. -/
def capacity (t : Tracker) : Nat :=
  t.bitmap.capacity

/-- What can be seen of the tracker from outside. -/
def snapshot (t : Tracker) : Snapshot :=
  ⟨t.commitPoint, t.highestResolved, t.capacity, t.isCommittable⟩

end Tracker

end OffsetCommit
