import OffsetCommit.Offset

/-!
# Ranges of offsets

A row of offsets at even steps, read upwards or downwards.
-/

namespace OffsetCommit

/-- The offsets `start`, `start + stride`, … that lie below `stop`. -/
structure OffsetRange where
  /-- The first offset. -/
  start : Offset
  /-- The offset before which the row ends. -/
  stop : Offset
  /-- The distance from one offset to the next; a row without distance has no offsets. -/
  stride : Nat
  /-- Whether the row is read from its end. -/
  descends : Bool
deriving DecidableEq

namespace OffsetRange

/-- The number of offsets in the row. -/
def size (r : OffsetRange) : Nat :=
  (r.stop.toNat - r.start.toNat + (r.stride - 1)) / r.stride

/-- The offsets of the row in the order in which they are read. -/
def toList (r : OffsetRange) : List Offset :=
  let upwards := (List.range r.size).map fun i => r.start.advance (i * r.stride)
  if r.descends then upwards.reverse else upwards

end OffsetRange

end OffsetCommit
