import OffsetCommit.Offset
import OffsetCommit.Partition

/-!
# Records

A record is what a consumer reads from a partition: where it stood, and its bytes. Committing
looks at where a record stood and never at its bytes.
-/

namespace OffsetCommit

/-- A record as it was read from its partition. -/
structure Record where
  /-- The partition that the record was read from. -/
  partition : Partition
  /-- The position of the record in its partition. -/
  offset : Offset
  /-- The bytes of the content, which the library carries but does not read. -/
  value : List UInt8
deriving DecidableEq, Inhabited

end OffsetCommit
