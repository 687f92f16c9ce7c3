import OffsetCommit.Offset

/-!
# Commit statuses

What became of one issued commit. A status always names the offset that the commit asked for,
so it can be read without the request at hand.
-/

namespace OffsetCommit

/-- The end of one issued commit. -/
inductive Status where
  /-- The broker stored the offset; `count` records were folded into the commit. -/
  | committed (offset : Offset) (count : Nat)
  /-- The broker rejected the commit. -/
  | failed (offset : Offset) (reason : String)
  /-- The commit path ended before the broker decided. -/
  | abandoned (offset : Offset)
deriving DecidableEq, Inhabited

namespace Status

/-- Whether the broker stored the offset. -/
def isCommitted : Status → Bool
  | committed .. => true
  | failed .. => false
  | abandoned .. => false

/-- The offset that the commit asked for. -/
def offset : Status → Offset
  | committed offset _ => offset
  | failed offset _ => offset
  | abandoned offset => offset

end Status

end OffsetCommit
