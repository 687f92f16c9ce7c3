import OffsetCommit.Offset
import OffsetCommit.Partition

/-!
# Errors

The causes for which a call is refused, each with its one wording. A cause keeps what it is
about (the partition, the offset), and the wording is derived from it.
-/

namespace OffsetCommit

/-- A setting whose value cannot be used. -/
structure InvalidArgument where
  /-- The setting. -/
  name : String
  /-- What its value should have been. -/
  reason : String
deriving DecidableEq, Inhabited

/-- The wording of a refused setting. -/
def InvalidArgument.message (cause : InvalidArgument) : String :=
  "invalid argument '" ++ cause.name ++ "': " ++ cause.reason

/-- Why the commit path refuses a call. -/
inductive Error where
  /-- A terminal notification named a partition that no received record has seeded. -/
  | untracked (partition : Partition) (offset : Offset)
  /-- The broker rejected a commit. -/
  | commitFailed (partition : Partition) (offset : Offset) (message : String)
  /-- The configuration has a setting that cannot be used. -/
  | config (cause : InvalidArgument)
deriving DecidableEq, Inhabited

/-- The wording of a refused call. -/
def Error.message : Error → String
  | untracked partition offset =>
      "partition " ++ toString partition ++ " is not tracked (offset " ++ toString offset ++ ")"
  | commitFailed partition offset message =>
      "commit of offset " ++ toString offset ++ " for " ++ toString partition ++ " failed: "
        ++ message
  | config cause => "invalid config: " ++ cause.message

end OffsetCommit
