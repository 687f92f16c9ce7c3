import OffsetCommit.Error

/-!
# Configuration

The one setting of the commit path is how large a tracker's bitmap may stay across a re-base.
-/

namespace OffsetCommit

/-- The settings of a coordinator. -/
structure Config where
  /-- A bitmap of more blocks than this is given up when its tracker is re-based. -/
  shrinkThreshold : Nat
deriving DecidableEq

namespace Config

/-- The settings for production: 128 blocks, that is 8192 offsets, stay allocated. -/
def standard : Config := ⟨128⟩

/-- Settings under which a test soon reaches the point where bitmaps shrink. -/
def testing : Config := ⟨4⟩

instance : Inhabited Config := ⟨standard⟩

/-- A threshold of zero is refused: a tracker always keeps one block. -/
def validate (config : Config) : Except InvalidArgument Unit :=
  if config.shrinkThreshold = 0 then
    .error ⟨"tracker_shrink_threshold_blocks", "must be positive"⟩
  else
    .ok ()

end Config

end OffsetCommit
