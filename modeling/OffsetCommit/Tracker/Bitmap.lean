/-!
# Bitmaps

A growable set of places, kept as an array of 64-bit blocks. Bit `i` of block `b` stands for
the place at distance `64 * b + i` from wherever the bitmap begins. A bitmap knows nothing of
offsets; a tracker says where it begins.
-/

namespace OffsetCommit

/-! ## Places -/

/-- A place in a bitmap: a block and a bit of it. -/
@[ext]
structure Position where
  /-- The index of the block. -/
  block : Nat
  /-- The index of the bit in its block, counted from the least significant one. -/
  bit : Nat
deriving DecidableEq, Inhabited

namespace Position

/-- The place at the given distance from the beginning. -/
def ofDistance (distance : Nat) : Position :=
  ⟨distance / 64, distance % 64⟩

/-- How far the place is from the beginning. -/
def distance (p : Position) : Nat :=
  p.block * 64 + p.bit

/-- Places are compared by block and then by bit, so the greater place is the one further on. -/
instance : LT Position :=
  ⟨fun a b => a.block < b.block ∨ a.block = b.block ∧ a.bit < b.bit⟩

instance (a b : Position) : Decidable (a < b) :=
  inferInstanceAs (Decidable (a.block < b.block ∨ a.block = b.block ∧ a.bit < b.bit))

/-- Positions are ordered by `block`, and within a block by `bit`. -/
theorem lt_def {a b : Position} :
    a < b ↔ a.block < b.block ∨ a.block = b.block ∧ a.bit < b.bit := Iff.rfl

/-- The position at a distance has this distance. -/
@[simp] theorem distance_ofDistance (d : Nat) : (ofDistance d).distance = d := by
  simp only [distance, ofDistance]
  omega

/-- The bit of `ofDistance d` is one of a block of 64. -/
theorem bit_ofDistance_lt (d : Nat) : (ofDistance d).bit < 64 := by
  simp only [ofDistance]
  omega

/-- Among positions whose bits are below 64 the order is that of `distance`. -/
theorem lt_iff_distance_lt {a b : Position} (ha : a.bit < 64) (hb : b.bit < 64) :
    a < b ↔ a.distance < b.distance := by
  simp only [lt_def, distance]
  omega

end Position

/-! ## Bitmaps -/

/-- A growable array of 64-bit blocks. -/
structure Bitmap where
  /-- The allocated blocks; every place beyond them is unmarked. -/
  blocks : Array (BitVec 64)
deriving DecidableEq, Inhabited

namespace Bitmap

/-- One block without a mark. -/
def fresh : Bitmap := ⟨#[0]⟩

/-- The number of allocated blocks. -/
def capacity (m : Bitmap) : Nat := m.blocks.size

/-- Whether a place is marked. -/
def test (m : Bitmap) (p : Position) : Bool :=
  (m.blocks[p.block]?.getD 0).getLsbD p.bit

/-- Makes a block addressable. A bitmap that has to grow becomes twice as long as the block
needs, so that a run of growing distances is paid for by few reallocations. -/
def reserve (m : Bitmap) (block : Nat) : Bitmap :=
  if block < m.blocks.size then m
  else ⟨m.blocks ++ Array.replicate (2 * (block + 1) - m.blocks.size) 0⟩

/-- Marks a place; a place beyond the allocated blocks is left alone. -/
def mark (m : Bitmap) (p : Position) : Bitmap :=
  ⟨m.blocks.modify p.block (· ||| BitVec.twoPow 64 p.bit)⟩

/-- Takes every mark away. A bitmap above `threshold` blocks is given up for a fresh one, any
other keeps its blocks. -/
def clear (m : Bitmap) (threshold : Nat) : Bitmap :=
  if threshold < m.blocks.size then fresh else ⟨Array.replicate m.blocks.size 0⟩

/-- The block whose marks are exactly the bits up to `bit`. -/
def lowMask (bit : Nat) : BitVec 64 :=
  BitVec.allOnes 64 >>> (63 - bit)

/-- Whether the blocks up to and including that of `p` are marked exactly at the places up to
`p`: all the earlier blocks are full, and the block of `p` is full up to it and empty above. -/
def isFilledTo (m : Bitmap) (p : Position) : Bool :=
  m.blocks.all (· == BitVec.allOnes 64) 0 p.block && m.blocks[p.block]? == some (lowMask p.bit)

end Bitmap

end OffsetCommit
