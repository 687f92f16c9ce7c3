/-!
# Offsets

An offset is the position of a record in the log of its partition: a number below `2 ^ 64`.
Moving an offset forward stops at the last one, `Offset.last`, so that no sum of an offset and
a count ever wraps around to a record that was read long ago.
-/

namespace OffsetCommit

/-- A position in a partition's log. -/
@[ext]
structure Offset where
  /-- The position as a number; the first record of a log has position zero. -/
  toNat : Nat
  /-- Positions fit into 64 bits. -/
  toNat_lt : toNat < 0x10000000000000000
deriving DecidableEq

namespace Offset

/-! ## Construction -/

/-- The offset with the given position, or the last offset when there is no such position. -/
def clamp (n : Nat) : Offset :=
  ⟨min n 0xffffffffffffffff, by omega⟩

/-- The offset with the given position, if the position fits. -/
def ofNat? (n : Nat) : Option Offset :=
  if h : n < 0x10000000000000000 then some ⟨n, h⟩ else none

/-- The first offset of every log. -/
def zero : Offset := ⟨0, by decide⟩

/-- The greatest offset. -/
def last : Offset := ⟨0xffffffffffffffff, by decide⟩

instance : Inhabited Offset := ⟨zero⟩

/-- The offset at a position `n` beyond the log is the last one: `(clamp n).toNat = min n (2 ^ 64 -
1)`. -/
@[simp] theorem toNat_clamp (n : Nat) : (clamp n).toNat = min n 0xffffffffffffffff := rfl

/-- The position of `zero` is `0`. -/
@[simp] theorem toNat_zero : zero.toNat = 0 := rfl

/-- The position of `last` is `2 ^ 64 - 1`. -/
@[simp] theorem toNat_last : last.toNat = 0xffffffffffffffff := rfl

/-- Clamping an offset's own position gives the offset back: `clamp o.toNat = o`. -/
@[simp] theorem clamp_toNat (o : Offset) : clamp o.toNat = o := by
  have h := o.toNat_lt
  ext
  simp only [toNat_clamp]
  omega

/-- A position below `2 ^ 64` is not clamped. -/
theorem toNat_clamp_of_lt {n : Nat} (h : n < 0x10000000000000000) : (clamp n).toNat = n := by
  simp only [toNat_clamp]
  omega

/-! ## Order -/

instance : LT Offset := ⟨fun a b => a.toNat < b.toNat⟩

instance : LE Offset := ⟨fun a b => a.toNat ≤ b.toNat⟩

instance (a b : Offset) : Decidable (a < b) := inferInstanceAs (Decidable (a.toNat < b.toNat))

instance (a b : Offset) : Decidable (a ≤ b) := inferInstanceAs (Decidable (a.toNat ≤ b.toNat))

instance : Ord Offset := ⟨fun a b => compare a.toNat b.toNat⟩

/-- Offsets are compared by `toNat`. -/
theorem lt_def {a b : Offset} : a < b ↔ a.toNat < b.toNat := Iff.rfl

/-- Offsets are compared by `toNat`, also with `≤`. -/
theorem le_def {a b : Offset} : a ≤ b ↔ a.toNat ≤ b.toNat := Iff.rfl

/-! ## Movement -/

/-- The offset `n` records further on, or the last offset when the log ends before it. -/
def advance (o : Offset) (n : Nat) : Offset :=
  clamp (o.toNat + n)

/-- The offset just before this one; the first offset has none. -/
def prev? (o : Offset) : Option Offset :=
  if o.toNat = 0 then none else some ⟨o.toNat - 1, by have := o.toNat_lt; omega⟩

/-- Moving by `n` adds to the position and saturates: `min (o.toNat + n) (2 ^ 64 - 1)`. -/
@[simp] theorem toNat_advance (o : Offset) (n : Nat) :
    (o.advance n).toNat = min (o.toNat + n) 0xffffffffffffffff := rfl

/-- As long as the sum is below `2 ^ 64`, `advance` does not saturate. -/
theorem toNat_advance_of_lt {o : Offset} {n : Nat} (h : o.toNat + n < 0x10000000000000000) :
    (o.advance n).toNat = o.toNat + n :=
  toNat_clamp_of_lt h

/-- Moving by nothing changes nothing. -/
@[simp] theorem advance_zero (o : Offset) : o.advance 0 = o := clamp_toNat o

/-! ## Text -/

/-- An offset is written as its position in decimal digits. -/
instance : ToString Offset := ⟨fun o => toString o.toNat⟩

end Offset

end OffsetCommit
