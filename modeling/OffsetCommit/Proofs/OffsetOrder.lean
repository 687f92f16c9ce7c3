import Mathlib.Data.Finset.Max
import Mathlib.Order.Interval.Finset.Nat
import OffsetCommit.Main
import OffsetCommit.Session.Play
import OffsetCommit.Tracker.BitmapLemmas
import OffsetCommit.Tracker.Script

/-!
# The order of offsets

Offsets are linearly ordered by their positions, and between two offsets there are finitely many
others. With these two instances a run of offsets is a `Finset.Icc`, and the highest offset of a
set is its `Finset.max'`.
-/

namespace OffsetCommit.Offset

/-- Offsets are ordered by their positions. -/
instance : LinearOrder Offset where
  le_refl a := Nat.le_refl a.toNat
  le_trans a b c := Nat.le_trans (n := a.toNat) (m := b.toNat) (k := c.toNat)
  lt_iff_le_not_ge a b := Nat.lt_iff_le_and_not_ge (m := a.toNat) (n := b.toNat)
  le_antisymm a b hab hba := Offset.ext (Nat.le_antisymm hab hba)
  le_total a b := Nat.le_total a.toNat b.toNat
  toDecidableLE := inferInstance
  toDecidableLT := inferInstance
  compare_eq_compareOfLessAndEq a b := by
    show compareOfLessAndEq a.toNat b.toNat = _
    simp only [compareOfLessAndEq, lt_def, Offset.ext_iff]

/-- The offsets from one offset up to another. -/
instance : LocallyFiniteOrder Offset :=
  LocallyFiniteOrder.ofIcc Offset (fun a b => (Finset.Icc a.toNat b.toNat).image clamp) <| by
    intro a b o
    simp only [Finset.mem_image, Finset.mem_Icc, le_def]
    constructor
    · rintro ⟨n, ⟨ha, hb⟩, rfl⟩
      have := b.toNat_lt
      rw [toNat_clamp_of_lt (by omega)]
      exact ⟨ha, hb⟩
    · rintro ⟨ha, hb⟩
      exact ⟨o.toNat, ⟨ha, hb⟩, clamp_toNat o⟩

/-- No offset is beyond `last`. -/
theorem le_last (o : Offset) : o ≤ last := by
  have := o.toNat_lt
  simp only [le_def, toNat_last]
  omega

/-- Every offset but `last` is before `last`. -/
theorem lt_last_of_ne {o : Offset} (h : o ≠ last) : o < last :=
  lt_of_le_of_ne (le_last o) h

end OffsetCommit.Offset
