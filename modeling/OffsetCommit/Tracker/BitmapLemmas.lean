import OffsetCommit.Tracker.Bitmap

/-!
# What the operations on bitmaps do to their marks

One equation for the marks (`test_*`) and one for the capacity (`capacity_*`) of each operation.
`isFilledTo_iff` reads the test for a filled bitmap, which compares whole blocks, as a statement
about single places.
-/

namespace OffsetCommit.Bitmap

/-! ## Fresh bitmaps -/

/-- A fresh bitmap has one block. -/
@[simp] theorem capacity_fresh : fresh.capacity = 1 := rfl

/-- A fresh bitmap has no marks. -/
@[simp] theorem test_fresh (p : Position) : fresh.test p = false := by
  simp only [test, fresh]
  rcases p with ⟨_ | b, i⟩ <;> simp

/-! ## Reserving -/

/-- Reserving keeps a bitmap that has the block and gives any other `2 * (block + 1)` blocks. -/
theorem capacity_reserve (m : Bitmap) (block : Nat) :
    (m.reserve block).capacity =
      if block < m.capacity then m.capacity else 2 * (block + 1) := by
  unfold reserve capacity
  split
  · rfl
  · simp only [Array.size_append, Array.size_replicate]
    omega

/-- Reserving marks nothing: `(m.reserve block).test p = m.test p`. -/
@[simp] theorem test_reserve (m : Bitmap) (block : Nat) (p : Position) :
    (m.reserve block).test p = m.test p := by
  unfold reserve
  split
  · rfl
  · simp only [test, Array.getElem?_append, Array.getElem?_replicate]
    by_cases h : p.block < m.blocks.size
    · simp [h]
    · rw [if_neg h, Array.getElem?_eq_none (by omega)]
      split <;> simp

/-! ## Marking -/

/-- Marking does not change the capacity. -/
@[simp] theorem capacity_mark (m : Bitmap) (p : Position) :
    (m.mark p).capacity = m.capacity := by
  simp [mark, capacity]

/-- Marking an addressable place `p` marks it and nothing else: `(m.mark p).test q = (decide (q = p)
|| m.test q)`. -/
theorem test_mark {m : Bitmap} {p : Position} (hp : p.block < m.capacity) (hb : p.bit < 64)
    (q : Position) : (m.mark p).test q = (decide (q = p) || m.test q) := by
  simp only [test, mark, Array.getElem?_modify]
  by_cases hblock : p.block = q.block
  · rw [if_pos hblock, ← hblock, Array.getElem?_eq_getElem hp]
    simp [BitVec.getLsbD_twoPow, hb, Position.ext_iff, ← hblock, Bool.or_comm, eq_comm]
  · have hne : q ≠ p := fun h => hblock (by rw [h])
    simp [hblock, hne]

/-! ## Clearing -/

/-- Clearing shrinks a bitmap to one block if its capacity is above the threshold, and leaves the
capacity otherwise. -/
theorem capacity_clear (m : Bitmap) (threshold : Nat) :
    (m.clear threshold).capacity = if threshold < m.capacity then 1 else m.capacity := by
  unfold clear capacity
  split
  · rfl
  · simp

/-- Both ways of clearing leave no mark. -/
@[simp] theorem test_clear (m : Bitmap) (threshold : Nat) (p : Position) :
    (m.clear threshold).test p = false := by
  unfold clear
  split
  · exact test_fresh p
  · simp only [test, Array.getElem?_replicate]
    split <;> simp

/-! ## Filled bitmaps -/

/-- Bit `i` of `lowMask bit` is set exactly when `i ≤ bit`. -/
theorem getLsbD_lowMask {bit i : Nat} (hbit : bit < 64) :
    (lowMask bit).getLsbD i = decide (i ≤ bit) := by
  simp only [lowMask, BitVec.getLsbD_ushiftRight, BitVec.getLsbD_allOnes]
  rw [decide_eq_decide]
  omega

/-- A bitmap `isFilledTo p` exactly when, of all the places in the blocks up to that of `p`, those
up to `p` are the marked ones. -/
theorem isFilledTo_iff {m : Bitmap} {p : Position} (hp : p.block < m.capacity)
    (hb : p.bit < 64) :
    m.isFilledTo p = true ↔
      ∀ q : Position, q.bit < 64 → q.block ≤ p.block → m.test q = decide (¬ p < q) := by
  simp only [isFilledTo, Bool.and_eq_true, Array.all_iff_forall, beq_iff_eq]
  constructor
  · rintro ⟨hfull, hlast⟩ q hq hle
    simp only [test]
    by_cases hlt : q.block < p.block
    · have hsize : q.block < m.blocks.size := Nat.lt_trans hlt hp
      have hnot : ¬ p < q := by
        simp only [Position.lt_def]
        omega
      rw [Array.getElem?_eq_getElem hsize, Option.getD_some,
        hfull q.block hsize ⟨Nat.zero_le _, hlt⟩]
      simp only [BitVec.getLsbD_allOnes, hq, hnot, not_false_eq_true, decide_true]
    · have heq : q.block = p.block := by omega
      rw [heq, hlast, Option.getD_some, getLsbD_lowMask hb, decide_eq_decide]
      simp only [Position.lt_def]
      omega
  · intro h
    refine ⟨fun i hi hlt => ?_, ?_⟩
    · apply BitVec.eq_of_getLsbD_eq
      intro j hj
      have hnot : ¬ p < (⟨i, j⟩ : Position) := by
        simp only [Position.lt_def]
        omega
      have ht := h ⟨i, j⟩ hj (by simp only; omega)
      simp only [test, Array.getElem?_eq_getElem hi, Option.getD_some] at ht
      rw [ht]
      simp only [BitVec.getLsbD_allOnes, hj, hnot, not_false_eq_true, decide_true]
    · rw [Array.getElem?_eq_getElem hp, Option.some_inj]
      apply BitVec.eq_of_getLsbD_eq
      intro j hj
      have ht := h ⟨p.block, j⟩ hj (Nat.le_refl _)
      simp only [test, Array.getElem?_eq_getElem hp, Option.getD_some] at ht
      rw [ht, getLsbD_lowMask hb, decide_eq_decide]
      simp [Position.lt_def]

end OffsetCommit.Bitmap
