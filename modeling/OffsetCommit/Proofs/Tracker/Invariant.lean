import OffsetCommit.Proofs.OffsetOrder

/-!
# The invariant of trackers

A tracker compares whole blocks when it looks for gaps, so it relies on every place above its
high-water mark being empty. `Tracker.WellFormed` says that, together with what makes the mark a
real place: it lies in an allocated block, it is marked, and it stands for an offset.

* `WellFormed.act`, `WellFormed.run`: resolving, taking a run out and re-basing all preserve
  `WellFormed`.
* `WellFormed.resolve_cases`, `takeRun_cases`: everything that the two operations can do, said by
  `Tracker.isMarked`. The rest of the library reads a tracker through these.
* `WellFormed.isCommittable_iff`: a run is complete exactly when it has no gap.
-/

namespace OffsetCommit

/-- A bitmap with a marked place need not grow to address it. -/
theorem Bitmap.reserve_of_test {m : Bitmap} {p : Position} (h : m.test p = true) :
    m.reserve p.block = m := by
  rw [reserve, if_pos]
  by_contra hsize
  rw [test, Array.getElem?_eq_none (Nat.le_of_not_lt hsize)] at h
  simp at h

namespace Tracker

/-- The invariant of a tracker between two operations: `highWater` is the highest marked place, and
the bitmap reaches that far. It holds from `wellFormed_start` on and is kept by `WellFormed.act`. -/
structure WellFormed (t : Tracker) : Prop where
  /-- There is always a block. -/
  capacity_pos : 0 < t.bitmap.capacity
  /-- Without a high-water mark nothing is marked. -/
  unmarked : t.highWater = none → ∀ q, t.bitmap.test q = false
  /-- The high-water mark is a bit of its block. -/
  bit_lt : ∀ high, t.highWater = some high → high.bit < 64
  /-- The block of the high-water mark is allocated. -/
  block_lt : ∀ high, t.highWater = some high → high.block < t.bitmap.capacity
  /-- The high-water mark is marked. -/
  marked : ∀ high, t.highWater = some high → t.bitmap.test high = true
  /-- Nothing above the high-water mark is marked. -/
  unmarked_above : ∀ high, t.highWater = some high →
    ∀ q : Position, q.bit < 64 → high < q → t.bitmap.test q = false
  /-- The high-water mark stands for an offset. -/
  in_range : ∀ high, t.highWater = some high →
    t.commitPoint.toNat + high.distance < 0x10000000000000000

/-! ### Places and offsets -/

/-- An offset is marked when it is not below the commit point and its place is. -/
theorem isMarked_iff {t : Tracker} {o : Offset} :
    t.isMarked o = true ↔ t.commitPoint ≤ o ∧ t.bitmap.test (t.position o) = true := by
  simp only [isMarked, Bool.and_eq_true, decide_eq_true_eq]

/-- The bit of a place is below 64. -/
theorem position_bit_lt (t : Tracker) (o : Offset) : (t.position o).bit < 64 :=
  Position.bit_ofDistance_lt _

/-- The distance of an offset's place is that of the offset from the commit point. -/
@[simp] theorem distance_position (t : Tracker) (o : Offset) :
    (t.position o).distance = o.toNat - t.commitPoint.toNat :=
  Position.distance_ofDistance _

/-- A bit of a block is the place at its own distance. -/
theorem ofDistance_distance {q : Position} (hq : q.bit < 64) :
    Position.ofDistance q.distance = q := by
  ext
  · simp only [Position.ofDistance, Position.distance]
    omega
  · simp only [Position.ofDistance, Position.distance]
    omega

/-- From the commit point on different offsets have different places. -/
theorem position_inj {t : Tracker} {a b : Offset} (ha : t.commitPoint ≤ a)
    (hb : t.commitPoint ≤ b) : t.position a = t.position b ↔ a = b := by
  constructor
  · intro h
    have hd := congrArg Position.distance h
    rw [distance_position, distance_position] at hd
    rw [Offset.le_def] at ha hb
    ext
    omega
  · rintro rfl
    rfl

/-- Places are ordered like the offsets that they stand for. -/
theorem position_lt_position {t : Tracker} {a b : Offset} (ha : t.commitPoint ≤ a)
    (hb : t.commitPoint ≤ b) : t.position a < t.position b ↔ a < b := by
  rw [Position.lt_iff_distance_lt (position_bit_lt t a) (position_bit_lt t b), distance_position,
    distance_position]
  simp only [Offset.le_def, Offset.lt_def] at *
  omega

/-! ### The high-water mark as an offset -/

/-- The offset of the high-water mark: `highestResolved` is the offset at its distance from the
commit point. -/
theorem WellFormed.highestResolved_eq {t : Tracker} (h : t.WellFormed) {high : Position}
    (hw : t.highWater = some high) :
    ∃ o, t.highestResolved = some o ∧ t.commitPoint ≤ o ∧ t.position o = high ∧
      o.toNat = t.commitPoint.toNat + high.distance := by
  have hnat : (t.commitPoint.advance high.distance).toNat
      = t.commitPoint.toNat + high.distance :=
    Offset.toNat_advance_of_lt (h.in_range high hw)
  refine ⟨t.commitPoint.advance high.distance, by rw [highestResolved, hw]; rfl, ?_, ?_, hnat⟩
  · rw [Offset.le_def, hnat]
    omega
  · rw [position, hnat, Nat.add_sub_cancel_left, ofDistance_distance (h.bit_lt high hw)]

/-- No offset is the highest resolved one just when `highWater = none`. -/
theorem highestResolved_eq_none {t : Tracker} :
    t.highestResolved = none ↔ t.highWater = none := by
  rw [highestResolved, Option.map_eq_none_iff]

/-- Nothing is marked as long as there is no highest resolved offset. -/
theorem WellFormed.isMarked_of_none {t : Tracker} (h : t.WellFormed)
    (hn : t.highestResolved = none) (o : Offset) : t.isMarked o = false := by
  have htest := h.unmarked (highestResolved_eq_none.mp hn) (t.position o)
  rw [isMarked, htest, Bool.and_false]

/-- The highest resolved offset is marked, and it is the highest marked one. -/
theorem WellFormed.isMarked_highest {t : Tracker} (h : t.WellFormed) {high : Offset}
    (hh : t.highestResolved = some high) :
    t.isMarked high = true ∧ ∀ o, t.isMarked o = true → o ≤ high := by
  obtain ⟨place, hplace⟩ : ∃ place, t.highWater = some place := by
    rw [← Option.ne_none_iff_exists']
    intro hn
    rw [highestResolved_eq_none.mpr hn] at hh
    cases hh
  obtain ⟨o', ho', hle, hpos, -⟩ := h.highestResolved_eq hplace
  obtain rfl : o' = high := Option.some.inj (ho'.symm.trans hh)
  constructor
  · rw [isMarked_iff, hpos]
    exact ⟨hle, h.marked place hplace⟩
  · intro o ho
    obtain ⟨hcp, htest⟩ := isMarked_iff.mp ho
    by_contra hlt
    have habove : place < t.position o := by
      rw [← hpos, position_lt_position hle hcp]
      exact lt_of_not_ge hlt
    rw [h.unmarked_above place hplace _ (position_bit_lt t o) habove] at htest
    cases htest

/-- The pending run reaches from the commit point to the highest resolved offset. -/
theorem WellFormed.pendingRun_eq {t : Tracker} (h : t.WellFormed) {high : Offset}
    (hh : t.highestResolved = some high) :
    t.pendingRun = high.toNat - t.commitPoint.toNat + 1 := by
  obtain ⟨place, hplace⟩ := Option.ne_none_iff_exists'.mp fun hn =>
    Option.some_ne_none high (hh.symm.trans (highestResolved_eq_none.mpr hn))
  obtain ⟨o, ho, -, -, hnat⟩ := h.highestResolved_eq hplace
  obtain rfl : o = high := Option.some.inj (ho.symm.trans hh)
  rw [pendingRun, hplace, hnat, Nat.add_sub_cancel_left]

/-- Without a highest resolved offset the pending run is empty. -/
theorem pendingRun_of_none {t : Tracker} (hn : t.highestResolved = none) : t.pendingRun = 0 := by
  rw [pendingRun, highestResolved_eq_none.mp hn]

/-! ### Complete runs -/

/-- Above the block of the high-water mark there is nothing to compare, so the comparison of blocks
decides about every place. -/
theorem WellFormed.isFilledTo_iff {t : Tracker} (h : t.WellFormed) {place : Position}
    (hw : t.highWater = some place) :
    t.bitmap.isFilledTo place = true ↔
      ∀ q : Position, q.bit < 64 → t.bitmap.test q = decide (¬ place < q) := by
  rw [Bitmap.isFilledTo_iff (h.block_lt place hw) (h.bit_lt place hw)]
  constructor
  · intro hfill q hq
    by_cases hblock : q.block ≤ place.block
    · exact hfill q hq hblock
    · have habove : place < q := Or.inl (Nat.lt_of_not_le hblock)
      rw [h.unmarked_above place hw q hq habove, decide_eq_false (not_not.mpr habove)]
  · intro hall q hq _
    exact hall q hq

/-- A run is complete exactly when the marked offsets are those from the commit point up to the
highest resolved one. -/
theorem WellFormed.isCommittable_iff {t : Tracker} (h : t.WellFormed) :
    t.isCommittable = true ↔ ∃ high, t.highestResolved = some high ∧
      ∀ o, t.isMarked o = true ↔ t.commitPoint ≤ o ∧ o ≤ high := by
  rcases hw : t.highWater with _ | place
  · have hnone := highestResolved_eq_none.mpr hw
    simp only [isCommittable, hw, hnone, Bool.false_eq_true, reduceCtorEq, false_and, exists_false]
  obtain ⟨high, hhigh, hcp, hpos, hnat⟩ := h.highestResolved_eq hw
  simp only [isCommittable, hw]
  rw [h.isFilledTo_iff hw]
  constructor
  · intro hfill
    refine ⟨high, hhigh, fun o => ?_⟩
    rw [isMarked_iff]
    refine and_congr_right fun ho => ?_
    rw [hfill _ (position_bit_lt t o), decide_eq_true_eq, ← hpos, position_lt_position hcp ho,
      not_lt]
  · rintro ⟨high', hhigh', hmarked⟩ q hq
    obtain rfl : high = high' := Option.some.inj (hhigh.symm.trans hhigh')
    by_cases habove : place < q
    · rw [h.unmarked_above place hw q hq habove, decide_eq_false (not_not.mpr habove)]
    · -- below the high-water mark every place stands for an offset
      have hrange := h.in_range place hw
      have hdist := mt (Position.lt_iff_distance_lt (h.bit_lt place hw) hq).mpr habove
      let o : Offset := ⟨t.commitPoint.toNat + q.distance, by omega⟩
      have hqo : t.position o = q := by
        rw [position, Nat.add_sub_cancel_left, ofDistance_distance hq]
      have hle : t.commitPoint ≤ o ∧ o ≤ high := by
        simp only [Offset.le_def, hnat, o]
        omega
      have htest := (isMarked_iff.mp ((hmarked o).mpr hle)).2
      rw [hqo] at htest
      rw [htest, decide_eq_true habove]

/-! ### What the operations do -/

/-- A new tracker is well formed. -/
theorem wellFormed_start (first : Offset) (threshold : Nat) :
    (start first threshold).WellFormed where
  capacity_pos := Nat.one_pos
  unmarked _ q := Bitmap.test_fresh q
  bit_lt _ h := by cases h
  block_lt _ h := by cases h
  marked _ h := by cases h
  unmarked_above _ h := by cases h
  in_range _ h := by cases h

/-- Re-basing forgets every mark, whether or not the blocks stay allocated. -/
theorem WellFormed.rebase {t : Tracker} (h : t.WellFormed) (o : Offset) :
    (t.rebase o).WellFormed where
  capacity_pos := by
    have := h.capacity_pos
    rw [Tracker.rebase, Bitmap.capacity_clear]
    split <;> omega
  unmarked _ q := Bitmap.test_clear _ _ q
  bit_lt _ h := by cases h
  block_lt _ h := by cases h
  marked _ h := by cases h
  unmarked_above _ h := by cases h
  in_range _ h := by cases h

/-- A new tracker has no marks. -/
@[simp] theorem isMarked_start (first : Offset) (threshold : Nat) (o : Offset) :
    (start first threshold).isMarked o = false := by
  simp only [isMarked, start, Bitmap.test_fresh, Bool.and_false]

/-- A re-based tracker has no marks. -/
@[simp] theorem isMarked_rebase (t : Tracker) (point o : Offset) :
    (t.rebase point).isMarked o = false := by
  simp only [isMarked, rebase, Bitmap.test_clear, Bool.and_false]

/-- The raised mark is the new place or the old mark, and lies below neither. -/
theorem raise_spec (highWater : Option Position) (p : Position) :
    ∃ high, raise highWater p = some high ∧ (high = p ∨ highWater = some high) ∧
      ¬ high < p ∧ ∀ old, highWater = some old → ¬ high < old := by
  have hirrefl : ∀ q : Position, ¬ q < q := fun q hq => by
    rw [Position.lt_def] at hq
    omega
  rcases highWater with _ | old
  · exact ⟨p, rfl, .inl rfl, hirrefl p, fun _ h => by cases h⟩
  · by_cases hlt : old < p
    · refine ⟨p, by rw [raise, if_pos hlt], .inl rfl, hirrefl p, ?_⟩
      rintro _ ⟨rfl⟩
      rw [Position.lt_def] at hlt ⊢
      omega
    · refine ⟨old, by rw [raise, if_neg hlt], .inr rfl, hlt, ?_⟩
      rintro _ ⟨rfl⟩
      exact hirrefl old

/-- Nothing is marked above a place `high` that is not below the high-water mark (`hnot`). -/
theorem WellFormed.test_of_above {t : Tracker} (h : t.WellFormed) {high q : Position}
    (hhigh : high.bit < 64) (hq : q.bit < 64)
    (hnot : ∀ old, t.highWater = some old → ¬ high < old) (habove : high < q) :
    t.bitmap.test q = false := by
  rcases hold : t.highWater with _ | old
  · exact h.unmarked hold q
  · apply h.unmarked_above old hold q hq
    have holdbit := h.bit_lt old hold
    have hnotold := hnot old hold
    rw [Position.lt_iff_distance_lt hhigh hq] at habove
    rw [Position.lt_iff_distance_lt hhigh holdbit] at hnotold
    rw [Position.lt_iff_distance_lt holdbit hq]
    omega

/-- The place of an offset that is not below the commit point stands for an offset. -/
theorem commitPoint_add_distance_lt {t : Tracker} {o : Offset} (ho : t.commitPoint ≤ o) :
    t.commitPoint.toNat + (t.position o).distance < 0x10000000000000000 := by
  have := o.toNat_lt
  rw [Offset.le_def] at ho
  rw [distance_position]
  omega

/-- Marking a place that stands for an offset preserves `WellFormed`. -/
theorem WellFormed.mark {t : Tracker} (h : t.WellFormed) {o : Offset} (ho : t.commitPoint ≤ o) :
    WellFormed { t with
      bitmap := (t.bitmap.reserve (t.position o).block).mark (t.position o)
      highWater := raise t.highWater (t.position o) } := by
  obtain ⟨high, hraise, hfrom, hnotp, hnotold⟩ := raise_spec t.highWater (t.position o)
  have hbit := position_bit_lt t o
  -- the room for the place is made first, so its block is allocated in any case
  have hroom : (t.position o).block < (t.bitmap.reserve (t.position o).block).capacity := by
    rw [Bitmap.capacity_reserve]
    split <;> omega
  have htest := Bitmap.test_mark hroom hbit
  have hhighbit : high.bit < 64 := by
    rcases hfrom with rfl | hold
    · exact hbit
    · exact h.bit_lt high hold
  constructor
  case capacity_pos =>
    rw [Bitmap.capacity_mark]
    omega
  case unmarked =>
    intro hnone
    rw [hraise] at hnone
    cases hnone
  case bit_lt =>
    rintro _ hsome
    obtain rfl := Option.some.inj (hraise.symm.trans hsome)
    exact hhighbit
  case block_lt =>
    rintro _ hsome
    obtain rfl := Option.some.inj (hraise.symm.trans hsome)
    rw [Bitmap.capacity_mark]
    rcases hfrom with rfl | hold
    · exact hroom
    · have := h.block_lt high hold
      rw [Bitmap.capacity_reserve]
      split <;> omega
  case marked =>
    rintro _ hsome
    obtain rfl := Option.some.inj (hraise.symm.trans hsome)
    rw [htest, Bool.or_eq_true, decide_eq_true_eq, Bitmap.test_reserve]
    exact hfrom.imp id (h.marked high)
  case unmarked_above =>
    rintro _ hsome q hq habove
    obtain rfl := Option.some.inj (hraise.symm.trans hsome)
    have hne : q ≠ t.position o := fun heq => hnotp (heq ▸ habove)
    rw [htest, decide_eq_false hne, Bool.false_or, Bitmap.test_reserve]
    exact h.test_of_above hhighbit hq hnotold habove
  case in_range =>
    rintro _ hsome
    obtain rfl := Option.some.inj (hraise.symm.trans hsome)
    rcases hfrom with rfl | hold
    · exact commitPoint_add_distance_lt ho
    · exact h.in_range high hold

/-- Everything that resolving an offset can do: `.stale` and `.duplicate` leave the tracker as it
is, and `.marked` changes nothing but the mark of the offset. -/
theorem WellFormed.resolve_cases {t : Tracker} (h : t.WellFormed) (o : Offset) :
    (o < t.commitPoint ∧ t.resolve o = (.stale, t)) ∨
    (t.commitPoint ≤ o ∧ t.isMarked o = true ∧ t.resolve o = (.duplicate, t)) ∨
    (t.commitPoint ≤ o ∧ t.isMarked o = false ∧ ∃ marked, t.resolve o = (.marked, marked) ∧
      marked.WellFormed ∧ marked.commitPoint = t.commitPoint ∧
      ∀ q, marked.isMarked q = true ↔ q = o ∨ t.isMarked q = true) := by
  by_cases hlt : o < t.commitPoint
  · exact .inl ⟨hlt, by rw [resolve, if_pos hlt]⟩
  have hle : t.commitPoint ≤ o := le_of_not_gt hlt
  right
  by_cases hmarked : t.bitmap.test (t.position o) = true
  · refine .inl ⟨hle, isMarked_iff.mpr ⟨hle, hmarked⟩, ?_⟩
    have hkeep := Bitmap.reserve_of_test hmarked
    simp only [resolve, if_neg hlt, hkeep, hmarked, if_true]
  · refine .inr ⟨hle, ?_, _, ?_, h.mark hle, rfl, ?_⟩
    · rw [Bool.eq_false_iff, ne_eq, isMarked_iff]
      exact fun hm => hmarked hm.2
    · simp only [resolve, if_neg hlt, Bitmap.test_reserve, if_neg hmarked]
    · intro q
      have hroom : (t.position o).block < (t.bitmap.reserve (t.position o).block).capacity := by
        rw [Bitmap.capacity_reserve]
        split <;> omega
      simp only [isMarked_iff]
      rw [show Tracker.position _ q = t.position q from rfl,
        Bitmap.test_mark hroom (position_bit_lt t o), Bool.or_eq_true, decide_eq_true_eq,
        Bitmap.test_reserve, and_or_left]
      refine or_congr ⟨fun hq => (position_inj hq.1 hle).mp hq.2, ?_⟩ Iff.rfl
      rintro rfl
      exact ⟨hle, rfl⟩

/-- An offset that is not newly marked leaves the tracker as it is, down to its blocks. -/
theorem WellFormed.resolve_eq_self {t : Tracker} (h : t.WellFormed) {o : Offset}
    (hne : (t.resolve o).1 ≠ .marked) : (t.resolve o).2 = t := by
  rcases h.resolve_cases o with ⟨-, heq⟩ | ⟨-, -, heq⟩ | ⟨-, -, _, heq, -⟩
  · rw [heq]
  · rw [heq]
  · rw [heq] at hne
    exact absurd rfl hne

/-- Everything that taking the run out can do: nothing, or a re-base at `t.nextCommit`. -/
theorem takeRun_cases (t : Tracker) :
    (t.isCommittable = false ∧ t.takeRun = (none, t)) ∨
    (t.isCommittable = true ∧
      t.takeRun = (some ⟨t.nextCommit, t.pendingRun⟩, t.rebase t.nextCommit)) := by
  rw [takeRun]
  rcases hc : t.isCommittable with _ | _
  · exact .inl ⟨rfl, rfl⟩
  · exact .inr ⟨rfl, rfl⟩

end Tracker

/-! ### Runs -/

/-- Something that changes a tracker. -/
inductive TrackerAction where
  /-- An offset is resolved. -/
  | resolve (offset : Offset)
  /-- The run is taken out if it is complete. -/
  | takeRun
  /-- The commit point is moved and every mark forgotten. -/
  | rebase (offset : Offset)
deriving DecidableEq

namespace Tracker

/-- The tracker after an action. -/
def act (t : Tracker) : TrackerAction → Tracker
  | .resolve o => (t.resolve o).2
  | .takeRun => t.takeRun.2
  | .rebase o => t.rebase o

/-- The tracker after several actions, one after the other. -/
def run (t : Tracker) (actions : List TrackerAction) : Tracker :=
  actions.foldl act t

/-- Every action preserves `WellFormed`. -/
theorem WellFormed.act {t : Tracker} (h : t.WellFormed) (action : TrackerAction) :
    (t.act action).WellFormed := by
  cases action with
  | resolve o =>
      rcases h.resolve_cases o with ⟨-, heq⟩ | ⟨-, -, heq⟩ | ⟨-, -, marked, heq, hm, -⟩
      · simpa only [Tracker.act, heq] using h
      · simpa only [Tracker.act, heq] using h
      · simpa only [Tracker.act, heq] using hm
  | takeRun =>
      rcases t.takeRun_cases with ⟨-, heq⟩ | ⟨-, heq⟩
      · simpa only [Tracker.act, heq] using h
      · simpa only [Tracker.act, heq] using h.rebase t.nextCommit
  | rebase o => exact h.rebase o

/-- Every run preserves `WellFormed`. -/
theorem WellFormed.run {t : Tracker} (h : t.WellFormed) (actions : List TrackerAction) :
    (t.run actions).WellFormed := by
  induction actions generalizing t with
  | nil => exact h
  | cons action rest ih => exact ih (h.act action)

end Tracker

end OffsetCommit
