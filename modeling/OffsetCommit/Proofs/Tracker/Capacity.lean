import Mathlib.Data.Nat.Log
import OffsetCommit.Proofs.Tracker.Invariant

/-!
# How much memory a tracker keeps

The number of blocks follows the highest resolved offset and the shrink threshold, and nothing else
of a tracker's past. A bitmap that has to grow more than doubles, so it grows seldom; re-basing
gives it up when it has become larger than the threshold.

* `Snug.act`, `Snug.run`: every operation keeps the bound `Tracker.Snug`, and `Snug.capacity_le`
  reads it off.
* `WellFormed.two_pow_growths_le`, `WellFormed.growths_le_log`: how seldom a bitmap grows.
* `memory_is_bounded`: both of every run.
-/

namespace OffsetCommit.Tracker

/-! ### What one operation does to the blocks -/

/-- Re-basing keeps the blocks up to the threshold, and leaves one of more. -/
theorem capacity_rebase (t : Tracker) (o : Offset) :
    (t.rebase o).capacity = if t.shrinkThreshold < t.capacity then 1 else t.capacity :=
  Bitmap.capacity_clear t.bitmap t.shrinkThreshold

/-- An offset that is newly marked makes the bitmap grow when its block is not there, to twice the
blocks that it needs. -/
theorem capacity_resolve_of_marked {t : Tracker} {o : Offset} (h : (t.resolve o).1 = .marked) :
    (t.resolve o).2.capacity =
      if (o.toNat - t.commitPoint.toNat) / 64 < t.capacity then t.capacity
      else 2 * ((o.toNat - t.commitPoint.toNat) / 64 + 1) := by
  have hreserve := Bitmap.capacity_reserve t.bitmap (t.position o).block
  unfold resolve at h ⊢
  split at h
  · cases h
  · next hle =>
      rw [if_neg hle]
      dsimp only at h ⊢
      split at h
      · cases h
      · next hnew =>
          rw [if_neg hnew, capacity, Bitmap.capacity_mark]
          exact hreserve

/-- Resolving an offset keeps the number of blocks or more than doubles it. -/
theorem WellFormed.capacity_resolve_cases {t : Tracker} (h : t.WellFormed) (o : Offset) :
    (t.resolve o).2.capacity = t.capacity ∨
      2 * t.capacity + 2 ≤ (t.resolve o).2.capacity := by
  by_cases hmarked : (t.resolve o).1 = .marked
  · rw [capacity_resolve_of_marked hmarked]
    split
    · exact .inl rfl
    · right
      omega
  · exact .inl (congrArg capacity (h.resolve_eq_self hmarked))

/-- No action changes the shrink threshold. -/
theorem shrinkThreshold_act (t : Tracker) (action : TrackerAction) :
    (t.act action).shrinkThreshold = t.shrinkThreshold := by
  cases action with
  | resolve o =>
      simp only [act, resolve]
      repeat' first | rfl | split
  | takeRun =>
      rcases t.takeRun_cases with ⟨-, heq⟩ | ⟨-, heq⟩
      · rw [act, heq]
      · rw [act, heq]
        rfl
  | rebase o => rfl

/-- No run changes `shrinkThreshold`. -/
theorem shrinkThreshold_run (t : Tracker) (actions : List TrackerAction) :
    (t.run actions).shrinkThreshold = t.shrinkThreshold := by
  induction actions generalizing t with
  | nil => rfl
  | cons action rest ih => exact (ih (t.act action)).trans (t.shrinkThreshold_act action)

/-! ### The bound -/

/-- The invariant that bounds `t.capacity` by the threshold, or by twice what the highest resolved
offset needs. `Snug.act` keeps it. -/
structure Snug (t : Tracker) : Prop where
  /-- The tracker keeps its invariant. -/
  wellFormed : t.WellFormed
  /-- The threshold allows for a block. -/
  threshold_pos : 0 < t.shrinkThreshold
  /-- With nothing resolved the threshold is the bound. -/
  idle : t.highestResolved = none → t.capacity ≤ t.shrinkThreshold
  /-- A bitmap above the threshold was made for an offset up to the highest resolved one. -/
  used : ∀ high, t.highestResolved = some high →
    t.capacity ≤ max t.shrinkThreshold (2 * ((high.toNat - t.commitPoint.toNat) / 64 + 1))

/-- A new tracker has one block. -/
theorem snug_start (first : Offset) {threshold : Nat} (h : 0 < threshold) :
    (start first threshold).Snug where
  wellFormed := wellFormed_start first threshold
  threshold_pos := h
  idle _ := h
  used _ hhigh := by cases hhigh

/-- A marked offset lies in an allocated block. -/
theorem block_lt_of_isMarked {t : Tracker} {o : Offset} (ho : t.isMarked o = true) :
    (o.toNat - t.commitPoint.toNat) / 64 < t.capacity := by
  by_contra hout
  have htest := (isMarked_iff.mp ho).2
  have hnone : t.bitmap.blocks[(t.position o).block]? = none :=
    Array.getElem?_eq_none (Nat.le_of_not_lt hout)
  rw [Bitmap.test, hnone] at htest
  simp at htest

namespace Snug

variable {t : Tracker}

/-- If the highest resolved offset, should there be one, needs no block beyond `bound`, there are at
most `max t.shrinkThreshold (2 * (bound + 1))` blocks. -/
theorem capacity_le (h : t.Snug) {bound : Nat}
    (hbound : ∀ high, t.highestResolved = some high →
      (high.toNat - t.commitPoint.toNat) / 64 ≤ bound) :
    t.capacity ≤ max t.shrinkThreshold (2 * (bound + 1)) := by
  rcases hh : t.highestResolved with _ | high
  · exact (h.idle hh).trans (le_max_left _ _)
  · have hused := h.used high hh
    have hle := hbound high hh
    omega

/-- Re-basing preserves `Snug`. -/
theorem rebase (h : t.Snug) (o : Offset) : (t.rebase o).Snug where
  wellFormed := h.wellFormed.rebase o
  threshold_pos := h.threshold_pos
  idle _ := by
    have hpos := h.threshold_pos
    rw [capacity_rebase]
    show _ ≤ t.shrinkThreshold
    split <;> omega
  used _ hhigh := by cases hhigh

/-- Resolving an offset preserves `Snug`. -/
theorem resolve (h : t.Snug) (o : Offset) : (t.resolve o).2.Snug := by
  rcases h.wellFormed.resolve_cases o with ⟨-, heq⟩ | ⟨-, -, heq⟩ | ⟨hle, -, t', heq, hwf, hcp, hmem⟩
  · rw [heq]
    exact h
  · rw [heq]
    exact h
  · have hcapacity := capacity_resolve_of_marked (congrArg Prod.fst heq)
    have hthreshold := t.shrinkThreshold_act (.resolve o)
    rw [act] at hthreshold
    rw [heq] at hcapacity hthreshold ⊢
    dsimp only at hcapacity hthreshold ⊢
    refine ⟨hwf, hthreshold ▸ h.threshold_pos, fun hnone => ?_, fun high hhigh => ?_⟩
    · have hnot := hwf.isMarked_of_none hnone o
      rw [(hmem o).mpr (.inl rfl)] at hnot
      cases hnot
    · -- the highest offset now is neither below the new one nor below the highest one before
      have hmax := (hwf.isMarked_highest hhigh).2
      have hnew := Offset.le_def.mp (hmax o ((hmem o).mpr (.inl rfl)))
      rw [hcapacity, hthreshold, hcp]
      split
      · apply h.capacity_le
        intro old hold
        have hmarked := (h.wellFormed.isMarked_highest hold).1
        have hle := Offset.le_def.mp (hmax old ((hmem old).mpr (.inr hmarked)))
        omega
      · omega

/-- Every action preserves `Snug`. -/
theorem act (h : t.Snug) (action : TrackerAction) : (t.act action).Snug := by
  cases action with
  | resolve o => exact h.resolve o
  | takeRun =>
      rcases t.takeRun_cases with ⟨-, heq⟩ | ⟨-, heq⟩
      · simpa only [Tracker.act, heq] using h
      · simpa only [Tracker.act, heq] using h.rebase t.nextCommit
  | rebase o => exact h.rebase o

/-- Every run preserves `Snug`. -/
theorem run (h : t.Snug) (actions : List TrackerAction) : (t.run actions).Snug := by
  induction actions generalizing t with
  | nil => exact h
  | cons action rest ih => exact ih (h.act action)

end Snug

/-! ### Growth between two re-bases -/

/-- Whether an action empties the bitmap: `.rebase`, or a `.takeRun` that takes a run out. -/
def resets (t : Tracker) : TrackerAction → Bool
  | .resolve _ => false
  | .takeRun => t.isCommittable
  | .rebase _ => true

/-- Whether no action of a run `resets` the tracker that it finds. -/
def keepsBase (t : Tracker) : List TrackerAction → Bool
  | [] => true
  | action :: rest => !t.resets action && (t.act action).keepsBase rest

/-- The number of actions of a run by which `capacity` grows. -/
def growths (t : Tracker) : List TrackerAction → Nat
  | [] => 0
  | action :: rest =>
      (if t.capacity < (t.act action).capacity then 1 else 0) + (t.act action).growths rest

/-- An action that does not empty the bitmap keeps its blocks or more than doubles them. -/
theorem WellFormed.capacity_act_cases {t : Tracker} (h : t.WellFormed) {action : TrackerAction}
    (hkeeps : t.resets action = false) :
    (t.act action).capacity = t.capacity ∨ 2 * t.capacity + 2 ≤ (t.act action).capacity := by
  cases action with
  | resolve o => exact h.capacity_resolve_cases o
  | takeRun =>
      rcases t.takeRun_cases with ⟨-, heq⟩ | ⟨hcommittable, -⟩
      · exact .inl (by rw [Tracker.act, heq])
      · rw [resets, hcommittable] at hkeeps
        cases hkeeps
  | rebase o => cases hkeeps

/-- **A bitmap grows seldom**: each growth between two re-bases at least doubles `capacity + 2`. The
induction is on the actions. -/
theorem WellFormed.two_pow_growths_le {t : Tracker} (h : t.WellFormed)
    {actions : List TrackerAction} (hkeeps : t.keepsBase actions = true) :
    2 ^ t.growths actions * (t.capacity + 2) ≤ (t.run actions).capacity + 2 := by
  induction actions generalizing t with
  | nil => exact (Nat.one_mul _).le
  | cons action rest ih =>
      rw [keepsBase, Bool.and_eq_true, Bool.not_eq_true'] at hkeeps
      have hrest := ih (h.act action) hkeeps.2
      have hone : 2 ^ (if t.capacity < (t.act action).capacity then 1 else 0) * (t.capacity + 2) ≤
          (t.act action).capacity + 2 := by
        rcases h.capacity_act_cases hkeeps.1 with heq | hgrown
        · rw [heq, if_neg (lt_irrefl _), pow_zero, one_mul]
        · split <;> omega
      calc 2 ^ t.growths (action :: rest) * (t.capacity + 2)
          = 2 ^ (t.act action).growths rest *
              (2 ^ (if t.capacity < (t.act action).capacity then 1 else 0) * (t.capacity + 2)) := by
            rw [growths, Nat.pow_add, Nat.mul_comm (2 ^ _), Nat.mul_assoc]
        _ ≤ 2 ^ (t.act action).growths rest * ((t.act action).capacity + 2) :=
            Nat.mul_le_mul_left _ hone
        _ ≤ ((t.act action).run rest).capacity + 2 := hrest

/-- Between two re-bases the number of blocks never becomes smaller. -/
theorem WellFormed.capacity_le_run {t : Tracker} (h : t.WellFormed) {actions : List TrackerAction}
    (hkeeps : t.keepsBase actions = true) : t.capacity ≤ (t.run actions).capacity := by
  have hpow := h.two_pow_growths_le hkeeps
  have hone := Nat.mul_le_mul_right (t.capacity + 2) (Nat.one_le_two_pow (n := t.growths actions))
  omega

/-- The number of growths is at most `Nat.log 2` of the number of blocks. -/
theorem WellFormed.growths_le_log {t : Tracker} (h : t.WellFormed) {actions : List TrackerAction}
    (hkeeps : t.keepsBase actions = true) :
    t.growths actions ≤ Nat.log 2 (t.run actions).capacity := by
  have hpow := h.two_pow_growths_le hkeeps
  have hblock := (h.run actions).capacity_pos
  have hthree : 2 ^ t.growths actions * 3 ≤ 2 ^ t.growths actions * (t.capacity + 2) := by
    apply Nat.mul_le_mul_left
    have := h.capacity_pos
    rw [capacity]
    omega
  have hone := Nat.one_le_two_pow (n := t.growths actions)
  apply Nat.le_log_of_pow_le Nat.one_lt_two
  omega

/-! ### What is kept and what is given up -/

/-- **A tracker's memory is bounded.** Whatever is done to a new tracker, its `capacity` is at least
one and above the block of every marked offset; it is at most `threshold` or `2 * ((high.toNat -
t.commitPoint.toNat) / 64 + 1)`, where `high` is the highest resolved offset, and at most
`threshold` if there is none. To resolve an offset leaves the capacity or more than doubles it;
while no action `resets` the bitmap it does not fall, and it grows at most as often as its logarithm
says. To re-base, or to take a run out, leaves one block of more than `threshold`, and otherwise
all. -/
theorem memory_is_bounded (first : Offset) {threshold : Nat} (hthreshold : 0 < threshold)
    (actions : List TrackerAction) :
    ∃ new, Tracker.new? first threshold = .ok new ∧
      let t := new.run actions
      1 ≤ t.capacity ∧
      (∀ o, t.isMarked o = true → (o.toNat - t.commitPoint.toNat) / 64 < t.capacity) ∧
      (∀ high, t.highestResolved = some high →
        t.capacity ≤ max threshold (2 * ((high.toNat - t.commitPoint.toNat) / 64 + 1))) ∧
      (t.highestResolved = none → t.capacity ≤ threshold) ∧
      (∀ o, ((t.resolve o).1 ≠ .marked → (t.resolve o).2.capacity = t.capacity) ∧
        ((t.resolve o).2.capacity ≠ t.capacity →
          2 * t.capacity + 2 ≤ (t.resolve o).2.capacity)) ∧
      (∀ later, t.keepsBase later = true →
        t.capacity ≤ (t.run later).capacity ∧
        2 ^ t.growths later * (t.capacity + 2) ≤ (t.run later).capacity + 2 ∧
        t.growths later ≤ Nat.log 2 (t.run later).capacity) ∧
      (∀ o, (t.rebase o).capacity = if threshold < t.capacity then 1 else t.capacity) ∧
      (∀ advance, t.takeRun.1 = some advance →
        t.takeRun.2.capacity = if threshold < t.capacity then 1 else t.capacity) := by
  refine ⟨start first threshold, by rw [new?, if_neg (Nat.pos_iff_ne_zero.mp hthreshold)], ?_⟩
  intro t
  have hsnug : t.Snug := (snug_start first hthreshold).run actions
  have hsame : t.shrinkThreshold = threshold := shrinkThreshold_run _ actions
  have hrebase := t.capacity_rebase
  rw [hsame] at hrebase
  refine ⟨hsnug.wellFormed.capacity_pos, fun o => block_lt_of_isMarked,
    fun high hhigh => hsame ▸ hsnug.used high hhigh, fun hnone => hsame ▸ hsnug.idle hnone,
    fun o => ⟨fun hne => ?_, fun hne => ?_⟩, fun later hkeeps => ⟨?_, ?_, ?_⟩, hrebase,
    fun advance hadvance => ?_⟩
  · rw [hsnug.wellFormed.resolve_eq_self hne]
  · exact (hsnug.wellFormed.capacity_resolve_cases o).resolve_left hne
  · exact hsnug.wellFormed.capacity_le_run hkeeps
  · exact hsnug.wellFormed.two_pow_growths_le hkeeps
  · exact hsnug.wellFormed.growths_le_log hkeeps
  · rcases t.takeRun_cases with ⟨-, heq⟩ | ⟨-, heq⟩
    · rw [heq] at hadvance
      cases hadvance
    · rw [heq]
      exact hrebase t.nextCommit

/-- With a threshold of two blocks the offset 200 makes the bitmap grow to eight, within which 500
fits, and 1000 makes it grow again; re-basing gives it up. -/
theorem memory_is_bounded_across_growth :
    let later : List TrackerAction := [.resolve (.clamp 500), .takeRun, .resolve (.clamp 1000)]
    0 < 2 ∧ ∃ new, Tracker.new? .zero 2 = .ok new ∧
      let t := new.run [.resolve (.clamp 200)]
      t.capacity = 8 ∧ t.keepsBase later = true ∧ t.growths later = 1 ∧
      (t.run later).capacity = 32 ∧ t.growths later ≤ Nat.log 2 32 ∧
      (t.rebase (.clamp 7)).capacity = 1 := by
  intro later
  obtain ⟨new, hnew, -, -, -, -, -, hlater, hrebase, -⟩ :=
    memory_is_bounded .zero Nat.zero_lt_two [.resolve (.clamp 200)]
  obtain rfl := Except.ok.inj hnew
  have hcapacity : ((start .zero 2).run [.resolve (.clamp 200)]).capacity = 8 := by decide +kernel
  have hkeeps : ((start .zero 2).run [.resolve (.clamp 200)]).keepsBase later = true := by
    decide +kernel
  have hgrown : (((start .zero 2).run [.resolve (.clamp 200)]).run later).capacity = 32 := by
    decide +kernel
  refine ⟨Nat.zero_lt_two, _, hnew, hcapacity, hkeeps, by decide +kernel, hgrown, ?_, ?_⟩
  · rw [← hgrown]
    exact (hlater later hkeeps).2.2
  · rw [hrebase, hcapacity, if_pos (by decide)]

end OffsetCommit.Tracker
