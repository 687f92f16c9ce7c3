import OffsetCommit.Proofs.Tracker.ResolvedSet

/-!
# Trackers refine plain sets

A tracker represents a set when it is well formed, has the same commit point, and marks exactly the
offsets of the set (`Represents`). All operations keep this relation and give the same answers on
both sides, so the bitmap with its two ways of being cleared cannot be told from the set.

* `Represents.resolve`, `Represents.takeRun`, `Represents.rebase`: each operation on both sides.
* `Represents.run`, `Represents.agrees`: whole runs, and what is told after them.
* `run_agrees`: so a tracker is a set of offsets.
-/

namespace OffsetCommit

namespace Tracker

/-- The tracker holds exactly the offsets of the set `s`: the same commit point, and `t.isMarked o`
just for the `o` in `s.resolved`. `Represents.act` keeps it. -/
structure Represents (t : Tracker) (s : ResolvedSet) : Prop where
  /-- The tracker keeps its invariant. -/
  wellFormed : t.WellFormed
  /-- Both begin at the same offset. -/
  commitPoint_eq : t.commitPoint = s.commitPoint
  /-- The marked offsets are those of the set. -/
  mem_iff : ∀ o, o ∈ s.resolved ↔ t.isMarked o = true

/-- A new tracker represents the empty set that begins at the same offset. -/
theorem represents_start (first : Offset) (threshold : Nat) :
    (start first threshold).Represents (.start first) where
  wellFormed := wellFormed_start first threshold
  commitPoint_eq := rfl
  mem_iff o := by simp [ResolvedSet.start]

namespace Represents

variable {t : Tracker} {s : ResolvedSet}

/-! ### Queries -/

/-- A tracker has the same `highestResolved` as the set that it represents. -/
theorem highestResolved_eq (h : t.Represents s) : t.highestResolved = s.highest? := by
  rcases hh : t.highestResolved with _ | high
  · have hempty : s.resolved = ∅ := by
      rw [Finset.eq_empty_iff_forall_notMem]
      intro o ho
      have hmarked := (h.mem_iff o).mp ho
      rw [h.wellFormed.isMarked_of_none hh] at hmarked
      cases hmarked
    rw [ResolvedSet.highest?_eq_none_iff.mpr hempty]
  · obtain ⟨hmem, hmax⟩ := h.wellFormed.isMarked_highest hh
    symm
    rw [ResolvedSet.highest?_eq_some_iff]
    exact ⟨(h.mem_iff high).mpr hmem, fun o ho => hmax o ((h.mem_iff o).mp ho)⟩

/-- A tracker has a pending run of the same length as the set that it represents. -/
theorem pendingRun_eq (h : t.Represents s) : t.pendingRun = s.pendingRun := by
  unfold ResolvedSet.pendingRun
  rw [← h.highestResolved_eq, ← h.commitPoint_eq]
  rcases hh : t.highestResolved with _ | high
  · exact pendingRun_of_none hh
  · exact h.wellFormed.pendingRun_eq hh

/-- A tracker has the same `nextCommit` as the set that it represents. -/
theorem nextCommit_eq (h : t.Represents s) : t.nextCommit = s.nextCommit := by
  rw [nextCommit, ResolvedSet.nextCommit, Offset.advance, h.pendingRun_eq, h.commitPoint_eq]

/-- A tracker `isCommittable` just when the set that it represents is. -/
theorem isCommittable_eq (h : t.Represents s) : t.isCommittable = s.isCommittable := by
  rw [Bool.eq_iff_iff, h.wellFormed.isCommittable_iff, ResolvedSet.isCommittable_iff,
    h.highestResolved_eq, h.commitPoint_eq]
  simp only [h.mem_iff]

/-- The snapshot shows what the set has, and the number of blocks. -/
theorem snapshot_eq (h : t.Represents s) :
    t.snapshot = ⟨s.commitPoint, s.highest?, t.capacity, s.isCommittable⟩ := by
  rw [snapshot, h.commitPoint_eq, h.highestResolved_eq, h.isCommittable_eq]

/-- The run that waits for a commit has the length of the set's pending run, if that is complete. -/
theorem committableRun_eq (h : t.Represents s) :
    t.snapshot.committableRun = if s.isCommittable then s.pendingRun else 0 := by
  rw [h.snapshot_eq, ResolvedSet.pendingRun]
  rcases hc : s.isCommittable with _ | _
  · rfl
  · obtain ⟨high, hhigh, -⟩ := ResolvedSet.isCommittable_iff.mp hc
    simp only [Snapshot.committableRun, hhigh, if_true]

/-! ### Operations -/

/-- Resolving gives the same answer on both sides, and both sides still agree afterwards. -/
theorem resolve (h : t.Represents s) (o : Offset) :
    (t.resolve o).1 = (s.resolve o).1 ∧ (t.resolve o).2.Represents (s.resolve o).2 := by
  rcases h.wellFormed.resolve_cases o with
    ⟨hlt, heq⟩ | ⟨hle, hmarked, heq⟩ | ⟨hle, hmarked, t', heq, hwf, hcp, hmem⟩
  · have hs : s.resolve o = (.stale, s) := by
      rw [ResolvedSet.resolve, if_pos (h.commitPoint_eq ▸ hlt)]
    rw [heq, hs]
    exact ⟨rfl, h⟩
  · have hs : s.resolve o = (.duplicate, s) := by
      rw [ResolvedSet.resolve, if_neg (not_lt.mpr (h.commitPoint_eq ▸ hle)),
        if_pos ((h.mem_iff o).mpr hmarked)]
    rw [heq, hs]
    exact ⟨rfl, h⟩
  · have hnot : o ∉ s.resolved := by
      rw [h.mem_iff, hmarked]
      exact Bool.false_ne_true
    have hs : s.resolve o = (.marked, { s with resolved := insert o s.resolved }) := by
      rw [ResolvedSet.resolve, if_neg (not_lt.mpr (h.commitPoint_eq ▸ hle)), if_neg hnot]
    rw [heq, hs]
    refine ⟨rfl, hwf, hcp.trans h.commitPoint_eq, fun q => ?_⟩
    rw [hmem, Finset.mem_insert, h.mem_iff]

/-- After a re-base nothing is resolved on either side. -/
theorem rebase (h : t.Represents s) (o : Offset) : (t.rebase o).Represents (.start o) where
  wellFormed := h.wellFormed.rebase o
  commitPoint_eq := rfl
  mem_iff q := by simp [ResolvedSet.start]

/-- Taking the run out gives the same run on both sides, and both sides still agree. -/
theorem takeRun (h : t.Represents s) :
    t.takeRun.1 = s.takeRun.1 ∧ t.takeRun.2.Represents s.takeRun.2 := by
  have hc := h.isCommittable_eq
  rcases t.takeRun_cases with ⟨hcommit, heq⟩ | ⟨hcommit, heq⟩
  · rw [hcommit] at hc
    have hs : s.takeRun = (none, s) := by
      rw [ResolvedSet.takeRun, ← hc]
      rfl
    rw [heq, hs]
    exact ⟨rfl, h⟩
  · rw [hcommit] at hc
    have hs : s.takeRun = (some ⟨s.nextCommit, s.pendingRun⟩, .start s.nextCommit) := by
      rw [ResolvedSet.takeRun, ← hc]
      rfl
    rw [heq, hs, h.nextCommit_eq, h.pendingRun_eq]
    exact ⟨rfl, h.rebase s.nextCommit⟩

/-- Every action preserves `Represents`. -/
theorem act (h : t.Represents s) (action : TrackerAction) :
    (t.act action).Represents (s.act action) := by
  cases action with
  | resolve o => exact (h.resolve o).2
  | takeRun => exact h.takeRun.2
  | rebase o => exact h.rebase o

/-- Every run preserves `Represents`, with the run of the set. -/
theorem run (h : t.Represents s) (actions : List TrackerAction) :
    (t.run actions).Represents (s.run actions) := by
  induction actions generalizing t s with
  | nil => exact h
  | cons action rest ih => exact ih (h.act action)

end Represents

/-! ### What can be seen -/

/-- All that can be learned from the tracker is what the set says: every query, and the answer to
every operation that may come next. `Represents.agrees` shows it. -/
structure Agrees (t : Tracker) (s : ResolvedSet) : Prop where
  /-- The commit point. -/
  commitPoint : t.commitPoint = s.commitPoint
  /-- The last offset before the commit point, if there is one. -/
  lastAcknowledged : t.lastAcknowledged = s.commitPoint.prev?
  /-- The highest resolved offset. -/
  highestResolved : t.highestResolved = s.highest?
  /-- The length of the pending run. -/
  pendingRun : t.pendingRun = s.pendingRun
  /-- The offset behind the pending run. -/
  nextCommit : t.nextCommit = s.nextCommit
  /-- Whether there is no gap. -/
  isCommittable : t.isCommittable = s.isCommittable
  /-- The snapshot. -/
  snapshot : t.snapshot = ⟨s.commitPoint, s.highest?, t.capacity, s.isCommittable⟩
  /-- The length of the run that waits for a commit. -/
  committableRun : t.snapshot.committableRun = if s.isCommittable then s.pendingRun else 0
  /-- How the next offset is taken. -/
  resolve : ∀ o, (t.resolve o).1 = (s.resolve o).1
  /-- An offset that is not marked changes nothing. -/
  resolve_unchanged : ∀ o, (t.resolve o).1 ≠ .marked → (t.resolve o).2 = t
  /-- The run that is taken out next. -/
  takeRun : t.takeRun.1 = s.takeRun.1
  /-- Without a complete run nothing changes. -/
  takeRun_unchanged : t.takeRun.1 = none → t.takeRun.2 = t

/-- A tracker that represents a set tells what the set tells: `Agrees`. -/
theorem Represents.agrees {t : Tracker} {s : ResolvedSet} (h : t.Represents s) : t.Agrees s where
  commitPoint := h.commitPoint_eq
  lastAcknowledged := by rw [lastAcknowledged, h.commitPoint_eq]
  highestResolved := h.highestResolved_eq
  pendingRun := h.pendingRun_eq
  nextCommit := h.nextCommit_eq
  isCommittable := h.isCommittable_eq
  snapshot := h.snapshot_eq
  committableRun := h.committableRun_eq
  resolve o := (h.resolve o).1
  resolve_unchanged o hne := h.wellFormed.resolve_eq_self hne
  takeRun := h.takeRun.1
  takeRun_unchanged hnone := by
    rcases t.takeRun_cases with ⟨-, heq⟩ | ⟨-, heq⟩
    · rw [heq]
    · rw [heq] at hnone
      cases hnone

/-- **A tracker is a set of offsets.** `Tracker.new? first threshold` gives a tracker for which
after any `actions` every query and every next answer is that of `(ResolvedSet.start first).run
actions` (`Agrees`). -/
theorem run_agrees (first : Offset) {threshold : Nat} (hthreshold : 0 < threshold)
    (actions : List TrackerAction) :
    ∃ t, Tracker.new? first threshold = .ok t ∧
      (t.run actions).Agrees ((ResolvedSet.start first).run actions) := by
  refine ⟨start first threshold, ?_, ((represents_start first threshold).run actions).agrees⟩
  rw [new?, if_neg (Nat.pos_iff_ne_zero.mp hthreshold)]

/-- The bitmap grows by two blocks and is given up again, and the set knows nothing of it. -/
theorem run_agrees_across_blocks :
    let actions : List TrackerAction :=
      [.resolve (.clamp 130), .resolve (.clamp 63), .rebase (.clamp 64), .resolve (.clamp 65),
        .resolve (.clamp 64), .resolve (.clamp 3), .takeRun, .resolve (.clamp 70)]
    0 < 1 ∧ ∃ t, Tracker.new? .zero 1 = .ok t ∧
      (t.run actions).Agrees ((ResolvedSet.start .zero).run actions) ∧
      (t.run actions).commitPoint = .clamp 66 := by
  intro actions
  obtain ⟨t, ht, hagrees⟩ := run_agrees .zero Nat.zero_lt_one actions
  refine ⟨Nat.zero_lt_one, t, ht, hagrees, ?_⟩
  rw [hagrees.commitPoint]
  decide +kernel

end Tracker

end OffsetCommit
