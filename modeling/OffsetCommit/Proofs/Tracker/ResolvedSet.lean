import OffsetCommit.Proofs.Tracker.Invariant

/-!
# Trackers as plain sets

What a tracker means: a commit point and the finite set of the offsets resolved since the last
re-base. There are no blocks, no capacity and no high-water mark here. Every operation and every
query of a tracker has its counterpart in `ResolvedSet`, said in terms of the set alone;
`ResolvedSet.isCommittable_iff` is the one with content: the set has no gap just when it is an
interval from the commit point on.
-/

namespace OffsetCommit

/-- The resolved offsets of one partition, as a set. -/
@[ext]
structure ResolvedSet where
  /-- The first offset that no decided commit covers. -/
  commitPoint : Offset
  /-- The offsets resolved since the last re-base. -/
  resolved : Finset Offset
deriving DecidableEq

namespace ResolvedSet

/-! ### Operations -/

/-- Nothing is resolved yet. -/
def start (first : Offset) : ResolvedSet := ⟨first, ∅⟩

/-- The highest resolved offset. -/
def highest? (s : ResolvedSet) : Option Offset :=
  if h : s.resolved.Nonempty then some (s.resolved.max' h) else none

/-- The number of offsets from the commit point up to the highest resolved one. -/
def pendingRun (s : ResolvedSet) : Nat :=
  match s.highest? with
  | none => 0
  | some high => high.toNat - s.commitPoint.toNat + 1

/-- The offset behind the pending run, or the last offset when the log ends before it. -/
def nextCommit (s : ResolvedSet) : Offset :=
  .clamp (s.commitPoint.toNat + s.pendingRun)

/-- Whether something is resolved and there is no gap below it: the set is the interval from the
commit point to the highest resolved offset. -/
def isCommittable (s : ResolvedSet) : Bool :=
  match s.highest? with
  | none => false
  | some high => s.resolved = Finset.Icc s.commitPoint high

/-- Adds an offset, unless a commit covers it or it is there already. -/
def resolve (s : ResolvedSet) (o : Offset) : Resolution × ResolvedSet :=
  if o < s.commitPoint then (.stale, s)
  else if o ∈ s.resolved then (.duplicate, s)
  else (.marked, { s with resolved := insert o s.resolved })

/-- Takes the whole set out if it has no gap. -/
def takeRun (s : ResolvedSet) : Option Advance × ResolvedSet :=
  if s.isCommittable then (some ⟨s.nextCommit, s.pendingRun⟩, .start s.nextCommit) else (none, s)

/-- The set after an action. -/
def act (s : ResolvedSet) : TrackerAction → ResolvedSet
  | .resolve o => (s.resolve o).2
  | .takeRun => s.takeRun.2
  | .rebase o => .start o

/-- The set after several actions, one after the other. -/
def run (s : ResolvedSet) (actions : List TrackerAction) : ResolvedSet :=
  actions.foldl act s

/-! ### The highest resolved offset -/

/-- There is no highest offset, `s.highest? = none`, just when `s.resolved = ∅`. -/
theorem highest?_eq_none_iff {s : ResolvedSet} : s.highest? = none ↔ s.resolved = ∅ := by
  rw [highest?, dite_eq_right_iff, ← Finset.not_nonempty_iff_eq_empty]
  exact ⟨fun h hne => Option.some_ne_none _ (h hne), fun h hne => absurd hne h⟩

/-- The highest offset is the resolved one that no other exceeds. -/
theorem highest?_eq_some_iff {s : ResolvedSet} {high : Offset} :
    s.highest? = some high ↔ high ∈ s.resolved ∧ ∀ o ∈ s.resolved, o ≤ high := by
  unfold highest?
  split
  · next hne =>
      rw [Option.some.injEq, Finset.max'_eq_iff]
  · next hempty =>
      rw [Finset.not_nonempty_iff_eq_empty] at hempty
      simp [hempty]

/-! ### Complete runs -/

/-- A set `isCommittable` exactly when it is an interval that begins at `s.commitPoint` and ends at
`s.highest?`. -/
theorem isCommittable_iff {s : ResolvedSet} :
    s.isCommittable = true ↔ ∃ high, s.highest? = some high ∧
      ∀ o, o ∈ s.resolved ↔ s.commitPoint ≤ o ∧ o ≤ high := by
  rcases hh : s.highest? with _ | high
  · simp only [isCommittable, hh, Bool.false_eq_true, reduceCtorEq, false_and, exists_false]
  · simp only [isCommittable, hh, decide_eq_true_eq, Option.some.injEq, exists_eq_left',
      Finset.ext_iff, Finset.mem_Icc]

end ResolvedSet

end OffsetCommit
