import OffsetCommit.Proofs.Tracker.Refinement

/-!
# Replaying notifications

What a sequence of terminal notifications does to the resolved offsets of one partition, from the
record that seeded it on. An offset is accounted for when the commit point is past it or it is
resolved (`ResolvedSet.Covers`).

* `covers_replay_iff`: apart from the last offset of a log, this is so exactly for the offsets
  that were notified.
* `exists_of_notify_eq_some`: every run that is taken out ends behind an offset that was notified.
* `lt_of_notify_eq_some`: and it moves the commit point forward.
-/

namespace OffsetCommit

/-- A terminal notification about one record. -/
structure Notification where
  /-- The offset of the record. -/
  offset : Offset
  /-- How its dispatch ended. -/
  outcome : Outcome
deriving DecidableEq

/-- What a notification comes to for a tracked partition: its offset is resolved, and a success
attempts to take a run out. -/
def Tracker.notify (t : Tracker) (n : Notification) : Option Advance × Tracker :=
  Coordinator.attempt (t.resolve n.offset).1 n.outcome (t.resolve n.offset).2

namespace ResolvedSet

/-! ### Notifications -/

/-- What a notification comes to for the set, as `Tracker.notify` for a tracker: only a success that
is not stale attempts to take a run out. -/
def notify (s : ResolvedSet) (n : Notification) : Option Advance × ResolvedSet :=
  if (s.resolve n.offset).1 ≠ .stale ∧ n.outcome.attemptsCommit then
    (s.resolve n.offset).2.takeRun
  else (none, (s.resolve n.offset).2)

/-- The set after several notifications, `notify` for one after the other. -/
def replay (s : ResolvedSet) (ns : List Notification) : ResolvedSet :=
  ns.foldl (fun s n => (s.notify n).2) s

/-- Replaying one more notification is notifying what was replayed. -/
theorem replay_concat (s : ResolvedSet) (ns : List Notification) (n : Notification) :
    s.replay (ns ++ [n]) = ((s.replay ns).notify n).2 := by
  rw [replay, List.foldl_append]
  rfl

end ResolvedSet

/-- A notification has the same answer from a tracker and from the set that it represents, and both
still agree. -/
theorem Tracker.Represents.notify {t : Tracker} {s : ResolvedSet} (h : t.Represents s)
    (n : Notification) : (t.notify n).1 = (s.notify n).1 ∧ (t.notify n).2.Represents (s.notify n).2 := by
  obtain ⟨hanswer, hmarked⟩ := h.resolve n.offset
  unfold Tracker.notify ResolvedSet.notify Coordinator.attempt
  rw [hanswer]
  split
  · exact hmarked.takeRun
  · exact ⟨rfl, hmarked⟩

namespace ResolvedSet

/-! ### Runs that are taken out -/

/-- A complete run reaches from the commit point to an offset `high` that is resolved, and it ends
right behind that offset, at `high.advance 1`. -/
theorem takeRun_cases (s : ResolvedSet) :
    s.isCommittable = false ∧ s.takeRun = (none, s) ∨
      ∃ high, (∀ o, o ∈ s.resolved ↔ s.commitPoint ≤ o ∧ o ≤ high) ∧ s.commitPoint ≤ high ∧
        s.takeRun =
          (some ⟨high.advance 1, high.toNat - s.commitPoint.toNat + 1⟩, start (high.advance 1)) := by
  unfold takeRun
  rcases hc : s.isCommittable with _ | _
  · exact .inl ⟨rfl, rfl⟩
  · right
    obtain ⟨high, hhigh, hmem⟩ := isCommittable_iff.mp hc
    have hle : s.commitPoint ≤ high := ((hmem high).mp (highest?_eq_some_iff.mp hhigh).1).1
    have hrun : s.pendingRun = high.toNat - s.commitPoint.toNat + 1 := by
      rw [pendingRun, hhigh]
    have hnext : s.nextCommit = high.advance 1 := by
      rw [nextCommit, hrun, Offset.advance]
      congr 1
      have := Offset.le_def.mp hle
      omega
    exact ⟨high, hmem, hle, by rw [if_pos rfl, hnext, hrun]⟩

/-- Resolving an offset leaves the commit point. -/
theorem commitPoint_resolve (s : ResolvedSet) (o : Offset) :
    (s.resolve o).2.commitPoint = s.commitPoint := by
  unfold resolve
  repeat' first | rfl | split

/-- A notification leaves the commit point, or it takes out a run that ends at the new one, behind a
resolved offset `high`. -/
theorem notify_commitPoint (s : ResolvedSet) (n : Notification) :
    (s.notify n).1 = none ∧ (s.notify n).2.commitPoint = s.commitPoint ∨
      ∃ advance, (s.notify n).1 = some advance ∧ (s.notify n).2.commitPoint = advance.offset ∧
        ∃ high ∈ (s.resolve n.offset).2.resolved, s.commitPoint ≤ high ∧
          advance.offset = high.advance 1 := by
  have hcp := s.commitPoint_resolve n.offset
  unfold notify
  split
  · rcases (s.resolve n.offset).2.takeRun_cases with ⟨-, heq⟩ | ⟨high, hmem, hle, heq⟩
    · rw [heq]
      exact .inl ⟨rfl, hcp⟩
    · rw [heq]
      exact .inr ⟨_, rfl, rfl, high, (hmem high).mpr ⟨hle, le_rfl⟩, hcp ▸ hle, rfl⟩
  · exact .inl ⟨rfl, hcp⟩

/-- A notification never moves the commit point back. -/
theorem commitPoint_le_notify (s : ResolvedSet) (n : Notification) :
    s.commitPoint ≤ (s.notify n).2.commitPoint := by
  rcases s.notify_commitPoint n with ⟨-, heq⟩ | ⟨advance, -, heq, high, -, hle, hoffset⟩
  · exact heq.ge
  · rw [heq, hoffset]
    refine hle.trans (Offset.le_def.mpr ?_)
    have := high.toNat_lt
    rw [Offset.toNat_advance]
    omega

/-! ### Accounting for offsets -/

/-- Whether `o` is accounted for: `o < s.commitPoint`, or `o ∈ s.resolved`. -/
def Covers (s : ResolvedSet) (o : Offset) : Prop :=
  o < s.commitPoint ∨ o ∈ s.resolved

/-- At the start the offsets before the first one are accounted for. -/
theorem covers_start {first o : Offset} : (start first).Covers o ↔ o < first := by
  simp [Covers, start]

/-- Resolving an offset accounts for it and for nothing else. -/
theorem covers_resolve (s : ResolvedSet) (o q : Offset) :
    (s.resolve o).2.Covers q ↔ s.Covers q ∨ q = o := by
  unfold resolve
  split
  · next hlt =>
      refine ⟨.inl, fun h => ?_⟩
      rcases h with h | rfl
      · exact h
      · exact .inl hlt
  · split
    · next hmem =>
        refine ⟨.inl, fun h => ?_⟩
        rcases h with h | rfl
        · exact h
        · exact .inr hmem
    · simp only [Covers, Finset.mem_insert]
      tauto

/-- An offset below the commit point is `.stale`, and one that is `.marked` was not accounted for. -/
theorem resolve_fst (s : ResolvedSet) (o : Offset) :
    (o < s.commitPoint → (s.resolve o).1 = .stale) ∧
      ((s.resolve o).1 = .marked → ¬s.Covers o) := by
  unfold resolve
  split
  · next hlt => exact ⟨fun _ => rfl, fun h => by cases h⟩
  · next hge =>
      split
      · exact ⟨fun hlt => absurd hlt hge, fun h => by cases h⟩
      · next hnot =>
          refine ⟨fun hlt => absurd hlt hge, fun _ hcovers => ?_⟩
          rcases hcovers with hlt | hmem
          · exact hge hlt
          · exact hnot hmem

/-- Taking a run out accounts for nothing new. -/
theorem covers_of_takeRun {s : ResolvedSet} {q : Offset} (h : s.takeRun.2.Covers q) :
    s.Covers q := by
  rcases s.takeRun_cases with ⟨-, heq⟩ | ⟨high, hmem, -, heq⟩
  · rwa [heq] at h
  · rw [heq, covers_start, Offset.lt_def, Offset.toNat_advance] at h
    rcases lt_or_ge q s.commitPoint with hlt | hge
    · exact .inl hlt
    · exact .inr ((hmem q).mpr ⟨hge, Offset.le_def.mpr (by omega)⟩)

/-- Only the last offset of a log can be lost when a run is taken out. -/
theorem Covers.takeRun {s : ResolvedSet} {q : Offset} (h : s.Covers q) (hq : q ≠ .last) :
    s.takeRun.2.Covers q := by
  rcases s.takeRun_cases with ⟨-, heq⟩ | ⟨high, hmem, hle, heq⟩
  · rwa [heq]
  · rw [heq, covers_start, Offset.lt_def, Offset.toNat_advance]
    have hlast := Offset.lt_def.mp (Offset.lt_last_of_ne hq)
    rw [Offset.toNat_last] at hlast
    have hhigh : q ≤ high := by
      rcases h with hlt | hq
      · exact hlt.le.trans hle
      · exact ((hmem q).mp hq).2
    have := Offset.le_def.mp hhigh
    omega

/-- A notification accounts for its offset and for nothing else. -/
theorem covers_of_notify {s : ResolvedSet} {n : Notification} {q : Offset}
    (h : (s.notify n).2.Covers q) : s.Covers q ∨ q = n.offset := by
  rw [← covers_resolve]
  unfold notify at h
  split at h
  · exact covers_of_takeRun h
  · exact h

/-- A notification loses no offset but possibly the last of a log. -/
theorem covers_notify_iff {s : ResolvedSet} {n : Notification} {q : Offset} (hq : q ≠ .last) :
    (s.notify n).2.Covers q ↔ s.Covers q ∨ q = n.offset := by
  refine ⟨covers_of_notify, fun h => ?_⟩
  have hresolve := (covers_resolve s n.offset q).mpr h
  unfold notify
  split
  · exact hresolve.takeRun hq
  · exact hresolve

/-- **Nothing is accounted for that was not notified**, from the first offset on. -/
theorem mem_of_covers_replay {first q : Offset} {ns : List Notification} (hq : first ≤ q)
    (h : ((start first).replay ns).Covers q) : ∃ n ∈ ns, n.offset = q := by
  induction ns using List.reverseRecOn with
  | nil => exact absurd (covers_start.mp h) (not_lt.mpr hq)
  | append_singleton ns n ih =>
      rw [replay_concat] at h
      rcases covers_of_notify h with h | rfl
      · obtain ⟨n', hn', hoffset⟩ := ih h
        exact ⟨n', List.mem_append_left _ hn', hoffset⟩
      · exact ⟨n, List.mem_append_right _ (List.mem_singleton_self n), rfl⟩

/-- **Nothing that was notified is lost**, the last offset of a log apart: from the first offset on,
`Covers q` says that `q` was notified. -/
theorem covers_replay_iff {first q : Offset} {ns : List Notification} (hq : first ≤ q)
    (hlast : q ≠ .last) : ((start first).replay ns).Covers q ↔ ∃ n ∈ ns, n.offset = q := by
  refine ⟨mem_of_covers_replay hq, fun h => ?_⟩
  induction ns using List.reverseRecOn with
  | nil => simp at h
  | append_singleton ns n ih =>
      rw [replay_concat, covers_notify_iff hlast]
      obtain ⟨n', hn', hoffset⟩ := h
      rcases List.mem_append.mp hn' with hn' | hn'
      · exact .inl (ih ⟨n', hn', hoffset⟩)
      · exact .inr (List.mem_singleton.mp hn' ▸ hoffset.symm)

/-! ### The commit point -/

/-- Whether no resolved offset is below the commit point. -/
def Bounded (s : ResolvedSet) : Prop :=
  ∀ o ∈ s.resolved, s.commitPoint ≤ o

/-- At the start no offset is resolved. -/
theorem bounded_start (first : Offset) : (start first).Bounded := by
  intro o ho
  cases ho

/-- Resolving an offset keeps all resolved ones at or above the commit point. -/
theorem Bounded.resolve {s : ResolvedSet} (h : s.Bounded) (o : Offset) :
    (s.resolve o).2.Bounded := by
  unfold ResolvedSet.resolve
  split
  · exact h
  · split
    · exact h
    · next hle _ =>
        intro q hq
        rcases Finset.mem_insert.mp hq with rfl | hq
        · exact not_lt.mp hle
        · exact h q hq

/-- A notification preserves `Bounded`. -/
theorem Bounded.notify {s : ResolvedSet} (h : s.Bounded) (n : Notification) :
    (s.notify n).2.Bounded := by
  unfold ResolvedSet.notify
  split
  · rcases (s.resolve n.offset).2.takeRun_cases with ⟨-, heq⟩ | ⟨high, -, -, heq⟩
    · rw [heq]
      exact h.resolve n.offset
    · rw [heq]
      exact bounded_start _
  · exact h.resolve n.offset

/-- A set is `Bounded` after any notifications from `start first` on. -/
theorem bounded_replay (first : Offset) (ns : List Notification) :
    ((start first).replay ns).Bounded := by
  induction ns using List.reverseRecOn with
  | nil => exact bounded_start first
  | append_singleton ns n ih =>
      rw [replay_concat]
      exact ih.notify n

/-- The commit point does not fall behind the first offset. -/
theorem first_le_commitPoint_replay (first : Offset) (ns : List Notification) :
    first ≤ ((start first).replay ns).commitPoint := by
  induction ns using List.reverseRecOn with
  | nil => exact le_rfl
  | append_singleton ns n ih =>
      rw [replay_concat]
      rcases ((start first).replay ns).notify_commitPoint n with
        ⟨-, heq⟩ | ⟨advance, -, heq, high, -, hle, hoffset⟩
      · rw [heq]
        exact ih
      · rw [heq, hoffset]
        refine ih.trans (hle.trans (Offset.le_def.mpr ?_))
        have := high.toNat_lt
        rw [Offset.toNat_advance]
        omega

/-- A run that is taken out reaches from the commit point to an offset `high` that is resolved, and
counts the offsets between them. -/
theorem exists_of_notify_eq_some {s : ResolvedSet} {n : Notification} {advance : Advance}
    (h : (s.notify n).1 = some advance) :
    ∃ high ∈ (s.resolve n.offset).2.resolved, s.commitPoint ≤ high ∧
      advance = ⟨high.advance 1, high.toNat - s.commitPoint.toNat + 1⟩ := by
  unfold notify at h
  split at h
  · rcases (s.resolve n.offset).2.takeRun_cases with ⟨-, heq⟩ | ⟨high, hmem, hle, heq⟩
    · rw [heq] at h
      cases h
    · rw [heq, s.commitPoint_resolve] at h
      exact ⟨high, (hmem high).mpr ⟨hle, le_rfl⟩, s.commitPoint_resolve n.offset ▸ hle,
        (Option.some.inj h).symm⟩
  · cases h

/-- A run that is taken out ends `advance.count` offsets beyond the commit point, as long as `.last`
is not notified. -/
theorem offset_of_notify_eq_some {first : Offset} {ns : List Notification} {n : Notification}
    {advance : Advance} (hlast : ∀ x ∈ ns ++ [n], x.offset ≠ .last)
    (h : (((start first).replay ns).notify n).1 = some advance) :
    0 < advance.count ∧
      advance.offset.toNat = ((start first).replay ns).commitPoint.toNat + advance.count := by
  obtain ⟨high, hhigh, hle, rfl⟩ := exists_of_notify_eq_some h
  have hfirst := (first_le_commitPoint_replay first ns).trans hle
  have hnotified : ∃ x ∈ ns ++ [n], x.offset = high := by
    rcases (covers_resolve _ n.offset high).mp (.inr hhigh) with hcovers | rfl
    · obtain ⟨x, hx, hxo⟩ := mem_of_covers_replay hfirst hcovers
      exact ⟨x, List.mem_append_left _ hx, hxo⟩
    · exact ⟨n, List.mem_append_right _ (List.mem_singleton_self n), rfl⟩
  obtain ⟨x, hx, rfl⟩ := hnotified
  have hlt := Offset.lt_def.mp (Offset.lt_last_of_ne (hlast x hx))
  have hle' := Offset.le_def.mp hle
  rw [Offset.toNat_last] at hlt
  refine ⟨Nat.succ_pos _, ?_⟩
  show (x.offset.advance 1).toNat = _ + (x.offset.toNat - _ + 1)
  rw [Offset.toNat_advance]
  omega

/-- A run that is taken out moves the commit point forward, as long as `.last` is not notified. -/
theorem lt_of_notify_eq_some {first : Offset} {ns : List Notification} {n : Notification}
    {advance : Advance} (hlast : ∀ x ∈ ns ++ [n], x.offset ≠ .last)
    (h : (((start first).replay ns).notify n).1 = some advance) :
    ((start first).replay ns).commitPoint < advance.offset := by
  obtain ⟨hpos, hoffset⟩ := offset_of_notify_eq_some hlast h
  rw [Offset.lt_def]
  omega

end ResolvedSet

end OffsetCommit
