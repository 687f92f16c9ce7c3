import OffsetCommit.Proofs.Tracker.Replay

/-!
# Notifications in any order

When each record of a stretch of a log is notified once (`NotifiedOnce`), the order of the
notifications and their outcomes decide how far the commit point comes, but nothing is lost: what
the commit point has not passed waits as a complete run.

* `follows_replay`: the commit point stands behind the last success that found everything notified
  so far without a gap (`Follows`).
* `commitPoint_add_committableRun`: the commit point and the run that waits behind it cover the
  whole stretch.
* `commitPoint_of_success`: when the last notification is a success, nothing waits.
-/

namespace OffsetCommit

/-- Whether each of so many records from the first on is notified exactly once, in any order. -/
def NotifiedOnce (first : Offset) (count : Nat) (ns : List Notification) : Prop :=
  (ns.map fun n => n.offset.toNat).Perm (List.range' first.toNat count)

instance (first : Offset) (count : Nat) (ns : List Notification) :
    Decidable (NotifiedOnce first count ns) :=
  inferInstanceAs (Decidable (List.Perm _ _))

/-- Whether the notification at a place is a success that finds the offsets notified until then to
be those from the first one up to a given one. -/
def FillsAt (first : Offset) (ns : List Notification) (place : Nat) (high : Offset) : Prop :=
  ∃ n, ns[place]? = some n ∧ n.outcome.attemptsCommit = true ∧
    ((ns.take (place + 1)).map Notification.offset).toFinset = Finset.Icc first high

namespace NotifiedOnce

variable {first : Offset} {count : Nat} {ns : List Notification}

/-- Just the offsets of the stretch are notified. -/
theorem exists_iff (h : NotifiedOnce first count ns) (q : Offset) :
    (∃ n ∈ ns, n.offset = q) ↔ first ≤ q ∧ q.toNat < first.toNat + count := by
  have hmem := h.mem_iff (a := q.toNat)
  rw [List.mem_map, List.mem_range'_1] at hmem
  rw [Offset.le_def, ← hmem]
  constructor
  · rintro ⟨n, hn, rfl⟩
    exact ⟨n, hn, rfl⟩
  · rintro ⟨n, hn, heq⟩
    exact ⟨n, hn, Offset.ext heq⟩

/-- No offset is notified twice. -/
theorem nodup (h : NotifiedOnce first count ns) : (ns.map Notification.offset).Nodup := by
  have hnodup : (ns.map fun n => n.offset.toNat).Nodup := h.nodup_iff.mpr List.nodup_range'
  have hsplit : (ns.map fun n => n.offset.toNat) = (ns.map Notification.offset).map Offset.toNat := by
    rw [List.map_map]
    rfl
  rw [hsplit] at hnodup
  exact hnodup.of_map _

/-- No offset before `first` is notified. -/
theorem first_le (h : NotifiedOnce first count ns) : ∀ n ∈ ns, first ≤ n.offset :=
  fun n hn => ((h.exists_iff n.offset).mp ⟨n, hn, rfl⟩).1

/-- If the stretch fits into the log, `.last` is not notified. -/
theorem ne_last (h : NotifiedOnce first count ns)
    (hfit : first.toNat + count ≤ Offset.last.toNat) : ∀ n ∈ ns, n.offset ≠ .last := by
  intro n hn heq
  have hlt := ((h.exists_iff n.offset).mp ⟨n, hn, rfl⟩).2
  rw [heq] at hlt
  omega

end NotifiedOnce

namespace ResolvedSet

/-! ### One more notification -/

section

variable {first : Offset} {ns : List Notification} {n : Notification}

/-- As long as `.last` is not notified, resolving `n` after replaying `ns` covers just what is
notified. -/
theorem covers_resolve_replay_iff (hlast : ∀ x ∈ ns ++ [n], x.offset ≠ .last) {q : Offset}
    (hq : first ≤ q) :
    (((start first).replay ns).resolve n.offset).2.Covers q ↔ ∃ x ∈ ns ++ [n], x.offset = q := by
  rw [covers_resolve]
  constructor
  · rintro (hcovers | rfl)
    · obtain ⟨x, hx, rfl⟩ := mem_of_covers_replay hq hcovers
      exact ⟨x, List.mem_append_left _ hx, rfl⟩
    · exact ⟨n, List.mem_append_right _ (List.mem_singleton_self n), rfl⟩
  · rintro ⟨x, hx, rfl⟩
    rcases List.mem_append.mp hx with hmem | hmem
    · exact .inl ((covers_replay_iff hq (hlast x hx)).mpr ⟨x, hmem, rfl⟩)
    · exact .inr (congrArg Notification.offset (List.mem_singleton.mp hmem))

/-- The set of the offsets of notifications. -/
theorem mem_toFinset_offsets {q : Offset} :
    q ∈ ((ns ++ [n]).map Notification.offset).toFinset ↔ ∃ x ∈ ns ++ [n], x.offset = q := by
  rw [List.mem_toFinset, List.mem_map]

/-- A success that finds no gap up to `high` moves the commit point behind `high`. -/
theorem commitPoint_notify_of_fills (hnodup : ((ns ++ [n]).map Notification.offset).Nodup)
    (hfirst : first ≤ n.offset) (hlast : ∀ x ∈ ns ++ [n], x.offset ≠ .last)
    (hsuccess : n.outcome.attemptsCommit = true) {high : Offset}
    (hfill : ((ns ++ [n]).map Notification.offset).toFinset = Finset.Icc first high) :
    (((start first).replay ns).notify n).2.commitPoint = high.advance 1 := by
  have hmem : ∀ q, (∃ x ∈ ns ++ [n], x.offset = q) ↔ first ≤ q ∧ q ≤ high := fun q => by
    rw [← mem_toFinset_offsets, hfill, Finset.mem_Icc]
  have hhigh : n.offset ≤ high :=
    ((hmem n.offset).mp ⟨n, List.mem_append_right _ (List.mem_singleton_self n), rfl⟩).2
  -- the record was not accounted for before
  have hnew : ¬((start first).replay ns).Covers n.offset := by
    intro hcovers
    obtain ⟨x, hx, heq⟩ := mem_of_covers_replay hfirst hcovers
    rw [List.map_append, List.nodup_append] at hnodup
    exact hnodup.2.2 x.offset (List.mem_map_of_mem hx) n.offset (by simp) heq
  have hmarked : ((start first).replay ns).resolve n.offset =
      (.marked, { (start first).replay ns with
        resolved := insert n.offset ((start first).replay ns).resolved }) := by
    rw [resolve, if_neg fun hlt => hnew (.inl hlt), if_neg fun hin => hnew (.inr hin)]
  have hcovers := fun q (hq : first ≤ q) => covers_resolve_replay_iff hlast hq
  have hbounded := (bounded_replay first ns).resolve n.offset
  have hstart := first_le_commitPoint_replay first ns
  rw [← commitPoint_resolve _ n.offset] at hstart
  rw [notify, hmarked, if_pos ⟨by simp, hsuccess⟩]
  rw [hmarked] at hcovers hbounded hstart
  generalize hs : ({ (start first).replay ns with
    resolved := insert n.offset ((start first).replay ns).resolved } : ResolvedSet) = s at *
  have hin : n.offset ∈ s.resolved := hs ▸ Finset.mem_insert_self _ _
  have hresolved : ∀ q, q ∈ s.resolved ↔ s.commitPoint ≤ q ∧ q ≤ high := by
    intro q
    constructor
    · intro hq
      have hle := hbounded q hq
      exact ⟨hle, ((hmem q).mp ((hcovers q (hstart.trans hle)).mp (.inr hq))).2⟩
    · rintro ⟨hle, hqh⟩
      rcases (hcovers q (hstart.trans hle)).mpr ((hmem q).mpr ⟨hstart.trans hle, hqh⟩) with hlt | hq
      · exact absurd hlt (not_lt.mpr hle)
      · exact hq
  rcases s.takeRun_cases with ⟨hnot, -⟩ | ⟨high', hresolved', hle', heq⟩
  · have hhighest : s.highest? = some high := by
      rw [highest?_eq_some_iff]
      exact ⟨(hresolved high).mpr ⟨(hbounded _ hin).trans hhigh, le_rfl⟩,
        fun q hq => ((hresolved q).mp hq).2⟩
    rw [isCommittable_iff.mpr ⟨high, hhighest, hresolved⟩] at hnot
    cases hnot
  · have hsame : high' = high := by
      apply le_antisymm
      · exact ((hresolved high').mp ((hresolved' high').mpr ⟨hle', le_rfl⟩)).2
      · exact ((hresolved' high).mp ((hresolved high).mpr ⟨(hbounded _ hin).trans hhigh, le_rfl⟩)).2
    rw [heq, hsame]
    rfl

/-- Without such a success the commit point stays. -/
theorem commitPoint_notify_of_not_fills (hfirst : ∀ x ∈ ns ++ [n], first ≤ x.offset)
    (hlast : ∀ x ∈ ns ++ [n], x.offset ≠ .last)
    (hfill : n.outcome.attemptsCommit = true →
      ∀ high, ((ns ++ [n]).map Notification.offset).toFinset ≠ Finset.Icc first high) :
    (((start first).replay ns).notify n).2.commitPoint =
      ((start first).replay ns).commitPoint := by
  have hcovers := fun q (hq : first ≤ q) => covers_resolve_replay_iff hlast hq
  have hpoint := commitPoint_resolve ((start first).replay ns) n.offset
  unfold notify
  split
  · next hattempt =>
      rcases (((start first).replay ns).resolve n.offset).2.takeRun_cases with
        ⟨-, heq⟩ | ⟨high, hresolved, hle, -⟩
      · rw [heq]
        exact hpoint
      · exfalso
        apply hfill hattempt.2 high
        ext q
        rw [mem_toFinset_offsets, Finset.mem_Icc]
        constructor
        · rintro ⟨x, hx, rfl⟩
          refine ⟨hfirst x hx, ?_⟩
          rcases (hcovers x.offset (hfirst x hx)).mpr ⟨x, hx, rfl⟩ with hlt | hin
          · exact hlt.le.trans hle
          · exact ((hresolved x.offset).mp hin).2
        · rintro ⟨hq, hqh⟩
          rw [← hcovers q hq]
          rcases lt_or_ge q (((start first).replay ns).resolve n.offset).2.commitPoint with hlt | hge
          · exact .inl hlt
          · exact .inr ((hresolved q).mpr ⟨hge, hqh⟩)
  · exact hpoint

end

/-! ### The last success without a gap -/

/-- Whether an earlier notification found no gap does not depend on later ones. -/
theorem fillsAt_append_iff {first : Offset} {ns : List Notification} {n : Notification} {k : Nat}
    (hk : k < ns.length) {high : Offset} :
    FillsAt first (ns ++ [n]) k high ↔ FillsAt first ns k high := by
  rw [FillsAt, FillsAt, List.getElem?_append_left hk, List.take_append_of_le_length hk]

/-- The last notification finds no gap when it is a success and the offsets notified are `Finset.Icc
first high`. -/
theorem fillsAt_length_iff {first : Offset} {ns : List Notification} {n : Notification}
    {high : Offset} :
    FillsAt first (ns ++ [n]) ns.length high ↔ n.outcome.attemptsCommit = true ∧
      ((ns ++ [n]).map Notification.offset).toFinset = Finset.Icc first high := by
  rw [FillsAt, List.getElem?_concat_length, List.take_of_length_le (by simp)]
  simp only [Option.some.injEq, exists_eq_left']

/-- A place at which there was no gap is one of a notification. -/
theorem lt_length_of_fillsAt {first : Offset} {ns : List Notification} {k : Nat} {high : Offset}
    (h : FillsAt first ns k high) : k < ns.length := by
  obtain ⟨n, hn, -⟩ := h
  exact (List.getElem?_eq_some_iff.mp hn).1

/-- What decides the commit point after the notifications `ns`: it is `first` if no success closes
the gaps, and otherwise it follows the last place where one does (`FillsAt`). -/
structure Follows (first : Offset) (ns : List Notification) (commitPoint : Offset) : Prop where
  /-- It stays at the first record as long as no success finds everything without a gap. -/
  none : (∀ k high, ¬FillsAt first ns k high) → commitPoint = first
  /-- Otherwise it is behind the highest offset that the last such success finds. -/
  last : ∀ k high, FillsAt first ns k high → (∀ j, k < j → ∀ high', ¬FillsAt first ns j high') →
    commitPoint = high.advance 1

/-- **The last success without a gap decides the commit point.** The induction is on the
notifications, from the back. -/
theorem follows_replay {first : Offset} {ns : List Notification}
    (hnodup : (ns.map Notification.offset).Nodup) (hfirst : ∀ x ∈ ns, first ≤ x.offset)
    (hlast : ∀ x ∈ ns, x.offset ≠ .last) :
    Follows first ns ((start first).replay ns).commitPoint := by
  induction ns using List.reverseRecOn with
  | nil =>
      refine ⟨fun _ => rfl, fun k high hfills => ?_⟩
      cases lt_length_of_fillsAt hfills
  | append_singleton ns n ih =>
      have hbefore : Follows first ns ((start first).replay ns).commitPoint := by
        apply ih
        · rw [List.map_append] at hnodup
          exact (List.nodup_append.mp hnodup).1
        · exact fun x hx => hfirst x (List.mem_append_left _ hx)
        · exact fun x hx => hlast x (List.mem_append_left _ hx)
      have hlt : ∀ k high, FillsAt first ns k high → FillsAt first (ns ++ [n]) k high :=
        fun k high hfills => (fillsAt_append_iff (lt_length_of_fillsAt hfills)).mpr hfills
      rw [replay_concat]
      refine ⟨fun hnone => ?_, fun k high hfills hafter => ?_⟩
      · rw [commitPoint_notify_of_not_fills hfirst hlast fun hsuccess high hfill =>
          hnone ns.length high (fillsAt_length_iff.mpr ⟨hsuccess, hfill⟩)]
        exact hbefore.none fun k high hfills => hnone k high (hlt k high hfills)
      · have hk := lt_length_of_fillsAt hfills
        rw [List.length_append, List.length_singleton] at hk
        rcases Nat.lt_or_eq_of_le (Nat.le_of_lt_succ hk) with hk | rfl
        · rw [commitPoint_notify_of_not_fills hfirst hlast fun hsuccess high' hfill =>
            hafter ns.length hk high' (fillsAt_length_iff.mpr ⟨hsuccess, hfill⟩)]
          apply hbefore.last k high ((fillsAt_append_iff hk).mp hfills)
          exact fun j hj high' hfills' => hafter j hj high' (hlt j high' hfills')
        · obtain ⟨hsuccess, hfill⟩ := fillsAt_length_iff.mp hfills
          exact commitPoint_notify_of_fills hnodup (hfirst n (by simp)) hlast hsuccess hfill

/-! ### The run that waits -/

/-- The length of the run that waits for a commit. -/
def committableRun (s : ResolvedSet) : Nat :=
  if s.isCommittable then s.pendingRun else 0

/-- The commit point of a set in which nothing is resolved: it is `bound`, if from `first` on just the
offsets below `bound` are covered. -/
theorem commitPoint_of_covers {s : ResolvedSet} {first : Offset} {bound : Nat}
    (hfirst : first.toNat ≤ bound) (hfit : bound ≤ Offset.last.toNat) (hstart : first ≤ s.commitPoint)
    (hcovers : ∀ q, first ≤ q → (s.Covers q ↔ q.toNat < bound)) (hempty : s.resolved = ∅) :
    s.commitPoint.toNat = bound := by
  have hge : bound ≤ s.commitPoint.toNat := by
    by_contra hlt
    rcases (hcovers s.commitPoint hstart).mpr (not_le.mp hlt) with hself | hin
    · exact lt_irrefl _ hself
    · rw [hempty] at hin
      cases hin
  have hle : s.commitPoint.toNat ≤ bound := by
    by_contra hgt
    have hend : (Offset.clamp bound).toNat = bound := by
      rw [Offset.toNat_clamp_of_lt]
      exact hfit.trans_lt Offset.last.toNat_lt
    have hcovered := (hcovers (Offset.clamp bound) (Offset.le_def.mpr (by omega))).mp
      (.inl (Offset.lt_def.mpr (by omega)))
    omega
  exact Nat.le_antisymm hle hge

/-- A set with a highest resolved offset `high` has no gap and ends before `bound`, if from `first` on
just the offsets below `bound` are covered. -/
theorem isCommittable_of_covers {s : ResolvedSet} {first high : Offset} {bound : Nat}
    (hfit : bound ≤ Offset.last.toNat) (hstart : first ≤ s.commitPoint) (hbounded : s.Bounded)
    (hcovers : ∀ q, first ≤ q → (s.Covers q ↔ q.toNat < bound)) (hhigh : s.highest? = some high) :
    s.isCommittable = true ∧ high.toNat + 1 = bound := by
  obtain ⟨hin, hmax⟩ := highest?_eq_some_iff.mp hhigh
  have hlow := hbounded high hin
  have hbound := (hcovers high (hstart.trans hlow)).mp (.inr hin)
  have hresolved : ∀ q, s.commitPoint ≤ q → q.toNat < bound → q ∈ s.resolved := by
    intro q hle hlt
    rcases (hcovers q (hstart.trans hle)).mpr hlt with hbelow | hq
    · exact absurd hbelow (not_lt.mpr hle)
    · exact hq
  constructor
  · refine isCommittable_iff.mpr ⟨high, hhigh, fun q => ⟨fun hq => ⟨hbounded q hq, hmax q hq⟩, ?_⟩⟩
    rintro ⟨hle, hqh⟩
    exact hresolved q hle ((Offset.le_def.mp hqh).trans_lt hbound)
  · -- the offset right before the bound is resolved, so the highest one is not below it
    have hend : (Offset.clamp (bound - 1)).toNat = bound - 1 := by
      rw [Offset.toNat_clamp_of_lt]
      exact (Nat.sub_le _ 1).trans_lt (hfit.trans_lt Offset.last.toNat_lt)
    have hlow' := Offset.le_def.mp hlow
    have htop := Offset.le_def.mp (hmax _
      (hresolved (Offset.clamp (bound - 1)) (Offset.le_def.mpr (by omega)) (by omega)))
    omega

/-- **No record is lost**: when every record of a stretch has been notified once, the commit point
and the length of the run that waits behind it add up to `first.toNat + count`. -/
theorem commitPoint_add_committableRun {first : Offset} {count : Nat} {ns : List Notification}
    (hfit : first.toNat + count ≤ Offset.last.toNat) (h : NotifiedOnce first count ns) :
    ((start first).replay ns).commitPoint.toNat + ((start first).replay ns).committableRun =
      first.toNat + count := by
  have hstart := first_le_commitPoint_replay first ns
  have hbounded := bounded_replay first ns
  have hcovers : ∀ q, first ≤ q →
      (((start first).replay ns).Covers q ↔ q.toNat < first.toNat + count) := by
    intro q hq
    constructor
    · intro hcovers
      exact ((h.exists_iff q).mp (mem_of_covers_replay hq hcovers)).2
    · intro hlt
      have hnotified := (h.exists_iff q).mpr ⟨hq, hlt⟩
      obtain ⟨x, hx, rfl⟩ := hnotified
      exact (covers_replay_iff hq (h.ne_last hfit x hx)).mpr ⟨x, hx, rfl⟩
  generalize (start first).replay ns = s at *
  rcases hhighest : s.highest? with _ | high
  · have hempty := highest?_eq_none_iff.mp hhighest
    have hrun : s.committableRun = 0 := by
      simp [committableRun, isCommittable, highest?, hempty]
    rw [hrun, commitPoint_of_covers (Nat.le_add_right _ _) hfit hstart hcovers hempty, Nat.add_zero]
  · obtain ⟨hcommittable, hbound⟩ :=
      isCommittable_of_covers hfit hstart hbounded hcovers hhighest
    have hlow := Offset.le_def.mp (hbounded high (highest?_eq_some_iff.mp hhighest).1)
    rw [committableRun, hcommittable, if_pos rfl, pendingRun, hhighest]
    dsimp only
    omega

/-- When the last notification is a success, nothing waits: the commit point is `first.toNat +
count`. -/
theorem commitPoint_of_success {first : Offset} {count : Nat} {ns : List Notification}
    (hfit : first.toNat + count ≤ Offset.last.toNat) (h : NotifiedOnce first count ns)
    {n : Notification} (hn : ns.getLast? = some n) (hsuccess : n.outcome.attemptsCommit = true) :
    ((start first).replay ns).commitPoint.toNat = first.toNat + count := by
  have hfollows := follows_replay h.nodup h.first_le (h.ne_last hfit)
  obtain ⟨before, rfl⟩ := List.getLast?_eq_some_iff.mp hn
  have hone : first.toNat < first.toNat + count := by
    have hmem := (h.exists_iff n.offset).mp ⟨n, by simp, rfl⟩
    exact (Offset.le_def.mp hmem.1).trans_lt hmem.2
  have hend : (Offset.clamp (first.toNat + count - 1)).toNat = first.toNat + count - 1 := by
    rw [Offset.toNat_clamp_of_lt]
    exact (Nat.sub_le _ 1).trans_lt (hfit.trans_lt Offset.last.toNat_lt)
  have hfill : FillsAt first (before ++ [n]) before.length (.clamp (first.toNat + count - 1)) := by
    refine fillsAt_length_iff.mpr ⟨hsuccess, ?_⟩
    ext q
    rw [mem_toFinset_offsets, h.exists_iff, Finset.mem_Icc, Offset.le_def, Offset.le_def, hend]
    omega
  have heq := hfollows.last before.length _ hfill fun j hj high' hfills' => by
    have hlt := lt_length_of_fillsAt hfills'
    rw [List.length_append, List.length_singleton] at hlt
    omega
  rw [heq, Offset.toNat_advance, hend]
  rw [Offset.toNat_last] at hfit
  omega

end ResolvedSet

end OffsetCommit
