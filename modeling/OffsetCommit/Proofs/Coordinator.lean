import OffsetCommit.Proofs.Tracker.Replay

/-!
# What coordinator calls do to the trackers

Each call of a coordinator looks at the tracker of one partition and changes no other. The equations
for `receive`, `resolve` and `revoke?`, one for a tracked partition and one for an untracked one
each, are what all later modules know of these calls; `revokeAll` leaves no tracker
(`getElem?_revokeAll`).
-/

namespace OffsetCommit.Coordinator

variable {c : Coordinator}

/-- A coordinator is its settings and the trackers of its partitions: two with the same `config` and
the same `trackers[q]?` for all `q` are equal. -/
theorem eq_of_getElem?_eq {c c' : Coordinator} (hconfig : c.config = c'.config)
    (htrackers : ∀ q : Partition, c.trackers[q]? = c'.trackers[q]?) : c = c' := by
  obtain ⟨config, trackers⟩ := c
  obtain ⟨config', trackers'⟩ := c'
  obtain rfl : config = config' := hconfig
  obtain rfl : trackers = trackers' := Std.ExtTreeMap.ext_getElem? htrackers
  rfl

/-! ### Notifications -/

/-- A record of a tracked partition changes nothing. -/
theorem receive_of_tracked {r : Record} {t : Tracker} (h : c.trackers[r.partition]? = some t) :
    (c.receive r).1 = c := by
  rw [receive, h]

/-- The first record of a partition seeds its tracker, which starts at `r.offset`, and no other
tracker changes. -/
theorem receive_of_untracked {r : Record} (h : c.trackers[r.partition]? = none) (q : Partition) :
    (c.receive r).1.trackers[q]? =
      if r.partition = q then some (.start r.offset c.config.shrinkThreshold)
      else c.trackers[q]? := by
  rw [receive, h]
  exact Partition.getElem?_insert c.trackers r.partition q _

/-- A notification about an untracked partition is refused by `.untracked`, and nothing changes. -/
theorem resolve_of_untracked {r : Record} (h : c.trackers[r.partition]? = none)
    (outcome : Outcome) :
    (c.resolve r outcome).coordinator = c ∧
      (c.resolve r outcome).answer = .error (.untracked r.partition r.offset) := by
  rw [resolve, take?, h]
  exact ⟨rfl, rfl⟩

/-- A notification about a tracked partition is answered by `Tracker.notify`, and no other tracker
changes. -/
theorem resolve_of_tracked {r : Record} {t : Tracker} (h : c.trackers[r.partition]? = some t)
    (outcome : Outcome) :
    (c.resolve r outcome).answer = .ok (t.notify ⟨r.offset, outcome⟩).1 ∧
      ∀ q, (c.resolve r outcome).coordinator.trackers[q]? =
        if r.partition = q then some (t.notify ⟨r.offset, outcome⟩).2 else c.trackers[q]? := by
  rw [resolve, take?, h]
  refine ⟨rfl, fun q => ?_⟩
  show ((c.trackers.erase r.partition).insert r.partition _)[q]? = _
  rw [Partition.getElem?_insert, Partition.getElem?_erase]
  split
  · rfl
  · rfl

/-- Resolving does not change the settings. -/
theorem config_resolve (c : Coordinator) (r : Record) (outcome : Outcome) :
    (c.resolve r outcome).coordinator.config = c.config := by
  rw [resolve, take?]
  rcases c.trackers[r.partition]? with _ | t
  · rfl
  · rfl

/-! ### Assignment -/

/-- To revoke an untracked partition gives `none`. -/
theorem revoke?_of_untracked {p : Partition} (h : c.trackers[p]? = none) : c.revoke? p = none := by
  rw [revoke?, take?, h]
  rfl

/-- A tracked partition that is revoked is tracked no longer, and no other tracker changes. -/
theorem revoke?_of_tracked {p : Partition} {t : Tracker} (h : c.trackers[p]? = some t) :
    ∃ c' events, c.revoke? p = some (c', events) ∧
      ∀ q, c'.trackers[q]? = if p = q then none else c.trackers[q]? := by
  rw [revoke?, take?, h]
  exact ⟨_, _, rfl, fun q => Partition.getElem?_erase c.trackers p q⟩

/-- Revoking does not change the settings. -/
theorem config_revoke? {p : Partition} {c' : Coordinator} {events : List DecisionEvent}
    (h : c.revoke? p = some (c', events)) : c'.config = c.config := by
  rw [revoke?, take?] at h
  rcases ht : c.trackers[p]? with _ | t
  · rw [ht] at h
    cases h
  · rw [ht] at h
    cases h
    rfl

/-- After `revokeAll` no partition is tracked. -/
theorem getElem?_revokeAll (c : Coordinator) (q : Partition) :
    c.revokeAll.1.trackers[q]? = none :=
  Std.ExtTreeMap.getElem?_empty

/-! ### The table -/

/-- The list `c.tracked` has exactly the partitions with a tracker. -/
theorem mem_tracked_iff {p : Partition} : p ∈ c.tracked ↔ c.trackers[p]?.isSome = true := by
  rw [tracked, Std.ExtTreeMap.mem_keys, Std.ExtTreeMap.mem_iff_isSome_getElem?]

/-- No partition is listed twice in `c.tracked`. -/
theorem nodup_tracked (c : Coordinator) : c.tracked.Nodup :=
  Std.ExtTreeMap.nodup_keys

end OffsetCommit.Coordinator
