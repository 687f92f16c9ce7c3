import OffsetCommit.Proofs.Lanes.Routing

/-!
# Which lane holds a request

A request is handed to one lane alone. That lane is alive, and it was opened after every lane of the
partition that has been closed or has ended.

* `LeadsTo`: lanes do not come back, for a closed one stays closed and an ended one stays ended.
  All that the loop does to lanes leads on in this sense (`leadsTo_route`, `leadsTo_revoke`,
  `leadsTo_drain`).
* `pendingIn_openFor` and its companions: opening, closing and draining leave every lane its
  requests.
* `exists_handed`: routing a request hands it to one lane (`Handed`).
-/

namespace OffsetCommit

/-! ### Lanes do not come back -/

/-- What a lane can become: it keeps its partition, and what is ended or closed stays so. -/
structure Lane.LeadsTo (old new : Lane) : Prop where
  /-- The lane stays with its partition. -/
  partition_eq : new.partition = old.partition
  /-- An ended lane stays ended. -/
  ended : old.hasEnded = true → new.hasEnded = true
  /-- A closed lane stays closed. -/
  closed : old.isOpen = false → new.isOpen = false

/-- A lane leads to itself. -/
theorem Lane.LeadsTo.refl (lane : Lane) : lane.LeadsTo lane :=
  ⟨rfl, id, id⟩

/-- What leads on leads on further: `Lane.LeadsTo` is transitive. -/
theorem Lane.LeadsTo.trans {lane lane' lane'' : Lane} (h : lane.LeadsTo lane')
    (h' : lane'.LeadsTo lane'') : lane.LeadsTo lane'' where
  partition_eq := h'.partition_eq.trans h.partition_eq
  ended := h'.ended ∘ h.ended
  closed := h'.closed ∘ h.closed

/-- A lane that has not ended may go into any phase, as long as `partition` and `isOpen` stay. -/
theorem Lane.LeadsTo.of_live {old new : Lane} (hpartition : new.partition = old.partition)
    (hopen : new.isOpen = old.isOpen) (hlive : old.hasEnded = false) : old.LeadsTo new where
  partition_eq := hpartition
  ended hended := by
    rw [hlive] at hended
    cases hended
  closed := hopen.trans

/-- A lane leads to the closed one. -/
theorem Lane.leadsTo_close (lane : Lane) : lane.LeadsTo lane.close :=
  ⟨rfl, id, fun _ => rfl⟩

namespace Lanes

/-- No lane of `ls` is lost in `ls'`, and none comes back: at every index the lane of `ls` leads to
that of `ls'`. -/
def LeadsTo (ls ls' : Lanes) : Prop :=
  ∀ (i : Nat) (lane : Lane), ls.all[i]? = some lane →
    ∃ lane' : Lane, ls'.all[i]? = some lane' ∧ lane.LeadsTo lane'

/-- Lanes lead to themselves. -/
theorem LeadsTo.refl (ls : Lanes) : ls.LeadsTo ls :=
  fun _ lane hi => ⟨lane, hi, .refl lane⟩

/-- The relation `LeadsTo` between lanes is transitive. -/
theorem LeadsTo.trans {ls ls' ls'' : Lanes} (h : ls.LeadsTo ls') (h' : ls'.LeadsTo ls'') :
    ls.LeadsTo ls'' := by
  intro i lane hi
  obtain ⟨lane', hi', hleads⟩ := h i lane hi
  obtain ⟨lane'', hi'', hleads'⟩ := h' i lane' hi'
  exact ⟨lane'', hi'', hleads.trans hleads'⟩

/-- A lane that has ended has ended later on. -/
theorem LeadsTo.hasEnded {ls ls' : Lanes} (h : ls.LeadsTo ls') {i : Nat}
    (hended : ls.hasEnded i = true) : ls'.hasEnded i = true := by
  obtain ⟨lane, hi, hlane⟩ := hasEnded_eq_true_iff.mp hended
  obtain ⟨lane', hi', hleads⟩ := h i lane hi
  exact hasEnded_eq_true_iff.mpr ⟨lane', hi', hleads.ended hlane⟩

/-- If each lane leads to its image under `g`, all of them lead on. -/
theorem leadsTo_of_map {ls ls' : Lanes} (g : Nat → Lane → Lane)
    (hall : ∀ j : Nat, ls'.all[j]? = ls.all[j]?.map (g j))
    (hleads : ∀ (j : Nat) (lane : Lane), ls.all[j]? = some lane → lane.LeadsTo (g j lane)) :
    ls.LeadsTo ls' := by
  intro i lane hi
  refine ⟨g i lane, ?_, hleads i lane hi⟩
  rw [hall, hi, Option.map_some]

/-- If lane `i` leads to `f lane`, modifying it leads on. -/
theorem leadsTo_modify {ls : Lanes} {i : Nat} {f : Lane → Lane}
    (hleads : ∀ lane, ls.all[i]? = some lane → lane.LeadsTo (f lane)) :
    ls.LeadsTo (ls.modify i f) := by
  apply leadsTo_of_map fun j lane => if i = j then f lane else lane
  · intro j
    rw [getElem?_modify]
    split <;> simp
  · intro j lane hj
    split
    · next hij =>
        subst hij
        exact hleads lane hj
    · exact .refl lane

/-- Opening a lane leads on, as it leaves the others alone. -/
theorem leadsTo_openFor (ls : Lanes) (p : Partition) : ls.LeadsTo (ls.openFor p).2 := by
  intro i lane hi
  exact ⟨lane, getElem?_openFor_of_some p hi, .refl lane⟩

/-- Finding a lane for a partition leads on. -/
theorem leadsTo_laneFor (ls : Lanes) (p : Partition) : ls.LeadsTo (ls.laneFor p).2 := by
  unfold laneFor
  split
  · exact .refl ls
  · exact leadsTo_openFor ls p

/-- Shutting a lane leads on. -/
theorem leadsTo_shut (ls : Lanes) (p : Partition) (i : Nat) : ls.LeadsTo (ls.shut p i) :=
  leadsTo_modify (f := Lane.close) fun lane _ => lane.leadsTo_close

/-- Revoking a partition leads on. -/
theorem leadsTo_revoke (ls : Lanes) (p : Partition) : ls.LeadsTo (ls.revoke p).1 := by
  unfold revoke
  dsimp only
  split
  · exact .refl ls
  · exact leadsTo_shut ls.prune p _

/-- Draining the lanes leads on. -/
theorem leadsTo_drain (ls : Lanes) : ls.LeadsTo ls.drain.2 :=
  leadsTo_of_map (fun _ => Lane.close) (fun _ => Array.getElem?_map) fun _ lane _ =>
    lane.leadsTo_close

/-- Sending a request to a lane leads on. -/
theorem leadsTo_send? {ls ls' : Lanes} {i : Nat} {r : Request} (h : ls.send? i r = some ls') :
    ls.LeadsTo ls' := by
  unfold send? at h
  split at h
  · cases h
  · obtain rfl := Option.some.inj h
    exact leadsTo_modify fun lane _ => ⟨rfl, id, id⟩

/-- Routing a request leads on, through all that may be shut and opened for it. -/
theorem leadsTo_route (ls : Lanes) (r : Request) : ls.LeadsTo (ls.route r).lanes := by
  have hfound := ls.leadsTo_laneFor r.partition
  unfold route
  dsimp only
  split
  · next hsent => exact hfound.trans (leadsTo_send? hsent)
  · have hreopened := (hfound.trans (leadsTo_shut _ r.partition (ls.laneFor r.partition).1)).trans
      (leadsTo_laneFor _ r.partition)
    split
    · next hsent => exact hreopened.trans (leadsTo_send? hsent)
    · exact hreopened

/-! ### The requests of one lane -/

/-- The requests that lane `i` has not brought to an end, the oldest first; `[]` if there is no such
lane. -/
def pendingIn (ls : Lanes) (i : Nat) : List Request :=
  (ls.all[i]?.map Lane.pending).getD []

/-- What is pending in place `i` is what the lane there has pending. -/
theorem pendingIn_of_getElem? {ls : Lanes} {i : Nat} {lane : Lane} (h : ls.all[i]? = some lane) :
    ls.pendingIn i = lane.pending := by
  rw [pendingIn, h, Option.map_some, Option.getD_some]

/-- A request is pending in place `i` if there is a lane there that has it. -/
theorem mem_pendingIn_iff {ls : Lanes} {i : Nat} {r : Request} :
    r ∈ ls.pendingIn i ↔ ∃ lane : Lane, ls.all[i]? = some lane ∧ r ∈ lane.pending := by
  unfold pendingIn
  rcases ls.all[i]? with _ | lane <;> simp

/-- What a lane holds is pending for the partition of the request. -/
theorem WellFormed.mem_pending_of_pendingIn {ls : Lanes} (h : ls.WellFormed) {i : Nat}
    {r : Request} (hr : r ∈ ls.pendingIn i) : r ∈ ls.pending r.partition := by
  obtain ⟨lane, hi, hlane⟩ := mem_pendingIn_iff.mp hr
  exact mem_pending_iff.mpr ⟨i, lane, hi, (h.own i lane hi r hlane).symm, hlane⟩

/-- A lane that has ended holds nothing. -/
theorem WellFormed.pendingIn_of_hasEnded {ls : Lanes} (h : ls.WellFormed) {i : Nat}
    (hended : ls.hasEnded i = true) : ls.pendingIn i = [] := by
  obtain ⟨lane, hi, hlane⟩ := hasEnded_eq_true_iff.mp hended
  rw [pendingIn_of_getElem? hi]
  exact Lane.pending_of_hasEnded hlane (h.empty i lane hi hlane)

/-- Modifying lane `i` changes what is pending in it to `(f lane).pending`, and in no other. -/
theorem pendingIn_modify (ls : Lanes) (i : Nat) (f : Lane → Lane) (j : Nat) :
    (ls.modify i f).pendingIn j =
      if i = j then (ls.all[j]?.map fun lane => (f lane).pending).getD [] else ls.pendingIn j := by
  unfold pendingIn
  rw [getElem?_modify]
  split
  · rw [Option.map_map]
    rfl
  · rfl

/-- Work that leaves a lane its requests leaves every lane its requests. -/
theorem pendingIn_modify_of_eq {ls : Lanes} {i : Nat} {f : Lane → Lane}
    (hf : ∀ lane, ls.all[i]? = some lane → (f lane).pending = lane.pending) (j : Nat) :
    (ls.modify i f).pendingIn j = ls.pendingIn j := by
  rw [pendingIn_modify]
  split
  · next hij =>
      subst hij
      rcases hi : ls.all[i]? with _ | lane
      · rw [pendingIn, hi]
        rfl
      · rw [Option.map_some, Option.getD_some, hf lane hi, pendingIn_of_getElem? hi]
  · rfl

/-- A new lane holds nothing, and the others hold what they held. -/
theorem pendingIn_openFor (ls : Lanes) (p : Partition) (j : Nat) :
    (ls.openFor p).2.pendingIn j = ls.pendingIn j := by
  rw [pendingIn, pendingIn, getElem?_openFor]
  split
  · next hj =>
      rw [hj, Array.getElem?_size, Option.map_some, Lane.pending_opening]
      rfl
  · rfl

/-- Finding a lane for a partition leaves every lane its requests. -/
theorem pendingIn_laneFor (ls : Lanes) (p : Partition) (j : Nat) :
    (ls.laneFor p).2.pendingIn j = ls.pendingIn j := by
  unfold laneFor
  split
  · rfl
  · exact pendingIn_openFor ls p j

/-- Shutting a lane leaves every lane its requests. -/
theorem pendingIn_shut (ls : Lanes) (p : Partition) (i j : Nat) :
    (ls.shut p i).pendingIn j = ls.pendingIn j :=
  pendingIn_modify_of_eq (f := Lane.close) (fun _ _ => rfl) j

/-- Revoking a partition leaves every lane its requests. -/
theorem pendingIn_revoke (ls : Lanes) (p : Partition) (j : Nat) :
    (ls.revoke p).1.pendingIn j = ls.pendingIn j := by
  unfold revoke
  dsimp only
  split
  · rfl
  · exact pendingIn_shut ls.prune p _ j

/-- Draining leaves every lane its requests. -/
theorem pendingIn_drain (ls : Lanes) (j : Nat) : ls.drain.2.pendingIn j = ls.pendingIn j := by
  have hall : ls.drain.2.all[j]? = ls.all[j]?.map Lane.close := Array.getElem?_map
  rw [pendingIn, pendingIn, hall, Option.map_map]
  rfl

/-! ### Handing a request over -/

/-- From `ls` to `ls'` the request `r` has been handed to lane `k` and to no other. `exists_handed`
shows it of `route`. -/
structure Handed (ls ls' : Lanes) (r : Request) (k : Nat) : Prop where
  /-- The lane is one of the request's partition and has not ended. -/
  live : ∃ lane : Lane, ls'.all[k]? = some lane ∧ lane.partition = r.partition ∧
    lane.hasEnded = false
  /-- The request is the last of this lane, and the other lanes hold what they held. -/
  pendingIn : ∀ j, ls'.pendingIn j = if k = j then ls.pendingIn j ++ [r] else ls.pendingIn j
  /-- The lanes of the partition that were closed or had ended are all older. -/
  younger : ∀ (j : Nat) (lane : Lane), ls.all[j]? = some lane → lane.partition = r.partition →
    lane.hasEnded = true ∨ lane.isOpen = false → j < k
  /-- No lane is lost. -/
  leadsTo : ls.LeadsTo ls'

/-- **A request is handed to one lane**, which is younger than all of its partition that are closed
or have ended: `Handed` holds for some `k`. -/
theorem exists_handed {ls : Lanes} (h : ls.WellFormed) (ht : ls.Tended) (r : Request) :
    ∃ k, ls.Handed (ls.route r).lanes r k := by
  obtain ⟨k, found, hfound⟩ := exists_found h ht r
  have hbefore : (∀ j, found.pendingIn j = ls.pendingIn j) ∧ ls.LeadsTo found := by
    rcases hfound.origin with rfl | ⟨i, rfl⟩
    · exact ⟨pendingIn_laneFor ls r.partition, leadsTo_laneFor ls r.partition⟩
    · refine ⟨fun j => ?_, ?_⟩
      · rw [pendingIn_laneFor, pendingIn_shut, pendingIn_laneFor]
      · exact ((leadsTo_laneFor ls _).trans (leadsTo_shut _ _ i)).trans (leadsTo_laneFor _ _)
  obtain ⟨hpendingIn, hleads⟩ := hbefore
  obtain ⟨lane, hlane, hp, hopen⟩ := hfound.tended.opened r.partition k hfound.opened
  have hlive : lane.hasEnded = false := by
    rw [Bool.eq_false_iff]
    intro hended
    have := hfound.live
    rw [hasEnded_eq_true_iff.mpr ⟨lane, hlane, hended⟩] at this
    cases this
  have hpushed : found.LeadsTo (found.modify k (·.push r)) :=
    leadsTo_modify fun _ _ => ⟨rfl, id, id⟩
  rw [hfound.lanes]
  refine ⟨k, ⟨lane.push r, ?_, hp, hlive⟩, fun j => ?_, fun j old hj hold hgone => ?_,
    hleads.trans hpushed⟩
  · rw [getElem?_modify, if_pos rfl, hlane, Option.map_some]
  · rw [pendingIn_modify, ← hpendingIn]
    split
    · next hkj =>
        subst hkj
        rw [hlane, Option.map_some, Option.getD_some, Lane.pending_push,
          pendingIn_of_getElem? hlane]
    · rfl
  · -- the open lane is the latest one, and it is neither closed nor at its end
    obtain ⟨new, hnew, hage⟩ := hleads j old hj
    refine Nat.lt_of_le_of_ne
      (hfound.tended.latest r.partition k hfound.opened j new hnew (hage.partition_eq.trans hold))
      fun hjk => ?_
    subst hjk
    obtain rfl := Option.some.inj (hlane.symm.trans hnew)
    rcases hgone with hended | hclosed
    · rw [hage.ended hended] at hlive
      cases hlive
    · rw [hage.closed hclosed] at hopen
      cases hopen

end Lanes

end OffsetCommit
