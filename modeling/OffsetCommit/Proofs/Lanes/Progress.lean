import Mathlib.Logic.Relation
import OffsetCommit.Proofs.Lanes.Custody

/-!
# Lanes left to any schedule

Seen from the lanes, a loop that serves does two things, in any order: it hands a request over, or
it closes a partition's lane. In between each lane goes on by itself. It stops waiting, takes a
request, has it decided, ends, or crashes over the request that it has under way, whichever that is.
`Lanes.Step` allows all of these whenever they can happen, without a clock and without a broker.

* `Progress.exists_advance`: every kind of progress is the advance of one lane (`Advances`).
* `Kept.step`, `Reachable.kept`: every step keeps the lanes in order and held (`Kept`).
* `Kept.stays_closed`: a closed lane is handed nothing.
* `WellFormed.hasEnded_of_still`: closed lanes that are still have ended.
-/

namespace OffsetCommit.Lanes

/-! ### What lanes do by themselves -/

/-- One lane of `ls` goes on by itself, which the loop has no part in. -/
inductive Progress (ls : Lanes) : Lanes → Prop
  /-- The lane that it waits for has ended. -/
  | woken {i : Nat} {lane : Lane} {k : Nat} (at_index : ls.all[i]? = some lane)
      (phase : lane.phase = .waiting k) (ended : ls.hasEnded k = true) :
      ls.Progress (ls.modify i fun lane => { lane with phase := .ready })
  /-- It takes the oldest request of its queue. -/
  | begun {i : Nat} {lane : Lane} {r : Request} {rest : Queue Request}
      (at_index : ls.all[i]? = some lane) (phase : lane.phase = .ready)
      (oldest : lane.queue.pop? = some (r, rest)) (due : Nat) :
      ls.Progress (ls.modify i fun lane =>
        { lane with queue := rest, phase := .committing r due })
  /-- The request under way is decided. -/
  | decided {i : Nat} {lane : Lane} {r : Request} {due : Nat} (at_index : ls.all[i]? = some lane)
      (phase : lane.phase = .committing r due) :
      ls.Progress (ls.modify i fun lane => { lane with phase := .ready })
  /-- The client crashes over the request under way, and what is queued is dropped. -/
  | crashed {i : Nat} {lane : Lane} {r : Request} {due : Nat} (at_index : ls.all[i]? = some lane)
      (phase : lane.phase = .committing r due) :
      ls.Progress (ls.modify i fun lane => { lane with queue := .empty, phase := .ended true })
  /-- It is closed and its queue is worked off. -/
  | finished {i : Nat} {lane : Lane} (at_index : ls.all[i]? = some lane)
      (phase : lane.phase = .ready) (worked_off : lane.queue.pop? = none)
      (closed : lane.isOpen = false) :
      ls.Progress (ls.modify i fun lane => { lane with phase := .ended false })

/-- What a step of `Progress` does to the one lane concerned, number `i`, from `old` to `new`; by
`Progress.exists_advance` it does nothing else. -/
structure Advances (ls : Lanes) (i : Nat) (old new : Lane) : Prop where
  /-- The lane was there. -/
  at_index : ls.all[i]? = some old
  /-- It had not ended. -/
  live : old.hasEnded = false
  /-- It stays with its partition. -/
  partition_eq : new.partition = old.partition
  /-- It stays open or closed. -/
  isOpen_eq : new.isOpen = old.isOpen
  /-- Its requests are the last of those it had. -/
  pending : new.pending <:+ old.pending
  /-- It waits no longer, and the lanes before it have ended. -/
  alone : (∀ k, new.phase ≠ .waiting k) ∧ ls.EndedBefore old.partition i
  /-- If it has ended, its queue is empty. -/
  empty : new.hasEnded = true → new.queue.toList = []

/-- A lane in any phase but `.ended` has not ended. -/
theorem hasEnded_eq_false_of_phase {lane : Lane} (h : ∀ crashed, lane.phase ≠ .ended crashed) :
    lane.hasEnded = false := by
  rw [Bool.eq_false_iff]
  intro hended
  obtain ⟨crashed, hphase⟩ := Lane.hasEnded_eq_true_iff.mp hended
  exact h crashed hphase

/-- A lane whose turn it is may take, decide or drop what it has to do. -/
theorem WellFormed.advances {ls : Lanes} (h : ls.WellFormed) {i : Nat} {old new : Lane}
    (hi : ls.all[i]? = some old)
    (hturn : old.phase = .ready ∨ ∃ r due, old.phase = .committing r due)
    (hpartition : new.partition = old.partition) (hopen : new.isOpen = old.isOpen)
    (hpending : new.pending <:+ old.pending) (hphase : ∀ k, new.phase ≠ .waiting k)
    (hempty : new.hasEnded = true → new.queue.toList = []) : ls.Advances i old new := by
  have hcalm : (∀ k, old.phase ≠ .waiting k) ∧ ∀ crashed, old.phase ≠ .ended crashed := by
    rcases hturn with hready | ⟨r, due, hcommits⟩
    · simp [hready]
    · simp [hcommits]
  exact ⟨hi, hasEnded_eq_false_of_phase hcalm.2, hpartition, hopen, hpending,
    ⟨hphase, h.alone i old hi hcalm.1⟩, hempty⟩

/-- **Every kind of progress is the advance of one lane**: it modifies one place, by a change that
`Advances`. -/
theorem Progress.exists_advance {ls ls' : Lanes} (h : ls.Progress ls') (hwf : ls.WellFormed) :
    ∃ (i : Nat) (lane : Lane) (f : Lane → Lane), ls' = ls.modify i f ∧
      ls.Advances i lane (f lane) := by
  cases h with
  | @woken i lane k hi hphase hended =>
      refine ⟨i, lane, _, rfl, hi, ?_, rfl, rfl, ?_, ⟨fun _ => Phase.noConfusion, ?_⟩,
        fun hnow => by cases hnow⟩
      · exact hasEnded_eq_false_of_phase fun _ heq => by cases hphase.symm.trans heq
      · rw [Lane.pending, Lane.pending, Lane.current?, Lane.current?, hphase]
      · exact hwf.endedBefore_of_predecessor hi hphase hended
  | @begun i lane r rest hi hphase hpop due =>
      refine ⟨i, lane, _, rfl, hwf.advances hi (.inl hphase) rfl rfl ?_
        (fun _ => Phase.noConfusion) fun hnow => by cases hnow⟩
      rw [Lane.pending, Lane.pending, Lane.current?, Lane.current?, hphase,
        Queue.toList_of_pop? hpop]
      exact List.suffix_refl _
  | @decided i lane r due hi hphase =>
      refine ⟨i, lane, _, rfl, hwf.advances hi (.inr ⟨r, due, hphase⟩) rfl rfl ?_
        (fun _ => Phase.noConfusion) fun hnow => by cases hnow⟩
      rw [Lane.pending, Lane.pending, Lane.current?, Lane.current?, hphase]
      exact List.suffix_append _ _
  | @crashed i lane r due hi hphase =>
      exact ⟨i, lane, _, rfl, hwf.advances hi (.inr ⟨r, due, hphase⟩) rfl rfl List.nil_suffix
        (fun _ => Phase.noConfusion) fun _ => rfl⟩
  | @finished i lane hi hphase hpop hclosed =>
      refine ⟨i, lane, _, rfl, hwf.advances hi (.inl hphase) rfl rfl ?_
        (fun _ => Phase.noConfusion) fun _ => Queue.pop?_eq_none_iff.mp hpop⟩
      rw [Lane.pending, Lane.pending, Lane.current?, Lane.current?, hphase]

namespace Advances

variable {ls : Lanes} {i : Nat} {lane : Lane} {f : Lane → Lane}

/-- An advance is allowed. -/
theorem allows (h : ls.Advances i lane (f lane)) (hwf : ls.WellFormed) :
    ls.Allows i lane (f lane) :=
  hwf.allows_of_alone h.at_index h.partition_eq h.live h.alone.2 h.alone.1
    (fun _ hr => h.pending.subset hr) h.empty

/-- An advance keeps the lanes in order. -/
theorem wellFormed (h : ls.Advances i lane (f lane)) (hwf : ls.WellFormed) :
    (ls.modify i f).WellFormed :=
  hwf.modify h.at_index (h.allows hwf)

/-- An advance leaves who holds the lanes. -/
theorem tended (h : ls.Advances i lane (f lane)) (hwf : ls.WellFormed) (ht : ls.Tended) :
    (ls.modify i f).Tended :=
  ht.modify h.at_index (h.allows hwf) h.isOpen_eq

/-- Lanes lead on by an advance. -/
theorem leadsTo (h : ls.Advances i lane (f lane)) : ls.LeadsTo (ls.modify i f) := by
  apply leadsTo_modify
  intro other hother
  obtain rfl := Option.some.inj (h.at_index.symm.trans hother)
  exact .of_live h.partition_eq h.isOpen_eq h.live

/-- No lane gets a request by an advance; the one concerned may only lose some at its front. -/
theorem pendingIn (h : ls.Advances i lane (f lane)) (j : Nat) :
    (ls.modify i f).pendingIn j <:+ ls.pendingIn j := by
  rw [pendingIn_modify]
  split
  · next hij =>
      subst hij
      rw [h.at_index, Option.map_some, Option.getD_some, pendingIn_of_getElem? h.at_index]
      exact h.pending
  · exact List.suffix_refl _

end Advances

/-- What lanes do by themselves keeps them in order and loses none. -/
theorem WellFormed.progress {ls ls' : Lanes} (h : ls.WellFormed) (hprogress : ls.Progress ls') :
    ls'.WellFormed ∧ ls.LeadsTo ls' := by
  obtain ⟨i, lane, f, rfl, hadvance⟩ := hprogress.exists_advance h
  exact ⟨hadvance.wellFormed h, hadvance.leadsTo⟩

/-- Any number of steps of `Progress` preserve `WellFormed`, and `LeadsTo` holds from the first
lanes to the last. -/
theorem WellFormed.progress_many {ls ls' : Lanes} (h : ls.WellFormed)
    (hrun : Relation.ReflTransGen Progress ls ls') : ls'.WellFormed ∧ ls.LeadsTo ls' := by
  induction hrun with
  | refl => exact ⟨h, .refl ls⟩
  | tail _ hprogress ih =>
      obtain ⟨hwf, hleads⟩ := ih.1.progress hprogress
      exact ⟨hwf, ih.2.trans hleads⟩

/-- Closed lanes stay closed, whatever they do, and none is opened. -/
theorem WellFormed.closed_of_progress {ls ls' : Lanes} (h : ls.WellFormed)
    (hrun : Relation.ReflTransGen Progress ls ls')
    (hclosed : ∀ (i : Nat) (lane : Lane), ls.all[i]? = some lane → lane.isOpen = false)
    (i : Nat) (lane : Lane) (hi : ls'.all[i]? = some lane) : lane.isOpen = false := by
  induction hrun generalizing i lane with
  | refl => exact hclosed i lane hi
  | tail hbefore hprogress ih =>
      obtain ⟨j, old, f, rfl, hadvance⟩ := hprogress.exists_advance (h.progress_many hbefore).1
      rw [getElem?_modify] at hi
      split at hi
      · next hji =>
          subst hji
          rw [hadvance.at_index, Option.map_some, Option.some.injEq] at hi
          rw [← hi, hadvance.isOpen_eq]
          exact ih j old hadvance.at_index
      · exact ih i lane hi

/-! ### Steps -/

/-- What happens to the lanes while the loop serves: `route`, `revoke`, or a step of `Progress`. -/
inductive Step (ls : Lanes) : Lanes → Prop
  /-- A request is handed to the lane of its partition. -/
  | routed (r : Request) : ls.Step (ls.route r).lanes
  /-- The lane of a partition is closed. -/
  | revoked (p : Partition) : ls.Step (ls.revoke p).1
  /-- A lane goes on by itself. -/
  | advanced {ls' : Lanes} (progress : ls.Progress ls') : ls.Step ls'

/-- Lanes that a loop can have come to while it serves. -/
def Reachable : Lanes → Prop :=
  Relation.ReflTransGen Step .empty

/-- The invariant of the lanes while the loop serves: `WellFormed` and `Tended`. `Kept.step` keeps
it. -/
structure Kept (ls : Lanes) : Prop where
  /-- The lanes take turns. -/
  wellFormed : ls.WellFormed
  /-- Someone holds on to each of them. -/
  tended : ls.Tended

/-- Where there are no lanes, nothing is out of order. -/
theorem kept_empty : Kept .empty :=
  ⟨wellFormed_empty, tended_empty⟩

/-- Every step preserves `Kept`. -/
theorem Kept.step {ls ls' : Lanes} (h : ls.Kept) (hstep : ls.Step ls') : ls'.Kept := by
  cases hstep with
  | routed r =>
      obtain ⟨-, htakes⟩ := route_spec h.wellFormed h.tended r
      exact ⟨htakes.wellFormed, htakes.tended⟩
  | revoked p =>
      obtain ⟨hwf, htended, -⟩ := revoke_spec h.wellFormed h.tended p
      exact ⟨hwf, htended⟩
  | advanced hprogress =>
      obtain ⟨i, lane, f, rfl, hadvance⟩ := hprogress.exists_advance h.wellFormed
      exact ⟨hadvance.wellFormed h.wellFormed, hadvance.tended h.wellFormed h.tended⟩

/-- No lanes is where a loop starts. -/
theorem reachable_empty : Reachable .empty :=
  .refl

/-- **All lanes stay in order and held**, whatever happens in whichever order: what is `Reachable`
is `Kept`. -/
theorem Reachable.kept {ls : Lanes} (h : ls.Reachable) : ls.Kept := by
  induction h with
  | refl => exact kept_empty
  | tail _ hstep ih => exact ih.step hstep

/-- Lanes lead on by every step. -/
theorem Kept.leadsTo {ls ls' : Lanes} (h : ls.Kept) (hstep : ls.Step ls') : ls.LeadsTo ls' := by
  cases hstep with
  | routed r => exact leadsTo_route ls r
  | revoked p => exact leadsTo_revoke ls p
  | advanced hprogress => exact (h.wellFormed.progress hprogress).2

/-! ### Closed lanes -/

/-- **A closed lane is handed nothing**, whatever happens, and stays closed: what is pending in it
is a suffix of what was. -/
theorem Kept.stays_closed {ls ls' : Lanes} (h : ls.Kept) (hstep : ls.Step ls') {i : Nat}
    {lane : Lane} (hi : ls.all[i]? = some lane) (hclosed : lane.isOpen = false) :
    ls'.pendingIn i <:+ ls.pendingIn i ∧
      ∃ lane' : Lane, ls'.all[i]? = some lane' ∧ lane'.isOpen = false := by
  obtain ⟨lane', hi', hage⟩ := h.leadsTo hstep i lane hi
  refine ⟨?_, lane', hi', hage.closed hclosed⟩
  cases hstep with
  | routed r =>
      obtain ⟨k, hhanded⟩ := exists_handed h.wellFormed h.tended r
      -- the lane that takes the request was opened later
      have hki : k ≠ i := by
        rintro rfl
        obtain ⟨taker, hk, hp, -⟩ := hhanded.live
        obtain rfl := Option.some.inj (hi'.symm.trans hk)
        exact Nat.lt_irrefl k
          (hhanded.younger k lane hi (hage.partition_eq.symm.trans hp) (.inr hclosed))
      rw [hhanded.pendingIn, if_neg hki]
  | revoked p => rw [pendingIn_revoke]
  | advanced hprogress =>
      obtain ⟨j, old, f, rfl, hadvance⟩ := hprogress.exists_advance h.wellFormed
      exact hadvance.pendingIn i

/-- A lane whose turn it is and whose queue is worked off does nothing any more but end. -/
theorem Progress.stays_or_ends {ls ls' : Lanes} (h : ls.Progress ls') {i : Nat} {lane : Lane}
    (hi : ls.all[i]? = some lane) (hphase : lane.phase = .ready)
    (hqueue : lane.queue.toList = []) : ls'.all[i]? = some lane ∨ ls'.hasEnded i = true := by
  have hmodify : ∀ (j : Nat) (f : Lane → Lane), (j = i → (f lane).hasEnded = true) →
      (ls.modify j f).all[i]? = some lane ∨ (ls.modify j f).hasEnded i = true := by
    intro j f hends
    by_cases hji : j = i
    · refine .inr (hasEnded_eq_true_iff.mpr ⟨f lane, ?_, hends hji⟩)
      rw [getElem?_modify, if_pos hji, hi, Option.map_some]
    · exact .inl (by rw [getElem?_modify, if_neg hji, hi])
  cases h with
  | woken hj hwaits =>
      refine hmodify _ _ fun hji => ?_
      obtain rfl := Option.some.inj (hi.symm.trans (hji ▸ hj))
      cases hphase.symm.trans hwaits
  | begun hj _ hpop =>
      refine hmodify _ _ fun hji => ?_
      obtain rfl := Option.some.inj (hi.symm.trans (hji ▸ hj))
      cases hpop.symm.trans (Queue.pop?_eq_none_iff.mpr hqueue)
  | decided hj hcommits =>
      refine hmodify _ _ fun hji => ?_
      obtain rfl := Option.some.inj (hi.symm.trans (hji ▸ hj))
      cases hphase.symm.trans hcommits
  | crashed => exact hmodify _ _ fun _ => rfl
  | finished => exact hmodify _ _ fun _ => rfl

/-- A closed lane whose turn it is and whose queue is worked off can end. -/
theorem exists_ending {ls : Lanes} {i : Nat} {lane : Lane} (hi : ls.all[i]? = some lane)
    (hphase : lane.phase = .ready) (hqueue : lane.queue.toList = [])
    (hclosed : lane.isOpen = false) : ∃ ls', ls.Progress ls' ∧ ls'.hasEnded i = true := by
  refine ⟨_, .finished hi hphase (Queue.pop?_eq_none_iff.mpr hqueue) hclosed, ?_⟩
  refine hasEnded_eq_true_iff.mpr ⟨{ lane with phase := .ended false }, ?_, rfl⟩
  rw [getElem?_modify, if_pos rfl, hi, Option.map_some]

/-- Whether no step of `Progress` is possible. -/
def IsStill (ls : Lanes) : Prop :=
  ∀ ls', ¬ls.Progress ls'

/-- Lanes that are still have ended if they and those that they wait for are closed. For the first
one that had not could go on. -/
theorem WellFormed.hasEnded_of_still {ls : Lanes} (h : ls.WellFormed) (hstill : ls.IsStill)
    (hclosed : ∀ {i k : Nat} {lane pred : Lane}, ls.all[i]? = some lane →
      lane.phase = .waiting k → ls.all[k]? = some pred → pred.isOpen = false)
    {i : Nat} {lane : Lane} (hi : ls.all[i]? = some lane) (hlane : lane.isOpen = false) :
    lane.hasEnded = true := by
  induction i using Nat.strong_induction_on generalizing lane with
  | _ i ih =>
      rcases hphase : lane.phase with k | _ | ⟨r, due⟩ | crashed
      · exfalso
        obtain ⟨hk, pred, hpred, -⟩ := h.predecessor i lane k hi hphase
        have hended := ih k hk hpred (hclosed hi hphase hpred)
        exact hstill _ (.woken hi hphase (hasEnded_eq_true_iff.mpr ⟨pred, hpred, hended⟩))
      · exfalso
        rcases hpop : lane.queue.pop? with _ | ⟨r, rest⟩
        · exact hstill _ (.finished hi hphase hpop hlane)
        · exact hstill _ (.begun hi hphase hpop 0)
      · exact absurd (.decided hi hphase) (hstill _)
      · exact Lane.hasEnded_eq_true_iff.mpr ⟨crashed, hphase⟩

/-- While the loop serves, a lane that another waits for is closed: the open one is the latest. -/
theorem Kept.closed_of_waiting {ls : Lanes} (h : ls.Kept) {i k : Nat} {lane pred : Lane}
    (hi : ls.all[i]? = some lane) (hphase : lane.phase = .waiting k)
    (hpred : ls.all[k]? = some pred) : pred.isOpen = false := by
  obtain ⟨hlt, pred', hpred', hsame⟩ := h.wellFormed.predecessor i lane k hi hphase
  obtain rfl := Option.some.inj (hpred.symm.trans hpred')
  by_contra hopen
  rw [Bool.not_eq_false] at hopen
  have hopened := h.tended.isOpen k pred hpred hopen
  exact Nat.not_le.mpr hlt (h.tended.latest _ k hopened i lane hi hsame.symm)

end OffsetCommit.Lanes
