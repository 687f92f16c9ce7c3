import OffsetCommit.Proofs.Coordinator
import OffsetCommit.Proofs.Engine.Revocation
import OffsetCommit.Proofs.Session
import OffsetCommit.Proofs.Session.Congruence

/-!
# Revoking all partitions, or each of them

To revoke all partitions at once, or each tracked one, in any order and at one instant, leads to
sessions that only the log tells apart: their engines are akin and nothing else of them differs
(`Session.Akin`). This is so for calls of one batch, between which the engine does not move and
which may come in the midst of others, and for calls after which it settles.

* `Akin.indistinguishable`: only the log tells akin sessions apart.
* `akin_revokeAll`, `play_batch_revokeAll`: in a batch, revoking all partitions can be replaced by
  revoking each.
* `IsSettled.akin_play_revokeAll`: so it can between the steps of a session.
* `revoking_all_is_revoking_each`: both, in any state.
-/

namespace OffsetCommit

/-- A report without the log. -/
def Report.unlogged (r : Report) : Report :=
  { r with decisions := [], commits := [] }

/-- Whether no commit is reported to have ended. -/
def Report.IsUneventful (r : Report) : Prop :=
  r.done = [] ∧ r.seen = []

/-- The calls of a step that is made of calls. -/
def Step.calls? : Step → Option (List Call)
  | .call c => some [c]
  | .batch calls => some calls
  | _ => none

namespace Coordinator

/-- When each tracked partition has been revoked, none is tracked: the coordinator is
`c.revokeAll.1`. -/
theorem eq_revokeAll {c c' : Coordinator} {partitions : List Partition}
    (hpartitions : partitions.Perm c.tracked) (hconfig : c'.config = c.config)
    (htrackers : ∀ q : Partition, c'.trackers[q]? =
      if q ∈ partitions then none else c.trackers[q]?) : c.revokeAll.1 = c' := by
  refine eq_of_getElem?_eq hconfig.symm fun q => ?_
  rw [getElem?_revokeAll, htrackers]
  split
  · rfl
  · next hq =>
      rw [hpartitions.mem_iff, mem_tracked_iff, Bool.not_eq_true, Option.isSome_eq_false_iff,
        Option.isNone_iff_eq_none] at hq
      exact hq.symm

end Coordinator

namespace Session

/-! ### Sessions that only the log tells apart -/

/-- Whether only the log tells two sessions apart, now or after any further steps: they have the same
coordinator, of every step the same is reported, and so it is at the end; every commit has the same
status and has it at the same time, whoever asks for a shutdown is answered at the same time, and the
broker has stored and rejected the same commits. -/
structure Indistinguishable (s s' : Session) : Prop where
  /-- The coordinators are the same. -/
  coordinator : ∀ steps, (s.playAll steps).2.pipeline.coordinator =
    (s'.playAll steps).2.pipeline.coordinator
  /-- The same is reported of every step, the log aside. -/
  reports : ∀ steps, (s.playAll steps).1.map Report.unlogged =
    (s'.playAll steps).1.map Report.unlogged
  /-- The same is told at the end. -/
  summary : ∀ steps named, (s.playAll steps).2.summary named = (s'.playAll steps).2.summary named
  /-- The statuses are the same. -/
  status : ∀ steps ticket, (s.playAll steps).2.engine.status? ticket =
    (s'.playAll steps).2.engine.status? ticket
  /-- Commits end at the same time. -/
  endTime : ∀ steps ticket, s.endTime? ticket steps = s'.endTime? ticket steps
  /-- Shutdowns are answered at the same time. -/
  returnTime : ∀ steps caller, s.returnTime? caller steps = s'.returnTime? caller steps
  /-- The brokers have stored and rejected the same. -/
  broker : ∀ steps, (s.playAll steps).2.engine.broker = (s'.playAll steps).2.engine.broker

/-- Whether nothing but leftovers and the log differs: the sessions are `Related` by `Engine.Akin`. -/
abbrev Akin (s s' : Session) : Prop :=
  s.Related Engine.Akin False [] s'

namespace Akin

/-- A session is akin to itself. -/
theorem refl (s : Session) : s.Akin s :=
  ⟨⟨rfl, .refl _, False.elim⟩, rfl, rfl, rfl, rfl⟩

variable {s s' : Session} (h : s.Akin s')

include h

/-- Akin sessions are akin after the same step. -/
theorem played (step : Step) : (s.play step).2.Akin (s'.play step).2 := by
  obtain ⟨-, -, hrelated⟩ := h.play Engine.isCongruence_akin fun _ _ => List.not_mem_nil
  exact hrelated

/-- A step of akin sessions is reported alike, the log aside. -/
theorem unlogged (step : Step) : (s.play step).1.unlogged = (s'.play step).1.unlogged := by
  obtain ⟨hanswer, hdone, hrelated⟩ := h.play Engine.isCongruence_akin fun _ _ => List.not_mem_nil
  have hsame : (s.play step).1.done = (s'.play step).1.done := by simpa using hdone
  have hseen : (s.play step).1.seen = (s'.play step).1.seen := by
    show (List.drop _ (s.play step).2.engine.observed.toList).mergeSort =
      (List.drop _ (s'.play step).2.engine.observed.toList).mergeSort
    rw [h.engine.observed, hrelated.engine.observed]
  rw [Report.unlogged, Report.unlogged, hanswer, hsame, hseen]

/-- The steps of akin sessions are reported alike, the log aside. -/
theorem reports (steps : List Step) :
    (s.playAll steps).1.map Report.unlogged = (s'.playAll steps).1.map Report.unlogged := by
  induction steps generalizing s s' with
  | nil => rfl
  | cons step rest ih =>
      exact congrArg₂ List.cons (h.unlogged step) (ih (h.played step))

/-- Akin sessions have the same summary. -/
theorem summary (named : List Partition) : s.summary named = s'.summary named := by
  have hall : ∀ held : Array Nat, held.filter (· ∉ []) = held := fun held =>
    Array.filter_eq_self.mpr (by simp)
  have hheld : s.held = s'.held := by rw [← hall s.held, h.held, hall]
  have hbroker := Engine.isCongruence_akin.query h.engine Engine.shows_broker
  have hnow := Engine.isCongruence_akin.query h.engine Engine.shows_now
  simp only [Session.summary]
  rw [hbroker, hnow, hheld, h.isDropped, h.pipeline.coordinator, h.shutdowns]

/-- **Only the log tells akin sessions apart**: they are `Indistinguishable`. -/
theorem indistinguishable : s.Indistinguishable s' := by
  have hplayed : ∀ steps, (s.playAll steps).2.Akin (s'.playAll steps).2 := fun steps =>
    h.playAll Engine.isCongruence_akin fun _ _ _ _ => List.not_mem_nil
  have htime : ∀ steps {isDone : Engine → Bool}, Engine.Shows isDone →
      s.firstTime? isDone steps = s'.firstTime? isDone steps := fun steps _ hdone =>
    h.firstTime? Engine.isCongruence_akin (fun _ _ _ _ => List.not_mem_nil) hdone
  exact {
    coordinator := fun steps => (hplayed steps).pipeline.coordinator
    reports := fun steps => h.reports steps
    summary := fun steps named => (hplayed steps).summary named
    status := fun steps ticket =>
      Engine.isCongruence_akin.query (hplayed steps).engine (Engine.shows_status? ticket)
    endTime := fun steps ticket => htime steps ((Engine.shows_status? ticket).map Option.isSome)
    returnTime := fun steps caller => htime steps (Engine.shows_hasReturned caller)
    broker := fun steps =>
      Engine.isCongruence_akin.query (hplayed steps).engine Engine.shows_broker }

end Akin

/-! ### Revocations of one batch -/

/-- Calls may be made in two parts. -/
theorem enactAll_append (s : Session) (first second : List Call) :
    s.enactAll (first ++ second) =
      ((s.enactAll first).1 ++ ((s.enactAll first).2.enactAll second).1,
        ((s.enactAll first).2.enactAll second).2) := by
  induction first generalizing s with
  | nil => rfl
  | cons c rest ih =>
      simp only [List.cons_append, enactAll, ih]

/-- When the coordinator has been let go, revocations are answered `.dropped` and change nothing. -/
theorem enactAll_of_dropped {s : Session} (h : s.isDropped = true) (partitions : List Partition) :
    s.enactAll (partitions.map .revokePartition) = (partitions.map fun _ => .dropped, s) := by
  have hone : ∀ p, s.enact (.revokePartition p) = (.dropped, s) := fun p => if_pos h
  induction partitions with
  | nil => rfl
  | cons p rest ih => simp only [List.map_cons, enactAll, hone, ih]

/-- Revoking a tracked partition is answered `.flag true`, empties its place and revokes it on the
engine. -/
theorem enact_revokePartition {s : Session} (hkept : s.isDropped = false) {p : Partition}
    {t : Tracker} (ht : s.pipeline.coordinator.trackers[p]? = some t) :
    ∃ coordinator log, s.enact (.revokePartition p) =
        (.flag true, { s with pipeline := ⟨coordinator, s.engine.revoke p, log⟩ }) ∧
      coordinator.config = s.pipeline.coordinator.config ∧
      ∀ q : Partition, coordinator.trackers[q]? =
        if p = q then none else s.pipeline.coordinator.trackers[q]? := by
  obtain ⟨c, events, hrevoke, htrackers⟩ := Coordinator.revoke?_of_tracked ht
  refine ⟨c, s.pipeline.log ++ events, ?_, Coordinator.config_revoke? hrevoke, htrackers⟩
  simp only [enact, toCoordinator, hkept, Pipeline.revoke, hrevoke]
  rfl

/-- Revoking tracked partitions, one after the other, empties their places and leaves
`partitions.foldl Engine.revoke s.engine`. -/
theorem enactAll_revokePartition {s : Session} (hkept : s.isDropped = false)
    {partitions : List Partition} (hnodup : partitions.Nodup)
    (htracked : ∀ p ∈ partitions, p ∈ s.pipeline.coordinator.tracked) :
    ∃ coordinator log, s.enactAll (partitions.map .revokePartition) =
        (partitions.map fun _ => .flag true,
          { s with pipeline := ⟨coordinator, partitions.foldl Engine.revoke s.engine, log⟩ }) ∧
      coordinator.config = s.pipeline.coordinator.config ∧
      ∀ q : Partition, coordinator.trackers[q]? =
        if q ∈ partitions then none else s.pipeline.coordinator.trackers[q]? := by
  induction partitions generalizing s with
  | nil => exact ⟨s.pipeline.coordinator, s.pipeline.log, rfl, rfl, fun _ => rfl⟩
  | cons p rest ih =>
      obtain ⟨hp, hrest⟩ := List.nodup_cons.mp hnodup
      obtain ⟨t, ht⟩ := Option.isSome_iff_exists.mp
        (Coordinator.mem_tracked_iff.mp (htracked p List.mem_cons_self))
      obtain ⟨c, log, hfirst, hconfig, htrackers⟩ := enact_revokePartition hkept ht
      have hstill : ∀ q ∈ rest, q ∈ c.tracked := by
        intro q hq
        have hne : p ≠ q := fun h => hp (h ▸ hq)
        rw [Coordinator.mem_tracked_iff, htrackers, if_neg hne, ← Coordinator.mem_tracked_iff]
        exact htracked q (List.mem_cons_of_mem p hq)
      obtain ⟨c', log', hothers, hconfig', htrackers'⟩ :=
        ih (s := { s with pipeline := ⟨c, s.engine.revoke p, log⟩ }) hkept hrest hstill
      refine ⟨c', log', ?_, hconfig'.trans hconfig, fun q => ?_⟩
      · simp only [List.map_cons, enactAll, hfirst, hothers]
        rfl
      · rw [htrackers', htrackers]
        by_cases hpq : p = q
        · simp [hpq]
        · simp [hpq, Ne.symm hpq]

/-- Revoking all partitions is answered with their number and leaves
`s.pipeline.coordinator.tracked.foldl Engine.revoke s.engine`. -/
theorem enact_revokeAll {s : Session} (hkept : s.isDropped = false) :
    ∃ log, s.enact .revokeAll = (.number s.pipeline.coordinator.tracked.length,
      { s with pipeline :=
        ⟨s.pipeline.coordinator.revokeAll.1,
          s.pipeline.coordinator.tracked.foldl Engine.revoke s.engine, log⟩ }) := by
  refine ⟨s.pipeline.log ++ s.pipeline.coordinator.revokeAll.2, ?_⟩
  simp only [enact, toCoordinator, hkept]
  rfl

/-- **Revoking all partitions comes to revoking each**, in any order: the sessions that come of it
are akin. -/
theorem akin_revokeAll {s : Session} {order : List Partition}
    (horder : order.Perm s.pipeline.coordinator.tracked) :
    (s.enact .revokeAll).2.Akin (s.enactAll (order.map .revokePartition)).2 := by
  rcases hdropped : s.isDropped
  · obtain ⟨log, hall⟩ := enact_revokeAll hdropped
    obtain ⟨c, log', heach, hconfig, htrackers⟩ := enactAll_revokePartition hdropped
      (horder.nodup_iff.mpr (Coordinator.nodup_tracked _)) fun p hp => horder.mem_iff.mp hp
    rw [hall, heach]
    exact ⟨⟨Coordinator.eq_revokeAll horder hconfig htrackers,
      s.engine.akin_revokeEach horder.symm, False.elim⟩, rfl, rfl, rfl, rfl⟩
  · have hall : s.enact .revokeAll = (.dropped, s) := if_pos hdropped
    rw [hall, enactAll_of_dropped hdropped]
    exact .refl s

/-- Batches that lead to akin sessions report the same commits to have ended and the same to the
observer, and lead to akin sessions when settled. -/
theorem play_batch {s : Session} {calls calls' : List Call}
    (h : (s.enactAll calls).2.Akin (s.enactAll calls').2) :
    (s.play (.batch calls)).1.done = (s.play (.batch calls')).1.done ∧
      (s.play (.batch calls)).1.seen = (s.play (.batch calls')).1.seen ∧
      (s.play (.batch calls)).2.Akin (s.play (.batch calls')).2 := by
  obtain ⟨hdone, hsettled⟩ := h.settle Engine.isCongruence_akin
  have hplayed : (s.play (.batch calls)).2.Akin (s.play (.batch calls')).2 := hsettled
  refine ⟨?_, ?_, hplayed⟩
  · show (s.enactAll calls).2.settle.1 = (s.enactAll calls').2.settle.1
    simpa using hdone
  · show (List.drop _ (s.play (.batch calls)).2.engine.observed.toList).mergeSort =
      (List.drop _ (s.play (.batch calls')).2.engine.observed.toList).mergeSort
    rw [hplayed.engine.observed]

/-! ### Revocations step by step -/

/-- A settled session that has revoked partitions settles by its engine alone. -/
theorem IsSettled.settle_revoked {s : Session} (h : s.IsSettled) (hsound : s.engine.Sound)
    (partitions : List Partition) (coordinator : Coordinator) (log : Array DecisionEvent) :
    settle { s with pipeline := ⟨coordinator, partitions.foldl Engine.revoke s.engine, log⟩ } =
      ([], { s with
        pipeline := ⟨coordinator, (partitions.foldl Engine.revoke s.engine).settle, log⟩ }) := by
  obtain ⟨-, htickets, hcallers, -⟩ := Engine.settle_revokeEach_frame h.engine hsound partitions
  have hsettled : IsSettled { s with
      pipeline := ⟨coordinator, (partitions.foldl Engine.revoke s.engine).settle, log⟩ } := by
    refine ⟨Engine.next?_settle _, fun sh hsh => ?_, fun r hr => ?_⟩
    · show ((partitions.foldl Engine.revoke s.engine).settle.callers[sh.caller]?.getD false) = false
      rw [hcallers]
      exact h.shutdowns sh hsh
    · show (partitions.foldl Engine.revoke s.engine).settle.tickets[r]?.bind Ticket.status = none
      rw [htickets]
      exact h.held r hr
  have hagain : (partitions.foldl Engine.revoke s.engine).settle.settle =
      (partitions.foldl Engine.revoke s.engine).settle :=
    Engine.settle_of_next?_eq_none hsettled.engine
  rw [← hsettled.settle_eq]
  unfold settle onEngine Pipeline.onEngine
  dsimp only
  rw [hagain]

/-- A step of calls is these calls and the settling after them. -/
theorem play_of_calls? (s : Session) {step : Step} {calls : List Call}
    (h : step.calls? = some calls) :
    (s.play step).2 = (s.enactAll calls).2.settle.2 ∧
      (s.play step).1.done = (s.enactAll calls).2.settle.1 := by
  cases step with
  | call c =>
      obtain rfl := Option.some.inj h
      exact ⟨rfl, rfl⟩
  | batch calls' =>
      obtain rfl := Option.some.inj h
      exact ⟨rfl, rfl⟩
  | _ => cases h

/-- A step that leaves `observed` shows the observer nothing. -/
theorem seen_eq_nil {s : Session} {step : Step}
    (h : (s.play step).2.engine.observed = s.engine.observed) : (s.play step).1.seen = [] := by
  show (List.drop _ (s.play step).2.engine.observed.toList).mergeSort = []
  rw [h, ← Array.length_toList, List.drop_length, List.mergeSort_nil]

/-- A step that revokes partitions is over when the engine has settled, and no commit ends by it. -/
theorem IsSettled.play_revoked {s : Session} (h : s.IsSettled) (hsound : s.engine.Sound)
    {step : Step} {calls : List Call} (hstep : step.calls? = some calls)
    {answers : List Answer} {partitions : List Partition} {coordinator : Coordinator}
    {log : Array DecisionEvent} (hcalls : s.enactAll calls = (answers,
      { s with pipeline := ⟨coordinator, partitions.foldl Engine.revoke s.engine, log⟩ })) :
    (s.play step).2 = { s with
        pipeline := ⟨coordinator, (partitions.foldl Engine.revoke s.engine).settle, log⟩ } ∧
      (s.play step).1.IsUneventful := by
  obtain ⟨hplayed, hdone⟩ := s.play_of_calls? hstep
  rw [hcalls, h.settle_revoked hsound] at hplayed hdone
  refine ⟨hplayed, hdone, seen_eq_nil ?_⟩
  obtain ⟨-, -, -, hobserved⟩ := Engine.settle_revokeEach_frame h.engine hsound partitions
  rw [hplayed]
  exact hobserved

/-- A step of calls that change nothing leaves a settled session as it is. -/
theorem IsSettled.play_unchanged {s : Session} (h : s.IsSettled) {step : Step} {calls : List Call}
    (hstep : step.calls? = some calls) {answers : List Answer}
    (hcalls : s.enactAll calls = (answers, s)) :
    (s.play step).2 = s ∧ (s.play step).1.IsUneventful := by
  obtain ⟨hplayed, hdone⟩ := s.play_of_calls? hstep
  rw [hcalls, h.settle_eq] at hplayed hdone
  exact ⟨hplayed, hdone, seen_eq_nil (congrArg (fun s : Session => s.engine.observed) hplayed)⟩

/-- Steps that revoke `groups` of tracked partitions leave the engine that settles after each group,
and no commit ends by them. -/
theorem IsSettled.playAll_revoked {s : Session} (h : s.IsSettled) (hsound : s.engine.Sound)
    (hkept : s.isDropped = false) {steps : List Step} {groups : List (List Partition)}
    (hsteps : steps.map Step.calls? = groups.map fun group => some (group.map .revokePartition))
    (hnodup : groups.flatten.Nodup)
    (htracked : ∀ p ∈ groups.flatten, p ∈ s.pipeline.coordinator.tracked) :
    ∃ coordinator log, (s.playAll steps).2 = { s with
        pipeline := ⟨coordinator,
          groups.foldl (fun e group => (group.foldl Engine.revoke e).settle) s.engine, log⟩ } ∧
      coordinator.config = s.pipeline.coordinator.config ∧
      (∀ q : Partition, coordinator.trackers[q]? =
        if q ∈ groups.flatten then none else s.pipeline.coordinator.trackers[q]?) ∧
      ∀ r ∈ (s.playAll steps).1, r.IsUneventful := by
  induction groups generalizing s steps with
  | nil =>
      obtain rfl : steps = [] := List.map_eq_nil_iff.mp hsteps
      exact ⟨s.pipeline.coordinator, s.pipeline.log, rfl, rfl, fun _ => rfl, fun r hr => by cases hr⟩
  | cons group rest ih =>
      obtain ⟨step, others, rfl, hstep, hothers⟩ := List.map_eq_cons_iff.mp hsteps
      rw [List.flatten_cons] at hnodup htracked
      obtain ⟨hgroup, hrest, hdisjoint⟩ := List.nodup_append.mp hnodup
      obtain ⟨c, log, hfirst, hconfig, htrackers⟩ := enactAll_revokePartition hkept hgroup
        fun p hp => htracked p (List.mem_append_left _ hp)
      obtain ⟨hplayed, huneventful⟩ := h.play_revoked hsound hstep hfirst
      have hsettled : (s.play step).2.IsSettled := isSettled_settle _
      have hsound' : (s.play step).2.engine.Sound := by
        rw [hplayed]
        exact (Engine.settle_revokeEach_frame h.engine hsound group).1
      have hstill : ∀ q ∈ rest.flatten, q ∈ (s.play step).2.pipeline.coordinator.tracked := by
        intro q hq
        have hne : q ∉ group := fun hmem => hdisjoint q hmem q hq rfl
        rw [hplayed, Coordinator.mem_tracked_iff, htrackers, if_neg hne,
          ← Coordinator.mem_tracked_iff]
        exact htracked q (List.mem_append_right _ hq)
      obtain ⟨c', log', hlast, hconfig', htrackers', huneventful'⟩ :=
        ih hsettled hsound' (by rw [hplayed]; exact hkept) hothers hrest hstill
      refine ⟨c', log', ?_, ?_, fun q => ?_, fun r hr => ?_⟩
      · show ((s.play step).2.playAll others).2 = _
        rw [hlast, hplayed]
        rfl
      · rw [hconfig', hplayed]
        exact hconfig
      · rw [htrackers', hplayed, htrackers, List.flatten_cons]
        by_cases hq : q ∈ group <;> simp [hq]
      · rcases List.mem_cons.mp hr with rfl | hr
        · exact huneventful
        · exact huneventful' r hr

/-- When the coordinator has been let go, such steps change nothing. -/
theorem IsSettled.playAll_of_dropped {s : Session} (h : s.IsSettled) (hdropped : s.isDropped = true)
    {steps : List Step} {groups : List (List Partition)}
    (hsteps : steps.map Step.calls? = groups.map fun group => some (group.map .revokePartition)) :
    (s.playAll steps).2 = s ∧ ∀ r ∈ (s.playAll steps).1, r.IsUneventful := by
  induction groups generalizing steps with
  | nil =>
      obtain rfl : steps = [] := List.map_eq_nil_iff.mp hsteps
      exact ⟨rfl, fun r hr => by cases hr⟩
  | cons group rest ih =>
      obtain ⟨step, others, rfl, hstep, hothers⟩ := List.map_eq_cons_iff.mp hsteps
      obtain ⟨hplayed, huneventful⟩ := h.play_unchanged hstep (enactAll_of_dropped hdropped group)
      obtain ⟨hlast, huneventful'⟩ := ih hothers
      have heq : s.playAll (step :: others) =
          ((s.play step).1 :: ((s.play step).2.playAll others).1,
            ((s.play step).2.playAll others).2) := rfl
      rw [heq, hplayed]
      exact ⟨hlast, List.forall_mem_cons.mpr ⟨huneventful, huneventful'⟩⟩

/-- **Revoking all partitions comes to revoking each step by step**, in any order: the sessions are
akin, and no step is eventful. -/
theorem IsSettled.akin_play_revokeAll {s : Session} (h : s.IsSettled) (hsound : s.engine.Sound)
    {steps : List Step} {groups : List (List Partition)}
    (hsteps : steps.map Step.calls? = groups.map fun group => some (group.map .revokePartition))
    (horder : groups.flatten.Perm s.pipeline.coordinator.tracked) :
    (s.play (.call .revokeAll)).2.Akin (s.playAll steps).2 ∧
      (s.play (.call .revokeAll)).1.IsUneventful ∧ ∀ r ∈ (s.playAll steps).1, r.IsUneventful := by
  have hstep : (Step.call .revokeAll).calls? = some [.revokeAll] := rfl
  rcases hdropped : s.isDropped
  · obtain ⟨log, hall⟩ := enact_revokeAll hdropped
    have hone : s.enactAll [.revokeAll] = ([(s.enact .revokeAll).1], (s.enact .revokeAll).2) := rfl
    rw [hall] at hone
    obtain ⟨hplayed, huneventful⟩ := h.play_revoked hsound hstep hone
    obtain ⟨c, log', heach, hconfig, htrackers, huneventful'⟩ := h.playAll_revoked hsound hdropped
      hsteps (horder.nodup_iff.mpr (Coordinator.nodup_tracked _)) fun p hp => horder.mem_iff.mp hp
    refine ⟨?_, huneventful, huneventful'⟩
    have hengine := (s.engine.akin_revokeEach horder.symm).settle
    rw [← Engine.tidied_settle_revokeEach h.engine hsound groups] at hengine
    rw [hplayed, heach]
    exact ⟨⟨Coordinator.eq_revokeAll horder hconfig htrackers, .of_tidied hengine, False.elim⟩,
      rfl, rfl, rfl, rfl⟩
  · have hall : s.enactAll [.revokeAll] = ([.dropped], s) := by
      have hone : s.enact .revokeAll = (.dropped, s) := if_pos hdropped
      simp only [enactAll, hone]
    obtain ⟨hplayed, huneventful⟩ := h.play_unchanged hstep hall
    obtain ⟨hlast, huneventful'⟩ := h.playAll_of_dropped hdropped hsteps
    rw [hplayed, hlast]
    exact ⟨.refl s, huneventful, huneventful'⟩

/-! ### All partitions, or each of them -/

/-- The answers to revoking all of `count` partitions, and to revoking one of them, in a session
whose coordinator may have been let go. -/
def revocationAnswers (s : Session) (count : Nat) : Answer × Answer :=
  if s.isDropped then (.dropped, .dropped) else (.number count, .flag true)

/-- The answers to revoking all partitions, and to revoking each, are `s.revocationAnswers`. -/
theorem answers_revoked {s : Session} {order : List Partition}
    (horder : order.Perm s.pipeline.coordinator.tracked) :
    (s.enact .revokeAll).1 = (s.revocationAnswers order.length).1 ∧
      (s.enactAll (order.map .revokePartition)).1 =
        order.map fun _ => (s.revocationAnswers order.length).2 := by
  rcases hdropped : s.isDropped
  · obtain ⟨log, hall⟩ := enact_revokeAll hdropped
    obtain ⟨c, log', heach, -, -⟩ := enactAll_revokePartition hdropped
      (horder.nodup_iff.mpr (Coordinator.nodup_tracked _)) fun p hp => horder.mem_iff.mp hp
    rw [hall, heach, horder.length_eq, revocationAnswers, hdropped]
    exact ⟨rfl, rfl⟩
  · have hall : s.enact .revokeAll = (.dropped, s) := if_pos hdropped
    rw [hall, enactAll_of_dropped hdropped, revocationAnswers, hdropped]
    exact ⟨rfl, rfl⟩

/-- **In a batch, revoking all partitions can be replaced by revoking each**, in any order: the
other calls are answered alike, and so is what ends. -/
theorem play_batch_revokeAll (s : Session) (earlier later : List Call) {order : List Partition}
    (horder : order.Perm (s.enactAll earlier).2.pipeline.coordinator.tracked) :
    let all := s.play (.batch (earlier ++ .revokeAll :: later))
    let each := s.play (.batch (earlier ++ order.map .revokePartition ++ later))
    let revoked := (s.enactAll earlier).2.revocationAnswers order.length
    (∃ answers, all.1.answer = .batch ((s.enactAll earlier).1 ++ revoked.1 :: answers) ∧
      each.1.answer =
        .batch ((s.enactAll earlier).1 ++ order.map (fun _ => revoked.2) ++ answers)) ∧
    all.1.done = each.1.done ∧ all.1.seen = each.1.seen ∧ all.2.Akin each.2 := by
  intro all each revoked
  have hlater : IsCongruent Engine.Akin False [] fun s => s.enactAll later :=
    isCongruent_enactAll Engine.isCongruence_akin fun _ _ => List.not_mem_nil
  obtain ⟨hanswers, hlast⟩ := hlater _ _ (akin_revokeAll horder)
  obtain ⟨hall, heach⟩ := answers_revoked horder
  have hcallsAll : s.enactAll (earlier ++ .revokeAll :: later) =
      ((s.enactAll earlier).1 ++ ((s.enactAll earlier).2.enact .revokeAll).1 ::
        (((s.enactAll earlier).2.enact .revokeAll).2.enactAll later).1,
      (((s.enactAll earlier).2.enact .revokeAll).2.enactAll later).2) := s.enactAll_append _ _
  have hcallsEach := s.enactAll_append (earlier ++ order.map .revokePartition) later
  rw [s.enactAll_append earlier] at hcallsEach
  have hakin : (s.enactAll (earlier ++ .revokeAll :: later)).2.Akin
      (s.enactAll (earlier ++ order.map .revokePartition ++ later)).2 := by
    rw [hcallsAll, hcallsEach]
    exact hlast
  obtain ⟨hdone, hseen, hplayed⟩ := play_batch hakin
  refine ⟨⟨(((s.enactAll earlier).2.enact .revokeAll).2.enactAll later).1, ?_, ?_⟩,
    hdone, hseen, hplayed⟩
  · show Answer.batch (s.enactAll (earlier ++ .revokeAll :: later)).1 = _
    rw [hcallsAll, hall]
  · show Answer.batch (s.enactAll (earlier ++ order.map .revokePartition ++ later)).1 = _
    have hsame : (((s.enactAll earlier).2.enact .revokeAll).2.enactAll later).1 =
        (((s.enactAll earlier).2.enactAll (order.map .revokePartition)).2.enactAll later).1 :=
      hanswers
    rw [hcallsEach, heach, hsame]

/-- **Revoking all partitions is revoking each of them, in any order.** Whatever state a session is
in, and after any `earlier` calls of a batch, `.revokeAll` can be replaced by `.revokePartition p`
for the tracked partitions, in any `order`: the other calls of the batch are answered as before, the
same commits are reported to have ended, and the sessions that come of it are `Indistinguishable`,
however they go on. And between the steps of a session `.revokeAll` can be replaced by `steps` that
revoke each tracked partition, in any order, one by one or in `groups`; no commit ends by any of
these steps (`IsUneventful`). -/
theorem revoking_all_is_revoking_each :
    (∀ (s : Session) (earlier later : List Call) (order : List Partition),
      order.Perm (s.enactAll earlier).2.pipeline.coordinator.tracked →
        let all := s.play (.batch (earlier ++ .revokeAll :: later))
        let each := s.play (.batch (earlier ++ order.map .revokePartition ++ later))
        let revoked := (s.enactAll earlier).2.revocationAnswers order.length
        (∃ answers, all.1.answer = .batch ((s.enactAll earlier).1 ++ revoked.1 :: answers) ∧
          each.1.answer =
            .batch ((s.enactAll earlier).1 ++ order.map (fun _ => revoked.2) ++ answers)) ∧
        all.1.done = each.1.done ∧ all.1.seen = each.1.seen ∧ all.2.Indistinguishable each.2) ∧
    ∀ (config : Config) (attachment : Attachment) (setup : Setup) (broker : Broker)
      (start : Session), Session.start config attachment setup broker = .ok start →
      ∀ (before steps : List Step) (groups : List (List Partition)),
        let s := (start.playAll before).2
        steps.map Step.calls? = groups.map (fun group => some (group.map .revokePartition)) →
        groups.flatten.Perm s.pipeline.coordinator.tracked →
          let all := s.play (.call .revokeAll)
          let each := s.playAll steps
          all.1.IsUneventful ∧ (∀ r ∈ each.1, r.IsUneventful) ∧ all.2.Indistinguishable each.2 := by
  refine ⟨fun s earlier later order horder => ?_, ?_⟩
  · obtain ⟨hanswers, hdone, hseen, hakin⟩ := s.play_batch_revokeAll earlier later horder
    exact ⟨hanswers, hdone, hseen, hakin.indistinguishable⟩
  · intro config attachment setup broker start hstart before steps groups s hsteps horder
    have hsettled : s.IsSettled := isSettled_playAll (isSettled_start hstart) before
    have hsound : s.engine.Sound := by
      obtain ⟨actions, hrun⟩ := exists_engine_actions hstart before
      rw [hrun]
      exact (Engine.sound_start setup broker).run actions
    obtain ⟨hakin, huneventful, huneventful'⟩ := hsettled.akin_play_revokeAll hsound hsteps horder
    exact ⟨huneventful, huneventful', hakin.indistinguishable⟩

/-- Two partitions have a commit in flight each, and are revoked at once or one after the other, in
the other order. The commit that is then issued on the second of them waits for the lane before it,
and both lanes come to their end when they would have. -/
theorem revoking_lanes_in_flight :
    let p : Partition := ⟨"orders", 0⟩
    let q : Partition := ⟨"orders", 1⟩
    let broker : Broker := .start 7 { Faults.quiet with delay := some 5 }
    let before : List Step :=
      [.batch [.notify .received p (.clamp 4), .notify .received q (.clamp 6),
        .commit p ⟨.clamp 5, 1⟩, .commit q ⟨.clamp 7, 1⟩], .elapse 2]
    let again : Call := .commit q ⟨.clamp 8, 1⟩
    ∃ start, Session.start .testing .shared ⟨[], none⟩ broker = .ok start ∧
      let s := (start.playAll before).2
      let all := s.play (.batch [.revokeAll, again])
      let each := s.play (.batch [.revokePartition q, .revokePartition p, again])
      s.pipeline.coordinator.tracked = [p, q] ∧
      (∃ answers, all.1.answer = .batch (.number 2 :: answers) ∧
        each.1.answer = .batch (.flag true :: .flag true :: answers)) ∧
      all.2.endTime? 2 [.wait 2, .close] = some 10 ∧
      each.2.endTime? 2 [.wait 2, .close] = some 10 ∧
      (s.play (.call .revokeAll)).2.endTime? 1 [.wait 1, .close] = some 5 ∧
      (s.playAll [.call (.revokePartition q), .batch [.revokePartition p]]).2.endTime? 1
        [.wait 1, .close] = some 5 := by
  intro p q broker before again
  let start : Session := ⟨⟨⟨.testing, ∅⟩, .start ⟨[], none⟩ broker, #[]⟩, .shared, false, #[], []⟩
  have hstart : Session.start .testing .shared ⟨[], none⟩ broker = .ok start := rfl
  let s := (start.playAll before).2
  have htracked : s.pipeline.coordinator.tracked = [p, q] := by decide +kernel
  have horder : [q, p].Perm s.pipeline.coordinator.tracked := htracked ▸ .swap p q []
  have hlater : (s.play (.batch [.revokeAll, again])).2.endTime? 2 [.wait 2, .close] = some 10 := by
    decide +kernel
  have hsooner : (s.play (.call .revokeAll)).2.endTime? 1 [.wait 1, .close] = some 5 := by
    decide +kernel
  obtain ⟨hbatch, hsteps⟩ := revoking_all_is_revoking_each
  obtain ⟨⟨answers, hall, heach⟩, -, -, hsame⟩ := hbatch s [] [again] [q, p] horder
  obtain ⟨-, -, hsame'⟩ := hsteps _ _ _ _ start hstart before
    [.call (.revokePartition q), .batch [.revokePartition p]] [[q], [p]] rfl horder
  exact ⟨start, hstart, htracked, ⟨answers, hall, heach⟩, hlater, hsame.endTime _ 2 ▸ hlater,
    hsooner, hsame'.endTime _ 1 ▸ hsooner⟩

end Session

end OffsetCommit
