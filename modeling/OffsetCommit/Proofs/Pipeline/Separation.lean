import OffsetCommit.Proofs.Pipeline.Protocol

/-!
# Partitions are kept apart

What the coordinator decides for a partition follows from the calls that concern the partition, in
their order, and from nothing else. Two pipelines may differ in everything besides: in the calls for
other partitions, in all that happens to their engines, and in the settings. Only the number of
blocks of the tracker follows from a setting, the shrink threshold.

* `step_of_call?_eq_some`, `getElem?_step_of_call?_eq_none`: a call that concerns the partition
  looks at its place in the table and fills it anew, and no other step touches it.
* `observations_eq`: so what is observed of a partition is a function of its place and of the
  calls.
* `observations_isLike`: under another threshold it is the same but for the number of blocks.
* `decisions_are_separate`: what this means for two pipelines.
-/

namespace OffsetCommit

/-! ### Calls and answers -/

/-- Something that happens to a pipeline, or a call that closes it. -/
inductive PipelineStep where
  /-- A call without waiting, or something that happens to the engine. -/
  | act (action : PipelineAction)
  /-- A call to close begins: partitions are given up, and the engine is asked to shut down. -/
  | beginClose
  /-- A call to close, from its beginning to its end. -/
  | close

/-- A call as one partition sees it. Of a record only the offset counts. -/
inductive PartitionCall where
  /-- A record of the partition was read. -/
  | received (offset : Offset)
  /-- The dispatch of one of its records has ended. -/
  | ended (notification : Notification)
  /-- The partition is given up. -/
  | revoked
  /-- All partitions are given up. -/
  | revokedAll
  /-- The pipeline is closed. -/
  | closed
deriving DecidableEq

/-- What a call tells its caller about the partition that it names. Tickets are left out: they
number the commits of all partitions together. -/
inductive PartitionAnswer where
  /-- There is no answer, or none about the partition. -/
  | none
  /-- A notification was refused, or it issued a commit, or it issued none. -/
  | settled (answer : Except Error (Option (Partition × Advance)))
  /-- The partition was given up if it had been tracked. -/
  | revoked (wasTracked : Bool)
deriving DecidableEq

/-- What can be seen of a call from its partition. -/
structure Observation where
  /-- The answer. -/
  answer : PartitionAnswer
  /-- What can be seen of the partition's tracker afterwards. -/
  snapshot : Option Snapshot
deriving DecidableEq

/-- A snapshot in which the number of blocks does not count. -/
def Snapshot.withoutCapacity (s : Snapshot) : Snapshot :=
  { s with capacity := 0 }

/-- An observation in which the number of blocks does not count. -/
def Observation.withoutCapacity (o : Observation) : Observation :=
  { o with snapshot := o.snapshot.map Snapshot.withoutCapacity }

/-- The call that a step is for `p`; `none` if the step does not concern `p`. -/
def PipelineStep.call? (p : Partition) : PipelineStep → Option PartitionCall
  | .act (.receive r) => if r.partition = p then some (.received r.offset) else none
  | .act (.resolve r outcome) =>
      if r.partition = p then some (.ended ⟨r.offset, outcome⟩) else none
  | .act (.revoke q) => if q = p then some .revoked else none
  | .act .revokeAll => some .revokedAll
  | .act (.engine _) => none
  | .beginClose => some .closed
  | .close => some .closed

/-- The calls among some steps that concern a partition, in their order. -/
def PipelineStep.calls (p : Partition) (steps : List PipelineStep) : List PartitionCall :=
  steps.filterMap (PipelineStep.call? p)

namespace Pipeline

/-- The pipeline after a step. -/
def step (pl : Pipeline) : PipelineStep → Pipeline
  | .act a => pl.act a
  | .beginClose => pl.beginClose.2.2
  | .close => pl.close

/-- The answer to a step. -/
def answerTo (pl : Pipeline) : PipelineStep → PartitionAnswer
  | .act (.resolve r outcome) =>
      .settled <| (pl.resolve r outcome).1.map fun receipt? =>
        receipt?.map fun receipt => (receipt.partition, receipt.advance)
  | .act (.revoke q) => .revoked (pl.revoke q).1
  | _ => .none

/-- What can be seen from `p` along some steps: for each call that concerns `p`, its answer and the
snapshot behind it. -/
def observations (pl : Pipeline) (p : Partition) : List PipelineStep → List Observation
  | [] => []
  | step :: rest =>
      let seen : Observation := ⟨pl.answerTo step, (pl.step step).coordinator.snapshot? p⟩
      (step.call? p).toList.map (fun _ => seen) ++ (pl.step step).observations p rest

end Pipeline

/-! ### One partition's place -/

namespace PartitionCall

variable (p : Partition) (threshold : Nat)

/-- The answer to a call, from what the place of the partition holds. -/
def answer (place : Option Tracker) : PartitionCall → PartitionAnswer
  | .ended n =>
      match place with
      | .none => .settled (.error (.untracked p n.offset))
      | .some t => .settled (.ok ((t.notify n).1.map fun advance => (p, advance)))
  | .revoked => .revoked place.isSome
  | _ => .none

/-- What the place of the partition holds after a call. -/
def next (place : Option Tracker) : PartitionCall → Option Tracker
  | .received o => some (place.getD (.start o threshold))
  | .ended n => place.map fun t => (t.notify n).2
  | .revoked => none
  | .revokedAll => none
  | .closed => none

/-- What can be seen along some calls when nothing else is there than the place of the partition. -/
def observations (place : Option Tracker) : List PartitionCall → List Observation
  | [] => []
  | call :: rest =>
      ⟨call.answer p place, (call.next threshold place).map Tracker.snapshot⟩ ::
        observations (call.next threshold place) rest

end PartitionCall

/-! ### Steps at one place -/

namespace Pipeline

variable {p : Partition}

/-- The settings of the coordinator stay as they are. -/
theorem config_act (pl : Pipeline) (a : PipelineAction) :
    (pl.act a).coordinator.config = pl.coordinator.config := by
  cases a with
  | receive r =>
      show (pl.coordinator.receive r).1.config = _
      unfold Coordinator.receive
      split <;> rfl
  | resolve r outcome =>
      rw [act, coordinator_resolve]
      exact pl.coordinator.config_resolve r outcome
  | revoke q =>
      rcases ht : pl.coordinator.trackers[q]? with _ | t
      · rw [act, revoke, Coordinator.revoke?_of_untracked ht]
      · simp only [act, revoke, Coordinator.revoke?, Coordinator.take?, ht]
        rfl
  | revokeAll => rfl
  | engine a => rfl

/-- No step changes the settings of the coordinator. -/
theorem config_step (pl : Pipeline) (step : PipelineStep) :
    (pl.step step).coordinator.config = pl.coordinator.config := by
  cases step with
  | act a => exact pl.config_act a
  | beginClose => rfl
  | close => rfl

/-- A step that does not concern a partition does not touch its place. -/
theorem getElem?_step_of_call?_eq_none (pl : Pipeline) {step : PipelineStep}
    (h : step.call? p = none) :
    (pl.step step).coordinator.trackers[p]? = pl.coordinator.trackers[p]? := by
  cases step with
  | act a =>
      cases a with
      | receive r =>
          have hp : r.partition ≠ p := fun hp => by simp [PipelineStep.call?, hp] at h
          show (pl.coordinator.receive r).1.trackers[p]? = _
          rcases ht : pl.coordinator.trackers[r.partition]? with _ | t
          · rw [Coordinator.receive_of_untracked ht, if_neg hp]
          · rw [Coordinator.receive_of_tracked ht]
      | resolve r outcome =>
          have hp : r.partition ≠ p := fun hp => by simp [PipelineStep.call?, hp] at h
          exact getElem?_resolve_of_ne hp outcome
      | revoke q =>
          have hp : q ≠ p := fun hp => by simp [PipelineStep.call?, hp] at h
          exact (pl.getElem?_revoke q p).trans (if_neg hp)
      | revokeAll => cases h
      | engine a => rfl
  | beginClose => cases h
  | close => cases h

/-- The partition's place tells the answer to a notification. -/
theorem answerTo_resolve (pl : Pipeline) (r : Record) (outcome : Outcome) :
    pl.answerTo (.act (.resolve r outcome)) =
      (PartitionCall.ended ⟨r.offset, outcome⟩).answer r.partition
        pl.coordinator.trackers[r.partition]? := by
  rw [answerTo]
  rcases ht : pl.coordinator.trackers[r.partition]? with _ | t
  · rw [(resolve_of_untracked ht outcome).1]
    rfl
  · rw [PartitionCall.answer]
    rcases hnotify : (t.notify ⟨r.offset, outcome⟩).1 with _ | advance
    · rw [(resolve_of_incomplete ht hnotify).1]
      rfl
    · rw [(resolve_of_complete ht hnotify).1]
      rfl

/-- After a notification the partition's place holds what it was told. -/
theorem getElem?_resolve_self (pl : Pipeline) (r : Record) (outcome : Outcome) :
    (pl.resolve r outcome).2.coordinator.trackers[r.partition]? =
      pl.coordinator.trackers[r.partition]?.map fun t => (t.notify ⟨r.offset, outcome⟩).2 := by
  rw [coordinator_resolve]
  rcases ht : pl.coordinator.trackers[r.partition]? with _ | t
  · rw [(Coordinator.resolve_of_untracked ht outcome).1, ht]
    rfl
  · rw [(Coordinator.resolve_of_tracked ht outcome).2, if_pos rfl]
    rfl

/-- A call that concerns a partition looks at its place only, and fills it anew. -/
theorem step_of_call?_eq_some (pl : Pipeline) {step : PipelineStep} {call : PartitionCall}
    (h : step.call? p = some call) :
    pl.answerTo step = call.answer p pl.coordinator.trackers[p]? ∧
      (pl.step step).coordinator.trackers[p]? =
        call.next pl.coordinator.config.shrinkThreshold pl.coordinator.trackers[p]? := by
  have hgone : ∀ q, pl.coordinator.revokeAll.1.trackers[q]? = none :=
    pl.coordinator.getElem?_revokeAll
  cases step with
  | act a =>
      cases a with
      | receive r =>
          obtain ⟨rfl, rfl⟩ : r.partition = p ∧ .received r.offset = call := by
            simpa [PipelineStep.call?] using h
          refine ⟨rfl, ?_⟩
          show (pl.coordinator.receive r).1.trackers[r.partition]? = _
          rcases ht : pl.coordinator.trackers[r.partition]? with _ | t
          · rw [Coordinator.receive_of_untracked ht, if_pos rfl]
            rfl
          · rw [Coordinator.receive_of_tracked ht, ht]
            rfl
      | resolve r outcome =>
          obtain ⟨rfl, rfl⟩ : r.partition = p ∧ .ended ⟨r.offset, outcome⟩ = call := by
            simpa [PipelineStep.call?] using h
          exact ⟨pl.answerTo_resolve r outcome, pl.getElem?_resolve_self r outcome⟩
      | revoke q =>
          obtain ⟨rfl, rfl⟩ : q = p ∧ .revoked = call := by simpa [PipelineStep.call?] using h
          exact ⟨congrArg PartitionAnswer.revoked (pl.revoke_fst q),
            (pl.getElem?_revoke q q).trans (if_pos rfl)⟩
      | revokeAll =>
          obtain rfl := Option.some.inj h
          exact ⟨rfl, hgone p⟩
      | engine a => cases h
  | beginClose =>
      obtain rfl := Option.some.inj h
      exact ⟨rfl, hgone p⟩
  | close =>
      obtain rfl := Option.some.inj h
      exact ⟨rfl, hgone p⟩

/-- **A partition's place is all that counts**: the observations of `p` follow from its place in the
table, the shrink threshold and the calls that concern it. -/
theorem observations_eq (pl : Pipeline) (p : Partition) (steps : List PipelineStep) :
    pl.observations p steps =
      PartitionCall.observations p pl.coordinator.config.shrinkThreshold
        pl.coordinator.trackers[p]? (PipelineStep.calls p steps) := by
  induction steps generalizing pl with
  | nil => rfl
  | cons step rest ih =>
      rw [observations, ih, config_step]
      rcases hcall : step.call? p with _ | call
      · have hcalls : PipelineStep.calls p (step :: rest) = PipelineStep.calls p rest :=
          List.filterMap_cons_none hcall
        rw [hcalls, pl.getElem?_step_of_call?_eq_none hcall]
        rfl
      · have hcalls : PipelineStep.calls p (step :: rest) = call :: PipelineStep.calls p rest :=
          List.filterMap_cons_some hcall
        obtain ⟨hanswer, hplace⟩ := pl.step_of_call?_eq_some hcall
        rw [hcalls, PartitionCall.observations, hanswer, Coordinator.snapshot?, hplace]
        rfl

end Pipeline

/-! ### Places that hold the same set -/

namespace Tracker

/-- The trackers `t` and `t'` represent the same set, in whatever blocks. -/
def IsLike (t t' : Tracker) : Prop :=
  ∃ s : ResolvedSet, t.Represents s ∧ t'.Represents s

/-- Trackers that hold the same answer a notification alike and hold the same afterwards. -/
theorem IsLike.notify {t t' : Tracker} (h : t.IsLike t') (n : Notification) :
    (t.notify n).1 = (t'.notify n).1 ∧ (t.notify n).2.IsLike (t'.notify n).2 := by
  obtain ⟨s, ht, ht'⟩ := h
  obtain ⟨hanswer, hleft⟩ := ht.notify n
  obtain ⟨hanswer', hleft'⟩ := ht'.notify n
  exact ⟨hanswer.trans hanswer'.symm, _, hleft, hleft'⟩

/-- New trackers hold the same, whatever their thresholds are. -/
theorem isLike_start (first : Offset) (threshold threshold' : Nat) :
    (start first threshold).IsLike (start first threshold') :=
  ⟨.start first, represents_start first threshold, represents_start first threshold'⟩

/-- Trackers that hold the same show the same, but for the number of blocks. -/
theorem IsLike.snapshot {t t' : Tracker} (h : t.IsLike t') :
    t.snapshot.withoutCapacity = t'.snapshot.withoutCapacity := by
  obtain ⟨s, ht, ht'⟩ := h
  rw [ht.snapshot_eq, ht'.snapshot_eq]
  rfl

/-- Places whose trackers are `IsLike` show the same snapshot, up to its capacity. -/
theorem snapshots_isLike {place place' : Option Tracker} (h : Option.Rel IsLike place place') :
    (place.map snapshot).map Snapshot.withoutCapacity =
      (place'.map snapshot).map Snapshot.withoutCapacity := by
  cases h with
  | none => rfl
  | some hlike => exact congrArg some hlike.snapshot

end Tracker

namespace PartitionCall

variable {place place' : Option Tracker}

/-- Places that hold the same give the same answer. -/
theorem answer_eq (h : Option.Rel Tracker.IsLike place place') (p : Partition)
    (call : PartitionCall) : call.answer p place = call.answer p place' := by
  cases h with
  | none => rfl
  | some hlike =>
      cases call with
      | ended n => rw [answer, answer, (hlike.notify n).1]
      | received o => rfl
      | revoked => rfl
      | revokedAll => rfl
      | closed => rfl

/-- Places that hold the same do so after every call, whatever the thresholds are. -/
theorem next_isLike (h : Option.Rel Tracker.IsLike place place') (threshold threshold' : Nat)
    (call : PartitionCall) :
    Option.Rel Tracker.IsLike (call.next threshold place) (call.next threshold' place') := by
  cases call with
  | received o =>
      cases h with
      | none => exact .some (Tracker.isLike_start o threshold threshold')
      | some hlike => exact .some hlike
  | ended n =>
      cases h with
      | none => exact .none
      | some hlike => exact .some (hlike.notify n).2
  | revoked => exact .none
  | revokedAll => exact .none
  | closed => exact .none

/-- Places that hold the same cannot be told apart, but for the number of blocks. -/
theorem observations_isLike (h : Option.Rel Tracker.IsLike place place') (p : Partition)
    (threshold threshold' : Nat) (calls : List PartitionCall) :
    (observations p threshold place calls).map Observation.withoutCapacity =
      (observations p threshold' place' calls).map Observation.withoutCapacity := by
  induction calls generalizing place place' with
  | nil => rfl
  | cons call rest ih =>
      have hnext := next_isLike h threshold threshold' call
      rw [observations, observations, List.map_cons, List.map_cons, ih hnext,
        Observation.withoutCapacity, Observation.withoutCapacity, answer_eq h p call,
        Tracker.snapshots_isLike hnext]

/-- There is one entry of `observations` for each call. -/
theorem length_observations (p : Partition) (threshold : Nat) (place : Option Tracker)
    (calls : List PartitionCall) :
    (observations p threshold place calls).length = calls.length := by
  induction calls generalizing place with
  | nil => rfl
  | cons call rest ih => rw [observations, List.length_cons, List.length_cons, ih]

end PartitionCall

namespace Pipeline

/-- A pipeline starts with the settings that it is given. -/
theorem config_start {config : Config} {setup : Setup} {broker : Broker} {pl : Pipeline}
    (h : start config setup broker = .ok pl) : pl.coordinator.config = config := by
  unfold start Coordinator.start at h
  rcases hvalid : config.validate with error | _
  · rw [hvalid] at h
    cases h
  · rw [hvalid] at h
    obtain rfl := Except.ok.inj h
    rfl

/-- **Decisions are kept apart.** Let two pipelines be started with any settings, engines and
brokers, and let their `steps` hold the same calls that concern `p`, whatever else they hold. Then
`observations p`, the answer to each call and the snapshot behind it, are the same in both up to the
number of blocks (`withoutCapacity`), and altogether if the thresholds are. A step with `step.call?
p = none` leaves the snapshot of `p` as it is. -/
theorem decisions_are_separate (p : Partition) {config config' : Config} {setup setup' : Setup}
    {broker broker' : Broker} {pl pl' : Pipeline} (hstart : start config setup broker = .ok pl)
    (hstart' : start config' setup' broker' = .ok pl') {steps steps' : List PipelineStep}
    (hcalls : PipelineStep.calls p steps = PipelineStep.calls p steps') :
    (pl.observations p steps).map Observation.withoutCapacity =
        (pl'.observations p steps').map Observation.withoutCapacity ∧
      (config.shrinkThreshold = config'.shrinkThreshold →
        pl.observations p steps = pl'.observations p steps') ∧
      (pl.observations p steps).length = (PipelineStep.calls p steps).length ∧
      ∀ (now : Pipeline) (step : PipelineStep), step.call? p = none →
        (now.step step).coordinator.snapshot? p = now.coordinator.snapshot? p := by
  have hnone : pl.coordinator.trackers[p]? = none := (tells_start hstart p).untracked rfl
  have hnone' : pl'.coordinator.trackers[p]? = none := (tells_start hstart' p).untracked rfl
  rw [observations_eq, observations_eq, hcalls, hnone, hnone', config_start hstart,
    config_start hstart']
  refine ⟨PartitionCall.observations_isLike .none p _ _ _, fun hthreshold => ?_,
    PartitionCall.length_observations p _ _ _, fun now step hcall => ?_⟩
  · rw [hthreshold]
  · rw [Coordinator.snapshot?, now.getElem?_step_of_call?_eq_none hcall]
    rfl

/-- On the side the client crashes, another partition stands still, commits go past the coordinator,
and the engine is shut down early; a record has other bytes, and closing has not ended. The
partition is answered as on the calm side, under another threshold as well. -/
theorem decisions_are_separate_under_disturbance :
    let p : Partition := ⟨"orders", 0⟩
    let q : Partition := ⟨"orders", 1⟩
    let ended : Partition → Nat → Outcome → PipelineStep := fun p n outcome =>
      .act (.resolve ⟨p, .clamp n, []⟩ outcome)
    let steps : List PipelineStep :=
      [.act (.receive ⟨p, .clamp 3, []⟩), ended p 4 .discarded, ended p 3 .delivered,
        .act (.revoke p), ended p 5 .delivered, .close]
    let steps' : List PipelineStep :=
      [.act (.engine (.submit p (.clamp 9) 1)), .act (.receive ⟨q, .clamp 7, []⟩),
        .act (.receive ⟨p, .clamp 3, [1, 2]⟩), ended p 4 .discarded, .act (.engine (.move .take)),
        .act (.engine .shutdown), ended q 8 .delivered, ended p 3 .delivered,
        .act (.engine (.move (.work 0))), .act (.revoke p), .act (.revoke q), ended p 5 .delivered,
        .beginClose]
    ∃ pl pl' pl'', start .testing default default = .ok pl ∧
      start .standard ⟨[.clamp 9], none⟩ (.start 7 .quiet) = .ok pl' ∧
      start .testing ⟨[.clamp 9], none⟩ (.start 7 .quiet) = .ok pl'' ∧
      PipelineStep.calls p steps = [.received (.clamp 3), .ended ⟨.clamp 4, .discarded⟩,
        .ended ⟨.clamp 3, .delivered⟩, .revoked, .ended ⟨.clamp 5, .delivered⟩, .closed] ∧
      (pl.observations p steps).map Observation.withoutCapacity =
        (pl'.observations p steps').map Observation.withoutCapacity ∧
      pl.observations p steps = pl''.observations p steps' ∧
      ((pl.observations p steps).drop 3).map Observation.answer =
        [.revoked true, .settled (.error (.untracked p (.clamp 5))), .none] := by
  intro p q ended steps steps'
  have hstart : start .testing default default =
      .ok ⟨⟨.testing, ∅⟩, .start default default, #[]⟩ := rfl
  have hstart' : start .standard ⟨[.clamp 9], none⟩ (.start 7 .quiet) =
      .ok ⟨⟨.standard, ∅⟩, .start ⟨[.clamp 9], none⟩ (.start 7 .quiet), #[]⟩ := rfl
  have hstart'' : start .testing ⟨[.clamp 9], none⟩ (.start 7 .quiet) =
      .ok ⟨⟨.testing, ∅⟩, .start ⟨[.clamp 9], none⟩ (.start 7 .quiet), #[]⟩ := rfl
  have hcalls : PipelineStep.calls p steps = PipelineStep.calls p steps' := by decide +kernel
  obtain ⟨hsame, -⟩ := decisions_are_separate p hstart hstart' hcalls
  obtain ⟨-, hequal, -⟩ := decisions_are_separate p hstart hstart'' hcalls
  exact ⟨_, _, _, hstart, hstart', hstart'', by decide +kernel, hsame, hequal rfl,
    by decide +kernel⟩

end Pipeline

end OffsetCommit
