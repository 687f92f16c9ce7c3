import Mathlib.Data.List.DropRight
import Mathlib.Data.Set.Card
import OffsetCommit.Proofs.PartitionOrder
import OffsetCommit.Proofs.Pipeline.Receipts
import OffsetCommit.Proofs.Pipeline.Separation

/-!
# Which partitions are assigned

A partition is assigned when the last call that had a say in it was the reading of one of its
records, and not one that gave it up. This can be told from the calls alone
(`PartitionCall.Assigns`). The coordinator's table says the same at all times.

* `AgreesWith.next`, `place_agreesWith`: a partition's place is filled exactly while the partition
  is assigned, and its commit point has not fallen behind the record that the assignment began
  with, `seed?`.
* `agreesWith_stepAll`: so it is along every sequence of steps.
* `revocations_sent`, `mem_givenUp_iff`: the engine is told to close a lane exactly when its
  partition ceases to be assigned.
* `assignment_follows_calls`: the listing, the snapshots and the answers that are taken from the
  table.
-/

namespace OffsetCommit

/-! ### Assignment by the calls -/

namespace PartitionCall

/-- Whether a call has a say in the assignment of the partition: all have but the end of a record. -/
def isAssignment : PartitionCall → Bool
  | .ended _ => false
  | _ => true

/-- Whether a call gives the partition up: `.revoked`, `.revokedAll` or `.closed`. -/
def givesUp : PartitionCall → Bool
  | .received _ => false
  | .ended _ => false
  | _ => true

/-- The offset of the record that was read, if the call is about one. -/
def received? : PartitionCall → Option Offset
  | .received o => some o
  | _ => none

/-- Whether the last of the `calls` with a say in the assignment was `.received o`. -/
def Assigns (calls : List PartitionCall) : Prop :=
  ∃ o, (calls.filter isAssignment).getLast? = some (.received o)

/-- The offset of the first `.received o` behind the last of the `calls` that `givesUp`. -/
def seed? (calls : List PartitionCall) : Option Offset :=
  (calls.rtakeWhile fun call => !call.givesUp).findSome? received?

/-! ### One more call -/

variable {calls : List PartitionCall}

/-- Without a call no partition is assigned. -/
theorem not_assigns_nil : ¬ Assigns [] := fun ⟨_, h⟩ => by cases h

/-- Reading a record assigns its partition. -/
theorem assigns_received (o : Offset) : Assigns (calls ++ [.received o]) := by
  refine ⟨o, ?_⟩
  rw [List.filter_append]
  exact List.getLast?_concat

/-- A notification leaves whether the partition is assigned. -/
theorem assigns_ended (n : Notification) : Assigns (calls ++ [.ended n]) ↔ Assigns calls := by
  rw [Assigns, List.filter_append, show [PartitionCall.ended n].filter isAssignment = [] from rfl,
    List.append_nil]
  rfl

/-- A call that gives the partition up ends the assignment. -/
theorem not_assigns_of_givesUp {call : PartitionCall} (h : call.givesUp = true) :
    ¬ Assigns (calls ++ [call]) := by
  rintro ⟨o, ho⟩
  have hassignment : call.isAssignment = true := by
    cases call with
    | ended n => cases h
    | _ => rfl
  rw [List.filter_append, List.filter_cons_of_pos hassignment, List.filter_nil,
    List.getLast?_concat] at ho
  obtain rfl := Option.some.inj ho
  cases h

/-- The first record of an assignment is its seed, and later ones leave it. -/
theorem seed?_received (o : Offset) :
    seed? (calls ++ [.received o]) = (seed? calls).or (some o) := by
  rw [seed?, List.rtakeWhile_concat_pos _ _ _ rfl, List.findSome?_append]
  rfl

/-- A notification leaves the seed. -/
theorem seed?_ended (n : Notification) : seed? (calls ++ [.ended n]) = seed? calls := by
  rw [seed?, List.rtakeWhile_concat_pos _ _ _ rfl, List.findSome?_append]
  exact Option.or_none

/-- A call that gives the partition up leaves no seed. -/
theorem seed?_of_givesUp {call : PartitionCall} (h : call.givesUp = true) :
    seed? (calls ++ [call]) = none := by
  rw [seed?, List.rtakeWhile_concat_neg _ _ _ (by rw [h]; exact Bool.noConfusion)]
  rfl

/-! ### The place after some calls -/

/-- What the place of a partition holds after some calls, from an empty one on. -/
def place (threshold : Nat) (calls : List PartitionCall) : Option Tracker :=
  calls.foldl (fun place call => call.next threshold place) none

/-- The place after one more call is what `next` makes of it. -/
theorem place_concat (threshold : Nat) (calls : List PartitionCall) (call : PartitionCall) :
    place threshold (calls ++ [call]) = call.next threshold (place threshold calls) := by
  rw [place, List.foldl_append]
  rfl

/-- A call that gives the partition up empties its place. -/
theorem next_of_givesUp {call : PartitionCall} (h : call.givesUp = true) (threshold : Nat)
    (place : Option Tracker) : call.next threshold place = none := by
  cases call with
  | received o => cases h
  | ended n => cases h
  | revoked => rfl
  | revokedAll => rfl
  | closed => rfl

/-- The place agrees with the `calls`: it is empty while they leave the partition unassigned, and
holds a tracker while they assign it, whose commit point is not below `seed? calls`.
`AgreesWith.next` keeps this. -/
def AgreesWith (place : Option Tracker) (calls : List PartitionCall) : Prop :=
  place = none ∧ ¬ Assigns calls ∧ seed? calls = none ∨
    ∃ t s o, place = some t ∧ t.Represents s ∧ Assigns calls ∧ seed? calls = some o ∧
      o ≤ s.commitPoint

/-- Every call preserves `AgreesWith`, with the call appended. -/
theorem AgreesWith.next {threshold : Nat} {place : Option Tracker} (h : AgreesWith place calls)
    (call : PartitionCall) : AgreesWith (call.next threshold place) (calls ++ [call]) := by
  have hdrop (hup : call.givesUp = true) : AgreesWith (call.next threshold place) (calls ++ [call]) :=
    .inl ⟨next_of_givesUp hup threshold place, not_assigns_of_givesUp hup, seed?_of_givesUp hup⟩
  cases call with
  | received o =>
      right
      rcases h with ⟨rfl, -, hseed⟩ | ⟨t, s, first, rfl, hrepresents, -, hseed, hle⟩
      · refine ⟨_, _, o, rfl, Tracker.represents_start o threshold, assigns_received o, ?_, le_rfl⟩
        rw [seed?_received, hseed, Option.none_or]
      · refine ⟨t, s, first, rfl, hrepresents, assigns_received o, ?_, hle⟩
        rw [seed?_received, hseed, Option.some_or]
  | ended n =>
      rw [AgreesWith, assigns_ended, seed?_ended]
      rcases h with ⟨rfl, hnot, hseed⟩ | ⟨t, s, first, rfl, hrepresents, hassigns, hseed, hle⟩
      · exact .inl ⟨rfl, hnot, hseed⟩
      · exact .inr ⟨_, _, first, rfl, (hrepresents.notify n).2, hassigns, hseed,
          hle.trans (s.commitPoint_le_notify n)⟩
  | revoked => exact hdrop rfl
  | revokedAll => exact hdrop rfl
  | closed => exact hdrop rfl

/-- **The place of a partition agrees with the calls about it**: `AgreesWith.next` for each call. -/
theorem place_agreesWith (threshold : Nat) (calls : List PartitionCall) :
    AgreesWith (place threshold calls) calls := by
  induction calls using List.reverseRecOn with
  | nil => exact .inl ⟨rfl, not_assigns_nil, rfl⟩
  | append_singleton calls call ih =>
      rw [place_concat]
      exact ih.next call

/-- A place that agrees with the calls is filled just when they assign the partition (`Assigns`). -/
theorem AgreesWith.isSome_iff {place : Option Tracker} (h : AgreesWith place calls) :
    place.isSome = true ↔ Assigns calls := by
  rcases h with ⟨rfl, hnot, -⟩ | ⟨t, s, o, rfl, -, hassigns, -⟩
  · exact iff_of_false Bool.noConfusion hnot
  · exact iff_of_true rfl hassigns

end PartitionCall

namespace Pipeline

/-! ### Steps -/

/-- The pipeline after several steps, one after the other. -/
def stepAll (pl : Pipeline) (steps : List PipelineStep) : Pipeline :=
  steps.foldl step pl

/-- Whether `p` is assigned after some steps, going by the calls among them
(`PartitionCall.Assigns`). -/
def IsAssigned (p : Partition) (steps : List PipelineStep) : Prop :=
  PartitionCall.Assigns (PipelineStep.calls p steps)

/-- The offset of the first record of a partition that was read since it was last given up. -/
def seed? (p : Partition) (steps : List PipelineStep) : Option Offset :=
  PartitionCall.seed? (PipelineStep.calls p steps)

/-- The commands that the coordinator sends to its engine in a step; what others ask of the engine
is not counted. -/
def sent (pl : Pipeline) : PipelineStep → List EngineAction
  | .act (.engine _) => []
  | .act a => pl.commands a
  | .beginClose => pl.commands .revokeAll ++ [.shutdown]
  | .close => pl.commands .revokeAll ++ [.shutdown]

/-- The partitions `p` of the commands `.revoke p`, one for each. -/
def revocations (commands : List EngineAction) : List Partition :=
  commands.filterMap fun
    | .revoke p => some p
    | _ => none

/-- The place of a partition after some steps is what the calls about it make of the place before,
by `PartitionCall.next`. -/
theorem getElem?_stepAll (pl : Pipeline) (p : Partition) (steps : List PipelineStep) :
    (pl.stepAll steps).coordinator.trackers[p]? =
      (PipelineStep.calls p steps).foldl
        (fun place call => call.next pl.coordinator.config.shrinkThreshold place)
        pl.coordinator.trackers[p]? := by
  induction steps generalizing pl with
  | nil => rfl
  | cons step rest ih =>
      have hrest := ih (pl.step step)
      rw [config_step] at hrest
      refine hrest.trans ?_
      rcases hcall : step.call? p with _ | call
      · rw [pl.getElem?_step_of_call?_eq_none hcall, PipelineStep.calls, PipelineStep.calls,
          List.filterMap_cons_none hcall]
      · rw [(pl.step_of_call?_eq_some hcall).2, PipelineStep.calls, PipelineStep.calls,
          List.filterMap_cons_some hcall]
        rfl

/-- After any steps from the start the place agrees with the calls about the partition. -/
theorem agreesWith_stepAll {config : Config} {setup : Setup} {broker : Broker} {pl : Pipeline}
    (hstart : start config setup broker = .ok pl) (p : Partition) (steps : List PipelineStep) :
    PartitionCall.AgreesWith (pl.stepAll steps).coordinator.trackers[p]?
      (PipelineStep.calls p steps) := by
  have hnone : pl.coordinator.trackers[p]? = none := (tells_start hstart p).untracked rfl
  rw [getElem?_stepAll, hnone]
  exact PartitionCall.place_agreesWith _ _

/-! ### The table -/

/-- The list `tracked` is in the order of partitions. -/
theorem pairwise_precedes_tracked (c : Coordinator) : c.tracked.Pairwise Partition.Precedes :=
  Std.ExtTreeMap.ordered_keys.imp Partition.precedes_of_compare

/-- A notification is refused exactly when its partition is not tracked, and then with the error
`.untracked`. -/
theorem resolve_eq_error_iff (pl : Pipeline) (r : Record) (outcome : Outcome) (error : Error) :
    (pl.resolve r outcome).1 = .error error ↔
      pl.coordinator.trackers[r.partition]? = none ∧ error = .untracked r.partition r.offset := by
  rcases ht : pl.coordinator.trackers[r.partition]? with _ | t
  · rw [(resolve_of_untracked ht outcome).1]
    simp [eq_comm]
  · rcases hnotify : (t.notify ⟨r.offset, outcome⟩).1 with _ | advance
    · simp [(resolve_of_incomplete ht hnotify).1]
    · simp [(resolve_of_complete ht hnotify).1]

/-! ### What the engine is told -/

/-- The partitions that are given up in a step: the one that is revoked, if it is tracked, or all
tracked ones. -/
def givenUp (pl : Pipeline) : PipelineStep → List Partition
  | .act (.revoke p) => if pl.coordinator.trackers[p]?.isSome then [p] else []
  | .act .revokeAll => pl.coordinator.tracked
  | .beginClose => pl.coordinator.tracked
  | .close => pl.coordinator.tracked
  | _ => []

/-- There is a command for each partition that is given up, and no other: the revocations among
`pl.sent step` are `pl.givenUp step`. -/
theorem revocations_sent (pl : Pipeline) (step : PipelineStep) :
    revocations (pl.sent step) = pl.givenUp step := by
  have hall : revocations (pl.coordinator.tracked.map .revoke) = pl.coordinator.tracked := by
    rw [revocations, List.filterMap_map]
    exact List.filterMap_some
  have hclose : revocations (pl.coordinator.tracked.map .revoke ++ [.shutdown]) =
      pl.coordinator.tracked := by
    rw [revocations, List.filterMap_append]
    exact (List.append_nil _).trans hall
  cases step with
  | act a =>
      cases a with
      | receive r => rfl
      | resolve r outcome =>
          show revocations (pl.commands (.resolve r outcome)) = []
          rw [commands]
          split <;> rfl
      | revoke q =>
          show revocations (pl.commands (.revoke q)) = _
          rw [commands, givenUp]
          split <;> rfl
      | revokeAll => exact hall
      | engine a => rfl
  | beginClose => exact hclose
  | close => exact hclose

/-- No partition is given up twice in a step. -/
theorem nodup_givenUp (pl : Pipeline) (step : PipelineStep) : (pl.givenUp step).Nodup := by
  have hall := Coordinator.nodup_tracked pl.coordinator
  cases step with
  | act a =>
      cases a with
      | revoke q =>
          rw [givenUp]
          split
          · exact List.nodup_singleton q
          · exact List.nodup_nil
      | revokeAll => exact hall
      | receive r => exact List.nodup_nil
      | resolve r outcome => exact List.nodup_nil
      | engine a => exact List.nodup_nil
  | beginClose => exact hall
  | close => exact hall

/-- A partition is given up in a step that leaves no tracker where there was one. -/
theorem mem_givenUp_iff (pl : Pipeline) (p : Partition) (step : PipelineStep) :
    p ∈ pl.givenUp step ↔
      pl.coordinator.trackers[p]?.isSome = true ∧
        (pl.step step).coordinator.trackers[p]?.isSome ≠ true := by
  have hall (hgone : (pl.step step).coordinator.trackers[p]? = none) : p ∈ pl.coordinator.tracked ↔
      pl.coordinator.trackers[p]?.isSome = true ∧
        (pl.step step).coordinator.trackers[p]?.isSome ≠ true := by
    rw [Coordinator.mem_tracked_iff, hgone]
    exact (and_iff_left Bool.noConfusion).symm
  have hnothing (hkept : pl.coordinator.trackers[p]?.isSome = true →
      (pl.step step).coordinator.trackers[p]?.isSome = true) : p ∈ ([] : List Partition) ↔
      pl.coordinator.trackers[p]?.isSome = true ∧
        (pl.step step).coordinator.trackers[p]?.isSome ≠ true :=
    iff_of_false List.not_mem_nil fun hgiven => hgiven.2 (hkept hgiven.1)
  cases step with
  | act a =>
      cases a with
      | receive r =>
          refine hnothing fun hsome => ?_
          rcases hcall : PipelineStep.call? p (.act (.receive r)) with _ | call
          · rwa [pl.getElem?_step_of_call?_eq_none hcall]
          · obtain ⟨-, rfl⟩ : r.partition = p ∧ .received r.offset = call := by
              simpa [PipelineStep.call?] using hcall
            rw [(pl.step_of_call?_eq_some hcall).2]
            rfl
      | resolve r outcome =>
          refine hnothing fun hsome => ?_
          rw [step, act]
          by_cases hp : r.partition = p
          · subst hp
            rwa [getElem?_resolve_self, Option.isSome_map]
          · rwa [getElem?_resolve_of_ne hp]
      | revoke q =>
          rw [givenUp, step, act, getElem?_revoke]
          by_cases hq : q = p
          · subst hq
            rw [if_pos rfl]
            rcases pl.coordinator.trackers[q]? with _ | t
            · exact iff_of_false List.not_mem_nil fun hgiven => Bool.noConfusion hgiven.1
            · exact iff_of_true List.mem_cons_self ⟨rfl, Bool.noConfusion⟩
          · rw [if_neg hq, and_not_self_iff, iff_false]
            split
            · exact fun hmem => hq (List.mem_singleton.mp hmem).symm
            · exact List.not_mem_nil
      | revokeAll => exact hall (pl.coordinator.getElem?_revokeAll p)
      | engine a => exact hnothing id
  | beginClose => exact hall (pl.coordinator.getElem?_revokeAll p)
  | close => exact hall (pl.coordinator.getElem?_revokeAll p)

/-- In a step the engine gets the commands `pl.sent step`. Whatever else happens to it then, it does
by itself, unless the step is not the coordinator's. -/
theorem exists_engine_step (pl : Pipeline) (step : PipelineStep) :
    ∃ rest, (pl.step step).engine = (pl.engine.run (pl.sent step)).run rest ∧
      ∀ a ∈ rest, a.isInternal = true ∨ step = .act (.engine a) := by
  have hbegin : pl.beginClose.2.2.engine =
      pl.engine.run (pl.commands .revokeAll ++ [.shutdown]) := by
    rw [Engine.run_append, ← engine_act]
    rfl
  cases step with
  | act a =>
      cases a with
      | engine a => exact ⟨[a], rfl, fun b hb => .inr (by rw [List.mem_singleton.mp hb])⟩
      | receive r => exact ⟨[], rfl, fun b hb => by cases hb⟩
      | resolve r outcome =>
          exact ⟨[], pl.engine_act (.resolve r outcome), fun b hb => by cases hb⟩
      | revoke q => exact ⟨[], pl.engine_act (.revoke q), fun b hb => by cases hb⟩
      | revokeAll => exact ⟨[], pl.engine_act .revokeAll, fun b hb => by cases hb⟩
  | beginClose => exact ⟨[], hbegin, fun b hb => by cases hb⟩
  | close =>
      obtain ⟨rest, hinternal, hawait⟩ := Engine.runsTo_await
        (fun e => e.hasReturned pl.beginClose.1) pl.beginClose.2.2.engine
      refine ⟨rest, ?_, fun a ha => .inl (hinternal a ha)⟩
      rw [sent, ← hbegin]
      exact hawait

/-! ### The bookkeeping -/

/-- **Assignment follows the calls.** After any `steps`, mixed with anything that can happen to the
engine, the coordinator tells which partitions are assigned by the calls among them,
`IsAssigned p steps`:
* they are the `tracked` partitions, listed once each and in order;
* they have a snapshot, and its commit point is not below `seed? p steps`, the first record since they
  were last given up;
* a notification is refused exactly when its partition is not one of them, and always with
  `.untracked`;
* `revoke p` tells whether `p` was one of them, and `revokeAll` how many they were;
* by each `step` the engine is told to close the lanes of those that cease to be assigned, one command
  for each, and no other. -/
theorem assignment_follows_calls {config : Config} {setup : Setup} {broker : Broker} {pl : Pipeline}
    (hstart : start config setup broker = .ok pl) (steps : List PipelineStep) :
    let now := pl.stepAll steps
    (∀ p, p ∈ now.coordinator.tracked ↔ IsAssigned p steps) ∧
      now.coordinator.tracked.Nodup ∧
      now.coordinator.tracked.Pairwise Partition.Precedes ∧
      (∀ p, (now.coordinator.snapshot? p).isSome = true ↔ IsAssigned p steps) ∧
      (∀ p snapshot, now.coordinator.snapshot? p = some snapshot →
        ∃ first, seed? p steps = some first ∧ first ≤ snapshot.commitPoint) ∧
      (∀ r outcome error, (now.resolve r outcome).1 = .error error ↔
        ¬ IsAssigned r.partition steps ∧ error = .untracked r.partition r.offset) ∧
      (∀ p, (now.revoke p).1 = true ↔ IsAssigned p steps) ∧
      now.revokeAll.1 = Set.ncard {p | IsAssigned p steps} ∧
      ∀ step, (revocations (now.sent step)).Nodup ∧
        (∀ p, p ∈ revocations (now.sent step) ↔
          IsAssigned p steps ∧ ¬ IsAssigned p (steps ++ [step])) ∧
        ∃ rest, (now.step step).engine = (now.engine.run (now.sent step)).run rest ∧
          ∀ a ∈ rest, a.isInternal = true ∨ step = .act (.engine a) := by
  intro now
  -- a partition has a tracker just when the calls assign it; every part rests on this
  have hplace (p : Partition) (steps : List PipelineStep) :
      (pl.stepAll steps).coordinator.trackers[p]?.isSome = true ↔ IsAssigned p steps :=
    (agreesWith_stepAll hstart p steps).isSome_iff
  have htracked (p : Partition) : p ∈ now.coordinator.tracked ↔ IsAssigned p steps :=
    Coordinator.mem_tracked_iff.trans (hplace p steps)
  have hnodup := Coordinator.nodup_tracked now.coordinator
  refine ⟨htracked, hnodup, pairwise_precedes_tracked _, fun p => ?_, fun p snapshot hsnapshot => ?_,
    fun r outcome error => ?_, fun p => ?_, ?_, fun step => ⟨?_, fun p => ?_, ?_⟩⟩
  · rw [Coordinator.snapshot?, Option.isSome_map, hplace p steps]
  · obtain ⟨t, ht, rfl⟩ := Option.map_eq_some_iff.mp hsnapshot
    rcases agreesWith_stepAll hstart p steps with ⟨hnone, -⟩ | ⟨t', s, o, ht', hrepresents, -, ho, hle⟩
    · rw [hnone] at ht
      cases ht
    · obtain rfl := Option.some.inj (ht.symm.trans ht')
      exact ⟨o, ho, hle.trans_eq hrepresents.commitPoint_eq.symm⟩
  · rw [resolve_eq_error_iff, ← hplace r.partition steps, Bool.not_eq_true, Option.isSome_eq_false_iff,
      Option.isNone_iff_eq_none]
  · rw [revoke_fst, hplace p steps]
  · have hset : {p | IsAssigned p steps} = (now.coordinator.tracked.toFinset : Set Partition) := by
      ext p
      rw [Finset.mem_coe, List.mem_toFinset]
      exact (htracked p).symm
    rw [hset, Set.ncard_coe_finset, List.toFinset_card_of_nodup hnodup]
    rfl
  · rw [revocations_sent]
    exact now.nodup_givenUp step
  · have hnext : now.step step = pl.stepAll (steps ++ [step]) := by
      rw [stepAll, List.foldl_append]
      rfl
    rw [revocations_sent, mem_givenUp_iff, hnext, hplace p steps, Ne, hplace p (steps ++ [step])]
  · exact now.exists_engine_step step

/-- Three partitions are read, of two topics. The second one is given up and read again from
further on; in between a notification about it is refused. Then the first is given up. -/
theorem assignment_follows_calls_through_reassignment :
    let first : Partition := ⟨"orders", 0⟩
    let second : Partition := ⟨"orders", 1⟩
    let third : Partition := ⟨"órdenes", 0⟩
    let received : Partition → Nat → PipelineStep := fun p n => .act (.receive ⟨p, .clamp n, []⟩)
    let ended : Partition → Nat → PipelineStep := fun p n =>
      .act (.resolve ⟨p, .clamp n, []⟩ .delivered)
    let steps : List PipelineStep :=
      [received third 5, received second 7, received first 3, ended first 3, .act (.revoke second),
        ended second 8, .act (.engine (.move .take)), received second 9, received second 10,
        ended second 9]
    ∃ pl, start .testing default default = .ok pl ∧
      (pl.stepAll steps).coordinator.tracked = [first, second, third] ∧
      (pl.stepAll steps).revokeAll.1 = 3 ∧ Set.ncard {p | IsAssigned p steps} = 3 ∧
      IsAssigned second steps ∧ seed? second steps = some (.clamp 9) ∧
      ((pl.stepAll steps).coordinator.snapshot? second).map Snapshot.commitPoint =
        some (.clamp 10) ∧
      revocations ((pl.stepAll steps).sent (.act (.revoke first))) = [first] ∧
      ¬ IsAssigned first (steps ++ [.act (.revoke first)]) := by
  intro first second third received ended steps
  have hstart : start .testing default default =
      .ok ⟨⟨.testing, ∅⟩, .start default default, #[]⟩ := rfl
  obtain ⟨htracked, -, -, -, -, -, -, hcount, hsteps⟩ := assignment_follows_calls hstart steps
  obtain ⟨-, hleaves, -⟩ := hsteps (.act (.revoke first))
  have hlisted : (stepAll ⟨⟨.testing, ∅⟩, .start default default, #[]⟩ steps).coordinator.tracked =
      [first, second, third] := by decide +kernel
  have hthree : (stepAll ⟨⟨.testing, ∅⟩, .start default default, #[]⟩ steps).revokeAll.1 = 3 := by
    decide +kernel
  refine ⟨_, hstart, hlisted, hthree, hcount.symm.trans hthree, ?_, by decide +kernel,
    by decide +kernel, by decide +kernel, ?_⟩
  · rw [← htracked, hlisted]
    exact List.mem_cons_of_mem _ List.mem_cons_self
  · exact ((hleaves first).mp (by decide +kernel)).2

end Pipeline

end OffsetCommit
