import OffsetCommit.Proofs.Coordinator
import OffsetCommit.Proofs.Engine.History
import OffsetCommit.Proofs.Pipeline.Chronicle

/-!
# Runs of the pipeline

A run is any sequence of coordinator calls, mixed with anything that can happen to the engine. For
each partition it has a chronicle (`Pipeline.chronicle`). The chronicle is legal, and the
coordinator's tracker holds what the current assignment of the chronicle says (`Tells`).

* `resolve_of_untracked`, `resolve_of_incomplete`, `resolve_of_complete`: what a notification
  comes to.
* `Tells.act`, `Tells.run`: a chronicle stays true along every run.
-/

namespace OffsetCommit

/-- Something that happens to a pipeline. -/
inductive PipelineAction where
  /-- A record is read. -/
  | receive (record : Record)
  /-- The dispatch of a record ends. -/
  | resolve (record : Record) (outcome : Outcome)
  /-- A partition is given up. -/
  | revoke (partition : Partition)
  /-- All partitions are given up. -/
  | revokeAll
  /-- Something happens to the engine, and the coordinator has no part in it. -/
  | engine (action : EngineAction)

namespace PipelineAction

/-- Whether the action asks the engine for a commit of `p` without the coordinator, by `.submit` or
`.call`. -/
def bypasses (p : Partition) : PipelineAction → Bool
  | .engine (.submit q _ _) => q = p
  | .engine (.call q _) => q = p
  | _ => false

end PipelineAction

namespace Pipeline

/-- The pipeline after an action. -/
def act (pl : Pipeline) : PipelineAction → Pipeline
  | .receive r => pl.receive r
  | .resolve r outcome => (pl.resolve r outcome).2
  | .revoke p => (pl.revoke p).2
  | .revokeAll => pl.revokeAll.2
  | .engine a => pl.onEngine (·.act a)

/-- The pipeline after several actions, one after the other. -/
def run (pl : Pipeline) (actions : List PipelineAction) : Pipeline :=
  actions.foldl act pl

/-- The run of no actions. -/
@[simp] theorem run_nil (pl : Pipeline) : pl.run [] = pl := rfl

/-- A run takes its first action first. -/
@[simp] theorem run_cons (pl : Pipeline) (a : PipelineAction) (rest : List PipelineAction) :
    pl.run (a :: rest) = (pl.act a).run rest := rfl

/-- A run may be taken in two parts. -/
theorem run_append (pl : Pipeline) (first second : List PipelineAction) :
    pl.run (first ++ second) = (pl.run first).run second :=
  List.foldl_append

/-- A run of engine actions is a run on the engine. -/
theorem run_map_engine (pl : Pipeline) (actions : List EngineAction) :
    pl.run (actions.map .engine) = pl.onEngine (·.run actions) := by
  induction actions generalizing pl with
  | nil => rfl
  | cons a rest ih => exact ih (pl.onEngine (·.act a))

/-! ### Chronicles -/

/-- What an action adds to the chronicle of `p`, going by the state that it finds. -/
def marks (pl : Pipeline) (p : Partition) : PipelineAction → List Mark
  | .receive r =>
      if r.partition = p ∧ pl.coordinator.trackers[p]?.isNone then [.seeded r.offset] else []
  | .resolve r outcome =>
      if r.partition = p then
        match (pl.resolve r outcome).1 with
        | .error _ => []
        | .ok none => [.notified ⟨r.offset, outcome⟩]
        | .ok (some receipt) => [.notified ⟨r.offset, outcome⟩, .issued receipt]
      else []
  | .revoke q =>
      if q = p then pl.coordinator.trackers[p]?.toList.map fun t => .dropped t.commitPoint else []
  | .revokeAll => pl.coordinator.trackers[p]?.toList.map fun t => .dropped t.commitPoint
  | .engine _ => []

/-- The chronicle of `p` along a run, `marks` of one action after the other. -/
def chronicle (pl : Pipeline) (p : Partition) : List PipelineAction → List Mark
  | [] => []
  | a :: rest => pl.marks p a ++ (pl.act a).chronicle p rest

open Chronicle

/-- The invariant between the chronicle `past` of `p` and the coordinator: it is `Legal`, and the
tracker of `p` represents `a.resolved` for the current assignment `a`. `Tells.run` keeps it. -/
structure Tells (pl : Pipeline) (p : Partition) (past : List Mark) : Prop where
  /-- The chronicle is legal. -/
  legal : Legal p past
  /-- Between assignments there is no tracker. -/
  untracked : current? past = none → pl.coordinator.trackers[p]? = none
  /-- Within an assignment there is one, and it holds what was notified. -/
  tracked : ∀ a, current? past = some a →
    ∃ t, pl.coordinator.trackers[p]? = some t ∧ t.Represents a.resolved

/-- What a chronicle tells depends on the partition's place alone. -/
theorem Tells.of_getElem?_eq {pl pl' : Pipeline} {p : Partition} {past : List Mark}
    (h : pl.Tells p past)
    (heq : pl'.coordinator.trackers[p]? = pl.coordinator.trackers[p]?) : pl'.Tells p past where
  legal := h.legal
  untracked hnone := heq.trans (h.untracked hnone)
  tracked a ha := by
    rw [heq]
    exact h.tracked a ha

/-- A chronicle agrees with the coordinator on whether the partition is tracked, and if so its
tracker represents the current assignment. -/
theorem Tells.current?_cases {pl : Pipeline} {p : Partition} {past : List Mark}
    (h : pl.Tells p past) :
    current? past = none ∧ pl.coordinator.trackers[p]? = none ∨
      ∃ a t, current? past = some a ∧ pl.coordinator.trackers[p]? = some t ∧
        t.Represents a.resolved := by
  rcases hcurrent : current? past with _ | a
  · exact .inl ⟨rfl, h.untracked hcurrent⟩
  · obtain ⟨t, ht, hrepresents⟩ := h.tracked a hcurrent
    exact .inr ⟨a, t, rfl, ht, hrepresents⟩

/-- A record that is read seeds its partition if it is not tracked. -/
theorem Tells.receive {pl : Pipeline} {p : Partition} {past : List Mark} (h : pl.Tells p past)
    (r : Record) : (pl.act (.receive r)).Tells p (past ++ pl.marks p (.receive r)) := by
  have hcoordinator : (pl.act (.receive r)).coordinator = (pl.coordinator.receive r).1 := rfl
  by_cases hp : r.partition = p
  · subst hp
    rcases h.current?_cases with ⟨hnone, huntracked⟩ | ⟨a, t, -, ht, -⟩
    · have hmarks : pl.marks r.partition (.receive r) = [.seeded r.offset] := by
        simp [marks, huntracked]
      have htrackers := Coordinator.receive_of_untracked huntracked r.partition
      rw [if_pos rfl] at htrackers
      rw [hmarks]
      refine ⟨h.legal.seeded hnone r.offset, fun hnone' => ?_, fun a ha => ?_⟩
      · rw [current?_concat] at hnone'
        cases hnone'
      · rw [current?_concat] at ha
        obtain rfl := Option.some.inj ha
        exact ⟨_, htrackers, Tracker.represents_start _ _⟩
    · have hmarks : pl.marks r.partition (.receive r) = [] := by
        simp [marks, ht]
      rw [hmarks, List.append_nil]
      refine h.of_getElem?_eq ?_
      rw [hcoordinator, Coordinator.receive_of_tracked ht]
  · have hmarks : pl.marks p (.receive r) = [] := by
      simp [marks, hp]
    rw [hmarks, List.append_nil]
    refine h.of_getElem?_eq ?_
    rw [hcoordinator]
    rcases hr : pl.coordinator.trackers[r.partition]? with _ | t
    · rw [Coordinator.receive_of_untracked hr, if_neg hp]
    · rw [Coordinator.receive_of_tracked hr]

/-! ### Notifications and commits -/

/-- A notification about a partition that is not tracked is refused, and nothing changes. -/
theorem resolve_of_untracked {pl : Pipeline} {r : Record}
    (h : pl.coordinator.trackers[r.partition]? = none) (outcome : Outcome) :
    (pl.resolve r outcome).1 = .error (.untracked r.partition r.offset) ∧
      (pl.resolve r outcome).2.coordinator = pl.coordinator ∧
      (pl.resolve r outcome).2.engine = pl.engine := by
  obtain ⟨hcoordinator, hanswer⟩ := Coordinator.resolve_of_untracked h outcome
  unfold resolve
  simp only [hanswer]
  exact ⟨trivial, hcoordinator, rfl⟩

/-- A notification that completes no run changes only the tracker of its partition. -/
theorem resolve_of_incomplete {pl : Pipeline} {r : Record} {t : Tracker}
    (h : pl.coordinator.trackers[r.partition]? = some t) {outcome : Outcome}
    (hnone : (t.notify ⟨r.offset, outcome⟩).1 = none) :
    (pl.resolve r outcome).1 = .ok none ∧ (pl.resolve r outcome).2.engine = pl.engine ∧
      ∀ q, (pl.resolve r outcome).2.coordinator.trackers[q]? =
        if r.partition = q then some (t.notify ⟨r.offset, outcome⟩).2
        else pl.coordinator.trackers[q]? := by
  obtain ⟨hanswer, htrackers⟩ := Coordinator.resolve_of_tracked h outcome
  rw [hnone] at hanswer
  unfold resolve
  simp only [hanswer]
  exact ⟨trivial, rfl, htrackers⟩

/-- A notification that completes a run also issues the commit of the run. -/
theorem resolve_of_complete {pl : Pipeline} {r : Record} {t : Tracker}
    (h : pl.coordinator.trackers[r.partition]? = some t) {outcome : Outcome} {advance : Advance}
    (hsome : (t.notify ⟨r.offset, outcome⟩).1 = some advance) :
    (pl.resolve r outcome).1 = .ok (some ⟨pl.engine.tickets.size, r.partition, advance⟩) ∧
      (pl.resolve r outcome).2.engine =
        pl.engine.submit r.partition advance.offset advance.count ∧
      ∀ q, (pl.resolve r outcome).2.coordinator.trackers[q]? =
        if r.partition = q then some (t.notify ⟨r.offset, outcome⟩).2
        else pl.coordinator.trackers[q]? := by
  obtain ⟨hanswer, htrackers⟩ := Coordinator.resolve_of_tracked h outcome
  rw [hsome] at hanswer
  unfold resolve
  simp only [hanswer]
  exact ⟨rfl, rfl, htrackers⟩

/-- By a notification the engine is asked for at most one commit. -/
theorem engine_resolve_cases (pl : Pipeline) (r : Record) (outcome : Outcome) :
    (pl.resolve r outcome).2.engine = pl.engine ∨
      ∃ o count, (pl.resolve r outcome).2.engine = pl.engine.submit r.partition o count := by
  rcases ht : pl.coordinator.trackers[r.partition]? with _ | t
  · exact .inl (resolve_of_untracked ht outcome).2.2
  · rcases hnotify : (t.notify ⟨r.offset, outcome⟩).1 with _ | advance
    · exact .inl (resolve_of_incomplete ht hnotify).2.1
    · exact .inr ⟨_, _, (resolve_of_complete ht hnotify).2.1⟩

/-- A notification changes no tracker but that of its partition. -/
theorem getElem?_resolve_of_ne {pl : Pipeline} {r : Record} {p : Partition} (hp : r.partition ≠ p)
    (outcome : Outcome) :
    (pl.resolve r outcome).2.coordinator.trackers[p]? = pl.coordinator.trackers[p]? := by
  rcases ht : pl.coordinator.trackers[r.partition]? with _ | t
  · rw [(resolve_of_untracked ht outcome).2.1]
  · rcases hnotify : (t.notify ⟨r.offset, outcome⟩).1 with _ | advance
    · rw [(resolve_of_incomplete ht hnotify).2.2, if_neg hp]
    · rw [(resolve_of_complete ht hnotify).2.2, if_neg hp]

/-- A notification about a tracked partition is entered into its chronicle, with the commit that it
issues. -/
theorem Tells.resolve {pl : Pipeline} {p : Partition} {past : List Mark} (h : pl.Tells p past)
    (r : Record) (outcome : Outcome) :
    (pl.act (.resolve r outcome)).Tells p (past ++ pl.marks p (.resolve r outcome)) := by
  by_cases hp : r.partition = p
  · subst hp
    rcases h.current?_cases with ⟨-, huntracked⟩ | ⟨a, t, hcurrent, ht, hrepresents⟩
    · obtain ⟨hanswer, hcoordinator, -⟩ := resolve_of_untracked huntracked outcome
      have hmarks : pl.marks r.partition (.resolve r outcome) = [] := by
        simp only [marks, if_true, hanswer]
      rw [hmarks, List.append_nil]
      refine h.of_getElem?_eq ?_
      rw [act, hcoordinator]
    · obtain ⟨hanswers, hnext⟩ := hrepresents.notify ⟨r.offset, outcome⟩
      have hadd : current? (past ++ [.notified ⟨r.offset, outcome⟩]) =
          some (a.add ⟨r.offset, outcome⟩) := by
        rw [current?_concat, hcurrent]
        rfl
      rw [← resolved_add] at hnext
      rcases hnotify : (t.notify ⟨r.offset, outcome⟩).1 with _ | advance
      · obtain ⟨hanswer, -, htrackers⟩ := resolve_of_incomplete ht hnotify
        have hmarks : pl.marks r.partition (.resolve r outcome) =
            [.notified ⟨r.offset, outcome⟩] := by
          simp only [marks, if_true, hanswer]
        rw [hmarks]
        refine ⟨h.legal.notified hcurrent _ (hanswers.symm.trans hnotify), fun hnone => ?_,
          fun b hb => ?_⟩
        · rw [hadd] at hnone
          cases hnone
        · obtain rfl := Option.some.inj (hadd.symm.trans hb)
          exact ⟨_, (htrackers r.partition).trans (if_pos rfl), hnext⟩
      · obtain ⟨hanswer, -, htrackers⟩ := resolve_of_complete ht hnotify
        have hmarks : pl.marks r.partition (.resolve r outcome) =
            [.notified ⟨r.offset, outcome⟩] ++
              [.issued ⟨pl.engine.tickets.size, r.partition, advance⟩] := by
          simp only [marks, if_true, hanswer]
          rfl
        have hissued : current? (past ++ [.notified ⟨r.offset, outcome⟩] ++
            [.issued ⟨pl.engine.tickets.size, r.partition, advance⟩]) =
              some (a.add ⟨r.offset, outcome⟩) := by
          rw [current?_concat, hadd]
          rfl
        rw [hmarks, ← List.append_assoc]
        refine ⟨h.legal.issued hcurrent _ advance _ (hanswers.symm.trans hnotify), fun hnone => ?_,
          fun b hb => ?_⟩
        · rw [hissued] at hnone
          cases hnone
        · obtain rfl := Option.some.inj (hissued.symm.trans hb)
          exact ⟨_, (htrackers r.partition).trans (if_pos rfl), hnext⟩
  · have hmarks : pl.marks p (.resolve r outcome) = [] := by
      simp only [marks, if_neg hp]
    rw [hmarks, List.append_nil]
    exact h.of_getElem?_eq (getElem?_resolve_of_ne hp outcome)

/-! ### Giving partitions up -/

/-- A partition whose tracker goes is given up at its commit point. -/
theorem Tells.drop {pl pl' : Pipeline} {p : Partition} {past : List Mark} (h : pl.Tells p past)
    (hnone : pl'.coordinator.trackers[p]? = none) :
    pl'.Tells p (past ++
      pl.coordinator.trackers[p]?.toList.map fun t => .dropped t.commitPoint) := by
  rcases h.current?_cases with ⟨-, huntracked⟩ | ⟨a, t, hcurrent, ht, hrepresents⟩
  · rw [huntracked, Option.toList_none, List.map_nil, List.append_nil]
    exact h.of_getElem?_eq (hnone.trans huntracked.symm)
  · rw [ht, Option.toList_some, List.map_singleton, hrepresents.commitPoint_eq]
    refine ⟨h.legal.dropped hcurrent, fun _ => hnone, fun b hb => ?_⟩
    rw [current?_concat] at hb
    cases hb

/-- Revoking empties the place of the partition and no other. -/
theorem getElem?_revoke (pl : Pipeline) (p q : Partition) :
    (pl.revoke p).2.coordinator.trackers[q]? =
      if p = q then none else pl.coordinator.trackers[q]? := by
  unfold revoke
  rcases ht : pl.coordinator.trackers[p]? with _ | t
  · rw [Coordinator.revoke?_of_untracked ht]
    show pl.coordinator.trackers[q]? = _
    by_cases hpq : p = q
    · subst hpq
      rw [if_pos rfl, ht]
    · rw [if_neg hpq]
  · obtain ⟨c, events, heq, htrackers⟩ := Coordinator.revoke?_of_tracked ht
    rw [heq]
    exact htrackers q

/-- Giving up a partition tells whether it was tracked. -/
theorem revoke_fst (pl : Pipeline) (p : Partition) :
    (pl.revoke p).1 = pl.coordinator.trackers[p]?.isSome := by
  rw [revoke]
  rcases ht : pl.coordinator.trackers[p]? with _ | t
  · rw [Coordinator.revoke?_of_untracked ht]
    rfl
  · obtain ⟨c, events, heq, -⟩ := Coordinator.revoke?_of_tracked ht
    rw [heq]
    rfl

/-- **A chronicle stays true**: after any action the chronicle of a partition with the new marks
`pl.marks p a` tells what the coordinator has for it. -/
theorem Tells.act {pl : Pipeline} {p : Partition} {past : List Mark} (h : pl.Tells p past)
    (a : PipelineAction) : (pl.act a).Tells p (past ++ pl.marks p a) := by
  cases a with
  | receive r => exact h.receive r
  | resolve r outcome => exact h.resolve r outcome
  | revoke q =>
      by_cases hq : q = p
      · subst hq
        rw [marks, if_pos rfl]
        exact h.drop ((pl.getElem?_revoke q q).trans (if_pos rfl))
      · rw [marks, if_neg hq, List.append_nil]
        exact h.of_getElem?_eq ((pl.getElem?_revoke q p).trans (if_neg hq))
  | revokeAll => exact h.drop (pl.coordinator.getElem?_revokeAll p)
  | engine a =>
      rw [marks, List.append_nil]
      exact h.of_getElem?_eq rfl

/-- Along a run `pl.chronicle p actions` is added to the chronicle. -/
theorem Tells.run {pl : Pipeline} {p : Partition} {past : List Mark} (h : pl.Tells p past)
    (actions : List PipelineAction) :
    (pl.run actions).Tells p (past ++ pl.chronicle p actions) := by
  induction actions generalizing pl past with
  | nil =>
      rw [chronicle, List.append_nil]
      exact h
  | cons a rest ih =>
      rw [chronicle, ← List.append_assoc]
      exact ih (h.act a)

/-- Nothing is told of a pipeline that has just been started. -/
theorem tells_start {config : Config} {setup : Setup} {broker : Broker} {pl : Pipeline}
    (h : start config setup broker = .ok pl) (p : Partition) : pl.Tells p [] := by
  have hnone : pl.coordinator.trackers[p]? = none := by
    unfold start Coordinator.start at h
    rcases hvalid : config.validate with error | _
    · rw [hvalid] at h
      cases h
    · rw [hvalid] at h
      obtain rfl := Except.ok.inj h
      exact Std.ExtTreeMap.getElem?_empty
  exact ⟨.start, fun _ => hnone, fun a ha => by cases ha⟩

/-- A pipeline starts with an engine that has just been started. -/
theorem engine_start {config : Config} {setup : Setup} {broker : Broker} {pl : Pipeline}
    (h : start config setup broker = .ok pl) : pl.engine = .start setup broker := by
  unfold start at h
  split at h
  · obtain rfl := Except.ok.inj h
    rfl
  · cases h

end Pipeline

end OffsetCommit
