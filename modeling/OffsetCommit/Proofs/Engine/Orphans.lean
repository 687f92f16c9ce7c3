import OffsetCommit.Proofs.Engine.Custody
import OffsetCommit.Proofs.Engine.Draining
import OffsetCommit.Proofs.Lanes.Holders

/-!
# No lane is orphaned

The loop ends when the lanes have ended that it finds in the hands of partitions, and it knows of no
others. That is enough, and `no_lane_is_orphaned` says why.

* `Kept.allHeld`: while the loop serves, a lane that has not ended has just one holder and is in
  the chain of a lane that a partition holds; closed lanes are handed nothing and end; and a lane
  whose place is given to another has ended before (`AllHeld`).
* `wellFounded_progress`: lanes that are left to themselves come to a halt.
* `Kept.hasEnded_of_drained`: whoever waits for the lanes in the hands of partitions waits for all
  that were ever opened.
-/

namespace OffsetCommit

namespace Lanes

/-! ### Lanes go on to their end -/

/-- **Lanes that are left to themselves come to a halt**: `Lanes.Progress` is well-founded, as each
step lessens the work that is left. -/
theorem wellFounded_progress : WellFounded fun next now : Lanes => now.Progress next :=
  Subrelation.wf Progress.work_lt (measure work).wf

/-! ### Waiting for the lanes in the hands of partitions -/

/-- No lane is waited for twice. -/
theorem Kept.nodup_drain {ls : Lanes} (h : ls.Kept) : ls.drain.1.Nodup := by
  refine List.nodup_append.mpr ⟨Partition.nodup_values ?_, Partition.nodup_values ?_, ?_⟩
  · intro p q i hp hq
    exact Holder.retired.inj (h.holder_unique (.retired p) (.retired q) hp hq)
  · intro p q i hp hq
    exact Holder.opened.inj (h.holder_unique (.opened p) (.opened q) hp hq)
  · rintro i hi _ hj rfl
    obtain ⟨p, hp⟩ := Partition.mem_values_iff.mp hi
    obtain ⟨q, hq⟩ := Partition.mem_values_iff.mp hj
    cases h.holder_unique (.retired p) (.opened q) hp hq

/-- When the lanes `ls.drain.1` have ended, so has every lane of `ls`. -/
theorem Kept.hasEnded_of_drained {ls ls' : Lanes} (h : ls.Kept)
    (hrun : Relation.ReflTransGen Progress ls.drain.2 ls')
    (hended : ∀ top ∈ ls.drain.1, ls'.hasEnded top = true) {i : Nat} (hi : i < ls.all.size) :
    ls'.hasEnded i = true := by
  obtain ⟨hwf, hleads⟩ := (drain_spec h.wellFormed).1.progress_many hrun
  have hage := ls.leadsTo_drain.trans hleads
  have hlane : ls.all[i]? = some ls.all[i] := Array.getElem?_eq_getElem hi
  rcases hlive : ls.all[i].hasEnded with _ | _
  · obtain ⟨top, ⟨hhead, hchain⟩, -⟩ := h.existsUnique_chain hlane hlive
    exact h.wellFormed.hasEnded_of_chain hwf hage hchain (hended top (mem_drain_iff.mpr hhead))
  · exact hage.hasEnded (hasEnded_eq_true_iff.mpr ⟨_, hlane, hlive⟩)

/-! ### Every lane is held -/

/-- No lane of `ls` is orphaned while the loop serves: each one that has not ended has just one
holder and is in the chain of just one lane in the hands of its partition. -/
structure AllHeld (ls : Lanes) : Prop where
  /-- No partition has an open lane and a retired one. -/
  disjoint : ∀ p : Partition, ls.opened[p]? = none ∨ ls.retired[p]? = none
  /-- A lane that is retired takes the place of no other. -/
  retired : ∀ (p : Partition) (i : Nat), ls.opened[p]? = some i →
    ls.prune.retired[p]? = none ∧ (ls.revoke p).1.retired = ls.prune.retired.insert p i
  /-- A retired lane that has not ended is not forgotten. -/
  remembered : ∀ (p q : Partition) (i : Nat), ls.retired[q]? = some i → ls.hasEnded i = false →
    (ls.revoke p).1.retired[q]? = some i
  /-- Just one holds on to a lane that has not ended. -/
  holder : ∀ (i : Nat) (lane : Lane), ls.all[i]? = some lane → lane.hasEnded = false →
    ∃! x, ls.IsHeldBy i x
  /-- A lane that has not ended is in the chain of just one lane that a partition holds. -/
  chain : ∀ (i : Nat) (lane : Lane), ls.all[i]? = some lane → lane.hasEnded = false →
    ∃! top, (∃ p, ls.IsHead p top) ∧ ls.Chain top i
  /-- All lanes of such a chain belong to that partition. -/
  partition : ∀ (p : Partition) (top i : Nat), ls.IsHead p top → ls.Chain top i →
    ∃ lane : Lane, ls.all[i]? = some lane ∧ lane.partition = p
  /-- A lane has a way in only while it is the open one of its partition. -/
  way_in : ∀ (i : Nat) (lane : Lane), ls.all[i]? = some lane →
    (lane.isOpen = true ↔ ls.opened[lane.partition]? = some i)
  /-- Any other lane is handed nothing, whatever happens, and stays without a way in. -/
  closed : ∀ (i : Nat) (lane : Lane), ls.all[i]? = some lane → lane.isOpen = false →
    ∀ ls', ls.Step ls' → ls'.pendingIn i <:+ ls.pendingIn i ∧
      ∃ lane' : Lane, ls'.all[i]? = some lane' ∧ lane'.isOpen = false
  /-- When its queue is empty, it can do nothing but end. -/
  worked_off : ∀ (i : Nat) (lane : Lane), ls.all[i]? = some lane → lane.isOpen = false →
    lane.phase = .ready → lane.queue.toList = [] →
      (∃ ls', ls.Progress ls' ∧ ls'.hasEnded i = true) ∧
        ∀ ls', ls.Progress ls' → ls'.all[i]? = some lane ∨ ls'.hasEnded i = true
  /-- When no lane can go on, it has ended. -/
  still : ls.IsStill → ∀ (i : Nat) (lane : Lane), ls.all[i]? = some lane → lane.isOpen = false →
    lane.hasEnded = true
  /-- An open lane whose place is given to another has ended, and so have all before it. -/
  replaced : ∀ (r : Request) (p : Partition) (i : Nat), ls.opened[p]? = some i →
    (ls.route r).lanes.opened[p]? ≠ some i → ls.hasEnded i = true ∧ ls.EndedBefore p i
  /-- The lanes to wait for when all are closed are those in the hands of partitions. -/
  awaited : ls.drain.1.Nodup ∧ ∀ top, top ∈ ls.drain.1 ↔ ∃ p, ls.IsHead p top
  /-- They come to their end, and then all lanes have. -/
  drained : ∀ ls', Relation.ReflTransGen Progress ls.drain.2 ls' →
    (ls'.IsStill → ∀ top ∈ ls.drain.1, ls'.hasEnded top = true) ∧
      ((∀ top ∈ ls.drain.1, ls'.hasEnded top = true) →
        ∀ i < ls.all.size, ls'.hasEnded i = true)

/-- Lanes that are `Kept` are `AllHeld`: the parts of `AllHeld` are the lemmas about holders, chains
and drains. -/
theorem Kept.allHeld {ls : Lanes} (h : ls.Kept) : ls.AllHeld where
  disjoint := h.opened_eq_none_or
  retired _ _ := h.retired_revoke
  remembered p _ _ := h.retired_of_revoke p
  holder _ _ := h.existsUnique_holder
  chain _ _ := h.existsUnique_chain
  partition p top i hhead hchain := by
    obtain ⟨last, htop, rfl⟩ := h.tended.exists_of_isHead hhead
    exact (h.wellFormed.exists_of_chain htop hchain).2
  way_in _ _ := h.isOpen_iff
  closed _ _ hi hclosed _ hstep := h.stays_closed hstep hi hclosed
  worked_off _ _ hi hclosed hphase hqueue :=
    ⟨exists_ending hi hphase hqueue hclosed, fun _ hprogress =>
      hprogress.stays_or_ends hi hphase hqueue⟩
  still hstill _ _ hi hclosed := h.wellFormed.hasEnded_of_still hstill h.closed_of_waiting hi hclosed
  replaced _ _ _ := h.hasEnded_of_replaced
  awaited := ⟨h.nodup_drain, fun _ => mem_drain_iff⟩
  drained ls' hrun := by
    refine ⟨fun hstill top htop => ?_, fun hended i hi => h.hasEnded_of_drained hrun hended hi⟩
    have hdrained := (drain_spec h.wellFormed).1
    obtain ⟨hwf, hleads⟩ := hdrained.progress_many hrun
    have hclosed := hdrained.closed_of_progress hrun fun i lane hi => by
      obtain ⟨old, -, rfl⟩ := Option.map_eq_some_iff.mp (Array.getElem?_map.symm.trans hi)
      rfl
    obtain ⟨p, hhead⟩ := mem_drain_iff.mp htop
    obtain ⟨last, hlast, -⟩ := h.tended.exists_of_isHead hhead
    obtain ⟨last', hlast', -⟩ := ls.leadsTo_drain.trans hleads top last hlast
    refine hasEnded_eq_true_iff.mpr ⟨last', hlast', ?_⟩
    exact hwf.hasEnded_of_still hstill (fun _ _ hpred => hclosed _ _ hpred) hlast'
      (hclosed top last' hlast')

end Lanes

namespace Engine

/-! ### The lanes of an engine -/

/-- While an engine serves, an action leaves its lanes or is one of the steps that lanes can make
(`Lanes.Step`). -/
theorem step_of_act {e : Engine} {a : EngineAction} (h : (e.act a).stage = .serving) :
    (e.act a).lanes = e.lanes ∨ e.lanes.Step (e.act a).lanes := by
  by_cases hmove : ∃ move, a = .move move
  · obtain ⟨move, rfl⟩ := hmove
    rcases hpossible : e.isPossible move with _ | _
    · rw [act_move_of_impossible hpossible]
      exact .inl rfl
    rw [act_move_of_isPossible hpossible] at h ⊢
    cases move with
    | answer place =>
        simp only [make, answerCall]
        split <;> exact .inl rfl
    | take =>
        obtain ⟨command, rest, hpop, -, -⟩ := exists_command hpossible
        simp only [make, takeCommand, hpop] at h ⊢
        cases command with
        | commit r =>
            refine .inr ?_
            simp only [obey, route]
            split <;> exact .routed r
        | revoke p => exact .inr (.revoked p)
        | shutdown caller => cases h
    | hangUp => cases h
    | work lane => exact .inr (.advanced (progress_workLane hpossible))
    | collect =>
        simp only [make, collect]
        split <;> exact .inl rfl
    | stop => cases h
  · exact .inl (lanes_stage_act fun move heq => hmove ⟨move, heq⟩).1

/-- So the lanes of an engine that serves after a run are `Lanes.Reachable`. -/
theorem reachable_run {e : Engine} (h : e.lanes.Reachable) {actions : List EngineAction}
    (hserving : (e.run actions).stage = .serving) : (e.run actions).lanes.Reachable := by
  induction actions generalizing e with
  | nil => exact h
  | cons a rest ih =>
      have hnext : (e.act a).stage = .serving := serving_of_run hserving
      refine ih ?_ hserving
      rcases step_of_act hnext with hsame | hstep
      · rwa [hsame]
      · exact h.tail hstep

/-- **No lane is orphaned.** In all lanes that are `Reachable` by requests, revocations and the
lanes' own steps, crashes included, every lane that has not ended has a holder (`AllHeld`), and the
lanes' own steps come to an end. The lanes of an engine that serves are `Reachable`; while it is
`.draining` each lane that has not ended is in the `Chain` of an awaited one; and when it is
`.stopped` all lanes have ended. -/
theorem no_lane_is_orphaned :
    (∀ ls : Lanes, ls.Reachable → ls.AllHeld) ∧
    (WellFounded fun next now : Lanes => now.Progress next) ∧
    ∀ (setup : Setup) (broker : Broker) (actions : List EngineAction),
      let e := (start setup broker).run actions
      (e.stage = .serving → e.lanes.Reachable) ∧
      (∀ caller awaited, e.stage = .draining caller awaited → ∀ (i : Nat) (lane : Lane),
        e.lanes.all[i]? = some lane → lane.hasEnded = false →
          ∃ top ∈ awaited, e.lanes.Chain top i) ∧
      (e.stage = .stopped → ∀ i < e.lanes.all.size, e.lanes.hasEnded i = true) := by
  refine ⟨fun ls hls => hls.kept.allHeld, Lanes.wellFounded_progress,
    fun setup broker actions => ?_⟩
  intro e
  have hsound : e.Sound := sound_run setup broker actions
  have hdraining : e.Draining :=
    (draining_start setup broker).run (sound_start setup broker) actions
  have hempty : (start setup broker).lanes.Reachable := Lanes.reachable_empty
  refine ⟨reachable_run hempty, fun caller awaited hstage i lane hi hlive => ?_,
    fun hstopped i hi => ?_⟩
  · obtain ⟨top, htop, hle, last, hlast, hsame⟩ :=
      hdraining.awaited caller awaited hstage i lane hi hlive
    exact ⟨top, htop, hsound.wellFormed.chain_of_le hi hlive hlast hsame.symm hle⟩
  · have hlane : e.lanes.all[i]? = some e.lanes.all[i] := Array.getElem?_eq_getElem hi
    exact Lanes.hasEnded_eq_true_iff.mpr ⟨_, hlane, hdraining.ended hstopped i _ hlane⟩

/-- A partition is revoked twice while its first commit is under way, and the client crashes on the
commit of another one. The first lane is then in the hands of the third, which waits for it; the
crashed one has been replaced. When the loop has waited for the third lane and the last, all four
have ended. -/
theorem no_lane_is_orphaned_through_crash :
    let p : Partition := ⟨"orders", 0⟩
    let q : Partition := ⟨"orders", 1⟩
    let take : EngineAction := .move .take
    let work : Nat → EngineAction := fun lane => .move (.work lane)
    let serving : List EngineAction :=
      [.submit p (.clamp 4) 1, .submit q (.clamp 5) 1, .revoke p, .submit p (.clamp 6) 1,
        .revoke p, .submit q (.clamp 7) 1, take, take, work 0, work 1, work 1, take, take, take,
        take]
    let draining := serving ++ [.shutdown, take]
    let stopped := draining ++ [work 0, work 0, work 2, work 2, work 2, work 2, work 3, work 3,
      work 3, .move .collect, .move .collect, .move .stop]
    let first := start ⟨[.clamp 5], none⟩ (.start 7 .quiet)
    (first.run serving).lanes.Reachable ∧
      (∀ x, (first.run serving).lanes.IsHeldBy 0 x ↔ x = .successor 2) ∧
      (first.run serving).lanes.hasEnded 1 = true ∧
      (first.run serving).lanes.drain.1 = [2, 3] ∧
      (∃ top ∈ [2, 3], (first.run draining).lanes.Chain top 0) ∧
      ∀ i < 4, (first.run stopped).lanes.hasEnded i = true := by
  intro p q take work serving draining stopped first
  have hfirst : start ⟨[.clamp 5], none⟩ (.start 7 .quiet) = first := rfl
  obtain ⟨hheld, -, hrun⟩ := no_lane_is_orphaned
  specialize hrun ⟨[.clamp 5], none⟩ (.start 7 .quiet)
  rw [hfirst] at hrun
  have hreachable := (hrun serving).1
  have hchain := (hrun draining).2.1
  have hended := (hrun stopped).2.2
  have hlanes := hreachable (by decide +kernel)
  have hlive : ((first.run serving).lanes.all[0]?.any fun lane => !lane.hasEnded) = true := by
    decide +kernel
  have hwaits : ((first.run serving).lanes.all[2]?.any fun lane =>
      lane.phase = .waiting 0) = true := by decide +kernel
  have hstill : ((first.run draining).lanes.all[0]?.any fun lane => !lane.hasEnded) = true := by
    decide +kernel
  obtain ⟨lane, hlane, hlive⟩ := (Option.any_eq_true _ _).mp hlive
  obtain ⟨third, hthird, hwaits⟩ := (Option.any_eq_true _ _).mp hwaits
  obtain ⟨lane', hlane', hstill⟩ := (Option.any_eq_true _ _).mp hstill
  rw [Bool.not_eq_true'] at hlive hstill
  obtain ⟨x, -, hunique⟩ := (hheld _ hlanes).holder 0 lane hlane hlive
  have hsuccessor : (first.run serving).lanes.IsHeldBy 0 (.successor 2) :=
    ⟨third, hthird, of_decide_eq_true hwaits⟩
  refine ⟨hlanes, fun y => ⟨fun hy => ?_, ?_⟩, by decide +kernel, by decide +kernel, ?_,
    fun i hi => ?_⟩
  · exact (hunique y hy).trans (hunique _ hsuccessor).symm
  · rintro rfl
    exact hsuccessor
  · exact hchain (some 0) [2, 3] (by decide +kernel) 0 lane' hlane' hstill
  · exact hended (by decide +kernel) i (hi.trans_eq (by decide +kernel))

end Engine

end OffsetCommit
