import OffsetCommit.Proofs.Engine.Rest

/-!
# Engines that have stopped

The loop ends only when it has waited for every lane. It does not wait for each of them by name: it
waits for the lanes that are held when it begins to drain, and a held lane of a partition ends after
all that were opened before it (`Engine.Draining`). So every lane has ended when the loop does, and
no commit is left without a status.

* `draining_beginDrain`: the lanes that are held then stand for all that have not ended.
* `Draining.act`, `Draining.run`: every action preserves `Draining`.
* `Draining.pending_eq_nil`: an engine that has stopped has no pending commit.
-/

namespace OffsetCommit.Engine

/-- The invariant of the lanes that an engine still has to wait for when it does not serve any more:
a live lane is awaited, or a later one of its partition is. `Draining.run` keeps it. -/
structure Draining (e : Engine) : Prop where
  /-- A lane that has not ended is no later than an awaited one of its partition. -/
  awaited : ∀ caller lanes, e.stage = .draining caller lanes → ∀ (i : Nat) (lane : Lane),
    e.lanes.all[i]? = some lane → lane.hasEnded = false →
      ∃ k ∈ lanes, i ≤ k ∧ ∃ last : Lane, e.lanes.all[k]? = some last ∧
        last.partition = lane.partition
  /-- When the loop has ended, so have all lanes. -/
  ended : e.stage = .stopped → ∀ (i : Nat) (lane : Lane), e.lanes.all[i]? = some lane →
    lane.hasEnded = true

/-- While the loop serves, `Draining` says nothing. -/
theorem Draining.of_serving {e : Engine} (h : e.stage = .serving) : e.Draining := by
  refine ⟨fun caller lanes hstage => ?_, fun hstage => ?_⟩
  · rw [h] at hstage
    cases hstage
  · rw [h] at hstage
    cases hstage

/-- At the start the loop serves. -/
theorem draining_start (setup : Setup) (broker : Broker) : (start setup broker).Draining :=
  .of_serving rfl

/-- The lanes to wait for stay the same as long as `stage` does and lanes keep their partitions and
only end (`g`). -/
theorem Draining.of_lanes {e e' : Engine} (h : e.Draining) (hstage : e'.stage = e.stage)
    (g : Nat → Lane → Lane) (hall : ∀ j : Nat, e'.lanes.all[j]? = e.lanes.all[j]?.map (g j))
    (hpartition : ∀ (j : Nat) (lane : Lane), e.lanes.all[j]? = some lane →
      (g j lane).partition = lane.partition)
    (hended : ∀ (j : Nat) (lane : Lane), e.lanes.all[j]? = some lane → lane.hasEnded = true →
      (g j lane).hasEnded = true) : e'.Draining := by
  refine ⟨fun caller lanes hdraining i new hi hlive => ?_, fun hstopped i new hi => ?_⟩
  · rw [hall, Option.map_eq_some_iff] at hi
    obtain ⟨old, hold, rfl⟩ := hi
    have hliveOld : old.hasEnded = false := by
      by_contra hne
      rw [hended i old hold (Bool.not_eq_false _ ▸ hne)] at hlive
      cases hlive
    obtain ⟨k, hk, hle, last, hlast, hsame⟩ :=
      h.awaited caller lanes (hstage ▸ hdraining) i old hold hliveOld
    refine ⟨k, hk, hle, g k last, ?_, ?_⟩
    · rw [hall, hlast, Option.map_some]
    · rw [hpartition k last hlast, hpartition i old hold, hsame]
  · rw [hall, Option.map_eq_some_iff] at hi
    obtain ⟨old, hold, rfl⟩ := hi
    exact hended i old hold (h.ended (hstage ▸ hstopped) i old hold)

/-- What `Draining` says depends on `stage` and `lanes` alone. -/
theorem Draining.of_eq {e e' : Engine} (h : e.Draining) (hstage : e'.stage = e.stage)
    (hlanes : e'.lanes = e.lanes) : e'.Draining := by
  apply h.of_lanes hstage fun _ lane => lane
  · intro j
    rw [hlanes, Option.map_id']
  · exact fun _ _ _ => rfl
  · exact fun _ _ _ hended => hended

/-- Changing a lane that has not ended preserves `Draining` if the partition stays. -/
theorem Draining.modifyLane {e : Engine} (h : e.Draining) {i : Nat} {lane : Lane}
    (hi : e.lanes.all[i]? = some lane) (hlive : lane.hasEnded = false) {f : Lane → Lane}
    (hf : (f lane).partition = lane.partition) : (e.modifyLane i f).Draining := by
  have hstage : (e.modifyLane i f).stage = e.stage := rfl
  apply h.of_lanes hstage fun j old => if i = j then f old else old
  · intro j
    refine (Lanes.getElem?_modify e.lanes i f j).trans ?_
    split <;> simp
  · intro j old hj
    split
    · next hij =>
        subst hij
        obtain rfl := Option.some.inj (hi.symm.trans hj)
        exact hf
    · rfl
  · intro j old hj hended
    split
    · next hij =>
        subst hij
        obtain rfl := Option.some.inj (hi.symm.trans hj)
        rw [hlive] at hended
        cases hended
    · exact hended

/-- The lanes that are held when the loop begins to drain stand for all that have not ended: by
`Tended`, a lane that has not ended is no later than the held one of its partition. -/
theorem draining_beginDrain {e : Engine} (h : e.lanes.Tended) (caller : Option Nat) :
    (e.beginDrain caller).Draining := by
  have hall : ∀ j : Nat, (e.beginDrain caller).lanes.all[j]? = e.lanes.all[j]?.map Lane.close :=
    fun _ => Array.getElem?_map
  refine ⟨fun caller' lanes hstage i new hi hlive => ?_, fun hstage => ?_⟩
  · obtain ⟨-, rfl⟩ := Stage.draining.inj hstage
    rw [hall, Option.map_eq_some_iff] at hi
    obtain ⟨lane, hi, rfl⟩ := hi
    obtain ⟨k, hhead⟩ := h.exists_isHead hi hlive
    obtain ⟨last, hlast, hsame⟩ := h.exists_of_isHead hhead
    have hle := h.le_of_isHead hhead hi rfl hlive
    refine ⟨k, Lanes.mem_drain_iff.mpr ⟨_, hhead⟩, hle, last.close, ?_, hsame⟩
    rw [hall, hlast, Option.map_some]
  · cases hstage

/-- Taking a command of a serving loop either keeps it serving or begins to drain. -/
theorem Draining.takeCommand {e : Engine} (hsound : e.Sound) (hstage : e.stage = .serving) :
    e.takeCommand.Draining := by
  unfold Engine.takeCommand
  rcases e.mailbox.pop? with _ | ⟨command, rest⟩
  · exact .of_serving hstage
  cases command with
  | commit r =>
      apply Draining.of_serving
      simp only [obey, route]
      split
      · exact hstage
      · exact hstage
  | revoke p => exact .of_serving hstage
  | shutdown caller =>
      have htended : ({ e with mailbox := rest } : Engine).lanes.Tended := hsound.tended hstage
      exact draining_beginDrain htended (some caller)

/-- A lane that has ended has only ended ones of its partition before it, so it may be left out of
the awaited ones. -/
theorem Draining.collect {e : Engine} (h : e.Draining) (hsound : e.Sound)
    (hpossible : e.isPossible .collect = true) : e.collect.Draining := by
  unfold Engine.collect
  split
  · next caller k rest hstage =>
      rw [isPossible, hstage] at hpossible
      obtain ⟨done, hdone, hended⟩ := Lanes.hasEnded_eq_true_iff.mp hpossible
      refine ⟨fun caller' lanes heq i lane hi hlive => ?_, fun heq => ?_⟩
      · obtain ⟨-, rfl⟩ := Stage.draining.inj heq
        obtain ⟨j, hj, hle, last, hlast, hsame⟩ := h.awaited caller _ hstage i lane hi hlive
        rcases List.mem_cons.mp hj with rfl | hj
        · exfalso
          obtain rfl := Option.some.inj (hdone.symm.trans hlast)
          have hover : lane.hasEnded = true := by
            rcases Nat.lt_or_eq_of_le hle with hlt | rfl
            · exact hsound.wellFormed.endedBefore_of_hasEnded hdone hended i lane hlt hi hsame.symm
            · exact Option.some.inj (hdone.symm.trans hi) ▸ hended
          rw [hlive] at hover
          cases hover
        · exact ⟨j, hj, hle, last, hlast, hsame⟩
      · cases heq
  · exact h

/-- A lane that works keeps its place and its partition, and an ended one does not work. -/
theorem Draining.workLane {e : Engine} (h : e.Draining) (hsound : e.Sound) {i : Nat}
    (hpossible : e.isPossible (.work i) = true) : (e.workLane i).Draining := by
  obtain ⟨hstage, -⟩ := e.workLane_frame i
  obtain ⟨j, lane, f, hlanes, hadvance⟩ :=
    (progress_workLane hpossible).exists_advance hsound.wellFormed
  have hmodified : (e.modifyLane j f).Draining :=
    h.modifyLane hadvance.at_index hadvance.live hadvance.partition_eq
  exact hmodified.of_eq hstage hlanes

/-- The loop ends when there is no lane left to wait for, and then all have ended. -/
theorem Draining.stop {e : Engine} (h : e.Draining) (hpossible : e.isPossible .stop = true) :
    e.stop.Draining := by
  obtain ⟨callers, heq⟩ := e.stop_eq
  rw [heq]
  refine ⟨fun caller lanes hdraining => ?_, fun _ i lane hi => ?_⟩
  · cases hdraining
  · by_contra hne
    rw [Bool.not_eq_true] at hne
    rcases hstage : e.stage with _ | ⟨caller, _ | ⟨j, rest⟩⟩ | _
    · rw [isPossible, hstage] at hpossible
      cases hpossible
    · obtain ⟨k, hk, -⟩ := h.awaited caller [] hstage i lane hi hne
      cases hk
    · rw [isPossible, hstage] at hpossible
      cases hpossible
    · rw [isPossible, hstage] at hpossible
      cases hpossible

/-- Every action preserves `Draining`: none opens a lane behind the back of a loop that drains. -/
theorem Draining.act {e : Engine} (h : e.Draining) (hsound : e.Sound) (a : EngineAction) :
    (e.act a).Draining := by
  by_cases hmove : ∃ move, a = .move move
  · obtain ⟨move, rfl⟩ := hmove
    rw [Engine.act, perform]
    split
    · next hpossible =>
        cases move with
        | answer place =>
            show (e.answerCall place).Draining
            unfold answerCall
            split
            · exact h
            · exact h.of_eq rfl rfl
        | take =>
            exact .takeCommand hsound (serving_of_isPossible (.inl rfl) hpossible)
        | hangUp =>
            have hserving := serving_of_isPossible (.inr rfl) hpossible
            exact draining_beginDrain (hsound.tended hserving) none
        | work lane => exact h.workLane hsound hpossible
        | collect => exact h.collect hsound hpossible
        | stop => exact h.stop hpossible
    · exact h
  · obtain ⟨hlanes, hstage⟩ := lanes_stage_act fun move heq => hmove ⟨move, heq⟩
    exact h.of_eq hstage hlanes

/-- Every run preserves `Draining`. -/
theorem Draining.run {e : Engine} (h : e.Draining) (hsound : e.Sound)
    (actions : List EngineAction) : (e.run actions).Draining := by
  induction actions generalizing e with
  | nil => exact h
  | cons a rest ih => exact ih (h.act hsound a) (hsound.act a)

/-- **An engine that has stopped has no pending commit**: all lanes have ended, and the mailbox is
empty. -/
theorem Draining.pending_eq_nil {e : Engine} (h : e.Draining) (hsound : e.Sound)
    (hclosing : e.Closing) (hstopped : e.stage = .stopped) (p : Partition) :
    e.pending p = [] := by
  have hlanes : e.lanes.pending p = [] := by
    rw [List.eq_nil_iff_forall_not_mem]
    intro r hr
    obtain ⟨i, lane, hi, -, hr⟩ := Lanes.mem_pending_iff.mp hr
    have hended := h.ended hstopped i lane hi
    rw [Lane.pending_of_hasEnded hended (hsound.wellFormed.empty i lane hi hended)] at hr
    cases hr
  rw [pending, queued, hlanes, hclosing.emptied hstopped]
  rfl

end OffsetCommit.Engine
