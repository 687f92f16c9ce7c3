import OffsetCommit.Proofs.Engine.Work

/-!
# Engines at rest

An engine is at rest when no part of it can move and nothing is under way that time would bring to
an end (`Engine.IsAtRest`). A lane that waits has an earlier one to wait for, the earliest one that
has not ended can always go on, and the loop waits only for such lanes.

* `Closing.act`, `Closing.run`: closing down is never undone (`Engine.Closing`).
* `IsAtRest.lane_cases`, `IsAtRest.not_draining`, `IsAtRest.mailbox_eq_nil`: what lanes, loop and
  mailbox look like at rest.
* `IsAtRest.pending_eq_nil`: an engine at rest has brought every commit to an end.
-/

namespace OffsetCommit

namespace Engine

/-! ### Closing down -/

/-- The invariant of an engine whose stage is not `.serving`: its lanes are closed, and once it has
stopped the mailbox is empty. `Closing.run` keeps it. -/
structure Closing (e : Engine) : Prop where
  /-- Its lanes are closed. -/
  closed : e.stage ≠ .serving → ∀ (i : Nat) (lane : Lane), e.lanes.all[i]? = some lane →
    lane.isOpen = false
  /-- The lanes that it waits for are there. -/
  awaited : ∀ caller lanes, e.stage = .draining caller lanes → ∀ i ∈ lanes,
    ∃ lane : Lane, e.lanes.all[i]? = some lane
  /-- When it has stopped, its mailbox is empty. -/
  emptied : e.stage = .stopped → e.mailbox.toList = []

/-- At the start the engine serves. -/
theorem closing_start (setup : Setup) (broker : Broker) : (start setup broker).Closing := by
  refine ⟨fun h => absurd rfl h, fun caller lanes h => ?_, fun h => ?_⟩
  · cases h
  · cases h

/-- While the engine serves, `Closing` says nothing. -/
theorem Closing.of_serving {e : Engine} (h : e.stage = .serving) : e.Closing := by
  refine ⟨fun hne => absurd h hne, fun caller lanes hstage => ?_, fun hstage => ?_⟩
  · rw [h] at hstage
    cases hstage
  · rw [h] at hstage
    cases hstage

/-- The property `Closing` carries over when neither the stage nor the mailbox changes, no lane is
opened or lost, and `isOpen` stays. -/
theorem Closing.of_lanes {e e' : Engine} (h : e.Closing) (hstage : e'.stage = e.stage)
    (hmailbox : e'.mailbox = e.mailbox)
    (hold : ∀ (i : Nat) (new : Lane), e'.lanes.all[i]? = some new →
      ∃ old : Lane, e.lanes.all[i]? = some old ∧ new.isOpen = old.isOpen)
    (hnew : ∀ (i : Nat) (old : Lane), e.lanes.all[i]? = some old →
      ∃ new : Lane, e'.lanes.all[i]? = some new) : e'.Closing := by
  refine ⟨fun hne i new hi => ?_, fun caller lanes hdraining i hi => ?_, fun hstopped => ?_⟩
  · obtain ⟨old, hiOld, hopen⟩ := hold i new hi
    exact hopen.trans (h.closed (hstage ▸ hne) i old hiOld)
  · obtain ⟨old, hiOld⟩ := h.awaited caller lanes (hstage ▸ hdraining) i hi
    exact hnew i old hiOld
  · rw [hmailbox]
    exact h.emptied (hstage ▸ hstopped)

/-- It depends on `stage`, `mailbox` and `lanes` alone. -/
theorem Closing.of_eq {e e' : Engine} (h : e.Closing) (hstage : e'.stage = e.stage)
    (hmailbox : e'.mailbox = e.mailbox) (hlanes : e'.lanes = e.lanes) : e'.Closing := by
  apply h.of_lanes hstage hmailbox
  · intro i new hi
    exact ⟨new, hlanes ▸ hi, rfl⟩
  · intro i old hi
    exact ⟨old, hlanes.symm ▸ hi⟩

/-- Changing a lane without opening or closing it preserves `Closing`. -/
theorem Closing.modifyLane {e : Engine} (h : e.Closing) {i : Nat} {lane : Lane}
    (hi : e.lanes.all[i]? = some lane) {f : Lane → Lane} (hf : (f lane).isOpen = lane.isOpen) :
    (e.modifyLane i f).Closing := by
  have hstage : (e.modifyLane i f).stage = e.stage := rfl
  have hmailbox : (e.modifyLane i f).mailbox = e.mailbox := rfl
  apply h.of_lanes hstage hmailbox
  · intro j new hj
    have hj' := (Lanes.getElem?_modify e.lanes i f j).symm.trans hj
    split at hj'
    · next hij =>
        subst hij
        rw [hi, Option.map_some, Option.some.injEq] at hj'
        exact ⟨lane, hi, hj' ▸ hf⟩
    · exact ⟨new, hj', rfl⟩
  · intro j old hj
    have hmodify := Lanes.getElem?_modify e.lanes i f j
    rw [hj] at hmodify
    split at hmodify
    · exact ⟨_, hmodify⟩
    · exact ⟨_, hmodify⟩

/-- A loop that begins to drain closes its lanes and waits for lanes that are there. -/
theorem closing_beginDrain {e : Engine} (h : e.lanes.Tended) (caller : Option Nat) :
    (e.beginDrain caller).Closing := by
  refine ⟨fun _ i lane hi => ?_, fun caller' lanes hstage i hi => ?_, fun hstage => ?_⟩
  · have hall : (e.beginDrain caller).lanes.all[i]? = e.lanes.all[i]?.map Lane.close :=
      Array.getElem?_map
    rw [hall, Option.map_eq_some_iff] at hi
    obtain ⟨old, -, rfl⟩ := hi
    rfl
  · obtain ⟨-, rfl⟩ := Stage.draining.inj hstage
    obtain ⟨p, hhead⟩ := Lanes.mem_drain_iff.mp hi
    obtain ⟨lane, hlane, -⟩ := h.exists_of_isHead hhead
    refine ⟨lane.close, ?_⟩
    show (e.lanes.all.map Lane.close)[i]? = _
    rw [Array.getElem?_map, hlane]
    rfl
  · cases hstage

/-- Taking a command of a serving loop keeps it serving or begins to drain. -/
theorem Closing.takeCommand {e : Engine} (hsound : e.Sound) (hstage : e.stage = .serving) :
    e.takeCommand.Closing := by
  unfold Engine.takeCommand
  rcases e.mailbox.pop? with _ | ⟨command, rest⟩
  · exact .of_serving hstage
  cases command with
  | commit r =>
      apply Closing.of_serving
      simp only [obey, route]
      split
      · exact hstage
      · exact hstage
  | revoke p => exact .of_serving hstage
  | shutdown caller =>
      have htended : ({ e with mailbox := rest } : Engine).lanes.Tended := hsound.tended hstage
      exact closing_beginDrain htended (some caller)

/-- The work of a lane neither opens nor closes it. -/
theorem Closing.workLane {e : Engine} (h : e.Closing) (hsound : e.Sound) {i : Nat}
    (hpossible : e.isPossible (.work i) = true) : (e.workLane i).Closing := by
  obtain ⟨hstage, hmailbox, -⟩ := e.workLane_frame i
  obtain ⟨j, lane, f, hlanes, hadvance⟩ :=
    (progress_workLane hpossible).exists_advance hsound.wellFormed
  have hmodified : (e.modifyLane j f).Closing :=
    h.modifyLane hadvance.at_index hadvance.isOpen_eq
  exact hmodified.of_eq hstage hmailbox hlanes

/-- Collecting an ended lane leaves the others to wait for. -/
theorem Closing.collect {e : Engine} (h : e.Closing) : e.collect.Closing := by
  unfold Engine.collect
  split
  · next caller i rest hstage =>
      refine ⟨fun _ => ?_, fun caller' lanes heq j hj => ?_, fun heq => ?_⟩
      · apply h.closed
        rw [hstage]
        exact Stage.noConfusion
      · obtain ⟨-, rfl⟩ := Stage.draining.inj heq
        exact h.awaited caller _ hstage j (List.mem_cons_of_mem i hj)
      · cases heq
  · exact h

/-- Stopping empties the mailbox, and the lanes are closed already. -/
theorem Closing.stop {e : Engine} (h : e.Closing) (hstage : e.stage ≠ .serving) :
    e.stop.Closing := by
  obtain ⟨callers, heq⟩ := e.stop_eq
  rw [heq]
  refine ⟨fun _ => h.closed hstage, fun caller lanes hdraining => ?_, fun _ => rfl⟩
  cases hdraining

/-- Every action preserves `Closing`: closing down is never undone. -/
theorem Closing.act {e : Engine} (h : e.Closing) (hsound : e.Sound) (a : EngineAction) :
    (e.act a).Closing := by
  have hpush : ∀ e' : Engine, ¬e.isClosed = true → e'.stage = e.stage → e'.Closing := by
    intro e' hopen hstage
    apply Closing.of_serving
    rw [hstage]
    simpa [isClosed] using hopen
  cases a with
  | submit p o count =>
      simp only [Engine.act, submit]
      split
      · exact h.of_eq rfl rfl rfl
      · next hopen => exact hpush _ hopen rfl
  | revoke p =>
      simp only [Engine.act, revoke]
      split
      · exact h
      · next hopen => exact hpush _ hopen rfl
  | shutdown =>
      simp only [Engine.act, shutdown]
      split
      · exact h.of_eq rfl rfl rfl
      · next hopen => exact hpush _ hopen rfl
  | dropClients => exact h.of_eq rfl rfl rfl
  | changeFaults new => exact h.of_eq rfl rfl rfl
  | call p o => exact h.of_eq rfl rfl rfl
  | passTo time => exact h.of_eq rfl rfl rfl
  | move move =>
      rw [Engine.act, perform]
      split
      · next hpossible =>
          cases move with
          | answer place =>
              show (e.answerCall place).Closing
              unfold answerCall
              split
              · exact h
              · exact h.of_eq rfl rfl rfl
          | take =>
              exact .takeCommand hsound (serving_of_isPossible (.inl rfl) hpossible)
          | hangUp =>
              have hserving := serving_of_isPossible (.inr rfl) hpossible
              exact closing_beginDrain (hsound.tended hserving) none
          | work lane => exact h.workLane hsound hpossible
          | collect => exact h.collect
          | stop =>
              refine h.stop fun hserving => ?_
              rw [isPossible, hserving] at hpossible
              cases hpossible
      · exact h

/-- Every run preserves `Closing`. -/
theorem Closing.run {e : Engine} (h : e.Closing) (hsound : e.Sound) (actions : List EngineAction) :
    (e.run actions).Closing := by
  induction actions generalizing e with
  | nil => exact h
  | cons a rest ih => exact ih (h.act hsound a) (hsound.act a)

/-! ### At rest -/

/-- When no move is possible and nothing is under way for `p`, each of its lanes has ended, or it is
open and has nothing to do. A lane that waits has an earlier one to wait for, so the induction is on
the place of the lane. -/
theorem lane_cases_of_idle {e : Engine} (h : e.next? = none) (hsound : e.Sound)
    (hclosing : e.Closing) {p : Partition}
    (hidle : ∀ (i : Nat) (lane : Lane), e.lanes.all[i]? = some lane → lane.partition = p →
      lane.current? = none)
    (i : Nat) (lane : Lane) (hi : e.lanes.all[i]? = some lane) (hp : lane.partition = p) :
    lane.hasEnded = true ∨ lane.isOpen = true ∧ lane.pending = [] := by
  induction i using Nat.strong_induction_on generalizing lane with
  | _ i ih =>
      have hcannot : e.canWork lane = false := by
        have hnot := isPossible_eq_false_of_next? h (.work i)
        rwa [isPossible, hi, Option.any_some] at hnot
      rcases hphase : lane.phase with k | _ | ⟨r, due⟩ | crashed
      · -- the lane before it has not ended, so it is open, but no lane waits for an open one
        exfalso
        obtain ⟨hlt, pred, hpred, hsame⟩ := hsound.wellFormed.predecessor i lane k hi hphase
        rw [canWork, hphase] at hcannot
        rcases ih k hlt pred hpred (hsame.trans hp) with hended | ⟨hopen, -⟩
        · exact Bool.false_ne_true
            (hcannot.symm.trans (Lanes.hasEnded_eq_true_iff.mpr ⟨pred, hpred, hended⟩))
        · have hserving : e.stage = .serving := by
            by_contra hne
            rw [hclosing.closed hne k pred hpred] at hopen
            cases hopen
          have hkept : e.lanes.Kept := ⟨hsound.wellFormed, hsound.tended hserving⟩
          rw [hkept.closed_of_waiting hi hphase hpred] at hopen
          cases hopen
      · rw [canWork, hphase, Bool.or_eq_false_iff, Bool.not_eq_false', Bool.not_eq_false'] at hcannot
        refine .inr ⟨hcannot.2, ?_⟩
        rw [Lane.pending, Lane.current?, hphase, Queue.isEmpty_iff.mp hcannot.1]
        rfl
      · have hnone := hidle i lane hi hp
        rw [Lane.current?, hphase] at hnone
        cases hnone
      · exact .inl (Lane.hasEnded_eq_true_iff.mpr ⟨crashed, hphase⟩)

/-- A partition whose lanes have ended or have nothing to do has no commit in its lanes. -/
theorem pending_eq_nil_of_lanes {e : Engine} (hsound : e.Sound) {p : Partition}
    (hlanes : ∀ (i : Nat) (lane : Lane), e.lanes.all[i]? = some lane → lane.partition = p →
      lane.hasEnded = true ∨ lane.isOpen = true ∧ lane.pending = []) : e.lanes.pending p = [] := by
  rw [List.eq_nil_iff_forall_not_mem]
  intro r hr
  obtain ⟨i, lane, hi, hp, hr⟩ := Lanes.mem_pending_iff.mp hr
  have hnil : lane.pending = [] := by
    rcases hlanes i lane hi hp with hended | ⟨-, hnil⟩
    · exact Lane.pending_of_hasEnded hended (hsound.wellFormed.empty i lane hi hended)
    · exact hnil
  rw [hnil] at hr
  cases hr

/-- At rest every lane has ended, or it is open and has nothing to do: `lane_cases_of_idle` for its
partition. -/
theorem IsAtRest.lane_cases {e : Engine} (h : e.IsAtRest) (hsound : e.Sound) (hclosing : e.Closing)
    (i : Nat) (lane : Lane) (hi : e.lanes.all[i]? = some lane) :
    lane.hasEnded = true ∨ lane.isOpen = true ∧ lane.pending = [] := by
  refine lane_cases_of_idle h.1 hsound hclosing (fun j other hj _ => ?_) i lane hi rfl
  rcases hphase : other.phase with k | _ | ⟨r, due⟩ | crashed
  · rw [Lane.current?, hphase]
  · rw [Lane.current?, hphase]
  · have hdue : due ∈ e.dueTimes := by
      refine List.mem_append_right _ (List.mem_filterMap.mpr ⟨other, ?_, ?_⟩)
      · exact Array.mem_toList_iff.mpr (Array.mem_of_getElem? hj)
      · rw [Lane.due?, hphase]
    rw [List.min?_eq_none_iff.mp h.2] at hdue
    cases hdue
  · rw [Lane.current?, hphase]

/-- At rest `stage` is not `.draining`: the loop would find the lane that it waits for at its end,
or it would have none left to wait for. -/
theorem IsAtRest.not_draining {e : Engine} (h : e.IsAtRest) (hsound : e.Sound)
    (hclosing : e.Closing) (caller : Option Nat) (awaited : List Nat) :
    e.stage ≠ .draining caller awaited := by
  intro hstage
  rcases awaited with _ | ⟨i, rest⟩
  · have hnot := isPossible_eq_false_of_next? h.1 .stop
    rw [isPossible, hstage] at hnot
    cases hnot
  · obtain ⟨lane, hi⟩ := hclosing.awaited caller _ hstage i List.mem_cons_self
    have hnot := isPossible_eq_false_of_next? h.1 .collect
    rw [isPossible, hstage] at hnot
    rcases h.lane_cases hsound hclosing i lane hi with hended | ⟨hopen, -⟩
    · exact Bool.false_ne_true
        (hnot.symm.trans (Lanes.hasEnded_eq_true_iff.mpr ⟨lane, hi, hended⟩))
    · rw [hclosing.closed (hstage ▸ Stage.noConfusion) i lane hi] at hopen
      cases hopen

/-- At rest every command has been taken or discarded. -/
theorem IsAtRest.mailbox_eq_nil {e : Engine} (h : e.IsAtRest) (hsound : e.Sound)
    (hclosing : e.Closing) : e.mailbox.toList = [] := by
  rcases hstage : e.stage with _ | ⟨caller, awaited⟩ | _
  · have hnot := isPossible_eq_false_of_next? h.1 .take
    rw [isPossible, hstage] at hnot
    exact Queue.isEmpty_iff.mp (by simpa using hnot)
  · exact absurd hstage (h.not_draining hsound hclosing caller awaited)
  · exact hclosing.emptied hstage

/-- **An engine at rest has brought every commit to an end**: `pending p = []` for every partition. -/
theorem IsAtRest.pending_eq_nil {e : Engine} (h : e.IsAtRest) (hsound : e.Sound)
    (hclosing : e.Closing) (p : Partition) : e.pending p = [] := by
  have hlanes : e.lanes.pending p = [] :=
    pending_eq_nil_of_lanes hsound fun i lane hi _ => h.lane_cases hsound hclosing i lane hi
  rw [pending, queued, hlanes, h.mailbox_eq_nil hsound hclosing]
  rfl

end Engine

end OffsetCommit
