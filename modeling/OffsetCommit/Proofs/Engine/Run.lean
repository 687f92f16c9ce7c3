import OffsetCommit.Proofs.Lanes.Routing

/-!
# Runs of the engine

A run is any sequence of the things that can happen to an engine (`EngineAction`): what its clients
ask of it, the passing of time, and the moves of its own parts, in any order.

* `isPossible_eq_false_of_next?`: when `next?` gives no move, none is possible.
* `runsTo_settle`, `runsTo_await`, `runsTo_elapse`: the schedule that settles an engine and waits
  for its commits makes a run (`RunsTo`), so whatever holds along every run holds there.
-/

namespace OffsetCommit

/-- Something that happens to an engine. -/
inductive EngineAction where
  /-- A commit is issued. -/
  | submit (partition : Partition) (offset : Offset) (count : Nat)
  /-- The lane of a partition is to be closed. -/
  | revoke (partition : Partition)
  /-- The engine is to shut down. -/
  | shutdown
  /-- The last client goes. -/
  | dropClients
  /-- The broker treats commits in another way from now on. -/
  | changeFaults (new : FaultsChange)
  /-- The broker is asked for a commit directly. -/
  | call (partition : Partition) (offset : Offset)
  /-- Time passes. -/
  | passTo (time : Nat)
  /-- A part of the engine makes a move, if the move is possible. -/
  | move (move : Move)

namespace EngineAction

/-- Whether nothing outside the engine takes part in an action. -/
def isInternal : EngineAction → Bool
  | .passTo _ => true
  | .move _ => true
  | _ => false

end EngineAction

namespace Engine

/-- The engine after an action. A move for which `isPossible` does not hold changes nothing. -/
def act (e : Engine) : EngineAction → Engine
  | .submit p o count => e.submit p o count
  | .revoke p => e.revoke p
  | .shutdown => e.shutdown
  | .dropClients => e.dropClients
  | .changeFaults new => e.changeFaults new
  | .call p o => e.call p o
  | .passTo time => e.passTo time
  | .move move => (e.perform move).getD e

/-- The engine after several actions, `act` for one after the other. -/
def run (e : Engine) (actions : List EngineAction) : Engine :=
  actions.foldl act e

/-- The run of no actions. -/
@[simp] theorem run_nil (e : Engine) : e.run [] = e := rfl

/-- A run takes its first action first. -/
@[simp] theorem run_cons (e : Engine) (a : EngineAction) (rest : List EngineAction) :
    e.run (a :: rest) = (e.act a).run rest := rfl

/-- A run may be taken in two parts. -/
theorem run_append (e : Engine) (first second : List EngineAction) :
    e.run (first ++ second) = (e.run first).run second :=
  List.foldl_append

/-- What clients do and the passing of time leave `lanes` and `stage` alone. -/
theorem lanes_stage_act {e : Engine} {a : EngineAction} (h : ∀ move, a ≠ .move move) :
    (e.act a).lanes = e.lanes ∧ (e.act a).stage = e.stage := by
  cases a with
  | submit p o count =>
      simp only [act, submit]
      split <;> exact ⟨rfl, rfl⟩
  | revoke p =>
      simp only [act, revoke]
      split <;> exact ⟨rfl, rfl⟩
  | shutdown =>
      simp only [act, shutdown]
      split <;> exact ⟨rfl, rfl⟩
  | dropClients => exact ⟨rfl, rfl⟩
  | changeFaults new => exact ⟨rfl, rfl⟩
  | call p o => exact ⟨rfl, rfl⟩
  | passTo time => exact ⟨rfl, rfl⟩
  | move move => exact absurd rfl (h move)

/-- The moves `.take` and `.hangUp` are possible only while the loop serves. -/
theorem serving_of_isPossible {e : Engine} {move : Move} (hmove : move = .take ∨ move = .hangUp)
    (h : e.isPossible move = true) : e.stage = .serving := by
  rcases hmove with rfl | rfl
  · rw [isPossible, Bool.and_eq_true, decide_eq_true_eq] at h
    exact h.1
  · rw [isPossible, Bool.and_eq_true, Bool.and_eq_true, decide_eq_true_eq] at h
    exact h.1.1

/-! ### The schedule makes runs -/

/-- A run without anything from outside. -/
def RunsTo (e e' : Engine) : Prop :=
  ∃ actions : List EngineAction, (∀ a ∈ actions, a.isInternal = true) ∧ e' = e.run actions

/-- Every engine runs to itself. -/
theorem RunsTo.refl (e : Engine) : e.RunsTo e :=
  ⟨[], by simp, rfl⟩

/-- Runs can be appended, so `RunsTo` is transitive. -/
theorem RunsTo.trans {e e' e'' : Engine} (h : e.RunsTo e') (h' : e'.RunsTo e'') :
    e.RunsTo e'' := by
  obtain ⟨first, hfirst, rfl⟩ := h
  obtain ⟨second, hsecond, rfl⟩ := h'
  refine ⟨first ++ second, fun a ha => ?_, (run_append e first second).symm⟩
  rcases List.mem_append.mp ha with ha | ha
  · exact hfirst a ha
  · exact hsecond a ha

/-- An internal action is a run. -/
theorem RunsTo.act (e : Engine) {a : EngineAction} (ha : a.isInternal = true) :
    e.RunsTo (e.act a) :=
  ⟨[a], by simpa using ha, rfl⟩

/-- The move that comes next can be made. -/
theorem isPossible_of_next? {e : Engine} {move : Move} (h : e.next? = some move) :
    e.isPossible move = true := by
  unfold next? urgent? patient? at h
  simp only [Option.orElse_eq_orElse, Option.orElse_eq_or, Option.or_eq_some_iff,
    Option.map_eq_some_iff] at h
  rcases h with ⟨place, hplace, rfl⟩ | ⟨-, h⟩
  · obtain ⟨hlt, hcan, -⟩ := List.findIdx?_eq_some_iff_getElem.mp hplace
    simpa [isPossible, List.getElem?_eq_getElem hlt] using hcan
  rcases h with h | ⟨-, h⟩
  · split at h
    · next htake => exact Option.some.inj h ▸ htake
    · split at h
      · next hhang => exact Option.some.inj h ▸ hhang
      · cases h
  rcases h with ⟨lane, hlane, rfl⟩ | ⟨-, h⟩
  · obtain ⟨hlt, hcan, -⟩ := Array.findIdx?_eq_some_iff_getElem.mp hlane
    simpa [isPossible, Array.getElem?_eq_getElem hlt] using hcan
  · split at h
    · next hcollect => exact Option.some.inj h ▸ hcollect
    · split at h
      · next hstop => exact Option.some.inj h ▸ hstop
      · cases h

/-- No move is urgent just when neither `.take` nor `.hangUp` is possible. -/
theorem urgent?_eq_none_iff {e : Engine} :
    e.urgent? = none ↔ e.isPossible .take = false ∧ e.isPossible .hangUp = false := by
  unfold urgent?
  cases e.isPossible .take <;> cases e.isPossible .hangUp <;> simp

/-- No patient move is left just when neither `.collect` nor `.stop` is possible. -/
theorem patient?_eq_none_iff {e : Engine} :
    e.patient? = none ↔ e.isPossible .collect = false ∧ e.isPossible .stop = false := by
  unfold patient?
  cases e.isPossible .collect <;> cases e.isPossible .stop <;> simp

/-- When there is no next move, no move is possible: `next?` looks at all of them. -/
theorem isPossible_eq_false_of_next? {e : Engine} (h : e.next? = none) (move : Move) :
    e.isPossible move = false := by
  unfold next? at h
  simp only [Option.orElse_eq_orElse, Option.orElse_eq_or, Option.or_eq_none_iff,
    Option.map_eq_none_iff, urgent?_eq_none_iff, patient?_eq_none_iff] at h
  obtain ⟨hanswer, ⟨htake, hhangUp⟩, hwork, hcollect, hstop⟩ := h
  cases move with
  | answer place =>
      rcases hplace : e.pendingCalls[place]? with _ | c
      · simp [isPossible, hplace]
      · have hnot := List.findIdx?_eq_none_iff.mp hanswer c (List.mem_of_getElem? hplace)
        simpa [isPossible, hplace] using hnot
  | take => exact htake
  | hangUp => exact hhangUp
  | work i =>
      rcases hi : e.lanes.all[i]? with _ | lane
      · simp [isPossible, hi]
      · have hnot := Array.findIdx?_eq_none_iff.mp hwork lane (Array.mem_of_getElem? hi)
        simpa [isPossible, hi] using hnot
  | collect => exact hcollect
  | stop => exact hstop

/-- A possible move is made by `act`. -/
theorem act_move_of_isPossible {e : Engine} {move : Move} (h : e.isPossible move = true) :
    e.act (.move move) = e.make move := by
  rw [act, perform, if_pos h, Option.getD_some]

/-- The moves that `runMoves` makes are a run. -/
theorem runsTo_runMoves (fuel : Nat) (e : Engine) : e.RunsTo (runMoves fuel e) := by
  induction fuel generalizing e with
  | zero => exact .refl e
  | succ fuel ih =>
      unfold runMoves
      rcases hnext : e.next? with _ | move
      · exact .refl e
      · have hmove := RunsTo.act e (a := .move move) rfl
        rw [act_move_of_isPossible (isPossible_of_next? hnext)] at hmove
        exact hmove.trans (ih _)

/-- Settling is a run. -/
theorem runsTo_settle (e : Engine) : e.RunsTo e.settle :=
  runsTo_runMoves e.work e

/-- Waiting with any fuel is a run: settling, passing to the next decision, and so on. -/
theorem runsTo_awaitWithin (fuel : Nat) (isDone : Engine → Bool) (e : Engine) :
    e.RunsTo (awaitWithin fuel isDone e) := by
  induction fuel generalizing e with
  | zero => exact runsTo_settle e
  | succ fuel ih =>
      unfold awaitWithin
      have hsettle := runsTo_settle e
      dsimp only
      split
      · exact hsettle
      · split
        · exact hsettle
        · next due _ =>
            exact (hsettle.trans (.act _ (a := .passTo due) rfl)).trans (ih _)

/-- Waiting is a run. -/
theorem runsTo_await (isDone : Engine → Bool) (e : Engine) : e.RunsTo (e.await isDone) :=
  runsTo_awaitWithin e.work isDone e

/-- Letting time pass is a run. -/
theorem runsTo_elapse (e : Engine) (span : Nat) : e.RunsTo (e.elapse span) :=
  ((runsTo_await _ e).trans (.act _ (a := .passTo (e.now + span)) rfl)).trans (runsTo_settle _)

end Engine

end OffsetCommit
