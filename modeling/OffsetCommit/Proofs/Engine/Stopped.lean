import OffsetCommit.Proofs.Engine.Callers
import OffsetCommit.Proofs.Engine.Custody
import OffsetCommit.Proofs.Engine.Draining
import OffsetCommit.Proofs.Engine.Turns

/-!
# When a closed engine is quiet

An engine that has stopped is quiet for good: no commit is pending, none gets its turn, and the
broker hears from it no more. To be closed is less: an engine that drains is closed as well, and it
answers every further request at once, although commits may still be under way.

* `isQuiet_of_stopped`: an engine that has stopped `IsQuiet`.
* `IsAtRest.stopped`: at rest a closed engine has stopped.
* `quiet_once_answered`: the answer to a shutdown that was asked of an engine that serves comes no
  sooner than that.
-/

namespace OffsetCommit.Engine

/-! ### Engines that have stopped -/

/-- When the engine has stopped, the only possible moves are `.answer place`. -/
theorem exists_answer_of_stopped {e : Engine} (h : e.Draining) (hstopped : e.stage = .stopped)
    {move : Move} (hpossible : e.isPossible move = true) : ∃ place, move = .answer place := by
  cases move with
  | answer place => exact ⟨place, rfl⟩
  | take =>
      rw [serving_of_isPossible (.inl rfl) hpossible] at hstopped
      cases hstopped
  | hangUp =>
      rw [serving_of_isPossible (.inr rfl) hpossible] at hstopped
      cases hstopped
  | work i =>
      obtain ⟨lane, hi, hcan⟩ := (Option.any_eq_true _ _).mp hpossible
      obtain ⟨crashed, hphase⟩ := Lane.hasEnded_eq_true_iff.mp (h.ended hstopped i lane hi)
      rw [canWork, hphase] at hcan
      cases hcan
  | collect =>
      rw [isPossible, hstopped] at hpossible
      cases hpossible
  | stop =>
      rw [isPossible, hstopped] at hpossible
      cases hpossible

/-- An engine that has stopped changes no account, unless a direct call is answered. -/
theorem account_act_of_stopped {e : Engine} (h : e.Draining) (hstopped : e.stage = .stopped)
    {a : EngineAction} (ha : ∀ place, a ≠ .move (.answer place)) (p : Partition) :
    (e.act a).broker.account p = e.broker.account p := by
  cases a with
  | submit q o count =>
      simp only [act, submit]
      split <;> rfl
  | revoke q =>
      simp only [act, revoke]
      split <;> rfl
  | shutdown =>
      simp only [act, shutdown]
      split <;> rfl
  | dropClients => rfl
  | changeFaults new => rfl
  | call q o => rfl
  | passTo time => rfl
  | move move =>
      rcases hpossible : e.isPossible move with _ | _
      · rw [act_move_of_impossible hpossible]
      · obtain ⟨place, rfl⟩ := exists_answer_of_stopped h hstopped hpossible
        exact absurd rfl (ha place)

/-- Where nothing is pending at any time of a run, nothing gets its turn. -/
theorem begun_eq_nil {e : Engine} {p : Partition} {actions : List EngineAction}
    (h : ∀ earlier later, actions = earlier ++ later → (e.run earlier).pending p = []) :
    e.begun p actions = [] := by
  induction actions generalizing e with
  | nil => rfl
  | cons a rest ih =>
      have hnone : (e.act a).pending p = [] := h [a] rest rfl
      rw [begun, begins_eq_nil fun r hr => ?_, List.nil_append]
      · exact ih fun earlier later hsplit => h (a :: earlier) later (by rw [hsplit]; rfl)
      · have hpending := mem_pending_of_underWay hr
        rw [hnone] at hpending
        cases hpending

/-- An engine that is quiet from now on: whatever `further` actions follow, nothing is pending,
nothing gets its turn, and only direct calls change an account. `isQuiet_of_stopped` shows it of one
that has stopped. -/
structure IsQuiet (e : Engine) : Prop where
  /-- No commit is pending, whatever happens. -/
  pending : ∀ further p, (e.run further).pending p = []
  /-- No commit gets its turn. -/
  begun : ∀ further p, e.begun p further = []
  /-- Only the broker's answers to direct calls change an account. -/
  account : ∀ further a, (∀ place, a ≠ .move (.answer place)) → ∀ p,
    ((e.run further).act a).broker.account p = (e.run further).broker.account p

/-- **An engine that has stopped is quiet for good**: it `IsQuiet`, by `Draining.pending_eq_nil` at
every later time. -/
theorem isQuiet_of_stopped {e : Engine} (hsound : e.Sound) (hclosing : e.Closing)
    (hdraining : e.Draining) (hstopped : e.stage = .stopped) : e.IsQuiet := by
  have hpending : ∀ further p, (e.run further).pending p = [] := fun further =>
    (hdraining.run hsound further).pending_eq_nil (hsound.run further)
      (hclosing.run hsound further) (stopped_of_run hstopped further)
  exact ⟨hpending, fun further p => begun_eq_nil fun earlier _ _ => hpending earlier p,
    fun further a ha =>
      account_act_of_stopped (hdraining.run hsound further) (stopped_of_run hstopped further) ha⟩

/-- An engine with a commit under way is not quiet. -/
theorem not_isQuiet_of_underWay {e : Engine} {p : Partition} {r : Request}
    (hr : r ∈ e.underWay p) : ¬e.IsQuiet := by
  intro hquiet
  have hpending := mem_pending_of_underWay hr
  have hnone : e.pending p = [] := hquiet.pending [] p
  rw [hnone] at hpending
  cases hpending

/-- At rest a closed engine has stopped. -/
theorem IsAtRest.stopped {e : Engine} (h : e.IsAtRest) (hsound : e.Sound) (hclosing : e.Closing)
    (hclosed : e.isClosed = true) : e.stage = .stopped := by
  rcases hstage : e.stage with _ | ⟨caller, awaited⟩ | _
  · rw [isClosed_eq_false_iff.mpr hstage] at hclosed
    cases hclosed
  · exact absurd hstage (h.not_draining hsound hclosing caller awaited)
  · rfl

/-- **Who asks in time is answered when it is quiet.** If the engine `asked` serves, the answer to
the `.shutdown` comes when the stage is `.stopped` and the engine `IsQuiet` for good, and so does
the end of `pl.close`. An engine that does not serve any more answers at once, whether it has
stopped or not. An engine that has stopped `IsQuiet`, and so is one that is closed and at rest. -/
theorem quiet_once_answered (setup : Setup) (broker : Broker) (before after : List EngineAction) :
    let first := start setup broker
    let asked := first.run before
    let e := first.run (before ++ .shutdown :: after)
    (asked.stage = .serving →
      (e.hasReturned asked.callers.size = true → e.stage = .stopped ∧ e.IsQuiet) ∧
      ∀ pl : Pipeline, pl.engine = asked → pl.close.engine.IsQuiet) ∧
    (asked.stage ≠ .serving → (asked.act .shutdown).hasReturned asked.callers.size = true) ∧
    (asked.stage = .stopped → asked.IsQuiet) ∧
    (asked.isClosed = true → asked.IsAtRest → asked.IsQuiet) := by
  intro first asked e
  have hsound : ∀ actions, (first.run actions).Sound := sound_run setup broker
  have hclosing : ∀ actions, (first.run actions).Closing :=
    (closing_start setup broker).run (sound_start setup broker)
  have hquiet : ∀ actions, (first.run actions).stage = .stopped → (first.run actions).IsQuiet :=
    fun actions hstopped => isQuiet_of_stopped (hsound actions) (hclosing actions)
      ((draining_start setup broker).run (sound_start setup broker) actions) hstopped
  refine ⟨fun hserving => ⟨fun hreturned => ?_, fun pl hpl => ?_⟩, hasReturned_shutdown,
    hquiet before,
    fun hclosed hrest => hquiet before (hrest.stopped (hsound before) (hclosing before) hclosed)⟩
  · have hrun : e = (asked.act .shutdown).run after := run_append first _ _
    have hstopped : e.stage = .stopped := by
      rw [hrun] at hreturned ⊢
      exact stopped_of_hasReturned (callers_shutdown hserving) hreturned
    exact ⟨hstopped, hquiet _ hstopped⟩
  · have hstopped : pl.close.engine.stage = .stopped :=
      stopped_of_close (hpl ▸ hsound before) (hpl ▸ hclosing before)
        (hpl ▸ (attended_start setup broker).run before) (hpl ▸ hserving)
    obtain ⟨partitions, further, hclose, -⟩ := exists_close pl
    have hrun : pl.close.engine =
        first.run (before ++ (partitions.map .revoke ++ .shutdown :: further)) := by
      rw [hclose, hpl, run_append, run_append, run_cons]
    rw [hrun] at hstopped ⊢
    exact hquiet _ hstopped

/-- A commit is under way when a shutdown is asked for, and the answer comes when it is decided. A
pipeline on the same engine is closed instead. One who asks later is answered at once, and an engine
whose only client has gone is quiet when it has stopped. -/
theorem quiet_once_answered_while_committing :
    let p : Partition := ⟨"orders", 0⟩
    let take : EngineAction := .move .take
    let work : EngineAction := .move (.work 0)
    let before : List EngineAction := [.submit p (.clamp 1) 1, take, work]
    let after : List EngineAction := [take, work, work, .move .collect, .move .stop]
    let first := start ⟨[], none⟩ (.start 7 .quiet)
    let pl : Pipeline := ⟨⟨.testing, ∅⟩, first.run before, #[]⟩
    let e := first.run (before ++ .shutdown :: after)
    let left := first.run [.dropClients, .move .hangUp, .move .stop]
    (first.run before).underWay p = [⟨0, p, .clamp 1, 1⟩] ∧
      e.hasReturned (first.run before).callers.size = true ∧
      e.broker.history p = [.clamp 1] ∧ e.stage = .stopped ∧ e.IsQuiet ∧
      pl.close.engine.IsQuiet ∧ (e.act .shutdown).hasReturned e.callers.size = true ∧
      left.stage = .stopped ∧ left.IsQuiet := by
  intro p take work before after first pl e left
  have hreturned : e.hasReturned (first.run before).callers.size = true := by decide +kernel
  obtain ⟨hanswered, -⟩ := quiet_once_answered ⟨[], none⟩ (.start 7 .quiet) before after
  obtain ⟨hdone, hclosed⟩ := hanswered (by decide +kernel)
  obtain ⟨hstopped, hquiet⟩ := hdone hreturned
  obtain ⟨-, hlate, -, -⟩ :=
    quiet_once_answered ⟨[], none⟩ (.start 7 .quiet) (before ++ .shutdown :: after) []
  obtain ⟨-, -, -, hrest⟩ :=
    quiet_once_answered ⟨[], none⟩ (.start 7 .quiet) [.dropClients, .move .hangUp, .move .stop] []
  exact ⟨by decide +kernel, hreturned, by decide +kernel, hstopped, hquiet, hclosed pl rfl,
    hlate (by decide +kernel), by decide +kernel,
    hrest (by decide +kernel) ⟨by decide +kernel, by decide +kernel⟩⟩

/-- While the only commit of an engine is under way, the engine is closed and a second shutdown has
been answered; but the commit is decided only later, and not before the first one is answered. -/
theorem closed_while_committing :
    let p : Partition := ⟨"orders", 0⟩
    let actions : List EngineAction :=
      [.submit p (.clamp 1) 1, .move .take, .move (.work 0), .shutdown, .move .take, .shutdown]
    let e := (start ⟨[], none⟩ (.start 42 { Faults.quiet with delay := some 10 })).run actions
    let later := e.run [.passTo 10, .move (.work 0)]
    e.isClosed = true ∧ e.hasReturned 1 = true ∧ e.hasReturned 0 = false ∧
      e.underWay p = [⟨0, p, .clamp 1, 1⟩] ∧
      e.broker.history p = [] ∧ later.broker.history p = [.clamp 1] ∧ ¬e.IsQuiet := by
  intro p actions e later
  have hunder : e.underWay p = [⟨0, p, .clamp 1, 1⟩] := by decide +kernel
  exact ⟨by decide +kernel, by decide +kernel, by decide +kernel, hunder, by decide +kernel,
    by decide +kernel, not_isQuiet_of_underWay (hunder.symm ▸ List.mem_singleton_self _)⟩

end OffsetCommit.Engine
