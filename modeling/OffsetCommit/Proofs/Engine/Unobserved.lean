import OffsetCommit.Proofs.Engine.Congruence
import OffsetCommit.Proofs.Engine.History

/-!
# Without the observer

What the observer does, and what the commit path reports, has no bearing on anything else:
`Engine.unobserved` leaves both out of an engine, and whatever is done to an engine comes to the
same when they are left out before (`IsBlind`).

* `isBlind_make`, `isBlind_settle`: no move looks at the observer, so settling does not.
* `isCongruence_sameUnobserved`: engines that differ in the observer alone go on alike, for all
  actions and for the schedule, at every instant at which it stands still.
-/

namespace OffsetCommit

namespace Engine

/-- The engine `e` without its observer, and without `journal` and `observed`. -/
def unobserved (e : Engine) : Engine :=
  { e with setup := { e.setup with observer := none }, journal := #[], observed := #[] }

/-- Whether `f` comes to the same when the observer is left out before: `f e` and `f e.unobserved`
differ in nothing but what is observed and reported. -/
def IsBlind (f : Engine → Engine) : Prop :=
  ∀ e, (f e).unobserved = (f e.unobserved).unobserved

/-- A blind change leads from engines with the same `unobserved` to such engines. -/
theorem IsBlind.alike {f : Engine → Engine} (h : IsBlind f) {e e' : Engine}
    (he : e.unobserved = e'.unobserved) : (f e).unobserved = (f e').unobserved := by
  rw [h e, he, ← h e']

/-- The composition of two blind changes is blind. -/
theorem IsBlind.comp {f g : Engine → Engine} (hg : IsBlind g) (hf : IsBlind f) :
    IsBlind fun e => g (f e) := by
  intro e
  exact hg.alike (hf e)

/-- Whether a question to an engine is answered alike when the observer is left out. -/
def Overlooks {α : Type} (query : Engine → α) : Prop :=
  ∀ e, query e.unobserved = query e

/-- A query that `Overlooks` the observer is answered alike. -/
theorem Overlooks.alike {α : Type} {query : Engine → α} (h : Overlooks query) {e e' : Engine}
    (he : e.unobserved = e'.unobserved) : query e = query e' := by
  rw [← h e, he, h e']

/-- Issuing a commit is blind. -/
theorem isBlind_submit (p : Partition) (o : Offset) (count : Nat) :
    IsBlind (·.submit p o count) := by
  intro e
  show (e.submit p o count).unobserved = (e.unobserved.submit p o count).unobserved
  unfold submit
  rcases hclosed : e.isClosed with _ | _
  · have hclosed' : e.unobserved.isClosed = false := hclosed
    simp only [hclosed', Bool.false_eq_true, if_false]
    rfl
  · have hclosed' : e.unobserved.isClosed = true := hclosed
    simp only [hclosed', if_true]
    rfl

/-- Revoking a partition is blind. -/
theorem isBlind_revoke (p : Partition) : IsBlind (·.revoke p) := by
  intro e
  show (e.revoke p).unobserved = (e.unobserved.revoke p).unobserved
  unfold revoke
  rcases hclosed : e.isClosed with _ | _
  · have hclosed' : e.unobserved.isClosed = false := hclosed
    simp only [hclosed', Bool.false_eq_true, if_false]
    rfl
  · have hclosed' : e.unobserved.isClosed = true := hclosed
    simp only [hclosed', if_true]
    rfl

/-- Asking for a shutdown is blind. -/
theorem isBlind_shutdown : IsBlind shutdown := by
  intro e
  unfold shutdown
  rcases hclosed : e.isClosed with _ | _
  · have hclosed' : e.unobserved.isClosed = false := hclosed
    simp only [hclosed', Bool.false_eq_true, if_false]
    rfl
  · have hclosed' : e.unobserved.isClosed = true := hclosed
    simp only [hclosed', if_true]
    rfl

/-- Answering a direct call is blind. -/
theorem isBlind_answerCall (place : Nat) : IsBlind (·.answerCall place) := by
  intro e
  show (e.answerCall place).unobserved = (e.unobserved.answerCall place).unobserved
  unfold answerCall
  rcases hcall : e.pendingCalls[place]? with _ | c
  · have hcall' : e.unobserved.pendingCalls[place]? = none := hcall
    rw [hcall']
    rfl
  · have hcall' : e.unobserved.pendingCalls[place]? = some c := hcall
    rw [hcall']
    rfl

/-- Taking a command is blind. -/
theorem isBlind_takeCommand : IsBlind takeCommand := by
  intro e
  unfold takeCommand
  rcases hpop : e.mailbox.pop? with _ | ⟨command, rest⟩
  · have hpop' : e.unobserved.mailbox.pop? = none := hpop
    rw [hpop']
    rfl
  · have hpop' : e.unobserved.mailbox.pop? = some (command, rest) := hpop
    rw [hpop']
    cases command with
    | commit r =>
        simp only [obey, route]
        rcases haccepted : (e.lanes.route r).accepted with _ | _
        · have haccepted' : (e.unobserved.lanes.route r).accepted = false := haccepted
          simp only [haccepted', Bool.false_eq_true, if_false]
          rfl
        · have haccepted' : (e.unobserved.lanes.route r).accepted = true := haccepted
          simp only [haccepted', if_true]
          rfl
    | revoke p => rfl
    | shutdown caller => rfl

/-- The work of a lane is blind: the observer is called, and nothing depends on what it does. -/
theorem isBlind_workLane (i : Nat) : IsBlind (·.workLane i) := by
  intro e
  show (e.workLane i).unobserved = (e.unobserved.workLane i).unobserved
  unfold workLane
  rcases hi : e.lanes.all[i]? with _ | lane
  · have hi' : e.unobserved.lanes.all[i]? = none := hi
    rw [hi']
    rfl
  · have hi' : e.unobserved.lanes.all[i]? = some lane := hi
    rw [hi']
    rcases hphase : lane.phase with k | _ | ⟨r, due⟩ | crashed
    · simp only [hphase]
      rfl
    · simp only [hphase, proceed]
      rcases lane.queue.pop? with _ | ⟨r, rest⟩
      · rfl
      · rfl
    · have hcrashes : e.unobserved.setup.crashesAt = e.setup.crashesAt := rfl
      simp only [hphase, hcrashes]
      split
      · simp only [crash, foldl_abandon_eq]
        rfl
      · have hbroker : e.unobserved.broker = e.broker := rfl
        unfold conclude
        rw [hbroker]
        rcases e.broker.commit lane.partition r.offset with ⟨error | ⟨⟨⟩⟩, broker⟩
        · rfl
        · obtain ⟨journal, observed, heq⟩ :=
            observe_eq ({ e with broker := broker }.setPhase i .ready) lane.partition r
          obtain ⟨journal', observed', heq'⟩ :=
            observe_eq ({ e.unobserved with broker := broker }.setPhase i .ready) lane.partition r
          dsimp only
          rw [heq, heq']
          rfl
    · simp only [hphase]
      rfl

/-- Collecting an ended lane is blind. -/
theorem isBlind_collect : IsBlind collect := by
  intro e
  unfold collect
  rcases hstage : e.stage with _ | ⟨caller, _ | ⟨i, rest⟩⟩ | _
  all_goals
    have hstage' := hstage
    rw [show e.stage = e.unobserved.stage from rfl] at hstage'
    rw [hstage']
    rfl

/-- Ending the loop is blind. -/
theorem isBlind_stop : IsBlind stop := by
  have hdiscard : ∀ command, IsBlind (discard · command) := by
    intro command e
    cases command <;> rfl
  have hfold : ∀ commands : List Command, IsBlind (commands.foldl discard) := by
    intro commands
    induction commands with
    | nil => exact fun _ => rfl
    | cons command rest ih => exact ih.comp (hdiscard command)
  have hrelease : IsBlind releaseCaller := by
    intro e
    unfold releaseCaller
    rcases hstage : e.stage with _ | ⟨_ | caller, awaited⟩ | _
    all_goals
      have hstage' := hstage
      rw [show e.stage = e.unobserved.stage from rfl] at hstage'
      rw [hstage']
      rfl
  intro e
  have htold := hrelease e
  have hleft := (hfold e.releaseCaller.mailbox.toList).alike htold
  have hoverlooked : Overlooks mailbox := fun _ => rfl
  have hmailbox : e.unobserved.releaseCaller.mailbox = e.releaseCaller.mailbox :=
    (hoverlooked.alike htold).symm
  unfold stop
  dsimp only
  rw [hmailbox]
  exact congrArg (fun left : Engine => { left with mailbox := .empty, stage := .stopped }) hleft

/-- No move looks at the observer or at what was reported. -/
theorem isBlind_make (move : Move) : IsBlind (·.make move) := by
  cases move with
  | answer place => exact isBlind_answerCall place
  | take => exact isBlind_takeCommand
  | hangUp => exact fun _ => rfl
  | work i => exact isBlind_workLane i
  | collect => exact isBlind_collect
  | stop => exact isBlind_stop

/-! ### The schedule -/

/-- Making several moves is blind. -/
theorem isBlind_runMoves (fuel : Nat) : IsBlind (runMoves fuel) := by
  intro e
  induction fuel generalizing e with
  | zero => rfl
  | succ fuel ih =>
      have hnext : e.unobserved.next? = e.next? := rfl
      unfold runMoves
      rw [hnext]
      rcases e.next? with _ | move
      · rfl
      · dsimp only
        rw [ih, ih (e.unobserved.make move), isBlind_make move e]

/-- Settling is blind. -/
theorem isBlind_settle : IsBlind settle :=
  fun e => isBlind_runMoves e.work e

/-- Letting time pass is blind. -/
theorem isBlind_passTo (time : Nat) : IsBlind (·.passTo time) := fun _ => rfl

/-- Whether `e` and `e'` differ in their observers and in what was reported alone. It is a
congruence, by `isCongruence_sameUnobserved`. -/
def SameUnobserved (e e' : Engine) : Prop :=
  e.unobserved = e'.unobserved

/-- **The observer has no bearing on anything that shows**: `SameUnobserved` is an `IsCongruence`. -/
theorem isCongruence_sameUnobserved : IsCongruence SameUnobserved where
  face h := (congrArg Engine.face h :)
  act h a ha := by
    cases a with
    | submit p o count => exact (isBlind_submit p o count).alike h
    | revoke p => exact (isBlind_revoke p).alike h
    | shutdown => exact isBlind_shutdown.alike h
    | dropClients => exact (congrArg Engine.dropClients h :)
    | changeFaults new => exact (congrArg (Engine.changeFaults · new) h :)
    | call p o => exact (congrArg (Engine.call · p o) h :)
    | passTo time => exact (isBlind_passTo time).alike h
    | move move => exact absurd rfl (ha move)
  settle h := isBlind_settle.alike h

end Engine

end OffsetCommit
