import OffsetCommit.Pipeline
import OffsetCommit.Proofs.Engine.Delivery
import OffsetCommit.Proofs.Engine.Rest

/-!
# Those who ask for a shutdown

Whoever asks an engine that serves for a shutdown is answered when the loop ends, and not before.
Until then the request waits in the mailbox, or it is the one that made the loop drain. An engine
that does not serve answers at once.

* `Attended.run`: along every run, the callers without an answer are just those in the mailbox and
  the one for whom the loop drains.
* `stopped_of_hasReturned`: a caller who waits is answered only when the engine has stopped.
* `hasReturned_close`: closing a pipeline ends with the answer, and then the engine has stopped
  (`stopped_of_close`).
-/

namespace OffsetCommit.Engine

/-- The invariant of the callers of `shutdown`: one without an answer has its request in the
mailbox, or the loop is `.draining` for it. `Attended.run` keeps it. -/
structure Attended (e : Engine) : Prop where
  /-- They are those whose requests wait in the mailbox, and the one for whom the loop drains. -/
  waiting : ∀ c : Nat, e.callers[c]? = some false ↔
    .shutdown c ∈ e.mailbox.toList ∨ ∃ awaited, e.stage = .draining (some c) awaited

/-- At the start nobody has asked. -/
theorem attended_start (setup : Setup) (broker : Broker) : (start setup broker).Attended :=
  ⟨fun c => by simp [start, Queue.empty, Queue.toList]⟩

/-- A caller `c` whose request waits in the mailbox is known: `c < e.callers.size`. -/
theorem Attended.lt_size {e : Engine} (h : e.Attended) {c : Nat}
    (hc : .shutdown c ∈ e.mailbox.toList) : c < e.callers.size :=
  (Array.getElem?_eq_some_iff.mp ((h.waiting c).mpr (.inl hc))).1

/-- The property `Attended` carries over to an engine with the same callers whose mailbox holds the
same shutdown requests and which drains for the same caller. -/
theorem Attended.of_eq {e e' : Engine} (h : e.Attended) (hcallers : e'.callers = e.callers)
    (hmailbox : ∀ c, .shutdown c ∈ e'.mailbox.toList ↔ .shutdown c ∈ e.mailbox.toList)
    (hstage : ∀ c awaited, e'.stage = .draining (some c) awaited →
      ∃ awaited', e.stage = .draining (some c) awaited')
    (hback : ∀ c awaited, e.stage = .draining (some c) awaited →
      ∃ awaited', e'.stage = .draining (some c) awaited') : e'.Attended where
  waiting c := by
    rw [hcallers, h.waiting, hmailbox]
    exact or_congr .rfl ⟨fun ⟨_, hc⟩ => hback c _ hc, fun ⟨_, hc⟩ => hstage c _ hc⟩

/-- Releasing `caller` answers this caller and no other. -/
theorem callers_release (e : Engine) (caller c : Nat) : (e.release caller).callers[c]? =
    if caller = c then e.callers[c]?.map fun _ => true else e.callers[c]? :=
  Array.getElem?_modify

/-- Discarding commands answers those who asked by them: the callers `c` with `.shutdown c ∈
commands`. -/
theorem callers_foldl_discard (e : Engine) (commands : List Command) (c : Nat) :
    (commands.foldl discard e).callers[c]? =
      if .shutdown c ∈ commands then e.callers[c]?.map fun _ => true else e.callers[c]? := by
  induction commands generalizing e with
  | nil => rfl
  | cons command rest ih =>
      rw [List.foldl_cons, ih]
      cases command with
      | commit r => simp [discard, abandon, finish]
      | revoke p => simp [discard]
      | shutdown caller =>
          rw [discard, callers_release]
          by_cases hc : caller = c
          · subst hc
            simp
          · simp [hc, Ne.symm hc]

/-- The callers after `stop`: those in the mailbox are answered, and the one for whom the loop has
drained (`releaseCaller`). -/
theorem callers_stop (e : Engine) (c : Nat) : e.stop.callers[c]? =
    if .shutdown c ∈ e.mailbox.toList then e.releaseCaller.callers[c]?.map fun _ => true
    else e.releaseCaller.callers[c]? := by
  have hmailbox : e.releaseCaller.mailbox = e.mailbox := by
    unfold releaseCaller
    split <;> rfl
  rw [stop, report, hmailbox, callers_foldl_discard]

/-- When the loop ends everyone who waits is answered, so nobody waits at `e.stop`. -/
theorem Attended.stop {e : Engine} (h : e.Attended) : e.stop.Attended := by
  have hstopped : e.stop.stage = .stopped := rfl
  have hempty : e.stop.mailbox.toList = [] := rfl
  refine ⟨fun c => ⟨fun hc => ?_, fun hc => ?_⟩⟩
  · exfalso
    rw [callers_stop] at hc
    split at hc
    · simp at hc
    · next hnot =>
        -- the caller is not in the mailbox, so the loop drains for them and tells them
        unfold releaseCaller at hc
        split at hc
        · next caller awaited hstage =>
            rw [callers_release] at hc
            split at hc
            · simp at hc
            · next hne =>
                rcases (h.waiting c).mp hc with hmail | ⟨awaited', hdraining⟩
                · exact hnot hmail
                · rw [hstage] at hdraining
                  exact hne (Option.some.inj (Stage.draining.inj hdraining).1)
        · next hstage =>
            rcases (h.waiting c).mp hc with hmail | ⟨awaited, hdraining⟩
            · exact hnot hmail
            · exact hstage c awaited hdraining
  · rcases hc with hmail | ⟨awaited, hdraining⟩
    · rw [hempty] at hmail
      cases hmail
    · rw [hstopped] at hdraining
      cases hdraining

/-- A change that keeps `callers`, `stage` and the shutdown requests of the mailbox preserves
`Attended`, whatever it does to lanes and tickets. -/
theorem Attended.of_lanes {e e' : Engine} (h : e.Attended) (hcallers : e'.callers = e.callers)
    (hstage : e'.stage = e.stage)
    (hmailbox : ∀ c, .shutdown c ∈ e'.mailbox.toList ↔ .shutdown c ∈ e.mailbox.toList) :
    e'.Attended :=
  h.of_eq hcallers hmailbox (fun _ awaited hc => ⟨awaited, hstage ▸ hc⟩)
    fun _ awaited hc => ⟨awaited, hstage ▸ hc⟩

/-- A new caller of an engine that serves waits in the mailbox, and one of an engine that does not
is answered at once. -/
theorem Attended.shutdown {e : Engine} (h : e.Attended) : e.shutdown.Attended := by
  have hnew : .shutdown e.callers.size ∉ e.mailbox.toList := fun hmem =>
    Nat.lt_irrefl _ (h.lt_size hmem)
  unfold Engine.shutdown
  rcases hclosed : e.isClosed with _ | _
  · have hserving := isClosed_eq_false_iff.mp hclosed
    refine ⟨fun c => ?_⟩
    simp only [Bool.false_eq_true, if_false, Array.getElem?_push, Queue.toList_push,
      List.mem_append, List.mem_singleton, Command.shutdown.injEq, hserving, reduceCtorEq,
      exists_const, or_false]
    split
    · next hc => simp [hc]
    · next hc =>
        have hwait := h.waiting c
        simp only [hserving, reduceCtorEq, exists_const, or_false] at hwait
        simp [hwait, hc]
  · refine ⟨fun c => ?_⟩
    simp only [if_true, Array.getElem?_push]
    split
    · next hc =>
        subst hc
        have hwait := h.waiting e.callers.size
        simpa using hwait
    · exact h.waiting c

/-- A shutdown request that the loop takes leaves the mailbox and becomes the one for which it
drains. -/
theorem Attended.takeCommand {e : Engine} (h : e.Attended) (hpossible : e.isPossible .take = true) :
    e.takeCommand.Attended := by
  have hserving := serving_of_isPossible (.inl rfl) hpossible
  obtain ⟨command, rest, hpop, hmail, -⟩ := exists_command hpossible
  simp only [Engine.takeCommand, hpop]
  cases command with
  | commit r =>
      have hmailbox : ∀ c, .shutdown c ∈ rest.toList ↔ .shutdown c ∈ e.mailbox.toList := by
        simp [hmail]
      simp only [obey, route]
      split <;> exact h.of_lanes rfl rfl hmailbox
  | revoke p =>
      refine h.of_lanes rfl rfl fun c => ?_
      rw [hmail]
      simp [obey, report]
  | shutdown caller =>
      refine ⟨fun c => (h.waiting c).trans ?_⟩
      rw [hmail, hserving]
      simp [obey, beginDrain, eq_comm, or_comm]

/-- Every possible move preserves `Attended`. -/
theorem Attended.make {e : Engine} (h : e.Attended) {move : Move}
    (hpossible : e.isPossible move = true) : (e.make move).Attended := by
  cases move with
  | answer place =>
      show (e.answerCall place).Attended
      unfold answerCall
      split
      · exact h
      · exact h.of_lanes rfl rfl fun _ => .rfl
  | take => exact h.takeCommand hpossible
  | hangUp =>
      have hserving := serving_of_isPossible (.inr rfl) hpossible
      refine h.of_eq rfl (fun _ => .rfl) (fun c awaited hc => ?_) fun c awaited hc => ?_
      · cases hc
      · rw [hserving] at hc
        cases hc
  | work lane =>
      obtain ⟨hstage, hmailbox, hcallers, -⟩ := e.workLane_frame lane
      exact h.of_lanes hcallers hstage fun c => by rw [Engine.make, hmailbox]
  | collect =>
      show e.collect.Attended
      unfold collect
      split
      · next caller i rest hstage =>
          refine h.of_eq rfl (fun _ => .rfl) (fun c awaited hc => ?_) fun c awaited hc => ?_
          · exact ⟨i :: rest, hstage.trans (by rw [(Stage.draining.inj hc).1])⟩
          · rw [hstage] at hc
            exact ⟨rest, by rw [(Stage.draining.inj hc).1]; rfl⟩
      · exact h
  | stop => exact h.stop

/-- Every action preserves `Attended`. -/
theorem Attended.act {e : Engine} (h : e.Attended) (a : EngineAction) : (e.act a).Attended := by
  cases a with
  | submit p o count =>
      simp only [Engine.act, submit]
      split
      · exact h.of_lanes rfl rfl fun _ => .rfl
      · exact h.of_lanes rfl rfl fun c => by simp [Queue.toList_push]
  | revoke p =>
      simp only [Engine.act, revoke]
      split
      · exact h
      · exact h.of_lanes rfl rfl fun c => by simp [Queue.toList_push]
  | shutdown => exact h.shutdown
  | dropClients => exact h.of_lanes rfl rfl fun _ => .rfl
  | changeFaults new => exact h.of_lanes rfl rfl fun _ => .rfl
  | call p o => exact h.of_lanes rfl rfl fun _ => .rfl
  | passTo time => exact h.of_lanes rfl rfl fun _ => .rfl
  | move move =>
      rcases hpossible : e.isPossible move with _ | _
      · rwa [act_move_of_impossible hpossible]
      · rw [act_move_of_isPossible hpossible]
        exact h.make hpossible

/-- Every run preserves `Attended`. -/
theorem Attended.run {e : Engine} (h : e.Attended) (actions : List EngineAction) :
    (e.run actions).Attended := by
  induction actions generalizing e with
  | nil => exact h
  | cons a rest ih => exact ih (h.act a)

/-! ### When a caller is answered -/

/-- An engine that has stopped stays stopped under every action. -/
theorem stopped_of_act {e : Engine} (h : e.stage = .stopped) (a : EngineAction) :
    (e.act a).stage = .stopped := by
  by_cases hmove : ∃ move, a = .move move
  · obtain ⟨move, rfl⟩ := hmove
    rcases hpossible : e.isPossible move with _ | _
    · rw [act_move_of_impossible hpossible, h]
    rw [act_move_of_isPossible hpossible]
    cases move with
    | answer place =>
        simp only [make, answerCall]
        split <;> exact h
    | take => exact absurd (h.symm.trans (serving_of_isPossible (.inl rfl) hpossible)) (by simp)
    | hangUp => exact absurd (h.symm.trans (serving_of_isPossible (.inr rfl) hpossible)) (by simp)
    | work lane => exact (e.workLane_frame lane).1.trans h
    | collect =>
        rw [isPossible, h] at hpossible
        cases hpossible
    | stop => rfl
  · rw [(lanes_stage_act fun move heq => hmove ⟨move, heq⟩).2, h]

/-- An engine that has stopped stays stopped along every run. -/
theorem stopped_of_run {e : Engine} (h : e.stage = .stopped) (actions : List EngineAction) :
    (e.run actions).stage = .stopped := by
  induction actions generalizing e with
  | nil => exact h
  | cons a rest ih => exact ih (stopped_of_act h a)

/-- No possible move but `.stop` answers a caller. -/
theorem callers_make {e : Engine} {move : Move} (hpossible : e.isPossible move = true)
    (hmove : move ≠ .stop) : (e.make move).callers = e.callers := by
  cases move with
  | answer place =>
      simp only [make, answerCall]
      split <;> rfl
  | take =>
      obtain ⟨command, rest, hpop, -, -⟩ := exists_command hpossible
      simp only [make, takeCommand, hpop]
      cases command with
      | commit r =>
          simp only [obey, route]
          split <;> rfl
      | revoke p => rfl
      | shutdown caller => rfl
  | hangUp => rfl
  | work lane => exact (e.workLane_frame lane).2.2.1
  | collect =>
      simp only [make, collect]
      split <;> rfl
  | stop => exact absurd rfl hmove

/-- When the loop ends an entry `callers[c]?` stays as it is, or it becomes `some true`. -/
theorem callers_stop_cases {e : Engine} {c : Nat} {b : Bool} (hc : e.callers[c]? = some b) :
    e.stop.callers[c]? = some b ∨ e.stop.callers[c]? = some true := by
  have hreleased : e.releaseCaller.callers[c]? = some b ∨
      e.releaseCaller.callers[c]? = some true := by
    unfold releaseCaller
    split
    · rw [callers_release, hc]
      split
      · exact .inr rfl
      · exact .inl rfl
    · exact .inl hc
  rw [callers_stop]
  split
  · rcases hreleased with hreleased | hreleased
    · rw [hreleased]
      exact .inr rfl
    · rw [hreleased]
      exact .inr rfl
  · exact hreleased

/-- An entry `callers[c]?` stays as it is, or it becomes `some true` by an action that stops the
engine. -/
theorem callers_act {e : Engine} {c : Nat} {b : Bool} (hc : e.callers[c]? = some b)
    (a : EngineAction) : (e.act a).callers[c]? = some b ∨
      (e.act a).callers[c]? = some true ∧ (e.act a).stage = .stopped := by
  cases a with
  | submit p o count =>
      simp only [act, submit]
      split <;> exact .inl hc
  | revoke p =>
      simp only [act, revoke]
      split <;> exact .inl hc
  | shutdown =>
      have hpush : ∀ b', (e.callers.push b')[c]? = some b := fun b' => by
        rw [Array.getElem?_push, if_neg (Array.getElem?_eq_some_iff.mp hc).1.ne, hc]
      simp only [act, shutdown]
      split <;> exact .inl (hpush _)
  | dropClients => exact .inl hc
  | changeFaults new => exact .inl hc
  | call p o => exact .inl hc
  | passTo time => exact .inl hc
  | move move =>
      rcases hpossible : e.isPossible move with _ | _
      · rw [act_move_of_impossible hpossible]
        exact .inl hc
      rw [act_move_of_isPossible hpossible]
      by_cases hmove : move = .stop
      · subst hmove
        exact (callers_stop_cases hc).imp_right fun htrue => ⟨htrue, rfl⟩
      · rw [callers_make hpossible hmove]
        exact .inl hc

/-- The same along a run: the entry is what it was, or it is `some true` and the engine has stopped. -/
theorem callers_run {e : Engine} {c : Nat} {b : Bool} (hc : e.callers[c]? = some b)
    (actions : List EngineAction) : (e.run actions).callers[c]? = some b ∨
      (e.run actions).callers[c]? = some true ∧ (e.run actions).stage = .stopped := by
  induction actions generalizing e b with
  | nil => exact .inl hc
  | cons a rest ih =>
      rcases callers_act hc a with hsame | ⟨htrue, hstopped⟩
      · exact ih hsame
      · have hstays := stopped_of_run hstopped rest
        rcases ih htrue with hsame | hdone
        · exact .inr ⟨hsame, hstays⟩
        · exact .inr hdone

/-- **A caller who waits is answered only when the engine has stopped**: from `callers[c]? = some
false`, `hasReturned c` after a run gives `stage = .stopped`. -/
theorem stopped_of_hasReturned {e : Engine} {c : Nat} (hc : e.callers[c]? = some false)
    {actions : List EngineAction} (hreturned : (e.run actions).hasReturned c = true) :
    (e.run actions).stage = .stopped := by
  rcases callers_run hc actions with hwaits | ⟨-, hstopped⟩
  · rw [hasReturned, hwaits] at hreturned
    cases hreturned
  · exact hstopped

/-- With an empty mailbox and no draining loop, `hasReturned c` holds of every caller. -/
theorem Attended.hasReturned {e : Engine} (h : e.Attended) (hmailbox : e.mailbox.toList = [])
    (hstage : ∀ caller awaited, e.stage ≠ .draining caller awaited) {c : Nat}
    (hc : c < e.callers.size) : e.hasReturned c = true := by
  have hget : e.callers[c]? = some e.callers[c] := Array.getElem?_eq_getElem hc
  rw [Engine.hasReturned, hget, Option.getD_some]
  by_contra hne
  rw [Bool.not_eq_true] at hne
  rw [hne, h.waiting, hmailbox] at hget
  rcases hget with hmem | ⟨awaited, hdraining⟩
  · cases hmem
  · exact hstage _ _ hdraining

/-! ### Waiting for the answer -/

/-- Whoever asks an engine for a shutdown and awaits `hasReturned c` gets it: waiting does not end
without it. -/
theorem hasReturned_await {e : Engine} (hsound : e.Sound) (hclosing : e.Closing)
    (hattended : e.Attended) {c : Nat} (hc : c < e.callers.size) :
    (e.await fun e => e.hasReturned c).hasReturned c = true := by
  rcases e.isAtRest_await fun e => e.hasReturned c with hdone | hrest
  · exact hdone
  · obtain ⟨further, -, hawait⟩ := e.runsTo_await fun e => e.hasReturned c
    rw [hawait] at hrest ⊢
    have hknown : c < (e.run further).callers.size := by
      have hget : e.callers[c]? = some e.callers[c] := Array.getElem?_eq_getElem hc
      rcases callers_run hget further with hsame | ⟨htrue, -⟩
      · exact (Array.getElem?_eq_some_iff.mp hsame).1
      · exact (Array.getElem?_eq_some_iff.mp htrue).1
    have hclosing' := hclosing.run hsound further
    exact (hattended.run further).hasReturned (hrest.mailbox_eq_nil (hsound.run further) hclosing')
      (hrest.not_draining (hsound.run further) hclosing') hknown

/-- Asking for a shutdown adds a caller. -/
theorem lt_size_shutdown (e : Engine) : e.callers.size < e.shutdown.callers.size := by
  unfold shutdown
  dsimp only
  split
  all_goals
    rw [Array.size_push]
    exact Nat.lt_succ_self _

/-- To begin to close a pipeline is to revoke its partitions and then to ask for a shutdown, as the
newest caller. -/
theorem exists_beginClose (pl : Pipeline) : ∃ partitions : List Partition,
    pl.beginClose.2.2.engine = (pl.engine.run (partitions.map .revoke)).act .shutdown ∧
      pl.beginClose.1 = (pl.engine.run (partitions.map .revoke)).callers.size := by
  refine ⟨pl.coordinator.tracked, ?_⟩
  have hrevoked : pl.engine.run (pl.coordinator.tracked.map .revoke) =
      pl.coordinator.tracked.foldl Engine.revoke pl.engine := List.foldl_map
  rw [hrevoked]
  exact ⟨rfl, rfl⟩

/-- **Closing a pipeline ends with the answer** to the shutdown that `beginClose` asks for. -/
theorem hasReturned_close {pl : Pipeline} (hsound : pl.engine.Sound) (hclosing : pl.engine.Closing)
    (hattended : pl.engine.Attended) : pl.close.engine.hasReturned pl.beginClose.1 = true := by
  obtain ⟨partitions, hengine, hcaller⟩ := exists_beginClose pl
  have hasked : pl.beginClose.2.2.engine =
      pl.engine.run (partitions.map .revoke ++ [.shutdown]) := by
    rw [hengine, run_append]
    rfl
  have hc : pl.beginClose.1 < pl.beginClose.2.2.engine.callers.size := by
    rw [hcaller, hengine]
    exact lt_size_shutdown _
  show (pl.beginClose.2.2.engine.await fun e => e.hasReturned pl.beginClose.1).hasReturned _ = true
  rw [hasked] at hc ⊢
  exact hasReturned_await (hsound.run _) (hclosing.run hsound _) (hattended.run _) hc

/-- Who asks an engine that serves has not been answered yet. -/
theorem callers_shutdown {e : Engine} (h : e.stage = .serving) :
    (e.act .shutdown).callers[e.callers.size]? = some false := by
  simp [act, shutdown, isClosed_eq_false_iff.mpr h]

/-- Who asks an engine that does not serve is answered at once. -/
theorem hasReturned_shutdown {e : Engine} (h : e.stage ≠ .serving) :
    (e.act .shutdown).hasReturned e.callers.size = true := by
  have hclosed : e.isClosed = true := by
    rw [← Bool.not_eq_false, isClosed_eq_false_iff]
    exact h
  simp [act, shutdown, hclosed, hasReturned]

/-- Revocations leave `stage` alone. -/
theorem stage_run_revoke (e : Engine) (partitions : List Partition) :
    (e.run (partitions.map .revoke)).stage = e.stage := by
  induction partitions generalizing e with
  | nil => rfl
  | cons p rest ih => exact (ih (e.act (.revoke p))).trans (lanes_stage_act (by simp)).2

/-- Closing a pipeline makes a run of its engine: revocations, a shutdown, and the moves by which it
is awaited. -/
theorem exists_close (pl : Pipeline) : ∃ (partitions : List Partition) (further : List EngineAction),
    pl.close.engine = ((pl.engine.run (partitions.map .revoke)).act .shutdown).run further ∧
      pl.beginClose.1 = (pl.engine.run (partitions.map .revoke)).callers.size := by
  obtain ⟨partitions, hengine, hcaller⟩ := exists_beginClose pl
  obtain ⟨further, -, hawait⟩ :=
    pl.beginClose.2.2.engine.runsTo_await fun e => e.hasReturned pl.beginClose.1
  refine ⟨partitions, further, ?_, hcaller⟩
  rw [← hengine]
  exact hawait

/-- **Closing a pipeline whose engine serves ends when the engine has stopped**: by
`hasReturned_close` the caller has been answered, and `stopped_of_hasReturned` says what that means. -/
theorem stopped_of_close {pl : Pipeline} (hsound : pl.engine.Sound) (hclosing : pl.engine.Closing)
    (hattended : pl.engine.Attended) (hserving : pl.engine.stage = .serving) :
    pl.close.engine.stage = .stopped := by
  have hreturned := hasReturned_close hsound hclosing hattended
  obtain ⟨partitions, further, hclose, hcaller⟩ := exists_close pl
  have hserved : (pl.engine.run (partitions.map .revoke)).stage = .serving :=
    (stage_run_revoke _ _).trans hserving
  rw [hclose] at hreturned ⊢
  exact stopped_of_hasReturned (hcaller ▸ callers_shutdown hserved) hreturned

end OffsetCommit.Engine
