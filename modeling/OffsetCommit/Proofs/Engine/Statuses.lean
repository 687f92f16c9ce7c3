import OffsetCommit.Proofs.Engine.Draining
import OffsetCommit.Proofs.Engine.History

/-!
# Statuses tell the truth

As long as the broker is asked for commits by lanes alone, statuses and accounts say the same.

* `dealing_act`: the broker changes only as it decides a commit or with its settings (`Dealing`),
  so a commit that was given up has left no trace.
* `statuses_are_true`: a commit ends at most once and with a status of its own, the accounts of
  `Recorded` follow from the statuses, and when the engine has stopped no commit is left open.

Whether anyone waits for a status makes no difference.
-/

namespace OffsetCommit.Engine

/-- What an action means to the broker while no direct call is made or pending: nothing, other
settings, or the decision of one commit, whose status says just what the broker answers.
`dealing_act` shows that every such action does one of these. -/
inductive Dealing (e : Engine) (a : EngineAction) (e' : Engine) : Prop where
  /-- The broker has nothing to do with it. -/
  | untouched (broker : e'.broker = e.broker)
  /-- The settings of the broker change, and no status does. -/
  | settings (new : FaultsChange) (action : a = .changeFaults new)
      (broker : e'.broker = e.broker.changeFaults new) (tickets : e'.tickets = e.tickets)
  /-- The broker decides a commit without a status, which ends with just this decision, and no
  other status changes. -/
  | decided (r : Request)
      (ticket : e.tickets[r.ticket]? = some ⟨r.partition, r.offset, r.count, none⟩)
      (broker : e'.broker = (e.broker.commit r.partition r.offset).2)
      (tickets : e'.tickets =
        (e.finish r.ticket (r.verdict (e.broker.commit r.partition r.offset).1)).tickets)

/-- Taking a command is nothing to the broker. -/
theorem broker_takeCommand (e : Engine) : e.takeCommand.broker = e.broker := by
  unfold takeCommand
  rcases e.mailbox.pop? with _ | ⟨command, rest⟩
  · rfl
  cases command with
  | commit r =>
      simp only [obey, route]
      split <;> rfl
  | revoke p => rfl
  | shutdown caller => rfl

/-- The work of a lane changes the broker by one decision at most, which is entered on the ticket. -/
theorem dealing_workLane {e : Engine} (h : e.Sound) (hl : e.Ledger) (i : Nat) (a : EngineAction) :
    e.Dealing a (e.workLane i) := by
  unfold workLane
  rcases hi : e.lanes.all[i]? with _ | lane
  · exact .untouched rfl
  · rcases hphase : lane.phase with k | _ | ⟨r, due⟩ | crashed
    · simp only [hphase]
      exact .untouched rfl
    · simp only [hphase, proceed]
      split
      · exact .untouched rfl
      · exact .untouched rfl
    · simp only [hphase]
      split
      · rw [crash, foldl_abandon_eq]
        exact .untouched rfl
      · obtain ⟨hp, hpending⟩ := h.mem_pending_of_committing hi hphase List.mem_cons_self
        obtain ⟨journal, observed, heq⟩ := e.conclude_eq i lane r
        rw [heq, ← hp]
        exact .decided r (hl.ticket _ r hpending) rfl rfl
    · simp only [hphase]
      exact .untouched rfl

/-- **The broker changes by its decisions and its settings alone**: `e.Dealing a (e.act a)`, unless
it is asked directly. -/
theorem dealing_act {e : Engine} (h : e.Sound) (hl : e.Ledger) (hcalls : e.pendingCalls = [])
    {a : EngineAction} (ha : ∀ q o, a ≠ .call q o) : e.Dealing a (e.act a) := by
  cases a with
  | submit p o count =>
      simp only [act, submit]
      split
      · exact .untouched rfl
      · exact .untouched rfl
  | revoke p =>
      simp only [act, revoke]
      split
      · exact .untouched rfl
      · exact .untouched rfl
  | shutdown =>
      simp only [act, shutdown]
      split
      · exact .untouched rfl
      · exact .untouched rfl
  | dropClients => exact .untouched rfl
  | changeFaults new => exact .settings new rfl rfl rfl
  | call p o => exact absurd rfl (ha p o)
  | passTo time => exact .untouched rfl
  | move move =>
      rw [act, perform]
      split
      · next hpossible =>
          cases move with
          | answer place =>
              rw [isPossible, hcalls] at hpossible
              cases hpossible
          | take => exact .untouched e.broker_takeCommand
          | hangUp => exact .untouched rfl
          | work lane => exact dealing_workLane h hl lane _
          | collect =>
              refine .untouched ?_
              show e.collect.broker = _
              unfold collect
              split <;> rfl
          | stop =>
              obtain ⟨callers, heq⟩ := e.stop_eq
              refine .untouched ?_
              show e.stop.broker = _
              rw [heq]
              rfl
      · exact .untouched rfl

/-- When `Recorded p` holds of every partition, no direct call is open. -/
theorem pendingCalls_eq_nil_of_recorded {e : Engine} (h : ∀ p, e.Recorded p) :
    e.pendingCalls = [] := by
  rw [List.eq_nil_iff_forall_not_mem]
  intro c hc
  exact (h c.partition).uncalled c hc rfl

/-- **Statuses tell the truth, and each commit ends once.** As long as no action is a `.call`: a
status that `status?` gives stays for good; the tickets are those of the commits that clients
issued, in the order of issue, and a status `IsAbout` what its ticket asks for; `broker.history p`
is the `stored?` of `e.issued p`, `broker.committed p` its last entry, and `broker.failures p` the
number of rejections; the broker changes only as it decides a commit or with its settings
(`Dealing`), so a commit that was given up has changed nothing; and once the engine has stopped
every commit has a status. -/
theorem statuses_are_true (setup : Setup) (seed : UInt64) (faults : Faults)
    {actions : List EngineAction} (hactions : ∀ a ∈ actions, ∀ q o, a ≠ .call q o) :
    let first := start setup (.start seed faults)
    let e := first.run actions
    (∀ further k s, e.status? k = some s → (e.run further).status? k = some s) ∧
      e.tickets.toList.map Ticket.asks = actions.filterMap EngineAction.commit? ∧
      (∀ (k : Nat) (t : Ticket) (s : Status), e.tickets[k]? = some t → t.status = some s →
        s.IsAbout t.offset t.count) ∧
      (∀ p, e.broker.history p = (e.issued p).filterMap e.stored? ∧
        e.broker.committed p = (e.broker.history p).getLast? ∧
        e.broker.failures p = ((e.issued p).filterMap (e.shown Status.rejection?)).length) ∧
      (∀ earlier a later, actions = earlier ++ a :: later →
        (first.run earlier).Dealing a (first.run (earlier ++ [a]))) ∧
      (e.stage = .stopped → ∀ k < e.tickets.size, (e.status? k).isSome = true) := by
  intro first e
  have hsound : first.Sound := sound_start setup _
  have hledger : first.Ledger := ledger_start setup _
  have hrecorded : ∀ {run : List EngineAction}, (∀ a ∈ run, ∀ q o, a ≠ .call q o) →
      ∀ p, (first.run run).Recorded p := fun hrun p =>
    (recorded_start setup seed faults p).run hledger hsound fun a ha o => hrun a ha p o
  have hl : e.Ledger := hledger.run hsound actions
  refine ⟨fun further k s hs => hl.status?_run (hsound.run actions) further hs,
    asks_run hsound actions, hl.isAbout, fun p => ?_, fun earlier a later hsplit => ?_,
    fun hstopped k hk => ?_⟩
  · have h := hrecorded hactions p
    exact ⟨h.history, h.committed, h.failures⟩
  · rw [hsplit] at hactions
    have hearlier : ∀ b ∈ earlier, ∀ q o, b ≠ .call q o := fun b hb =>
      hactions b (List.mem_append_left _ hb)
    have ha : ∀ q o, a ≠ .call q o := hactions a (List.mem_append_right _ List.mem_cons_self)
    rw [run_append]
    exact dealing_act (hsound.run earlier) (hledger.run hsound earlier)
      (pendingCalls_eq_nil_of_recorded (hrecorded hearlier)) ha
  · have hclosing : e.Closing := (closing_start setup _).run hsound actions
    have hdraining : e.Draining := (draining_start setup _).run hsound actions
    have ht : e.tickets[k]? = some e.tickets[k] := Array.getElem?_eq_getElem hk
    rw [status?_of_getElem? ht, Option.isSome_iff_ne_none]
    intro hnone
    -- without a status the commit would be pending, and a stopped engine has nothing pending
    obtain ⟨r, hr, -⟩ := hl.pending k _ ht hnone
    rw [hdraining.pending_eq_nil (hsound.run actions) hclosing hstopped] at hr
    cases hr

/-- One commit goes through, one is rejected, one brings the client down with another behind it,
and one comes too late for the shutdown. -/
theorem statuses_are_true_through_crash :
    let p : Partition := ⟨"orders", 0⟩
    let commit : Nat → EngineAction := fun n => .submit p (.clamp n) 1
    let work : EngineAction := .move (.work 0)
    let actions : List EngineAction :=
      [commit 4, .move .take, work, work, .changeFaults ⟨none, some true, none⟩, commit 5, commit 6,
        commit 7, .shutdown, .move .take, .move .take, .move .take, .move .take, work, work, work,
        commit 8, work, .move .collect, .move .stop]
    let e := (start ⟨[.clamp 6], none⟩ (.start 7 .quiet)).run actions
    (∀ a ∈ actions, ∀ q o, a ≠ .call q o) ∧ e.stage = .stopped ∧
      e.broker.history p = [.clamp 4] ∧ e.broker.committed p = some (.clamp 4) ∧
      e.broker.failures p = 1 ∧ (∀ k < e.tickets.size, (e.status? k).isSome = true) := by
  intro p commit work actions e
  have hactions : ∀ a ∈ actions, ∀ q o, a ≠ .call q o := by
    simp [actions, commit, work]
  have hstopped : e.stage = .stopped := by decide +kernel
  have hstored : (e.issued p).filterMap e.stored? = [.clamp 4] := by decide +kernel
  have hrejected : ((e.issued p).filterMap (e.shown Status.rejection?)).length = 1 := by
    decide +kernel
  obtain ⟨-, -, -, haccount, -, hcomplete⟩ :=
    statuses_are_true ⟨[.clamp 6], none⟩ 7 .quiet hactions
  obtain ⟨hhistory, hcommitted, hfailures⟩ := haccount p
  rw [hstored] at hhistory
  rw [hhistory] at hcommitted
  rw [hrejected] at hfailures
  exact ⟨hactions, hstopped, hhistory, hcommitted, hfailures, hcomplete hstopped⟩

end OffsetCommit.Engine
