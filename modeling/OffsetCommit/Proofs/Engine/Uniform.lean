import OffsetCommit.Proofs.Engine.Timetable

/-!
# Engines whose commits all end alike

When the rate of the broker decides by itself whether commits are rejected (`settledByRate?`), and
the client does not crash, all commits end in the same way: every one goes through, or every one is
rejected. This is `Engine.Uniform`, for commits that take no time besides.

* `Steady.ruling_make`: a move gives no commit up (`Ruling`).
* `Uniform.make`, `Uniform.run`: moves and runs preserve `Uniform`.
* `Uniform.isAtRest`, `Uniform.exists_move`: nothing has to be waited for, and the engine can move
  as long as a commit is pending.
-/

namespace OffsetCommit

/-! ### The broker's decisions -/

/-- Unless the next commit is to be rejected by order, a commit leaves the settings alone. -/
theorem Broker.faults_commit {b : Broker} (h : b.faults.force = false) (p : Partition)
    (o : Offset) : (b.commit p o).2.faults = b.faults := by
  have hnext : b.decideNext.2.faults = b.faults := by
    unfold decideNext
    rw [h, if_neg Bool.false_ne_true]
    split <;> rfl
  unfold commit
  rcases hfault : b.decideNext.1 with _ | fault
  · simp only [hfault, update, hnext]
  · simp only [hfault, update, hnext]

/-- A rate that decides by itself decides every commit: the verdict `isCommitted` unless it rejects. -/
theorem Request.isCommitted_verdict {b : Broker} {rejects : Bool} (hforce : b.faults.force = false)
    (hrate : settledByRate? b.faults.rate = some rejects) (r : Request) :
    (r.verdict (b.commit r.partition r.offset).1).isCommitted = !rejects := by
  have hnext : b.decideNext = (if rejects then some .random else none, b) := by
    rw [Broker.decideNext, hforce, hrate]
    rfl
  rw [Broker.commit, hnext]
  cases rejects <;> rfl

namespace Engine

/-- What a move means to the broker and the tickets when no commit is given up: nothing, or one
commit ends with what `Broker.commit` answers. -/
inductive Ruling (e e' : Engine) : Prop where
  /-- No commit ends. -/
  | silent (broker : e'.broker = e.broker) (tickets : e'.tickets = e.tickets)
  /-- The broker decides a commit, which ends with the decision. -/
  | decided (r : Request) (broker : e'.broker = (e.broker.commit r.partition r.offset).2)
      (tickets : e'.tickets =
        (e.finish r.ticket (r.verdict (e.broker.commit r.partition r.offset).1)).tickets)

/-- **A steady engine whose client does not crash gives no commit up**: every possible move is a
`Ruling`. -/
theorem Steady.ruling_make {e : Engine} {delay : Nat} (h : e.Steady delay)
    (hharmless : e.setup.crashesAt = []) {move : Move} (hpossible : e.isPossible move = true) :
    e.Ruling (e.make move) := by
  cases move with
  | answer place =>
      rw [isPossible, h.calls] at hpossible
      cases hpossible
  | take =>
      have hserving := serving_of_isPossible (.inl rfl) hpossible
      obtain ⟨command, rest, hpop, -⟩ := exists_command hpossible
      simp only [Engine.make, takeCommand, hpop]
      cases command with
      | commit r =>
          have haccepted := (Lanes.route_spec h.sound.wellFormed (h.sound.tended hserving) r).1
          simp only [obey, route, haccepted, if_true]
          exact .silent rfl rfl
      | revoke p => exact .silent rfl rfl
      | shutdown caller => exact .silent rfl rfl
  | hangUp => exact .silent rfl rfl
  | work i =>
      simp only [Engine.make, workLane]
      rcases hi : e.lanes.all[i]? with _ | lane
      · exact .silent rfl rfl
      rcases hphase : lane.phase with k | _ | ⟨r, due⟩ | crashed
      · simp only [hphase]
        exact .silent rfl rfl
      · simp only [hphase, proceed]
        split <;> exact .silent rfl rfl
      · obtain ⟨-, -, -, hown⟩ := h.sound.of_committing hi hphase
        obtain ⟨journal, observed, heq⟩ := e.conclude_eq i lane r
        simp only [hphase, hharmless, List.not_mem_nil, if_false]
        rw [heq, ← hown r List.mem_cons_self]
        exact .decided r rfl rfl
      · simp only [hphase]
        exact .silent rfl rfl
  | collect =>
      simp only [Engine.make, collect]
      split <;> exact .silent rfl rfl
  | stop =>
      obtain ⟨callers, heq⟩ := e.stop_eq
      have hclosed : e.stage ≠ .serving := fun hserving => by
        rw [isPossible, hserving] at hpossible
        cases hpossible
      rw [Engine.make, heq, h.emptied hclosed]
      exact .silent rfl rfl

/-! ### The invariant -/

/-- The invariant of an engine whose commits take no time and are all rejected, or all stored, as
`rejects` says. `Uniform.run` keeps it. -/
structure Uniform (e : Engine) (rejects : Bool) : Prop extends e.Steady 0 where
  /-- The client does not crash. -/
  harmless : e.setup.crashesAt = []
  /-- No commit is rejected out of turn. -/
  unforced : e.broker.faults.force = false
  /-- The rate decides by itself. -/
  rate : settledByRate? e.broker.faults.rate = some rejects
  /-- What is under way is due. -/
  due : ∀ p, ∀ x ∈ e.terms p, x.2 ≤ e.now
  /-- All commits that have ended have ended alike. -/
  alike : ∀ k s, e.status? k = some s → s.isCommitted = !rejects

variable {e : Engine} {rejects : Bool}

/-- At the start nothing has ended. -/
theorem uniform_start {setup : Setup} {seed : UInt64} {faults : Faults}
    (hharmless : setup.crashesAt = []) (hforce : faults.force = false)
    (hdelay : faults.delay = none) (hrate : settledByRate? faults.rate = some rejects) :
    (start setup (.start seed faults)).Uniform rejects where
  sound := sound_start setup _
  ledger := ledger_start setup _
  closing := closing_start setup _
  emptied hstage := absurd rfl hstage
  last front c back hsplit := by simp [start] at hsplit
  commitTime := by
    show faults.delay.getD 0 = 0
    rw [hdelay]
    rfl
  calls := rfl
  harmless := hharmless
  unforced := hforce
  rate := hrate
  due p x hx := by cases hx
  alike k s hs := by simp [start, status?] at hs

/-- Nothing about commits changes with the clock or with what is posted. -/
theorem Uniform.of_eq {e' : Engine} (h : e.Uniform rejects) (hsteady : e'.Steady 0)
    (hsetup : e'.setup = e.setup) (hfaults : e'.broker.faults = e.broker.faults)
    (hlanes : e'.lanes = e.lanes) (hnow : e.now ≤ e'.now)
    (halike : ∀ k s, e'.status? k = some s → e.status? k = some s) : e'.Uniform rejects where
  toSteady := hsteady
  harmless := hsetup ▸ h.harmless
  unforced := hfaults ▸ h.unforced
  rate := hfaults ▸ h.rate
  due p x hx := by
    rw [terms, hlanes] at hx
    exact (h.due p x hx).trans hnow
  alike k s hs := h.alike k s (halike k s hs)

/-- **A move keeps all commits alike**: the decision that it brings is that of the rate. -/
theorem Uniform.make (h : e.Uniform rejects) {move : Move} (hpossible : e.isPossible move = true) :
    (e.make move).Uniform rejects := by
  obtain ⟨hnow, -⟩ := e.make_frame move
  have hsetup : (e.make move).setup = e.setup := by
    rw [← act_move_of_isPossible hpossible]
    exact setup_run h.sound h.ledger [.move move]
  have hruling := h.toSteady.ruling_make h.harmless hpossible
  have hfaults : (e.make move).broker.faults = e.broker.faults := by
    cases hruling with
    | silent broker => rw [broker]
    | decided r broker => rw [broker, Broker.faults_commit h.unforced]
  refine ⟨h.toSteady.make hpossible, hsetup ▸ h.harmless, hfaults ▸ h.unforced, hfaults ▸ h.rate,
    fun p x hx => ?_, fun k s hs => ?_⟩
  · rw [hnow]
    cases beat_make h.sound h.ledger hpossible p with
    | stays _ terms => exact h.due p x (terms ▸ hx)
    | begins r _ _ _ _ terms =>
        rw [terms] at hx
        rw [List.mem_singleton.mp hx, h.commitTime]
        exact Nat.le_refl _
    | ends _ _ _ _ _ _ terms =>
        rw [terms] at hx
        cases hx
    | crashes _ _ _ _ crash =>
        rw [h.harmless] at crash
        cases crash
    | discards closed mailbox => exact absurd (h.emptied closed) mailbox
  · cases hruling with
    | silent _ tickets =>
        rw [status?, tickets] at hs
        exact h.alike k s hs
    | decided r _ tickets =>
        rw [status?, tickets, finish, Array.getElem?_modify] at hs
        split at hs
        · obtain ⟨t, ht, hstatus⟩ := Option.bind_eq_some_iff.mp hs
          obtain ⟨old, -, rfl⟩ := Option.map_eq_some_iff.mp ht
          obtain rfl := Option.some.inj hstatus
          exact r.isCommitted_verdict h.unforced h.rate
        · exact h.alike k s hs

/-- Time may pass, as what is under way is due already. -/
theorem Uniform.passTo (h : e.Uniform rejects) (time : Nat) : (e.passTo time).Uniform rejects :=
  h.of_eq (h.toSteady.passTo time) rfl rfl rfl (Nat.le_max_left _ _) fun _ _ hs => hs

/-- What an engine does by itself preserves `Uniform`. -/
theorem Uniform.act (h : e.Uniform rejects) {a : EngineAction} (ha : a.isInternal = true) :
    (e.act a).Uniform rejects := by
  cases a with
  | passTo time => exact h.passTo time
  | move move =>
      rw [Engine.act, perform]
      split
      · next hpossible => exact h.make hpossible
      · exact h
  | _ => cases ha

/-- Every run of internal actions preserves `Uniform`. -/
theorem Uniform.run (h : e.Uniform rejects) {actions : List EngineAction}
    (hactions : ∀ a ∈ actions, a.isInternal = true) : (e.run actions).Uniform rejects := by
  induction actions generalizing e with
  | nil => exact h
  | cons a rest ih =>
      obtain ⟨ha, hrest⟩ := List.forall_mem_cons.mp hactions
      exact ih (h.act ha) hrest

/-! ### Commands -/

/-- A commit that is issued to a listening engine waits. -/
theorem Uniform.submit (h : e.Uniform rejects) (hlistening : e.Listening 0) (p : Partition)
    (o : Offset) (count : Nat) : (e.submit p o count).Uniform rejects := by
  have hsteady := (hlistening.submit p o count).steady
  have hact := submit_of_serving hlistening.serving p o count
  rw [hact] at hsteady ⊢
  refine h.of_eq hsteady rfl rfl rfl le_rfl fun k s hs => ?_
  simp only [status?, Array.getElem?_push] at hs
  split at hs
  · cases hs
  · exact hs

/-- Revoking a partition preserves `Uniform`. -/
theorem Uniform.revoke (h : e.Uniform rejects) (hlistening : e.Listening 0) (p : Partition) :
    (e.revoke p).Uniform rejects := by
  have hsteady := (hlistening.revoke p).steady
  have hact := revoke_of_serving hlistening.serving p
  rw [hact] at hsteady ⊢
  exact h.of_eq hsteady rfl rfl rfl le_rfl fun _ _ hs => hs

/-- Asking for a shutdown preserves `Uniform`. -/
theorem Uniform.shutdown (h : e.Uniform rejects) (hlistening : e.Listening 0) :
    e.shutdown.Uniform rejects := by
  have hsteady := hlistening.shutdown
  have hact := shutdown_of_serving hlistening.serving
  rw [hact] at hsteady ⊢
  exact h.of_eq hsteady rfl rfl rfl le_rfl fun _ _ hs => hs

/-! ### Nothing has to be waited for -/

/-- **When no move is possible the engine is at rest**: nothing is under way that time would bring
to an end. -/
theorem Uniform.isAtRest (h : e.Uniform rejects) (hsettled : e.next? = none) : e.IsAtRest := by
  refine ⟨hsettled, ?_⟩
  rcases hdue : e.nextDue? with _ | due
  · rfl
  · obtain ⟨p, x, hx, -⟩ := exists_of_nextDue? h.calls hdue
    exact absurd (h.due p x hx) (Nat.not_le.mpr (lt_due_of_settled hsettled hx))

/-- As long as a commit has no status, the engine can move. -/
theorem Uniform.exists_move (h : e.Uniform rejects) {k : Nat} (hk : k < e.tickets.size)
    (hstatus : e.status? k = none) : ∃ move, e.isPossible move = true := by
  have hticket := Array.getElem?_eq_getElem hk
  rw [status?_of_getElem? hticket] at hstatus
  obtain ⟨r, hr, -⟩ := h.ledger.pending k _ hticket hstatus
  rcases hnext : e.next? with _ | move
  · rw [(h.isAtRest hnext).pending_eq_nil h.sound h.closing] at hr
    cases hr
  · exact ⟨move, isPossible_of_next? hnext⟩

/-- As long as a caller waits, the engine can move. -/
theorem Uniform.exists_move_of_caller (h : e.Uniform rejects) (hattended : e.Attended) {c : Nat}
    (hc : c < e.callers.size) (hwaits : e.hasReturned c = false) :
    ∃ move, e.isPossible move = true := by
  rcases hnext : e.next? with _ | move
  · have hrest := h.isAtRest hnext
    have hreturned := hattended.hasReturned (hrest.mailbox_eq_nil h.sound h.closing)
      (hrest.not_draining h.sound h.closing) hc
    rw [hreturned] at hwaits
    cases hwaits
  · exact ⟨move, isPossible_of_next? hnext⟩

end Engine

end OffsetCommit
