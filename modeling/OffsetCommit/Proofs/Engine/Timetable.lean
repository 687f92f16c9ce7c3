import Mathlib.Data.Nat.SuccPred
import OffsetCommit.Proofs.Engine.Pace

/-!
# The timetable of a batch

When commits are issued all at one time by an engine that has none, the clock tells at any later
time which of them have ended. They are issued while the engine is `Engine.Issuing`, and from then
on, left alone, it is `Engine.OnTime`. Waiting moves the clock only to times at which a commit is
decided, so the pace is kept.

* `Issuing.make`, `Issuing.submit`, `Issuing.revoke`: no commit ends while a batch is issued, and
  `Issuing.onTime` begins the timetable.
* `OnTime.await`, `OnTime.elapse`: an engine on time stays so while time passes.
* `OnTime.ended_eq`: at any time the first `(e.now - start) / delay` commits of each partition
  have ended.
* `now_close`: closing takes as long as the partition with the most commits.
-/

namespace OffsetCommit.Engine

/-! ### What is kept by settling and waiting -/

/-- What every possible move preserves is preserved by any number of them. -/
theorem runMoves_induction {P : Engine → Prop}
    (hmove : ∀ e move, P e → e.isPossible move = true → P (e.make move)) (fuel : Nat) {e : Engine}
    (h : P e) : P (runMoves fuel e) := by
  induction fuel generalizing e with
  | zero => exact h
  | succ fuel ih =>
      unfold runMoves
      rcases hnext : e.next? with _ | move
      · exact h
      · exact ih (hmove e move h (isPossible_of_next? hnext))

/-- What every possible move preserves is preserved by settling. -/
theorem settle_induction {P : Engine → Prop}
    (hmove : ∀ e move, P e → e.isPossible move = true → P (e.make move)) {e : Engine} (h : P e) :
    P e.settle :=
  runMoves_induction hmove e.work h

/-- What every possible move preserves, and every passing of time to the next decision, is preserved
by waiting, which ends with a settled engine. -/
theorem await_induction {P : Engine → Prop} {isDone : Engine → Bool}
    (hmove : ∀ e move, P e → e.isPossible move = true → P (e.make move))
    (hpass : ∀ e due, P e → e.next? = none → isDone e = false → e.nextDue? = some due →
      P (e.passTo due)) {e : Engine} (h : P e) :
    P (e.await isDone) ∧ (e.await isDone).next? = none := by
  unfold await
  generalize e.work = fuel
  induction fuel generalizing e with
  | zero => exact ⟨settle_induction hmove h, next?_settle e⟩
  | succ fuel ih =>
      have hsettled := settle_induction hmove h
      unfold awaitWithin
      dsimp only
      split
      · exact ⟨hsettled, next?_settle e⟩
      · next hdone =>
          rcases hdue : e.settle.nextDue? with _ | due
          · exact ⟨hsettled, next?_settle e⟩
          · exact ih (hpass _ due hsettled (next?_settle e) (Bool.eq_false_iff.mpr hdone) hdue)

/-- Settling takes no time. -/
theorem now_settle (e : Engine) : e.settle.now = e.now :=
  settle_induction (fun e' move he' _ => (e'.make_frame move).1.trans he') rfl

/-- The times of what is under way are among `dueTimes`. -/
theorem mem_dueTimes_of_terms {e : Engine} {p : Partition} {x : Request × Nat} (hx : x ∈ e.terms p) :
    x.2 ∈ e.dueTimes := by
  obtain ⟨i, lane, hi, -, hterm⟩ := Lanes.mem_terms_iff.mp hx
  refine List.mem_append_right _ (List.mem_filterMap.mpr
    ⟨lane, Array.mem_toList_iff.mpr (Array.mem_of_getElem? hi), ?_⟩)
  rw [Lane.due?, Lane.phase_of_term? hterm]

/-- The time of the next decision is not later than that of anything under way. -/
theorem nextDue?_le {e : Engine} {due : Nat} (h : e.nextDue? = some due) {p : Partition}
    {x : Request × Nat} (hx : x ∈ e.terms p) : due ≤ x.2 :=
  (List.min?_eq_some_iff.mp h).2 _ (mem_dueTimes_of_terms hx)

/-- What is under way in an engine that is idle until `time` is decided later. -/
theorem lt_due_of_isIdleUntil {e : Engine} {time : Nat} (h : isIdleUntil time e = true)
    {p : Partition} {x : Request × Nat} (hx : x ∈ e.terms p) : time < x.2 := by
  rcases hdue : e.nextDue? with _ | due
  · have hmem := mem_dueTimes_of_terms hx
    rw [List.min?_eq_none_iff.mp hdue] at hmem
    cases hmem
  · rw [isIdleUntil, hdue, decide_eq_true_eq] at h
    exact h.trans_le (nextDue?_le hdue hx)

/-- When the broker is not asked directly, the next decision is that of a commit in a lane. -/
theorem exists_of_nextDue? {e : Engine} (hcalls : e.pendingCalls = []) {due : Nat}
    (h : e.nextDue? = some due) : ∃ p, ∃ x ∈ e.terms p, x.2 = due := by
  have hmem := List.min?_mem h
  rw [dueTimes, hcalls, List.map_nil, List.nil_append] at hmem
  obtain ⟨lane, hlane, hdue⟩ := List.mem_filterMap.mp hmem
  obtain ⟨i, hi⟩ := Array.getElem?_of_mem (Array.mem_toList_iff.mp hlane)
  rcases hphase : lane.phase with k | _ | ⟨r, due'⟩ | crashed
  all_goals rw [Lane.due?, hphase] at hdue
  case committing =>
    obtain rfl := Option.some.inj hdue
    refine ⟨lane.partition, (r, due'), Lanes.mem_terms_iff.mpr ⟨i, lane, hi, rfl, ?_⟩, rfl⟩
    rw [Lane.term?, hphase]
  all_goals cases hdue

/-! ### Left alone -/

/-- The invariant of an engine since the commits `fresh p` of each partition `p` were issued at the
time `start`: they are all `Paced`, and the client does not crash on them. `OnTime.await` and
`OnTime.elapse` keep it while time passes. -/
structure OnTime (e : Engine) (start delay : Nat) (fresh : Partition → List Nat) : Prop where
  /-- Commits take the same time. -/
  steady : e.Steady delay
  /-- The client of the broker does not crash on what is pending. -/
  calm : ∀ p, ∀ r ∈ e.pending p, r.offset ∉ e.setup.crashesAt
  /-- The commits of every partition keep the pace. -/
  paced : ∀ p, ∃ done, e.Paced p start delay (fresh p) done

variable {start delay : Nat} {fresh : Partition → List Nat}

/-- Every possible move preserves `OnTime`. -/
theorem OnTime.make {e : Engine} (h : e.OnTime start delay fresh) {move : Move}
    (hpossible : e.isPossible move = true) : (e.make move).OnTime start delay fresh where
  steady := h.steady.make hpossible
  calm p r hr := by
    have hsetup := setup_run h.steady.sound h.steady.ledger [.move move]
    rw [run_cons, run_nil, act_move_of_isPossible hpossible] at hsetup
    rw [hsetup]
    exact h.calm p r (pending_make_subset h.steady.sound h.steady.ledger hpossible p hr)
  paced p := by
    obtain ⟨done, hpaced⟩ := h.paced p
    exact hpaced.make h.steady (fun x hx _ => h.calm p x.1 (mem_pending_of_terms hx)) hpossible

/-- Settling preserves `OnTime`, move by move. -/
theorem OnTime.settle {e : Engine} (h : e.OnTime start delay fresh) :
    e.settle.OnTime start delay fresh :=
  settle_induction (P := fun e' => e'.OnTime start delay fresh)
    (fun _ _ he' hpossible => he'.make hpossible) h

/-- The passing of time preserves `OnTime`, up to the time of the next decision in `e.terms`. -/
theorem OnTime.passTo {e : Engine} (h : e.OnTime start delay fresh) (hsettled : e.next? = none)
    {time : Nat} (htime : ∀ p, ∀ x ∈ e.terms p, time ≤ x.2) :
    (e.passTo time).OnTime start delay fresh where
  steady := h.steady.passTo time
  calm := h.calm
  paced p := by
    obtain ⟨done, hpaced⟩ := h.paced p
    exact ⟨done, hpaced.passTo h.steady hsettled (htime p)⟩

/-- **The timetable**: when an engine on time has settled, the commits of `p` that have ended are
`(fresh p).take ((e.now - start) / delay)`, and each of them was decided. -/
theorem OnTime.ended_eq {e : Engine} (h : e.OnTime start delay fresh) (hsettled : e.next? = none)
    (hpos : 0 < delay) (p : Partition) :
    ((fresh p).filter fun k => (e.status? k).isSome) = (fresh p).take ((e.now - start) / delay) ∧
      ∀ k ∈ (fresh p).take ((e.now - start) / delay), e.isDecided k = true := by
  obtain ⟨done, hpaced⟩ := h.paced p
  have hdone := hpaced.done_eq h.steady hsettled hpos
  exact ⟨(hpaced.filter_ended h.steady.ledger).trans hdone, hdone ▸ hpaced.decided⟩

/-- While an engine on time waits, it stays so, and its clock does not go past `bound`, the latest
decision that is waited for. -/
theorem OnTime.await {e : Engine} (h : e.OnTime start delay fresh) (isDone : Engine → Bool)
    {bound : Nat} (hbound : e.now ≤ bound)
    (hdue : ∀ e' due, e'.OnTime start delay fresh → isDone e' = false → e'.nextDue? = some due →
      due ≤ bound) :
    (e.await isDone).OnTime start delay fresh ∧ (e.await isDone).now ≤ bound ∧
      (e.await isDone).next? = none := by
  let P : Engine → Prop := fun e' => e'.OnTime start delay fresh ∧ e'.now ≤ bound
  have hmove : ∀ e' move, P e' → e'.isPossible move = true → P (e'.make move) :=
    fun e' move he' hpossible => ⟨he'.1.make hpossible, (e'.make_frame move).1.trans_le he'.2⟩
  have hpass : ∀ e' due, P e' → e'.next? = none → isDone e' = false → e'.nextDue? = some due →
      P (e'.passTo due) :=
    fun e' due he' hsettled hnot hnext =>
      ⟨he'.1.passTo hsettled fun _ _ hx => nextDue?_le hnext hx,
        max_le he'.2 (hdue e' due he'.1 hnot hnext)⟩
  obtain ⟨⟨hwaited, hnow⟩, hsettled⟩ := await_induction hmove hpass ⟨h, hbound⟩
  exact ⟨hwaited, hnow, hsettled⟩

/-- An engine on time stays so while time passes, and the clock shows `e.now + span`. -/
theorem OnTime.elapse {e : Engine} (h : e.OnTime start delay fresh) (span : Nat) :
    (e.elapse span).OnTime start delay fresh ∧ (e.elapse span).now = e.now + span := by
  obtain ⟨hwaited, hnow, hsettled⟩ := h.await (isIdleUntil (e.now + span))
    (Nat.le_add_right e.now span) fun e' due _ hbusy hdue => by
      rwa [isIdleUntil, hdue, decide_eq_false_iff_not, Nat.not_lt] at hbusy
  have hidle : isIdleUntil (e.now + span) (e.await (isIdleUntil (e.now + span))) = true := by
    rcases e.isAtRest_await (isIdleUntil (e.now + span)) with hdone | hrest
    · exact hdone
    · rw [isIdleUntil, hrest.2]
  refine ⟨(hwaited.passTo hsettled fun _ _ hx => (lt_due_of_isIdleUntil hidle hx).le).settle, ?_⟩
  exact (now_settle _).trans (max_eq_right hnow)

/-! ### Issuing a batch -/

/-- The invariant of an engine while commits are issued at the time `start`: all of them, those
behind `old p`, are pending, and what is under way is due at `start + delay`. `Issuing.submit` and
`Issuing.revoke` keep it. -/
structure Issuing (e : Engine) (start delay : Nat) (old : Partition → List Nat) : Prop
    extends e.Listening delay where
  /-- The clock has stood still. -/
  now : e.now = start
  /-- The commits that were issued are pending. -/
  issued : ∀ p, e.issued p = old p ++ (e.pending p).map Request.ticket
  /-- Those that are under way have begun when they were issued. -/
  due : ∀ p, ∀ x ∈ e.terms p, x.2 = start + delay

variable {old : Partition → List Nat}

/-- A settled engine that serves and has no pending commits is `Issuing`, from `e.now` on. -/
theorem issuing_of_settled {e : Engine} (hsound : e.Sound) (hl : e.Ledger)
    (hsettled : e.next? = none) (hserving : e.stage = .serving)
    (hpending : ∀ p, e.pending p = []) (hcalls : e.pendingCalls = []) :
    e.Issuing e.now e.commitTime e.issued := by
  have hmailbox : e.mailbox.toList = [] := by
    have hnot := isPossible_eq_false_of_next? hsettled .take
    rw [isPossible, hserving] at hnot
    exact Queue.isEmpty_iff.mp (by simpa using hnot)
  have hclients : e.hasClients = true := by
    have hnot := isPossible_eq_false_of_next? hsettled .hangUp
    rw [isPossible, hserving, Queue.isEmpty_iff.mpr hmailbox] at hnot
    simpa using hnot
  refine ⟨⟨⟨hsound, hl, .of_serving hserving, absurd hserving, fun front c back hsplit => ?_, rfl,
    hcalls⟩, hserving, hclients, fun c hc => ?_⟩, rfl, fun p => ?_, fun p x hx => ?_⟩
  · rw [hmailbox] at hsplit
    simp at hsplit
  · rw [hmailbox] at hc
    cases hc
  · rw [hpending, List.map_nil, List.append_nil]
  · rw [terms_eq_nil_of_pending (hpending p)] at hx
    cases hx

/-- While a batch is issued nothing of it has ended. -/
theorem Issuing.paced {e : Engine} (h : e.Issuing start delay old) (p : Partition) :
    e.Paced p start delay ((e.pending p).map Request.ticket) [] where
  split := rfl
  decided k hk := by cases hk
  due x hx := by
    rw [h.due p x hx, List.length_nil, Nat.zero_add, Nat.one_mul]
  idle _ _ := by
    rw [h.now, List.length_nil, Nat.zero_mul, Nat.add_zero]
  past := by
    rw [h.now, List.length_nil, Nat.zero_mul, Nat.add_zero]
  ahead _ := by
    rw [h.now]
    exact Nat.le_add_right _ _

/-- A possible move of an engine to which commits are issued ends none of them, as they take time
(`0 < delay`). -/
theorem Issuing.make {e : Engine} (h : e.Issuing start delay old) (hpos : 0 < delay) {move : Move}
    (hpossible : e.isPossible move = true) : (e.make move).Issuing start delay old := by
  have hnow' := (e.make_frame move).1.trans h.now
  have hpaced : ∀ p, (e.make move).Paced p start delay ((e.pending p).map Request.ticket) [] := by
    intro p
    have hcalm : ∀ x ∈ e.terms p, x.2 ≤ e.now → x.1.offset ∉ e.setup.crashesAt := by
      intro x hx hle
      rw [h.due p x hx, h.now] at hle
      omega
    obtain ⟨done, hdone⟩ := (h.paced p).make h.steady hcalm hpossible
    have hpast := hdone.past
    rcases done with _ | ⟨k, rest⟩
    · exact hdone
    · -- a commit that has ended would have taken its time
      rw [hnow', List.length_cons, Nat.add_mul, Nat.one_mul] at hpast
      omega
  refine ⟨h.toListening.make hpossible, hnow', fun p => ?_, fun p x hx => ?_⟩
  · have hissued := (h.steady.sound.effect (.move move)).2.issued_eq (q := p) (by simp)
    rw [act_move_of_isPossible hpossible] at hissued
    rw [hissued, h.issued]
    exact congrArg _ (hpaced p).split
  · rw [(hpaced p).due x hx, List.length_nil, Nat.zero_add, Nat.one_mul]

/-- Settling preserves `Issuing`, move by move. -/
theorem Issuing.settle {e : Engine} (h : e.Issuing start delay old) (hpos : 0 < delay) :
    e.settle.Issuing start delay old :=
  settle_induction (P := fun e' => e'.Issuing start delay old)
    (fun _ _ he' hpossible => he'.make hpos hpossible) h

/-- A commit that is issued waits, and none has ended. -/
theorem Issuing.submit {e : Engine} (h : e.Issuing start delay old) (p : Partition) (o : Offset)
    (count : Nat) : (e.submit p o count).Issuing start delay old := by
  have hact := submit_of_serving h.serving p o count
  have hpending : ∀ q, (e.submit p o count).pending q =
      e.pending q ++ if p = q then [⟨e.tickets.size, p, o, count⟩] else [] := by
    intro q
    rw [hact]
    simp only [pending, queued, Queue.toList_push, List.filterMap_append, List.filter_append,
      List.append_assoc, Command.request?, List.filterMap_cons, List.filterMap_nil,
      List.filter_cons, List.filter_nil, decide_eq_true_eq]
  refine ⟨h.toListening.submit p o count, ?_, fun q => ?_, fun q x hx => ?_⟩
  · rw [hact]
    exact h.now
  · rw [issued_submit, hpending, h.issued, List.map_append, List.append_assoc]
    split <;> rfl
  · rw [hact] at hx
    exact h.due q x hx

/-- Revocations leave the issued commits alone. -/
theorem Issuing.revoke {e : Engine} (h : e.Issuing start delay old) (p : Partition) :
    (e.revoke p).Issuing start delay old := by
  have hact := revoke_of_serving h.serving p
  have hquiet := e.quiet_revoke p
  refine ⟨h.toListening.revoke p, ?_, fun q => ?_, fun q x hx => ?_⟩
  · rw [hact]
    exact h.now
  · rw [issued_of_tickets_eq hquiet.tickets, hquiet.pending]
    exact h.issued q
  · rw [hact] at hx
    exact h.due q x hx

/-- Revoking several partitions keeps the engine `Issuing` and leaves what is pending. -/
theorem Issuing.run_revoke {e : Engine} (h : e.Issuing start delay old)
    (partitions : List Partition) : (e.run (partitions.map .revoke)).Issuing start delay old ∧
      ∀ p, (e.run (partitions.map .revoke)).pending p = e.pending p := by
  induction partitions generalizing e with
  | nil => exact ⟨h, fun _ => rfl⟩
  | cons q rest ih =>
      obtain ⟨hrest, hpending⟩ := ih (h.revoke q)
      exact ⟨hrest, fun p => (hpending p).trans ((e.quiet_revoke q).pending p)⟩

/-- No pending commit is an old one: `old p` has only tickets with a status. -/
theorem Issuing.not_mem_old {e : Engine} (h : e.Issuing start delay old) {p : Partition}
    {r : Request} (hr : r ∈ e.pending p) : r.ticket ∉ old p := by
  intro hold
  have hnodup := (e.pairwise_issued p).imp Nat.ne_of_lt
  rw [h.issued, List.pairwise_append] at hnodup
  exact hnodup.2.2 _ hold _ (List.mem_map_of_mem hr) rfl

/-- After a batch the engine is `OnTime`, if the client of the broker crashes on none of it. -/
theorem Issuing.onTime {e : Engine} (h : e.Issuing start delay old)
    (hcalm : ∀ p, ∀ r ∈ e.pending p, r.offset ∉ e.setup.crashesAt) :
    e.OnTime start delay fun p => (e.pending p).map Request.ticket :=
  ⟨h.steady, hcalm, fun p => ⟨[], h.paced p⟩⟩

/-- When a shutdown is asked for, the pending commits are `OnTime`. -/
theorem Issuing.onTime_shutdown {e : Engine} (h : e.Issuing start delay old)
    (hcalm : ∀ p, ∀ r ∈ e.pending p, r.offset ∉ e.setup.crashesAt) :
    e.shutdown.OnTime start delay fun p => (e.pending p).map Request.ticket := by
  have hact := shutdown_of_serving h.serving
  have hpending := e.quiet_shutdown.pending
  refine ⟨h.toListening.shutdown, fun p r hr => ?_,
    fun p => ⟨[], (h.paced p).of_eq (hpending p) ?_ ?_ ?_⟩⟩
  · rw [hact]
    exact hcalm p r (hpending p ▸ hr)
  · rw [hact]
    rfl
  · rw [hact]
  · exact fun k hk => by cases hk

/-! ### Closing after a batch -/

/-- What is decided next is decided no later than `start + bound * delay`, if no partition has more
than `bound` commits. -/
theorem OnTime.nextDue?_le {e : Engine} (h : e.OnTime start delay fresh) {due : Nat}
    (hdue : e.nextDue? = some due) {bound : Nat} (hbound : ∀ p, (fresh p).length ≤ bound) :
    due ≤ start + bound * delay := by
  obtain ⟨p, x, hx, rfl⟩ := exists_of_nextDue? h.steady.calls hdue
  obtain ⟨done, hpaced⟩ := h.paced p
  have hlength := congrArg List.length hpaced.split
  have hpending := List.length_pos_of_mem (mem_pending_of_terms hx)
  have hle := hbound p
  rw [List.length_append, List.length_map] at hlength
  rw [hpaced.due x hx]
  exact Nat.add_le_add_left (Nat.mul_le_mul_right _ (by omega)) _

/-- Some partition has the most pending commits, as only finitely many have any. -/
theorem exists_most_pending {e : Engine} (hl : e.Ledger) :
    ∃ most, IsGreatest (Set.range fun p => (e.pending p).length) most := by
  apply BddAbove.exists_isGreatest_of_nonempty
  · refine ⟨e.tickets.size, ?_⟩
    rintro _ ⟨p, rfl⟩
    -- the tickets of pending commits are different ones
    have hnodup : ((e.pending p).map Request.ticket).Nodup :=
      List.pairwise_map.mpr ((hl.sorted p).imp Nat.ne_of_lt)
    have hsubset : (e.pending p).map Request.ticket ⊆ List.range e.tickets.size := by
      intro k hk
      obtain ⟨r, hr, rfl⟩ := List.mem_map.mp hk
      exact List.mem_range.mpr (hl.lt_size hr)
    have hle := (List.subperm_of_subset hnodup hsubset).length_le
    rwa [List.length_map, List.length_range] at hle
  · exact Set.range_nonempty _

/-- A pipeline that has been closed has no commit left. -/
theorem pending_close {pl : Pipeline} (hsound : pl.engine.Sound) (hclosing : pl.engine.Closing)
    (hattended : pl.engine.Attended) (hdraining : pl.engine.Draining)
    (hserving : pl.engine.stage = .serving) (p : Partition) : pl.close.engine.pending p = [] := by
  have hstopped := stopped_of_close hsound hclosing hattended hserving
  obtain ⟨partitions, further, hclose, -⟩ := exists_close pl
  have hrun : pl.close.engine =
      pl.engine.run (partitions.map .revoke ++ .shutdown :: further) := by
    rw [hclose, run_append]
    rfl
  rw [hrun] at hstopped ⊢
  exact (hdraining.run hsound _).pending_eq_nil (hsound.run _) (hclosing.run hsound _) hstopped p

/-- **Closing takes as long as the partition with the most commits**: the clock shows `start + most
* delay` afterwards. -/
theorem now_close {pl : Pipeline} (h : pl.engine.Issuing start delay old)
    (hcalm : ∀ p, ∀ r ∈ pl.engine.pending p, r.offset ∉ pl.engine.setup.crashesAt)
    (hattended : pl.engine.Attended) (hdraining : pl.engine.Draining) {most : Nat}
    (hmost : IsGreatest (Set.range fun p => (pl.engine.pending p).length) most) :
    pl.close.engine.now = start + most * delay := by
  obtain ⟨partitions, hasked, -⟩ := exists_beginClose pl
  obtain ⟨hrevoked, hpending⟩ := h.run_revoke partitions
  have hsetup := setup_run h.steady.sound h.steady.ledger (partitions.map .revoke)
  have honTime := hrevoked.onTime_shutdown fun p r hr => hsetup ▸ hcalm p r (hpending p ▸ hr)
  have hfresh : (fun p => ((pl.engine.run (partitions.map .revoke)).pending p).map Request.ticket) =
      fun p => (pl.engine.pending p).map Request.ticket := funext fun p => by rw [hpending]
  have hstart : pl.beginClose.2.2.engine.OnTime start delay fun p =>
      (pl.engine.pending p).map Request.ticket := by
    rw [hasked, ← hfresh]
    exact honTime
  have hnow : pl.beginClose.2.2.engine.now = start := by
    rw [hasked, act, shutdown_of_serving hrevoked.serving]
    exact hrevoked.now
  have hbound : ∀ p, ((pl.engine.pending p).map Request.ticket).length ≤ most := fun p => by
    rw [List.length_map]
    exact hmost.2 ⟨p, rfl⟩
  obtain ⟨hclosed, hle, -⟩ := hstart.await (fun e => e.hasReturned pl.beginClose.1)
    (hnow.le.trans (Nat.le_add_right start (most * delay)))
    fun e' due he' _ hdue => he'.nextDue?_le hdue hbound
  have hlast : start + most * delay ≤ pl.close.engine.now := by
    obtain ⟨p, rfl⟩ := hmost.1
    obtain ⟨done, hpaced⟩ : ∃ done, pl.close.engine.Paced p start delay
        ((pl.engine.pending p).map Request.ticket) done := hclosed.paced p
    have hall := congrArg List.length hpaced.split
    have hnone := pending_close h.steady.sound h.steady.closing hattended hdraining h.serving p
    rw [hnone, List.map_nil, List.append_nil, List.length_map] at hall
    show start + (pl.engine.pending p).length * delay ≤ _
    rw [hall]
    exact hpaced.past
  exact Nat.le_antisymm hle hlast

end OffsetCommit.Engine
