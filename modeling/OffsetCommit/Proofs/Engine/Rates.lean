import OffsetCommit.Proofs.Broker.Rates
import OffsetCommit.Proofs.Engine.Asked

/-!
# Raising the rate only adds failures

Two engines that differ in the rate of their brokers go on in lockstep (`Engine.Raises`). What a
broker decides shows in its accounts, in the statuses and in what is reported, and neither the lanes
nor the loop look at any of these.

* `Broker.Raises.answer`: a commit that fails at the lower rate fails at the higher one.
* `Raises.act`, `Raises.run`: whatever is done to both, the engines stay in lockstep and their
  brokers are asked the same (`Raises.asks_eq`).
* `raising_rate_adds_failures`: what that means for answers, statuses, histories and counted
  failures.
-/

namespace OffsetCommit

/-! ### What may differ -/

/-- How an answer of the broker can differ where more commits are rejected. -/
def AnswerWorsens (answer answer' : Except Error Unit) : Prop :=
  answer' = answer ∨ answer = .ok () ∧ ∃ error, answer' = .error error

/-- How a status can differ where more commits are rejected: a commit can have failed that went through
otherwise. -/
def StatusWorsens (status status' : Option Status) : Prop :=
  status' = status ∨
    ∃ o count message, status = some (.committed o count) ∧ status' = some (.failed o message)

/-- How a ticket can differ where more commits are rejected. -/
structure Ticket.Worsens (t t' : Ticket) : Prop where
  /-- It is for the same commit. -/
  asks : t'.asks = t.asks
  /-- The commit may have failed. -/
  status : StatusWorsens t.status t'.status

/-- How a direct call can differ where more commits are rejected. -/
structure DirectCall.Worsens (c c' : DirectCall) : Prop where
  /-- It is about the same partition. -/
  partition : c'.partition = c.partition
  /-- It is about the same offset. -/
  offset : c'.offset = c.offset
  /-- It has been answered in both cases or in neither, and it may have failed. -/
  answer : c'.answer = c.answer ∨
    ∃ answer answer', c.answer = some answer ∧ c'.answer = some answer' ∧ AnswerWorsens answer answer'

/-- Two arrays of the same size whose elements are related by `R` place by place. -/
structure Matched {α : Type} (R : α → α → Prop) (xs ys : Array α) : Prop where
  /-- They have the same size. -/
  size : ys.size = xs.size
  /-- Their elements are related. -/
  related : ∀ (k : Nat) (x y : α), xs[k]? = some x → ys[k]? = some y → R x y

section Matched

variable {α : Type} {R : α → α → Prop} {xs ys : Array α}

/-- Pushing related elements keeps arrays matched. -/
theorem Matched.push (h : Matched R xs ys) {x y : α} (hxy : R x y) :
    Matched R (xs.push x) (ys.push y) where
  size := by rw [Array.size_push, Array.size_push, h.size]
  related k a b ha hb := by
    rw [Array.getElem?_push] at ha hb
    rw [h.size] at hb
    split at ha
    · next hk =>
        rw [if_pos hk] at hb
        cases ha
        cases hb
        exact hxy
    · next hk =>
        rw [if_neg hk] at hb
        exact h.related k a b ha hb

/-- Modifying both at one place, by functions that keep elements related, keeps arrays matched. -/
theorem Matched.modify (h : Matched R xs ys) {f g : α → α} (hfg : ∀ x y, R x y → R (f x) (g y))
    (i : Nat) : Matched R (xs.modify i f) (ys.modify i g) where
  size := by rw [Array.size_modify, Array.size_modify, h.size]
  related k a b ha hb := by
    rw [Array.getElem?_modify] at ha hb
    split at ha
    · next hk =>
        rw [if_pos hk] at hb
        obtain ⟨x, hx, rfl⟩ := Option.map_eq_some_iff.mp ha
        obtain ⟨y, hy, rfl⟩ := Option.map_eq_some_iff.mp hb
        exact hfg x y (h.related k x y hx hy)
    · next hk =>
        rw [if_neg hk] at hb
        exact h.related k a b ha hb

end Matched

/-- What one broker rejects is rejected by one with a higher rate: its answer is the same, or it is
an error where the other's is `.ok ()`. -/
theorem Broker.Raises.answer {b b' : Broker} (h : b.Raises b') (p : Partition) (o : Offset) :
    AnswerWorsens (b.commit p o).1 (b'.commit p o).1 := by
  rw [Broker.commit_eq, Broker.commit_eq]
  rcases h.decideNext with hsame | ⟨hnone, hsome⟩
  · rw [hsame]
    exact .inl rfl
  · rw [hnone, hsome]
    exact .inr ⟨rfl, _, rfl⟩

/-- Where an answer worsens, so does the status that it leads to. -/
theorem AnswerWorsens.verdict {answer answer' : Except Error Unit} (h : AnswerWorsens answer answer')
    (r : Request) : StatusWorsens (some (r.verdict answer)) (some (r.verdict answer')) := by
  rcases h with rfl | ⟨rfl, error, rfl⟩
  · exact .inl rfl
  · exact .inr ⟨r.offset, r.count, error.message, rfl, rfl⟩

/-- A commit that ends in both cases, with statuses that are related by `StatusWorsens`, keeps
tickets matched. -/
theorem Matched.finish {tickets tickets' : Array Ticket} (h : Matched Ticket.Worsens tickets tickets')
    (ticket : Nat) {status status' : Status} (hstatus : StatusWorsens (some status) (some status')) :
    Matched Ticket.Worsens
      (tickets.modify ticket fun t => { t with status := some status })
      (tickets'.modify ticket fun t => { t with status := some status' }) := by
  refine h.modify ?_ ticket
  intro t t' ht
  exact ⟨ht.asks, hstatus⟩

/-- A direct call that is answered in both cases, with answers that are related by `AnswerWorsens`,
keeps calls matched. -/
theorem Matched.answer {calls calls' : Array DirectCall} (h : Matched DirectCall.Worsens calls calls')
    (call : Nat) {answer answer' : Except Error Unit} (hanswer : AnswerWorsens answer answer') :
    Matched DirectCall.Worsens
      (calls.modify call fun c => { c with answer := some answer })
      (calls'.modify call fun c => { c with answer := some answer' }) := by
  refine h.modify ?_ call
  intro c c' hc
  exact ⟨hc.partition, hc.offset, .inr ⟨answer, answer', rfl, rfl, hanswer⟩⟩

/-- What the decisions of the broker show in. -/
structure Decisions where
  /-- The broker. -/
  broker : Broker
  /-- The issued commits with their statuses. -/
  tickets : Array Ticket
  /-- The direct calls with their answers. -/
  calls : Array DirectCall
  /-- What has been reported. -/
  journal : Array CommitEvent
  /-- What the observer has noted. -/
  observed : Array Nat

namespace Engine

/-- What the decisions of the broker show in: its accounts, the tickets, the direct calls, the
journal and what was observed. -/
def decisions (e : Engine) : Decisions :=
  ⟨e.broker, e.tickets, e.calls, e.journal, e.observed⟩

/-- The engine `e` if the broker had decided otherwise, with `x` in place of `e.decisions`. -/
def withDecisions (e : Engine) (x : Decisions) : Engine :=
  { e with
    broker := x.broker
    tickets := x.tickets
    calls := x.calls
    journal := x.journal
    observed := x.observed }

section

-- What moves are made of does not depend on what the broker decides.
variable (e : Engine) (x : Decisions)

/-- Whether commands are refused does not depend on the decisions. -/
@[simp] theorem isClosed_withDecisions : (e.withDecisions x).isClosed = e.isClosed := rfl

/-- The setup does not depend on the decisions. -/
@[simp] theorem setup_withDecisions : (e.withDecisions x).setup = e.setup := rfl

/-- The stage does not depend on the decisions. -/
@[simp] theorem stage_withDecisions : (e.withDecisions x).stage = e.stage := rfl

/-- The mailbox does not depend on the decisions. -/
@[simp] theorem mailbox_withDecisions : (e.withDecisions x).mailbox = e.mailbox := rfl

/-- The lanes do not depend on the decisions. -/
@[simp] theorem lanes_withDecisions : (e.withDecisions x).lanes = e.lanes := rfl

/-- Which direct calls are pending does not depend on the decisions. -/
@[simp] theorem pendingCalls_withDecisions :
    (e.withDecisions x).pendingCalls = e.pendingCalls := rfl

end

/-- Two engines in lockstep, the broker of `e'` with a higher rate: apart from their `decisions`
they are the same, and each commit ends alike in both or has failed in `e'` alone. `Raises.run`
keeps this. -/
structure Raises (e e' : Engine) : Prop where
  /-- Everything is the same but for what the decisions show in. -/
  same : e' = e.withDecisions e'.decisions
  /-- The brokers have the same seed and the same settings up to the rate. -/
  broker : e.broker.Raises e'.broker
  /-- More commits may have failed. -/
  tickets : Matched Ticket.Worsens e.tickets e'.tickets
  /-- So may direct calls. -/
  calls : Matched DirectCall.Worsens e.calls e'.calls

variable {e e' : Engine}

/-- The second engine is the first with other decisions `x`, which have a broker with a higher rate
and worse statuses and answers. -/
theorem Raises.exists_eq (h : e.Raises e') :
    ∃ x, e' = e.withDecisions x ∧ e.broker.Raises x.broker ∧
      Matched Ticket.Worsens e.tickets x.tickets ∧ Matched DirectCall.Worsens e.calls x.calls :=
  ⟨e'.decisions, h.same, h.broker, h.tickets, h.calls⟩

/-- Both brokers are asked the same: `asks` looks at lanes, calls and `setup` alone. -/
theorem Raises.asks_eq (h : e.Raises e') (a : EngineAction) : e'.asks a = e.asks a := by
  obtain ⟨x, rfl, -⟩ := h.exists_eq
  cases a with
  | move move => cases move <;> rfl
  | _ => rfl

/-! ### What clients do -/

/-- Issuing a commit keeps the engines in lockstep. -/
theorem Raises.submit (h : e.Raises e') (p : Partition) (o : Offset) (count : Nat) :
    (e.submit p o count).Raises (e'.submit p o count) := by
  obtain ⟨x, rfl, hbroker, htickets, hcalls⟩ := h.exists_eq
  have hsize : (e.withDecisions x).tickets.size = e.tickets.size := htickets.size
  unfold Engine.submit
  simp only [isClosed_withDecisions, hsize]
  split
  · exact ⟨rfl, hbroker, htickets.push ⟨rfl, .inl rfl⟩, hcalls⟩
  · exact ⟨rfl, hbroker, htickets.push ⟨rfl, .inl rfl⟩, hcalls⟩

/-- Revoking a partition keeps them in lockstep. -/
theorem Raises.revoke (h : e.Raises e') (p : Partition) : (e.revoke p).Raises (e'.revoke p) := by
  obtain ⟨x, rfl, hbroker, htickets, hcalls⟩ := h.exists_eq
  unfold Engine.revoke
  by_cases hclosed : e.isClosed = true
  · rw [if_pos hclosed, if_pos ((e.isClosed_withDecisions x).trans hclosed)]
    exact h
  · rw [if_neg hclosed, if_neg (e.isClosed_withDecisions x ▸ hclosed)]
    exact ⟨rfl, hbroker, htickets, hcalls⟩

/-- Asking for a shutdown keeps them in lockstep. -/
theorem Raises.shutdown (h : e.Raises e') : e.shutdown.Raises e'.shutdown := by
  obtain ⟨x, rfl, hbroker, htickets, hcalls⟩ := h.exists_eq
  unfold Engine.shutdown
  dsimp only
  by_cases hclosed : e.isClosed = true
  · rw [if_pos hclosed, if_pos ((e.isClosed_withDecisions x).trans hclosed)]
    exact ⟨rfl, hbroker, htickets, hcalls⟩
  · rw [if_neg hclosed, if_neg (e.isClosed_withDecisions x ▸ hclosed)]
    exact ⟨rfl, hbroker, htickets, hcalls⟩

/-- Commits take the same time in both, as the delays are the same. -/
theorem Raises.dueFromNow_eq (h : e.Raises e') : e'.dueFromNow = e.dueFromNow := by
  obtain ⟨x, rfl, hbroker, -⟩ := h.exists_eq
  show e.now + x.broker.faults.delay.getD 0 = _
  rw [hbroker.faults.delay]
  rfl

/-- A direct call keeps them in lockstep. -/
theorem Raises.call (h : e.Raises e') (p : Partition) (o : Offset) :
    (e.call p o).Raises (e'.call p o) := by
  have hdue := h.dueFromNow_eq
  obtain ⟨x, rfl, hbroker, htickets, hcalls⟩ := h.exists_eq
  have hsize : (e.withDecisions x).calls.size = e.calls.size := hcalls.size
  unfold Engine.call
  rw [hdue, hsize]
  exact ⟨rfl, hbroker, htickets, hcalls.push ⟨rfl, rfl, .inl rfl⟩⟩

/-! ### What the parts of the engine do -/

/-- Giving a request up keeps them in lockstep. -/
theorem Raises.abandon (h : e.Raises e') (r : Request) : (e.abandon r).Raises (e'.abandon r) := by
  obtain ⟨x, rfl, hbroker, htickets, hcalls⟩ := h.exists_eq
  exact ⟨rfl, hbroker, htickets.finish r.ticket (.inl rfl), hcalls⟩

/-- Changing a lane keeps them in lockstep. -/
theorem Raises.modifyLane (h : e.Raises e') (i : Nat) (f : Lane → Lane) :
    (e.modifyLane i f).Raises (e'.modifyLane i f) := by
  obtain ⟨x, rfl, hbroker, htickets, hcalls⟩ := h.exists_eq
  exact ⟨rfl, hbroker, htickets, hcalls⟩

/-- Giving requests up, one after the other, keeps them in lockstep. -/
theorem Raises.foldl_abandon (h : e.Raises e') (rs : List Request) :
    (rs.foldl Engine.abandon e).Raises (rs.foldl Engine.abandon e') := by
  induction rs generalizing e e' with
  | nil => exact h
  | cons r rest ih => exact ih (h.abandon r)

/-- Answering a caller keeps them in lockstep. -/
theorem Raises.release (h : e.Raises e') (caller : Nat) :
    (e.release caller).Raises (e'.release caller) := by
  obtain ⟨x, rfl, hbroker, htickets, hcalls⟩ := h.exists_eq
  exact ⟨rfl, hbroker, htickets, hcalls⟩

/-- Discarding commands keeps them in lockstep. -/
theorem Raises.foldl_discard (h : e.Raises e') (commands : List Command) :
    (commands.foldl Engine.discard e).Raises (commands.foldl Engine.discard e') := by
  induction commands generalizing e e' with
  | nil => exact h
  | cons command rest ih =>
      cases command with
      | commit r => exact ih (h.abandon r)
      | revoke p => exact ih h
      | shutdown caller => exact ih (h.release caller)

/-- Answering the caller for whom the loop drained keeps them in lockstep. -/
theorem Raises.releaseCaller (h : e.Raises e') : e.releaseCaller.Raises e'.releaseCaller := by
  obtain ⟨x, rfl, -⟩ := h.exists_eq
  unfold Engine.releaseCaller
  rw [stage_withDecisions]
  rcases e.stage with _ | ⟨_ | caller, awaited⟩ | _
  · exact h
  · exact h
  · exact h.release caller
  · exact h

/-- Ending the loop keeps them in lockstep. -/
theorem Raises.stop (h : e.Raises e') : e.stop.Raises e'.stop := by
  have htold := h.releaseCaller
  have hmailbox : e'.releaseCaller.mailbox = e.releaseCaller.mailbox := by
    rw [htold.same]
    rfl
  obtain ⟨x, hsame, hbroker, htickets, hcalls⟩ :=
    (htold.foldl_discard e.releaseCaller.mailbox.toList).exists_eq
  unfold Engine.stop
  dsimp only
  rw [hmailbox, hsame]
  exact ⟨rfl, hbroker, htickets, hcalls⟩

/-- Taking a command keeps them in lockstep. -/
theorem Raises.takeCommand (h : e.Raises e') : e.takeCommand.Raises e'.takeCommand := by
  obtain ⟨x, rfl, hbroker, htickets, hcalls⟩ := h.exists_eq
  unfold Engine.takeCommand
  rw [mailbox_withDecisions]
  rcases e.mailbox.pop? with _ | ⟨command, rest⟩
  · exact h
  cases command with
  | commit r =>
      simp only [obey, route]
      rw [lanes_withDecisions]
      split
      · exact ⟨rfl, hbroker, htickets, hcalls⟩
      · exact ⟨rfl, hbroker, htickets.finish r.ticket (.inl rfl), hcalls⟩
  | revoke p => exact ⟨rfl, hbroker, htickets, hcalls⟩
  | shutdown caller => exact ⟨rfl, hbroker, htickets, hcalls⟩

/-- Collecting an ended lane keeps them in lockstep. -/
theorem Raises.collect (h : e.Raises e') : e.collect.Raises e'.collect := by
  obtain ⟨x, rfl, hbroker, htickets, hcalls⟩ := h.exists_eq
  unfold Engine.collect
  rw [stage_withDecisions]
  rcases e.stage with _ | ⟨caller, _ | ⟨i, rest⟩⟩ | _
  · exact h
  · exact h
  · exact ⟨rfl, hbroker, htickets, hcalls⟩
  · exact h

/-- Answering a direct call keeps them in lockstep: by `Broker.Raises.answer` it may fail in the
second engine alone. -/
theorem Raises.answerCall (h : e.Raises e') (place : Nat) :
    (e.answerCall place).Raises (e'.answerCall place) := by
  obtain ⟨x, rfl, hbroker, htickets, hcalls⟩ := h.exists_eq
  unfold Engine.answerCall
  rw [pendingCalls_withDecisions]
  rcases e.pendingCalls[place]? with _ | c
  · exact h
  · exact ⟨rfl, hbroker.commit c.partition c.offset, htickets,
      hcalls.answer c.call (hbroker.answer c.partition c.offset)⟩

/-- A lane's commit ends in both engines, and by `Broker.Raises.answer` it may have failed in the
second alone. -/
theorem Raises.conclude (h : e.Raises e') (i : Nat) (lane : Lane) (r : Request) :
    (e.conclude i lane r).Raises (e'.conclude i lane r) := by
  obtain ⟨x, rfl, hbroker, htickets, hcalls⟩ := h.exists_eq
  obtain ⟨journal, observed, heq⟩ := e.conclude_eq i lane r
  obtain ⟨journal', observed', heq'⟩ := (e.withDecisions x).conclude_eq i lane r
  rw [heq, heq']
  exact ⟨rfl, hbroker.commit lane.partition r.offset,
    htickets.finish r.ticket ((hbroker.answer lane.partition r.offset).verdict r), hcalls⟩

/-- The work of a lane keeps them in lockstep. -/
theorem Raises.workLane (h : e.Raises e') (i : Nat) : (e.workLane i).Raises (e'.workLane i) := by
  have hdue := h.dueFromNow_eq
  have hconclude := h.conclude i
  obtain ⟨x, rfl, hbroker, htickets, hcalls⟩ := h.exists_eq
  unfold Engine.workLane
  rw [lanes_withDecisions]
  rcases e.lanes.all[i]? with _ | lane
  · exact h
  rcases hphase : lane.phase with k | _ | ⟨r, due⟩ | crashed
  · simp only [hphase]
    exact ⟨rfl, hbroker, htickets, hcalls⟩
  · simp only [hphase, proceed, hdue]
    rcases lane.queue.pop? with _ | ⟨r, rest⟩
    · exact ⟨rfl, hbroker, htickets, hcalls⟩
    · exact ⟨rfl, hbroker, htickets, hcalls⟩
  · -- whether the client crashes depends on the offset alone, so it does in both engines
    simp only [hphase]
    rw [setup_withDecisions]
    split
    · exact (h.modifyLane i _).foldl_abandon _
    · exact hconclude lane r
  · simp only [hphase]
    exact h

/-- Every move keeps them in lockstep. -/
theorem Raises.make (h : e.Raises e') (move : Move) : (e.make move).Raises (e'.make move) := by
  cases move with
  | answer place => exact h.answerCall place
  | take => exact h.takeCommand
  | hangUp =>
      obtain ⟨x, rfl, hbroker, htickets, hcalls⟩ := h.exists_eq
      exact ⟨rfl, hbroker, htickets, hcalls⟩
  | work i => exact h.workLane i
  | collect => exact h.collect
  | stop => exact h.stop

end Engine

/-- Whether the action leaves the rate of the broker alone: it is no `.changeFaults new` with a
`new.rate`. -/
def EngineAction.KeepsRate : EngineAction → Prop
  | .changeFaults new => new.rate = none
  | _ => True

namespace Engine

variable {e e' : Engine}

/-- **The engines stay in lockstep**, whatever is done to both, as long as the rates are not changed
(`KeepsRate`). -/
theorem Raises.act (h : e.Raises e') {a : EngineAction} (ha : a.KeepsRate) :
    (e.act a).Raises (e'.act a) := by
  cases a with
  | submit p o count => exact h.submit p o count
  | revoke p => exact h.revoke p
  | shutdown => exact h.shutdown
  | dropClients =>
      obtain ⟨x, rfl, hbroker, htickets, hcalls⟩ := h.exists_eq
      exact ⟨rfl, hbroker, htickets, hcalls⟩
  | changeFaults new =>
      obtain ⟨x, rfl, hbroker, htickets, hcalls⟩ := h.exists_eq
      exact ⟨rfl, hbroker.changeFaults ha, htickets, hcalls⟩
  | call p o => exact h.call p o
  | passTo time =>
      obtain ⟨x, rfl, hbroker, htickets, hcalls⟩ := h.exists_eq
      exact ⟨rfl, hbroker, htickets, hcalls⟩
  | move move =>
      have hpossible' : e'.isPossible move = e.isPossible move := by
        rw [h.same]
        cases move <;> rfl
      rcases hpossible : e.isPossible move with _ | _
      · rw [act_move_of_impossible hpossible, act_move_of_impossible (hpossible'.trans hpossible)]
        exact h
      · rw [act_move_of_isPossible hpossible, act_move_of_isPossible (hpossible'.trans hpossible)]
        exact h.make move

/-- The engines stay in lockstep along a run, and `asked` is the same for both. -/
theorem Raises.run (h : e.Raises e') {actions : List EngineAction}
    (hactions : ∀ a ∈ actions, a.KeepsRate) :
    (e.run actions).Raises (e'.run actions) ∧ e'.asked actions = e.asked actions := by
  induction actions generalizing e e' with
  | nil => exact ⟨h, rfl⟩
  | cons a rest ih =>
      obtain ⟨hrun, hasked⟩ := ih (h.act (hactions a List.mem_cons_self)) fun x hx =>
        hactions x (List.mem_cons_of_mem a hx)
      refine ⟨hrun, ?_⟩
      show e'.asks a ++ (e'.act a).asked rest = e.asks a ++ (e.act a).asked rest
      rw [h.asks_eq, hasked]

/-- What the broker is asked along a run that keeps the rate keeps the rate. -/
theorem keepsRate_of_mem_asked (e : Engine) {actions : List EngineAction}
    (hactions : ∀ a ∈ actions, a.KeepsRate) : ∀ b ∈ e.asked actions, b.KeepsRate := by
  induction actions generalizing e with
  | nil => exact fun b hb => absurd hb List.not_mem_nil
  | cons a rest ih =>
      intro b hb
      rcases List.mem_append.mp hb with hb | hb
      · cases a with
        | changeFaults new =>
            rw [List.mem_singleton.mp hb]
            exact hactions _ List.mem_cons_self
        | move move =>
            rw [asks] at hb
            split at hb
            · obtain ⟨p, o, rfl⟩ := exists_commit_of_mem_asksBy hb
              exact trivial
            · cases hb
        | _ => cases hb
      · exact ih (e.act a) (fun x hx => hactions x (List.mem_cons_of_mem a hx)) b hb

/-- Engines that start with rates `low` and `high`, `low.IsAtMost high`, are in lockstep. -/
theorem raises_start (setup : Setup) (seed : UInt64) {low high : Binary64}
    (hrate : low.IsAtMost high) (force : Bool) (delay : Option Nat) :
    (start setup (.start seed ⟨low, force, delay⟩)).Raises
      (start setup (.start seed ⟨high, force, delay⟩)) where
  same := rfl
  broker := ⟨rfl, ⟨rfl, rfl, hrate⟩, fun _ _ => rfl⟩
  tickets := ⟨rfl, fun k t t' ht _ => by simp [start] at ht⟩
  calls := ⟨rfl, fun k c c' hc _ => by simp [start] at hc⟩

/-- **Raising the rate only adds failures.** Let `low.IsAtMost high`, on either side of zero and
one, and let the same `actions` happen at both rates, with orders to reject and changes of the delay
at any time, but no change of the rate. Then the broker is asked the same. A commit that it rejects
at `low` is rejected at `high`, and for the same reason (`DecidedCommit.Worsens`); tickets and
direct calls that fail at `low` fail at `high` as well. So `e'.broker.history p` is a sublist of
`e.broker.history p`, and no fewer failures are counted. -/
theorem raising_rate_adds_failures (setup : Setup) (seed : UInt64) (force : Bool)
    (delay : Option Nat) {low high : Binary64} (hrate : low.IsAtMost high)
    {actions : List EngineAction} (hactions : ∀ a ∈ actions, a.KeepsRate) :
    let mild := start setup (.start seed ⟨low, force, delay⟩)
    let harsh := start setup (.start seed ⟨high, force, delay⟩)
    let e := mild.run actions
    let e' := harsh.run actions
    harsh.asked actions = mild.asked actions ∧
      List.Forall₂ DecidedCommit.Worsens (mild.decided actions) (harsh.decided actions) ∧
      Matched Ticket.Worsens e.tickets e'.tickets ∧
      Matched DirectCall.Worsens e.calls e'.calls ∧
      ∀ p, (e'.broker.history p).Sublist (e.broker.history p) ∧
        e.broker.failures p ≤ e'.broker.failures p := by
  intro mild harsh e e'
  have hstart : mild.Raises harsh := raises_start setup seed hrate force delay
  obtain ⟨hrun, hasked⟩ := hstart.run hactions
  obtain ⟨hbroker, hdecided⟩ := broker_run mild actions
  obtain ⟨hbroker', hdecided'⟩ := broker_run harsh actions
  have hworse : List.Forall₂ DecidedCommit.Worsens (mild.decided actions)
      (harsh.decided actions) := by
    rw [hdecided, hdecided', hasked]
    exact (hstart.broker.run (keepsRate_of_mem_asked mild hactions)).2
  refine ⟨hasked, hworse, hrun.tickets, hrun.calls, fun p => ?_⟩
  obtain ⟨hstored, hfailed⟩ := DecidedCommit.Worsens.accounts hworse p
  rw [hdecided, hdecided'] at hstored hfailed
  rw [hbroker, hbroker', Broker.history_run, Broker.history_run, Broker.failures_run,
    Broker.failures_run]
  exact ⟨hstored, Nat.add_le_add_left hfailed _⟩

/-- One commit is rejected by order and five are left to the draws, one of them by a direct call. At a
rate of one quarter one of the five is rejected, and at a rate of three quarters three are. -/
theorem raising_rate_from_quarter :
    let p : Partition := ⟨"orders", 0⟩
    let low : Binary64 := .finite false 1 (-2)
    let high : Binary64 := .finite false 3 (-2)
    let commit : Nat → List EngineAction := fun n =>
      [.submit p (.clamp n) 1, .move .take, .move (.work 0), .move (.work 0)]
    let actions : List EngineAction :=
      [.call p (.clamp 9), .changeFaults ⟨none, some true, none⟩] ++ commit 0 ++ commit 1 ++
        commit 2 ++ [.move (.answer 0)] ++ commit 3 ++ commit 4
    let e := (start ⟨[], none⟩ (.start 7 ⟨low, false, none⟩)).run actions
    let e' := (start ⟨[], none⟩ (.start 7 ⟨high, false, none⟩)).run actions
    low.IsAtMost high ∧ (∀ a ∈ actions, a.KeepsRate) ∧
      e.broker.history p = [.clamp 1, .clamp 2, .clamp 9, .clamp 4] ∧
      e'.broker.history p = [.clamp 2, .clamp 4] ∧
      (e'.broker.history p).Sublist (e.broker.history p) ∧
      e.broker.failures p = 2 ∧ e.broker.failures p ≤ e'.broker.failures p := by
  intro p low high commit actions e e'
  have hrate : low.IsAtMost high :=
    ⟨_, _, rfl, rfl, WithBot.coe_le_coe.mpr (WithTop.coe_le_coe.mpr (by decide +kernel))⟩
  have hactions : ∀ a ∈ actions, a.KeepsRate := by
    simp [actions, commit, EngineAction.KeepsRate]
  obtain ⟨-, -, -, -, haccounts⟩ :=
    raising_rate_adds_failures ⟨[], none⟩ 7 false none hrate hactions
  obtain ⟨hhistory, hfailures⟩ := haccounts p
  exact ⟨hrate, hactions, by decide +kernel, by decide +kernel, hhistory, by decide +kernel,
    hfailures⟩

end Engine

end OffsetCommit
