import OffsetCommit.Proofs.Engine.Passage

/-!
# The mailbox

Commands are taken from the mailbox in the order in which they were posted, by a loop that serves.
Once the loop does not serve any more, nothing is posted and nothing is taken, and what is left in
the mailbox is discarded when the loop ends.

* `delivery_act`: each action is one of the four kinds of `Delivery`.
* `taken_of_closed`: an engine that does not serve takes no commit.
-/

namespace OffsetCommit.Engine

/-- The requests of the commands in the mailbox of `e`, the oldest first. -/
def mailed (e : Engine) : List Request :=
  e.mailbox.toList.filterMap Command.request?

/-- The list `mailed` has the requests of the commit commands in the mailbox. -/
theorem mem_mailed_iff {e : Engine} {r : Request} :
    r ∈ e.mailed ↔ .commit r ∈ e.mailbox.toList := by
  rw [mailed, List.mem_filterMap]
  constructor
  · rintro ⟨command, hcommand, hr⟩
    cases command with
    | commit x => exact Option.some.inj hr ▸ hcommand
    | revoke p => cases hr
    | shutdown c => cases hr
  · exact fun h => ⟨.commit r, h, rfl⟩

/-- A commit that waits in the mailbox is pending. -/
theorem mem_pending_of_mailed {e : Engine} {r : Request} (hr : r ∈ e.mailed) :
    r ∈ e.pending r.partition :=
  List.mem_append_right _ (List.mem_filter.mpr ⟨hr, decide_eq_true rfl⟩)

/-- Commands are accepted just as long as the loop serves. -/
theorem isClosed_eq_false_iff {e : Engine} : e.isClosed = false ↔ e.stage = .serving := by
  simp [isClosed]

/-- If an engine serves after an action, it did before: no action makes it serve again. -/
theorem serving_of_act {e : Engine} {a : EngineAction} (h : (e.act a).stage = .serving) :
    e.stage = .serving := by
  by_cases hmove : ∃ move, a = .move move
  · obtain ⟨move, rfl⟩ := hmove
    rcases hpossible : e.isPossible move with _ | _
    · rwa [act_move_of_impossible hpossible] at h
    rw [act_move_of_isPossible hpossible] at h
    cases move with
    | answer place =>
        simp only [make, answerCall] at h
        split at h <;> exact h
    | take => exact serving_of_isPossible (.inl rfl) hpossible
    | hangUp => exact serving_of_isPossible (.inr rfl) hpossible
    | work lane => rwa [make, (e.workLane_frame lane).1] at h
    | collect =>
        simp only [make, collect] at h
        split at h
        · cases h
        · exact h
    | stop =>
        obtain ⟨callers, heq⟩ := e.stop_eq
        rw [make, heq] at h
        cases h
  · rwa [(lanes_stage_act fun move heq => hmove ⟨move, heq⟩).2] at h

/-- If an engine serves after a run, it did before. -/
theorem serving_of_run {e : Engine} {actions : List EngineAction}
    (h : (e.run actions).stage = .serving) : e.stage = .serving := by
  induction actions generalizing e with
  | nil => exact h
  | cons a rest ih => exact serving_of_act (ih h)

/-- What an action does to the commands in the mailbox and to the number of tickets: commands stay,
one is posted at the end, the first is taken, or all are discarded. `delivery_act` shows that every
action does one of these. -/
inductive Delivery (e : Engine) (a : EngineAction) (e' : Engine) : Prop where
  /-- They stay. Only an engine that does not serve issues a commit without posting it. -/
  | stays (takes : e.takes a = []) (mailbox : e'.mailbox = e.mailbox)
      (size : e.stage = .serving → e'.tickets.size = e.tickets.size)
  /-- A command is posted behind all others; a commit has the next ticket. -/
  | posted (command : Command) (serving : e.stage = .serving) (takes : e.takes a = [])
      (mailbox : e'.mailbox.toList = e.mailbox.toList ++ [command])
      (ticket : ∀ r, command.request? = some r → r.ticket = e.tickets.size)
      (size : e'.tickets.size = e.tickets.size + command.request?.toList.length)
  /-- The loop takes the first of them. If it asks for a shutdown, the loop begins to drain. -/
  | taken (command : Command) (takes : e.takes a = command.request?.toList)
      (mailbox : e.mailbox.toList = command :: e'.mailbox.toList)
      (size : e'.tickets.size = e.tickets.size)
      (stage : ∀ c, command = .shutdown c → e'.stage = .draining (some c) e.lanes.drain.1)
  /-- The loop ends and discards all of them. -/
  | discarded (takes : e.takes a = []) (mailbox : e'.mailbox.toList = [])
      (stopped : e'.stage = .stopped)

/-- Only `.submit` adds a ticket. -/
theorem size_act {e : Engine} (h : e.Sound) {a : EngineAction}
    (ha : ∀ p o count, a ≠ .submit p o count) : (e.act a).tickets.size = e.tickets.size := by
  rcases (h.effect a).2.tickets_cases with heq | ⟨p, o, count, _, haction, -⟩ |
    ⟨gone, verdict, hconcludes, -⟩
  · rw [heq]
  · exact absurd haction (ha p o count)
  · exact hconcludes.size_eq

/-- A move that is possible takes the first command, discards them all, or leaves the mailbox alone. -/
theorem delivery_move {e : Engine} (h : e.Sound) {move : Move}
    (hpossible : e.isPossible move = true) : e.Delivery (.move move) (e.make move) := by
  have hsize := size_act h (a := .move move) (by simp)
  rw [act_move_of_isPossible hpossible] at hsize
  cases move with
  | take =>
      obtain ⟨command, rest, hpop, hmail, htakes⟩ := exists_command hpossible
      refine .taken command htakes ?_ hsize fun c hc => ?_
      · rw [hmail]
        simp only [make, takeCommand, hpop]
        cases command with
        | commit r =>
            simp only [obey, route]
            split <;> rfl
        | revoke p => rfl
        | shutdown caller => rfl
      · simp only [make, takeCommand, hpop, hc]
        rfl
  | answer place =>
      refine .stays rfl ?_ fun _ => hsize
      simp only [make, answerCall]
      split <;> rfl
  | hangUp => exact .stays rfl rfl fun _ => hsize
  | work lane => exact .stays rfl (e.workLane_frame lane).2.1 fun _ => hsize
  | collect =>
      refine .stays rfl ?_ fun _ => hsize
      simp only [make, collect]
      split <;> rfl
  | stop =>
      obtain ⟨callers, heq⟩ := e.stop_eq
      rw [make, heq]
      exact .discarded rfl rfl rfl

/-- **Every action is a delivery**: `e.Delivery a (e.act a)`. -/
theorem delivery_act {e : Engine} (h : e.Sound) (a : EngineAction) : e.Delivery a (e.act a) := by
  cases a with
  | submit p o count =>
      rcases hclosed : e.isClosed with _ | _
      · refine .posted (.commit ⟨e.tickets.size, p, o, count⟩) (isClosed_eq_false_iff.mp hclosed)
          rfl ?_ (fun r hr => ?_) ?_
        · simp [act, submit, hclosed, Queue.toList_push]
        · rw [← Option.some.inj hr]
        · simp [act, submit, hclosed, Command.request?]
      · refine .stays rfl ?_ fun hserving => ?_
        · simp [act, submit, hclosed]
        · rw [isClosed_eq_false_iff.mpr hserving] at hclosed
          cases hclosed
  | revoke p =>
      rcases hclosed : e.isClosed with _ | _
      · refine .posted (.revoke p) (isClosed_eq_false_iff.mp hclosed) rfl ?_ (fun r hr => ?_) ?_
        · simp [act, revoke, hclosed, Queue.toList_push]
        · cases hr
        · exact size_act h (by simp)
      · exact .stays rfl (by simp [act, revoke, hclosed]) fun _ => size_act h (by simp)
  | shutdown =>
      rcases hclosed : e.isClosed with _ | _
      · refine .posted (.shutdown e.callers.size) (isClosed_eq_false_iff.mp hclosed) rfl ?_
          (fun r hr => ?_) ?_
        · simp [act, shutdown, hclosed, Queue.toList_push]
        · cases hr
        · exact size_act h (by simp)
      · exact .stays rfl (by simp [act, shutdown, hclosed]) fun _ => size_act h (by simp)
  | dropClients => exact .stays rfl rfl fun _ => rfl
  | changeFaults new => exact .stays rfl rfl fun _ => rfl
  | call p o => exact .stays rfl rfl fun _ => rfl
  | passTo time => exact .stays rfl rfl fun _ => rfl
  | move move =>
      rcases hpossible : e.isPossible move with _ | _
      · rw [act_move_of_impossible hpossible]
        exact .stays (takes_of_impossible hpossible) rfl fun _ => rfl
      · rw [act_move_of_isPossible hpossible]
        exact delivery_move h hpossible

/-- An engine that does not serve takes no commit, along any run. -/
theorem taken_of_closed {e : Engine} (h : e.stage ≠ .serving) (actions : List EngineAction) :
    e.taken actions = [] := by
  induction actions generalizing e with
  | nil => rfl
  | cons a rest ih =>
      have htakes : e.takes a = [] := by
        unfold takes
        split
        · rw [if_neg fun htake => h (serving_of_isPossible (.inl rfl) htake)]
        · rfl
      rw [taken, along, htakes, List.nil_append]
      exact ih fun hserving => h (serving_of_act hserving)

end OffsetCommit.Engine
