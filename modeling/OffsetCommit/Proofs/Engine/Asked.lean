import OffsetCommit.Proofs.Broker.Run
import OffsetCommit.Proofs.Engine.Passage
import OffsetCommit.Proofs.Engine.Statuses

/-!
# What the broker is asked

Lanes ask the broker for commits, and so do direct calls. `Engine.asked` lists what the broker is
asked along a run of the engine, in the order in which it decides. Nothing else reaches the broker.

* `broker_act`: an action leaves the broker `e.broker.run (e.asks a)`.
* `broker_run`: so along a run both the broker and its decisions are functions of `e.asked
  actions`.
-/

namespace OffsetCommit.Engine

/-- The commit that `lane` asks the broker for when it works: the one that is `.committing`, unless
the client crashes on its offset. -/
def asksFor (e : Engine) (lane : Lane) : List BrokerAction :=
  match lane.phase with
  | .committing r _ => if r.offset ∈ e.setup.crashesAt then [] else [.commit lane.partition r.offset]
  | _ => []

/-- The commit that the broker decides by a move: `.answer` decides a direct one, `.work i` that of
lane `i`. -/
def asksBy (e : Engine) : Move → List BrokerAction
  | .answer place => e.pendingCalls[place]?.toList.map fun c => .commit c.partition c.offset
  | .work i => e.lanes.all[i]?.toList.flatMap e.asksFor
  | _ => []

/-- What the broker is asked by an action: `.change` for `.changeFaults`, and `asksBy` for a
possible move. -/
def asks (e : Engine) : EngineAction → List BrokerAction
  | .changeFaults new => [.change new]
  | .move move => if e.isPossible move then e.asksBy move else []
  | _ => []

/-- What the broker is asked along a run, `asks` of one action after the other. -/
def asked (e : Engine) (actions : List EngineAction) : List BrokerAction :=
  e.along asks actions

/-- The commits that the broker decides by an action, each with its fault. -/
def decides (e : Engine) (a : EngineAction) : List DecidedCommit :=
  e.broker.decided (e.asks a)

/-- The commits that the broker decides along a run, `decides` of one action after the other. -/
def decided (e : Engine) (actions : List EngineAction) : List DecidedCommit :=
  e.along decides actions

/-- By a move the broker is asked for commits alone: every element of `e.asksBy move` is a `.commit
p o`. -/
theorem exists_commit_of_mem_asksBy {e : Engine} {move : Move} {b : BrokerAction}
    (h : b ∈ e.asksBy move) : ∃ p o, b = .commit p o := by
  cases move with
  | answer place =>
      obtain ⟨c, -, rfl⟩ := List.mem_map.mp h
      exact ⟨_, _, rfl⟩
  | work i =>
      obtain ⟨lane, -, hb⟩ := List.mem_flatMap.mp h
      unfold asksFor at hb
      split at hb
      · split at hb
        · cases hb
        · exact ⟨_, _, List.mem_singleton.mp hb⟩
      · cases hb
  | _ => cases h

/-- A lane that works leaves the broker as `asksBy (.work i)` says: it asks for one commit if it
reaches its decision without a crash, and for none otherwise. -/
theorem broker_workLane (e : Engine) (i : Nat) :
    (e.workLane i).broker = e.broker.run (e.asksBy (.work i)) := by
  rw [workLane, asksBy]
  rcases hi : e.lanes.all[i]? with _ | lane
  · rfl
  rw [Option.toList_some, List.flatMap_singleton]
  unfold asksFor
  rcases hphase : lane.phase with k | _ | ⟨r, due⟩ | crashed
  · simp only [hphase]
    rfl
  · simp only [hphase, proceed]
    split <;> rfl
  · simp only [hphase]
    split
    · rw [crash, foldl_abandon_eq]
      rfl
    · obtain ⟨journal, observed, heq⟩ := e.conclude_eq i lane r
      rw [heq]
      rfl
  · simp only [hphase]
    rfl

/-- Answering a direct call asks the broker for the commit of this call, `asksBy (.answer place)`. -/
theorem broker_answerCall (e : Engine) (place : Nat) :
    (e.answerCall place).broker = e.broker.run (e.asksBy (.answer place)) := by
  rw [answerCall, asksBy]
  rcases e.pendingCalls[place]? with _ | c <;> rfl

/-- A move changes the broker by `asksBy move` alone. -/
theorem broker_make (e : Engine) (move : Move) :
    (e.make move).broker = e.broker.run (e.asksBy move) := by
  cases move with
  | answer place => exact e.broker_answerCall place
  | take => exact e.broker_takeCommand
  | hangUp => rfl
  | work i => exact e.broker_workLane i
  | collect =>
      show e.collect.broker = _
      unfold collect
      split <;> rfl
  | stop =>
      obtain ⟨callers, heq⟩ := e.stop_eq
      show e.stop.broker = _
      rw [heq]
      rfl

/-- **The broker does what it is asked, and nothing else happens to it**: `(e.act a).broker =
e.broker.run (e.asks a)`. -/
theorem broker_act (e : Engine) (a : EngineAction) :
    (e.act a).broker = e.broker.run (e.asks a) := by
  cases a with
  | submit p o count =>
      simp only [act, submit]
      split <;> rfl
  | revoke p =>
      simp only [act, revoke]
      split <;> rfl
  | shutdown =>
      simp only [act, shutdown]
      split <;> rfl
  | dropClients => rfl
  | changeFaults new => rfl
  | call p o => rfl
  | passTo time => rfl
  | move move =>
      rcases hpossible : e.isPossible move with _ | _
      · rw [act_move_of_impossible hpossible, asks, hpossible]
        rfl
      · rw [act_move_of_isPossible hpossible, asks, if_pos hpossible, broker_make]

/-- **Along a run, the broker and its decisions are what `e.asked actions` makes of them**:
`broker_act`, action by action. -/
theorem broker_run (e : Engine) (actions : List EngineAction) :
    (e.run actions).broker = e.broker.run (e.asked actions) ∧
      e.decided actions = e.broker.decided (e.asked actions) := by
  induction actions generalizing e with
  | nil => exact ⟨rfl, rfl⟩
  | cons a rest ih =>
      obtain ⟨hbroker, hdecided⟩ := ih (e.act a)
      rw [broker_act] at hbroker hdecided
      refine ⟨?_, ?_⟩
      · rw [run_cons, hbroker]
        exact (Broker.run_append ..).symm
      · show e.decides a ++ (e.act a).decided rest = e.broker.decided (e.asks a ++ (e.act a).asked rest)
        rw [Broker.decided_append, hdecided]
        rfl

end OffsetCommit.Engine
