import OffsetCommit.Coordinator
import OffsetCommit.Engine.Schedule

/-!
# The pipeline

A coordinator together with the engine that carries out its decisions: a decided run becomes
an issued commit, and a partition that is no longer tracked has its lane closed. Issuing and
deciding are one step, so the engine is handed the commits of a partition in the order in which
they were decided.
-/

namespace OffsetCommit

/-- What is handed out for an issued commit. Nothing hangs on keeping it. -/
structure Receipt where
  /-- The number of the commit's ticket. -/
  ticket : Nat
  /-- The partition whose offset is committed. -/
  partition : Partition
  /-- The offset to commit and the number of records folded into it. -/
  advance : Advance
deriving DecidableEq, Inhabited

/-- A coordinator with its engine. -/
structure Pipeline where
  /-- Decides commits. -/
  coordinator : Coordinator
  /-- Carries them out. -/
  engine : Engine
  /-- What the coordinator has reported so far. -/
  log : Array DecisionEvent

namespace Pipeline

/-- A coordinator with nothing to track, on an engine that has just been started. -/
def start (config : Config) (setup : Setup) (broker : Broker) : Except Error Pipeline :=
  match Coordinator.start config with
  | .ok coordinator => .ok ⟨coordinator, .start setup broker, #[]⟩
  | .error error => .error error

/-- Applies something that is done to the engine. -/
def onEngine (pl : Pipeline) (f : Engine → Engine) : Pipeline :=
  { pl with engine := f pl.engine }

/-- Adds to what the coordinator has reported. -/
def report (pl : Pipeline) (events : List DecisionEvent) : Pipeline :=
  { pl with log := pl.log ++ events }

/-! ## Notifications -/

/-- A record was read. -/
def receive (pl : Pipeline) (r : Record) : Pipeline :=
  let (coordinator, events) := pl.coordinator.receive r
  { pl with coordinator := coordinator }.report events

/-- Issues a commit. -/
def issue (pl : Pipeline) (p : Partition) (advance : Advance) : Receipt × Pipeline :=
  (⟨pl.engine.tickets.size, p, advance⟩,
    pl.onEngine (·.submit p advance.offset advance.count))

/-- The dispatch of a record has ended. The answer is the receipt of the commit that was issued,
if one was. -/
def resolve (pl : Pipeline) (r : Record) (outcome : Outcome) :
    Except Error (Option Receipt) × Pipeline :=
  let decision := pl.coordinator.resolve r outcome
  let pl := { pl with coordinator := decision.coordinator }.report decision.events
  match decision.answer with
  | .error error => (.error error, pl)
  | .ok none => (.ok none, pl)
  | .ok (some advance) =>
      let (receipt, pl) := pl.issue r.partition advance
      (.ok (some receipt), pl)

/-! ## Assignment -/

/-- Stops tracking a partition and has its lane closed. The answer is whether the partition was
tracked; if it was not, its lane is left alone. -/
def revoke (pl : Pipeline) (p : Partition) : Bool × Pipeline :=
  match pl.coordinator.revoke? p with
  | none => (false, pl)
  | some (coordinator, events) =>
      (true, ({ pl with coordinator := coordinator }.onEngine (·.revoke p)).report events)

/-- Stops tracking every partition and has their lanes closed. The answer is the number of
partitions that were tracked. -/
def revokeAll (pl : Pipeline) : Nat × Pipeline :=
  let partitions := pl.coordinator.tracked
  let (coordinator, events) := pl.coordinator.revokeAll
  (partitions.length,
    ({ pl with coordinator := coordinator }.onEngine fun e =>
      partitions.foldl Engine.revoke e).report events)

/-- Begins to close: stops tracking and asks the engine to shut down. The answers are the number
of the caller to wait for and the number of partitions that were tracked. -/
def beginClose (pl : Pipeline) : Nat × Nat × Pipeline :=
  let (revoked, pl) := pl.revokeAll
  (pl.engine.callers.size, revoked, pl.onEngine Engine.shutdown)

/-- Stops tracking and waits until every issued commit has ended. -/
def close (pl : Pipeline) : Pipeline :=
  let (caller, revoked, pl) := pl.beginClose
  (pl.onEngine (·.await fun e => e.hasReturned caller)).report [.closed revoked]

end Pipeline

end OffsetCommit
