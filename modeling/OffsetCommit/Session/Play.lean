import OffsetCommit.Session.Script

/-!
# Playing a session

A session is a pipeline in the hands of one client, who keeps the receipts of the commits and
plays a script of steps. After every step the engine settles, and the step's report tells what
has happened since the step before.
-/

namespace OffsetCommit

/-- A shutdown that was begun and is not waited for. -/
structure PendingShutdown where
  /-- The number under which the engine answers it. -/
  caller : Nat
  /-- The number of partitions that its coordinator tracked, when it is a coordinator that is
  being closed. -/
  revoked : Option Nat
deriving DecidableEq, Inhabited

/-- What a coordinator reports when its closing has come to an end. -/
def PendingShutdown.events (sh : PendingShutdown) : List DecisionEvent :=
  sh.revoked.toList.map .closed

/-- A session between two steps. -/
structure Session where
  /-- The coordinator and the engine. -/
  pipeline : Pipeline
  /-- How the session holds on to the engine. -/
  attachment : Attachment
  /-- Whether the session has let go of the coordinator. -/
  isDropped : Bool
  /-- The receipts that the session holds and has no status for, in the order of issue. -/
  held : Array Nat
  /-- The shutdowns that were begun and not answered yet. -/
  shutdowns : List PendingShutdown

namespace Session

/-- A session before its first step. -/
def start (config : Config) (attachment : Attachment) (setup : Setup) (broker : Broker) :
    Except Error Session :=
  match Pipeline.start config setup broker with
  | .ok pipeline => .ok ⟨pipeline, attachment, false, #[], []⟩
  | .error error => .error error

/-- The engine of the session. -/
def engine (s : Session) : Engine := s.pipeline.engine

/-- Applies something that is done to the engine. -/
def onEngine (s : Session) (f : Engine → Engine) : Session :=
  { s with pipeline := s.pipeline.onEngine f }

/-- Whether the session can send commands to the engine itself. -/
def canCommand (s : Session) : Bool :=
  s.attachment = .shared && !s.isDropped

/-! ## Calls -/

/-- The record that a notification is about. -/
def recordAt (p : Partition) (o : Offset) : Record :=
  ⟨p, o, "event".toUTF8.toList⟩

/-- Tells the coordinator about one record. -/
def notify (s : Session) (notice : Notice) (p : Partition) (o : Offset) :
    Except Error (Option Receipt) × Session :=
  match notice with
  | .received => (.ok none, { s with pipeline := s.pipeline.receive (recordAt p o) })
  | .ended outcome =>
      let (answer, pipeline) := s.pipeline.resolve (recordAt p o) outcome
      match answer with
      | .ok (some receipt) =>
          (answer, { s with pipeline := pipeline, held := s.held.push receipt.ticket })
      | _ => (answer, { s with pipeline := pipeline })

/-- Tells the coordinator the same about each of several records, and counts the answers. -/
def notifyEach (s : Session) (notice : Notice) (p : Partition) (tally : Tally) :
    List Offset → Tally × Session
  | [] => (tally, s)
  | o :: rest =>
      let (answer, s) := s.notify notice p o
      s.notifyEach notice p (tally.add answer) rest

/-- Begins a shutdown: of the engine, or through the coordinator when only that can. It is
answered at once when the engine is closed already, and then there is nothing to wait for. -/
def beginShutdown (s : Session) : Answer × Session :=
  let (pending, pipeline) :=
    match s.attachment with
    | .shared =>
        (PendingShutdown.mk s.engine.callers.size none, s.pipeline.onEngine Engine.shutdown)
    | .exclusive =>
        let (caller, revoked, pipeline) := s.pipeline.beginClose
        (PendingShutdown.mk caller (some revoked), pipeline)
  if pipeline.engine.hasReturned pending.caller then
    (.flag true, { s with pipeline := pipeline.report pending.events })
  else
    (.flag false, { s with pipeline := pipeline, shutdowns := s.shutdowns ++ [pending] })

/-- A call to the coordinator, which is there only until it is let go. -/
def toCoordinator (s : Session) (f : Session → Answer × Session) : Answer × Session :=
  if s.isDropped then (.dropped, s) else f s

/-- A command to the engine, which needs a way to it. -/
def toEngine (s : Session) (f : Session → Answer × Session) : Answer × Session :=
  if s.canCommand then f s else (.dropped, s)

/-- A question to the broker, which is always there. -/
def ask (s : Session) (f : Broker → Answer) : Answer × Session :=
  (f s.engine.broker, s)

/-- Makes a call. -/
def enact (s : Session) : Call → Answer × Session
  | .notify notice p o =>
      s.toCoordinator fun s =>
        match s.notify notice p o with
        | (.ok none, s) => (.nothing, s)
        | (.ok (some receipt), s) => (.receipt receipt, s)
        | (.error error, s) => (.refused error, s)
  | .notifyEach notice p offsets =>
      s.toCoordinator fun s =>
        let (tally, s) := s.notifyEach notice p .empty offsets
        (.tally tally, s)
  | .revokePartition p =>
      s.toCoordinator fun s =>
        let (wasTracked, pipeline) := s.pipeline.revoke p
        (.flag wasTracked, { s with pipeline := pipeline })
  | .revokeAll =>
      s.toCoordinator fun s =>
        let (revoked, pipeline) := s.pipeline.revokeAll
        (.number revoked, { s with pipeline := pipeline })
  | .tracked =>
      s.toCoordinator fun s => (.partitions s.pipeline.coordinator.tracked, s)
  | .snapshot p =>
      s.toCoordinator fun s => (.snapshot (s.pipeline.coordinator.snapshot? p), s)
  | .threshold =>
      s.toCoordinator fun s => (.number s.pipeline.coordinator.config.shrinkThreshold, s)
  | .dropCoordinator => (.nothing, { s.onEngine Engine.dropClients with isDropped := true })
  | .commit p advance =>
      s.toEngine fun s =>
        let (receipt, pipeline) := s.pipeline.issue p advance
        (.receipt receipt, { s with pipeline := pipeline, held := s.held.push receipt.ticket })
  | .closeLane p => s.toEngine fun s => (.nothing, s.onEngine (·.revoke p))
  | .isClosed => s.toEngine fun s => (.flag s.engine.isClosed, s)
  | .beginShutdown =>
      match s.attachment with
      | .shared => s.toEngine beginShutdown
      | .exclusive => s.toCoordinator beginShutdown
  | .dropReceipt receipt =>
      (.flag (s.held.contains receipt), { s with held := s.held.erase receipt })
  | .changeFaults new => (.nothing, s.onEngine (·.changeFaults new))
  | .faults => s.ask fun b => .faults b.faults.force b.faults.delay
  | .committed p => s.ask fun b => .offset (b.committed p)
  | .history p => s.ask fun b => .offsets (b.history p)
  | .failures p => s.ask fun b => .number (b.failures p)
  | .total => s.ask fun b => .number b.total

/-- Makes several calls, one after the other. -/
def enactAll (s : Session) : List Call → List Answer × Session
  | [] => ([], s)
  | call :: rest =>
      let (answer, s) := s.enact call
      let (answers, s) := s.enactAll rest
      (answer :: answers, s)

/-! ## Steps -/

/-- Asks the broker for commits of consecutive offsets, each after the one before it, and adds
the decisions to those that were made before. -/
def commitDirectly (s : Session) (p : Partition) (o : Offset)
    (answers : Array (Except Error Unit)) : Nat → Array (Except Error Unit) × Session
  | 0 => (answers, s)
  | times + 1 =>
      let call := s.engine.calls.size
      let s := s.onEngine fun e => (e.call p o).await fun e => (e.answer? call).isSome
      let answer := (s.engine.answer? call).getD (.ok ())
      s.commitDirectly p (o.advance 1) (answers.push answer) times

/-- Does a step, without the report on it. -/
def perform (s : Session) : Step → Answer × Session
  | .call call => s.enact call
  | .batch calls =>
      let (answers, s) := s.enactAll calls
      (.batch answers, s)
  | .close =>
      s.toCoordinator fun s =>
        let s := { s with pipeline := s.pipeline.close }
        (.time s.engine.now, s)
  | .shutdown =>
      s.toEngine fun s =>
        let caller := s.engine.callers.size
        let s := s.onEngine fun e => e.shutdown.await fun e => e.hasReturned caller
        (.time s.engine.now, s)
  | .wait receipt =>
      if s.held.contains receipt then
        let s := s.onEngine (·.await fun e => (e.status? receipt).isSome)
        match s.engine.status? receipt with
        | some status =>
            (.status status s.engine.now, { s with held := s.held.erase receipt })
        | none => (.nothing, s)
      else (.noReceipt, s)
  | .elapse span => (.nothing, s.onEngine (·.elapse span))
  | .commitDirectly p o times =>
      let (answers, s) := s.commitDirectly p o #[] times
      (.decisions answers s.engine.now, s)

/-- The held receipts whose commits have ended, with their statuses. -/
def ended (s : Session) : List (Nat × Status) :=
  s.held.toList.filterMap fun receipt => (s.engine.status? receipt).map (receipt, ·)

/-- Lets the engine settle and notes which receipts and which shutdowns have come to an end. A
coordinator whose closing has come to an end reports it now. -/
def settle (s : Session) : List (Nat × Status) × Session :=
  let s := s.onEngine Engine.settle
  let (finished, pending) := s.shutdowns.partition fun sh => s.engine.hasReturned sh.caller
  (s.ended,
    { s with
      pipeline := s.pipeline.report (finished.flatMap PendingShutdown.events)
      held := s.held.filter fun receipt => (s.engine.status? receipt).isNone
      shutdowns := pending })

/-- Plays a step and reports on it. -/
def play (s : Session) (step : Step) : Report × Session :=
  let (answer, played) := s.perform step
  let (done, settled) := played.settle
  let seen := settled.engine.observed.toList.drop s.engine.observed.size
  ({ answer := answer
     done := done
     seen := seen.mergeSort
     decisions := settled.pipeline.log.toList.drop s.pipeline.log.size
     commits := settled.engine.journal.toList.drop s.engine.journal.size },
    settled)

/-- Plays a script. -/
def playAll (s : Session) : List Step → List Report × Session
  | [] => ([], s)
  | step :: rest =>
      let (report, s) := s.play step
      let (reports, s) := s.playAll rest
      (report :: reports, s)

/-- What is told at the end about the partitions that were named on the way. -/
def summary (s : Session) (named : List Partition) : Summary :=
  let broker := s.engine.broker
  { partitions := (Partition.distinct named).map fun p =>
      { partition := p
        committed := broker.committed p
        history := broker.history p
        failures := broker.failures p
        snapshot := if s.isDropped then none else s.pipeline.coordinator.snapshot? p }
    total := broker.total
    now := s.engine.now
    pending := s.held.toList
    shuttingDown := s.shutdowns.length }

/-- Plays a whole session: the reports on its steps and what is told at the end. -/
def run (s : Session) (steps : List Step) : List Report × Summary :=
  let (reports, s) := s.playAll steps
  (reports, s.summary (steps.flatMap Step.partitions))

end Session

end OffsetCommit
