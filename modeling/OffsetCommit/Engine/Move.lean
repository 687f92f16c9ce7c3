import OffsetCommit.Engine.Basic

/-!
# The moves of the engine

What the parts of an engine do on their own: the loop takes a command or waits for a lane, a
lane starts or decides a commit, the broker answers a direct call. `Engine.isPossible` says when
a move can be made, `Engine.make` what it does, and `Engine.perform` joins the two. Any order of
possible moves is a run of the engine; a statement about every `perform` is a statement about
every such order.
-/

namespace OffsetCommit

/-- A move of one part of the engine. -/
inductive Move where
  /-- The broker answers a direct call that is due, given by its place among the pending ones. -/
  | answer (place : Nat)
  /-- The loop takes the oldest command. -/
  | take
  /-- The loop finds its mailbox empty and all clients gone, and begins to drain. -/
  | hangUp
  /-- A lane does its next piece of work. -/
  | work (lane : Nat)
  /-- The loop finds that the lane it waits for has ended. -/
  | collect
  /-- The loop has no lane left to wait for and ends. -/
  | stop
deriving DecidableEq, Inhabited

namespace Engine

/-! ## When a move is possible -/

/-- Whether the broker can answer a direct call now. -/
def canAnswer (e : Engine) (call : PendingCall) : Bool :=
  call.due ≤ e.now

/-- Whether a lane has a piece of work that can be done now. -/
def canWork (e : Engine) (lane : Lane) : Bool :=
  match lane.phase with
  | .waiting predecessor => e.lanes.hasEnded predecessor
  | .ready => !lane.queue.isEmpty || !lane.isOpen
  | .committing _ due => due ≤ e.now
  | .ended _ => false

/-- Whether a move can be made now. -/
def isPossible (e : Engine) : Move → Bool
  | .answer place => e.pendingCalls[place]?.any e.canAnswer
  | .take => e.stage = .serving && !e.mailbox.isEmpty
  | .hangUp => e.stage = .serving && e.mailbox.isEmpty && !e.hasClients
  | .work lane => e.lanes.all[lane]?.any e.canWork
  | .collect =>
      match e.stage with
      | .draining _ (i :: _) => e.lanes.hasEnded i
      | _ => false
  | .stop =>
      match e.stage with
      | .draining _ [] => true
      | _ => false

/-! ## The broker -/

/-- The broker decides a direct call. -/
def answerCall (e : Engine) (place : Nat) : Engine :=
  match e.pendingCalls[place]? with
  | none => e
  | some pending =>
      let (answer, broker) := e.broker.commit pending.partition pending.offset
      { e with
        broker := broker
        calls := e.calls.modify pending.call fun call => { call with answer := some answer }
        pendingCalls := e.pendingCalls.eraseIdx place }

/-! ## The loop over the mailbox -/

/-- Hands a request to the lane of its partition. -/
def route (e : Engine) (r : Request) : Engine :=
  let routed := e.lanes.route r
  let e := { e with lanes := routed.lanes }.report routed.events
  if routed.accepted then e else e.abandon r

/-- Stops serving: closes every lane and begins to wait for them. -/
def beginDrain (e : Engine) (caller : Option Nat) : Engine :=
  let (awaited, lanes) := e.lanes.drain
  { e with lanes := lanes, stage := .draining caller awaited }

/-- Carries out a command. -/
def obey (e : Engine) : Command → Engine
  | .commit r => e.route r
  | .revoke p =>
      let (lanes, events) := e.lanes.revoke p
      { e with lanes := lanes }.report events
  | .shutdown caller => e.beginDrain (some caller)

/-- Takes the oldest command. -/
def takeCommand (e : Engine) : Engine :=
  match e.mailbox.pop? with
  | none => e
  | some (command, rest) => { e with mailbox := rest }.obey command

/-- Goes on to the next lane to wait for. A lane that crashed is reported. -/
def collect (e : Engine) : Engine :=
  match e.stage with
  | .draining caller (i :: rest) =>
      { e with stage := .draining caller rest }.report
        (if e.lanes.ending? i = some true then [.laneCrashed] else [])
  | _ => e

/-- Answers a command that was never taken: a commit is abandoned, a caller is told. -/
def discard (e : Engine) : Command → Engine
  | .commit r => e.abandon r
  | .revoke _ => e
  | .shutdown caller => e.release caller

/-- Tells the caller, if there is one, that the shutdown is over. -/
def releaseCaller (e : Engine) : Engine :=
  match e.stage with
  | .draining (some caller) _ => e.release caller
  | _ => e

/-- Ends the loop: the caller is told, and what is left in the mailbox is discarded. -/
def stop (e : Engine) : Engine :=
  let told := e.releaseCaller
  { told.mailbox.toList.foldl discard told with
    mailbox := .empty
    stage := .stopped }.report [.stopped]

/-! ## The lanes -/

/-- Changes one lane. -/
def modifyLane (e : Engine) (i : Nat) (f : Lane → Lane) : Engine :=
  { e with lanes := e.lanes.modify i f }

/-- A lane goes into another phase. -/
def setPhase (e : Engine) (i : Nat) (phase : Phase) : Engine :=
  e.modifyLane i fun lane => { lane with phase := phase }

/-- Tells the observer of a commit that went through. -/
def observe (e : Engine) (p : Partition) (r : Request) : Engine :=
  match e.setup.observer with
  | none => e
  | some crashesOn =>
      if r.count ∈ crashesOn then e.report [.observerCrashed p r.offset]
      else { e with observed := e.observed.push r.count }

/-- A commit whose client crashes takes its lane with it: the commit and all that is queued
behind it are given up, and the broker has seen nothing. -/
def crash (e : Engine) (i : Nat) (lane : Lane) (r : Request) : Engine :=
  (r :: lane.queue.toList).foldl abandon
    (e.modifyLane i fun lane => { lane with queue := .empty, phase := .ended true })

/-- The broker decides the commit under way, and the lane is free for the next one. -/
def conclude (e : Engine) (i : Nat) (lane : Lane) (r : Request) : Engine :=
  let (answer, broker) := e.broker.commit lane.partition r.offset
  let e := { e with broker := broker }.setPhase i .ready
  match answer with
  | .ok () =>
      ((e.observe lane.partition r).report [.committed lane.partition r.offset r.count]).finish
        r.ticket (.committed r.offset r.count)
  | .error error =>
      (e.report [.failed lane.partition r.offset error]).finish
        r.ticket (.failed r.offset error.message)

/-- A free lane starts with the next request, or ends when it is closed and has none. -/
def proceed (e : Engine) (i : Nat) (lane : Lane) : Engine :=
  match lane.queue.pop? with
  | none => e.setPhase i (.ended false)
  | some (r, rest) =>
      let phase := Phase.committing r e.dueFromNow
      e.modifyLane i fun lane => { lane with queue := rest, phase := phase }

/-- A lane does its next piece of work. -/
def workLane (e : Engine) (i : Nat) : Engine :=
  match e.lanes.all[i]? with
  | none => e
  | some lane =>
      match lane.phase with
      | .waiting predecessor =>
          (e.setPhase i .ready).report
            (if e.lanes.ending? predecessor = some true
              then [.predecessorCrashed lane.partition] else [])
      | .ready => e.proceed i lane
      | .committing r _ =>
          if r.offset ∈ e.setup.crashesAt then e.crash i lane r else e.conclude i lane r
      | .ended _ => e

/-! ## One move -/

/-- What a move does. It is of interest only for a move that is possible. -/
def make (e : Engine) : Move → Engine
  | .answer place => e.answerCall place
  | .take => e.takeCommand
  | .hangUp => e.beginDrain none
  | .work lane => e.workLane lane
  | .collect => e.collect
  | .stop => e.stop

/-- Makes a move if it is possible. -/
def perform (e : Engine) (move : Move) : Option Engine :=
  if e.isPossible move then some (e.make move) else none

end Engine

end OffsetCommit
