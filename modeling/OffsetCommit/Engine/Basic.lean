import OffsetCommit.Broker.Basic
import OffsetCommit.Lanes
import OffsetCommit.Status

/-!
# The engine

The engine executes issued commits. It has a mailbox of commands, a loop that takes them one by
one, the lanes, the broker and a clock. Nothing here says when which part moves: this module
holds the state and what clients can do to it at any time. `Engine.perform` has the moves of
the engine's own parts, and `Engine.settle` an order in which to make them.
-/

namespace OffsetCommit

/-- What is fixed about an engine for as long as it runs. -/
structure Setup where
  /-- The offsets on whose commit the client of the broker crashes. -/
  crashesAt : List Offset
  /-- The counts on which the observer of commits crashes; no observer without a list. -/
  observer : Option (List Nat)
deriving DecidableEq, Inhabited

/-- An issued commit, with the status that it ended with. -/
structure Ticket where
  /-- The partition whose offset is committed. -/
  partition : Partition
  /-- The offset to commit. -/
  offset : Offset
  /-- The number of records folded into the commit. -/
  count : Nat
  /-- What became of the commit, once it has ended. -/
  status : Option Status
deriving DecidableEq, Inhabited

/-- A message to the engine. -/
inductive Command where
  /-- Execute a commit. -/
  | commit (request : Request)
  /-- Close a partition's lane once its queue is worked off. -/
  | revoke (partition : Partition)
  /-- Close every lane, wait for them, and tell the caller. -/
  | shutdown (caller : Nat)
deriving DecidableEq, Inhabited

/-- How far the loop over the mailbox has come. -/
inductive Stage where
  /-- It takes commands. -/
  | serving
  /-- It takes no more commands and waits for lanes, the first of the list first. -/
  | draining (caller : Option Nat) (awaited : List Nat)
  /-- It has ended. -/
  | stopped
deriving DecidableEq, Inhabited

/-- A commit asked of the broker directly, without a lane, with the broker's decision. -/
structure DirectCall where
  /-- The partition whose offset is committed. -/
  partition : Partition
  /-- The offset to commit. -/
  offset : Offset
  /-- The broker's decision, once it is made. -/
  answer : Option (Except Error Unit)

/-- A direct call on its way to the broker. -/
structure PendingCall where
  /-- The number of the call. -/
  call : Nat
  /-- The partition whose offset is committed. -/
  partition : Partition
  /-- The offset to commit. -/
  offset : Offset
  /-- When the broker decides the commit. -/
  due : Nat
deriving DecidableEq, Inhabited

/-- The commit path with its broker and its clock. -/
structure Engine where
  /-- The time in milliseconds since the start. -/
  now : Nat
  /-- The broker that stores the offsets. -/
  broker : Broker
  /-- What is fixed for the whole run. -/
  setup : Setup
  /-- Every commit that was ever issued, in the order of issue. -/
  tickets : Array Ticket
  /-- The commands that have not been taken yet. -/
  mailbox : Queue Command
  /-- How far the loop over the mailbox has come. -/
  stage : Stage
  /-- The lanes. -/
  lanes : Lanes
  /-- For each request to shut down, whether it has been answered. -/
  callers : Array Bool
  /-- Every commit that was ever asked of the broker directly. -/
  calls : Array DirectCall
  /-- The direct calls that the broker has not decided yet, the oldest first. -/
  pendingCalls : List PendingCall
  /-- What has been reported so far. -/
  journal : Array CommitEvent
  /-- The counts that the observer has noted so far. -/
  observed : Array Nat
  /-- Whether anyone is left who can send commands. -/
  hasClients : Bool

namespace Engine

/-- An engine that has just been started. -/
def start (setup : Setup) (broker : Broker) : Engine :=
  { now := 0
    broker := broker
    setup := setup
    tickets := #[]
    mailbox := .empty
    stage := .serving
    lanes := .empty
    callers := #[]
    calls := #[]
    pendingCalls := []
    journal := #[]
    observed := #[]
    hasClients := true }

instance : Inhabited Engine := ⟨start default default⟩

/-! ## Queries -/

/-- What became of an issued commit. -/
def status? (e : Engine) (ticket : Nat) : Option Status :=
  e.tickets[ticket]?.bind Ticket.status

/-- Whether a request to shut down has been answered. -/
def hasReturned (e : Engine) (caller : Nat) : Bool :=
  e.callers[caller]?.getD false

/-- Whether commands are refused. -/
def isClosed (e : Engine) : Bool :=
  e.stage ≠ .serving

/-- The broker's decision on a direct commit. -/
def answer? (e : Engine) (call : Nat) : Option (Except Error Unit) :=
  e.calls[call]?.bind DirectCall.answer

/-! ## Changes shared by the moves -/

/-- Adds to what has been reported. -/
def report (e : Engine) (events : List CommitEvent) : Engine :=
  { e with journal := e.journal ++ events }

/-- Enters the status of an issued commit. -/
def finish (e : Engine) (ticket : Nat) (status : Status) : Engine :=
  { e with tickets := e.tickets.modify ticket fun t => { t with status := some status } }

/-- Gives a request up. -/
def abandon (e : Engine) (r : Request) : Engine :=
  e.finish r.ticket (.abandoned r.offset)

/-- Tells whoever asked for a shutdown that it is over. -/
def release (e : Engine) (caller : Nat) : Engine :=
  { e with callers := e.callers.modify caller fun _ => true }

/-! ## What clients do -/

/-- Issues a commit. Its ticket has the number of tickets issued before. A closed engine abandons
the commit at once. -/
def submit (e : Engine) (p : Partition) (o : Offset) (count : Nat) : Engine :=
  let ticket := e.tickets.size
  if e.isClosed then
    { e with tickets := e.tickets.push ⟨p, o, count, some (.abandoned o)⟩ }
  else
    { e with
      tickets := e.tickets.push ⟨p, o, count, none⟩
      mailbox := e.mailbox.push (.commit ⟨ticket, p, o, count⟩) }

/-- Asks for a partition's lane to be closed; a closed engine does not hear it. -/
def revoke (e : Engine) (p : Partition) : Engine :=
  if e.isClosed then e else { e with mailbox := e.mailbox.push (.revoke p) }

/-- Asks for a shutdown. The caller has the number of callers before. A closed engine answers at
once, also while it still waits for lanes. -/
def shutdown (e : Engine) : Engine :=
  let caller := e.callers.size
  if e.isClosed then
    { e with callers := e.callers.push true }
  else
    { e with
      callers := e.callers.push false
      mailbox := e.mailbox.push (.shutdown caller) }

/-- The last client has gone. -/
def dropClients (e : Engine) : Engine :=
  { e with hasClients := false }

/-- Changes how the broker treats commits. -/
def changeFaults (e : Engine) (new : FaultsChange) : Engine :=
  { e with broker := e.broker.changeFaults new }

/-- When a commit that starts now is decided. The delay is read at the start; without one the
broker decides at once. -/
def dueFromNow (e : Engine) : Nat :=
  e.now + e.broker.faults.delay.getD 0

/-- Asks the broker directly for a commit. The call has the number of calls before. -/
def call (e : Engine) (p : Partition) (o : Offset) : Engine :=
  let pending : PendingCall := ⟨e.calls.size, p, o, e.dueFromNow⟩
  { e with
    calls := e.calls.push ⟨p, o, none⟩
    pendingCalls := e.pendingCalls ++ [pending] }

/-- Moves the clock; it never goes back. -/
def passTo (e : Engine) (time : Nat) : Engine :=
  { e with now := max e.now time }

end Engine

end OffsetCommit
