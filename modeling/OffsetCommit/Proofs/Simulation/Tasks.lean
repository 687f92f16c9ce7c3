import OffsetCommit.CommandLine.Execution

/-!
# Tasks

Every record that is read has a task of its own. Its dispatch ends at some time, a task whose
notification issues a commit waits for what becomes of the commit, and the pipeline is closed when
all tasks have ended. Nothing says which task comes next or when the engine makes its moves: any
sequence of `Step`s that `Tasks.run?` allows is a run of the simulation, and `Simulation.run` gives
the report of one order in which dispatch may end.
-/

namespace OffsetCommit.Simulation

/-! ### Dispatch -/

/-- A record with the way its dispatch ends. -/
structure Dispatch where
  /-- The record. -/
  record : Record
  /-- How its dispatch ends. -/
  outcome : Outcome

/-- The dispatch of a record, given its number. -/
def dispatchOf (chance : Chance) (s : Settings) (x : Record × Nat) : Dispatch :=
  ⟨x.1, outcome chance s x.2⟩

/-- Every record in the order in which it is read, with the way its dispatch ends. -/
def dispatches (chance : Chance) (s : Settings) : List Dispatch :=
  (records s).zipIdx.map (dispatchOf chance s)

/-- The receipt of the commit that a notification issues, if it issues one. -/
def State.receipt? (st : State) (d : Dispatch) : Option Receipt :=
  match (st.pipeline.resolve d.record d.outcome).1 with
  | .ok receipt => receipt
  | .error _ => none

/-! ### Steps -/

/-- A close that has begun. -/
structure Closing where
  /-- The coordinator before the close. -/
  coordinator : Coordinator
  /-- The number of the caller to wait for. -/
  caller : Nat

/-- A simulation with its tasks. -/
structure Tasks extends State where
  /-- The records that have not been read. -/
  unread : List Dispatch
  /-- The tasks whose dispatch is under way. -/
  dispatching : List Dispatch
  /-- The receipts of the commits that tasks wait for. -/
  waiting : List Receipt
  /-- The close, once it has begun. -/
  closing : Option Closing

/-- Something that can happen next. -/
inductive Step where
  /-- The next record is read, and its task is spawned. -/
  | read
  /-- The dispatch of a task ends, given by its place among those under way. -/
  | report (place : Nat)
  /-- The commit that a task waits for has ended, and so does the task. -/
  | finish (place : Nat)
  /-- A part of the engine makes a move. -/
  | move (move : Move)
  /-- Time passes. -/
  | pass (time : Nat)
  /-- All tasks have ended, and the pipeline is closed. -/
  | close
deriving DecidableEq

/-- Whether nothing happens but that time passes. -/
def Step.isPass : Step → Bool
  | pass _ => true
  | _ => false

namespace Tasks

/-- Nothing has been read, and there are no tasks. -/
def start (chance : Chance) (s : Settings) : Except Error Tasks :=
  (Simulation.start s).map fun st => ⟨st, dispatches chance s, [], [], none⟩

/-- Whether all records have been read and all tasks have ended. -/
def isIdle (t : Tasks) : Bool :=
  t.unread.isEmpty && t.dispatching.isEmpty && t.waiting.isEmpty

/-- Does something to the pipeline that the tasks have no part in. -/
def onPipeline (t : Tasks) (f : Pipeline → Pipeline) : Tasks :=
  { t with pipeline := f t.pipeline }

/-- What a step leads to, if it is possible. -/
def step? (t : Tasks) : Step → Option Tasks
  | .read =>
      match t.unread with
      | [] => none
      | d :: rest =>
          some { t with
            toState := t.toState.read d.record
            unread := rest
            dispatching := t.dispatching ++ [d] }
  | .report place =>
      t.dispatching[place]?.map fun d =>
        { t with
          toState := t.toState.dispatch d.record d.outcome
          dispatching := t.dispatching.eraseIdx place
          waiting := t.waiting ++ (t.receipt? d).toList }
  | .finish place =>
      if t.waiting[place]?.any fun r => (t.pipeline.engine.status? r.ticket).isSome then
        some { t with waiting := t.waiting.eraseIdx place }
      else none
  | .move move => (t.pipeline.engine.perform move).map fun e => t.onPipeline (·.onEngine fun _ => e)
  | .pass time => some (t.onPipeline (·.onEngine (·.passTo time)))
  | .close =>
      if t.isIdle && t.closing.isNone then
        let (caller, _, pipeline) := t.pipeline.beginClose
        some { t with pipeline := pipeline, closing := some ⟨t.pipeline.coordinator, caller⟩ }
      else none

/-- What some steps lead to, one after the other, if they are possible. -/
def run? (t : Tasks) : List Step → Option Tasks
  | [] => some t
  | a :: rest => (t.step? a).bind fun t => t.run? rest

/-- The report, once the close is over. -/
def report? (s : Settings) (t : Tasks) : Option Report :=
  (t.closing.filter fun c => t.pipeline.engine.hasReturned c.caller).map fun c =>
    reportOn s c.coordinator t.pipeline.engine t.refused

/-- How the program ends, once the close is over. -/
def ending? (s : Settings) (t : Tasks) : Option CommandLine.Execution :=
  (t.report? s).map (CommandLine.ending s)

end Tasks

end OffsetCommit.Simulation
