import OffsetCommit.Pipeline

/-!
# The simulation

A simulation reads records from some partitions of one topic, has each of them dispatched, and
reports what was committed. How the dispatch of a record ends is a matter of chance. The source of
chance is not part of the simulation: `outcome` and `run` take it as a `Chance`, and at rates of
zero and one every source says the same.

The partitions take turns, and each one is read in the order of its offsets. The order in which
dispatch ends is not part of the settings: `Simulation.run` lets each record's dispatch end
before the next record is read, and the issued commits are carried out at the close.
-/

namespace OffsetCommit

namespace Simulation

/-- What a simulation is asked for. -/
structure Settings where
  /-- The topic to read. -/
  topic : String
  /-- The number of partitions to read. -/
  partitions : Nat
  /-- The number of records in each partition. -/
  records : Nat
  /-- The seed of every draw. -/
  seed : UInt64
  /-- The probability that the subscriber does not accept a record. -/
  deadLetterRate : Binary64
  /-- The probability that the dead-letter sink does not accept a record either. -/
  deadLetterFailRate : Binary64
  /-- The probability that a record does not pass the filter. -/
  discardRate : Binary64
  /-- The probability that the broker rejects a commit. -/
  commitFailRate : Binary64
  /-- The shrink threshold of the trackers. -/
  shrinkThreshold : Nat
deriving DecidableEq

/-! ## Chances -/

/-- A source of chance. -/
structure Chance where
  /-- Whether the `n`-th chance of a seed comes true at a rate. -/
  happens (rate : Binary64) (seed : UInt64) (n : Nat) : Bool

/-- The draws of the broker as a source of chance. -/
def Chance.ofDraws : Chance where
  happens rate seed n := (settledByRate? rate).getD (rate.above (draw seed n))

/-- How the dispatch of the `n`-th record ends. Every record has three chances of its own: to be
dropped by the filter, to be refused by the subscriber, and to be refused by the sink too. -/
def outcome (chance : Chance) (s : Settings) (n : Nat) : Outcome :=
  if chance.happens s.discardRate s.seed (3 * n) then .discarded
  else if !chance.happens s.deadLetterRate s.seed (3 * n + 1) then .delivered
  else if chance.happens s.deadLetterFailRate s.seed (3 * n + 2) then
    .deadLetterFailed "dead letter sink unreachable (simulated)"
  else .deadLettered

/-! ## Records -/

/-- The partitions in the order of their numbers. -/
def keys (s : Settings) : List Partition :=
  (List.range s.partitions).map fun number => ⟨s.topic, UInt32.ofNat number⟩

/-- A record of the simulated topic. -/
def recordAt (p : Partition) (o : Offset) : Record :=
  ⟨p, o, ("event-" ++ p.numberText ++ "-" ++ toString o).toUTF8.toList⟩

/-- Every record in the order in which it is read: the partitions take turns, and each one is
read in the order of its offsets. -/
def records (s : Settings) : List Record :=
  (List.range s.records).flatMap fun o => (keys s).map fun p => recordAt p (.clamp o)

/-! ## The run -/

/-- A simulation under way. -/
structure State where
  /-- The coordinator and the engine. -/
  pipeline : Pipeline
  /-- The number of notifications that were refused. -/
  refused : Nat

/-- A simulation that has read nothing. -/
def start (s : Settings) : Except Error State :=
  let faults := { Faults.quiet with rate := s.commitFailRate }
  match Pipeline.start ⟨s.shrinkThreshold⟩ ⟨[], some []⟩ (.start s.seed faults) with
  | .ok pipeline => .ok ⟨pipeline, 0⟩
  | .error error => .error error

/-- A record is read. -/
def State.read (st : State) (r : Record) : State :=
  { st with pipeline := st.pipeline.receive r }

/-- The dispatch of a record ends. -/
def State.dispatch (st : State) (r : Record) (outcome : Outcome) : State :=
  match st.pipeline.resolve r outcome with
  | (.ok _, pipeline) => { st with pipeline := pipeline }
  | (.error _, pipeline) => ⟨pipeline, st.refused + 1⟩

/-- Reads the records one by one, with the numbers from `n` on, and lets the dispatch of each
end before the next one is read. -/
def State.readAll (chance : Chance) (s : Settings) (st : State) (n : Nat) : List Record → State
  | [] => st
  | r :: rest => ((st.read r).dispatch r (outcome chance s n)).readAll chance s (n + 1) rest

/-! ## The report -/

/-- What is reported of a partition. -/
structure Row where
  /-- The partition. -/
  partition : Partition
  /-- The offset committed last; zero when there is none. -/
  committed : Nat
  /-- The length of the resolved run that no success has committed. -/
  tail : Nat
  /-- The number of stored commits. -/
  commits : Nat
deriving DecidableEq, Inhabited

/-- What is reported at the end. -/
structure Report where
  /-- A row for each partition. -/
  rows : List Row
  /-- The number of records folded into stored commits. -/
  folded : Nat
  /-- The number of notifications that were refused. -/
  refused : Nat
deriving DecidableEq, Inhabited

/-- The row of a partition, from the trackers before and the broker after the close. -/
def row (c : Coordinator) (b : Broker) (p : Partition) : Row :=
  { partition := p
    committed := ((b.committed p).map Offset.toNat).getD 0
    tail := ((c.snapshot? p).map Snapshot.committableRun).getD 0
    commits := (b.history p).length }

/-- The report on a coordinator before and an engine after the close. -/
def reportOn (s : Settings) (c : Coordinator) (e : Engine) (refused : Nat) : Report :=
  { rows := (keys s).map (row c e.broker)
    folded := e.observed.toList.foldr (· + ·) 0
    refused := refused }

/-- Closes the coordinator and reports. -/
def State.report (s : Settings) (st : State) : Report :=
  reportOn s st.pipeline.coordinator st.pipeline.close.engine st.refused

/-- Runs a simulation. -/
def run (chance : Chance) (s : Settings) : Except Error Report :=
  (start s).map fun st => (st.readAll chance s 0 (records s)).report s

/-- Whether some partition did not get as far as its records. -/
def Report.fallsShort (r : Report) (s : Settings) : Bool :=
  r.rows.any fun row => row.committed + row.tail ≠ s.records

/-- The report in lines: a head, a row for each partition with its columns between tabs, and
the number of folded records. -/
def Report.lines (r : Report) : List String :=
  let columns := fun cells : List String => "\t".intercalate cells
  let rowLine := fun row : Row =>
    columns [toString row.partition, toString row.committed, toString row.tail,
      toString row.commits]
  columns ["partition", "committed", "uncommitted_tail", "commits"] :: r.rows.map rowLine
    ++ ["records folded into commits: " ++ toString r.folded]

end Simulation

end OffsetCommit
