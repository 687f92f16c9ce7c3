import OffsetCommit.Lane
import OffsetCommit.Log

/-!
# The lanes of the commit path

All lanes that were ever opened, and who holds on to them. The lane that takes a partition's
requests is held by the partition. A closed lane is held as a retired one until the partition
is opened again; from then on its successor holds it and waits for it. No lane is forgotten
before it has ended, which is what makes it possible to wait for all of them at the end.
-/

namespace OffsetCommit

/-- The lanes of the commit path. -/
structure Lanes where
  /-- Every lane that was ever opened; a lane's number is its index. -/
  all : Array Lane
  /-- The lane that takes the requests of a partition. -/
  opened : Partition.Table Nat
  /-- The closed lane of a partition that may still work off its queue. -/
  retired : Partition.Table Nat

namespace Lanes

/-- No lane at all. -/
def empty : Lanes := ⟨#[], ∅, ∅⟩

instance : Inhabited Lanes := ⟨empty⟩

/-- How a lane ended, if it has. -/
def ending? (ls : Lanes) (i : Nat) : Option Bool :=
  ls.all[i]?.bind Lane.ending?

/-- Whether a lane has ended. -/
def hasEnded (ls : Lanes) (i : Nat) : Bool :=
  (ls.ending? i).isSome

/-- Changes one lane. -/
def modify (ls : Lanes) (i : Nat) (f : Lane → Lane) : Lanes :=
  { ls with all := ls.all.modify i f }

/-- Takes a partition's lane away from it: no further request gets in. -/
def shut (ls : Lanes) (p : Partition) (i : Nat) : Lanes :=
  { ls.modify i .close with opened := ls.opened.erase p }

/-! ## Requests -/

/-- Opens a lane for a partition. It takes over the partition's retired lane, if there is one,
and starts when that lane has ended. -/
def openFor (ls : Lanes) (p : Partition) : Nat × Lanes :=
  let i := ls.all.size
  (i,
    { all := ls.all.push (.opening p ls.retired[p]?)
      opened := ls.opened.insert p i
      retired := ls.retired.erase p })

/-- The lane that takes the requests of a partition, which is opened when there is none. -/
def laneFor (ls : Lanes) (p : Partition) : Nat × Lanes :=
  match ls.opened[p]? with
  | some i => (i, ls)
  | none => ls.openFor p

/-- Hands a request to a lane. A lane that has ended does not take it. -/
def send? (ls : Lanes) (i : Nat) (r : Request) : Option Lanes :=
  if ls.hasEnded i then none else some (ls.modify i (·.push r))

/-- What becomes of a request that is handed to the lane of its partition. -/
structure Routed where
  /-- The lanes afterwards. -/
  lanes : Lanes
  /-- What there is to report. -/
  events : List CommitEvent
  /-- Whether a lane took the request. -/
  accepted : Bool

/-- Hands a request to the lane of its partition. A lane that is open and yet has ended has
crashed; it is given up, and the request goes to a new one. -/
def route (ls : Lanes) (r : Request) : Routed :=
  let (i, ls) := ls.laneFor r.partition
  match ls.send? i r with
  | some ls => ⟨ls, [], true⟩
  | none =>
      let reopened := CommitEvent.laneReopened r.partition r.offset
      let (i, ls) := (ls.shut r.partition i).laneFor r.partition
      match ls.send? i r with
      | some ls => ⟨ls, [reopened], true⟩
      | none => ⟨ls, [reopened, .laneRefused r.partition], false⟩

/-! ## Closing -/

/-- Forgets the retired lanes that have ended. -/
def prune (ls : Lanes) : Lanes :=
  { ls with retired := ls.retired.filter fun _ i => !ls.hasEnded i }

/-- Closes the lane of a partition. It is retired and works off its queue. -/
def revoke (ls : Lanes) (p : Partition) : Lanes × List CommitEvent :=
  let ls := ls.prune
  match ls.opened[p]? with
  | none => (ls, [])
  | some i =>
      ({ ls.shut p i with retired := ls.retired.insert p i }, [.laneClosed p])

/-- Closes every lane. The numbers are those of the lanes to wait for: the retired ones and
then those that were open. Waiting for them waits for all, as each holds the one before it. -/
def drain (ls : Lanes) : List Nat × Lanes :=
  (ls.retired.values ++ ls.opened.values, ⟨ls.all.map .close, ∅, ∅⟩)

end Lanes

end OffsetCommit
