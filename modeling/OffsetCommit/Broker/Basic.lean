import OffsetCommit.Broker.Faults
import OffsetCommit.Error

/-!
# The simulated broker

The broker stores, for each partition, the offset that was committed last, every offset that
was ever committed, and how many commits were rejected. What a commit does is decided in one
step, `Broker.commit`; the time that a commit takes is spent before that step, by whoever asks
for the commit.
-/

namespace OffsetCommit

/-- What the broker stores for one partition. -/
structure Account where
  /-- The offset committed last. -/
  committed : Option Offset
  /-- Every committed offset, in the order of arrival. -/
  history : Array Offset
  /-- The number of rejected commits. -/
  failures : Nat
deriving DecidableEq

namespace Account

/-- The account of a partition that no commit has reached. -/
def empty : Account := ⟨none, #[], 0⟩

instance : Inhabited Account := ⟨empty⟩

/-- The account after a commit went through. -/
def accept (a : Account) (o : Offset) : Account :=
  { a with committed := some o, history := a.history.push o }

/-- The account after a commit was rejected. -/
def reject (a : Account) : Account :=
  { a with failures := a.failures + 1 }

end Account

/-- The simulated broker. -/
structure Broker where
  /-- The seed of the draws. -/
  seed : UInt64
  /-- The number of draws made so far. -/
  draws : Nat
  /-- How commits are treated at present. -/
  faults : Faults
  /-- The accounts of the partitions that a commit has reached. -/
  accounts : Partition.Table Account

namespace Broker

/-- A broker that has seen no commit. -/
def start (seed : UInt64) (faults : Faults) : Broker :=
  ⟨seed, 0, faults, ∅⟩

instance : Inhabited Broker := ⟨start 0 .quiet⟩

/-! ## Queries -/

/-- The account of a partition. -/
def account (b : Broker) (p : Partition) : Account :=
  b.accounts[p]?.getD .empty

/-- The offset committed last for a partition. -/
def committed (b : Broker) (p : Partition) : Option Offset :=
  (b.account p).committed

/-- The committed offsets of a partition, in the order of arrival. -/
def history (b : Broker) (p : Partition) : List Offset :=
  (b.account p).history.toList

/-- The number of rejected commits of a partition. -/
def failures (b : Broker) (p : Partition) : Nat :=
  (b.account p).failures

/-- The number of commits that went through, on all partitions together. -/
def total (b : Broker) : Nat :=
  (b.accounts.values.map fun a => a.history.size).foldr (· + ·) 0

/-! ## Commits -/

/-- Decides the next commit. The order to reject is used up first and costs no draw; a rate that
decides by itself costs none either. -/
def decideNext (b : Broker) : Option Fault × Broker :=
  if b.faults.force then
    (some .forced, { b with faults := { b.faults with force := false } })
  else
    match settledByRate? b.faults.rate with
    | some rejects => (if rejects then some .random else none, b)
    | none =>
        let rejects := b.faults.rate.above (draw b.seed b.draws)
        (if rejects then some .random else none, { b with draws := b.draws + 1 })

/-- Changes the account of one partition, which is opened when there is none yet. -/
def update (b : Broker) (p : Partition) (f : Account → Account) : Broker :=
  { b with accounts := b.accounts.alter p fun a => some (f (a.getD .empty)) }

/-- A change of one account leaves all others alone. -/
theorem account_update (b : Broker) (p q : Partition) (f : Account → Account) :
    (b.update p f).account q = if p = q then f (b.account q) else b.account q := by
  simp only [account, update, Partition.getElem?_alter]
  split
  · next h => rw [h, Option.getD_some]
  · rfl

/-- Decides a commit and enters it into the account of its partition. -/
def commit (b : Broker) (p : Partition) (o : Offset) : Except Error Unit × Broker :=
  let (fault, b) := b.decideNext
  match fault with
  | some fault => (.error (.commitFailed p o fault.message), b.update p .reject)
  | none => (.ok (), b.update p (·.accept o))

/-- The broker with some of its settings changed. -/
def changeFaults (b : Broker) (new : FaultsChange) : Broker :=
  { b with faults := b.faults.change new }

end Broker

end OffsetCommit
