import OffsetCommit.Proofs.Engine.Effect

/-!
# Runs of the broker

A broker is asked for commits and told to change its settings, one after the other: `Broker.run`.
Whoever asks, and whatever else happens in between, its decisions `Broker.decided` depend on nothing
but this list. What a commit answers and enters is given by `Broker.commit_eq`, and what all of them
come to by `Broker.account_run`, `history_run`, `committed_run` and `failures_run`.
-/

namespace OffsetCommit

/-- Something that a broker is asked to do. -/
inductive BrokerAction where
  /-- A commit is to be decided. -/
  | commit (partition : Partition) (offset : Offset)
  /-- Commits are to be treated in another way. -/
  | change (new : FaultsChange)
deriving DecidableEq

/-- What is to be committed, if it is a commit. -/
def BrokerAction.commit? : BrokerAction → Option (Partition × Offset)
  | .commit p o => some (p, o)
  | .change _ => none

/-- A commit that a broker has decided. -/
structure DecidedCommit where
  /-- The partition whose offset was to be committed. -/
  partition : Partition
  /-- The offset that was to be committed. -/
  offset : Offset
  /-- Why the commit was rejected, if it was. -/
  fault : Option Fault
deriving DecidableEq

/-- What the caller is told. -/
def DecidedCommit.answer (d : DecidedCommit) : Except Error Unit :=
  match d.fault with
  | some fault => .error (.commitFailed d.partition d.offset fault.message)
  | none => .ok ()

/-- The offset, if it was stored. -/
def DecidedCommit.stored? (d : DecidedCommit) : Option Offset :=
  if d.fault.isNone then some d.offset else none

/-- The account of the partition after the decision. -/
def Account.enter (a : Account) (d : DecidedCommit) : Account :=
  a.settle d.offset d.answer

namespace Broker

/-- The broker after it has done what it is asked. -/
def act (b : Broker) : BrokerAction → Broker
  | .commit p o => (b.commit p o).2
  | .change new => b.changeFaults new

/-- The broker after it has done all that it is asked, one after the other. -/
def run (b : Broker) (asked : List BrokerAction) : Broker :=
  asked.foldl act b

/-- The commits that the broker decides when it does what it is asked. -/
def decides (b : Broker) : BrokerAction → List DecidedCommit
  | .commit p o => [⟨p, o, b.decideNext.1⟩]
  | .change _ => []

/-- The commits that the broker decides, one after the other. -/
def decided (b : Broker) : List BrokerAction → List DecidedCommit
  | [] => []
  | a :: rest => b.decides a ++ (b.act a).decided rest

/-- A run of two lists is a run of the first and then of the second. -/
theorem run_append (b : Broker) (first second : List BrokerAction) :
    b.run (first ++ second) = (b.run first).run second :=
  List.foldl_append

/-- The decisions on two lists are those on the first and then those on the second, after the first. -/
theorem decided_append (b : Broker) (first second : List BrokerAction) :
    b.decided (first ++ second) = b.decided first ++ (b.run first).decided second := by
  induction first generalizing b with
  | nil => rfl
  | cons a rest ih =>
      rw [List.cons_append, decided, decided, ih, List.append_assoc]
      rfl

/-- The commits that are asked for are decided in this order, and each once. -/
theorem map_decided (b : Broker) (asked : List BrokerAction) :
    (b.decided asked).map (fun d => (d.partition, d.offset)) =
      asked.filterMap BrokerAction.commit? := by
  induction asked generalizing b with
  | nil => rfl
  | cons a rest ih =>
      rw [decided, List.map_append, ih]
      cases a <;> rfl

/-! ### The accounts -/

/-- **The broker decides, enters the decision into the account and tells the caller**: with `d` for
the decision, `b.commit p o` answers `d.answer`, and the account of `p` becomes `Account.enter` of
it and `d`. -/
theorem commit_eq (b : Broker) (p : Partition) (o : Offset) :
    b.commit p o =
      ((⟨p, o, b.decideNext.1⟩ : DecidedCommit).answer,
        b.decideNext.2.update p (·.enter ⟨p, o, b.decideNext.1⟩)) := by
  unfold commit
  rcases b.decideNext with ⟨_ | fault, b'⟩ <;> rfl

/-- A commit with a fault is answered by an error that names the commit and the fault. -/
theorem answer_commit_of_fault (b : Broker) (p : Partition) (o : Offset) {fault : Fault}
    (h : b.decideNext.1 = some fault) :
    (b.commit p o).1 = .error (.commitFailed p o fault.message) := by
  rw [commit_eq, DecidedCommit.answer, h]

/-- A commit without a fault is answered by `.ok ()`. -/
theorem answer_commit_of_none (b : Broker) (p : Partition) (o : Offset)
    (h : b.decideNext.1 = none) : (b.commit p o).1 = .ok () := by
  rw [commit_eq, DecidedCommit.answer, h]

/-- The account of a partition after one request is what the decision on it makes of the account. -/
theorem account_act (b : Broker) (a : BrokerAction) (p : Partition) :
    (b.act a).account p =
      ((b.decides a).filter fun d => d.partition = p).foldl Account.enter (b.account p) := by
  cases a with
  | change new => rfl
  | commit q o =>
      show (b.commit q o).2.account p = _
      rw [account_commit, commit_eq, decides, List.filter_singleton]
      by_cases hq : q = p
      · subst hq
        simp [Account.enter]
      · simp [hq]

/-- **An account is what the decisions about its partition make of it**: `Account.enter` folded over
the decisions on commits of `p`. -/
theorem account_run (b : Broker) (asked : List BrokerAction) (p : Partition) :
    (b.run asked).account p =
      ((b.decided asked).filter fun d => d.partition = p).foldl Account.enter (b.account p) := by
  induction asked generalizing b with
  | nil => rfl
  | cons a rest ih =>
      show ((b.act a).run rest).account p = _
      rw [ih, account_act, decided, List.filter_append, List.foldl_append]

end Broker

namespace Account

/-- A decision appends the offset that it stores to the history, or it adds one to the failures. -/
theorem enter_spec (a : Account) (d : DecidedCommit) :
    (a.enter d).history.toList = a.history.toList ++ d.stored?.toList ∧
      (a.enter d).failures = a.failures + if d.fault.isSome then 1 else 0 := by
  rw [enter, DecidedCommit.answer, DecidedCommit.stored?]
  rcases d.fault with _ | fault
  · exact ⟨Array.toList_push, rfl⟩
  · exact ⟨(List.append_nil _).symm, rfl⟩

/-- If the committed offset is the last of the history, it still is after `enter`. -/
theorem committed_enter {a : Account} (h : a.committed = a.history.toList.getLast?)
    (d : DecidedCommit) : (a.enter d).committed = (a.enter d).history.toList.getLast? := by
  rw [enter, DecidedCommit.answer]
  rcases d.fault with _ | fault
  · simp [settle, accept]
  · exact h

/-- If the committed offset is the last of the history, it still is after any number of decisions. -/
theorem committed_foldl_enter {a : Account} (h : a.committed = a.history.toList.getLast?)
    (ds : List DecidedCommit) :
    (ds.foldl enter a).committed = (ds.foldl enter a).history.toList.getLast? := by
  induction ds generalizing a with
  | nil => exact h
  | cons d rest ih => exact ih (committed_enter h d)

/-- What decisions make of an account: `foldl enter` appends the offsets with `stored?` to the
history and counts the decisions with a `fault`. -/
theorem foldl_enter (a : Account) (ds : List DecidedCommit) :
    (ds.foldl enter a).history.toList =
        a.history.toList ++ ds.filterMap DecidedCommit.stored? ∧
      (ds.foldl enter a).failures = a.failures + ds.countP (·.fault.isSome) := by
  induction ds generalizing a with
  | nil => exact ⟨(List.append_nil _).symm, rfl⟩
  | cons d rest ih =>
      obtain ⟨hhistory, hfailures⟩ := a.enter_spec d
      rw [List.foldl_cons, (ih _).1, (ih _).2, hhistory, hfailures]
      refine ⟨?_, ?_⟩
      · rw [List.append_assoc, List.filterMap_cons]
        rcases d.stored? with _ | o <;> rfl
      · rw [List.countP_cons, Nat.add_assoc, Nat.add_comm (List.countP _ _)]

end Account

namespace Broker

/-- The history of a partition lists the offsets that were stored (`DecidedCommit.stored?`), in the
order of decisions. -/
theorem history_run (b : Broker) (asked : List BrokerAction) (p : Partition) :
    (b.run asked).history p =
      b.history p ++
        ((b.decided asked).filter fun d => d.partition = p).filterMap DecidedCommit.stored? := by
  rw [history, account_run]
  exact (Account.foldl_enter _ _).1

/-- If the committed offset of `p` is the last of its history, it still is after any run. -/
theorem committed_run {b : Broker} {p : Partition} (h : b.committed p = (b.history p).getLast?)
    (asked : List BrokerAction) :
    (b.run asked).committed p = ((b.run asked).history p).getLast? := by
  rw [committed, history, account_run]
  exact Account.committed_foldl_enter h _

/-- Every commit of a partition that was rejected counts as a failure. -/
theorem failures_run (b : Broker) (asked : List BrokerAction) (p : Partition) :
    (b.run asked).failures p =
      b.failures p +
        ((b.decided asked).filter fun d => d.partition = p).countP (·.fault.isSome) := by
  rw [failures, account_run]
  exact (Account.foldl_enter _ _).2

end Broker

end OffsetCommit
