import Mathlib.Algebra.BigOperators.Group.Finset.Basic
import OffsetCommit.Proofs.Broker.Run
import OffsetCommit.Proofs.Engine.Work

/-!
# The accounts of the broker

A decided commit is one entry in the account of its partition, either in the history or among the
failures, and no other account changes: `Broker.Enters`, which `Broker.enters_commit` proves of
every commit. The histories of all partitions together have as many entries as commits went through
(`Broker.total_eq`).
-/

namespace OffsetCommit

/-- What a commit call that returns does to the accounts of a broker. -/
structure Broker.Enters (b b' : Broker) (p : Partition) (o : Offset) (answer : Except Error Unit) :
    Prop where
  /-- If it succeeds, its offset is appended to the history of its partition and committed there. -/
  ok : answer = .ok () → b'.history p = b.history p ++ [o] ∧ b'.committed p = some o ∧
    b'.failures p = b.failures p
  /-- If it fails, it says what was to be committed and why it was rejected. History and committed
  offset stay, and the failure is counted. -/
  error : ∀ error, answer = .error error →
    (∃ fault : Fault, error = .commitFailed p o fault.message) ∧ b'.history p = b.history p ∧
      b'.committed p = b.committed p ∧ b'.failures p = b.failures p + 1
  /-- No other partition notices. -/
  others : ∀ q, q ≠ p → b'.account q = b.account q

/-- **A commit is entered into the account of its partition**, as its answer says: `b.Enters
(b.commit p o).2 p o (b.commit p o).1`. -/
theorem Broker.enters_commit (b : Broker) (p : Partition) (o : Offset) :
    b.Enters (b.commit p o).2 p o (b.commit p o).1 := by
  have haccount := b.account_commit p o
  have hown := haccount p
  rw [if_pos rfl] at hown
  constructor
  case ok =>
    intro hok
    rw [hok] at hown
    refine ⟨?_, ?_, ?_⟩
    · rw [history, hown]
      exact Array.toList_push
    · rw [committed, hown]
      rfl
    · rw [failures, hown]
      rfl
  case error =>
    intro error herror
    rw [herror] at hown
    refine ⟨?_, ?_, ?_, ?_⟩
    · rw [commit_eq, DecidedCommit.answer] at herror
      rcases hfault : b.decideNext.1 with _ | fault
      · rw [hfault] at herror
        cases herror
      · rw [hfault] at herror
        cases herror
        exact ⟨fault, rfl⟩
    · rw [history, hown]
      rfl
    · rw [committed, hown]
      rfl
    · rw [failures, hown]
      rfl
  case others =>
    intro q hq
    rw [haccount, if_neg hq.symm]

/-- A decision never leaves an account as it was: the history or the number of failures grows. -/
theorem Account.settle_ne (a : Account) (o : Offset) (answer : Except Error Unit) :
    a.settle o answer ≠ a := by
  rcases answer with error | ⟨⟨⟩⟩
  · intro h
    have hfailures : a.failures + 1 = a.failures := congrArg Account.failures h
    omega
  · intro h
    have hsize : (a.history.push o).size = a.history.size :=
      congrArg (fun a : Account => a.history.size) h
    rw [Array.size_push] at hsize
    omega

/-! ### All partitions together -/

/-- **The number of commits that went through is that of all histories together**: the sum of their
lengths over any set with every partition that has a history. -/
theorem Broker.total_eq (b : Broker) {s : Finset Partition} (hs : ∀ p, b.history p ≠ [] → p ∈ s) :
    b.total = ∑ p ∈ s, (b.history p).length := by
  have hone : ∀ x ∈ b.accounts.toList, x.2.history.size = (b.history x.1).length := by
    intro x hx
    have hx : b.accounts[x.1]? = some x.2 := Std.ExtTreeMap.mem_toList_iff_getElem?_eq_some.mp hx
    rw [history, account, hx]
    rfl
  have htotal : b.total = (b.accounts.keys.map fun p => (b.history p).length).sum := by
    rw [total, Partition.values_eq, ← Std.ExtTreeMap.map_fst_toList_eq_keys, List.map_map,
      List.map_map]
    exact congrArg List.sum (List.map_congr_left hone)
  have hkeys : ∀ p, p ∉ b.accounts.keys.toFinset → (b.history p).length = 0 := by
    intro p hp
    rw [List.mem_toFinset, Std.ExtTreeMap.mem_keys] at hp
    rw [history, account, Std.ExtTreeMap.getElem?_eq_none hp]
    rfl
  have hothers : ∀ p, p ∉ s → (b.history p).length = 0 := fun p hp =>
    List.length_eq_zero_iff.mpr (not_not.mp fun hne => hp (hs p hne))
  -- both sums run over partitions without a history besides those that have one
  calc b.total = ∑ p ∈ b.accounts.keys.toFinset, (b.history p).length := by
        rw [htotal, List.sum_toFinset _ Std.ExtTreeMap.nodup_keys]
    _ = ∑ p ∈ b.accounts.keys.toFinset ∪ s, (b.history p).length :=
        Finset.sum_subset Finset.subset_union_left fun p _ hp => hkeys p hp
    _ = ∑ p ∈ s, (b.history p).length :=
        (Finset.sum_subset Finset.subset_union_right fun p _ hp => hothers p hp).symm

end OffsetCommit
