import OffsetCommit.Proofs.OffsetOrder

/-!
# The order of lanes

The lanes of one partition take turns. A lane that is past waiting has only ended lanes of its
partition before it, and a lane that still waits does so for the last of those that have not ended.
`Lanes.WellFormed` says this of all the lanes that were ever opened.

* `WellFormed.update`, `WellFormed.modify`: changes that `Lanes.Allows` preserve `WellFormed`.
* `WellFormed.allows_of_alone`: a lane that is alone may go into any phase but waiting.
-/

namespace OffsetCommit

namespace Lane

/-- The requests that a lane has not brought to an end, the oldest first. -/
def pending (lane : Lane) : List Request :=
  lane.current?.toList ++ lane.queue.toList

/-- A new lane has no requests. -/
@[simp] theorem pending_opening (p : Partition) (predecessor : Option Nat) :
    (opening p predecessor).pending = [] := by
  cases predecessor <;> rfl

/-- A new lane waits for the predecessor that it is given, if any. -/
theorem phase_opening_eq_waiting_iff {p : Partition} {predecessor : Option Nat} {k : Nat} :
    (opening p predecessor).phase = .waiting k ↔ predecessor = some k := by
  cases predecessor <;> simp [opening]

/-- A request that is queued comes last. -/
@[simp] theorem pending_push (lane : Lane) (r : Request) :
    (lane.push r).pending = lane.pending ++ [r] := by
  simp only [pending, push, Queue.toList_push, ← List.append_assoc]
  rfl

/-- Queueing a request does not end a lane. -/
@[simp] theorem hasEnded_push (lane : Lane) (r : Request) :
    (lane.push r).hasEnded = lane.hasEnded := rfl

/-- A new lane has not ended. -/
@[simp] theorem hasEnded_opening (p : Partition) (predecessor : Option Nat) :
    (opening p predecessor).hasEnded = false := by
  cases predecessor <;> rfl

/-- A lane has ended when its phase is `.ended`. -/
theorem hasEnded_eq_true_iff {lane : Lane} :
    lane.hasEnded = true ↔ ∃ crashed, lane.phase = .ended crashed := by
  unfold hasEnded ending?
  rcases lane.phase with _ | _ | _ | _ <;> simp

/-- A lane that has ended waits for nothing. -/
theorem not_waiting_of_hasEnded {lane : Lane} (h : lane.hasEnded = true) (k : Nat) :
    lane.phase ≠ .waiting k := by
  obtain ⟨crashed, hphase⟩ := hasEnded_eq_true_iff.mp h
  rw [hphase]
  exact Phase.noConfusion

/-- A lane whose queue is worked off when it ends leaves nothing behind. -/
theorem pending_of_hasEnded {lane : Lane} (h : lane.hasEnded = true)
    (hqueue : lane.queue.toList = []) : lane.pending = [] := by
  obtain ⟨crashed, hphase⟩ := hasEnded_eq_true_iff.mp h
  rw [pending, hqueue, current?, hphase]
  rfl

end Lane

namespace Lanes

/-! ### Taking turns -/

/-- Place `i` has ended when there is a lane that has. -/
theorem hasEnded_eq_true_iff {ls : Lanes} {i : Nat} :
    ls.hasEnded i = true ↔ ∃ lane, ls.all[i]? = some lane ∧ lane.hasEnded = true := by
  unfold hasEnded ending?
  rcases ls.all[i]? with _ | lane <;> simp [Lane.hasEnded]

/-- Every lane of `p` with an index below `i` has ended. -/
def EndedBefore (ls : Lanes) (p : Partition) (i : Nat) : Prop :=
  ∀ (j : Nat) (lane : Lane), j < i → ls.all[j]? = some lane → lane.partition = p →
    lane.hasEnded = true

/-- The invariant by which the lanes of a partition take turns: a lane that does not wait has only
ended lanes before it, and one that waits does so for the last live one before it.
`WellFormed.update` keeps it under every change that `Allows` covers. -/
structure WellFormed (ls : Lanes) : Prop where
  /-- A lane is handed only requests of its own partition. -/
  own : ∀ (i : Nat) (lane : Lane), ls.all[i]? = some lane →
    ∀ r ∈ lane.pending, r.partition = lane.partition
  /-- A lane that has ended has nothing left in its queue. -/
  empty : ∀ (i : Nat) (lane : Lane), ls.all[i]? = some lane → lane.hasEnded = true →
    lane.queue.toList = []
  /-- A lane that is past waiting is alone: the lanes before it have ended. -/
  alone : ∀ (i : Nat) (lane : Lane), ls.all[i]? = some lane → (∀ k, lane.phase ≠ .waiting k) →
    ls.EndedBefore lane.partition i
  /-- A lane that waits does so for an earlier lane of its partition. -/
  predecessor : ∀ (i : Nat) (lane : Lane) (k : Nat), ls.all[i]? = some lane →
    lane.phase = .waiting k →
      k < i ∧ ∃ pred : Lane, ls.all[k]? = some pred ∧ pred.partition = lane.partition
  /-- The lanes between a waiting one and the one it waits for have ended. -/
  between : ∀ (i : Nat) (lane : Lane) (k : Nat), ls.all[i]? = some lane →
    lane.phase = .waiting k → ∀ (j : Nat) (other : Lane), k < j → j < i →
      ls.all[j]? = some other → other.partition = lane.partition → other.hasEnded = true

/-- Before a lane that has ended there is none of its partition that has not. -/
theorem WellFormed.endedBefore_of_hasEnded {ls : Lanes} (h : ls.WellFormed) {i : Nat} {lane : Lane}
    (hi : ls.all[i]? = some lane) (hended : lane.hasEnded = true) :
    ls.EndedBefore lane.partition i :=
  h.alone i lane hi (Lane.not_waiting_of_hasEnded hended)

/-- When the lane that another waits for has ended, so have all before it. -/
theorem WellFormed.endedBefore_of_predecessor {ls : Lanes} (h : ls.WellFormed) {i k : Nat}
    {lane : Lane} (hi : ls.all[i]? = some lane) (hphase : lane.phase = .waiting k)
    (hended : ls.hasEnded k = true) : ls.EndedBefore lane.partition i := by
  intro j other hj hother hpartition
  obtain ⟨pred, hpred, hpredEnded⟩ := hasEnded_eq_true_iff.mp hended
  obtain ⟨-, pred', hpred', hsame⟩ := h.predecessor i lane k hi hphase
  obtain rfl : pred = pred' := Option.some.inj (hpred.symm.trans hpred')
  rcases Nat.lt_trichotomy j k with hlt | rfl | hgt
  · exact h.endedBefore_of_hasEnded hpred hpredEnded j other hlt hother (hpartition.trans hsame.symm)
  · obtain rfl : other = pred := Option.some.inj (hother.symm.trans hpred)
    exact hpredEnded
  · exact h.between i lane k hi hphase j other hgt hj hother hpartition

/-! ### Changes of single lanes -/

/-- The changes of lane `i` from `old` to `new` that keep `ls` well-formed: it keeps its partition,
stays ended, and stops to wait only when `ls.EndedBefore old.partition i`. -/
structure Allows (ls : Lanes) (i : Nat) (old new : Lane) : Prop where
  /-- The lane stays with its partition. -/
  partition_eq : new.partition = old.partition
  /-- The lane has only requests of its partition. -/
  own : ∀ r ∈ new.pending, r.partition = new.partition
  /-- An ended lane has nothing queued. -/
  empty : new.hasEnded = true → new.queue.toList = []
  /-- An ended lane stays ended. -/
  ended : old.hasEnded = true → new.hasEnded = true
  /-- The lane goes on waiting as before, or it is alone. -/
  phase : new.phase = old.phase ∨ (∀ k, new.phase ≠ .waiting k) ∧ ls.EndedBefore old.partition i

/-- A lane whose phase stays is allowed to change its requests within its partition. -/
theorem WellFormed.allows_of_phase {ls : Lanes} (h : ls.WellFormed) {i : Nat} {old new : Lane}
    (hi : ls.all[i]? = some old) (hpartition : new.partition = old.partition)
    (hphase : new.phase = old.phase) (hown : ∀ r ∈ new.pending, r.partition = new.partition)
    (hempty : new.hasEnded = true → new.queue.toList = old.queue.toList) :
    ls.Allows i old new := by
  have hended : new.hasEnded = old.hasEnded := by
    unfold Lane.hasEnded Lane.ending?
    rw [hphase]
  refine ⟨hpartition, hown, fun hnew => ?_, fun hold => hended.trans hold, .inl hphase⟩
  rw [hempty hnew]
  exact h.empty i old hi (hended.symm.trans hnew)

/-- A lane is allowed to stay as it is. -/
theorem WellFormed.allows_self {ls : Lanes} (h : ls.WellFormed) {i : Nat} {lane : Lane}
    (hi : ls.all[i]? = some lane) : ls.Allows i lane lane :=
  h.allows_of_phase hi rfl rfl (h.own i lane hi) fun _ => rfl

/-- A lane that is alone and alive may go into any phase but waiting and bring requests to an end,
as long as it does not end with requests in its queue. -/
theorem WellFormed.allows_of_alone {ls : Lanes} (h : ls.WellFormed) {i : Nat} {old new : Lane}
    (hi : ls.all[i]? = some old) (hpartition : new.partition = old.partition)
    (hlive : old.hasEnded = false) (halone : ls.EndedBefore old.partition i)
    (hphase : ∀ k, new.phase ≠ .waiting k) (hpending : ∀ r ∈ new.pending, r ∈ old.pending)
    (hempty : new.hasEnded = true → new.queue.toList = []) : ls.Allows i old new where
  partition_eq := hpartition
  own r hr := (h.own i old hi r (hpending r hr)).trans hpartition.symm
  empty := hempty
  ended hold := by
    rw [hlive] at hold
    cases hold
  phase := .inr ⟨hphase, halone⟩

/-- Changes of lanes that are allowed one by one keep all of them in order. -/
theorem WellFormed.update {ls ls' : Lanes} (h : ls.WellFormed) (g : Nat → Lane → Lane)
    (hall : ∀ j : Nat, ls'.all[j]? = ls.all[j]?.map (g j))
    (hallows : ∀ (j : Nat) (lane : Lane), ls.all[j]? = some lane → ls.Allows j lane (g j lane)) :
    ls'.WellFormed := by
  have hview : ∀ (j : Nat) (new : Lane), ls'.all[j]? = some new →
      ∃ old : Lane, ls.all[j]? = some old ∧ ls.Allows j old new := by
    intro j new hnew
    rw [hall] at hnew
    obtain ⟨old, hold, rfl⟩ := Option.map_eq_some_iff.mp hnew
    exact ⟨old, hold, hallows j old hold⟩
  -- an allowed change keeps ended lanes ended, so what was alone stays alone
  have hbefore : ∀ p i, ls.EndedBefore p i → ls'.EndedBefore p i := by
    intro p i hended j new hj hnew hp
    obtain ⟨old, hold, hallow⟩ := hview j new hnew
    exact hallow.ended (hended j old hj hold (hallow.partition_eq.symm.trans hp))
  constructor
  case own =>
    intro i new hnew
    obtain ⟨old, -, hallow⟩ := hview i new hnew
    exact hallow.own
  case empty =>
    intro i new hnew
    obtain ⟨old, -, hallow⟩ := hview i new hnew
    exact hallow.empty
  case alone =>
    intro i new hnew hphase
    obtain ⟨old, hold, hallow⟩ := hview i new hnew
    rw [hallow.partition_eq]
    rcases hallow.phase with hsame | ⟨-, hended⟩
    · exact hbefore _ _ (h.alone i old hold fun k => hsame ▸ hphase k)
    · exact hbefore _ _ hended
  case predecessor =>
    intro i new k hnew hphase
    obtain ⟨old, hold, hallow⟩ := hview i new hnew
    rcases hallow.phase with hsame | ⟨hnot, -⟩
    · obtain ⟨hlt, pred, hpred, hpartition⟩ := h.predecessor i old k hold (hsame.symm.trans hphase)
      refine ⟨hlt, g k pred, ?_, ?_⟩
      · rw [hall, hpred]
        rfl
      · rw [(hallows k pred hpred).partition_eq, hpartition, hallow.partition_eq]
    · exact absurd hphase (hnot k)
  case between =>
    intro i new k hnew hphase j other' hkj hji hother' hpartition
    obtain ⟨old, hold, hallow⟩ := hview i new hnew
    obtain ⟨other, hother, hallowOther⟩ := hview j other' hother'
    rcases hallow.phase with hsame | ⟨hnot, -⟩
    · apply hallowOther.ended
      apply h.between i old k hold (hsame.symm.trans hphase) j other hkj hji hother
      rw [← hallowOther.partition_eq, hpartition, hallow.partition_eq]
    · exact absurd hphase (hnot k)

/-- The lane at place `j` after modifying place `i`. -/
theorem getElem?_modify (ls : Lanes) (i : Nat) (f : Lane → Lane) (j : Nat) :
    (ls.modify i f).all[j]? = if i = j then ls.all[j]?.map f else ls.all[j]? :=
  Array.getElem?_modify

/-- A lane that is not there cannot change. -/
theorem modify_of_getElem?_eq_none {ls : Lanes} {i : Nat} (hi : ls.all[i]? = none)
    (f : Lane → Lane) : ls.modify i f = ls := by
  have hsame : ls.all.modify i f = ls.all := by
    apply Array.ext_getElem?
    intro j
    rw [Array.getElem?_modify]
    split
    · next hij => rw [← hij, hi, Option.map_none]
    · rfl
  rw [modify, hsame]

/-- An allowed change of one lane keeps all of them in order: `WellFormed.update` with all others as
they were. -/
theorem WellFormed.modify {ls : Lanes} (h : ls.WellFormed) {i : Nat} {lane : Lane}
    (hi : ls.all[i]? = some lane) {f : Lane → Lane} (hallows : ls.Allows i lane (f lane)) :
    (ls.modify i f).WellFormed := by
  apply h.update fun j old => if i = j then f old else old
  · intro j
    rw [getElem?_modify]
    split <;> simp
  · intro j old hold
    split
    · next hij =>
        subst hij
        obtain rfl : lane = old := Option.some.inj (hi.symm.trans hold)
        exact hallows
    · exact h.allows_self hold

/-- Closing a lane is allowed, as it takes nothing from the order. -/
theorem WellFormed.allows_close {ls : Lanes} (h : ls.WellFormed) {i : Nat} {lane : Lane}
    (hi : ls.all[i]? = some lane) : ls.Allows i lane lane.close :=
  h.allows_of_phase hi rfl rfl (h.own i lane hi) fun _ => rfl

end Lanes

end OffsetCommit
