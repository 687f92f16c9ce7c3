import OffsetCommit.Proofs.Lanes.Order

/-!
# The requests in the lanes

The requests of a partition that wait in its lanes or are under way, read from the oldest lane to
the latest one, are `Lanes.pending`.

* `WellFormed.pending_modify_of_alone`: as lanes take turns, the first of them is the one that
  ends next.
* `pendingAfter_eq_nil`: behind the latest lane there is nothing, so a request that is handed to
  it comes last.
-/

namespace OffsetCommit.Lanes

/-- The requests of `p` that no lane has brought to an end, the oldest first: those of its lanes,
one lane after the other. -/
def pending (ls : Lanes) (p : Partition) : List Request :=
  (ls.all.toList.filter fun lane => lane.partition = p).flatMap Lane.pending

/-- The part of `ls.pending p` that is in lanes before lane `i`. -/
def pendingBefore (ls : Lanes) (p : Partition) (i : Nat) : List Request :=
  ((ls.all.toList.take i).filter fun lane => lane.partition = p).flatMap Lane.pending

/-- The part of `ls.pending p` that is in lanes behind lane `i`. -/
def pendingAfter (ls : Lanes) (p : Partition) (i : Nat) : List Request :=
  ((ls.all.toList.drop (i + 1)).filter fun lane => lane.partition = p).flatMap Lane.pending

/-- Where there are no lanes, nothing is pending. -/
@[simp] theorem pending_empty (p : Partition) : empty.pending p = [] := rfl

/-- A request is pending for `p` if a lane of `p` has it. -/
theorem mem_pending_iff {ls : Lanes} {p : Partition} {r : Request} :
    r ∈ ls.pending p ↔
      ∃ (i : Nat) (lane : Lane), ls.all[i]? = some lane ∧ lane.partition = p ∧
        r ∈ lane.pending := by
  simp only [pending, List.mem_flatMap, List.mem_filter, decide_eq_true_eq, Array.mem_toList_iff,
    Array.mem_iff_getElem?]
  constructor
  · rintro ⟨lane, ⟨⟨i, hi⟩, hp⟩, hr⟩
    exact ⟨i, lane, hi, hp, hr⟩
  · rintro ⟨i, lane, hi, hp, hr⟩
    exact ⟨lane, ⟨⟨i, hi⟩, hp⟩, hr⟩

/-- The lanes around place `i`: those before it, the lane, and those behind it. -/
theorem toList_eq_of_getElem? {ls : Lanes} {i : Nat} {lane : Lane} (hi : ls.all[i]? = some lane) :
    ls.all.toList = ls.all.toList.take i ++ lane :: ls.all.toList.drop (i + 1) := by
  obtain ⟨hlt, hget⟩ := Array.getElem?_eq_some_iff.mp hi
  have hlen : i < ls.all.toList.length := by rwa [Array.length_toList]
  have hdrop := List.drop_eq_getElem_cons hlen
  rw [Array.getElem_toList, hget] at hdrop
  rw [← hdrop, List.take_append_drop]

/-- The lanes around place `i` after modifying it. -/
theorem toList_modify {ls : Lanes} {i : Nat} {lane : Lane} (hi : ls.all[i]? = some lane)
    (f : Lane → Lane) : (ls.modify i f).all.toList =
      ls.all.toList.take i ++ f lane :: ls.all.toList.drop (i + 1) := by
  obtain ⟨hlt, hget⟩ := Array.getElem?_eq_some_iff.mp hi
  have hlen : i < ls.all.toList.length := by rwa [Array.length_toList]
  rw [modify, Array.toList_modify, List.modify_eq_take_cons_drop hlen, Array.getElem_toList, hget]

/-- The requests in the other lanes of the partition stand around those of one of its lanes. -/
theorem pending_eq_append {ls : Lanes} {i : Nat} {lane : Lane} (hi : ls.all[i]? = some lane) :
    ls.pending lane.partition =
      ls.pendingBefore lane.partition i ++ lane.pending ++ ls.pendingAfter lane.partition i := by
  have hsplit := toList_eq_of_getElem? hi
  unfold pending pendingBefore pendingAfter
  conv_lhs => rw [hsplit]
  simp only [List.filter_append, List.filter_cons, decide_true, if_true, List.flatMap_append,
    List.flatMap_cons, List.append_assoc]

/-- Work on a lane changes the requests of that lane alone. -/
theorem pending_modify {ls : Lanes} {i : Nat} {lane : Lane} (hi : ls.all[i]? = some lane)
    {f : Lane → Lane} (hf : (f lane).partition = lane.partition) (p : Partition) :
    (ls.modify i f).pending p =
      if lane.partition = p then
        ls.pendingBefore p i ++ (f lane).pending ++ ls.pendingAfter p i
      else ls.pending p := by
  have hsplit := toList_eq_of_getElem? hi
  unfold pending pendingBefore pendingAfter
  rw [toList_modify hi]
  split
  · next hp =>
      simp only [List.filter_append, List.filter_cons, hf, hp, decide_true, if_true,
        List.flatMap_append, List.flatMap_cons, List.append_assoc]
  · next hp =>
      conv_rhs => rw [hsplit]
      simp only [List.filter_append, List.filter_cons, hf, hp, decide_false, Bool.false_eq_true,
        if_false]

/-- Work that leaves a lane its requests leaves `pending p` for every partition. -/
theorem pending_modify_of_eq {ls : Lanes} {i : Nat} {lane : Lane} (hi : ls.all[i]? = some lane)
    {f : Lane → Lane} (hf : (f lane).partition = lane.partition)
    (hpending : (f lane).pending = lane.pending) (p : Partition) :
    (ls.modify i f).pending p = ls.pending p := by
  rw [pending_modify hi hf]
  split
  · next hp => rw [← hp, hpending, ← pending_eq_append hi]
  · rfl

/-- A lane among those before place `i` has a place `j < i`. -/
theorem exists_of_mem_take {ls : Lanes} {p : Partition} {i : Nat} {lane : Lane}
    (h : lane ∈ (ls.all.toList.take i).filter fun lane => lane.partition = p) :
    ∃ j, j < i ∧ ls.all[j]? = some lane ∧ lane.partition = p := by
  obtain ⟨hmem, hp⟩ := List.mem_filter.mp h
  obtain ⟨j, hj, hget⟩ := List.mem_take_iff_getElem.mp hmem
  refine ⟨j, by omega, ?_, of_decide_eq_true hp⟩
  rw [← Array.getElem?_toList, ← hget, List.getElem?_eq_getElem]

/-- A lane among those behind place `i` has a place `j` with `i < j`. -/
theorem exists_of_mem_drop {ls : Lanes} {p : Partition} {i : Nat} {lane : Lane}
    (h : lane ∈ (ls.all.toList.drop (i + 1)).filter fun lane => lane.partition = p) :
    ∃ j, i < j ∧ ls.all[j]? = some lane ∧ lane.partition = p := by
  obtain ⟨hmem, hp⟩ := List.mem_filter.mp h
  obtain ⟨j, hj, hget⟩ := List.mem_drop_iff_getElem.mp hmem
  refine ⟨i + 1 + j, by omega, ?_, of_decide_eq_true hp⟩
  rw [← Array.getElem?_toList, ← hget, List.getElem?_eq_getElem]

/-- In front of a lane that is alone there is nothing left to do. -/
theorem WellFormed.pendingBefore_eq_nil {ls : Lanes} (h : ls.WellFormed) {p : Partition} {i : Nat}
    (hended : ls.EndedBefore p i) : ls.pendingBefore p i = [] := by
  rw [pendingBefore, List.flatMap_eq_nil_iff]
  intro lane hlane
  obtain ⟨j, hj, hat, hp⟩ := exists_of_mem_take hlane
  have hdone := hended j lane hj hat hp
  exact Lane.pending_of_hasEnded hdone (h.empty j lane hat hdone)

/-- What a lane that is alone brings to an end, `gone`, are the first requests of its partition. -/
theorem WellFormed.pending_modify_of_alone {ls : Lanes} (h : ls.WellFormed) {i : Nat} {lane : Lane}
    (hi : ls.all[i]? = some lane) (halone : ls.EndedBefore lane.partition i) {f : Lane → Lane}
    (hf : (f lane).partition = lane.partition) {gone : List Request}
    (hgone : lane.pending = gone ++ (f lane).pending) (p : Partition) :
    ls.pending p = (if lane.partition = p then gone else []) ++ (ls.modify i f).pending p := by
  rw [pending_modify hi hf]
  split
  · next hp =>
      subst hp
      rw [pending_eq_append hi, h.pendingBefore_eq_nil halone, hgone, List.nil_append,
        List.nil_append, List.append_assoc]
  · rw [List.nil_append]

/-- Behind the latest lane of a partition there is nothing. -/
theorem pendingAfter_eq_nil {ls : Lanes} {p : Partition} {i : Nat}
    (hlatest : ∀ (j : Nat) (lane : Lane), ls.all[j]? = some lane → lane.partition = p → j ≤ i) :
    ls.pendingAfter p i = [] := by
  rw [pendingAfter, List.flatMap_eq_nil_iff]
  intro lane hlane
  obtain ⟨j, hj, hat, hp⟩ := exists_of_mem_drop hlane
  exact absurd (hlatest j lane hat hp) (Nat.not_le_of_lt hj)

/-- Lanes that are changed one by one without a change of their requests keep `pending p`. -/
theorem pending_map {ls ls' : Lanes} {f : Lane → Lane} (hall : ls'.all = ls.all.map f)
    (hpartition : ∀ lane, (f lane).partition = lane.partition)
    (hpending : ∀ lane, (f lane).pending = lane.pending) (p : Partition) :
    ls'.pending p = ls.pending p := by
  unfold pending
  rw [hall, Array.toList_map, List.filter_map, List.flatMap_map]
  simp only [Function.comp_def, hpartition, hpending]

/-- A lane that has just been opened brings no request. -/
theorem pending_openFor (ls : Lanes) (q p : Partition) :
    (ls.openFor q).2.pending p = ls.pending p := by
  simp only [pending, openFor, Array.toList_push, List.filter_append, List.flatMap_append]
  rw [List.append_right_eq_self, List.flatMap_eq_nil_iff]
  intro lane hlane
  obtain rfl := List.mem_singleton.mp (List.mem_of_mem_filter hlane)
  exact Lane.pending_opening q _

end OffsetCommit.Lanes
