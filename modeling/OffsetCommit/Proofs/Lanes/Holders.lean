import OffsetCommit.Proofs.Lanes.Leftovers
import OffsetCommit.Proofs.Lanes.Progress

/-!
# Just one holds on to a lane

Whoever wants to wait for a lane has to hold on to it. There are three who can (`Holder`): the
partition whose open lane it is, the partition whose retired lane it is, and the lane that was
opened after it and waits for it.

* `existsUnique_holder`: a lane that has not ended has just one holder all the time.
* `existsUnique_chain`: going from each lane to the one that it waits for leads to it from just
  one lane that a partition holds (`Chain`).
* `hasEnded_of_replaced`: when the open lane of a partition is replaced, it has ended and so have
  all before it.
-/

namespace OffsetCommit.Lanes

/-! ### Holders and chains -/

/-- Someone who can hold on to a lane: a partition, which has it in `opened` or in `retired`, or a
lane that waits for it. -/
inductive Holder where
  /-- The partition whose requests the lane takes. -/
  | opened (partition : Partition)
  /-- The partition whose lane it was until it was closed. -/
  | retired (partition : Partition)
  /-- The lane that waits for it, given by its number. -/
  | successor (lane : Nat)
deriving DecidableEq

/-- Whether the phase of lane `i` is `.waiting k`. -/
def WaitsFor (ls : Lanes) (i k : Nat) : Prop :=
  ∃ lane : Lane, ls.all[i]? = some lane ∧ lane.phase = .waiting k

/-- Whether lane `i` is in the hands of a holder. -/
def IsHeldBy (ls : Lanes) (i : Nat) : Holder → Prop
  | .opened p => ls.opened[p]? = some i
  | .retired p => ls.retired[p]? = some i
  | .successor k => ls.WaitsFor k i

/-- Whether a lane is reached from another in some steps of `WaitsFor`. -/
def Chain (ls : Lanes) : Nat → Nat → Prop :=
  Relation.ReflTransGen ls.WaitsFor

/-! ### Chains lead to older lanes of the same partition -/

/-- A lane waits for an earlier one. -/
theorem WellFormed.lt_of_waitsFor {ls : Lanes} (h : ls.WellFormed) {i k : Nat}
    (hwaits : ls.WaitsFor i k) : k < i := by
  obtain ⟨lane, hi, hphase⟩ := hwaits
  exact (h.predecessor i lane k hi hphase).1

/-- No two lanes wait for the same one: between the later one and that one all have ended. -/
theorem WellFormed.eq_of_waitsFor {ls : Lanes} (h : ls.WellFormed) {i j k : Nat}
    (hi : ls.WaitsFor i k) (hj : ls.WaitsFor j k) : i = j := by
  have hnot : ∀ {i j : Nat}, ls.WaitsFor i k → ls.WaitsFor j k → ¬i < j := by
    intro i j hi hj hij
    have hki := h.lt_of_waitsFor hi
    obtain ⟨lane, hlane, hphase⟩ := hi
    obtain ⟨later, hlater, hphase'⟩ := hj
    obtain ⟨-, pred, hpred, hsame⟩ := h.predecessor i lane k hlane hphase
    obtain ⟨-, pred', hpred', hsame'⟩ := h.predecessor j later k hlater hphase'
    obtain rfl := Option.some.inj (hpred.symm.trans hpred')
    have hended := h.between j later k hlater hphase' i lane hki hij hlane
      (hsame.symm.trans hsame')
    exact Lane.not_waiting_of_hasEnded hended k hphase
  exact Nat.le_antisymm (Nat.not_lt.mp (hnot hj hi)) (Nat.not_lt.mp (hnot hi hj))

/-- All lanes of a chain belong to the partition of `top`, and none is later than `top`. -/
theorem WellFormed.exists_of_chain {ls : Lanes} (h : ls.WellFormed) {top i : Nat} {last : Lane}
    (htop : ls.all[top]? = some last) (hchain : ls.Chain top i) :
    i ≤ top ∧ ∃ lane : Lane, ls.all[i]? = some lane ∧ lane.partition = last.partition := by
  induction hchain with
  | refl => exact ⟨Nat.le_refl top, last, htop, rfl⟩
  | tail _ hwaits ih =>
      obtain ⟨hle, lane, hi, hsame⟩ := ih
      have hlt := h.lt_of_waitsFor hwaits
      obtain ⟨lane', hi', hphase⟩ := hwaits
      obtain rfl := Option.some.inj (hi.symm.trans hi')
      obtain ⟨-, pred, hpred, hpartition⟩ := h.predecessor _ lane _ hi hphase
      exact ⟨hlt.le.trans hle, pred, hpred, hpartition.trans hsame⟩

/-- **A lane that has not ended is in the chain of every later lane of its partition**. For a later
one is not alone, so it waits, and there is none between it and the one that it waits for. -/
theorem WellFormed.chain_of_le {ls : Lanes} (h : ls.WellFormed) {i : Nat} {lane : Lane}
    (hi : ls.all[i]? = some lane) (hlive : lane.hasEnded = false) {top : Nat} {last : Lane}
    (htop : ls.all[top]? = some last) (hsame : lane.partition = last.partition) (hle : i ≤ top) :
    ls.Chain top i := by
  induction top using Nat.strong_induction_on generalizing last with
  | _ top ih =>
      rcases Nat.eq_or_lt_of_le hle with rfl | hlt
      · exact .refl
      have hwaits : ∃ k, last.phase = .waiting k := by
        by_contra hnot
        rw [not_exists] at hnot
        rw [h.alone top last htop hnot i lane hlt hi hsame] at hlive
        cases hlive
      obtain ⟨k, hphase⟩ := hwaits
      obtain ⟨hk, pred, hpred, hpartition⟩ := h.predecessor top last k htop hphase
      have hik : i ≤ k := by
        by_contra hnot
        rw [h.between top last k htop hphase i lane (Nat.not_le.mp hnot) hlt hi hsame] at hlive
        cases hlive
      exact .head ⟨last, htop, hphase⟩ (ih k hk hpred (hsame.trans hpartition.symm) hik)

/-- When `top` has ended, all lanes of its chain have, also at a later stage `ls'`. -/
theorem WellFormed.hasEnded_of_chain {ls ls' : Lanes} (h : ls.WellFormed) (h' : ls'.WellFormed)
    (hleads : ls.LeadsTo ls') {top i : Nat} (hchain : ls.Chain top i)
    (hended : ls'.hasEnded top = true) : ls'.hasEnded i = true := by
  rcases hchain.cases_head with rfl | ⟨k, ⟨last, htop, -⟩, -⟩
  · exact hended
  obtain ⟨hle, lane, hi, hsame⟩ := h.exists_of_chain htop hchain
  obtain ⟨last', htop', hage⟩ := hleads top last htop
  obtain ⟨lane', hi', hage'⟩ := hleads i lane hi
  obtain ⟨done, hdone, hlast⟩ := hasEnded_eq_true_iff.mp hended
  obtain rfl := Option.some.inj (htop'.symm.trans hdone)
  have hpartition : lane'.partition = last'.partition :=
    (hage'.partition_eq.trans hsame).trans hage.partition_eq.symm
  exact hasEnded_eq_true_iff.mpr ⟨lane', hi', h'.hasEnded_of_latest htop' hlast hi' hle hpartition⟩

/-! ### One lane in the hands of each partition -/

namespace Kept

variable {ls : Lanes}

/-- No partition has an open lane and a retired one. -/
theorem opened_eq_none_or (h : ls.Kept) (p : Partition) :
    ls.opened[p]? = none ∨ ls.retired[p]? = none := by
  rcases hretired : ls.retired[p]? with _ | i
  · exact .inr rfl
  · exact .inl (h.tended.retired p i hretired).1

/-- A partition holds on to one lane at most. -/
theorem isHead_unique (h : ls.Kept) {p : Partition} {top top' : Nat} (hhead : ls.IsHead p top)
    (hhead' : ls.IsHead p top') : top = top' := by
  rcases h.opened_eq_none_or p with hnone | hnone
  · rw [IsHead, hnone] at hhead hhead'
    have hretired := hhead.resolve_left nofun
    exact Option.some.inj (hretired.symm.trans (hhead'.resolve_left nofun))
  · rw [IsHead, hnone] at hhead hhead'
    have hopened := hhead.resolve_right nofun
    exact Option.some.inj (hopened.symm.trans (hhead'.resolve_right nofun))

/-- No lane waits for one that is in the hands of a partition (`IsHead`). -/
theorem not_waitsFor_of_isHead (h : ls.Kept) {p : Partition} {i k : Nat} (hhead : ls.IsHead p i) :
    ¬ls.WaitsFor k i := by
  intro hwaits
  have hlt := h.wellFormed.lt_of_waitsFor hwaits
  obtain ⟨lane, hk, hphase⟩ := hwaits
  obtain ⟨-, pred, hpred, hsame⟩ := h.wellFormed.predecessor k lane i hk hphase
  obtain ⟨last, hi, hp⟩ := h.tended.exists_of_isHead hhead
  obtain rfl := Option.some.inj (hi.symm.trans hpred)
  have hlive : lane.hasEnded = false := hasEnded_eq_false_of_phase fun crashed heq => by
    cases hphase.symm.trans heq
  exact Nat.not_le.mpr hlt (h.tended.le_of_isHead hhead hk (hsame.symm.trans hp) hlive)

/-! ### Just one holder -/

/-- **A lane that has not ended is in the chain of one lane that a partition holds**, and of no
other such lane. -/
theorem existsUnique_chain (h : ls.Kept) {i : Nat} {lane : Lane} (hi : ls.all[i]? = some lane)
    (hlive : lane.hasEnded = false) :
    ∃! top, (∃ p, ls.IsHead p top) ∧ ls.Chain top i := by
  obtain ⟨top, hhead⟩ := h.tended.exists_isHead hi hlive
  obtain ⟨last, htop, hp⟩ := h.tended.exists_of_isHead hhead
  have hle := h.tended.le_of_isHead hhead hi rfl hlive
  refine ⟨top, ⟨⟨_, hhead⟩, h.wellFormed.chain_of_le hi hlive htop hp.symm hle⟩, ?_⟩
  rintro top' ⟨⟨p, hhead'⟩, hchain⟩
  obtain ⟨last', htop', hp'⟩ := h.tended.exists_of_isHead hhead'
  obtain ⟨-, lane', hi', hsame⟩ := h.wellFormed.exists_of_chain htop' hchain
  obtain rfl := Option.some.inj (hi.symm.trans hi')
  obtain rfl : p = lane.partition := (hsame.trans hp').symm
  exact h.isHead_unique hhead' hhead

/-- No lane has two holders. -/
theorem holder_unique (h : ls.Kept) {i : Nat} (x y : Holder) (hx : ls.IsHeldBy i x)
    (hy : ls.IsHeldBy i y) : x = y := by
  have hpartition : ∀ {p q : Partition}, ls.IsHead p i → ls.IsHead q i → p = q := by
    intro p q hp hq
    obtain ⟨lane, hi, rfl⟩ := h.tended.exists_of_isHead hp
    obtain ⟨lane', hi', rfl⟩ := h.tended.exists_of_isHead hq
    rw [Option.some.inj (hi.symm.trans hi')]
  have hopen : ∀ {p q : Partition}, ls.opened[p]? = some i → ls.retired[q]? ≠ some i := by
    intro p q hp hq
    obtain rfl := hpartition (.inl hp) (.inr hq)
    rw [(h.tended.retired p i hq).1] at hp
    cases hp
  cases x with
  | opened p =>
      cases y with
      | opened q => exact congrArg _ (hpartition (.inl hx) (.inl hy))
      | retired q => exact absurd hy (hopen hx)
      | successor k => exact absurd hy (h.not_waitsFor_of_isHead (.inl hx))
  | retired p =>
      cases y with
      | opened q => exact absurd hx (hopen hy)
      | retired q => exact congrArg _ (hpartition (.inr hx) (.inr hy))
      | successor k => exact absurd hy (h.not_waitsFor_of_isHead (.inr hx))
  | successor j =>
      cases y with
      | opened q => exact absurd hx (h.not_waitsFor_of_isHead (.inl hy))
      | retired q => exact absurd hx (h.not_waitsFor_of_isHead (.inr hy))
      | successor k => exact congrArg _ (h.wellFormed.eq_of_waitsFor hx hy)

/-- **Just one holds on to a lane that has not ended**: `∃! x, ls.IsHeldBy i x`. -/
theorem existsUnique_holder (h : ls.Kept) {i : Nat} {lane : Lane} (hi : ls.all[i]? = some lane)
    (hlive : lane.hasEnded = false) : ∃! x, ls.IsHeldBy i x := by
  obtain ⟨top, ⟨⟨p, hhead⟩, hchain⟩, -⟩ := h.existsUnique_chain hi hlive
  have hheld : ∃ x, ls.IsHeldBy i x := by
    rcases hchain.cases_tail with rfl | ⟨k, -, hwaits⟩
    · exact hhead.elim (fun hopened => ⟨.opened p, hopened⟩) fun hretired => ⟨.retired p, hretired⟩
    · exact ⟨.successor k, hwaits⟩
  obtain ⟨x, hx⟩ := hheld
  exact ⟨x, hx, fun y hy => h.holder_unique y x hy hx⟩

/-! ### Revoking and replacing -/

/-- A lane has a way in only while it is the open lane of its partition: `lane.isOpen` just when
`opened` names it. -/
theorem isOpen_iff (h : ls.Kept) {i : Nat} {lane : Lane} (hi : ls.all[i]? = some lane) :
    lane.isOpen = true ↔ ls.opened[lane.partition]? = some i := by
  refine ⟨h.tended.isOpen i lane hi, fun hopened => ?_⟩
  obtain ⟨lane', hi', -, hopen⟩ := h.tended.opened _ i hopened
  rwa [Option.some.inj (hi.symm.trans hi')]

/-- A lane that is retired takes the place of no other: `retired` had no entry for `p` after
pruning. -/
theorem retired_revoke (h : ls.Kept) {p : Partition} {i : Nat} (hopened : ls.opened[p]? = some i) :
    ls.prune.retired[p]? = none ∧ (ls.revoke p).1.retired = ls.prune.retired.insert p i := by
  constructor
  · rcases h.opened_eq_none_or p with hnone | hnone
    · rw [hnone] at hopened
      cases hopened
    · rw [getElem?_retired_prune, hnone, Option.filter_none]
  · have hpruned : ls.prune.opened[p]? = some i := hopened
    unfold revoke
    dsimp only
    rw [hpruned]

/-- A retired lane that has not ended is not forgotten when partitions are revoked. -/
theorem retired_of_revoke (h : ls.Kept) (p : Partition) {q : Partition} {k : Nat}
    (hretired : ls.retired[q]? = some k) (hlive : ls.hasEnded k = false) :
    (ls.revoke p).1.retired[q]? = some k := by
  have hnone : (if p = q then ls.opened[q]? else none) = none := by
    rw [(h.tended.retired q k hretired).1, ite_self]
  rw [getElem?_retired_revoke, hnone, Option.none_or, hretired, Option.filter_some, hlive]
  rfl

/-- Finding a lane for `p` leaves the open lanes of other partitions. -/
theorem getElem?_opened_laneFor_of_ne (ls : Lanes) {p q : Partition} (hpq : p ≠ q) :
    (ls.laneFor p).2.opened[q]? = ls.opened[q]? := by
  unfold laneFor
  split
  · rfl
  · exact (Partition.getElem?_insert ls.opened p q ls.all.size).trans (if_neg hpq)

/-- **A lane that is replaced has ended**, and so have all that were opened before it. -/
theorem hasEnded_of_replaced (h : ls.Kept) {r : Request} {q : Partition} {i : Nat}
    (hopened : ls.opened[q]? = some i) (hgone : (ls.route r).lanes.opened[q]? ≠ some i) :
    ls.hasEnded i = true ∧ ls.EndedBefore q i := by
  have hroute : r.partition = q ∧ ls.hasEnded i = true := by
    by_cases hq : r.partition = q
    · refine ⟨hq, ?_⟩
      by_contra hlive
      rw [Bool.not_eq_true] at hlive
      apply hgone
      have hlane : ls.laneFor r.partition = (i, ls) := by
        rw [laneFor, hq, hopened]
      simp only [route, hlane, send?, hlive, Bool.false_eq_true, if_false]
      exact hopened
    · exfalso
      apply hgone
      obtain ⟨k, found, hfound⟩ := exists_found h.wellFormed h.tended r
      rw [hfound.lanes, ← hopened]
      show found.opened[q]? = _
      rcases hfound.origin with rfl | ⟨j, rfl⟩
      · exact getElem?_opened_laneFor_of_ne ls hq
      · rw [getElem?_opened_laneFor_of_ne _ hq, getElem?_opened_shut, if_neg hq,
          getElem?_opened_laneFor_of_ne ls hq]
  obtain ⟨lane, hi, rfl, -⟩ := h.tended.opened q i hopened
  refine ⟨hroute.2, ?_⟩
  obtain ⟨lane', hi', hended⟩ := hasEnded_eq_true_iff.mp hroute.2
  obtain rfl := Option.some.inj (hi.symm.trans hi')
  exact h.wellFormed.endedBefore_of_hasEnded hi hended

end Kept

end OffsetCommit.Lanes
