import OffsetCommit.Proofs.Lanes.Pending

/-!
# Who holds a lane

While the loop over the mailbox serves, every lane that has not ended can be reached: the open lane
of a partition is the latest of its lanes, and where no lane is open the retired one stands behind
every lane that has not ended. `Lanes.Tended` says this. It is what makes a lane that is opened anew
wait for the right predecessor.

* `WellFormed.openFor`, `Tended.openFor`: opening a lane preserves both invariants.
* `WellFormed.shut`, `Tended.shut`: so does taking one away.
* `route_spec`: routing hands each request to a live lane, behind all earlier requests of its
  partition.
* `revoke_spec`, `drain_spec`: revoking and draining touch no request.
-/

namespace OffsetCommit.Lanes

/-- The invariant of `opened` and `retired` while the loop serves: `opened[p]?` is the last lane of
`p` and the only open one, and without it `retired[p]?` is no earlier than any live lane of `p`.
`Tended.modify`, `Tended.openFor` and `Tended.shut` keep it. -/
structure Tended (ls : Lanes) : Prop where
  /-- The lane that takes a partition's requests is open and belongs to the partition. -/
  opened : ∀ (p : Partition) (i : Nat), ls.opened[p]? = some i →
    ∃ lane : Lane, ls.all[i]? = some lane ∧ lane.partition = p ∧ lane.isOpen = true
  /-- No lane of a partition is later than its open one. -/
  latest : ∀ (p : Partition) (i : Nat), ls.opened[p]? = some i →
    ∀ (j : Nat) (lane : Lane), ls.all[j]? = some lane → lane.partition = p → j ≤ i
  /-- An open lane is held by its partition. -/
  isOpen : ∀ (i : Nat) (lane : Lane), ls.all[i]? = some lane → lane.isOpen = true →
    ls.opened[lane.partition]? = some i
  /-- A partition with a retired lane has no open one. -/
  retired : ∀ (p : Partition) (i : Nat), ls.retired[p]? = some i → ls.opened[p]? = none ∧
    ∃ lane : Lane, ls.all[i]? = some lane ∧ lane.partition = p
  /-- Without an open lane, the retired one is no earlier than any lane that has not ended. -/
  held : ∀ (i : Nat) (lane : Lane), ls.all[i]? = some lane → lane.hasEnded = false →
    ls.opened[lane.partition]? = none → ∃ k, ls.retired[lane.partition]? = some k ∧ i ≤ k

/-! ### The lanes in the hands of partitions -/

/-- Whether a lane is in the hands of a partition, as its open lane or as its retired one. -/
def IsHead (ls : Lanes) (p : Partition) (top : Nat) : Prop :=
  ls.opened[p]? = some top ∨ ls.retired[p]? = some top

/-- The lane in the hands of a partition is there and belongs to it. -/
theorem Tended.exists_of_isHead {ls : Lanes} (h : ls.Tended) {p : Partition} {top : Nat}
    (hhead : ls.IsHead p top) : ∃ last : Lane, ls.all[top]? = some last ∧ last.partition = p := by
  rcases hhead with hopened | hretired
  · obtain ⟨last, htop, hp, -⟩ := h.opened p top hopened
    exact ⟨last, htop, hp⟩
  · exact (h.retired p top hretired).2

/-- The lane in the hands of a partition is no earlier than any of its lanes that have not ended. -/
theorem Tended.le_of_isHead {ls : Lanes} (h : ls.Tended) {p : Partition} {top : Nat}
    (hhead : ls.IsHead p top) {i : Nat} {lane : Lane} (hi : ls.all[i]? = some lane)
    (hp : lane.partition = p) (hlive : lane.hasEnded = false) : i ≤ top := by
  subst hp
  rcases hhead with hopened | hretired
  · exact h.latest _ top hopened i lane hi rfl
  · obtain ⟨k, hk, hle⟩ := h.held i lane hi hlive (h.retired _ top hretired).1
    rwa [Option.some.inj (hretired.symm.trans hk)]

/-- A partition with a lane that has not ended holds on to one. -/
theorem Tended.exists_isHead {ls : Lanes} (h : ls.Tended) {i : Nat} {lane : Lane}
    (hi : ls.all[i]? = some lane) (hlive : lane.hasEnded = false) :
    ∃ top, ls.IsHead lane.partition top := by
  rcases hopened : ls.opened[lane.partition]? with _ | top
  · obtain ⟨top, hretired, -⟩ := h.held i lane hi hlive hopened
    exact ⟨top, .inr hretired⟩
  · exact ⟨top, .inl hopened⟩

/-! ### Work on lanes -/

/-- No lanes are in order. -/
theorem wellFormed_empty : empty.WellFormed := by
  constructor <;> intro i lane <;> simp [empty]

/-- No lanes are held by nobody. -/
theorem tended_empty : empty.Tended := by
  constructor <;> simp [empty]

/-- An allowed change of a lane that leaves `isOpen` does not change who holds it. -/
theorem Tended.modify {ls : Lanes} (h : ls.Tended) {i : Nat} {lane : Lane}
    (hi : ls.all[i]? = some lane) {f : Lane → Lane} (hallows : ls.Allows i lane (f lane))
    (hopen : (f lane).isOpen = lane.isOpen) : (ls.modify i f).Tended := by
  -- every lane comes from one with the same partition that was open and ended alike
  have hview : ∀ (j : Nat) (new : Lane), (ls.modify i f).all[j]? = some new →
      ∃ old : Lane, ls.all[j]? = some old ∧ new.partition = old.partition ∧
        new.isOpen = old.isOpen ∧ (old.hasEnded = true → new.hasEnded = true) := by
    intro j new hnew
    rw [getElem?_modify] at hnew
    split at hnew
    · next hij =>
        subst hij
        rw [hi, Option.map_some, Option.some.injEq] at hnew
        subst hnew
        exact ⟨lane, hi, hallows.partition_eq, hopen, hallows.ended⟩
    · exact ⟨new, hnew, rfl, rfl, id⟩
  have hback : ∀ (j : Nat) (old : Lane), ls.all[j]? = some old →
      ∃ new : Lane, (ls.modify i f).all[j]? = some new ∧ new.partition = old.partition ∧
        new.isOpen = old.isOpen := by
    intro j old hold
    rw [getElem?_modify]
    split
    · next hij =>
        subst hij
        obtain rfl : lane = old := Option.some.inj (hi.symm.trans hold)
        exact ⟨f lane, by rw [hold]; rfl, hallows.partition_eq, hopen⟩
    · exact ⟨old, hold, rfl, rfl⟩
  constructor
  case opened =>
    intro p j hj
    obtain ⟨old, hold, hp, ho⟩ := h.opened p j hj
    obtain ⟨new, hnew, hpartition, hopen'⟩ := hback j old hold
    exact ⟨new, hnew, hpartition.trans hp, hopen'.trans ho⟩
  case latest =>
    intro p j hj k new hnew hp
    obtain ⟨old, hold, hpartition, -, -⟩ := hview k new hnew
    exact h.latest p j hj k old hold (hpartition.symm.trans hp)
  case isOpen =>
    intro j new hnew ho
    obtain ⟨old, hold, hpartition, hopen', -⟩ := hview j new hnew
    rw [hpartition]
    exact h.isOpen j old hold (hopen'.symm.trans ho)
  case retired =>
    intro p j hj
    obtain ⟨hnone, old, hold, hp⟩ := h.retired p j hj
    obtain ⟨new, hnew, hpartition, -⟩ := hback j old hold
    exact ⟨hnone, new, hnew, hpartition.trans hp⟩
  case held =>
    intro j new hnew hended hnone
    obtain ⟨old, hold, hpartition, -, hmono⟩ := hview j new hnew
    rw [hpartition] at hnone ⊢
    refine h.held j old hold ?_ hnone
    by_contra hne
    rw [hmono (Bool.not_eq_false _ ▸ hne)] at hended
    cases hended

/-! ### Opening -/

/-- Opening a lane puts it at the place `ls.all.size` and leaves all others. -/
theorem getElem?_openFor (ls : Lanes) (p : Partition) (j : Nat) :
    (ls.openFor p).2.all[j]? =
      if j = ls.all.size then some (.opening p ls.retired[p]?) else ls.all[j]? :=
  Array.getElem?_push

/-- After `openFor` the open lane of the partition is the new one. -/
theorem getElem?_opened_openFor (ls : Lanes) (p q : Partition) :
    (ls.openFor p).2.opened[q]? = if p = q then some ls.all.size else ls.opened[q]? :=
  Partition.getElem?_insert ls.opened p q ls.all.size

/-- After `openFor` the partition has no retired lane. -/
theorem getElem?_retired_openFor (ls : Lanes) (p q : Partition) :
    (ls.openFor p).2.retired[q]? = if p = q then none else ls.retired[q]? :=
  Partition.getElem?_erase ls.retired p q

/-- A lane that was there before is not the one that is opened. -/
theorem ne_size_of_getElem? {ls : Lanes} {j : Nat} {lane : Lane} (h : ls.all[j]? = some lane) :
    j ≠ ls.all.size := by
  obtain ⟨hlt, -⟩ := Array.getElem?_eq_some_iff.mp h
  exact Nat.ne_of_lt hlt

/-- A lane of `ls` is at the same place in `ls.openFor p`. -/
theorem getElem?_openFor_of_some {ls : Lanes} (p : Partition) {j : Nat} {lane : Lane}
    (h : ls.all[j]? = some lane) : (ls.openFor p).2.all[j]? = some lane := by
  rw [getElem?_openFor, if_neg (ne_size_of_getElem? h), h]

/-- A lane of `ls.openFor p` is the new one, at the place `ls.all.size`, or one of `ls`. -/
theorem openFor_cases {ls : Lanes} {p : Partition} {j : Nat} {lane : Lane}
    (h : (ls.openFor p).2.all[j]? = some lane) :
    j = ls.all.size ∧ lane = .opening p ls.retired[p]? ∨
      j < ls.all.size ∧ ls.all[j]? = some lane := by
  rw [getElem?_openFor] at h
  split at h
  · next hsize => exact .inl ⟨hsize, (Option.some.inj h).symm⟩
  · obtain ⟨hlt, -⟩ := Array.getElem?_eq_some_iff.mp h
    exact .inr ⟨hlt, h⟩

/-- The lanes up to the new one have ended in `ls.openFor p` if they had in `ls`. -/
theorem EndedBefore.openFor {ls : Lanes} {q : Partition} {i : Nat} (h : ls.EndedBefore q i)
    (hi : i ≤ ls.all.size) (p : Partition) : (ls.openFor p).2.EndedBefore q i := by
  intro j lane hj hlane hq
  rcases openFor_cases hlane with ⟨rfl, -⟩ | ⟨-, hold⟩
  · exact absurd (hj.trans_le hi) (Nat.lt_irrefl _)
  · exact h j lane hj hold hq

/-- If `p` has no open lane, each of its lanes behind the retired one has ended; without a retired
one all of them have. -/
theorem Tended.hasEnded_of_not_opened {ls : Lanes} (h : ls.Tended) {p : Partition}
    (hnone : ls.opened[p]? = none) {j : Nat} {lane : Lane} (hj : ls.all[j]? = some lane)
    (hp : lane.partition = p) (hbehind : ∀ k, ls.retired[p]? = some k → k < j) :
    lane.hasEnded = true := by
  subst hp
  by_contra hlive
  obtain ⟨k, hk, hle⟩ := h.held j lane hj (Bool.eq_false_iff.mpr hlive) hnone
  exact absurd (hbehind k hk) (Nat.not_lt_of_le hle)

/-- A new lane waits for the retired one, and the retired one stands for all that have not ended. So
a new lane takes its turn after every other lane of its partition. -/
theorem WellFormed.openFor {ls : Lanes} (h : ls.WellFormed) (ht : ls.Tended) {p : Partition}
    (hnone : ls.opened[p]? = none) : (ls.openFor p).2.WellFormed where
  own i lane hi := by
    rcases openFor_cases hi with ⟨-, rfl⟩ | ⟨-, hold⟩
    · simp
    · exact h.own i lane hold
  empty i lane hi hended := by
    rcases openFor_cases hi with ⟨-, rfl⟩ | ⟨-, hold⟩
    · simp at hended
    · exact h.empty i lane hold hended
  alone i lane hi hphase := by
    rcases openFor_cases hi with ⟨rfl, rfl⟩ | ⟨hlt, hold⟩
    · -- a lane that does not wait was opened without a retired one
      have halone : ls.EndedBefore p ls.all.size := fun j other _ hother hq =>
        ht.hasEnded_of_not_opened hnone hother hq fun k hk =>
          absurd (Lane.phase_opening_eq_waiting_iff.mpr hk) (hphase k)
      exact halone.openFor le_rfl p
    · exact (h.alone i lane hold hphase).openFor hlt.le p
  predecessor i lane k hi hphase := by
    rcases openFor_cases hi with ⟨rfl, rfl⟩ | ⟨-, hold⟩
    · obtain ⟨-, pred, hpred, hp⟩ := ht.retired p k (Lane.phase_opening_eq_waiting_iff.mp hphase)
      obtain ⟨hlt, -⟩ := Array.getElem?_eq_some_iff.mp hpred
      exact ⟨hlt, pred, getElem?_openFor_of_some p hpred, hp⟩
    · obtain ⟨hki, pred, hpred, hp⟩ := h.predecessor i lane k hold hphase
      exact ⟨hki, pred, getElem?_openFor_of_some p hpred, hp⟩
  between i lane k hi hphase j other hkj hji hother hq := by
    rcases openFor_cases hother with ⟨rfl, -⟩ | ⟨hj, hother⟩
    · rcases openFor_cases hi with ⟨hi, -⟩ | ⟨hi, -⟩ <;> omega
    rcases openFor_cases hi with ⟨-, rfl⟩ | ⟨-, hold⟩
    · refine ht.hasEnded_of_not_opened hnone hother hq fun k' hk' => ?_
      rwa [Option.some.inj (hk'.symm.trans (Lane.phase_opening_eq_waiting_iff.mp hphase))]
    · exact h.between i lane k hold hphase j other hkj hji hother hq

/-- After `openFor` the new lane is the open one of its partition, and the latest. -/
theorem Tended.openFor {ls : Lanes} (h : ls.Tended) {p : Partition}
    (hnone : ls.opened[p]? = none) : (ls.openFor p).2.Tended where
  opened q i hi := by
    rw [getElem?_opened_openFor] at hi
    split at hi
    · next hpq =>
        obtain rfl := Option.some.inj hi
        refine ⟨.opening p ls.retired[p]?, ?_, hpq, ?_⟩
        · rw [getElem?_openFor, if_pos rfl]
        · rcases ls.retired[p]? <;> rfl
    · obtain ⟨lane, hlane, hq, ho⟩ := h.opened q i hi
      exact ⟨lane, getElem?_openFor_of_some p hlane, hq, ho⟩
  latest q i hi j lane hlane hq := by
    rw [getElem?_opened_openFor] at hi
    split at hi
    · obtain rfl := Option.some.inj hi
      rcases openFor_cases hlane with ⟨rfl, -⟩ | ⟨hlt, -⟩
      · exact le_rfl
      · exact hlt.le
    · next hpq =>
        rcases openFor_cases hlane with ⟨-, rfl⟩ | ⟨-, hold⟩
        · exact absurd hq hpq
        · exact h.latest q i hi j lane hold hq
  isOpen i lane hi ho := by
    rw [getElem?_opened_openFor]
    rcases openFor_cases hi with ⟨rfl, rfl⟩ | ⟨-, hold⟩
    · exact if_pos rfl
    · have hat := h.isOpen i lane hold ho
      rw [if_neg, hat]
      rintro rfl
      rw [hnone] at hat
      cases hat
  retired q i hi := by
    rw [getElem?_retired_openFor] at hi
    split at hi
    · cases hi
    · next hpq =>
        obtain ⟨hq, lane, hlane, hpartition⟩ := h.retired q i hi
        refine ⟨?_, lane, getElem?_openFor_of_some p hlane, hpartition⟩
        rw [getElem?_opened_openFor, if_neg hpq, hq]
  -- `p` has an open lane now, and at all other partitions nothing has changed
  held i lane hi hended hq := by
    rw [getElem?_opened_openFor] at hq
    split at hq
    · cases hq
    · next hpq =>
        rcases openFor_cases hi with ⟨-, rfl⟩ | ⟨-, hold⟩
        · exact absurd rfl hpq
        · rw [getElem?_retired_openFor, if_neg hpq]
          exact h.held i lane hold hended hq

/-! ### Closing -/

/-- Lanes stay in order when nothing but their tables changes. -/
theorem WellFormed.of_all_eq {ls ls' : Lanes} (h : ls.WellFormed) (hall : ls'.all = ls.all) :
    ls'.WellFormed := by
  apply h.update fun _ lane => lane
  · intro j
    rw [hall, Option.map_id']
  · intro j lane hj
    exact h.allows_self hj

/-- Shutting a lane keeps the lanes in order. -/
theorem WellFormed.shut {ls : Lanes} (h : ls.WellFormed) (ht : ls.Tended) {p : Partition} {i : Nat}
    (hi : ls.opened[p]? = some i) : (ls.shut p i).WellFormed := by
  obtain ⟨lane, hlane, -⟩ := ht.opened p i hi
  exact (h.modify hlane (h.allows_close hlane)).of_all_eq rfl

/-- After `shut p i` the partition `p` has no open lane. -/
theorem getElem?_opened_shut (ls : Lanes) (p : Partition) (i : Nat) (q : Partition) :
    (ls.shut p i).opened[q]? = if p = q then none else ls.opened[q]? :=
  Partition.getElem?_erase ls.opened p q

/-- Shutting closes lane `i` and leaves all others. -/
theorem getElem?_all_shut (ls : Lanes) (p : Partition) (i j : Nat) :
    (ls.shut p i).all[j]? = if i = j then ls.all[j]?.map Lane.close else ls.all[j]? :=
  getElem?_modify ls i Lane.close j

/-- Each lane was there before `shut p i`, and was open then if it still is. -/
theorem exists_of_getElem?_shut {ls : Lanes} (p : Partition) {i j : Nat} {new : Lane}
    (hnew : (ls.shut p i).all[j]? = some new) :
    ∃ old : Lane, ls.all[j]? = some old ∧ new.partition = old.partition ∧
      new.hasEnded = old.hasEnded ∧ (new.isOpen = true → j ≠ i ∧ old.isOpen = true) := by
  rw [getElem?_all_shut] at hnew
  split at hnew
  · obtain ⟨old, hold, rfl⟩ := Option.map_eq_some_iff.mp hnew
    exact ⟨old, hold, rfl, rfl, fun ho => by cases ho⟩
  · next hij => exact ⟨new, hnew, rfl, rfl, fun ho => ⟨fun hji => hij hji.symm, ho⟩⟩

/-- Each lane is there after `shut p i`, and every other one is open as before. -/
theorem exists_getElem?_shut {ls : Lanes} (p : Partition) (i : Nat) {j : Nat} {old : Lane}
    (hold : ls.all[j]? = some old) :
    ∃ new : Lane, (ls.shut p i).all[j]? = some new ∧ new.partition = old.partition ∧
      (j ≠ i → new.isOpen = old.isOpen) := by
  rw [getElem?_all_shut]
  split
  · next hij => exact ⟨old.close, by rw [hold]; rfl, rfl, fun hne => absurd hij.symm hne⟩
  · exact ⟨old, hold, rfl, fun _ => rfl⟩

/-- No lane of a partition is left when its latest one has ended. -/
theorem WellFormed.hasEnded_of_latest {ls : Lanes} (h : ls.WellFormed) {k : Nat} {latest : Lane}
    (hk : ls.all[k]? = some latest) (hended : latest.hasEnded = true) {j : Nat} {lane : Lane}
    (hj : ls.all[j]? = some lane) (hle : j ≤ k) (hpartition : lane.partition = latest.partition) :
    lane.hasEnded = true := by
  rcases Nat.lt_or_eq_of_le hle with hlt | rfl
  · exact h.endedBefore_of_hasEnded hk hended j lane hlt hj hpartition
  · obtain rfl : latest = lane := Option.some.inj (hk.symm.trans hj)
    exact hended

section

variable {ls : Lanes} {p : Partition} {i : Nat}

/-- After `shut` another partition has the open lane that it had, and that lane is still open. -/
theorem Tended.opened_shut (h : ls.Tended) (hi : ls.opened[p]? = some i) {q : Partition} {k : Nat}
    (hk : (ls.shut p i).opened[q]? = some k) :
    ∃ lane : Lane, (ls.shut p i).all[k]? = some lane ∧ lane.partition = q ∧ lane.isOpen = true := by
  rw [getElem?_opened_shut] at hk
  split at hk
  · cases hk
  · next hpq =>
      obtain ⟨old, hold, hq, ho⟩ := h.opened q k hk
      obtain ⟨new, hnew, hpartition, hopen⟩ := exists_getElem?_shut p i hold
      refine ⟨new, hnew, hpartition.trans hq, (hopen ?_).trans ho⟩
      rintro rfl
      obtain ⟨last, hlast, hlastp, -⟩ := h.opened p k hi
      obtain rfl : last = old := Option.some.inj (hlast.symm.trans hold)
      exact hpq (hlastp.symm.trans hq)

/-- A lane that is open after `shut` is the open one of its partition. -/
theorem Tended.isOpen_shut (h : ls.Tended) (hi : ls.opened[p]? = some i) {j : Nat} {lane : Lane}
    (hj : (ls.shut p i).all[j]? = some lane) (ho : lane.isOpen = true) :
    (ls.shut p i).opened[lane.partition]? = some j := by
  obtain ⟨old, hold, hpartition, -, hopen⟩ := exists_of_getElem?_shut p hj
  obtain ⟨hji, hold'⟩ := hopen ho
  have hat := h.isOpen j old hold hold'
  rw [getElem?_opened_shut, hpartition, if_neg, hat]
  rintro rfl
  exact hji (Option.some.inj (hat.symm.trans hi))

/-- A lane of `p` that has not ended after `shut p i` is no later than `i`, and lane `i` has not
ended either. -/
theorem Tended.live_of_shut (h : ls.Tended) (hwf : ls.WellFormed) (hi : ls.opened[p]? = some i)
    {j : Nat} {lane : Lane} (hj : ls.all[j]? = some lane) (hp : lane.partition = p)
    (hlive : lane.hasEnded = false) : j ≤ i ∧ ls.hasEnded i = false := by
  have hle := h.latest p i hi j lane hj hp
  refine ⟨hle, Bool.eq_false_iff.mpr fun hended => ?_⟩
  obtain ⟨last, hlast, hlastEnded⟩ := hasEnded_eq_true_iff.mp hended
  obtain ⟨last', hlast', hlastp, -⟩ := h.opened p i hi
  obtain rfl : last = last' := Option.some.inj (hlast.symm.trans hlast')
  have hover := hwf.hasEnded_of_latest hlast hlastEnded hj hle (hp.trans hlastp.symm)
  rw [hlive] at hover
  cases hover

/-- A lane can be taken away from its partition when it is retired in its place, or when it has
ended already and there is no one to wait for. -/
theorem Tended.shut (h : ls.Tended) (hwf : ls.WellFormed) (hi : ls.opened[p]? = some i)
    {retired : Partition.Table Nat} (hothers : ∀ q, p ≠ q → retired[q]? = ls.retired[q]?)
    (hown : retired[p]? = some i ∨ retired[p]? = none ∧ ls.hasEnded i = true) :
    Tended { ls.shut p i with retired := retired } where
  opened _ _ hk := h.opened_shut hi hk
  latest q k hk j new hnew hq := by
    obtain ⟨old, hold, hpartition, -⟩ := exists_of_getElem?_shut p hnew
    refine h.latest q k ?_ j old hold (hpartition.symm.trans hq)
    have hk' : (ls.shut p i).opened[q]? = some k := hk
    rw [getElem?_opened_shut] at hk'
    split at hk'
    · cases hk'
    · exact hk'
  isOpen _ _ hj ho := h.isOpen_shut hi hj ho
  retired q k hk := by
    show (ls.shut p i).opened[q]? = none ∧ _
    rw [getElem?_opened_shut]
    by_cases hpq : p = q
    · subst hpq
      rcases hown with hsome | ⟨hnone, -⟩
      · obtain rfl : i = k := Option.some.inj (hsome.symm.trans hk)
        obtain ⟨last, hlast, hlastp, -⟩ := h.opened p i hi
        obtain ⟨new, hnew, hpartition, -⟩ := exists_getElem?_shut p i hlast
        exact ⟨if_pos rfl, new, hnew, hpartition.trans hlastp⟩
      · cases hnone.symm.trans hk
    · obtain ⟨hnone, old, hold, hq⟩ := h.retired q k ((hothers q hpq).symm.trans hk)
      obtain ⟨new, hnew, hpartition, -⟩ := exists_getElem?_shut p i hold
      exact ⟨(if_neg hpq).trans hnone, new, hnew, hpartition.trans hq⟩
  held j new hnew hlive hnone := by
    obtain ⟨old, hold, hpartition, hended, -⟩ := exists_of_getElem?_shut p hnew
    have hstill : old.hasEnded = false := hended.symm.trans hlive
    have hnone' : (ls.shut p i).opened[new.partition]? = none := hnone
    rw [getElem?_opened_shut, hpartition] at hnone'
    show ∃ k, retired[new.partition]? = some k ∧ j ≤ k
    rw [hpartition]
    -- a live lane of `p` is not behind the one that is retired
    by_cases hp : p = old.partition
    · obtain ⟨hle, hnot⟩ := h.live_of_shut hwf hi hold hp.symm hstill
      rcases hown with hsome | ⟨-, hdone⟩
      · exact ⟨i, hp ▸ hsome, hle⟩
      · cases hnot.symm.trans hdone
    · rw [if_neg hp] at hnone'
      rw [hothers _ hp]
      exact h.held j old hold hstill hnone'

end

/-- Shutting a lane touches no request. -/
theorem pending_shut {ls : Lanes} (ht : ls.Tended) {p : Partition} {i : Nat}
    (hi : ls.opened[p]? = some i) (q : Partition) : (ls.shut p i).pending q = ls.pending q := by
  obtain ⟨lane, hlane, -⟩ := ht.opened p i hi
  exact pending_modify_of_eq hlane rfl rfl q

/-! ### Requests -/

/-- A lane is found or opened for every partition, and a new one is alive. It is the open one, and
no request is touched. -/
theorem laneFor_spec {ls : Lanes} (h : ls.WellFormed) (ht : ls.Tended) (p : Partition) :
    (ls.laneFor p).2.WellFormed ∧ (ls.laneFor p).2.Tended ∧
      (ls.laneFor p).2.opened[p]? = some (ls.laneFor p).1 ∧
      (∀ q, (ls.laneFor p).2.pending q = ls.pending q) ∧
      (ls.opened[p]? = none → (ls.laneFor p).2.hasEnded (ls.laneFor p).1 = false) := by
  unfold laneFor
  rcases hopened : ls.opened[p]? with _ | i
  · refine ⟨h.openFor ht hopened, ht.openFor hopened, ?_, pending_openFor ls p, fun _ => ?_⟩
    · exact (Partition.getElem?_insert ls.opened p p ls.all.size).trans (if_pos rfl)
    · rw [Bool.eq_false_iff, ne_eq, hasEnded_eq_true_iff]
      rintro ⟨lane, hlane, hended⟩
      have hnew := getElem?_openFor ls p ls.all.size
      rw [if_pos rfl] at hnew
      obtain rfl := Option.some.inj (hnew.symm.trans hlane)
      simp at hended
  · exact ⟨h, ht, hopened, fun _ => rfl, fun hnone => by cases hnone⟩

/-- What `route` comes to: the lanes stay well-formed and tended, and `r` stands behind all other
pending requests of its partition. -/
structure Takes (ls ls' : Lanes) (r : Request) : Prop where
  /-- The lanes stay in order. -/
  wellFormed : ls'.WellFormed
  /-- Every lane is held as before. -/
  tended : ls'.Tended
  /-- The request is the last of its partition. -/
  pending : ∀ q, ls'.pending q = ls.pending q ++ if r.partition = q then [r] else []

/-- A request that is pushed to the open lane of its partition comes last: `Takes`. -/
theorem takes_push {ls : Lanes} (h : ls.WellFormed) (ht : ls.Tended) {r : Request} {i : Nat}
    (hi : ls.opened[r.partition]? = some i) (hlive : ls.hasEnded i = false) :
    ls.Takes (ls.modify i (·.push r)) r := by
  obtain ⟨lane, hlane, hp, -⟩ := ht.opened r.partition i hi
  have hlaneLive : lane.hasEnded = false := by
    rw [Bool.eq_false_iff]
    intro hended
    rw [hasEnded_eq_true_iff.mpr ⟨lane, hlane, hended⟩] at hlive
    cases hlive
  have hallows : ls.Allows i lane (lane.push r) := by
    refine h.allows_of_phase hlane rfl rfl ?_ fun hended => ?_
    · intro x hx
      rw [Lane.pending_push, List.mem_append, List.mem_singleton] at hx
      rcases hx with hx | rfl
      · exact h.own i lane hlane x hx
      · exact hp.symm
    · rw [Lane.hasEnded_push, hlaneLive] at hended
      cases hended
  refine ⟨h.modify hlane hallows, ht.modify hlane hallows rfl, fun q => ?_⟩
  rw [pending_modify hlane (by rfl)]
  split
  · next hq =>
      subst hq
      have hnone := pendingAfter_eq_nil (ht.latest _ i (hp ▸ hi))
      rw [Lane.pending_push, if_pos hp.symm, pending_eq_append hlane, hnone]
      simp only [List.append_nil, List.append_assoc]
  · next hq =>
      rw [if_neg (hp ▸ hq), List.append_nil]

/-- The lanes `found`, in which lane `k` is the one that `ls.route r` hands `r` to: it is
`found.opened[r.partition]?`, and it has not ended. `exists_found` shows that there is one. -/
structure Finds (ls : Lanes) (r : Request) (k : Nat) (found : Lanes) : Prop where
  /-- It was there or has been opened, if need be in place of one that was given up. -/
  origin : found = (ls.laneFor r.partition).2 ∨
    ∃ i, found = (((ls.laneFor r.partition).2.shut r.partition i).laneFor r.partition).2
  /-- The lanes are in order. -/
  wellFormed : found.WellFormed
  /-- Every lane is held. -/
  tended : found.Tended
  /-- The lane is the one that takes the partition's requests. -/
  opened : found.opened[r.partition]? = some k
  /-- The lane has not ended. -/
  live : found.hasEnded k = false
  /-- No request is touched. -/
  pending : ∀ q, found.pending q = ls.pending q
  /-- The lane takes the request. -/
  accepted : (ls.route r).accepted = true
  /-- The request comes last in it. -/
  lanes : (ls.route r).lanes = found.modify k (·.push r)

/-- **A live lane is found for every request** (`Finds`), if need be a new one in place of one that
crashed. -/
theorem exists_found {ls : Lanes} (h : ls.WellFormed) (ht : ls.Tended) (r : Request) :
    ∃ k found, ls.Finds r k found := by
  obtain ⟨hwf, htended, hopened, hpending, -⟩ := laneFor_spec h ht r.partition
  rcases hlane : ls.laneFor r.partition with ⟨i, found⟩
  rw [hlane] at hwf htended hopened hpending
  rcases hended : found.hasEnded i with _ | _
  · refine ⟨i, found, .inl (by rw [hlane]), hwf, htended, hopened, hended, hpending, ?_, ?_⟩
    all_goals simp only [route, hlane, send?, hended, Bool.false_eq_true, if_false]
  · -- the open lane has crashed and is given up
    have hretired : found.retired[r.partition]? = none := by
      rcases hr : found.retired[r.partition]? with _ | k
      · rfl
      · rw [(htended.retired r.partition k hr).1] at hopened
        cases hopened
    have hshutwf := hwf.shut htended hopened
    have hshut : (found.shut r.partition i).Tended :=
      htended.shut hwf hopened (fun _ _ => rfl) (.inr ⟨hretired, hended⟩)
    have hnone : (found.shut r.partition i).opened[r.partition]? = none :=
      (Partition.getElem?_erase found.opened r.partition r.partition).trans (if_pos rfl)
    obtain ⟨hwf', htended', hopened', hpending', hlive⟩ :=
      laneFor_spec hshutwf hshut r.partition
    rcases hlane' : (found.shut r.partition i).laneFor r.partition with ⟨j, fresh⟩
    rw [hlane'] at hwf' htended' hopened' hpending' hlive
    have hfresh : fresh.hasEnded j = false := hlive hnone
    refine ⟨j, fresh, .inr ⟨i, by rw [hlane, hlane']⟩, hwf', htended', hopened', hfresh,
      fun q => ?_, ?_, ?_⟩
    · rw [hpending', pending_shut htended hopened, hpending]
    all_goals
      simp only [route, hlane, send?, hended, if_true, hlane', hfresh, Bool.false_eq_true,
        if_false]

/-- **Routing loses no request**: `(ls.route r).accepted`, and `Takes` says that the request stands
behind all earlier ones of its partition. -/
theorem route_spec {ls : Lanes} (h : ls.WellFormed) (ht : ls.Tended) (r : Request) :
    (ls.route r).accepted = true ∧ ls.Takes (ls.route r).lanes r := by
  obtain ⟨k, found, hfound⟩ := exists_found h ht r
  have htakes := takes_push hfound.wellFormed hfound.tended hfound.opened hfound.live
  rw [hfound.lanes]
  refine ⟨hfound.accepted, htakes.wellFormed, htakes.tended, fun q => ?_⟩
  rw [htakes.pending, hfound.pending]

/-! ### Revoking and draining -/

/-- Pruning forgets the retired lanes that have ended. -/
theorem getElem?_retired_prune (ls : Lanes) (p : Partition) :
    ls.prune.retired[p]? = ls.retired[p]?.filter fun i => !ls.hasEnded i :=
  Std.ExtTreeMap.getElem?_filter'

/-- A retired lane that has ended need not be remembered: nothing before it is left. -/
theorem Tended.prune {ls : Lanes} (h : ls.Tended) (hwf : ls.WellFormed) : ls.prune.Tended where
  opened := h.opened
  latest := h.latest
  isOpen := h.isOpen
  retired p i hi := by
    rw [getElem?_retired_prune, Option.filter_eq_some_iff] at hi
    exact h.retired p i hi.1
  held i lane hi hlive hnone := by
    obtain ⟨k, hk, hle⟩ := h.held i lane hi hlive hnone
    refine ⟨k, ?_, hle⟩
    rw [getElem?_retired_prune, hk, Option.filter_some, if_pos]
    rw [Bool.not_eq_true', Bool.eq_false_iff]
    intro hended
    obtain ⟨last, hlast, hlastEnded⟩ := hasEnded_eq_true_iff.mp hended
    obtain ⟨-, last', hlast', hp⟩ := h.retired _ k hk
    obtain rfl : last = last' := Option.some.inj (hlast.symm.trans hlast')
    rcases Nat.lt_or_eq_of_le hle with hlt | rfl
    · rw [hwf.endedBefore_of_hasEnded hlast hlastEnded i lane hlt hi hp.symm] at hlive
      cases hlive
    · obtain rfl : lane = last := Option.some.inj (hi.symm.trans hlast)
      rw [hlastEnded] at hlive
      cases hlive

/-- Revoking preserves both invariants and touches no request. -/
theorem revoke_spec {ls : Lanes} (h : ls.WellFormed) (ht : ls.Tended) (p : Partition) :
    (ls.revoke p).1.WellFormed ∧ (ls.revoke p).1.Tended ∧
      ∀ q, (ls.revoke p).1.pending q = ls.pending q := by
  have hwf : ls.prune.WellFormed := h.of_all_eq rfl
  have htended := ht.prune h
  unfold revoke
  rcases hopened : ls.prune.opened[p]? with _ | i
  · simp only [hopened]
    exact ⟨hwf, htended, fun _ => rfl⟩
  · simp only [hopened]
    have hothers : ∀ q, p ≠ q →
        (ls.prune.retired.insert p i)[q]? = ls.prune.retired[q]? := fun q hpq => by
      rw [Partition.getElem?_insert, if_neg hpq]
    have hown : (ls.prune.retired.insert p i)[p]? = some i := by
      rw [Partition.getElem?_insert, if_pos rfl]
    exact ⟨(hwf.shut htended hopened).of_all_eq rfl, htended.shut hwf hopened hothers (.inl hown),
      pending_shut htended hopened⟩

/-- Draining keeps the lanes in order and touches no request. -/
theorem drain_spec {ls : Lanes} (h : ls.WellFormed) :
    ls.drain.2.WellFormed ∧ ∀ q, ls.drain.2.pending q = ls.pending q := by
  constructor
  · apply h.update fun _ => Lane.close
    · intro j
      exact Array.getElem?_map
    · intro j lane hj
      exact h.allows_close hj
  · exact pending_map rfl (fun _ => rfl) fun _ => rfl

end OffsetCommit.Lanes
