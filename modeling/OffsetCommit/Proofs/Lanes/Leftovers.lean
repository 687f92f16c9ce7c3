import OffsetCommit.Proofs.Lanes.Custody

/-!
# Lanes without their leftovers

A lane that has ended is not gone at once. The table of retired lanes may still name it, and a lane
that waits for it has not noticed yet. Nothing comes of either: `Lanes.tidied` forgets the one and
brings the other about.

* `IgnoresLeftovers`: whatever is done to lanes comes to the same when they are tidied before
  (`ignoresLeftovers_openFor`, `ignoresLeftovers_revoke`, `route_alike`).
* `tidied_revoke_comm`: the order in which two partitions are revoked leaves nothing but
  leftovers.
* `tidied_woundUp_revokeEach`: winding up after several revocations makes up for what was not
  wound up before them.
-/

namespace OffsetCommit

namespace Lane

/-! ### Lanes that notice -/

/-- The lane when it has noticed that the lane it waits for has ended, if that has. -/
def woken (ended : Nat → Bool) (lane : Lane) : Lane :=
  match lane.phase with
  | .waiting k => if ended k then { lane with phase := .ready } else lane
  | _ => lane

variable {ended ended' : Nat → Bool}

/-- A lane is as it was when woken, or it waits for one that has ended and becomes `.ready`. -/
theorem woken_cases (ended : Nat → Bool) (lane : Lane) :
    lane.woken ended = lane ∧ (∀ k, lane.phase = .waiting k → ended k = false) ∨
      ∃ k, lane.phase = .waiting k ∧ ended k = true ∧
        lane.woken ended = { lane with phase := .ready } := by
  unfold woken
  rcases hphase : lane.phase with k | _ | ⟨r, due⟩ | crashed
  · rcases hk : ended k
    · refine .inl ⟨by simp only [hk]; rfl, fun j hj => ?_⟩
      cases hj
      exact hk
    · exact .inr ⟨k, rfl, hk, by simp only [hk]; rfl⟩
  · exact .inl ⟨rfl, fun k hk => by cases hk⟩
  · exact .inl ⟨rfl, fun k hk => by cases hk⟩
  · exact .inl ⟨rfl, fun k hk => by cases hk⟩

/-- A lane that does not wait has nothing to notice. -/
theorem woken_of_not_waiting {lane : Lane} (h : ∀ k, lane.phase ≠ .waiting k) :
    lane.woken ended = lane := by
  rcases lane.woken_cases ended with ⟨heq, -⟩ | ⟨k, hk, -⟩
  · exact heq
  · exact absurd hk (h k)

/-- Waking changes nothing about how a lane has ended. -/
@[simp] theorem ending?_woken (lane : Lane) : (lane.woken ended).ending? = lane.ending? := by
  rcases lane.woken_cases ended with ⟨heq, -⟩ | ⟨k, hk, -, heq⟩
  · rw [heq]
  · rw [heq, ending?, ending?, hk]

/-- Waking changes nothing about when its commit is decided. -/
@[simp] theorem due?_woken (lane : Lane) : (lane.woken ended).due? = lane.due? := by
  rcases lane.woken_cases ended with ⟨heq, -⟩ | ⟨k, hk, -, heq⟩
  · rw [heq]
  · rw [heq, due?, due?, hk]

/-- What was noticed before need not be noticed again. -/
theorem woken_woken (h : ∀ k, ended k = true → ended' k = true) (lane : Lane) :
    (lane.woken ended).woken ended' = lane.woken ended' := by
  rcases lane.woken_cases ended with ⟨heq, -⟩ | ⟨k, hk, hended, heq⟩
  · rw [heq]
  · rw [heq, woken_of_not_waiting fun _ => Phase.noConfusion, woken, hk]
    simp only [h k hended, if_true]

/-- Whether `f` comes to the same on a lane that has noticed before what it notices afterwards. -/
def IgnoresWaking (f : Lane → Lane) : Prop :=
  ∀ ended ended' : Nat → Bool, (∀ k, ended k = true → ended' k = true) →
    ∀ lane, (f (lane.woken ended)).woken ended' = (f lane).woken ended'

/-- A change that commutes with waking, as it leaves the phase alone, ignores waking. -/
theorem ignoresWaking_of_comm {f : Lane → Lane}
    (h : ∀ ended lane, f (woken ended lane) = (f lane).woken ended) : IgnoresWaking f := by
  intro ended ended' hle lane
  rw [h, woken_woken hle]

/-- A change after which it cannot be told whether the lane was woken ignores waking. -/
theorem ignoresWaking_of_eq {f : Lane → Lane} (h : ∀ ended lane, f (woken ended lane) = f lane) :
    IgnoresWaking f := by
  intro ended ended' _ lane
  rw [h]

/-- Queueing a request commutes with waking. -/
theorem push_woken (r : Request) (ended : Nat → Bool) (lane : Lane) :
    (lane.woken ended).push r = (lane.push r).woken ended := by
  unfold woken
  rcases hphase : lane.phase with k | _ | ⟨r, due⟩ | crashed
  · rcases hk : ended k <;> simp [push, hphase, hk]
  all_goals simp [push, hphase]

/-- Closing commutes with waking. -/
theorem close_woken (ended : Nat → Bool) (lane : Lane) :
    (lane.woken ended).close = lane.close.woken ended := by
  unfold woken
  rcases hphase : lane.phase with k | _ | ⟨r, due⟩ | crashed
  · rcases hk : ended k <;> simp [close, hphase, hk]
  all_goals simp [close, hphase]

/-- Setting the phase ignores waking. -/
theorem ignoresWaking_setPhase (phase : Phase) :
    IgnoresWaking fun lane => { lane with phase := phase } := by
  refine ignoresWaking_of_eq fun ended lane => ?_
  rcases lane.woken_cases ended with ⟨heq, -⟩ | ⟨k, -, -, heq⟩ <;> rw [heq]

/-- Setting the queue and the phase ignores waking. -/
theorem ignoresWaking_setQueue (queue : Queue Request) (phase : Phase) :
    IgnoresWaking fun lane => { lane with queue := queue, phase := phase } := by
  refine ignoresWaking_of_eq fun ended lane => ?_
  rcases lane.woken_cases ended with ⟨heq, -⟩ | ⟨k, -, -, heq⟩ <;> rw [heq]

end Lane

namespace Lanes

/-! ### Tidying up -/

/-- The lanes when every lane has noticed what it waits for, and retired lanes that have ended are
forgotten. -/
def tidied (ls : Lanes) : Lanes :=
  { ls.prune with all := ls.all.map (Lane.woken ls.hasEnded) }

/-- The lane at place `i` of the tidied lanes is the woken one. -/
theorem getElem?_tidied (ls : Lanes) (i : Nat) :
    ls.tidied.all[i]? = ls.all[i]?.map (Lane.woken ls.hasEnded) :=
  Array.getElem?_map

/-- Tidying changes nothing about how lanes have ended. -/
theorem ending?_tidied (ls : Lanes) (i : Nat) : ls.tidied.ending? i = ls.ending? i := by
  rw [ending?, getElem?_tidied, ending?]
  rcases ls.all[i]? with _ | lane
  · rfl
  · exact lane.ending?_woken

/-- To tidy lanes ends none of them. -/
theorem hasEnded_tidied (ls : Lanes) : ls.tidied.hasEnded = ls.hasEnded := by
  funext i
  rw [hasEnded, ending?_tidied, hasEnded]

/-- Lanes are the same when tidied if they are the same up to leftovers: woken lanes, open lanes,
and retired ones that have not ended. -/
theorem tidied_eq {ls ls' : Lanes} (hended : ls.hasEnded = ls'.hasEnded)
    (hall : ∀ i : Nat, ls.all[i]?.map (Lane.woken ls'.hasEnded) =
      ls'.all[i]?.map (Lane.woken ls'.hasEnded))
    (hopened : ∀ p : Partition, ls.opened[p]? = ls'.opened[p]?)
    (hretired : ∀ p : Partition, (ls.retired[p]?.filter fun i => !ls'.hasEnded i) =
      ls'.retired[p]?.filter fun i => !ls'.hasEnded i) : ls.tidied = ls'.tidied := by
  have hlanes : ls.tidied.all = ls'.tidied.all := by
    apply Array.ext_getElem?
    intro i
    rw [getElem?_tidied, getElem?_tidied, hended, hall]
  have htable : ls.tidied.retired = ls'.tidied.retired := by
    apply Std.ExtTreeMap.ext_getElem?
    intro p
    show ls.prune.retired[p]? = ls'.prune.retired[p]?
    rw [getElem?_retired_prune, getElem?_retired_prune, hended, hretired]
  rw [mk.injEq]
  exact ⟨hlanes, Std.ExtTreeMap.ext_getElem? hopened, htable⟩

/-- A lane that has been forgotten because it had ended need not be forgotten later. -/
theorem filter_live_filter_live {ended ended' : Nat → Bool}
    (hle : ∀ k, ended k = true → ended' k = true) (i : Option Nat) :
    ((i.filter fun i => !ended i).filter fun i => !ended' i) = i.filter fun i => !ended' i := by
  rw [Option.filter_filter]
  congr 1
  funext i
  rcases hi : ended i
  · simp
  · simp [hle i hi]

/-- What is left in the table after tidying is what is left in it later. -/
theorem retired_of_tidied (ls : Lanes) {ended : Nat → Bool}
    (hle : ∀ k, ls.hasEnded k = true → ended k = true) (p : Partition) :
    (ls.tidied.retired[p]?.filter fun i => !ended i) =
      ls.retired[p]?.filter fun i => !ended i := by
  show (ls.prune.retired[p]?.filter _) = _
  rw [getElem?_retired_prune, filter_live_filter_live hle]

/-- Whether `g` comes to the same on tidied lanes: `(g ls).tidied = (g ls.tidied).tidied`. -/
def IgnoresLeftovers (g : Lanes → Lanes) : Prop :=
  ∀ ls, (g ls).tidied = (g ls.tidied).tidied

/-- A change that ignores leftovers leads from lanes with the same `tidied` to such lanes. -/
theorem IgnoresLeftovers.alike {g : Lanes → Lanes} (h : IgnoresLeftovers g) {ls ls' : Lanes}
    (heq : ls.tidied = ls'.tidied) : (g ls).tidied = (g ls').tidied := by
  rw [h ls, heq, ← h ls']

/-! ### Changes of one lane -/

/-- Modifying a lane without bringing it back leaves those that have ended. -/
theorem hasEnded_modify {ls : Lanes} {i : Nat} {f : Lane → Lane}
    (hlive : ∀ lane, ls.all[i]? = some lane → lane.hasEnded = true → (f lane).hasEnded = true)
    {k : Nat} (hk : ls.hasEnded k = true) : (ls.modify i f).hasEnded k = true := by
  obtain ⟨lane, hlane, hended⟩ := hasEnded_eq_true_iff.mp hk
  rw [hasEnded_eq_true_iff]
  by_cases hik : i = k
  · subst hik
    exact ⟨f lane, by rw [getElem?_modify, if_pos rfl, hlane]; rfl, hlive lane hlane hended⟩
  · exact ⟨lane, by rw [getElem?_modify, if_neg hik, hlane], hended⟩

/-- A change of a lane that ignores waking ignores leftovers, if the lane does not come back by it. -/
theorem tidied_modify {ls : Lanes} {i : Nat} {f : Lane → Lane} (hf : Lane.IgnoresWaking f)
    (hlive : ∀ lane, ls.all[i]? = some lane → lane.hasEnded = true → (f lane).hasEnded = true) :
    (ls.modify i f).tidied = (ls.tidied.modify i f).tidied := by
  have hended : (ls.modify i f).hasEnded = (ls.tidied.modify i f).hasEnded := by
    funext k
    rw [hasEnded, hasEnded, ending?, ending?, getElem?_modify, getElem?_modify, getElem?_tidied]
    rcases ls.all[k]? with _ | lane
    · split <;> rfl
    · have hsame : (f (lane.woken ls.hasEnded)).ending? = (f lane).ending? := by
        rw [← @Lane.ending?_woken ls.hasEnded, hf _ _ (fun _ h => h), Lane.ending?_woken]
      split
      · exact congrArg Option.isSome hsame.symm
      · exact congrArg Option.isSome lane.ending?_woken.symm
  have hle : ∀ k, ls.hasEnded k = true → (ls.tidied.modify i f).hasEnded k = true := by
    rw [← hended]
    exact fun _ hk => hasEnded_modify hlive hk
  refine tidied_eq hended (fun k => ?_) (fun _ => rfl) fun p => (ls.retired_of_tidied hle p).symm
  rw [getElem?_modify, getElem?_modify, getElem?_tidied]
  rcases ls.all[k]? with _ | lane
  · split <;> rfl
  · split
    · exact congrArg some (hf _ _ hle lane).symm
    · exact congrArg some (Lane.woken_woken hle lane).symm

/-- Queueing a request ignores leftovers. -/
theorem ignoresLeftovers_push (i : Nat) (r : Request) :
    IgnoresLeftovers fun ls => ls.modify i (·.push r) := fun _ =>
  tidied_modify (Lane.ignoresWaking_of_comm fun ended lane => lane.push_woken r ended)
    fun lane _ hended => (lane.hasEnded_push r).trans hended

/-- Closing a lane ignores leftovers. -/
theorem ignoresLeftovers_close (i : Nat) : IgnoresLeftovers fun ls => ls.modify i .close := fun _ =>
  tidied_modify (Lane.ignoresWaking_of_comm fun ended lane => lane.close_woken ended)
    fun _ _ hended => hended

/-- Shutting a lane ignores leftovers. -/
theorem ignoresLeftovers_shut (p : Partition) (i : Nat) : IgnoresLeftovers fun ls => ls.shut p i := by
  intro ls
  show ({ ls.modify i .close with opened := ls.opened.erase p } : Lanes).tidied =
    ({ ls.tidied.modify i .close with opened := ls.opened.erase p } : Lanes).tidied
  exact congrArg (fun tidied : Lanes => { tidied with opened := ls.opened.erase p })
    (ignoresLeftovers_close i ls)

/-! ### Requests -/

/-- Opening a lane leaves which lanes have ended. -/
theorem hasEnded_openFor_eq (ls : Lanes) (p : Partition) :
    (ls.openFor p).2.hasEnded = ls.hasEnded := by
  funext k
  rw [hasEnded, hasEnded, ending?, ending?, getElem?_openFor]
  split
  · next hk =>
      have hnone : ls.all[k]? = none := Array.getElem?_eq_none hk.ge
      rw [hnone]
      exact Lane.hasEnded_opening p _
  · rfl

/-- Opening a lane ignores leftovers: a retired lane that has ended makes the new one wait, and
tidying wakes it. -/
theorem ignoresLeftovers_openFor (p : Partition) : IgnoresLeftovers fun ls => (ls.openFor p).2 := by
  intro ls
  have hended : (ls.openFor p).2.hasEnded = ls.hasEnded := ls.hasEnded_openFor_eq p
  have hended' : (ls.tidied.openFor p).2.hasEnded = ls.hasEnded :=
    (ls.tidied.hasEnded_openFor_eq p).trans ls.hasEnded_tidied
  have hsize : ls.tidied.all.size = ls.all.size := Array.size_map
  refine tidied_eq (hended.trans hended'.symm) (fun k => ?_) (fun q => ?_) fun q => ?_
  · rw [hended', getElem?_openFor, getElem?_openFor, hsize]
    split
    · -- a lane that is opened behind one that has ended notices it
      show some _ = some _
      have hretired : ls.tidied.retired[p]? = ls.retired[p]?.filter fun i => !ls.hasEnded i :=
        ls.getElem?_retired_prune p
      rw [hretired]
      rcases ls.retired[p]? with _ | i
      · rfl
      · rcases hi : ls.hasEnded i
        · simp [Option.filter, hi]
        · simp [Option.filter, hi, Lane.opening, Lane.woken]
    · rw [getElem?_tidied, Option.map_map]
      congr 1
      funext lane
      exact (Lane.woken_woken (fun _ h => h) lane).symm
  · show (ls.opened.insert p ls.all.size)[q]? = (ls.opened.insert p ls.tidied.all.size)[q]?
    rw [hsize]
  · rw [hended']
    show ((ls.retired.erase p)[q]?.filter _) = ((ls.tidied.retired.erase p)[q]?.filter _)
    rw [Partition.getElem?_erase, Partition.getElem?_erase]
    split
    · rfl
    · exact (ls.retired_of_tidied (fun _ h => h) q).symm

section Alike

variable {ls ls' : Lanes} (h : ls.tidied = ls'.tidied)

include h

/-- Lanes with the same `tidied` have ended alike. -/
theorem hasEnded_alike : ls.hasEnded = ls'.hasEnded := by
  rw [← ls.hasEnded_tidied, h, ls'.hasEnded_tidied]

/-- Lanes that are the same when tidied find the same lane for `p` and are the same when tidied
afterwards. -/
theorem laneFor_alike (p : Partition) :
    (ls.laneFor p).1 = (ls'.laneFor p).1 ∧
      (ls.laneFor p).2.tidied = (ls'.laneFor p).2.tidied := by
  have hopened : ls.opened = ls'.opened := (congrArg opened h :)
  have hsize : ls.all.size = ls'.all.size := by
    have htidied := congrArg (fun tidied : Lanes => tidied.all.size) h
    simpa [tidied] using htidied
  unfold laneFor
  rw [hopened]
  rcases ls'.opened[p]? with _ | i
  · exact ⟨hsize, (ignoresLeftovers_openFor p).alike h⟩
  · exact ⟨rfl, h⟩

/-- A request is accepted by the same lane or refused by it. -/
theorem send?_alike (i : Nat) (r : Request) :
    (ls.send? i r).map tidied = (ls'.send? i r).map tidied := by
  unfold send?
  rw [hasEnded_alike h]
  split
  · rfl
  · exact congrArg some ((ignoresLeftovers_push i r).alike h)

/-- A request is routed alike. -/
theorem route_alike (r : Request) :
    (ls.route r).accepted = (ls'.route r).accepted ∧
      (ls.route r).lanes.tidied = (ls'.route r).lanes.tidied := by
  obtain ⟨hfirst, hfound⟩ := laneFor_alike h r.partition
  have hsent := send?_alike hfound (ls'.laneFor r.partition).1 r
  have hshut := (ignoresLeftovers_shut r.partition (ls'.laneFor r.partition).1).alike hfound
  obtain ⟨hsecond, hfound'⟩ := laneFor_alike hshut r.partition
  have hsent' := send?_alike hfound'
    (((ls'.laneFor r.partition).2.shut r.partition (ls'.laneFor r.partition).1).laneFor
      r.partition).1 r
  unfold route
  dsimp only
  rw [hfirst]
  rcases hlane : (ls.laneFor r.partition).2.send? (ls'.laneFor r.partition).1 r with _ | next <;>
    rcases hlane' : (ls'.laneFor r.partition).2.send? (ls'.laneFor r.partition).1 r with _ | next' <;>
    rw [hlane, hlane'] at hsent
  · dsimp only
    rw [hsecond]
    generalize ((ls.laneFor r.partition).2.shut r.partition (ls'.laneFor r.partition).1).laneFor
      r.partition = opened at hfound' hsent' ⊢
    rcases hlast : opened.2.send? _ r with _ | next <;> rcases hlast' : Lanes.send? _ _ r with _ | next' <;>
      rw [hlast, hlast'] at hsent'
    · exact ⟨rfl, hfound'⟩
    · cases hsent'
    · cases hsent'
    · exact ⟨rfl, Option.some.inj hsent'⟩
  · cases hsent
  · cases hsent
  · exact ⟨rfl, Option.some.inj hsent⟩

end Alike

/-! ### Revoking -/

section Revoking

variable (ls : Lanes) (p : Partition)

/-- Revoking closes the open lane of `p` and leaves all others. -/
theorem getElem?_all_revoke (k : Nat) : (ls.revoke p).1.all[k]? =
    if ls.opened[p]? = some k then ls.all[k]?.map .close else ls.all[k]? := by
  have hopened : ls.prune.opened = ls.opened := rfl
  unfold revoke
  dsimp only
  rw [hopened]
  rcases ls.opened[p]? with _ | i
  · rfl
  · simp only [Option.some.injEq]
    exact getElem?_modify ls i .close k

/-- Revoking leaves `p` without an open lane. -/
theorem getElem?_opened_revoke (q : Partition) : (ls.revoke p).1.opened[q]? =
    if p = q then none else ls.opened[q]? := by
  have hopened : ls.prune.opened = ls.opened := rfl
  unfold revoke
  dsimp only
  rw [hopened]
  rcases hp : ls.opened[p]? with _ | i
  · show ls.opened[q]? = _
    by_cases hpq : p = q
    · subst hpq
      rw [if_pos rfl, hp]
    · rw [if_neg hpq]
  · exact Partition.getElem?_erase ls.opened p q

/-- Revoking retires the open lane of `p`, in place of the one that was retired before. -/
theorem getElem?_retired_revoke (q : Partition) : (ls.revoke p).1.retired[q]? =
    (if p = q then ls.opened[q]? else none).or (ls.retired[q]?.filter fun i => !ls.hasEnded i) := by
  have hopened : ls.prune.opened = ls.opened := rfl
  have hretired := ls.getElem?_retired_prune q
  unfold revoke
  dsimp only
  rw [hopened]
  rcases hp : ls.opened[p]? with _ | i
  · by_cases hpq : p = q
    · subst hpq
      rw [if_pos rfl, hp]
      exact hretired
    · rw [if_neg hpq]
      exact hretired
  · show (ls.prune.retired.insert p i)[q]? = _
    rw [Partition.getElem?_insert]
    by_cases hpq : p = q
    · subst hpq
      rw [if_pos rfl, if_pos rfl, hp]
      rfl
    · rw [if_neg hpq, if_neg hpq]
      exact hretired

/-- Revoking ends no lane. -/
theorem hasEnded_revoke : (ls.revoke p).1.hasEnded = ls.hasEnded := by
  funext k
  rw [hasEnded, hasEnded, ending?, ending?, getElem?_all_revoke]
  split
  · rcases ls.all[k]? with _ | lane <;> rfl
  · rfl

end Revoking

/-- What is retired after a revocation, those aside that have ended: the open lane of `p`, if there
is one, and what was retired before. -/
theorem getElem?_retired_revoke_live (ls : Lanes) (p q : Partition) :
    ((ls.revoke p).1.retired[q]?.filter fun i => !ls.hasEnded i) =
      ((if p = q then ls.opened[q]? else none).or ls.retired[q]?).filter
        fun i => !ls.hasEnded i := by
  rw [getElem?_retired_revoke]
  rcases (if p = q then ls.opened[q]? else none) with _ | i
  · rw [Option.none_or, Option.none_or, Option.filter_filter]
    simp only [Bool.and_self]
  · rfl

/-- Revoking ignores leftovers. -/
theorem ignoresLeftovers_revoke (p : Partition) : IgnoresLeftovers fun ls => (ls.revoke p).1 := by
  intro ls
  have hended : (ls.tidied.revoke p).1.hasEnded = ls.hasEnded :=
    (ls.tidied.hasEnded_revoke p).trans ls.hasEnded_tidied
  have hopened : ls.tidied.opened = ls.opened := rfl
  refine tidied_eq ((ls.hasEnded_revoke p).trans hended.symm) (fun k => ?_) (fun q => ?_) fun q => ?_
  · rw [hended, getElem?_all_revoke, getElem?_all_revoke, getElem?_tidied, hopened]
    rcases ls.all[k]? with _ | lane
    · split <;> rfl
    · have hwoken := fun lane : Lane => lane.woken_woken fun k (hk : ls.hasEnded k = true) => hk
      split
      · exact congrArg some (by rw [Lane.close_woken, hwoken])
      · exact congrArg some (hwoken lane).symm
  · rw [getElem?_opened_revoke, getElem?_opened_revoke, hopened]
  · have hlive := ls.tidied.getElem?_retired_revoke_live p q
    rw [ls.hasEnded_tidied] at hlive
    rw [hended, getElem?_retired_revoke_live, hlive, hopened]
    rcases (if p = q then ls.opened[q]? else none) with _ | i
    · exact (ls.retired_of_tidied (fun _ h => h) q).symm
    · rfl

/-- **The order of two revocations leaves nothing but leftovers**: revoking `p` and `q` in either
order gives the same `tidied`. -/
theorem tidied_revoke_comm (ls : Lanes) (p q : Partition) :
    ((ls.revoke p).1.revoke q).1.tidied = ((ls.revoke q).1.revoke p).1.tidied := by
  have hended : ∀ p q, ((ls.revoke p).1.revoke q).1.hasEnded = ls.hasEnded := fun p q =>
    ((ls.revoke p).1.hasEnded_revoke q).trans (ls.hasEnded_revoke p)
  by_cases hpq : p = q
  · rw [hpq]
  refine tidied_eq ((hended p q).trans (hended q p).symm) (fun k => ?_) (fun r => ?_) fun r => ?_
  · simp only [getElem?_all_revoke, getElem?_opened_revoke, hpq, Ne.symm hpq, if_false]
    congr 1
    split <;> split <;> rfl
  · simp only [getElem?_opened_revoke]
    split <;> split <;> rfl
  · rw [hended q p]
    simp only [getElem?_retired_revoke, getElem?_opened_revoke, hasEnded_revoke]
    by_cases hp : p = r
    · have hq : q ≠ r := fun hq => hpq (hp.trans hq.symm)
      rcases ls.opened[r]? with _ | i <;> simp [hp, hq, Option.filter_filter]
    · rcases ls.opened[r]? with _ | i <;> by_cases hq : q = r <;>
        simp [hp, hq, Option.filter_filter]

/-- The lanes after `revoke` for each of the `partitions`, one after the other. -/
def revokeEach (ls : Lanes) (partitions : List Partition) : Lanes :=
  partitions.foldl (fun ls p => (ls.revoke p).1) ls

/-- Revoking several partitions ends no lane. -/
theorem hasEnded_revokeEach (ls : Lanes) (partitions : List Partition) :
    (ls.revokeEach partitions).hasEnded = ls.hasEnded := by
  induction partitions generalizing ls with
  | nil => rfl
  | cons p rest ih => exact (ih (ls.revoke p).1).trans (ls.hasEnded_revoke p)

/-- Revocations close lanes and do nothing else to them. -/
theorem exists_getElem?_of_revokeEach {ls : Lanes} {partitions : List Partition} {k : Nat}
    {new : Lane} (h : (ls.revokeEach partitions).all[k]? = some new) :
    ∃ old : Lane, ls.all[k]? = some old ∧ (new = old ∨ new = old.close) := by
  induction partitions generalizing ls with
  | nil => exact ⟨new, h, .inl rfl⟩
  | cons p rest ih =>
      have hrest : ((ls.revoke p).1.revokeEach rest).all[k]? = some new := h
      obtain ⟨between, hbetween, hnew⟩ := ih hrest
      rw [getElem?_all_revoke] at hbetween
      split at hbetween
      · obtain ⟨old, hold, rfl⟩ := Option.map_eq_some_iff.mp hbetween
        exact ⟨old, hold, .inr (hnew.elim id id)⟩
      · exact ⟨between, hbetween, hnew⟩

end Lanes

/-! ### Lanes with nothing to do -/

namespace Lane

/-- Whether a lane can do nothing but end: it is closed, its queue is empty, and it is `.ready`. -/
def isSpent (lane : Lane) : Bool :=
  lane.phase = .ready && !lane.isOpen && lane.queue.isEmpty

/-- The lane at its end, if there is nothing else left for it to do. -/
def woundUp (lane : Lane) : Lane :=
  if lane.isSpent then { lane with phase := .ended false } else lane

/-- A lane is spent when it is `.ready`, closed and without requests. -/
theorem isSpent_iff {lane : Lane} : lane.isSpent = true ↔
    lane.phase = .ready ∧ lane.isOpen = false ∧ lane.queue.toList = [] := by
  rw [isSpent, Bool.and_eq_true, Bool.and_eq_true, decide_eq_true_eq, Bool.not_eq_true',
    Queue.isEmpty_iff, and_assoc]

/-- A lane that has ended is not spent. -/
theorem not_isSpent_ended (lane : Lane) (crashed : Bool) :
    isSpent { lane with phase := .ended crashed } = false := rfl

/-- Winding a lane up twice is winding it up. -/
theorem woundUp_woundUp (lane : Lane) : lane.woundUp.woundUp = lane.woundUp := by
  rcases hspent : lane.isSpent
  · simp [woundUp, hspent]
  · simp [woundUp, hspent, not_isSpent_ended]

/-- Winding a lane up before it is closed and wound up makes no difference. -/
theorem woundUp_close_woundUp (lane : Lane) : lane.woundUp.close.woundUp = lane.close.woundUp := by
  rcases hspent : lane.isSpent
  · simp [woundUp, hspent]
  · have hclosed : lane.close.isSpent = true := by
      simp only [isSpent, Bool.and_eq_true] at hspent ⊢
      exact ⟨⟨hspent.1.1, rfl⟩, hspent.2⟩
    simp only [woundUp, hspent, hclosed, if_true]
    rfl

/-- A lane that has ended has ended when wound up. -/
theorem hasEnded_woundUp {lane : Lane} (h : lane.hasEnded = true) : lane.woundUp.hasEnded = true := by
  unfold woundUp
  split
  · rfl
  · exact h

end Lane

namespace Lanes

/-- The lanes when all that have nothing else to do have ended. -/
def woundUp (ls : Lanes) : Lanes :=
  { ls with all := ls.all.map Lane.woundUp }

/-- The lane at place `k` of the lanes wound up is the lane wound up. -/
theorem getElem?_woundUp (ls : Lanes) (k : Nat) :
    ls.woundUp.all[k]? = ls.all[k]?.map Lane.woundUp :=
  Array.getElem?_map

/-- A lane that is spent may end at once. -/
theorem woundUp_modify {ls : Lanes} {i : Nat} {lane : Lane} (hi : ls.all[i]? = some lane)
    (hspent : lane.isSpent = true) :
    (ls.modify i fun lane => { lane with phase := .ended false }).woundUp = ls.woundUp := by
  rw [woundUp, woundUp, mk.injEq]
  refine ⟨?_, rfl, rfl⟩
  apply Array.ext_getElem?
  intro k
  rw [Array.getElem?_map, Array.getElem?_map, getElem?_modify]
  split
  · next hik =>
      subst hik
      rw [hi]
      show some (Lane.woundUp { lane with phase := .ended false }) = some lane.woundUp
      simp only [Lane.woundUp, hspent, Lane.not_isSpent_ended, Bool.false_eq_true, if_true, if_false]
  · rfl

/-- Where no lane is spent, there is nothing to wind up. -/
theorem woundUp_of_none_spent {ls : Lanes}
    (h : ∀ (i : Nat) (lane : Lane), ls.all[i]? = some lane → lane.isSpent = false) :
    ls.woundUp = ls := by
  rw [woundUp, mk.injEq]
  refine ⟨?_, rfl, rfl⟩
  apply Array.ext_getElem?
  intro k
  rw [Array.getElem?_map]
  rcases hk : ls.all[k]? with _ | lane
  · rfl
  · simp only [Option.map_some, Lane.woundUp, h k lane hk, Bool.false_eq_true, if_false]

/-- Winding up brings no lane back. -/
theorem hasEnded_woundUp {ls : Lanes} {k : Nat} (h : ls.hasEnded k = true) :
    ls.woundUp.hasEnded k = true := by
  obtain ⟨lane, hlane, hended⟩ := hasEnded_eq_true_iff.mp h
  exact hasEnded_eq_true_iff.mpr
    ⟨lane.woundUp, by rw [getElem?_woundUp, hlane]; rfl, Lane.hasEnded_woundUp hended⟩

/-- Which lanes have ended depends on the lanes alone. -/
theorem hasEnded_of_all_eq {ls ls' : Lanes} (h : ∀ k : Nat, ls.all[k]? = ls'.all[k]?) :
    ls.hasEnded = ls'.hasEnded := by
  funext k
  rw [hasEnded, hasEnded, ending?, ending?, h]

/-- Two stages of the lanes that differ at most in which lanes have been wound up are the same when
wound up and pruned. -/
theorem prune_woundUp_eq {ls ls' : Lanes}
    (hall : ∀ k : Nat, ls.woundUp.all[k]? = ls'.woundUp.all[k]?)
    (hopened : ∀ p : Partition, ls.opened[p]? = ls'.opened[p]?)
    (hretired : ∀ p : Partition, (ls.retired[p]?.filter fun i => !ls'.woundUp.hasEnded i) =
      ls'.retired[p]?.filter fun i => !ls'.woundUp.hasEnded i) :
    ls.woundUp.prune = ls'.woundUp.prune := by
  have htable : ls.woundUp.prune.retired = ls'.woundUp.prune.retired := by
    apply Std.ExtTreeMap.ext_getElem?
    intro p
    rw [getElem?_retired_prune, getElem?_retired_prune, hasEnded_of_all_eq hall]
    exact hretired p
  rw [mk.injEq]
  exact ⟨Array.ext_getElem? hall, Std.ExtTreeMap.ext_getElem? hopened, htable⟩

/-- Winding up after a revocation makes up for what was not wound up before it. -/
theorem prune_woundUp_revoke (ls : Lanes) (p : Partition) :
    (ls.revoke p).1.woundUp.prune = (ls.woundUp.prune.revoke p).1.woundUp.prune := by
  have hall : ∀ k : Nat, (ls.revoke p).1.woundUp.all[k]? =
      (ls.woundUp.prune.revoke p).1.woundUp.all[k]? := by
    intro k
    have hwound : ls.woundUp.prune.all[k]? = ls.all[k]?.map Lane.woundUp := ls.getElem?_woundUp k
    have hopened : ls.woundUp.prune.opened = ls.opened := rfl
    rw [getElem?_woundUp, getElem?_woundUp, getElem?_all_revoke, getElem?_all_revoke, hwound, hopened]
    rcases ls.all[k]? with _ | lane
    · split <;> rfl
    · split
      · exact congrArg some lane.woundUp_close_woundUp.symm
      · exact congrArg some lane.woundUp_woundUp.symm
  have hsame : ls.woundUp.prune.hasEnded = ls.woundUp.hasEnded := rfl
  have hlater : ∀ k, ls.woundUp.hasEnded k = true →
      (ls.woundUp.prune.revoke p).1.woundUp.hasEnded k = true := by
    intro k hk
    apply hasEnded_woundUp
    rw [hasEnded_revoke]
    exact hk
  refine prune_woundUp_eq hall (fun q => ?_) fun q => ?_
  · rw [getElem?_opened_revoke, getElem?_opened_revoke]
    rfl
  · have hopened : ls.woundUp.prune.opened = ls.opened := rfl
    have hretired : ls.woundUp.prune.retired[q]? = ls.retired[q]?.filter fun i =>
      !ls.woundUp.hasEnded i := ls.woundUp.getElem?_retired_prune q
    rw [getElem?_retired_revoke, getElem?_retired_revoke, hopened, hretired, hsame,
      filter_live_filter_live fun _ h => h]
    rcases (if p = q then ls.opened[q]? else none) with _ | i
    · rw [Option.none_or, Option.none_or, filter_live_filter_live hlater,
        filter_live_filter_live fun k hk => hlater k (hasEnded_woundUp hk)]
    · rfl

/-- Winding lanes up twice is winding them up. -/
theorem woundUp_woundUp (ls : Lanes) : ls.woundUp.woundUp = ls.woundUp := by
  rw [woundUp, mk.injEq]
  refine ⟨?_, rfl, rfl⟩
  apply Array.ext_getElem?
  intro k
  rw [Array.getElem?_map, getElem?_woundUp, Option.map_map]
  congr 1
  funext lane
  exact lane.woundUp_woundUp

/-- Pruning is part of tidying. -/
theorem tidied_prune (ls : Lanes) : ls.prune.tidied = ls.tidied :=
  tidied_eq rfl (fun _ => rfl) (fun _ => rfl) fun p => by
    rw [getElem?_retired_prune]
    exact filter_live_filter_live (fun _ h => h) _

/-- Winding up after `revokeEach partitions` makes up for what was not wound up before. The
induction is on `partitions`, by `prune_woundUp_revoke`. -/
theorem tidied_woundUp_revokeEach (ls : Lanes) (partitions : List Partition) :
    (ls.woundUp.revokeEach partitions).woundUp.tidied =
      (ls.revokeEach partitions).woundUp.tidied := by
  have halike : ∀ {ls ls' : Lanes}, ls.woundUp.prune = ls'.woundUp.prune →
      (ls.revokeEach partitions).woundUp.prune = (ls'.revokeEach partitions).woundUp.prune := by
    induction partitions with
    | nil => exact fun h => h
    | cons p rest ih =>
        intro ls ls' h
        apply ih
        rw [prune_woundUp_revoke, h, ← prune_woundUp_revoke]
  rw [← tidied_prune, halike (congrArg prune ls.woundUp_woundUp), tidied_prune]

end Lanes

end OffsetCommit
