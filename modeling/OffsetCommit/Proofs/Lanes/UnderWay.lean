import OffsetCommit.Proofs.Lanes.Routing

/-!
# The requests under way

A lane asks the broker for one commit at a time. What can be seen of it is read off the lanes by a
view (`Lane.IsView`): the request itself, `Lane.current?`, or the request together with the time at
which it is decided, `Lane.term?`.

* `shown_openFor`, `shown_route`, `shown_revoke`, `shown_drain`: opening, routing, revoking and
  draining leave what is under way alone.
* `WellFormed.shown_modify_of_alone`: a lane that is alone has all that is under way for its
  partition.
* `WellFormed.length_underWay_le`: at most one request of a partition is under way.
-/

namespace OffsetCommit

/-- A lane that has ended has no request under way. -/
theorem Lane.current?_of_hasEnded {lane : Lane} (h : lane.hasEnded = true) :
    lane.current? = none := by
  obtain ⟨crashed, hphase⟩ := Lane.hasEnded_eq_true_iff.mp h
  rw [Lane.current?, hphase]

/-- A lane with a current request is `.committing` it. -/
theorem Lane.phase_of_current? {lane : Lane} {r : Request} (h : lane.current? = some r) :
    ∃ due, lane.phase = .committing r due := by
  unfold Lane.current? at h
  split at h
  · next due hphase => exact ⟨due, by rw [hphase, Option.some.inj h]⟩
  · cases h

/-- A new lane has no request under way. -/
@[simp] theorem Lane.current?_opening (p : Partition) (predecessor : Option Nat) :
    (opening p predecessor).current? = none := by
  cases predecessor <;> rfl

/-- The request under way, if any, with the time at which it is decided. -/
def Lane.term? (lane : Lane) : Option (Request × Nat) :=
  match lane.phase with
  | .committing r due => some (r, due)
  | _ => none

/-- A lane with a term is `.committing` its request until its time. -/
theorem Lane.phase_of_term? {lane : Lane} {x : Request × Nat} (h : lane.term? = some x) :
    lane.phase = .committing x.1 x.2 := by
  unfold Lane.term? at h
  split at h
  · next r due hphase =>
      obtain rfl := Option.some.inj h
      exact hphase
  · cases h

/-- Whether `view` shows nothing but what a lane has under way: it depends on the phase alone, and
shows nothing of a lane without a current request. -/
structure Lane.IsView {α : Type} (view : Lane → Option α) : Prop where
  /-- It depends on the phase alone. -/
  congr : ∀ {lane lane' : Lane}, lane'.phase = lane.phase → view lane' = view lane
  /-- It shows nothing when nothing is under way. -/
  idle : ∀ {lane : Lane}, lane.current? = none → view lane = none

/-- The current request is a view. -/
theorem Lane.isView_current? : IsView current? where
  congr h := by rw [current?, current?, h]
  idle h := h

/-- The current request with its time, `term?`, is a view of what a lane has under way. -/
theorem Lane.isView_term? : IsView term? where
  congr h := by rw [term?, term?, h]
  idle {lane} h := by
    rcases hphase : lane.phase with k | _ | ⟨r, due⟩ | crashed
    case committing =>
      rw [current?, hphase] at h
      cases h
    all_goals rw [term?, hphase]

namespace Lanes

/-- What `view` shows of the lanes of `p`, from the oldest to the latest one. -/
def shown {α : Type} (view : Lane → Option α) (ls : Lanes) (p : Partition) : List α :=
  (ls.all.toList.filter fun lane => lane.partition = p).filterMap view

/-- The requests of `p` that are under way, `Lane.current?` of one lane after the other. -/
def underWay (ls : Lanes) (p : Partition) : List Request :=
  (ls.all.toList.filter fun lane => lane.partition = p).filterMap Lane.current?

/-- The requests of `p` that are under way, each with the time at which it is decided: `Lane.term?`
of one lane after the other. -/
def terms (ls : Lanes) (p : Partition) : List (Request × Nat) :=
  ls.shown Lane.term? p

/-- What is shown for `p` is what the view shows of some lane of `p`. -/
theorem mem_shown_iff {α : Type} {view : Lane → Option α} {ls : Lanes} {p : Partition} {a : α} :
    a ∈ ls.shown view p ↔
      ∃ (i : Nat) (lane : Lane), ls.all[i]? = some lane ∧ lane.partition = p ∧
        view lane = some a := by
  simp only [shown, List.mem_filterMap, List.mem_filter, decide_eq_true_eq,
    Array.mem_toList_iff, Array.mem_iff_getElem?]
  constructor
  · rintro ⟨lane, ⟨⟨i, hi⟩, hp⟩, hr⟩
    exact ⟨i, lane, hi, hp, hr⟩
  · rintro ⟨i, lane, hi, hp, hr⟩
    exact ⟨lane, ⟨⟨i, hi⟩, hp⟩, hr⟩

/-- A request is under way for `p` if it is the current one of a lane of `p`. -/
theorem mem_underWay_iff {ls : Lanes} {p : Partition} {r : Request} :
    r ∈ ls.underWay p ↔
      ∃ (i : Nat) (lane : Lane), ls.all[i]? = some lane ∧ lane.partition = p ∧
        lane.current? = some r :=
  mem_shown_iff

/-- The terms of `p` are those of its lanes. -/
theorem mem_terms_iff {ls : Lanes} {p : Partition} {x : Request × Nat} :
    x ∈ ls.terms p ↔
      ∃ (i : Nat) (lane : Lane), ls.all[i]? = some lane ∧ lane.partition = p ∧
        lane.term? = some x :=
  mem_shown_iff

/-! ### Changes that leave it alone -/

section Views

variable {α : Type} {view : Lane → Option α}

/-- Work on a lane of which the view shows as much afterwards leaves what is shown. -/
theorem shown_modify_of_eq {ls : Lanes} {i : Nat} {lane : Lane} (hi : ls.all[i]? = some lane)
    {f : Lane → Lane} (hf : (f lane).partition = lane.partition)
    (hview : view (f lane) = view lane) (p : Partition) :
    (ls.modify i f).shown view p = ls.shown view p := by
  unfold shown
  rw [toList_modify hi]
  conv_rhs => rw [toList_eq_of_getElem? hi]
  by_cases hp : lane.partition = p
  · simp [hf, hp, hview, List.filterMap_cons]
  · simp [hf, hp]

variable (h : Lane.IsView view)

include h

/-- A change that keeps every lane's partition and phase leaves what is shown. -/
theorem shown_modify (ls : Lanes) (i : Nat) {f : Lane → Lane}
    (hf : ∀ lane, (f lane).partition = lane.partition)
    (hphase : ∀ lane, (f lane).phase = lane.phase) (p : Partition) :
    (ls.modify i f).shown view p = ls.shown view p := by
  rcases hi : ls.all[i]? with _ | lane
  · rw [modify_of_getElem?_eq_none hi]
  · exact shown_modify_of_eq hi (hf lane) (h.congr (hphase lane)) p

/-- Opening a lane leaves what is shown. -/
theorem shown_openFor (ls : Lanes) (q p : Partition) :
    (ls.openFor q).2.shown view p = ls.shown view p := by
  simp only [shown, openFor, Array.toList_push, List.filter_append, List.filterMap_append]
  rw [List.append_right_eq_self, List.filterMap_eq_nil_iff]
  intro lane hlane
  obtain rfl := List.mem_singleton.mp (List.mem_of_mem_filter hlane)
  exact h.idle (Lane.current?_opening q _)

/-- Finding a lane leaves what is shown. -/
theorem shown_laneFor (ls : Lanes) (q p : Partition) :
    (ls.laneFor q).2.shown view p = ls.shown view p := by
  unfold laneFor
  split
  · rfl
  · exact shown_openFor h ls q p

/-- Shutting a lane leaves what is shown. -/
theorem shown_shut (ls : Lanes) (q : Partition) (i : Nat) (p : Partition) :
    (ls.shut q i).shown view p = ls.shown view p :=
  shown_modify h ls i (f := Lane.close) (fun _ => rfl) (fun _ => rfl) p

/-- Sending a request to a lane leaves what is shown. -/
theorem shown_send? {ls ls' : Lanes} {i : Nat} {r : Request} (hsend : ls.send? i r = some ls')
    (p : Partition) : ls'.shown view p = ls.shown view p := by
  unfold send? at hsend
  split at hsend
  · cases hsend
  · obtain rfl := Option.some.inj hsend
    exact shown_modify h ls i (f := fun lane => lane.push r) (fun _ => rfl) (fun _ => rfl) p

/-- Routing a request leaves what is shown: it waits for its turn. -/
theorem shown_route (ls : Lanes) (r : Request) (p : Partition) :
    (ls.route r).lanes.shown view p = ls.shown view p := by
  have hfound := shown_laneFor h ls r.partition p
  unfold route
  rcases hlane : ls.laneFor r.partition with ⟨i, found⟩
  have hreopened := shown_laneFor h (found.shut r.partition i) r.partition p
  rw [shown_shut h] at hreopened
  rw [hlane] at hfound
  dsimp only
  split
  · next hsend => exact (shown_send? h hsend p).trans hfound
  · rcases hlane' : (found.shut r.partition i).laneFor r.partition with ⟨j, fresh⟩
    rw [hlane'] at hreopened
    dsimp only
    split
    · next hsend => exact (shown_send? h hsend p).trans (hreopened.trans hfound)
    · exact hreopened.trans hfound

/-- Revoking a partition leaves what is shown. -/
theorem shown_revoke (ls : Lanes) (q p : Partition) :
    (ls.revoke q).1.shown view p = ls.shown view p := by
  unfold revoke
  dsimp only
  split
  · rfl
  · exact shown_shut h ls.prune q _ p

/-- Draining leaves what is shown. -/
theorem shown_drain (ls : Lanes) (p : Partition) :
    ls.drain.2.shown view p = ls.shown view p := by
  simp only [shown, drain, Array.toList_map, List.filter_map, List.filterMap_map]
  apply List.filterMap_congr
  intro lane _
  exact h.congr rfl

/-! ### One at a time -/

/-- While a lane is alone, nothing is under way in the other lanes of its partition: those before it
have ended, and those behind it wait. -/
theorem WellFormed.shown_modify_of_alone {ls : Lanes} (hwf : ls.WellFormed) {i : Nat}
    {lane : Lane} (hi : ls.all[i]? = some lane) (hlive : lane.hasEnded = false)
    (halone : ls.EndedBefore lane.partition i) {f : Lane → Lane}
    (hf : (f lane).partition = lane.partition) (p : Partition) :
    (ls.modify i f).shown view p =
      if lane.partition = p then (view (f lane)).toList else ls.shown view p := by
  have hsplit := toList_eq_of_getElem? hi
  unfold shown
  rw [toList_modify hi]
  split
  · next hp =>
      subst hp
      have hbefore : ((ls.all.toList.take i).filter fun x => x.partition = lane.partition).filterMap
          view = [] := by
        rw [List.filterMap_eq_nil_iff]
        intro other hother
        obtain ⟨j, hj, hat, hp⟩ := exists_of_mem_take hother
        exact h.idle (Lane.current?_of_hasEnded (halone j other hj hat hp))
      have hafter : ((ls.all.toList.drop (i + 1)).filter fun x =>
          x.partition = lane.partition).filterMap view = [] := by
        rw [List.filterMap_eq_nil_iff]
        intro other hother
        obtain ⟨j, hj, hat, hp⟩ := exists_of_mem_drop hother
        -- a lane behind this one that is past waiting would be alone too
        rcases hcurrent : other.current? with _ | r
        · exact h.idle hcurrent
        · obtain ⟨due, hphase⟩ := Lane.phase_of_current? hcurrent
          have hended := hwf.alone j other hat (by rw [hphase]; exact fun _ => Phase.noConfusion)
            i lane hj hi hp.symm
          rw [hlive] at hended
          cases hended
      simp only [List.filter_append, List.filterMap_append, hbefore, List.filter_cons, hf,
        decide_true, if_true, List.filterMap_cons, List.nil_append, hafter]
      cases view (f lane) <;> rfl
  · next hp =>
      conv_rhs => rw [hsplit]
      simp [hf, hp]

/-- What a lane that is alone has under way is all that its partition has. -/
theorem WellFormed.shown_of_alone {ls : Lanes} (hwf : ls.WellFormed) {i : Nat} {lane : Lane}
    (hi : ls.all[i]? = some lane) (hlive : lane.hasEnded = false)
    (halone : ls.EndedBefore lane.partition i) :
    ls.shown view lane.partition = (view lane).toList := by
  have hsame := hwf.shown_modify_of_alone h hi hlive halone (f := id) rfl lane.partition
  rwa [shown_modify_of_eq hi rfl rfl, if_pos rfl] at hsame

end Views

/-- The same for the requests: `underWay` of its partition becomes `(f lane).current?`. -/
theorem WellFormed.underWay_modify_of_alone {ls : Lanes} (h : ls.WellFormed) {i : Nat}
    {lane : Lane} (hi : ls.all[i]? = some lane) (hlive : lane.hasEnded = false)
    (halone : ls.EndedBefore lane.partition i) {f : Lane → Lane}
    (hf : (f lane).partition = lane.partition) (p : Partition) :
    (ls.modify i f).underWay p =
      if lane.partition = p then (f lane).current?.toList else ls.underWay p :=
  h.shown_modify_of_alone Lane.isView_current? hi hlive halone hf p

/-- While a lane is alone, `underWay` of its partition is its current request. -/
theorem WellFormed.underWay_of_alone {ls : Lanes} (h : ls.WellFormed) {i : Nat} {lane : Lane}
    (hi : ls.all[i]? = some lane) (hlive : lane.hasEnded = false)
    (halone : ls.EndedBefore lane.partition i) :
    ls.underWay lane.partition = lane.current?.toList :=
  h.shown_of_alone Lane.isView_current? hi hlive halone

/-- **At most one request of a partition is under way**: `(ls.underWay p).length ≤ 1`. A lane with a
request under way is alone. -/
theorem WellFormed.length_underWay_le {ls : Lanes} (h : ls.WellFormed) (p : Partition) :
    (ls.underWay p).length ≤ 1 := by
  rcases List.eq_nil_or_concat (ls.underWay p) with hnil | ⟨_, r, hr⟩
  · rw [hnil]
    exact Nat.zero_le 1
  · have hmem : r ∈ ls.underWay p := by
      rw [hr, List.concat_eq_append]
      exact List.mem_append_right _ (List.mem_singleton_self r)
    obtain ⟨i, lane, hi, rfl, hcurrent⟩ := mem_underWay_iff.mp hmem
    obtain ⟨due, hphase⟩ := Lane.phase_of_current? hcurrent
    have hlive : lane.hasEnded = false := by
      rw [Lane.hasEnded, Lane.ending?, hphase]
      rfl
    have halone := h.alone i lane hi (by rw [hphase]; exact fun _ => Phase.noConfusion)
    rw [h.underWay_of_alone hi hlive halone, hcurrent]
    exact le_rfl

end Lanes

end OffsetCommit
