import OffsetCommit.Proofs.Engine.Congruence
import OffsetCommit.Proofs.Engine.Leftovers

/-!
# Engines that go on alike

A next move that is silent changes nothing about the tidied engine, and one that is not is the next
move of the tidied engine as well. So of two engines with the same `tidied` one can be left to make
its silent moves until both make the same move, and no engine goes on for longer than it has work.

* `next?_tidied`: a next move that is not silent is that of `e.tidied`.
* `make_alike`: such a move leads to engines with the same `tidied`.
* `respects_settle`: so engines that are the same when tidied are so when they have settled.
* `face_tidied`: no leftover shows.
-/

namespace OffsetCommit

/-- Whether a lane waits for the one before it. -/
def Lane.isWaiting (lane : Lane) : Bool :=
  match lane.phase with
  | .waiting _ => true
  | _ => false

namespace Engine

/-- Whether a possible move leads to an engine that is the same when tidied: it wakes a lane, or
collects one that has ended. -/
def isSilent (e : Engine) : Move → Bool
  | .work i => e.lanes.all[i]?.any Lane.isWaiting
  | .collect => true
  | _ => false

/-- A silent move leaves `tidied` as it was. -/
theorem tidied_make_of_isSilent {e : Engine} {move : Move} (h : e.isPossible move = true)
    (hsilent : e.isSilent move = true) : (e.make move).tidied = e.tidied := by
  cases move with
  | work i =>
      rcases hi : e.lanes.all[i]? with _ | lane
      · rw [isSilent, hi] at hsilent
        cases hsilent
      · rw [isPossible, hi, Option.any_some, canWork] at h
        rw [isSilent, hi, Option.any_some, Lane.isWaiting] at hsilent
        rcases hphase : lane.phase with k | _ | ⟨r, due⟩ | crashed
        · rw [hphase] at h
          exact tidied_workLane_of_waiting hi hphase h
        all_goals
          rw [hphase] at hsilent
          cases hsilent
  | collect => exact tidied_collect h
  | answer place => cases hsilent
  | take => cases hsilent
  | hangUp => cases hsilent
  | stop => cases hsilent

/-! ### The next move -/

/-- A lane that cannot just notice something can work as it can in the tidied engine. -/
theorem canWork_woken {e : Engine} {lane : Lane}
    (h : lane.isWaiting = true → e.canWork lane = false) :
    e.tidied.canWork (lane.woken e.lanes.hasEnded) = e.canWork lane := by
  have hended : e.tidied.lanes.hasEnded = e.lanes.hasEnded := e.lanes.hasEnded_tidied
  rcases lane.woken_cases e.lanes.hasEnded with ⟨heq, -⟩ | ⟨k, hk, hkended, -⟩
  · rw [heq, canWork, hended]
    rfl
  · have hcannot := h (by rw [Lane.isWaiting, hk])
    rw [canWork, hk] at hcannot
    exact absurd (hkended.symm.trans hcannot) Bool.true_eq_false.mp

/-- If the first lane that can work is not silent, it is the first one in the tidied engine as well. -/
theorem findIdx?_tidied {e : Engine}
    (h : ∀ i, e.lanes.all.findIdx? e.canWork = some i → e.isSilent (.work i) = false) :
    e.tidied.lanes.all.findIdx? e.tidied.canWork = e.lanes.all.findIdx? e.canWork := by
  have hmap : e.tidied.lanes.all.findIdx? e.tidied.canWork =
      e.lanes.all.findIdx? (e.tidied.canWork ∘ Lane.woken e.lanes.hasEnded) := Array.findIdx?_map
  rw [hmap]
  rcases hfirst : e.lanes.all.findIdx? e.canWork with _ | i
  · rw [Array.findIdx?_eq_none_iff] at hfirst ⊢
    intro lane hlane
    exact (canWork_woken fun _ => hfirst lane hlane).trans (hfirst lane hlane)
  · have hloud := h i hfirst
    obtain ⟨hlt, hcan, hbefore⟩ := Array.findIdx?_eq_some_iff_getElem.mp hfirst
    rw [isSilent, Array.getElem?_eq_getElem hlt, Option.any_some] at hloud
    refine Array.findIdx?_eq_some_iff_getElem.mpr ⟨hlt, ?_, fun j hji => ?_⟩
    · refine (canWork_woken fun hwaiting => ?_).trans hcan
      rw [hloud] at hwaiting
      cases hwaiting
    · have hcannot := Bool.eq_false_iff.mpr (hbefore j hji)
      exact Bool.eq_false_iff.mp ((canWork_woken fun _ => hcannot).trans hcannot)

/-- The urgent moves are the same without leftovers. -/
theorem urgent?_tidied (e : Engine) : e.tidied.urgent? = e.urgent? := by
  rcases hclosed : e.isClosed
  · have hserving : e.stage = .serving := by simpa [isClosed] using hclosed
    have hserving' : e.tidied.stage = .serving := by
      show e.stage.tidied _ = _
      rw [hserving, Stage.tidied]
    have hmailbox : e.tidied.mailbox.isEmpty = e.mailbox.isEmpty := by
      rw [Bool.eq_iff_iff, Queue.isEmpty_iff, Queue.isEmpty_iff, toObey_tidied,
        toObey_of_open hclosed]
    simp only [urgent?, isPossible, hserving, hserving', hmailbox]
    rfl
  · have hnone : ∀ {e : Engine}, e.isClosed = true → e.urgent? = none := by
      intro e hclosed
      have hnot : e.stage ≠ .serving := by simpa [isClosed] using hclosed
      simp [urgent?, isPossible, hnot]
    rw [hnone hclosed, hnone (e.isClosed_tidied.trans hclosed)]

/-- A loop that finds no lane at its end does the same without its leftovers. -/
theorem patient?_tidied {e : Engine} (h : e.isPossible .collect = false) :
    e.tidied.patient? = e.patient? := by
  have hended : e.tidied.lanes.hasEnded = e.lanes.hasEnded := e.lanes.hasEnded_tidied
  have hstage : e.tidied.stage = e.stage.tidied e.lanes.hasEnded := rfl
  rcases hcase : e.stage with _ | ⟨caller, _ | ⟨i, rest⟩⟩ | _
  · simp only [patient?, isPossible, hstage, hcase, Stage.tidied]
  · simp only [patient?, isPossible, hstage, hcase, Stage.tidied, List.filter_nil]
  · rw [isPossible, hcase] at h
    have hkept : ((i :: rest).filter fun i => !e.lanes.hasEnded i) =
        i :: rest.filter fun i => !e.lanes.hasEnded i := List.filter_cons_of_pos (by simpa using h)
    simp only [patient?, isPossible, hstage, hcase, hended, Stage.tidied, hkept]
  · simp only [patient?, isPossible, hstage, hcase, Stage.tidied]

/-- **A next move that is not silent is the next one without leftovers**, and if there is none, then
there is none without leftovers. -/
theorem next?_tidied {e : Engine} (h : ∀ move, e.next? = some move → e.isSilent move = false) :
    e.tidied.next? = e.next? := by
  have hcalls : e.tidied.pendingCalls.findIdx? e.tidied.canAnswer =
      e.pendingCalls.findIdx? e.canAnswer := rfl
  unfold next? at h ⊢
  simp only [Option.orElse_eq_orElse, Option.orElse_eq_or] at h ⊢
  rw [hcalls, urgent?_tidied]
  rcases hanswer : e.pendingCalls.findIdx? e.canAnswer with _ | place
  · rcases hurgent : e.urgent? with _ | move
    · rw [hanswer, hurgent] at h
      simp only [Option.map_none, Option.none_or] at h ⊢
      rcases hfirst : e.lanes.all.findIdx? e.canWork with _ | i
      · rw [hfirst] at h
        have hcollect : e.isPossible .collect = false := by
          by_contra hcan
          rw [Bool.not_eq_false] at hcan
          have hloud := h .collect (by simp [patient?, hcan])
          cases hloud
        rw [findIdx?_tidied fun i hi => (by rw [hfirst] at hi; cases hi), hfirst,
          patient?_tidied hcollect]
      · rw [hfirst] at h
        have hloud := h (.work i) rfl
        rw [findIdx?_tidied fun j hj => ?_, hfirst]
        · rfl
        · rw [hfirst] at hj
          exact Option.some.inj hj ▸ hloud
    · rfl
  · rfl

/-! ### Moves that are not silent -/

/-- If the next move takes a command or begins to drain, the loop serves. -/
theorem serving_of_next? {e : Engine} {move : Move} (hmove : move = .take ∨ move = .hangUp)
    (h : e.next? = some move) : e.stage = .serving :=
  serving_of_isPossible hmove (isPossible_of_next? h)

/-- A lane whose work comes next and is not silent does not wait. -/
theorem exists_lane_of_next? {e : Engine} {i : Nat} (h : e.next? = some (.work i))
    (hloud : e.isSilent (.work i) = false) :
    ∃ lane, e.lanes.all[i]? = some lane ∧ ∀ k, lane.phase ≠ .waiting k := by
  have hpossible := isPossible_of_next? h
  rw [isPossible] at hpossible
  rw [isSilent] at hloud
  rcases hi : e.lanes.all[i]? with _ | lane
  · rw [hi] at hpossible
    cases hpossible
  · rw [hi, Option.any_some, Lane.isWaiting] at hloud
    refine ⟨lane, rfl, fun k hk => ?_⟩
    rw [hk] at hloud
    cases hloud

/-- Engines with the same `tidied` make the same of a next move that is silent in neither. -/
theorem make_alike {e e' : Engine} (h : e.tidied = e'.tidied) {move : Move}
    (hnext : e.next? = some move) (hnext' : e'.next? = some move)
    (hloud : e.isSilent move = false) (hloud' : e'.isSilent move = false) :
    (e.make move).tidied = (e'.make move).tidied := by
  cases move with
  | answer place => exact respects_answerCall place _ _ h
  | take => exact takeCommand_alike h (serving_of_next? (.inl rfl) hnext)
  | hangUp => exact beginDrain_alike h (serving_of_next? (.inr rfl) hnext) none
  | work i =>
      obtain ⟨lane, hi, hwaiting⟩ := exists_lane_of_next? hnext hloud
      obtain ⟨lane', hi', hwaiting'⟩ := exists_lane_of_next? hnext' hloud'
      have hwoken : some lane = some lane' := by
        have hsame := congrArg (fun ls : Lanes => ls.all[i]?) (lanes_alike h)
        rwa [Lanes.getElem?_tidied, Lanes.getElem?_tidied, hi, hi', Option.map_some,
          Option.map_some, Lane.woken_of_not_waiting hwaiting,
          Lane.woken_of_not_waiting hwaiting'] at hsame
      obtain rfl := Option.some.inj hwoken
      exact workLane_alike h hi hi' hwaiting
  | collect => cases hloud
  | stop =>
      have hclosed : e.isClosed = true := by
        have hpossible := isPossible_of_next? hnext
        rcases hstage : e.stage with _ | ⟨caller, awaited⟩ | _
        · rw [isPossible, hstage] at hpossible
          cases hpossible
        · simp [isClosed, hstage]
        · simp [isClosed, hstage]
      exact stop_alike h hclosed

/-! ### Settling -/

/-- **Engines that are the same when tidied are so when they have settled**. The induction is on the
work of both together: one makes a silent move, or both make the same one. -/
theorem respects_settle : Respects settle := by
  intro e e' h
  induction hwork : e.work + e'.work using Nat.strong_induction_on generalizing e e' with
  | _ n ih =>
      -- a silent move of either leaves the other where it is
      by_cases hsilent : ∃ move, e.next? = some move ∧ e.isSilent move = true
      · obtain ⟨move, hnext, hsilent⟩ := hsilent
        have hpossible := isPossible_of_next? hnext
        have hlt := work_make_lt hpossible
        rw [settle_of_next? hnext]
        exact ih _ (by omega) _ _ ((tidied_make_of_isSilent hpossible hsilent).trans h) rfl
      by_cases hsilent' : ∃ move, e'.next? = some move ∧ e'.isSilent move = true
      · obtain ⟨move, hnext, hsilent'⟩ := hsilent'
        have hpossible := isPossible_of_next? hnext
        have hlt := work_make_lt hpossible
        rw [settle_of_next? hnext]
        exact ih _ (by omega) _ _ (h.trans (tidied_make_of_isSilent hpossible hsilent').symm) rfl
      -- otherwise both make the same move, or none
      have hloud : ∀ move, e.next? = some move → e.isSilent move = false := by
        simpa using hsilent
      have hloud' : ∀ move, e'.next? = some move → e'.isSilent move = false := by
        simpa using hsilent'
      have hsame : e.next? = e'.next? := by
        rw [← next?_tidied hloud, h, next?_tidied hloud']
      rcases hnext : e.next? with _ | move
      · rw [settle_of_next?_eq_none hnext, settle_of_next?_eq_none (hsame ▸ hnext)]
        exact h
      · have hnext' : e'.next? = some move := hsame ▸ hnext
        have hlt := work_make_lt (isPossible_of_next? hnext)
        have hlt' := work_make_lt (isPossible_of_next? hnext')
        rw [settle_of_next? hnext, settle_of_next? hnext']
        exact ih _ (by omega) _ _
          (make_alike h hnext hnext' (hloud move hnext) (hloud' move hnext')) rfl

/-! ### What shows -/

/-- The time of the next decision is the same without leftovers. -/
theorem nextDue?_tidied (e : Engine) : e.tidied.nextDue? = e.nextDue? := by
  have hlanes : e.tidied.lanes.all.toList.filterMap Lane.due? =
      e.lanes.all.toList.filterMap Lane.due? := by
    have hall : e.tidied.lanes.all = e.lanes.all.map (Lane.woken e.lanes.hasEnded) := rfl
    rw [hall, Array.toList_map, List.filterMap_map]
    exact List.filterMap_congr fun lane _ => lane.due?_woken
  rw [nextDue?, dueTimes, hlanes]
  rfl

/-- No leftover shows: `e.tidied.face = e.face`. -/
theorem face_tidied (e : Engine) : e.tidied.face = e.face := by
  rw [face, face, Face.mk.injEq]
  exact ⟨rfl, rfl, rfl, rfl, rfl, e.isClosed_tidied, e.nextDue?_tidied⟩

end Engine

end OffsetCommit
