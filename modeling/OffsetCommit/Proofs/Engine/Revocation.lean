import OffsetCommit.Proofs.Engine.Shuffle

/-!
# Partitions revoked one by one

An engine that settles between two revocations ends lanes sooner than one that is asked for both
before it moves. Once the second one has settled as well, this makes no difference but for
leftovers: after a revocation nothing moves except that lanes come to their end that were closed
with nothing to do, and no other lane waits for one of them.

* `Winding.settle_eq`: an engine with nothing left to do but to end such lanes settles with
  `lanes.woundUp`.
* `Awake.settle_revokeEach`: so revoking `partitions` and settling leaves `(e.lanes.revokeEach
  partitions).woundUp`.
* `tidied_settle_revokeEach`: partitions may be revoked at several instants instead of at one.
-/

namespace OffsetCommit.Engine

/-! ### Lanes that only have to end -/

/-- An engine that serves with nothing left to do but to end lanes that are spent and that no other
lane waits for. -/
structure Winding (e : Engine) : Prop where
  /-- The loop takes commands. -/
  serving : e.stage = .serving
  /-- There are none. -/
  mailbox : e.mailbox.toList = []
  /-- Someone is left who can send commands. -/
  hasClients : e.hasClients = true
  /-- No direct call is due. -/
  calls : e.pendingCalls.findIdx? e.canAnswer = none
  /-- A lane that can work can only end. -/
  spent : ∀ (i : Nat) (lane : Lane), e.lanes.all[i]? = some lane → e.canWork lane = true →
    lane.isSpent = true
  /-- No lane waits for such a lane. -/
  unawaited : ∀ (i : Nat) (lane : Lane), e.lanes.all[i]? = some lane → lane.isSpent = true →
    ∀ (j : Nat) (other : Lane), e.lanes.all[j]? = some other → other.phase ≠ .waiting i

/-- A lane that `isSpent` can work: it can end. -/
theorem canWork_of_isSpent (e : Engine) {lane : Lane} (h : lane.isSpent = true) :
    e.canWork lane = true := by
  obtain ⟨hphase, hclosed, -⟩ := Lane.isSpent_iff.mp h
  rw [canWork, hphase, hclosed]
  simp

/-- A lane that `isSpent` ends when it works. -/
theorem workLane_of_isSpent {e : Engine} {i : Nat} {lane : Lane} (hi : e.lanes.all[i]? = some lane)
    (h : lane.isSpent = true) : e.workLane i = e.setPhase i (.ended false) := by
  obtain ⟨hphase, -, hqueue⟩ := Lane.isSpent_iff.mp h
  rw [workLane, hi]
  simp only [hphase, proceed, Queue.pop?_eq_none_iff.mpr hqueue]

namespace Winding

variable {e : Engine}

/-- The next move of a `Winding` engine is the work of a lane that `isSpent`. -/
theorem exists_lane (h : e.Winding) {move : Move} (hnext : e.next? = some move) :
    ∃ i lane, move = .work i ∧ e.lanes.all[i]? = some lane ∧ lane.isSpent = true := by
  have hpossible := isPossible_of_next? hnext
  cases move with
  | work i =>
      rw [isPossible] at hpossible
      rcases hi : e.lanes.all[i]? with _ | lane
      · rw [hi] at hpossible
        cases hpossible
      · rw [hi, Option.any_some] at hpossible
        exact ⟨i, lane, rfl, hi, h.spent i lane hi hpossible⟩
  | answer place =>
      rw [isPossible] at hpossible
      rcases hplace : e.pendingCalls[place]? with _ | c
      · rw [hplace] at hpossible
        cases hpossible
      · rw [hplace, Option.any_some,
          List.findIdx?_eq_none_iff.mp h.calls c (List.mem_of_getElem? hplace)] at hpossible
        cases hpossible
  | take =>
      rw [isPossible, Queue.isEmpty_iff.mpr h.mailbox] at hpossible
      simp at hpossible
  | hangUp =>
      rw [isPossible, h.hasClients] at hpossible
      simp at hpossible
  | collect =>
      rw [isPossible, h.serving] at hpossible
      cases hpossible
  | stop =>
      rw [isPossible, h.serving] at hpossible
      cases hpossible

/-- When such a lane has ended, the engine is still `Winding`. -/
theorem setPhase (h : e.Winding) {i : Nat} {lane : Lane} (hi : e.lanes.all[i]? = some lane)
    (hspent : lane.isSpent = true) : (e.setPhase i (.ended false)).Winding := by
  have hlanes : ∀ (k : Nat) (new : Lane), (e.setPhase i (.ended false)).lanes.all[k]? = some new →
      (k ≠ i ∧ e.lanes.all[k]? = some new) ∨ new.phase = .ended false := by
    intro k new hk
    have hk' := (Lanes.getElem?_modify e.lanes i _ k).symm.trans hk
    split at hk'
    · obtain ⟨old, -, rfl⟩ := Option.map_eq_some_iff.mp hk'
      exact .inr rfl
    · next hne => exact .inl ⟨Ne.symm hne, hk'⟩
  have hended : ∀ k, k ≠ i → (e.setPhase i (.ended false)).lanes.hasEnded k = e.lanes.hasEnded k := by
    intro k hk
    show (e.lanes.modify i _).hasEnded k = _
    rw [Lanes.hasEnded, Lanes.ending?, Lanes.getElem?_modify, if_neg (Ne.symm hk)]
    rfl
  refine ⟨h.serving, h.mailbox, h.hasClients, h.calls, fun k new hk hcan => ?_,
    fun k new hk hspent' j other hj => ?_⟩
  · rcases hlanes k new hk with ⟨-, hold⟩ | hphase
    · refine h.spent k new hold ?_
      rw [canWork] at hcan ⊢
      rcases hphase : new.phase with m | _ | ⟨r, due⟩ | crashed
      · rw [hphase] at hcan
        have hne : m ≠ i := fun hm => h.unawaited i lane hi hspent k new hold (hm ▸ hphase)
        exact (hended m hne).symm.trans hcan
      all_goals
        rw [hphase] at hcan
        exact hcan
    · rw [canWork, hphase] at hcan
      cases hcan
  · rcases hlanes k new hk with ⟨-, hold⟩ | hphase
    · rcases hlanes j other hj with ⟨-, hold'⟩ | hphase'
      · exact h.unawaited k new hold hspent' j other hold'
      · rw [hphase']
        exact Phase.noConfusion
    · rw [(Lane.isSpent_iff.mp hspent').1] at hphase
      cases hphase

/-- A `Winding` engine settles by ending all lanes that are spent: `e.settle = { e with lanes :=
e.lanes.woundUp }`. The induction is on its work. -/
theorem settle_eq (h : e.Winding) : e.settle = { e with lanes := e.lanes.woundUp } := by
  induction hwork : e.work using Nat.strong_induction_on generalizing e with
  | _ n ih =>
      rcases hnext : e.next? with _ | move
      · have hnone : ∀ (i : Nat) (lane : Lane), e.lanes.all[i]? = some lane →
            lane.isSpent = false := by
          intro i lane hi
          rw [Bool.eq_false_iff]
          intro hspent
          have hnot := isPossible_eq_false_of_next? hnext (.work i)
          rw [isPossible, hi, Option.any_some, e.canWork_of_isSpent hspent] at hnot
          cases hnot
        rw [settle_of_next?_eq_none hnext, Lanes.woundUp_of_none_spent hnone]
      · obtain ⟨i, lane, rfl, hi, hspent⟩ := h.exists_lane hnext
        have hlt := work_make_lt (isPossible_of_next? hnext)
        have hmake : e.make (.work i) = e.setPhase i (.ended false) := workLane_of_isSpent hi hspent
        rw [hmake, hwork] at hlt
        rw [settle_of_next? hnext, hmake, ih _ hlt (h.setPhase hi hspent) rfl]
        exact congrArg (fun ls => { e with lanes := ls }) (Lanes.woundUp_modify hi hspent)

end Winding

/-! ### Revocations from one instant to the next -/

/-- An engine that serves and has settled: it is `Sound`, and `e.next? = none`. -/
structure Awake (e : Engine) : Prop where
  /-- Its lanes are in order. -/
  sound : e.Sound
  /-- The loop takes commands. -/
  serving : e.stage = .serving
  /-- There is nothing to do. -/
  settled : e.next? = none

namespace Awake

variable {e : Engine}

/-- An `Awake` engine has no command to take. -/
theorem mailbox_eq_nil (h : e.Awake) : e.mailbox.toList = [] := by
  have hnot := isPossible_eq_false_of_next? h.settled .take
  rw [isPossible, h.serving] at hnot
  exact Queue.isEmpty_iff.mp (by simpa using hnot)

/-- An `Awake` engine has a client: otherwise the loop would begin to drain. -/
theorem hasClients (h : e.Awake) : e.hasClients = true := by
  have hnot := isPossible_eq_false_of_next? h.settled .hangUp
  rw [isPossible, h.serving, Queue.isEmpty_iff.mpr h.mailbox_eq_nil] at hnot
  simpa using hnot

/-- An `Awake` engine accepts commands. -/
theorem isClosed_eq (h : e.Awake) : e.isClosed = false := by
  simp [isClosed, h.serving]

/-- No direct call of an `Awake` engine is due. -/
theorem no_call_due (h : e.Awake) : e.pendingCalls.findIdx? e.canAnswer = none := by
  rw [List.findIdx?_eq_none_iff]
  intro c hc
  obtain ⟨place, hplace⟩ := List.getElem?_of_mem hc
  have hnot := isPossible_eq_false_of_next? h.settled (.answer place)
  rwa [isPossible, hplace, Option.any_some] at hnot

/-- No lane of an `Awake` engine can work. -/
theorem not_canWork (h : e.Awake) {i : Nat} {lane : Lane} (hi : e.lanes.all[i]? = some lane) :
    e.canWork lane = false := by
  have hnot := isPossible_eq_false_of_next? h.settled (.work i)
  rwa [isPossible, hi, Option.any_some] at hnot

/-- No lane of an `Awake` engine waits for an open one: that one would be the later of the two. -/
theorem not_waiting_of_isOpen (h : e.Awake) {i j : Nat} {lane other : Lane}
    (hi : e.lanes.all[i]? = some lane) (hopen : lane.isOpen = true)
    (hj : e.lanes.all[j]? = some other) : other.phase ≠ .waiting i := by
  intro hphase
  have htended := h.sound.tended h.serving
  obtain ⟨hlt, pred, hpred, hsame⟩ := h.sound.wellFormed.predecessor j other i hj hphase
  obtain rfl : lane = pred := Option.some.inj (hi.symm.trans hpred)
  have hle := htended.latest _ i (htended.isOpen i lane hi hopen) j other hj hsame.symm
  omega

/-- After `revokeEach partitions` an `Awake` engine is `Winding`: only the lanes that were closed
are left to end. -/
theorem winding (h : e.Awake) (partitions : List Partition) {mailbox : Queue Command}
    (hmailbox : mailbox.toList = []) (journal : Array CommitEvent) :
    Winding { e with
      mailbox := mailbox, lanes := e.lanes.revokeEach partitions, journal := journal } := by
  have hended := e.lanes.hasEnded_revokeEach partitions
  -- a lane that has nothing to do but to end was open before
  have hspent : ∀ (i : Nat) (new : Lane), (e.lanes.revokeEach partitions).all[i]? = some new →
      new.isSpent = true → ∃ old : Lane, e.lanes.all[i]? = some old ∧ old.isOpen = true := by
    intro i new hi hspent
    obtain ⟨old, hold, hnew⟩ := Lanes.exists_getElem?_of_revokeEach hi
    refine ⟨old, hold, ?_⟩
    obtain ⟨hphase, -, hqueue⟩ := Lane.isSpent_iff.mp hspent
    by_contra hclosed
    rw [Bool.not_eq_true] at hclosed
    have hspent' : old.isSpent = true := by
      rcases hnew with rfl | rfl
      · exact hspent
      · exact Lane.isSpent_iff.mpr ⟨hphase, hclosed, hqueue⟩
    exact Bool.false_ne_true ((h.not_canWork hold).symm.trans (e.canWork_of_isSpent hspent'))
  refine ⟨h.serving, hmailbox, h.hasClients, h.no_call_due, fun i new hi hcan => ?_,
    fun i new hi hspent' j other hj => ?_⟩
  · obtain ⟨old, hold, hnew⟩ := Lanes.exists_getElem?_of_revokeEach hi
    have hcannot := h.not_canWork hold
    have hphaseNew : new.phase = old.phase := by rcases hnew with rfl | rfl <;> rfl
    have hqueueNew : new.queue = old.queue := by rcases hnew with rfl | rfl <;> rfl
    rw [canWork, hphaseNew] at hcan
    rw [canWork] at hcannot
    rcases hphase : old.phase with m | _ | ⟨r, due⟩ | crashed
    · simp only [hphase, hended] at hcan hcannot
      rw [hcannot] at hcan
      cases hcan
    · simp only [hphase, hqueueNew] at hcan hcannot
      rw [Bool.or_eq_false_iff, Bool.not_eq_false'] at hcannot
      rw [hcannot.1] at hcan
      exact Lane.isSpent_iff.mpr ⟨hphaseNew.trans hphase, by simpa using hcan,
        hqueueNew ▸ Queue.isEmpty_iff.mp hcannot.1⟩
    · simp only [hphase] at hcan hcannot
      rw [hcannot] at hcan
      cases hcan
    · simp only [hphase] at hcan
      cases hcan
  · obtain ⟨old, hold, hopen⟩ := hspent i new hi hspent'
    obtain ⟨other', hother, hnew⟩ := Lanes.exists_getElem?_of_revokeEach hj
    have hphase : other.phase = other'.phase := by rcases hnew with rfl | rfl <;> rfl
    rw [hphase]
    exact h.not_waiting_of_isOpen hold hopen hother

/-- **Revoking and settling**: an `Awake` engine that is asked to revoke `partitions` settles with
the lanes `(e.lanes.revokeEach partitions).woundUp`, an empty mailbox and some `journal`; all its
other fields stay. -/
theorem settle_revokeEach (h : e.Awake) (partitions : List Partition) :
    ∃ mailbox journal, mailbox.toList = [] ∧ (partitions.foldl revoke e).settle =
      { e with
        mailbox := mailbox
        lanes := (e.lanes.revokeEach partitions).woundUp
        journal := journal } := by
  obtain ⟨posted, hposted, heq⟩ := foldl_revoke_of_open h.isClosed_eq partitions
  have htaken : ({ e with mailbox := posted } : Engine).mailbox.toList =
      partitions.map .revoke ++ [] := by
    rw [List.append_nil]
    exact hposted.trans (by rw [h.mailbox_eq_nil, List.nil_append])
  obtain ⟨mailbox, journal, hmailbox, hsettle⟩ :=
    settle_of_revocations (e := { e with mailbox := posted }) h.serving h.no_call_due htaken
  refine ⟨mailbox, journal, hmailbox, ?_⟩
  rw [heq, hsettle]
  exact (h.winding partitions hmailbox journal).settle_eq

end Awake

/-- An engine that has settled and is not closed is `Awake`. -/
theorem awake_of_settled {e : Engine} (hsettled : e.next? = none) (hsound : e.Sound)
    (hopen : e.isClosed = false) : e.Awake :=
  ⟨hsound, by simpa [isClosed] using hopen, hsettled⟩

/-- Revoking and settling leaves `tickets`, `callers` and `observed` of a settled engine, and keeps
it `Sound`. -/
theorem settle_revokeEach_frame {e : Engine} (hsettled : e.next? = none) (hsound : e.Sound)
    (partitions : List Partition) :
    (partitions.foldl revoke e).settle.Sound ∧
      (partitions.foldl revoke e).settle.tickets = e.tickets ∧
      (partitions.foldl revoke e).settle.callers = e.callers ∧
      (partitions.foldl revoke e).settle.observed = e.observed := by
  have hrun : e.run (partitions.map .revoke) = partitions.foldl revoke e := List.foldl_map
  obtain ⟨actions, -, hsettle⟩ := (partitions.foldl revoke e).runsTo_settle
  refine ⟨?_, ?_⟩
  · rw [hsettle, ← hrun]
    exact (hsound.run _).run _
  · rcases hclosed : e.isClosed
    · obtain ⟨mailbox, journal, -, heq⟩ :=
        (awake_of_settled hsettled hsound hclosed).settle_revokeEach partitions
      rw [heq]
      exact ⟨rfl, rfl, rfl⟩
    · rw [foldl_revoke_of_closed hclosed, settle_of_next?_eq_none hsettled]
      exact ⟨rfl, rfl, rfl⟩

/-- **Partitions may be revoked at several instants** instead of at one: settling after each of
`groups` and settling once after `groups.flatten` gives engines with the same `tidied`. -/
theorem tidied_settle_revokeEach {e : Engine} (hsettled : e.next? = none) (hsound : e.Sound)
    (groups : List (List Partition)) :
    (groups.foldl (fun e partitions => (partitions.foldl revoke e).settle) e).tidied =
      (groups.flatten.foldl revoke e).settle.tidied := by
  induction groups generalizing e with
  | nil => exact congrArg tidied (settle_of_next?_eq_none hsettled).symm
  | cons partitions rest ih =>
      rw [List.foldl_cons, List.flatten_cons]
      rcases hclosed : e.isClosed
      · have hawake := awake_of_settled hsettled hsound hclosed
        have hafter := next?_settle (partitions.foldl revoke e)
        have hsound' := (settle_revokeEach_frame hsettled hsound partitions).1
        obtain ⟨mailbox, journal, -, heq⟩ := hawake.settle_revokeEach partitions
        have hopen' : (partitions.foldl revoke e).settle.isClosed = false := by
          rw [heq]
          exact hclosed
        obtain ⟨mailbox', journal', hmailbox', heq'⟩ :=
          (awake_of_settled hafter hsound' hopen').settle_revokeEach rest.flatten
        rw [ih hafter hsound']
        obtain ⟨mailbox'', journal'', hmailbox'', heq''⟩ :=
          hawake.settle_revokeEach (partitions ++ rest.flatten)
        have hsame := e.tidied_mailbox (hmailbox'.trans hmailbox''.symm) journal' journal''
        have hlanes := (e.lanes.revokeEach partitions).tidied_woundUp_revokeEach rest.flatten
        have hlast : (e.lanes.revokeEach partitions).revokeEach rest.flatten =
            e.lanes.revokeEach (partitions ++ rest.flatten) := List.foldl_append.symm
        rw [hlast] at hlanes
        rw [heq', heq'', heq]
        refine withLanes_alike hsame hlanes fun k hk => Lanes.hasEnded_woundUp ?_
        rw [Lanes.hasEnded_revokeEach]
        apply Lanes.hasEnded_woundUp
        rw [Lanes.hasEnded_revokeEach]
        exact hk
      · have hsame : (partitions.foldl revoke e).settle = e := by
          rw [foldl_revoke_of_closed hclosed, settle_of_next?_eq_none hsettled]
        rw [hsame, ih hsettled hsound, foldl_revoke_of_closed hclosed,
          foldl_revoke_of_closed hclosed]

end OffsetCommit.Engine
