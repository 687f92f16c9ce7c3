import OffsetCommit.Proofs.Engine.Callers
import OffsetCommit.Proofs.Engine.Custody
import OffsetCommit.Proofs.Pipeline.Run

/-!
# Crashes are contained

A crash of the client takes one lane with it, and with the lane the commit under way and those
queued behind it. Nothing else is harmed.

* `isDecided_iff_not_isLost`: at rest a request was decided unless `IsLost`, that is, unless the
  client crashed on it or on one ahead of it in the same lane.
* `exists_younger`: requests that are taken later go to a lane that was opened later.
* `getElem?_tickets_of_crashes`: tickets of other partitions keep their statuses.
* `crashes_are_contained`: all of this of every run, and that whoever asks for a shutdown
  afterwards is answered.
-/

namespace OffsetCommit.Engine

/-! ### Lanes that are opened later -/

/-- An action takes at most one request. -/
theorem takes_of_mem {e : Engine} {a : EngineAction} {r : Request} (hr : r ∈ e.takes a) :
    e.takes a = [r] := by
  unfold takes at hr ⊢
  split at hr
  · split at hr
    · next htake =>
        rw [if_pos htake]
        rw [Option.mem_toList] at hr
        rw [hr]
        rfl
    · cases hr
  · cases hr

/-- A request that is taken when lane `j` of its partition is closed or has ended is accepted by a
lane `k` with `j < k`. -/
theorem exists_younger {e : Engine} (h : e.Sound) (hl : e.Ledger) {j : Nat} {lane : Lane}
    (hj : e.lanes.all[j]? = some lane) (hgone : lane.hasEnded = true ∨ lane.isOpen = false)
    {later : List EngineAction} {r : Request} (hr : r ∈ e.taken later)
    (hp : r.partition = lane.partition) : ∃ k, j < k ∧ r ∈ e.accepted k later := by
  induction later generalizing e lane with
  | nil => cases hr
  | cons a rest ih =>
      rw [taken, along, List.mem_append] at hr
      rcases hr with hr | hr
      · obtain ⟨k, hhanded, henters⟩ := exists_handed_of_takes h hl (takes_of_mem hr)
        refine ⟨k, hhanded.younger j lane hj hp.symm hgone, ?_⟩
        rw [accepted, along]
        refine List.mem_append_left _ ?_
        rw [henters, if_pos rfl]
        exact List.mem_singleton_self r
      · obtain ⟨lane', hj', hleads⟩ := lanes_leadsTo_act h a j lane hj
        obtain ⟨k, hjk, hk⟩ := ih (h.act a) (hl.act h a) hj'
          (hgone.imp hleads.ended hleads.closed) hr (hp.trans hleads.partition_eq.symm)
        refine ⟨k, hjk, ?_⟩
        rw [accepted, along]
        exact List.mem_append_right _ hk

/-! ### What a crash leaves alone -/

/-- A crash changes no ticket of another partition. -/
theorem getElem?_tickets_of_crashes {e : Engine} (h : e.Sound) (hl : e.Ledger) {i : Nat}
    {a : EngineAction} {x : Request} (hx : x ∈ e.crashes i a) {k : Nat} {t : Ticket}
    (ht : e.tickets[k]? = some t) (hp : t.partition ≠ x.partition) :
    (e.act a).tickets[k]? = some t := by
  obtain ⟨lane, due, hi, hphase, hact⟩ := exists_committing_of_crashes hx
  have hconcludes := concludes_abandon e (x :: lane.queue.toList)
  rw [foldl_abandon_eq] at hconcludes
  rw [hact, crash, foldl_abandon_eq]
  rcases hconcludes.getElem? k with ⟨-, hsame⟩ | ⟨r, hr, rfl, -⟩
  · exact hsame.trans ht
  · exfalso
    obtain ⟨hown, hmem⟩ := h.mem_pending_of_committing hi hphase hr
    have hfirst := (h.mem_pending_of_committing hi hphase List.mem_cons_self).1
    rw [hl.ticket _ r hmem, Option.some.injEq] at ht
    rw [← ht, hfirst] at hp
    exact hp hown

/-! ### Whoever asks afterwards -/

/-- At rest a closed lane has ended, as it would have work to do otherwise. -/
theorem IsAtRest.hasEnded_of_closed {e : Engine} (h : e.IsAtRest) (hsound : e.Sound)
    (hclosing : e.Closing) {i : Nat} {lane : Lane} (hi : e.lanes.all[i]? = some lane)
    (hclosed : lane.isOpen = false) : lane.hasEnded = true := by
  rcases h.lane_cases hsound hclosing i lane hi with hended | ⟨hopen, -⟩
  · exact hended
  · rw [hclosed] at hopen
    cases hopen

/-! ### The fate of a request -/

section

variable {setup : Setup} {broker : Broker} {actions : List EngineAction}

/-- At rest a request that was taken `isDecided` just when it is not `IsLost`: it has a status, and
that is a decision unless the request was given up. -/
theorem isDecided_iff_not_isLost {r : Request} (hr : r ∈ (start setup broker).taken actions)
    (hrest : ((start setup broker).run actions).IsAtRest) :
    ((start setup broker).run actions).isDecided r.ticket = true ↔
      ¬(start setup broker).IsLost actions r := by
  have hl := ledger_run setup broker actions
  rw [← isAbandoned_iff_isLost hr]
  constructor
  · intro hdecided habandoned
    rw [not_isAbandoned_of_isDecided hdecided] at habandoned
    cases habandoned
  · intro hnot
    have hstatus : (((start setup broker).run actions).status? r.ticket).isSome = true := by
      obtain ⟨t, ht, -⟩ := (dealt_run setup broker actions).ticket r hr
      rw [status?_of_getElem? ht, Option.isSome_iff_ne_none]
      intro hnone
      obtain ⟨x, hx, -⟩ := hl.pending _ t ht hnone
      rw [hrest.pending_eq_nil (sound_run setup broker actions)
        ((closing_start setup broker).run (sound_start setup broker) actions)] at hx
      cases hx
    exact (isDecided_or_isAbandoned hstatus).resolve_right hnot

/-- A lane is handed each request at most once, as those that are taken have ascending tickets. -/
theorem nodup_accepted (i : Nat) : ((start setup broker).accepted i actions).Nodup := by
  have hdealt := dealt_run setup broker actions
  have hsorted : ((start setup broker).taken actions).Pairwise fun r x => r.ticket < x.ticket :=
    List.pairwise_map.mp (hdealt.sorted.sublist ((List.sublist_append_left _ _).map _))
  refine List.Pairwise.imp ?_ (hsorted.sublist (hdealt.sublist i))
  rintro r x hlt rfl
  exact Nat.lt_irrefl _ hlt

/-- A request that is taken after lane `j` of its partition has closed or ended is accepted by a
later lane, and by no other. -/
theorem lt_of_mem_accepted {j : Nat} {lane : Lane}
    (hj : ((start setup broker).run actions).lanes.all[j]? = some lane)
    (hgone : lane.hasEnded = true ∨ lane.isOpen = false) {later : List EngineAction} {r : Request}
    (hr : r ∈ ((start setup broker).run actions).taken later) (hp : r.partition = lane.partition)
    {k : Nat} (hk : r ∈ (start setup broker).accepted k (actions ++ later)) : j < k := by
  obtain ⟨k', hjk, hk'⟩ := exists_younger (sound_run setup broker actions)
    (ledger_run setup broker actions) hj hgone hr hp
  have hmem : r ∈ (start setup broker).accepted k' (actions ++ later) := by
    rw [accepted, along_append]
    exact List.mem_append_right _ hk'
  rwa [(dealt_run setup broker (actions ++ later)).unique r k k' hk hmem]

end

/-- **A crash is contained in one lane.** On whichever offsets the client crashes: each request in
`first.taken actions` is handed to just one lane, once; it is given up just when it `IsLost`, that
is, when the client crashed on it or on one that the same lane was handed before it, and otherwise
it is decided when the engine `IsAtRest`. A commit that is taken when a lane of its partition is
closed or has ended goes to a lane with a higher index. A crash changes no ticket of another
partition, and trackers are out of its reach. An engine that is left alone comes to rest; then the
mailbox is empty, closed lanes have ended, and every caller has been answered, the one of `pl.close`
too. While the engine serves, `route` accepts every request. -/
theorem crashes_are_contained (setup : Setup) (broker : Broker) (actions : List EngineAction) :
    let first := start setup broker
    let e := first.run actions
    (∀ r ∈ first.taken actions, (∃! i, r ∈ first.accepted i actions) ∧
      (e.isAbandoned r.ticket = true ↔ first.IsLost actions r) ∧
      (e.IsAtRest → (e.isDecided r.ticket = true ↔ ¬first.IsLost actions r))) ∧
    (∀ i, (first.accepted i actions).Nodup) ∧
    (∀ (j : Nat) (lane : Lane), e.lanes.all[j]? = some lane →
      lane.hasEnded = true ∨ lane.isOpen = false →
      ∀ later, ∀ r ∈ e.taken later, r.partition = lane.partition →
        ∀ k, r ∈ first.accepted k (actions ++ later) → j < k) ∧
    (∀ a i, ∀ x ∈ e.crashes i a, ∀ (k : Nat) (t : Ticket), e.tickets[k]? = some t →
      t.partition ≠ x.partition → (e.act a).tickets[k]? = some t) ∧
    (e.IsAtRest → e.mailbox.toList = [] ∧
      (∀ (i : Nat) (lane : Lane), e.lanes.all[i]? = some lane → lane.isOpen = false →
        lane.hasEnded = true) ∧
      ∀ c < e.callers.size, e.hasReturned c = true) ∧
    (∃ further : List EngineAction, (∀ a ∈ further, a.isInternal = true) ∧
      (first.run (actions ++ further)).IsAtRest) ∧
    (∀ pl : Pipeline, pl.engine = e →
      (∀ a, (pl.act (.engine a)).coordinator = pl.coordinator) ∧
        pl.close.engine.hasReturned pl.beginClose.1 = true) ∧
    (e.stage = .serving → ∀ r, (e.lanes.route r).accepted = true) := by
  intro first e
  have hsound : e.Sound := sound_run setup broker actions
  have hl : e.Ledger := ledger_run setup broker actions
  have hdealt := dealt_run setup broker actions
  have hclosing : e.Closing := (closing_start setup broker).run (sound_start setup broker) actions
  have hattended : e.Attended := (attended_start setup broker).run actions
  refine ⟨fun r hr => ⟨?_, isAbandoned_iff_isLost hr, isDecided_iff_not_isLost hr⟩,
    fun i => nodup_accepted i,
    fun j lane hj hgone later r hr hp k hk => lt_of_mem_accepted hj hgone hr hp hk,
    fun a i x hx k t ht hp => getElem?_tickets_of_crashes hsound hl hx ht hp, fun hrest => ?_, ?_,
    fun pl hpl => ⟨fun _ => rfl, ?_⟩, fun hserving r => ?_⟩
  · obtain ⟨i, hi⟩ := hdealt.cared r hr
    exact ⟨i, hi, fun j hj => hdealt.unique r j i hj hi⟩
  · exact ⟨hrest.mailbox_eq_nil hsound hclosing,
      fun i lane hi hclosed => hrest.hasEnded_of_closed hsound hclosing hi hclosed,
      fun c hc => hattended.hasReturned (hrest.mailbox_eq_nil hsound hclosing)
        (hrest.not_draining hsound hclosing) hc⟩
  · obtain ⟨further, hinternal, hrest⟩ := exists_isAtRest e
    exact ⟨further, hinternal, run_append first actions further ▸ hrest⟩
  · exact hasReturned_close (hpl ▸ hsound) (hpl ▸ hclosing) (hpl ▸ hattended)
  · exact (Lanes.route_spec hsound.wellFormed (hsound.tended hserving) r).1

/-- The client crashes on the second commit of a partition, and the third is lost with it. The
fourth goes to a lane of its own and is decided, and a commit of another partition is not
touched. -/
theorem crashes_are_contained_in_lane :
    let p : Partition := ⟨"orders", 0⟩
    let q : Partition := ⟨"orders", 1⟩
    let take : EngineAction := .move .take
    let work : Nat → EngineAction := fun lane => .move (.work lane)
    let calm : List EngineAction :=
      [.submit p (.clamp 4) 1, .submit p (.clamp 5) 1, .submit p (.clamp 6) 1,
        .submit q (.clamp 3) 1, take, take, take, take, work 0, work 0, work 0]
    let harmed := calm ++ [work 0]
    let later : List EngineAction := [.submit p (.clamp 7) 1, take, work 1, work 1, work 2, work 2]
    let first := start ⟨[.clamp 5], none⟩ (.start 7 .quiet)
    let third : Request := ⟨2, p, .clamp 6, 1⟩
    let fourth : Request := ⟨4, p, .clamp 7, 1⟩
    (first.run calm).crashes 0 (work 0) = [⟨1, p, .clamp 5, 1⟩] ∧
      ((first.run calm).act (work 0)).tickets[3]? = some ⟨q, .clamp 3, 1, none⟩ ∧
      (first.run harmed).isAbandoned third.ticket = true ∧ first.IsLost harmed third ∧
      (∃! i, third ∈ first.accepted i harmed) ∧
      (∀ k, fourth ∈ first.accepted k (harmed ++ later) → 0 < k) ∧
      (first.run (harmed ++ later)).isDecided fourth.ticket = true ∧
      ¬first.IsLost (harmed ++ later) fourth := by
  intro p q take work calm harmed later first third fourth
  have hcrashes : (first.run calm).crashes 0 (work 0) = [⟨1, p, .clamp 5, 1⟩] := by decide +kernel
  have habandoned : (first.run harmed).isAbandoned third.ticket = true := by decide +kernel
  have hdecided : (first.run (harmed ++ later)).isDecided fourth.ticket = true := by decide +kernel
  have hended : (((start ⟨[.clamp 5], none⟩ (.start 7 .quiet)).run harmed).lanes.all[0]?.any
      fun lane => lane.hasEnded && lane.partition = p) = true := by decide +kernel
  obtain ⟨lane, hlane, hended⟩ := (Option.any_eq_true _ _).mp hended
  rw [Bool.and_eq_true, decide_eq_true_eq] at hended
  obtain ⟨-, -, -, hothers, -⟩ :=
    crashes_are_contained ⟨[.clamp 5], none⟩ (.start 7 .quiet) calm
  obtain ⟨hfate, -, hyounger, -⟩ :=
    crashes_are_contained ⟨[.clamp 5], none⟩ (.start 7 .quiet) harmed
  obtain ⟨hfate', -⟩ :=
    crashes_are_contained ⟨[.clamp 5], none⟩ (.start 7 .quiet) (harmed ++ later)
  obtain ⟨hlane', hlost, -⟩ := hfate third (by decide +kernel)
  obtain ⟨-, -, hrest⟩ := hfate' fourth (by decide +kernel)
  have htouched := hothers (work 0) 0 ⟨1, p, .clamp 5, 1⟩
    (by rw [hcrashes]; exact List.mem_singleton_self _) 3 ⟨q, .clamp 3, 1, none⟩
    (by decide +kernel) (by decide)
  have hlater := hyounger 0 lane hlane (.inl hended.1) later fourth (by decide +kernel)
    hended.2.symm
  exact ⟨hcrashes, htouched, habandoned, hlost.mp habandoned, hlane', hlater, hdecided,
    (hrest ⟨by decide +kernel, by decide +kernel⟩).mp hdecided⟩

end OffsetCommit.Engine
