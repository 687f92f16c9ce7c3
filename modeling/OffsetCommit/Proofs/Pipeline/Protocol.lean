import OffsetCommit.Proofs.Pipeline.Receipts

/-!
# The commit protocol

What a coordinator does, said without trackers and their bitmaps (`Protocol`). It remembers a finite
map from partitions to a commit point and the set of the offsets resolved from there on; a call
changes the map and sends commands to the engine (`Protocol.react`).

* `settle_eq_notify`: the protocol settles a notification as `ResolvedSet.notify` does.
* `follows_act`, `follows_run`: at any time the trackers hold what the map says (`Follows`).
* `answer_eq`, `commands_eq`: every call is answered as the protocol answers it, and the engine
  gets the protocol's commands and no others.
* `follows_protocol`: all of this of every run.
-/

namespace OffsetCommit

/-- What the protocol remembers of the tracked partitions. -/
abbrev Protocol : Type := Partition.Table ResolvedSet

namespace Protocol

/-- What follows from a call. -/
structure Reaction where
  /-- What is remembered afterwards. -/
  state : Protocol
  /-- What is sent to the engine. -/
  commands : List EngineAction

/-- What the notification `n` comes to for a tracked partition: the run to commit, if `n` is a
success that closes the gaps up to the highest resolved offset, and what is remembered afterwards.
An offset below the commit point changes nothing. -/
def settle (s : ResolvedSet) (n : Notification) : Option Advance × ResolvedSet :=
  if n.offset < s.commitPoint then
    (none, s)
  else
    let resolved := insert n.offset s.resolved
    let high := resolved.max' (Finset.insert_nonempty n.offset s.resolved)
    if (n.outcome = .delivered ∨ n.outcome = .deadLettered) ∧
        resolved = Finset.Icc s.commitPoint high then
      let next := Offset.clamp (high.toNat + 1)
      (some ⟨next, high.toNat - s.commitPoint.toNat + 1⟩, ⟨next, ∅⟩)
    else
      (none, ⟨s.commitPoint, resolved⟩)

/-- The answer to the notification `n` of `p`: the error `.untracked`, or the run to commit, if
there is one. -/
def answer (σ : Protocol) (p : Partition) (n : Notification) : Except Error (Option Advance) :=
  match σ[p]? with
  | none => .error (.untracked p n.offset)
  | some s => .ok (settle s n).1

/-- What follows from an action: what is remembered of each partition, and the commands to the
engine. -/
def react (σ : Protocol) : PipelineAction → Reaction
  | .receive r =>
      match σ[r.partition]? with
      | none => ⟨σ.insert r.partition ⟨r.offset, ∅⟩, []⟩
      | some _ => ⟨σ, []⟩
  | .resolve r outcome =>
      match σ[r.partition]? with
      | none => ⟨σ, []⟩
      | some s =>
          let (advance, left) := settle s ⟨r.offset, outcome⟩
          ⟨σ.insert r.partition left,
            advance.toList.map fun a => .submit r.partition a.offset a.count⟩
  | .revoke p =>
      match σ[p]? with
      | none => ⟨σ, []⟩
      | some _ => ⟨σ.erase p, [.revoke p]⟩
  | .revokeAll => ⟨∅, σ.keys.map .revoke⟩
  | .engine a => ⟨σ, [a]⟩

/-- What is remembered after several actions, the state of `react` for one after the other. -/
def run (σ : Protocol) (actions : List PipelineAction) : Protocol :=
  actions.foldl (fun σ a => (σ.react a).state) σ

end Protocol

/-- An offset below the commit point is taken no notice of: `react` gives `⟨σ, []⟩`, even when a run
waits there. -/
theorem Protocol.react_of_stale {σ : Protocol} {r : Record} {s : ResolvedSet}
    (hs : σ[r.partition]? = some s) (hstale : r.offset < s.commitPoint) (outcome : Outcome) :
    σ.react (.resolve r outcome) = ⟨σ, []⟩ := by
  have hsettle : settle s ⟨r.offset, outcome⟩ = (none, s) := if_pos hstale
  have hkeep : σ.insert r.partition s = σ := by
    apply Std.ExtTreeMap.ext_getElem?
    intro q
    rw [Partition.getElem?_insert]
    split
    · next hq => rw [← hq, hs]
    · rfl
  simp only [react, hs, hsettle, hkeep]
  rfl

/-! ### Sets -/

namespace ResolvedSet

/-- A set is taken out if it is `Finset.Icc commitPoint high`, where `high` is its greatest offset. -/
theorem takeRun_mk (commitPoint : Offset) {resolved : Finset Offset} (h : resolved.Nonempty) :
    (⟨commitPoint, resolved⟩ : ResolvedSet).takeRun =
      if resolved = Finset.Icc commitPoint (resolved.max' h) then
        (some ⟨.clamp ((resolved.max' h).toNat + 1),
            (resolved.max' h).toNat - commitPoint.toNat + 1⟩,
          start (.clamp ((resolved.max' h).toNat + 1)))
      else (none, ⟨commitPoint, resolved⟩) := by
  have hhigh : (⟨commitPoint, resolved⟩ : ResolvedSet).highest? = some (resolved.max' h) := by
    rw [highest?, dif_pos h]
  have hrun : (⟨commitPoint, resolved⟩ : ResolvedSet).pendingRun =
      (resolved.max' h).toNat - commitPoint.toNat + 1 := by
    rw [pendingRun, hhigh]
  rw [takeRun, isCommittable, hhigh]
  by_cases hfull : resolved = Finset.Icc commitPoint (resolved.max' h)
  · have hle : commitPoint ≤ resolved.max' h := by
      have hmax := Finset.ext_iff.mp hfull (resolved.max' h)
      exact (Finset.mem_Icc.mp (hmax.mp (resolved.max'_mem h))).1
    have hnext : (⟨commitPoint, resolved⟩ : ResolvedSet).nextCommit =
        .clamp ((resolved.max' h).toNat + 1) := by
      rw [nextCommit, hrun]
      congr 1
      have := Offset.le_def.mp hle
      show commitPoint.toNat + _ = _
      omega
    rw [if_pos hfull, if_pos (decide_eq_true hfull), hrun, hnext]
  · rw [if_neg hfull, if_neg (by simpa using hfull)]

/-- An offset that is not stale belongs to the set afterwards, and a success takes the set out if it
can be taken out. -/
theorem notify_of_not_stale {s : ResolvedSet} {n : Notification}
    (h : ¬n.offset < s.commitPoint) :
    s.notify n =
      if n.outcome.attemptsCommit then
        (⟨s.commitPoint, insert n.offset s.resolved⟩ : ResolvedSet).takeRun
      else (none, ⟨s.commitPoint, insert n.offset s.resolved⟩) := by
  have hresolve : (s.resolve n.offset).1 ≠ .stale ∧
      (s.resolve n.offset).2 = ⟨s.commitPoint, insert n.offset s.resolved⟩ := by
    rw [resolve, if_neg h]
    by_cases hmem : n.offset ∈ s.resolved
    · rw [if_pos hmem, Finset.insert_eq_of_mem hmem]
      exact ⟨Resolution.noConfusion, rfl⟩
    · rw [if_neg hmem]
      exact ⟨Resolution.noConfusion, rfl⟩
  rw [notify, hresolve.2]
  simp only [hresolve.1, ne_eq, not_false_eq_true, true_and]

/-- Without a run to commit the offset stays in the set. -/
theorem notify_of_eq_none {s : ResolvedSet} {n : Notification} (h : ¬n.offset < s.commitPoint)
    (hnone : (s.notify n).1 = none) :
    (s.notify n).2 = ⟨s.commitPoint, insert n.offset s.resolved⟩ := by
  rw [notify_of_not_stale h] at hnone ⊢
  split at hnone
  · next hattempts =>
      rw [if_pos hattempts]
      rcases takeRun_cases ⟨s.commitPoint, insert n.offset s.resolved⟩ with
        ⟨-, heq⟩ | ⟨high, -, -, heq⟩
      · rw [heq]
      · rw [heq] at hnone
        cases hnone
  · next hattempts => rw [if_neg hattempts]

/-- The protocol settles a notification as the set of resolved offsets does. -/
theorem settle_eq_notify (s : ResolvedSet) (n : Notification) :
    Protocol.settle s n = s.notify n := by
  unfold Protocol.settle
  split
  · next hstale =>
      rw [notify, resolve, if_pos hstale]
      simp
  · next hstale =>
      have hsuccess : n.outcome.attemptsCommit = true ↔
          n.outcome = .delivered ∨ n.outcome = .deadLettered := by
        rcases n.outcome <;> simp [Outcome.attemptsCommit]
      rw [notify_of_not_stale hstale, takeRun_mk _ (Finset.insert_nonempty n.offset s.resolved)]
      by_cases hattempts : n.outcome.attemptsCommit = true
      · rw [if_pos hattempts]
        simp only [hsuccess.mp hattempts, true_and]
        rfl
      · rw [if_neg hattempts, if_neg fun h => hattempts (hsuccess.mpr h.1)]

end ResolvedSet

/-- A notification about a tracked partition is answered by what its set takes out. -/
theorem Protocol.answer_of_tracked {σ : Protocol} {p : Partition} {s : ResolvedSet}
    (h : σ[p]? = some s) (n : Notification) : σ.answer p n = .ok (s.notify n).1 := by
  rw [answer, h, ← s.settle_eq_notify]

/-! ### The same partitions -/

/-- Tables with entries for the same partitions list them alike. -/
theorem Partition.keys_eq {α β : Type} {t : Partition.Table α} {u : Partition.Table β}
    (h : ∀ p : Partition, t[p]?.isSome = u[p]?.isSome) : t.keys = u.keys := by
  have hlt : ∀ a b : Partition, compare a b = .lt → compare b a = .lt → False := by
    intro a b hab hba
    rw [Std.OrientedOrd.eq_swap, hba] at hab
    cases hab
  have : Std.Antisymm fun a b : Partition => compare a b = .lt :=
    ⟨fun a b hab hba => (hlt a b hab hba).elim⟩
  have : Std.Irrefl fun a b : Partition => compare a b = .lt := ⟨fun a ha => hlt a a ha ha⟩
  refine Std.ExtTreeMap.ordered_keys.eq_of_mem_iff Std.ExtTreeMap.ordered_keys fun p => ?_
  rw [Std.ExtTreeMap.mem_keys, Std.ExtTreeMap.mem_keys, Std.ExtTreeMap.mem_iff_isSome_getElem?,
    Std.ExtTreeMap.mem_iff_isSome_getElem?, h]

namespace Coordinator

/-- Whether the trackers of `c` represent what the protocol remembers, partition by partition. Every
action keeps this, by `follows_act`. -/
def Follows (c : Coordinator) (σ : Protocol) : Prop :=
  ∀ p : Partition, Option.Rel Tracker.Represents c.trackers[p]? σ[p]?

namespace Follows

variable {c : Coordinator} {σ : Protocol}

/-- A partition is tracked by both or by neither, and if by both, the tracker represents the set. -/
theorem cases (h : c.Follows σ) (p : Partition) :
    c.trackers[p]? = none ∧ σ[p]? = none ∨
      ∃ t s, c.trackers[p]? = some t ∧ σ[p]? = some s ∧ t.Represents s := by
  have hp := h p
  rcases ht : c.trackers[p]? with _ | t
  · rw [ht] at hp
    rcases hs : σ[p]? with _ | s
    · exact .inl ⟨rfl, rfl⟩
    · rw [hs] at hp
      cases hp
  · rw [ht] at hp
    rcases hs : σ[p]? with _ | s
    · rw [hs] at hp
      cases hp
    · rw [hs] at hp
      cases hp with
      | some hrepresents => exact .inr ⟨t, s, rfl, rfl, hrepresents⟩

/-- A partition is tracked just when the protocol has an entry for it. -/
theorem isSome_eq (h : c.Follows σ) (p : Partition) :
    c.trackers[p]?.isSome = σ[p]?.isSome := by
  rcases h.cases p with ⟨ht, hs⟩ | ⟨t, s, ht, hs, -⟩
  · rw [ht, hs]
    rfl
  · rw [ht, hs]
    rfl

/-- The tracked partitions are the keys of the map. -/
theorem tracked_eq (h : c.Follows σ) : c.tracked = σ.keys :=
  Partition.keys_eq h.isSome_eq

/-- The protocol remembers no offset below a commit point. -/
theorem bounded (h : c.Follows σ) {p : Partition} {s : ResolvedSet} (hs : σ[p]? = some s) :
    s.Bounded := by
  rcases h.cases p with ⟨-, hnone⟩ | ⟨t, s', -, hs', hrepresents⟩
  · rw [hs] at hnone
    cases hnone
  · obtain rfl := Option.some.inj (hs.symm.trans hs')
    intro o ho
    rw [← hrepresents.commitPoint_eq]
    exact (Tracker.isMarked_iff.mp ((hrepresents.mem_iff o).mp ho)).1

end Follows

end Coordinator

namespace Pipeline

open Coordinator

variable {pl : Pipeline} {σ : Protocol}

/-! ### Calls -/

/-- The pipeline leaves notifications to its coordinator. -/
theorem coordinator_resolve (pl : Pipeline) (r : Record) (outcome : Outcome) :
    (pl.resolve r outcome).2.coordinator = (pl.coordinator.resolve r outcome).coordinator := by
  unfold resolve
  dsimp only
  split <;> rfl

/-- A call leaves the coordinator with what the protocol remembers after it: `(pl.act
a).coordinator.Follows (σ.react a).state`. -/
theorem follows_act (h : pl.coordinator.Follows σ) (a : PipelineAction) :
    (pl.act a).coordinator.Follows (σ.react a).state := by
  cases a with
  | receive r =>
      rcases h.cases r.partition with ⟨ht, hs⟩ | ⟨t, s, ht, hs, -⟩
      · intro q
        simp only [Protocol.react, hs, Partition.getElem?_insert]
        show Option.Rel _ (pl.coordinator.receive r).1.trackers[q]? _
        rw [receive_of_untracked ht]
        split
        · exact .some (Tracker.represents_start r.offset _)
        · exact h q
      · have hkeep : (pl.act (.receive r)).coordinator = pl.coordinator := receive_of_tracked ht
        simp only [Protocol.react, hs]
        rw [hkeep]
        exact h
  | resolve r outcome =>
      rw [act, coordinator_resolve]
      rcases h.cases r.partition with ⟨ht, hs⟩ | ⟨t, s, ht, hs, hrepresents⟩
      · simp only [Protocol.react, hs]
        rw [(Coordinator.resolve_of_untracked ht outcome).1]
        exact h
      · intro q
        simp only [Protocol.react, hs, Partition.getElem?_insert]
        rw [(Coordinator.resolve_of_tracked ht outcome).2, ResolvedSet.settle_eq_notify]
        split
        · exact .some (hrepresents.notify _).2
        · exact h q
  | revoke p =>
      intro q
      show Option.Rel _ (pl.revoke p).2.coordinator.trackers[q]? _
      rw [getElem?_revoke]
      rcases h.cases p with ⟨ht, hs⟩ | ⟨t, s, ht, hs, -⟩
      · simp only [Protocol.react, hs]
        split
        · next hp =>
            rw [← hp, hs]
            exact .none
        · exact h q
      · simp only [Protocol.react, hs, Partition.getElem?_erase]
        split
        · exact .none
        · exact h q
  | revokeAll =>
      intro q
      show Option.Rel _ pl.coordinator.revokeAll.1.trackers[q]? (∅ : Protocol)[q]?
      rw [getElem?_revokeAll, Std.ExtTreeMap.getElem?_empty]
      exact .none
  | engine a => exact h

/-- A notification is answered as the protocol answers it; the receipt has the next ticket,
`pl.engine.tickets.size`. -/
theorem answer_eq (h : pl.coordinator.Follows σ) (r : Record) (outcome : Outcome) :
    (pl.resolve r outcome).1 =
      (σ.answer r.partition ⟨r.offset, outcome⟩).map fun run =>
        run.map fun advance => ⟨pl.engine.tickets.size, r.partition, advance⟩ := by
  rcases h.cases r.partition with ⟨ht, hs⟩ | ⟨t, s, ht, hs, hrepresents⟩
  · rw [(resolve_of_untracked ht outcome).1, Protocol.answer, hs]
    rfl
  · have hsame := (hrepresents.notify ⟨r.offset, outcome⟩).1
    rw [Protocol.answer_of_tracked hs, ← hsame]
    rcases hnotify : (t.notify ⟨r.offset, outcome⟩).1 with _ | advance
    · exact (resolve_of_incomplete ht hnotify).1
    · exact (resolve_of_complete ht hnotify).1

/-- The engine is sent what the protocol sends: `pl.commands a = (σ.react a).commands`. -/
theorem commands_eq (h : pl.coordinator.Follows σ) (a : PipelineAction) :
    pl.commands a = (σ.react a).commands := by
  cases a with
  | receive r =>
      rw [commands, Protocol.react]
      split <;> rfl
  | resolve r outcome =>
      rw [commands, answer_eq h, Protocol.answer, Protocol.react]
      rcases σ[r.partition]? with _ | s
      · rfl
      · rcases hrun : (Protocol.settle s ⟨r.offset, outcome⟩).1 with _ | advance
        · simp [hrun, Except.map]
        · simp [hrun, Except.map]
  | revoke p =>
      rw [commands, h.isSome_eq, Protocol.react]
      rcases σ[p]? with _ | s <;> rfl
  | revokeAll => rw [commands, h.tracked_eq, Protocol.react]
  | engine a => rfl

/-- Revoking a partition tells whether the protocol has an entry for it. -/
theorem revoked_eq (h : pl.coordinator.Follows σ) (p : Partition) :
    (pl.revoke p).1 = σ[p]?.isSome := by
  rw [revoke_fst, h.isSome_eq]

/-! ### Calls without consequences -/

/-- A notification that has no run to commit and changes nothing in the set changes nothing in the
tracker. -/
theorem notify_eq_self {t : Tracker} {s : ResolvedSet} (h : t.Represents s) {n : Notification}
    (hnone : (s.notify n).1 = none) (hsame : (s.notify n).2 = s) : (t.notify n).2 = t := by
  have hanswer := (h.notify n).1.trans hnone
  rcases h.wellFormed.resolve_cases n.offset with
    ⟨-, heq⟩ | ⟨-, -, heq⟩ | ⟨hle, hmarked, -, -, -, -, -⟩
  · rw [Tracker.notify, heq]
    rfl
  · rw [Tracker.notify, heq] at hanswer ⊢
    rcases t.takeRun_cases with ⟨-, hrun⟩ | ⟨-, hrun⟩
    · rw [Coordinator.attempt, hrun, ite_self]
    · unfold Coordinator.attempt at hanswer ⊢
      split at hanswer
      · rw [hrun] at hanswer
        cases hanswer
      · next hnot => rw [if_neg hnot]
  · -- an offset that is marked only now was not in the set before, and it stays there
    exfalso
    have hstale : ¬n.offset < s.commitPoint := h.commitPoint_eq ▸ not_lt.mpr hle
    have hmem : n.offset ∈ (s.notify n).2.resolved := by
      rw [ResolvedSet.notify_of_eq_none hstale hnone]
      exact Finset.mem_insert_self n.offset s.resolved
    rw [hsame, h.mem_iff, hmarked] at hmem
    cases hmem

/-- What the protocol leaves alone the coordinator leaves alone. -/
theorem coordinator_act_eq (h : pl.coordinator.Follows σ) {a : PipelineAction}
    (hreact : σ.react a = ⟨σ, []⟩) : (pl.act a).coordinator = pl.coordinator := by
  have hstate : (σ.react a).state = σ := congrArg Protocol.Reaction.state hreact
  have hcommands : (σ.react a).commands = [] := congrArg Protocol.Reaction.commands hreact
  cases a with
  | receive r =>
      rcases h.cases r.partition with ⟨ht, hs⟩ | ⟨t, s, ht, hs, -⟩
      · simp only [Protocol.react, hs] at hstate
        have hnew := congrArg (fun σ : Protocol => σ[r.partition]?) hstate
        simp [hs] at hnew
      · exact receive_of_tracked ht
  | resolve r outcome =>
      rw [act, coordinator_resolve]
      rcases h.cases r.partition with ⟨ht, hs⟩ | ⟨t, s, ht, hs, hrepresents⟩
      · exact (Coordinator.resolve_of_untracked ht outcome).1
      · simp only [Protocol.react, hs, ResolvedSet.settle_eq_notify] at hstate hcommands
        have hleft := congrArg (fun σ : Protocol => σ[r.partition]?) hstate
        rw [Partition.getElem?_insert, if_pos rfl, hs] at hleft
        have hkeep : (t.notify ⟨r.offset, outcome⟩).2 = t := by
          apply notify_eq_self hrepresents _ (Option.some.inj hleft)
          simpa using hcommands
        apply Coordinator.eq_of_getElem?_eq (pl.coordinator.config_resolve r outcome)
        intro q
        rw [(Coordinator.resolve_of_tracked ht outcome).2, hkeep]
        split
        · next hq => rw [← hq, ht]
        · rfl
  | revoke p =>
      rcases h.cases p with ⟨ht, hs⟩ | ⟨t, s, ht, hs, -⟩
      · rw [act, revoke, Coordinator.revoke?_of_untracked ht]
      · simp only [Protocol.react, hs] at hcommands
        cases hcommands
  | revokeAll =>
      have hconfig : pl.coordinator.revokeAll.1.config = pl.coordinator.config := rfl
      apply Coordinator.eq_of_getElem?_eq hconfig
      intro q
      have hnone : σ[q]? = none := by
        rw [← hstate]
        exact Std.ExtTreeMap.getElem?_empty
      have hq := h.isSome_eq q
      rw [hnone, Option.isSome_none, Option.isSome_eq_false_iff, Option.isNone_iff_eq_none] at hq
      exact (getElem?_revokeAll pl.coordinator q).trans hq.symm
  | engine a => rfl

/-! ### Runs -/

/-- At the start the coordinator follows the empty protocol. -/
theorem follows_start {config : Config} {setup : Setup} {broker : Broker}
    (hstart : start config setup broker = .ok pl) : pl.coordinator.Follows ∅ := by
  intro p
  rw [(tells_start hstart p).untracked rfl, Std.ExtTreeMap.getElem?_empty]
  exact .none

/-- Along every run the coordinator follows the protocol: `follows_act` for each action. -/
theorem follows_run (h : pl.coordinator.Follows σ) (actions : List PipelineAction) :
    (pl.run actions).coordinator.Follows (σ.run actions) := by
  induction actions generalizing pl σ with
  | nil => exact h
  | cons a rest ih => exact ih (follows_act h a)

/-- **The pipeline follows the protocol.** Let `σ = Protocol.run ∅ actions`. The trackers hold what
`σ` remembers (`Follows`), and it remembers no offset below a commit point. By any action `a` they
come to hold `(σ.react a).state`, the engine is sent `(σ.react a).commands` and nothing else, and if
`σ.react a = ⟨σ, []⟩` the coordinator stays as it is. A notification is answered by `σ.answer`, with
a receipt for just the run that was issued; `revoke p` tells whether `σ` remembers `p`, and
`revokeAll` how many partitions it remembers. -/
theorem follows_protocol {config : Config} {setup : Setup} {broker : Broker}
    (hstart : start config setup broker = .ok pl) (actions : List PipelineAction) :
    let now := pl.run actions
    let σ := Protocol.run ∅ actions
    now.coordinator.Follows σ ∧
      (∀ (p : Partition) (s : ResolvedSet), σ[p]? = some s →
        ∀ o ∈ s.resolved, s.commitPoint ≤ o) ∧
      (∀ a, (now.act a).coordinator.Follows (σ.react a).state ∧
        (now.act a).engine = now.engine.run (σ.react a).commands ∧
        (σ.react a = ⟨σ, []⟩ → (now.act a).coordinator = now.coordinator)) ∧
      (∀ r outcome, (now.resolve r outcome).1 =
        (σ.answer r.partition ⟨r.offset, outcome⟩).map fun run =>
          run.map fun advance => ⟨now.engine.tickets.size, r.partition, advance⟩) ∧
      (∀ p, (now.revoke p).1 = σ[p]?.isSome) ∧ now.revokeAll.1 = σ.keys.length := by
  intro now σ
  have h : now.coordinator.Follows σ := follows_run (follows_start hstart) actions
  refine ⟨h, fun p s hs => h.bounded hs, fun a => ⟨follows_act h a, ?_, coordinator_act_eq h⟩,
    answer_eq h, revoked_eq h, ?_⟩
  · rw [engine_act, commands_eq h]
  · exact congrArg List.length h.tracked_eq

/-- The second record is discarded before the first is delivered, so the commit folds both, and then
a notification about the second comes too late. -/
theorem follows_protocol_past_gap :
    let p : Partition := ⟨"orders", 0⟩
    let record : Nat → Record := fun n => ⟨p, .clamp n, []⟩
    let earlier : List PipelineAction := [.receive (record 3), .resolve (record 4) .discarded]
    let later : List PipelineAction := earlier ++ [.resolve (record 3) .delivered]
    ∃ pl, start .testing default default = .ok pl ∧
      ((pl.run earlier).resolve (record 3) .delivered).1 = .ok (some ⟨0, p, ⟨.clamp 5, 2⟩⟩) ∧
      ((pl.run earlier).act (.resolve (record 3) .delivered)).engine =
        (pl.run earlier).engine.submit p (.clamp 5) 2 ∧
      ((pl.run later).act (.resolve (record 4) .delivered)).coordinator =
        (pl.run later).coordinator := by
  intro p record earlier later
  have hstart : start .testing default default =
      .ok ⟨⟨.testing, ∅⟩, .start default default, #[]⟩ := rfl
  obtain ⟨-, -, hnext, hanswer, -⟩ := follows_protocol hstart earlier
  obtain ⟨-, -, hlater, -⟩ := follows_protocol hstart later
  have htickets : (run ⟨⟨.testing, ∅⟩, .start default default, #[]⟩ earlier).engine.tickets.size =
      0 := by decide +kernel
  have hgap : (Protocol.run ∅ earlier)[p]? = some ⟨.clamp 3, {.clamp 4}⟩ := by decide +kernel
  have htaken : (Protocol.run ∅ later)[p]? = some ⟨.clamp 5, ∅⟩ := by decide +kernel
  have hrun : Protocol.settle ⟨.clamp 3, {.clamp 4}⟩ ⟨.clamp 3, .delivered⟩ =
      (some ⟨.clamp 5, 2⟩, ⟨.clamp 5, ∅⟩) := by decide +kernel
  have hstale : (record 4).offset < Offset.clamp 5 := by decide
  refine ⟨_, hstart, ?_, ?_, ?_⟩
  · rw [hanswer, htickets, Protocol.answer, hgap]
    simp only [record, hrun]
    rfl
  · rw [(hnext _).2.1]
    simp only [Protocol.react, record, hgap, hrun]
    rfl
  · exact (hlater _).2.2 (Protocol.react_of_stale htaken hstale .delivered)

end Pipeline

end OffsetCommit
