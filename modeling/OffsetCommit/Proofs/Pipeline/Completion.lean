import OffsetCommit.Proofs.Engine.Rest
import OffsetCommit.Proofs.Pipeline.Tiling
import OffsetCommit.Proofs.Tracker.Completion

/-!
# No record is lost

A partition is seeded, each record of a stretch from there on is notified once, and the partition is
not given up. Whatever else happens meanwhile, the tracker then covers the whole stretch.

* `exists_chronicle_of_seeded`: what the chronicle of the partition looks like then.
* `Legal.getLast?_receipts`: the commit point is the offset of the last receipt.
* `committed_of_drained`: a broker that has stored every commit stands there.
* `exists_drained`: an engine that is left alone brings every issued commit to an end.
* `assignment_completes`: all of this of every run.
-/

namespace OffsetCommit

namespace Chronicle

/-- The commit point of an assignment is the offset of its last receipt, or still the one that
seeded it when there is none. -/
theorem Legal.getLast?_receipts {p : Partition} {marks : List Mark} (h : Legal p marks)
    {first : Offset} {since : List Mark} (hends : EndsIn marks first since) {a : Assignment}
    (ha : current? marks = some a) (hlast : ∀ x ∈ a.notifications, x.offset ≠ .last) :
    (since.filterMap Mark.receipt?).getLast?.map (fun r => r.advance.offset) =
      if a.resolved.commitPoint = first then none else some a.resolved.commitPoint :=
  (h.tiles hends ha hlast).getLast?_eq

end Chronicle

namespace PipelineAction

/-- The notification about a record of `p`, if the action is one; `none` otherwise. -/
def notification? (p : Partition) : PipelineAction → Option Notification
  | .resolve r outcome => if r.partition = p then some ⟨r.offset, outcome⟩ else none
  | _ => none

/-- Whether the action gives `p` up: `.revoke p` or `.revokeAll`. -/
def givesUp (p : Partition) : PipelineAction → Bool
  | .revoke q => q = p
  | .revokeAll => true
  | _ => false

end PipelineAction

namespace Pipeline

open Chronicle

/-- A chronicle along two runs is that along the first and then that along the second. -/
theorem chronicle_append (pl : Pipeline) (p : Partition) (first second : List PipelineAction) :
    pl.chronicle p (first ++ second) =
      pl.chronicle p first ++ (pl.run first).chronicle p second := by
  induction first generalizing pl with
  | nil => rfl
  | cons a rest ih => rw [List.cons_append, chronicle, chronicle, ih, List.append_assoc, run_cons]

/-- A chronicle along one more action has its marks appended. -/
theorem chronicle_concat (pl : Pipeline) (p : Partition) (actions : List PipelineAction)
    (a : PipelineAction) :
    pl.chronicle p (actions ++ [a]) = pl.chronicle p actions ++ (pl.run actions).marks p a := by
  rw [chronicle_append, chronicle, chronicle, List.append_nil]

/-- A tracked partition that is not given up stays tracked, and an action adds to its chronicle no
boundary and just the notification about it. -/
theorem marks_of_tracked {pl : Pipeline} {p : Partition} {t : Tracker}
    (ht : pl.coordinator.trackers[p]? = some t) {a : PipelineAction} (ha : a.givesUp p = false) :
    (∃ t', (pl.act a).coordinator.trackers[p]? = some t') ∧
      (∀ m ∈ pl.marks p a, m.isBoundary = false) ∧
      (pl.marks p a).filterMap Mark.notification? = (a.notification? p).toList := by
  cases a with
  | receive r =>
      have hmarks : pl.marks p (.receive r) = [] := by simp [marks, ht]
      rw [hmarks]
      refine ⟨?_, by simp, rfl⟩
      show ∃ t', (pl.coordinator.receive r).1.trackers[p]? = some t'
      rcases hr : pl.coordinator.trackers[r.partition]? with _ | t'
      · rw [Coordinator.receive_of_untracked hr]
        split
        · exact ⟨_, rfl⟩
        · exact ⟨t, ht⟩
      · rw [Coordinator.receive_of_tracked hr]
        exact ⟨t, ht⟩
  | resolve r outcome =>
      by_cases hp : r.partition = p
      · subst hp
        have hnotification : PipelineAction.notification? r.partition (.resolve r outcome) =
            some ⟨r.offset, outcome⟩ := if_pos rfl
        rw [hnotification]
        rcases hnotify : (t.notify ⟨r.offset, outcome⟩).1 with _ | advance
        · obtain ⟨hanswer, -, htrackers⟩ := resolve_of_incomplete ht hnotify
          refine ⟨⟨_, (htrackers r.partition).trans (if_pos rfl)⟩, ?_, ?_⟩
          · simp [marks, hanswer, Mark.isBoundary]
          · simp [marks, hanswer, Mark.notification?]
        · obtain ⟨hanswer, -, htrackers⟩ := resolve_of_complete ht hnotify
          refine ⟨⟨_, (htrackers r.partition).trans (if_pos rfl)⟩, ?_, ?_⟩
          · simp [marks, hanswer, Mark.isBoundary]
          · simp [marks, hanswer, Mark.notification?]
      · refine ⟨⟨t, (getElem?_resolve_of_ne hp outcome).trans ht⟩, ?_, ?_⟩
        · simp [marks, hp]
        · simp [marks, PipelineAction.notification?, hp]
  | revoke q =>
      have hq : q ≠ p := of_decide_eq_false ha
      refine ⟨⟨t, ?_⟩, ?_, ?_⟩
      · exact (pl.getElem?_revoke q p).trans ((if_neg hq).trans ht)
      · simp [marks, hq]
      · simp [marks, PipelineAction.notification?, hq]
  | revokeAll => cases ha
  | engine a => exact ⟨⟨t, ht⟩, by simp [marks], rfl⟩

/-- The same along a run: `marks_of_tracked` for each action. -/
theorem chronicle_of_tracked {pl : Pipeline} {p : Partition} {t : Tracker}
    (ht : pl.coordinator.trackers[p]? = some t) {actions : List PipelineAction}
    (hactions : ∀ a ∈ actions, a.givesUp p = false) :
    (∀ m ∈ pl.chronicle p actions, m.isBoundary = false) ∧
      (pl.chronicle p actions).filterMap Mark.notification? =
        actions.filterMap (PipelineAction.notification? p) := by
  induction actions generalizing pl t with
  | nil => exact ⟨by simp [chronicle], rfl⟩
  | cons a rest ih =>
      obtain ⟨ha, hrest⟩ := List.forall_mem_cons.mp hactions
      obtain ⟨⟨t', ht'⟩, hboundary, hnotified⟩ := marks_of_tracked ht ha
      obtain ⟨hboundaries, hnotifications⟩ := ih ht' hrest
      refine ⟨fun m hm => ?_, ?_⟩
      · rcases List.mem_append.mp hm with hm | hm
        · exact hboundary m hm
        · exact hboundaries m hm
      · rw [chronicle, List.filterMap_append, hnotified, hnotifications, List.filterMap_cons]
        rcases a.notification? p with _ | n <;> rfl

/-- A pipeline whose engine has come to rest has no commit on its way: `pending p = []`. -/
theorem pending_of_isAtRest {config : Config} {setup : Setup} {broker : Broker} {pl : Pipeline}
    (hstart : start config setup broker = .ok pl) {actions : List PipelineAction}
    (hrest : (pl.run actions).engine.IsAtRest) (p : Partition) :
    (pl.run actions).engine.pending p = [] := by
  have hsound := Engine.sound_start setup broker
  have hclosing := Engine.closing_start setup broker
  apply hrest.pending_eq_nil
  · rw [engine_run, engine_start hstart]
    exact hsound.run _
  · rw [engine_run, engine_start hstart]
    exact hclosing.run hsound _

/-- **No partition stalls**: whatever has happened to a pipeline, an engine that is then left alone
brings every issued commit to an end. -/
theorem exists_drained {config : Config} {setup : Setup} {broker : Broker} {pl : Pipeline}
    (hstart : start config setup broker = .ok pl) (actions : List PipelineAction) :
    ∃ alone : List EngineAction, (∀ a ∈ alone, a.isInternal = true) ∧
      ∀ p, (pl.run (actions ++ alone.map .engine)).engine.pending p = [] := by
  obtain ⟨alone, hinternal, hrest⟩ := (pl.run actions).engine.exists_isAtRest
  refine ⟨alone, hinternal, fun p => pending_of_isAtRest hstart ?_ p⟩
  rw [run_append, run_map_engine]
  exact hrest

/-- When no commit of a partition is on its way any more, each that did not fail is stored. -/
theorem isStored_of_drained {pl : Pipeline} (hl : pl.engine.Ledger) {p : Partition}
    (hdrained : pl.engine.pending p = []) {receipt : Receipt}
    (hmem : receipt.ticket ∈ pl.engine.issued p)
    (hsuccess : ∀ s, pl.engine.status? receipt.ticket = some s → s.isCommitted = true) :
    pl.isStored receipt = true := by
  obtain ⟨ticket, hticket, hp⟩ := Engine.mem_issued_iff.mp hmem
  rcases hstatus : ticket.status with _ | s
  · -- without a status the commit would still be on its way
    obtain ⟨r, hr, -⟩ := hl.pending _ ticket hticket hstatus
    rw [hp, hdrained] at hr
    cases hr
  · have hs := (Engine.status?_of_getElem? hticket).trans hstatus
    have hcommitted := hsuccess s hs
    rw [isStored, Engine.stored?, hs]
    cases s with
    | committed offset count => rfl
    | failed offset reason => cases hcommitted
    | abandoned offset => cases hcommitted

/-- If no receipt before a seeding is stored and every one after it is, the committed offset is that
of the last receipt after it. -/
theorem Booked.committed_eq {pl : Pipeline} {p : Partition} {earlier since : List Mark}
    {first : Offset} (h : pl.Booked p (earlier ++ .seeded first :: since))
    (hl : pl.engine.Ledger)
    (hearlier : ∀ receipt ∈ earlier.filterMap Mark.receipt?, pl.isStored receipt = false)
    (hsince : ∀ receipt ∈ since.filterMap Mark.receipt?, pl.isStored receipt = true) :
    pl.engine.broker.committed p =
      (since.filterMap Mark.receipt?).getLast?.map fun r => r.advance.offset := by
  have hreceipts : (earlier ++ .seeded first :: since).filterMap Mark.receipt? =
      earlier.filterMap Mark.receipt? ++ since.filterMap Mark.receipt? := by
    rw [List.filterMap_append]
    rfl
  have hnone : (earlier.filterMap Mark.receipt?).filter pl.isStored = [] := by
    rw [List.filter_eq_nil_iff]
    intro receipt hreceipt
    rw [hearlier receipt hreceipt]
    exact Bool.false_ne_true
  rw [h.recorded.committed, h.history_eq hl, hreceipts, List.filter_append, hnone,
    List.nil_append, List.filter_eq_self.mpr hsince, List.getLast?_map]

/-- A record that seeds `record.partition`, and actions of which none gives it up, extend its chronicle
by the seeding and by marks without a boundary, whose notifications are those of the actions. -/
theorem exists_chronicle_of_seeded {pl : Pipeline} {before after : List PipelineAction}
    {record : Record}
    (huntracked : (pl.run before).coordinator.trackers[record.partition]? = none)
    (hkept : ∀ a ∈ after, a.givesUp record.partition = false) :
    ∃ since, pl.chronicle record.partition (before ++ .receive record :: after) =
        pl.chronicle record.partition before ++ .seeded record.offset :: since ∧
      (∀ m ∈ since, m.isBoundary = false) ∧
      since.filterMap Mark.notification? =
        after.filterMap (PipelineAction.notification? record.partition) := by
  have hseed : ((pl.run before).act (.receive record)).coordinator.trackers[record.partition]? =
      some _ :=
    (Coordinator.receive_of_untracked huntracked record.partition).trans (if_pos rfl)
  obtain ⟨hwithin, hnotifications⟩ := chronicle_of_tracked hseed hkept
  refine ⟨_, ?_, hwithin, hnotifications⟩
  rw [chronicle_append, chronicle]
  simp [marks, huntracked]

/-- Let the chronicle of `p` after a run be the one at a time before, a seeding, and the marks `since`.
If none of the earlier commits is stored and the ones issued since have all ended, none of them without
success, then the broker stands at the offset of the last receipt in `since`. -/
theorem committed_of_drained {config : Config} {setup : Setup} {seed : UInt64} {faults : Faults}
    {pl : Pipeline} (hstart : start config setup (.start seed faults) = .ok pl)
    {before rest : List PipelineAction} {p : Partition} {first : Offset} {since : List Mark}
    (hchronicle : pl.chronicle p (before ++ rest) = pl.chronicle p before ++ .seeded first :: since)
    (hactions : ∀ a ∈ before ++ rest, a.bypasses p = false)
    (hfresh : ∀ k ∈ (pl.run before).engine.issued p,
      (pl.run (before ++ rest)).engine.stored? k = none)
    (hdrained : (pl.run (before ++ rest)).engine.pending p = [])
    (hsuccesses : ∀ k ∈ (pl.run (before ++ rest)).engine.issued p,
      k ∉ (pl.run before).engine.issued p →
        ∀ s, (pl.run (before ++ rest)).engine.status? k = some s → s.isCommitted = true) :
    (pl.run (before ++ rest)).engine.broker.committed p =
      (since.filterMap Mark.receipt?).getLast?.map fun r => r.advance.offset := by
  have hledger : (pl.run (before ++ rest)).engine.Ledger := ledger_run hstart _
  have hbooked := booked_run hstart hactions
  have hbefore := booked_run hstart fun a ha => hactions a (List.mem_append_left _ ha)
  rw [hchronicle] at hbooked
  have hissued := hbooked.issued
  rw [List.filterMap_append, List.map_append, ← hbefore.issued] at hissued
  refine hbooked.committed_eq hledger (fun receipt hreceipt => ?_) fun receipt hreceipt => ?_
  · have hmem : receipt.ticket ∈ (pl.run before).engine.issued p := by
      rw [hbefore.issued]
      exact List.mem_map_of_mem hreceipt
    rw [isStored, hfresh _ hmem]
    rfl
  · have hmem : receipt.ticket ∈ (pl.run (before ++ rest)).engine.issued p := by
      rw [hissued]
      exact List.mem_append_right _ (List.mem_map_of_mem hreceipt)
    have hnew : receipt.ticket ∉ (pl.run before).engine.issued p := by
      intro hold
      have hnodup := ((pl.run (before ++ rest)).engine.pairwise_issued p).imp Nat.ne_of_lt
      rw [hissued] at hnodup
      exact (List.pairwise_append.mp hnodup).2.2 _ hold _ (List.mem_map_of_mem hreceipt) rfl
    exact isStored_of_drained hledger hdrained hmem (hsuccesses _ hmem hnew)

/-- **No record is lost.** Let `record` seed a partition `p` that is not tracked, and let each of
the `count` records from there on be `NotifiedOnce` and `p` not be given up, whatever else happens.
Then `commitPoint + committableRun = record.offset + count`, and the last success that found no gap
decides the commit point (`ResolvedSet.Follows`). If besides no action `bypasses p`, no commit from
before the seeding goes through, and those issued since have ended without a failure, then
`broker.committed p` is the commit point, or `none` if that is `record.offset`. -/
theorem assignment_completes {config : Config} {setup : Setup} {seed : UInt64} {faults : Faults}
    {pl : Pipeline} (hstart : start config setup (.start seed faults) = .ok pl)
    {before after : List PipelineAction} {record : Record} {count : Nat}
    (huntracked : (pl.run before).coordinator.snapshot? record.partition = none)
    (hkept : ∀ a ∈ after, a.givesUp record.partition = false)
    (hfit : record.offset.toNat + count ≤ Offset.last.toNat)
    (honce : NotifiedOnce record.offset count
      (after.filterMap (PipelineAction.notification? record.partition))) :
    let p := record.partition
    let ns := after.filterMap (PipelineAction.notification? p)
    let final := pl.run (before ++ .receive record :: after)
    ∃ snapshot, final.coordinator.snapshot? p = some snapshot ∧
      snapshot.commitPoint.toNat + snapshot.committableRun = record.offset.toNat + count ∧
      ResolvedSet.Follows record.offset ns snapshot.commitPoint ∧
      (∀ n, ns.getLast? = some n → n.outcome.attemptsCommit = true →
        snapshot.commitPoint.toNat = record.offset.toNat + count) ∧
      ((∀ a ∈ before ++ .receive record :: after, a.bypasses p = false) →
        (∀ k ∈ (pl.run before).engine.issued p, final.engine.stored? k = none) →
        final.engine.pending p = [] →
        (∀ k ∈ final.engine.issued p, k ∉ (pl.run before).engine.issued p →
          ∀ s, final.engine.status? k = some s → s.isCommitted = true) →
        final.engine.broker.committed p =
          if snapshot.commitPoint = record.offset then none else some snapshot.commitPoint) := by
  intro p ns final
  have hnone : (pl.run before).coordinator.trackers[p]? = none := by
    rwa [Coordinator.snapshot?, Option.map_eq_none_iff] at huntracked
  obtain ⟨since, hchronicle, hwithin, hnotifications⟩ := exists_chronicle_of_seeded hnone hkept
  -- the tracker holds the notifications since the seeding
  have htells := tells_run hstart (before ++ .receive record :: after) p
  rw [hchronicle] at htells
  have hends : EndsIn (pl.chronicle p before ++ .seeded record.offset :: since) record.offset
      since := ⟨⟨_, rfl⟩, hwithin⟩
  have hcurrent := hends.current?_eq
  rw [hnotifications] at hcurrent
  obtain ⟨t, ht, hrepresents⟩ := htells.tracked _ hcurrent
  have hlast := honce.ne_last hfit
  refine ⟨t.snapshot, ?_, ?_, ?_, fun n hn hsuccess => ?_, ?_⟩
  · rw [Coordinator.snapshot?, ht]
    rfl
  · rw [hrepresents.committableRun_eq]
    show t.commitPoint.toNat + _ = _
    rw [hrepresents.commitPoint_eq]
    exact ResolvedSet.commitPoint_add_committableRun hfit honce
  · show ResolvedSet.Follows record.offset ns t.commitPoint
    rw [hrepresents.commitPoint_eq]
    exact ResolvedSet.follows_replay honce.nodup honce.first_le hlast
  · show t.commitPoint.toNat = _
    rw [hrepresents.commitPoint_eq]
    exact ResolvedSet.commitPoint_of_success hfit honce hn hsuccess
  · intro hactions hfresh hdrained hsuccesses
    rw [committed_of_drained hstart hchronicle hactions hfresh hdrained hsuccesses]
    show _ = if t.commitPoint = record.offset then none else some t.commitPoint
    rw [hrepresents.commitPoint_eq]
    exact htells.legal.getLast?_receipts hends hcurrent hlast

/-- Three records are notified out of order while another partition is at work. The success in the
middle finds no gap and commits two of them; the third fails for good and waits. -/
theorem assignment_completes_out_of_order :
    let p : Partition := ⟨"orders", 0⟩
    let other : Partition := ⟨"orders", 1⟩
    let before : List PipelineAction :=
      [.receive ⟨other, .clamp 0, []⟩, .resolve ⟨other, .clamp 0, []⟩ .delivered]
    let after : List PipelineAction :=
      [.resolve ⟨p, .clamp 6, []⟩ .discarded, .engine (.move .take),
        .resolve ⟨other, .clamp 1, []⟩ .delivered, .resolve ⟨p, .clamp 5, []⟩ .delivered,
        .revoke other, .engine (.move .take), .engine (.move .take), .engine (.move .take),
        .engine (.move (.work 1)), .resolve ⟨p, .clamp 7, []⟩ (.deadLetterFailed "full"),
        .engine (.move (.work 1))]
    let ns := after.filterMap (PipelineAction.notification? p)
    ∃ pl, start .testing ⟨[], none⟩ (.start 7 .quiet) = .ok pl ∧
      (pl.run before).coordinator.snapshot? p = none ∧
      (∀ a ∈ after, a.givesUp p = false) ∧ 5 + 3 ≤ Offset.last.toNat ∧
      NotifiedOnce (.clamp 5) 3 ns ∧
      ∃ snapshot,
        (pl.run (before ++ .receive ⟨p, .clamp 5, []⟩ :: after)).coordinator.snapshot? p =
          some snapshot ∧
        snapshot.commitPoint.toNat + snapshot.committableRun = 8 ∧
        (pl.run (before ++ .receive ⟨p, .clamp 5, []⟩ :: after)).engine.broker.committed p =
          some snapshot.commitPoint := by
  intro p other before after ns
  have hstart : start .testing ⟨[], none⟩ (.start 7 .quiet) =
      .ok ⟨⟨.testing, ∅⟩, .start ⟨[], none⟩ (.start 7 .quiet), #[]⟩ := rfl
  generalize hpl : (⟨⟨.testing, ∅⟩, .start ⟨[], none⟩ (.start 7 .quiet), #[]⟩ : Pipeline) = pl
    at hstart
  have huntracked : (pl.run before).coordinator.snapshot? p = none := by
    subst hpl
    decide +kernel
  have hkept : ∀ a ∈ after, a.givesUp p = false := by decide
  have honce : NotifiedOnce (.clamp 5) 3 ns := by decide
  refine ⟨pl, hstart, huntracked, hkept, by decide, honce, ?_⟩
  obtain ⟨snapshot, hsnapshot, hsum, -, -, hcommitted⟩ :=
    @assignment_completes _ _ _ _ pl hstart before after ⟨p, .clamp 5, []⟩ 3 huntracked hkept
      (by decide) honce
  have hseen : (pl.run (before ++ .receive ⟨p, .clamp 5, []⟩ :: after)).coordinator.snapshot? p =
      some ⟨.clamp 7, some (.clamp 7), 1, true⟩ := by
    subst hpl
    decide +kernel
  have hpoint : snapshot.commitPoint = .clamp 7 :=
    congrArg Snapshot.commitPoint (Option.some.inj (hsnapshot.symm.trans hseen))
  refine ⟨snapshot, hsnapshot, hsum, ?_⟩
  rw [hcommitted (by decide) ?_ ?_ ?_, hpoint]
  · decide
  · subst hpl
    decide +kernel
  · subst hpl
    decide +kernel
  · have hissued : (pl.run (before ++ .receive ⟨p, .clamp 5, []⟩ :: after)).engine.issued p = [2] := by
      subst hpl
      decide +kernel
    have hstatus : (pl.run (before ++ .receive ⟨p, .clamp 5, []⟩ :: after)).engine.status? 2 =
        some (.committed (.clamp 7) 2) := by
      subst hpl
      decide +kernel
    intro k hk _ s hs
    rw [hissued, List.mem_singleton] at hk
    rw [hk, hstatus] at hs
    obtain rfl := Option.some.inj hs
    rfl

end Pipeline

end OffsetCommit
