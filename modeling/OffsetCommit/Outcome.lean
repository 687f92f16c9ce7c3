/-!
# Outcomes

The end of a record's way through dispatch. Every outcome resolves the record's offset, which
says that a commit may pass over it. Only the two successes also try to take out a commit:
after the other two the offset waits until a later success folds it into a run.
-/

namespace OffsetCommit

/-- How the dispatch of one record ended. -/
inductive Outcome where
  /-- The subscriber accepted the record. -/
  | delivered
  /-- The dead-letter sink accepted the record. -/
  | deadLettered
  /-- The dead-letter sink rejected the record or was out of reach. -/
  | deadLetterFailed (cause : String)
  /-- The record did not pass the filter. -/
  | discarded
deriving DecidableEq, Inhabited

namespace Outcome

/-- Successes try to take out a commit; the other outcomes only resolve the offset. -/
def attemptsCommit : Outcome → Bool
  | delivered => true
  | deadLettered => true
  | deadLetterFailed _ => false
  | discarded => false

/-- The outcome's name in log lines. -/
def label : Outcome → String
  | delivered => "delivered"
  | deadLettered => "dead_lettered"
  | deadLetterFailed _ => "dead_letter_failed"
  | discarded => "discarded"

end Outcome

end OffsetCommit
