import Mathlib.Order.Interval.Finset.Nat
import OffsetCommit.Proofs.Tracker.Replay

/-!
# Offsets are folded once

A tracker whose commit point is never set from outside marks an offset once, folds it into one run,
and calls it stale from then on. This holds for every offset but the last of a log. No commit point
lies behind that one: the run that reaches it leaves the commit point standing on it, and it can be
marked and folded again. Each time counts, so the counts of the runs exceed the number of the
offsets by as many as the last offset was folded in vain.

* `Tracker.Represents.events_eq`: the argument goes by the plain set.
* `Accounts.act`, `Accounts.run`: what was folded lies below the commit point, and what was marked
  lies below it or is resolved (`Accounts`).
* `folds_once_below_last`, `last_is_folded_twice`: what this says of trackers.
-/

namespace OffsetCommit

/-! ### What a tracker tells -/

/-- What a tracker tells of an action. -/
inductive TrackerEvent where
  /-- How an offset was taken. -/
  | resolved (offset : Offset) (answer : Resolution)
  /-- A run was taken out that began at the commit point of the time. -/
  | folded (start : Offset) (advance : Advance)
deriving DecidableEq

namespace TrackerEvent

/-- The offsets that were folded: as many as the run counts, from its beginning on. -/
def covered : TrackerEvent → Finset Offset
  | resolved .. => ∅
  | folded start advance => (Finset.range advance.count).image start.advance

/-- The number of offsets that the run counts. -/
def count : TrackerEvent → Nat
  | resolved .. => 0
  | folded _ advance => advance.count

end TrackerEvent

/-- What a tracker tells of an action; of a run that is not complete there is nothing to tell. -/
def Tracker.event? (t : Tracker) : TrackerAction → Option TrackerEvent
  | .resolve o => some (.resolved o (t.resolve o).1)
  | .takeRun => t.takeRun.1.map (.folded t.commitPoint)
  | .rebase _ => none

/-- What a tracker tells of several actions, one after the other. -/
def Tracker.events (t : Tracker) : List TrackerAction → List TrackerEvent
  | [] => []
  | action :: rest => (t.event? action).toList ++ (t.act action).events rest

namespace ResolvedSet

/-- What the set tells of an action, as `Tracker.event?` does for a tracker. -/
def event? (s : ResolvedSet) : TrackerAction → Option TrackerEvent
  | .resolve o => some (.resolved o (s.resolve o).1)
  | .takeRun => s.takeRun.1.map (.folded s.commitPoint)
  | .rebase _ => none

/-- What the set tells of several actions, `event?` of one after the other. -/
def events (s : ResolvedSet) : List TrackerAction → List TrackerEvent
  | [] => []
  | action :: rest => (s.event? action).toList ++ (s.act action).events rest

end ResolvedSet

/-- A tracker tells what the set tells that it represents: `t.events actions = s.events actions`. -/
theorem Tracker.Represents.events_eq {t : Tracker} {s : ResolvedSet} (h : t.Represents s)
    (actions : List TrackerAction) : t.events actions = s.events actions := by
  induction actions generalizing t s with
  | nil => rfl
  | cons action rest ih =>
      have hevent : t.event? action = s.event? action := by
        cases action with
        | resolve o => rw [event?, ResolvedSet.event?, (h.resolve o).1]
        | takeRun => rw [event?, ResolvedSet.event?, h.takeRun.1, h.commitPoint_eq]
        | rebase o => rfl
      rw [events, ResolvedSet.events, hevent, ih (h.act action)]

/-! ### Counting -/

/-- The offsets that were folded into any of the runs among the events. -/
def coveredBy (events : List TrackerEvent) : Finset Offset :=
  events.foldr (fun event offsets => event.covered ∪ offsets) ∅

/-- The sum of what the runs among the events count. -/
def countedBy (events : List TrackerEvent) : Nat :=
  events.foldr (fun event total => event.count + total) 0

/-- The number of events `.resolved o .marked`. -/
def markings (events : List TrackerEvent) (o : Offset) : Nat :=
  events.count (.resolved o .marked)

/-- The number of events whose run covers `o`. -/
def foldings (events : List TrackerEvent) (o : Offset) : Nat :=
  events.countP fun event => o ∈ event.covered

/-- Whether an offset that an event covers is answered as stale by every later one. -/
def IsStaleAfter (o : Offset) (earlier later : TrackerEvent) : Prop :=
  o ∈ earlier.covered → ∀ answer, later = .resolved o answer → answer = .stale

/-- What it means that offsets are folded once: none is marked twice, one that a run covers is
stale from then on, and the runs count as many offsets as they cover. -/
structure FoldsOnce (events : List TrackerEvent) : Prop where
  /-- No offset is answered twice as newly marked. -/
  marked : ∀ o, markings events o ≤ 1
  /-- An offset that was folded is stale. -/
  stale : ∀ o, events.Pairwise (IsStaleAfter o)
  /-- The counts of the runs sum to the number of the offsets that they cover. -/
  counted : countedBy events = (coveredBy events).card

/-- The sum `countedBy` grows by the count of one more event. -/
theorem countedBy_concat (events : List TrackerEvent) (event : TrackerEvent) :
    countedBy (events ++ [event]) = countedBy events + event.count := by
  induction events with
  | nil => exact Nat.add_comm _ _
  | cons first rest ih =>
      rw [List.cons_append, countedBy, List.foldr_cons, ← countedBy, ih, ← Nat.add_assoc]
      rfl

/-- The set `coveredBy` grows by what one more event covers. -/
theorem coveredBy_concat (events : List TrackerEvent) (event : TrackerEvent) :
    coveredBy (events ++ [event]) = coveredBy events ∪ event.covered := by
  induction events with
  | nil => exact Finset.union_comm _ _
  | cons first rest ih =>
      rw [List.cons_append, coveredBy, List.foldr_cons, ← coveredBy, ih, ← Finset.union_assoc]
      rfl

/-- An offset is covered when some event covers it. -/
theorem mem_coveredBy_iff {events : List TrackerEvent} {o : Offset} :
    o ∈ coveredBy events ↔ ∃ event ∈ events, o ∈ event.covered := by
  induction events with
  | nil => simp [coveredBy]
  | cons first rest ih =>
      rw [coveredBy, List.foldr_cons, Finset.mem_union, ← coveredBy, ih, List.exists_mem_cons_iff]

/-- An offset is covered when some run has folded it. -/
theorem mem_coveredBy_iff_foldings {events : List TrackerEvent} {o : Offset} :
    o ∈ coveredBy events ↔ 0 < foldings events o := by
  rw [mem_coveredBy_iff, foldings, List.countP_pos_iff]
  simp only [decide_eq_true_eq]

/-- A complete run covers the offsets up to the highest resolved one. -/
theorem covered_folded {start high : Offset} (h : start ≤ high) (next : Offset) :
    (TrackerEvent.folded start ⟨next, high.toNat - start.toNat + 1⟩).covered =
      Finset.Icc start high := by
  have hle := Offset.le_def.mp h
  have hlast := high.toNat_lt
  ext o
  simp only [TrackerEvent.covered, Finset.mem_image, Finset.mem_range, Finset.mem_Icc]
  constructor
  · rintro ⟨i, hi, rfl⟩
    have hi' : start.toNat + i < 0x10000000000000000 := by omega
    simp only [Offset.le_def, Offset.toNat_advance_of_lt hi']
    omega
  · rintro ⟨hstart, hhigh⟩
    rw [Offset.le_def] at hstart hhigh
    refine ⟨o.toNat - start.toNat, by omega, ?_⟩
    ext
    rw [Offset.toNat_advance_of_lt (by omega)]
    omega

/-- A complete run counts the offsets that it covers. -/
theorem card_Icc_offset {start high : Offset} (h : start ≤ high) :
    (Finset.Icc start high).card = high.toNat - start.toNat + 1 := by
  have hle := Offset.le_def.mp h
  have hlast := high.toNat_lt
  rw [← covered_folded h .last, TrackerEvent.covered, Finset.card_image_of_injOn,
    Finset.card_range]
  intro i hi j hj heq
  simp only [Finset.coe_range, Set.mem_Iio] at hi hj
  have hnat := congrArg Offset.toNat heq
  rw [Offset.toNat_advance_of_lt (by omega), Offset.toNat_advance_of_lt (by omega)] at hnat
  omega

/-! ### What one action adds -/

namespace ResolvedSet

/-- The invariant between a set and the events `past` that it has told, apart from the last offset
of the log: what was folded is below the commit point, and what was marked is covered.
`Accounts.run` keeps it. -/
structure Accounts (s : ResolvedSet) (past : List TrackerEvent) : Prop where
  /-- What was folded lies below the commit point. -/
  folded : ∀ o ∈ coveredBy past, o < s.commitPoint ∨ o = .last
  /-- What was marked is accounted for. -/
  marked : ∀ o, .resolved o .marked ∈ past → s.Covers o ∨ o = .last
  /-- No offset was marked twice. -/
  once : ∀ o, o ≠ .last → markings past o ≤ 1
  /-- An offset that was folded is stale. -/
  stale : ∀ o, o ≠ .last → past.Pairwise (IsStaleAfter o)
  /-- The runs count what they cover, and each further folding of the last offset. -/
  counted : countedBy past = (coveredBy past).card + (foldings past .last - 1)

/-- At the start nothing was folded or marked. -/
theorem accounts_start (first : Offset) : (start first).Accounts [] where
  folded o ho := by cases ho
  marked o ho := by cases ho
  once o _ := Nat.zero_le 1
  stale o _ := .nil
  counted := rfl

/-- Telling how an offset was taken preserves `Accounts`. -/
theorem Accounts.resolve {s : ResolvedSet} {past : List TrackerEvent} (h : s.Accounts past)
    (o : Offset) : (s.resolve o).2.Accounts (past ++ [.resolved o (s.resolve o).1]) := by
  obtain ⟨hstale, hmarked⟩ := s.resolve_fst o
  have hcovered : coveredBy (past ++ [.resolved o (s.resolve o).1]) = coveredBy past := by
    rw [coveredBy_concat]
    exact Finset.union_empty _
  refine ⟨fun q hq => ?_, fun q hq => ?_, fun q hlast => ?_, fun q hlast => ?_, ?_⟩
  · rw [hcovered] at hq
    rw [commitPoint_resolve]
    exact h.folded q hq
  · rw [covers_resolve]
    rcases List.mem_append.mp hq with hq | hq
    · exact (h.marked q hq).imp_left .inl
    · obtain ⟨rfl, -⟩ := TrackerEvent.resolved.inj (List.mem_singleton.mp hq)
      exact .inl (.inr rfl)
  · -- an offset that is newly marked was not accounted for before
    rw [markings, List.count_append, ← markings, List.count_singleton]
    split
    · next heq =>
        obtain ⟨rfl, hanswer⟩ := TrackerEvent.resolved.inj (eq_of_beq heq)
        have hnew : markings past o = 0 := by
          rw [markings, List.count_eq_zero]
          intro hbefore
          rcases h.marked o hbefore with hcovers | heq
          · exact hmarked hanswer hcovers
          · exact hlast heq
        rw [hnew]
    · exact h.once q hlast
  · rw [List.pairwise_append]
    refine ⟨h.stale q hlast, List.pairwise_singleton _ _, fun earlier hearlier later hlater => ?_⟩
    intro hq answer hanswer
    rw [List.mem_singleton.mp hlater] at hanswer
    obtain ⟨rfl, rfl⟩ := TrackerEvent.resolved.inj hanswer
    rcases h.folded o (mem_coveredBy_iff.mpr ⟨earlier, hearlier, hq⟩) with hlt | heq
    · exact hstale hlt
    · exact absurd heq hlast
  · rw [hcovered, countedBy_concat, h.counted, foldings, foldings, List.countP_append]
    rfl

/-- Only `.last` can lie in a run and in one before it. -/
theorem Accounts.card_fold {s : ResolvedSet} {past : List TrackerEvent} (h : s.Accounts past)
    {high : Offset} (hle : s.commitPoint ≤ high) :
    (coveredBy past ∪ Finset.Icc s.commitPoint high).card +
        (if .last ∈ coveredBy past ∧ high = .last then 1 else 0) =
      (coveredBy past).card + (high.toNat - s.commitPoint.toNat + 1) := by
  have hinter : coveredBy past ∩ Finset.Icc s.commitPoint high =
      if .last ∈ coveredBy past ∧ high = .last then {.last} else ∅ := by
    split
    · next hlast =>
        obtain ⟨hmem, rfl⟩ := hlast
        refine Finset.Subset.antisymm (fun o ho => ?_) (fun o ho => ?_)
        · obtain ⟨ho, hrange⟩ := Finset.mem_inter.mp ho
          rcases h.folded o ho with hlt | rfl
          · exact absurd (Finset.mem_Icc.mp hrange).1 (not_le.mpr hlt)
          · exact Finset.mem_singleton_self _
        · rw [Finset.mem_singleton.mp ho]
          exact Finset.mem_inter.mpr ⟨hmem, Finset.mem_Icc.mpr ⟨hle, le_rfl⟩⟩
    · next hlast =>
        rw [Finset.eq_empty_iff_forall_notMem]
        intro o ho
        obtain ⟨ho, hrange⟩ := Finset.mem_inter.mp ho
        obtain ⟨hstart, hhigh⟩ := Finset.mem_Icc.mp hrange
        rcases h.folded o ho with hlt | rfl
        · exact absurd hstart (not_le.mpr hlt)
        · exact hlast ⟨ho, le_antisymm (Offset.le_last high) hhigh⟩
  rw [← card_Icc_offset hle, ← Finset.card_union_add_card_inter, hinter]
  split <;> rfl

/-- What a run adds to the counts it also covers, up to a further folding of `.last`. -/
theorem Accounts.counted_fold {s : ResolvedSet} {past : List TrackerEvent} (h : s.Accounts past)
    {high : Offset} (hle : s.commitPoint ≤ high) {event : TrackerEvent}
    (hcovered : event.covered = Finset.Icc s.commitPoint high)
    (hcount : event.count = high.toNat - s.commitPoint.toNat + 1) :
    countedBy (past ++ [event]) =
      (coveredBy (past ++ [event])).card + (foldings (past ++ [event]) .last - 1) := by
  have hlast : .last ∈ event.covered ↔ high = .last := by
    rw [hcovered, Finset.mem_Icc]
    exact ⟨fun hin => le_antisymm (Offset.le_last high) hin.2,
      fun heq => ⟨Offset.le_last _, heq.ge⟩⟩
  have hfoldings : foldings (past ++ [event]) .last =
      foldings past .last + if high = .last then 1 else 0 := by
    rw [foldings, List.countP_append, ← foldings, List.countP_singleton]
    simp only [hlast, decide_eq_true_eq]
  have hcard := h.card_fold hle
  have hpos := @mem_coveredBy_iff_foldings past .last
  rw [countedBy_concat, hcount, hfoldings, coveredBy_concat, hcovered, h.counted]
  by_cases hhigh : high = .last
  · by_cases hin : .last ∈ coveredBy past
    · have hfolded := hpos.mp hin
      rw [if_pos ⟨hin, hhigh⟩] at hcard
      rw [if_pos hhigh]
      omega
    · have hnever : foldings past .last = 0 := Nat.eq_zero_of_not_pos (mt hpos.mpr hin)
      rw [if_neg fun hboth => hin hboth.1] at hcard
      rw [if_pos hhigh]
      omega
  · rw [if_neg fun hboth => hhigh hboth.2] at hcard
    rw [if_neg hhigh]
    omega

/-- The commit point passes every offset of a run, unless it is `.last`. -/
theorem lt_advance_or_eq_last {o high : Offset} (h : o ≤ high) : o < high.advance 1 ∨ o = .last := by
  by_cases hlast : o = .last
  · exact .inr hlast
  · have hlt := Offset.lt_def.mp (Offset.lt_last_of_ne hlast)
    have hnat := Offset.le_def.mp h
    rw [Offset.toNat_last] at hlt
    refine .inl ?_
    rw [Offset.lt_def, Offset.toNat_advance]
    omega

/-- Taking a complete run out preserves `Accounts`. -/
theorem Accounts.fold {s : ResolvedSet} {past : List TrackerEvent} (h : s.Accounts past)
    {high : Offset} (hmem : ∀ o, o ∈ s.resolved ↔ s.commitPoint ≤ o ∧ o ≤ high)
    (hle : s.commitPoint ≤ high) :
    (start (high.advance 1)).Accounts (past ++
      [.folded s.commitPoint ⟨high.advance 1, high.toNat - s.commitPoint.toNat + 1⟩]) := by
  set event := TrackerEvent.folded s.commitPoint
    ⟨high.advance 1, high.toNat - s.commitPoint.toNat + 1⟩ with hevent
  have hcovered : event.covered = Finset.Icc s.commitPoint high := covered_folded hle _
  refine ⟨fun o ho => ?_, fun o ho => ?_, fun o hlast => ?_, fun o hlast => ?_,
    h.counted_fold hle hcovered rfl⟩
  · rw [coveredBy_concat, hcovered, Finset.mem_union] at ho
    rcases ho with ho | ho
    · rcases h.folded o ho with hlt | hlast
      · exact lt_advance_or_eq_last (hlt.le.trans hle)
      · exact .inr hlast
    · exact lt_advance_or_eq_last (Finset.mem_Icc.mp ho).2
  · have hbefore : .resolved o .marked ∈ past := by
      rcases List.mem_append.mp ho with ho | ho
      · exact ho
      · rw [List.mem_singleton, hevent] at ho
        cases ho
    rcases h.marked o hbefore with hcovers | hlast
    · have hhigh : o ≤ high := by
        rcases hcovers with hlt | hin
        · exact hlt.le.trans hle
        · exact ((hmem o).mp hin).2
      exact (lt_advance_or_eq_last hhigh).imp_left .inl
    · exact .inr hlast
  · rw [markings, List.count_append, ← markings]
    exact h.once o hlast
  · rw [List.pairwise_append]
    refine ⟨h.stale o hlast, List.pairwise_singleton _ _, fun earlier _ later hlater => ?_⟩
    intro _ answer hanswer
    rw [List.mem_singleton.mp hlater, hevent] at hanswer
    cases hanswer

/-! ### Whole runs -/

/-- Every action but a re-base preserves `Accounts`, with its event appended. -/
theorem Accounts.act {s : ResolvedSet} {past : List TrackerEvent} (h : s.Accounts past)
    {action : TrackerAction} (hkeep : ∀ o, action ≠ .rebase o) :
    (s.act action).Accounts (past ++ (s.event? action).toList) := by
  cases action with
  | resolve o => exact h.resolve o
  | takeRun =>
      rcases s.takeRun_cases with ⟨-, heq⟩ | ⟨high, hmem, hle, heq⟩
      · rw [ResolvedSet.act, event?, heq]
        exact (List.append_nil past).symm ▸ h
      · rw [ResolvedSet.act, event?, heq]
        exact h.fold hmem hle
  | rebase o => exact absurd rfl (hkeep o)

/-- Every run without a `.rebase` preserves `Accounts`. -/
theorem Accounts.run {s : ResolvedSet} {past : List TrackerEvent} (h : s.Accounts past)
    {actions : List TrackerAction} (hkeep : ∀ o, .rebase o ∉ actions) :
    (s.run actions).Accounts (past ++ s.events actions) := by
  induction actions generalizing s past with
  | nil => exact (List.append_nil past).symm ▸ h
  | cons action rest ih =>
      have hfirst : ∀ o, action ≠ .rebase o := fun o heq =>
        hkeep o (heq ▸ List.mem_cons_self)
      have hrest := ih (h.act hfirst) fun o ho => hkeep o (List.mem_cons_of_mem action ho)
      rw [List.append_assoc] at hrest
      exact hrest

/-- An offset that is never resolved is never told of and never folded. -/
theorem not_mem_of_unresolved {s : ResolvedSet} {q : Offset} (hq : q ∉ s.resolved)
    {actions : List TrackerAction} (hactions : .resolve q ∉ actions) :
    ∀ event ∈ s.events actions, q ∉ event.covered ∧ ∀ answer, event ≠ .resolved q answer := by
  induction actions generalizing s with
  | nil =>
      intro event hevent
      cases hevent
  | cons action rest ih =>
      have hrest : .resolve q ∉ rest := fun hin => hactions (List.mem_cons_of_mem action hin)
      have hafter : q ∉ (s.act action).resolved ∧ ∀ event ∈ (s.event? action).toList,
          q ∉ event.covered ∧ ∀ answer, event ≠ .resolved q answer := by
        cases action with
        | resolve o =>
            have hne : q ≠ o := by
              rintro rfl
              exact hactions List.mem_cons_self
            refine ⟨?_, fun event hevent => ?_⟩
            · rw [ResolvedSet.act, ResolvedSet.resolve]
              split
              · exact hq
              · split
                · exact hq
                · rw [Finset.mem_insert, not_or]
                  exact ⟨hne, hq⟩
            · obtain rfl := List.mem_singleton.mp hevent
              refine ⟨Finset.notMem_empty q, fun answer heq => hne ?_⟩
              exact (TrackerEvent.resolved.inj heq).1.symm
        | takeRun =>
            rcases s.takeRun_cases with ⟨-, heq⟩ | ⟨high, hmem, hle, heq⟩
            · rw [ResolvedSet.act, event?, heq]
              refine ⟨hq, fun event hevent => ?_⟩
              cases hevent
            · rw [ResolvedSet.act, event?, heq]
              refine ⟨Finset.notMem_empty q, fun event hevent => ?_⟩
              obtain rfl := List.mem_singleton.mp hevent
              rw [covered_folded hle, Finset.mem_Icc, ← hmem]
              exact ⟨hq, fun answer => TrackerEvent.noConfusion⟩
        | rebase o =>
            refine ⟨Finset.notMem_empty q, fun event hevent => ?_⟩
            cases hevent
      intro event hevent
      rcases List.mem_append.mp hevent with hevent | hevent
      · exact hafter.2 event hevent
      · exact ih hafter.1 hrest event hevent

end ResolvedSet

namespace Tracker

/-- **Offsets are folded once, the last of a log apart.** Without a `.rebase` no offset but `.last`
is marked twice, each `IsStaleAfter` a run has covered it, and what the runs count, `countedBy`, is
the number of offsets that they cover and of every further folding of `.last`. If `.last` is never
resolved, every offset is folded once (`FoldsOnce`). -/
theorem folds_once_below_last (first : Offset) {threshold : Nat} (hthreshold : 0 < threshold)
    {actions : List TrackerAction} (hkeep : ∀ o, .rebase o ∉ actions) :
    ∃ t, Tracker.new? first threshold = .ok t ∧
      (∀ o, o ≠ .last → markings (t.events actions) o ≤ 1) ∧
      (∀ o, o ≠ .last → (t.events actions).Pairwise (IsStaleAfter o)) ∧
      countedBy (t.events actions) =
        (coveredBy (t.events actions)).card + (foldings (t.events actions) .last - 1) ∧
      (.resolve .last ∉ actions → FoldsOnce (t.events actions)) := by
  have hevents := (represents_start first threshold).events_eq actions
  have haccounts := (ResolvedSet.accounts_start first).run hkeep
  rw [List.nil_append, ← hevents] at haccounts
  refine ⟨start first threshold, ?_, haccounts.once, haccounts.stale, haccounts.counted, ?_⟩
  · rw [new?, if_neg (Nat.pos_iff_ne_zero.mp hthreshold)]
  · intro hlast
    have hempty : .last ∉ (ResolvedSet.start first).resolved := Finset.notMem_empty _
    have hnever := ResolvedSet.not_mem_of_unresolved hempty hlast
    rw [← hevents] at hnever
    have hfoldings : foldings ((start first threshold).events actions) .last = 0 := by
      rw [foldings, List.countP_eq_zero]
      intro event hevent hcovered
      exact (hnever event hevent).1 (of_decide_eq_true hcovered)
    refine ⟨fun o => ?_, fun o => ?_, ?_⟩
    · by_cases ho : o = .last
      · subst ho
        have hmarkings : markings ((start first threshold).events actions) .last = 0 := by
          rw [markings, List.count_eq_zero]
          intro hmarked
          exact (hnever _ hmarked).2 .marked rfl
        rw [hmarkings]
        exact Nat.zero_le 1
      · exact haccounts.once o ho
    · by_cases ho : o = .last
      · subst ho
        refine List.pairwise_iff_forall_sublist.mpr fun {earlier later} hsublist hcovered => ?_
        exact absurd hcovered (hnever earlier (hsublist.subset List.mem_cons_self)).1
      · exact haccounts.stale o ho
    · rw [haccounts.counted, hfoldings]
      rfl

/-- The log ends within the second run, and its last offset is folded a second time. -/
theorem folds_once_below_last_at_the_end :
    let first : Offset := .clamp 0xfffffffffffffffd
    let actions : List TrackerAction :=
      [.resolve (.clamp 0xfffffffffffffffe), .takeRun, .resolve first, .takeRun, .resolve first,
        .resolve .last, .takeRun, .resolve .last, .takeRun]
    0 < 1 ∧ (∀ o, .rebase o ∉ actions) ∧ ∃ t, Tracker.new? first 1 = .ok t ∧
      (∀ o, o ≠ .last → markings (t.events actions) o ≤ 1) ∧
      (∀ o, o ≠ .last → (t.events actions).Pairwise (IsStaleAfter o)) ∧
      countedBy (t.events actions) =
        (coveredBy (t.events actions)).card + (foldings (t.events actions) .last - 1) ∧
      (.resolve .last ∉ actions → FoldsOnce (t.events actions)) := by
  intro first actions
  have hkeep : ∀ o, .rebase o ∉ actions := by
    intro o
    simp [actions]
  exact ⟨Nat.zero_lt_one, hkeep, folds_once_below_last first Nat.zero_lt_one hkeep⟩

/-- **The last offset of a log can be folded twice.** It is marked anew although a run has covered
it, and two runs count it that cover one offset between them. -/
theorem last_is_folded_twice :
    let events := (start .last 1).events [.resolve .last, .takeRun, .resolve .last, .takeRun]
    markings events .last = 2 ∧ ¬events.Pairwise (IsStaleAfter .last) ∧
      countedBy events = 2 ∧ (coveredBy events).card = 1 := by
  have hevents : (start .last 1).events [.resolve .last, .takeRun, .resolve .last, .takeRun] =
      [.resolved .last .marked, .folded .last ⟨.last, 1⟩, .resolved .last .marked,
        .folded .last ⟨.last, 1⟩] := by
    decide +kernel
  intro events
  rw [show events = _ from hevents]
  refine ⟨by decide, fun hpairwise => ?_, by decide, by decide⟩
  have hafter := (List.pairwise_cons.mp (List.pairwise_cons.mp hpairwise).2).1
  have hstale := hafter (.resolved .last .marked) List.mem_cons_self (by decide) .marked rfl
  cases hstale

end Tracker

end OffsetCommit
