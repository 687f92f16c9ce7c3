import OffsetCommit.Proofs.Pipeline.Completion
import OffsetCommit.Proofs.Pipeline.Separation

/-!
# Notifications that come again

A notification about an offset that was notified before adds no resolved offset and loses none. A
repeated success may take a run out earlier than it would have gone, and the two sides then differ
in where the commit point stands, but not in the offsets that are accounted for. A repeat that is no
success finds its offset below the commit point or marked, and changes nothing at all.

* `Tracker.Represents.notify_of_covers`: such a repeat leaves the tracker as it is.
* `Tracker.Represents.observations_extended`: so repeats that are no successes cannot be told from
  none.
* `Tracker.Represents.accounted_iff`: with any repeats the offsets accounted for are those that
  were notified.
* `repeats_change_nothing`: what this means for two runs of a pipeline.
-/

namespace OffsetCommit

/-! ### Insertions -/

/-- A notification in a sequence, and whether it was inserted there. -/
structure Entry where
  /-- The notification. -/
  notification : Notification
  /-- Whether it was inserted. -/
  isInserted : Bool
deriving DecidableEq

namespace Entry

/-- The sequence without what was inserted. -/
def original (entries : List Entry) : List Notification :=
  (entries.filter (!·.isInserted)).map notification

/-- The sequence with what was inserted. -/
def extended (entries : List Entry) : List Notification :=
  entries.map notification

/-- Whether every inserted notification repeats an offset that was notified before it or is in
`known`. -/
def repeats (known : List Offset) : List Entry → Bool
  | [] => true
  | e :: rest =>
      (!e.isInserted || e.notification.offset ∈ known) &&
        repeats (e.notification.offset :: known) rest

/-- What is seen of a sequence with insertions when they change nothing: for each of the other
notifications what is seen of it without them, and for each insertion no receipt and the tracker as
it was seen last. -/
def expected (last : Option Snapshot) : List Entry → List Observation → List Observation
  | [], _ => []
  | ⟨_, true⟩ :: rest, seen => ⟨.settled (.ok none), last⟩ :: expected last rest seen
  | ⟨_, false⟩ :: rest, first :: seen => first :: expected first.snapshot rest seen
  | ⟨_, false⟩ :: _, [] => []

/-- The original of entries leaves out those that are inserted. -/
theorem original_cons (e : Entry) (rest : List Entry) :
    original (e :: rest) =
      if e.isInserted then original rest else e.notification :: original rest := by
  rcases h : e.isInserted
  · simp [original, h]
  · simp [original, h]

/-- Entries repeat if each inserted one names an offset that was known before it. -/
theorem repeats_cons_iff {known : List Offset} {e : Entry} {rest : List Entry} :
    repeats known (e :: rest) = true ↔
      (e.isInserted = true → e.notification.offset ∈ known) ∧
        repeats (e.notification.offset :: known) rest = true := by
  rw [repeats, Bool.and_eq_true, Bool.or_eq_true, Bool.not_eq_true', decide_eq_true_eq]
  rcases e.isInserted <;> simp

/-- Repeats name no offset that was not notified without them. -/
theorem exists_original {known : List Offset} {entries : List Entry}
    (h : repeats known entries = true) {n : Notification} (hn : n ∈ extended entries) :
    n.offset ∈ known ∨ ∃ m ∈ original entries, m.offset = n.offset := by
  induction entries generalizing known with
  | nil => cases hn
  | cons e rest ih =>
      obtain ⟨hinserted, hrest⟩ := repeats_cons_iff.mp h
      -- the first entry is known already, or it is one of the original notifications
      have hfirst : e.notification.offset ∈ known ∨
          ∃ m ∈ original (e :: rest), m.offset = e.notification.offset := by
        rcases he : e.isInserted
        · rw [original_cons, he]
          exact .inr ⟨e.notification, List.mem_cons_self, rfl⟩
        · exact .inl (hinserted he)
      rcases List.mem_cons.mp hn with rfl | hn
      · exact hfirst
      · rcases ih hrest hn with hknown | ⟨m, hm, hoffset⟩
        · rcases List.mem_cons.mp hknown with heq | hknown
          · rw [heq]
            exact hfirst
          · exact .inl hknown
        · refine .inr ⟨m, ?_, hoffset⟩
          rw [original_cons]
          split
          · exact hm
          · exact List.mem_cons_of_mem _ hm

/-- What is notified without the repeats is notified with them. -/
theorem mem_extended_of_mem_original {entries : List Entry} {n : Notification}
    (h : n ∈ original entries) : n ∈ extended entries := by
  obtain ⟨e, he, rfl⟩ := List.mem_map.mp h
  exact List.mem_map_of_mem (List.mem_filter.mp he).1

/-- With and without repeats the same offsets are notified. -/
theorem exists_extended_iff {entries : List Entry} (h : repeats [] entries = true) {o : Offset} :
    (∃ n ∈ extended entries, n.offset = o) ↔ ∃ n ∈ original entries, n.offset = o := by
  constructor
  · rintro ⟨n, hn, rfl⟩
    rcases exists_original h hn with hknown | hexists
    · cases hknown
    · exact hexists
  · rintro ⟨n, hn, rfl⟩
    exact ⟨n, mem_extended_of_mem_original hn, rfl⟩

end Entry

/-! ### Repeats at one tracker -/

/-- A repeat that is no success leaves the tracker as it is, down to its blocks: `t.notify n =
(none, t)`. -/
theorem Tracker.Represents.notify_of_covers {t : Tracker} {s : ResolvedSet} (h : t.Represents s)
    {n : Notification} (hcovers : s.Covers n.offset) (hquiet : n.outcome.attemptsCommit = false) :
    t.notify n = (none, t) := by
  have hsame : (t.resolve n.offset).2 = t := by
    apply h.wellFormed.resolve_eq_self
    rw [(h.resolve n.offset).1]
    exact fun hmarked => (s.resolve_fst n.offset).2 hmarked hcovers
  rw [Tracker.notify, Coordinator.attempt, hsame, hquiet, if_neg fun hattempts => ?_]
  cases hattempts.2

open PartitionCall in
/-- **Repeats that are no successes cannot be told from none**: what is observed with them is
`Entry.expected` of what is observed without. -/
theorem Tracker.Represents.observations_extended {t : Tracker} {s : ResolvedSet}
    (h : t.Represents s) (p : Partition) (threshold : Nat) {known : List Offset}
    (hknown : ∀ o ∈ known, o ≠ .last ∧ s.Covers o) {entries : List Entry}
    (hrepeats : Entry.repeats known entries = true)
    (hlast : ∀ e ∈ entries, e.notification.offset ≠ .last)
    (hquiet : ∀ e ∈ entries, e.isInserted = true → e.notification.outcome.attemptsCommit = false) :
    observations p threshold (some t) ((Entry.extended entries).map .ended) =
      Entry.expected (some t.snapshot) entries
        (observations p threshold (some t) ((Entry.original entries).map .ended)) := by
  induction entries generalizing t s known with
  | nil => rfl
  | cons e rest ih =>
      obtain ⟨hinserted, hrest⟩ := Entry.repeats_cons_iff.mp hrepeats
      obtain ⟨hne, hlastRest⟩ := List.forall_mem_cons.mp hlast
      obtain ⟨hnone, hquietRest⟩ := List.forall_mem_cons.mp hquiet
      -- after the first entry its offset is accounted for as well
      have hnext : ∀ o ∈ e.notification.offset :: known,
          o ≠ .last ∧ (s.notify e.notification).2.Covers o := by
        intro o ho
        rcases List.mem_cons.mp ho with rfl | ho
        · exact ⟨hne, (ResolvedSet.covers_notify_iff hne).mpr (.inr rfl)⟩
        · obtain ⟨hlow, hcovers⟩ := hknown o ho
          exact ⟨hlow, (ResolvedSet.covers_notify_iff hlow).mpr (.inl hcovers)⟩
      have hlater := ih (h.notify e.notification).2 hnext hrest hlastRest hquietRest
      obtain ⟨n, isInserted⟩ := e
      rw [Entry.original_cons]
      cases isInserted with
      | false => exact congrArg (_ :: ·) hlater
      | true =>
          have hkeep := h.notify_of_covers (hknown _ (hinserted rfl)).2 (hnone rfl)
          rw [hkeep] at hlater
          show ⟨answer p (some t) (.ended n), (next threshold (some t) (.ended n)).map snapshot⟩ ::
            observations p threshold (next threshold (some t) (.ended n)) _ = _
          rw [answer, next, Option.map_some, hkeep]
          exact congrArg (_ :: ·) hlater

/-! ### What is seen of the notifications of an assignment -/

namespace Pipeline

variable {p : Partition}

/-- What is seen of the notifications about `p` along some actions: for each the answer and the
snapshot of the tracker behind it. -/
def responses (pl : Pipeline) (p : Partition) : List PipelineAction → List Observation
  | [] => []
  | a :: rest =>
      let seen : Observation := ⟨pl.answerTo (.act a), (pl.act a).coordinator.snapshot? p⟩
      (a.notification? p).toList.map (fun _ => seen) ++ (pl.act a).responses p rest

/-- An action that neither notifies about a tracked partition nor gives it up leaves its tracker. -/
theorem getElem?_act_of_tracked {pl : Pipeline} {t : Tracker}
    (ht : pl.coordinator.trackers[p]? = some t) {a : PipelineAction} (ha : a.givesUp p = false)
    (hnone : a.notification? p = none) : (pl.act a).coordinator.trackers[p]? = some t := by
  rcases hcall : (PipelineStep.act a).call? p with _ | call
  · exact (pl.getElem?_step_of_call?_eq_none hcall).trans ht
  · have hplace := (pl.step_of_call?_eq_some hcall).2
    cases a with
    | receive r =>
        obtain ⟨-, rfl⟩ : r.partition = p ∧ .received r.offset = call := by
          simpa [PipelineStep.call?] using hcall
        rw [ht] at hplace
        exact hplace
    | resolve r outcome =>
        have hp : r.partition ≠ p := fun hp => by simp [PipelineAction.notification?, hp] at hnone
        exact (getElem?_resolve_of_ne hp outcome).trans ht
    | revoke q =>
        have hq : q ≠ p := of_decide_eq_false ha
        exact (pl.getElem?_revoke q p).trans ((if_neg hq).trans ht)
    | revokeAll => cases ha
    | engine a => exact ht

/-- A notification about a tracked partition is answered by its tracker. -/
theorem act_of_notification {pl : Pipeline} {t : Tracker}
    (ht : pl.coordinator.trackers[p]? = some t) {a : PipelineAction} {n : Notification}
    (hn : a.notification? p = some n) :
    pl.answerTo (.act a) = (PartitionCall.ended n).answer p (some t) ∧
      (pl.act a).coordinator.trackers[p]? = some (t.notify n).2 := by
  have hcall : (PipelineStep.act a).call? p = some (.ended n) := by
    cases a with
    | resolve r outcome =>
        simp only [PipelineAction.notification?, Option.ite_none_right_eq_some,
          Option.some.injEq] at hn
        rw [PipelineStep.call?, if_pos hn.1, hn.2]
    | _ => cases hn
  obtain ⟨hanswer, hplace⟩ := pl.step_of_call?_eq_some hcall
  rw [ht] at hanswer hplace
  exact ⟨hanswer, hplace⟩

/-- As long as a partition is tracked, what is seen of its notifications follows from them and from
its tracker. -/
theorem responses_eq {pl : Pipeline} {t : Tracker} (ht : pl.coordinator.trackers[p]? = some t)
    {actions : List PipelineAction} (hkept : ∀ a ∈ actions, a.givesUp p = false) (threshold : Nat) :
    pl.responses p actions = PartitionCall.observations p threshold (some t)
      ((actions.filterMap (PipelineAction.notification? p)).map .ended) := by
  induction actions generalizing pl t with
  | nil => rfl
  | cons a rest ih =>
      obtain ⟨ha, hrest⟩ := List.forall_mem_cons.mp hkept
      rw [responses]
      rcases hn : a.notification? p with _ | n
      · rw [List.filterMap_cons_none hn, ih (getElem?_act_of_tracked ht ha hn) hrest]
        rfl
      · obtain ⟨hanswer, hnext⟩ := act_of_notification ht hn
        rw [List.filterMap_cons_some hn, List.map_cons, PartitionCall.observations, hanswer,
          ih hnext hrest, Coordinator.snapshot?, hnext]
        rfl

/-- A tracked partition that is not given up stays tracked, and its tracker represents `s.replay` of
what is notified. -/
theorem exists_represents_run {pl : Pipeline} {t : Tracker} {s : ResolvedSet}
    (ht : pl.coordinator.trackers[p]? = some t) (h : t.Represents s) {actions : List PipelineAction}
    (hkept : ∀ a ∈ actions, a.givesUp p = false) :
    ∃ t', (pl.run actions).coordinator.trackers[p]? = some t' ∧
      t'.Represents (s.replay (actions.filterMap (PipelineAction.notification? p))) := by
  induction actions generalizing pl t s with
  | nil => exact ⟨t, ht, h⟩
  | cons a rest ih =>
      obtain ⟨ha, hrest⟩ := List.forall_mem_cons.mp hkept
      rcases hn : a.notification? p with _ | n
      · rw [List.filterMap_cons_none hn]
        exact ih (getElem?_act_of_tracked ht ha hn) h hrest
      · rw [List.filterMap_cons_some hn]
        exact ih (act_of_notification ht hn).2 (h.notify n).2 hrest

end Pipeline

/-- A tracker that holds what was notified accounts for just the offsets that were notified: those
below its commit point and those that are marked. -/
theorem Tracker.Represents.accounted_iff {t : Tracker} {first : Offset} {ns : List Notification}
    (h : t.Represents ((ResolvedSet.start first).replay ns)) (hlast : ∀ n ∈ ns, n.offset ≠ .last)
    {o : Offset} (ho : first ≤ o) :
    (o < t.commitPoint ∨ t.isMarked o = true) ↔ ∃ n ∈ ns, n.offset = o := by
  have hcovers : (o < t.commitPoint ∨ t.isMarked o = true) ↔
      ((ResolvedSet.start first).replay ns).Covers o := by
    rw [ResolvedSet.Covers, h.commitPoint_eq, h.mem_iff]
  rw [hcovers]
  refine ⟨ResolvedSet.mem_of_covers_replay ho, fun hnotified => ?_⟩
  obtain ⟨n, hn, rfl⟩ := hnotified
  exact (ResolvedSet.covers_replay_iff ho (hlast n hn)).mpr ⟨n, hn, rfl⟩

namespace Pipeline

/-- **Repeated notifications add no resolved offset and lose none.** Let `record` seed a partition
`p` that is not tracked, and let the pipeline go on by `after` or by `after'`, neither of which
gives `p` up, with the notifications `original entries` and `extended entries`: the second way has
repeats besides, none of them of `.last`. Then both ways account for the same offsets from
`record.offset` on, those that were notified. If no repeat is a success, each repeat returns no
receipt and shows the tracker as it was, down to its blocks, and every other notification is
answered alike and shows the same tracker (`Entry.expected`). -/
theorem repeats_change_nothing {pl : Pipeline} {record : Record}
    (huntracked : pl.coordinator.snapshot? record.partition = none)
    {after after' : List PipelineAction}
    (hkept : ∀ a ∈ after, a.givesUp record.partition = false)
    (hkept' : ∀ a ∈ after', a.givesUp record.partition = false) {entries : List Entry}
    (hentries : after.filterMap (PipelineAction.notification? record.partition) =
      Entry.original entries)
    (hentries' : after'.filterMap (PipelineAction.notification? record.partition) =
      Entry.extended entries)
    (hrepeats : Entry.repeats [] entries = true)
    (hlast : ∀ e ∈ entries, e.notification.offset ≠ .last) :
    let p := record.partition
    let seeded := pl.receive record
    (∃ t t', (seeded.run after).coordinator.trackers[p]? = some t ∧
      (seeded.run after').coordinator.trackers[p]? = some t' ∧
      ∀ o, record.offset ≤ o →
        ((o < t.commitPoint ∨ t.isMarked o = true) ↔
          ∃ n ∈ Entry.original entries, n.offset = o) ∧
        ((o < t'.commitPoint ∨ t'.isMarked o = true) ↔
          ∃ n ∈ Entry.original entries, n.offset = o)) ∧
    ((∀ e ∈ entries, e.isInserted = true → e.notification.outcome = .discarded ∨
        ∃ cause, e.notification.outcome = .deadLetterFailed cause) →
      seeded.responses p after' =
        Entry.expected (seeded.coordinator.snapshot? p) entries (seeded.responses p after)) := by
  intro p seeded
  have hnone : pl.coordinator.trackers[p]? = none := by
    rwa [Coordinator.snapshot?, Option.map_eq_none_iff] at huntracked
  let t₀ := Tracker.start record.offset pl.coordinator.config.shrinkThreshold
  have hseeded : seeded.coordinator.trackers[p]? = some t₀ :=
    (Coordinator.receive_of_untracked hnone p).trans (if_pos rfl)
  have hrepresents : t₀.Represents (.start record.offset) := Tracker.represents_start _ _
  obtain ⟨t, ht, hholds⟩ := exists_represents_run hseeded hrepresents hkept
  obtain ⟨t', ht', hholds'⟩ := exists_represents_run hseeded hrepresents hkept'
  rw [hentries] at hholds
  rw [hentries'] at hholds'
  have hlow : ∀ n ∈ Entry.extended entries, n.offset ≠ .last := by
    intro n hn
    obtain ⟨e, he, rfl⟩ := List.mem_map.mp hn
    exact hlast e he
  -- the offsets of repeats were notified before them, so both ways know the same offsets
  refine ⟨⟨t, t', ht, ht', fun o ho => ⟨?_, ?_⟩⟩, fun hquiet => ?_⟩
  · exact hholds.accounted_iff (fun n hn => hlow n (Entry.mem_extended_of_mem_original hn)) ho
  · rw [← Entry.exists_extended_iff hrepeats]
    exact hholds'.accounted_iff hlow ho
  · rw [responses_eq hseeded hkept 0, responses_eq hseeded hkept' 0, hentries, hentries',
      Coordinator.snapshot?, hseeded]
    refine hrepresents.observations_extended p 0 (fun o ho => by cases ho) hrepeats hlast ?_
    intro e he hinserted
    rcases hquiet e he hinserted with heq | ⟨cause, heq⟩
    · rw [heq]
      rfl
    · rw [heq]
      rfl

/-- The second side hears once more of offset 5 while it waits above a gap, and of offset 3 when a
commit covers it; another partition is at work, and the engine moves. -/
theorem repeats_change_nothing_past_commit :
    let p : Partition := ⟨"orders", 0⟩
    let other : Partition := ⟨"orders", 1⟩
    let ended : Nat → Outcome → PipelineAction := fun n outcome =>
      .resolve ⟨p, .clamp n, []⟩ outcome
    let after : List PipelineAction :=
      [ended 5 .discarded, ended 3 .discarded, ended 4 .delivered, ended 6 .delivered]
    let after' : List PipelineAction :=
      [ended 5 .discarded, .receive ⟨other, .clamp 0, []⟩, ended 5 (.deadLetterFailed "full"),
        .receive ⟨p, .clamp 4, []⟩, ended 3 .discarded, ended 4 .delivered, .engine (.move .take),
        ended 3 .discarded, .revoke other, ended 6 .delivered]
    let entries : List Entry :=
      [⟨⟨.clamp 5, .discarded⟩, false⟩, ⟨⟨.clamp 5, .deadLetterFailed "full"⟩, true⟩,
        ⟨⟨.clamp 3, .discarded⟩, false⟩, ⟨⟨.clamp 4, .delivered⟩, false⟩,
        ⟨⟨.clamp 3, .discarded⟩, true⟩, ⟨⟨.clamp 6, .delivered⟩, false⟩]
    ∃ pl, start .testing default default = .ok pl ∧
      Entry.repeats [] entries = true ∧
      after.filterMap (PipelineAction.notification? p) = Entry.original entries ∧
      after'.filterMap (PipelineAction.notification? p) = Entry.extended entries ∧
      pl.coordinator.snapshot? p = none ∧
      let seeded := pl.receive ⟨p, .clamp 3, []⟩
      (seeded.responses p after).map Observation.answer =
        [.settled (.ok none), .settled (.ok none), .settled (.ok (some (p, ⟨.clamp 6, 3⟩))),
          .settled (.ok (some (p, ⟨.clamp 7, 1⟩)))] ∧
      seeded.responses p after' = Entry.expected (seeded.coordinator.snapshot? p) entries
        (seeded.responses p after) := by
  intro p other ended after after' entries
  have hstart : start .testing default default =
      .ok ⟨⟨.testing, ∅⟩, .start default default, #[]⟩ := rfl
  have hentries : after.filterMap (PipelineAction.notification? p) = Entry.original entries := by
    decide
  have hentries' : after'.filterMap (PipelineAction.notification? p) = Entry.extended entries := by
    decide
  have hrepeats : Entry.repeats [] entries = true := by decide
  have huntracked : (⟨⟨.testing, ∅⟩, .start default default, #[]⟩ : Pipeline).coordinator.snapshot? p =
      none := by decide +kernel
  obtain ⟨-, hsame⟩ := @repeats_change_nothing _ ⟨p, .clamp 3, []⟩ huntracked after after' (by decide)
    (by decide) entries hentries hentries' hrepeats (by decide)
  refine ⟨_, hstart, hrepeats, hentries, hentries', huntracked, by decide +kernel, hsame ?_⟩
  intro e he hinserted
  simp only [entries, List.mem_cons, List.not_mem_nil, or_false] at he
  rcases he with rfl | rfl | rfl | rfl | rfl | rfl
  · cases hinserted
  · exact .inr ⟨"full", rfl⟩
  · cases hinserted
  · cases hinserted
  · exact .inl rfl
  · cases hinserted

end Pipeline

end OffsetCommit
