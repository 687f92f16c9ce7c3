import OffsetCommit.Proofs.Tracker.Replay

/-!
# The chronicle of a partition

What happened to one partition, in the order in which it happened: when it was seeded, what was
notified while it was tracked, which commits were issued and when it was given up (`Mark`). A
chronicle is `Legal` when each mark is what the marks before it allow. In particular a commit is
issued exactly when the notification before it completes a run of the offsets notified since the
seeding.

* `EndsIn.current?_eq`, `exists_endsIn`: the current assignment is what follows the last seeding.
* `Legal.clears_of_issued`: every offset below a commit was notified in the assignment that issued
  it, before it was issued (`Clears`).
-/

namespace OffsetCommit

/-- What a chronicle tells of a partition, mark by mark: the record that seeds it, a notification,
the commit that one issues, and the commit point at which the partition is given up. -/
inductive Mark where
  /-- The first record is read, and the partition is tracked from then on. -/
  | seeded (first : Offset)
  /-- The dispatch of a record ends, and the partition is tracked. -/
  | notified (notification : Notification)
  /-- A commit is issued. -/
  | issued (receipt : Receipt)
  /-- The partition is tracked no longer; this was the commit point. -/
  | dropped (commitPoint : Offset)
deriving DecidableEq

namespace Mark

/-- Whether an assignment of the partition begins or ends here. -/
def isBoundary : Mark → Bool
  | seeded _ => true
  | notified _ => false
  | issued _ => false
  | dropped _ => true

/-- The notification, if the mark is one. -/
def notification? : Mark → Option Notification
  | notified n => some n
  | _ => none

/-- The receipt of a commit, if one is issued. -/
def receipt? : Mark → Option Receipt
  | issued receipt => some receipt
  | _ => none

/-- The notifications of a chronicle are those that it has marks of. -/
theorem mem_notifications_iff {marks : List Mark} {n : Notification} :
    n ∈ marks.filterMap notification? ↔ notified n ∈ marks := by
  rw [List.mem_filterMap]
  constructor
  · rintro ⟨m, hm, hn⟩
    cases m with
    | notified x => exact Option.some.inj hn ▸ hm
    | seeded first => cases hn
    | issued receipt => cases hn
    | dropped commitPoint => cases hn
  · exact fun h => ⟨.notified n, h, rfl⟩

/-- The receipts of a chronicle are those that it has marks of. -/
theorem mem_receipts_iff {marks : List Mark} {receipt : Receipt} :
    receipt ∈ marks.filterMap receipt? ↔ issued receipt ∈ marks := by
  rw [List.mem_filterMap]
  constructor
  · rintro ⟨m, hm, hr⟩
    cases m with
    | issued x => exact Option.some.inj hr ▸ hm
    | seeded first => cases hr
    | notified n => cases hr
    | dropped commitPoint => cases hr
  · exact fun h => ⟨.issued receipt, h, rfl⟩

end Mark

namespace Chronicle

/-! ### The current assignment -/

/-- What is known of an assignment: the offset `first` that seeded it and the notifications since. -/
structure Assignment where
  /-- The offset of the record that seeded the tracker. -/
  first : Offset
  /-- The notifications since then, in their order. -/
  notifications : List Notification
deriving DecidableEq

/-- The set that the tracker of an assignment holds: `ResolvedSet.start a.first` after all
notifications. -/
def Assignment.resolved (a : Assignment) : ResolvedSet :=
  (ResolvedSet.start a.first).replay a.notifications

/-- The assignment after a notification. -/
def Assignment.add (a : Assignment) (n : Notification) : Assignment :=
  { a with notifications := a.notifications ++ [n] }

/-- The current assignment after one more mark. -/
def next? (current : Option Assignment) : Mark → Option Assignment
  | .seeded first => some ⟨first, []⟩
  | .notified n => current.map fun a => a.add n
  | .issued _ => current
  | .dropped _ => none

/-- The assignment that a chronicle ends in, `next?` for one mark after the other; `none` if it ends
unassigned. -/
def current? (marks : List Mark) : Option Assignment :=
  marks.foldl next? none

/-- The current assignment after one more mark is what `next?` makes of it. -/
theorem current?_concat (marks : List Mark) (m : Mark) :
    current? (marks ++ [m]) = next? (current? marks) m := by
  rw [current?, List.foldl_append]
  rfl

/-- One more notification is taken up by the resolved offsets of the assignment, by
`ResolvedSet.notify`. -/
theorem resolved_add (a : Assignment) (n : Notification) :
    (a.add n).resolved = (a.resolved.notify n).2 :=
  ResolvedSet.replay_concat (.start a.first) a.notifications n

/-- The chronicle ends in the assignment that `.seeded first` began, with the marks `since` behind
it and no boundary among them. -/
structure EndsIn (marks : List Mark) (first : Offset) (since : List Mark) : Prop where
  /-- The assignment was seeded before the rest of the marks. -/
  seeded : ∃ earlier, marks = earlier ++ .seeded first :: since
  /-- It has not ended, and no other has begun. -/
  within : ∀ m ∈ since, m.isBoundary = false

/-- A mark without a boundary extends the assignment that a chronicle ends in. -/
theorem EndsIn.concat {marks since : List Mark} {first : Offset} (h : EndsIn marks first since)
    {m : Mark} (hm : m.isBoundary = false) : EndsIn (marks ++ [m]) first (since ++ [m]) := by
  obtain ⟨earlier, rfl⟩ := h.seeded
  refine ⟨⟨earlier, ?_⟩, fun x hx => ?_⟩
  · rw [List.append_assoc, List.cons_append]
  · rcases List.mem_append.mp hx with hx | hx
    · exact h.within x hx
    · rw [List.mem_singleton.mp hx]
      exact hm

/-- An assignment that a chronicle ends in has just been seeded, or the chronicle before the last
mark ended in it. -/
theorem EndsIn.of_concat {marks since : List Mark} {m : Mark} {first : Offset}
    (h : EndsIn (marks ++ [m]) first since) :
    m = .seeded first ∧ since = [] ∨
      ∃ rest, since = rest ++ [m] ∧ m.isBoundary = false ∧ EndsIn marks first rest := by
  obtain ⟨⟨earlier, heq⟩, hwithin⟩ := h
  rcases List.eq_nil_or_concat since with rfl | ⟨rest, x, rfl⟩
  · exact .inl ⟨List.singleton_inj.mp (List.append_inj' heq rfl).2, rfl⟩
  · rw [List.concat_eq_append] at heq hwithin ⊢
    rw [← List.cons_append, ← List.append_assoc] at heq
    obtain ⟨rfl, hx⟩ := List.append_inj' heq rfl
    obtain rfl := List.singleton_inj.mp hx
    refine .inr ⟨rest, rfl, hwithin m (by simp), ⟨earlier, rfl⟩, fun y hy => ?_⟩
    exact hwithin y (List.mem_append_left _ hy)

/-- Without a boundary an assignment only collects notifications. -/
theorem foldl_next?_eq {marks : List Mark} (h : ∀ m ∈ marks, m.isBoundary = false)
    (a : Assignment) :
    marks.foldl next? (some a) =
      some ⟨a.first, a.notifications ++ marks.filterMap Mark.notification?⟩ := by
  induction marks generalizing a with
  | nil => simp
  | cons m rest ih =>
      obtain ⟨hm, hrest⟩ := List.forall_mem_cons.mp h
      cases m with
      | seeded first => cases hm
      | notified n =>
          rw [List.foldl_cons, next?, Option.map_some, ih hrest,
            List.filterMap_cons_some (show (Mark.notified n).notification? = some n from rfl)]
          simp only [Assignment.add, List.append_assoc, List.singleton_append]
      | issued receipt => exact ih hrest a
      | dropped commitPoint => cases hm

/-- If a chronicle ends in marks `since` behind a seeding at `first`, the current assignment is
`⟨first, since.filterMap Mark.notification?⟩`. -/
theorem EndsIn.current?_eq {marks since : List Mark} {first : Offset}
    (h : EndsIn marks first since) :
    current? marks = some ⟨first, since.filterMap Mark.notification?⟩ := by
  obtain ⟨earlier, rfl⟩ := h.seeded
  rw [current?, List.foldl_append, List.foldl_cons]
  exact foldl_next?_eq h.within ⟨first, []⟩

/-- Conversely a current assignment is what a chronicle `EndsIn`. -/
theorem exists_endsIn {marks : List Mark} {a : Assignment} (h : current? marks = some a) :
    ∃ since, EndsIn marks a.first since ∧
      since.filterMap Mark.notification? = a.notifications := by
  induction marks using List.reverseRecOn generalizing a with
  | nil => cases h
  | append_singleton marks m ih =>
      rw [current?_concat] at h
      cases m with
      | seeded first =>
          obtain rfl := Option.some.inj h
          exact ⟨[], ⟨⟨marks, rfl⟩, by simp⟩, rfl⟩
      | notified n =>
          obtain ⟨b, hb, rfl⟩ := Option.map_eq_some_iff.mp h
          obtain ⟨since, hends, hns⟩ := ih hb
          refine ⟨since ++ [.notified n], hends.concat rfl, ?_⟩
          rw [List.filterMap_append, hns]
          rfl
      | issued receipt =>
          obtain ⟨since, hends, hns⟩ := ih h
          refine ⟨since ++ [.issued receipt], hends.concat rfl, ?_⟩
          rw [List.filterMap_append, hns]
          exact List.append_nil _
      | dropped commitPoint => cases h

/-! ### Legal chronicles -/

/-- The chronicles that a coordinator can write for `p`: a partition is seeded when it is not
tracked, and a receipt follows just the notification that completes its run. Every run writes such a
chronicle, by `Pipeline.tells_run`. -/
inductive Legal (p : Partition) : List Mark → Prop where
  /-- Nothing has happened. -/
  | start : Legal p []
  /-- A record seeds the partition when it is not tracked. -/
  | seeded {marks : List Mark} (legal : Legal p marks) (untracked : current? marks = none)
      (first : Offset) : Legal p (marks ++ [.seeded first])
  /-- A notification completes no run. -/
  | notified {marks : List Mark} {a : Assignment} (legal : Legal p marks)
      (tracked : current? marks = some a) (n : Notification)
      (incomplete : (a.resolved.notify n).1 = none) : Legal p (marks ++ [.notified n])
  /-- A notification completes a run, and the commit of the run is issued. -/
  | issued {marks : List Mark} {a : Assignment} (legal : Legal p marks)
      (tracked : current? marks = some a) (n : Notification) (advance : Advance) (ticket : Nat)
      (complete : (a.resolved.notify n).1 = some advance) :
      Legal p (marks ++ [.notified n] ++ [.issued ⟨ticket, p, advance⟩])
  /-- A tracked partition is given up. -/
  | dropped {marks : List Mark} {a : Assignment} (legal : Legal p marks)
      (tracked : current? marks = some a) : Legal p (marks ++ [.dropped a.resolved.commitPoint])

/-! ### What stands behind a commit -/

/-- The last mark of a chronicle is the one looked for, or that one stands before it. -/
theorem eq_or_exists_of_concat_eq {marks before after : List Mark} {m x : Mark}
    (h : marks ++ [m] = before ++ x :: after) :
    marks = before ∧ m = x ∨ ∃ rest, marks = before ++ x :: rest := by
  rcases List.eq_nil_or_concat after with rfl | ⟨rest, last, rfl⟩
  · obtain ⟨hmarks, hm⟩ := List.append_inj' h rfl
    exact .inl ⟨hmarks, List.singleton_inj.mp hm⟩
  · rw [List.concat_eq_append, ← List.cons_append, ← List.append_assoc] at h
    exact .inr ⟨rest, (List.append_inj' h rfl).1⟩

/-- If the last mark is another one, the one looked for stands before it. -/
theorem exists_of_concat_eq_of_ne {marks before after : List Mark} {m x : Mark}
    (h : marks ++ [m] = before ++ x :: after) (hne : m ≠ x) :
    ∃ rest, marks = before ++ x :: rest := by
  rcases eq_or_exists_of_concat_eq h with ⟨-, hm⟩ | hrest
  · exact absurd hm hne
  · exact hrest

/-- Whether every offset from the one that seeded the current assignment up to, but not including,
`o` was notified in it. -/
def Clears (marks : List Mark) (o : Offset) : Prop :=
  ∃ first since, EndsIn marks first since ∧
    ∀ q, first ≤ q → q < o → ∃ outcome, Mark.notified ⟨q, outcome⟩ ∈ since

/-- Every offset below a commit was notified in the assignment that issued the commit, before it was
issued. The induction is on the chronicle; only a mark `.issued` has something to show. -/
theorem Legal.clears_of_issued {p : Partition} {marks : List Mark} (h : Legal p marks)
    {before after : List Mark} {receipt : Receipt}
    (hsplit : marks = before ++ .issued receipt :: after) :
    receipt.partition = p ∧ Clears before receipt.advance.offset := by
  induction h generalizing after with
  | start => simp at hsplit
  | seeded _ _ first ih =>
      obtain ⟨rest, hrest⟩ := exists_of_concat_eq_of_ne hsplit Mark.noConfusion
      exact ih hrest
  | notified _ _ n _ ih =>
      obtain ⟨rest, hrest⟩ := exists_of_concat_eq_of_ne hsplit Mark.noConfusion
      exact ih hrest
  | @issued marks a _ tracked n advance ticket complete ih =>
      rcases eq_or_exists_of_concat_eq hsplit with ⟨rfl, hm⟩ | ⟨rest, hrest⟩
      · obtain rfl := Mark.issued.inj hm
        refine ⟨rfl, ?_⟩
        have hcurrent : current? (marks ++ [.notified n]) = some (a.add n) := by
          rw [current?_concat, tracked]
          rfl
        obtain ⟨since, hends, hns⟩ := exists_endsIn hcurrent
        refine ⟨(a.add n).first, since, hends, fun q hfirst hlt => ?_⟩
        have hcovers : (a.add n).resolved.Covers q := by
          rw [resolved_add]
          rcases a.resolved.notify_commitPoint n with ⟨hnone, -⟩ | ⟨advance', hsome, heq, -⟩
          · rw [hnone] at complete
            cases complete
          · obtain rfl := Option.some.inj (hsome.symm.trans complete)
            exact .inl (heq ▸ hlt)
        obtain ⟨n', hn', rfl⟩ := ResolvedSet.mem_of_covers_replay hfirst hcovers
        exact ⟨n'.outcome, Mark.mem_notifications_iff.mp (hns ▸ hn')⟩
      · obtain ⟨rest', hrest'⟩ := exists_of_concat_eq_of_ne hrest Mark.noConfusion
        exact ih hrest'
  | dropped _ _ ih =>
      obtain ⟨rest, hrest⟩ := exists_of_concat_eq_of_ne hsplit Mark.noConfusion
      exact ih hrest

end Chronicle

end OffsetCommit
