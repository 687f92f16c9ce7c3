import OffsetCommit.Proofs.Pipeline.Receipts

/-!
# The order on the wire

Within an assignment every commit asks for an offset beyond that of the commit before it, since each
moves the commit point forward. The broker stores the commits of a partition in the order of issue.
Together: what is stored never moves backwards, except where a partition is seeded anew at a record
that was committed before.

* `Legal.ascends`: the receipts of a legal chronicle ascend, assignment by assignment (`Ascends`).
  There is one lemma for each kind of mark.
* `Legal.climbs`: all of them do if no assignment begins before the commit point at which the one
  before it was given up (`ReseedsAhead`, `Climbs`).
* `history_ascends`: so does the history of the broker.
-/

namespace OffsetCommit

namespace Chronicle

/-! ### Receipts and their assignments -/

/-- The receipts of a chronicle, each with the number of its assignment, counted from `n` on. -/
def receiptsFrom (n : Nat) : List Mark → List (Nat × Receipt)
  | [] => []
  | .seeded _ :: rest => receiptsFrom (n + 1) rest
  | .issued receipt :: rest => (n, receipt) :: receiptsFrom n rest
  | .notified _ :: rest => receiptsFrom n rest
  | .dropped _ :: rest => receiptsFrom n rest

/-- The number of marks `.seeded first` in a chronicle. -/
def assignments : List Mark → Nat
  | [] => 0
  | .seeded _ :: rest => assignments rest + 1
  | .issued _ :: rest => assignments rest
  | .notified _ :: rest => assignments rest
  | .dropped _ :: rest => assignments rest

/-- The numbered receipts of two chronicles, one after the other: the second begins with the number
that the first has reached. -/
theorem receiptsFrom_append (n : Nat) (first second : List Mark) :
    receiptsFrom n (first ++ second) =
      receiptsFrom n first ++ receiptsFrom (n + assignments first) second := by
  induction first generalizing n with
  | nil => rfl
  | cons m rest ih =>
      cases m with
      | seeded o =>
          rw [List.cons_append, receiptsFrom, receiptsFrom, assignments, ih, Nat.add_assoc,
            Nat.add_comm 1]
      | notified x => exact ih n
      | issued receipt => exact congrArg _ (ih n)
      | dropped o => exact ih n

/-- The assignments of two chronicles add up. -/
theorem assignments_append (first second : List Mark) :
    assignments (first ++ second) = assignments first + assignments second := by
  induction first with
  | nil => exact (Nat.zero_add _).symm
  | cons m rest ih =>
      cases m with
      | seeded o => rw [List.cons_append, assignments, assignments, ih, Nat.add_right_comm]
      | notified x => exact ih
      | issued receipt => exact ih
      | dropped o => exact ih

/-- A mark without a receipt leaves the numbered receipts. -/
theorem receiptsFrom_concat (marks : List Mark) {m : Mark} (h : m.receipt? = none) :
    receiptsFrom 0 (marks ++ [m]) = receiptsFrom 0 marks := by
  rw [receiptsFrom_append]
  cases m with
  | seeded o => exact List.append_nil _
  | notified x => exact List.append_nil _
  | issued receipt => cases h
  | dropped o => exact List.append_nil _

/-- Without the numbers they are the receipts in the order of issue. -/
theorem map_snd_receiptsFrom (n : Nat) (marks : List Mark) :
    (receiptsFrom n marks).map Prod.snd = marks.filterMap Mark.receipt? := by
  induction marks generalizing n with
  | nil => rfl
  | cons m rest ih =>
      cases m with
      | seeded o => exact ih (n + 1)
      | notified x => exact ih n
      | issued receipt => exact congrArg _ (ih n)
      | dropped o => exact ih n

/-! ### Commits move forward -/

/-- The notifications of the current assignment have marks in the chronicle. -/
theorem notified_mem_of_current? {marks : List Mark} {a : Assignment}
    (h : current? marks = some a) {n : Notification} (hn : n ∈ a.notifications) :
    Mark.notified n ∈ marks := by
  obtain ⟨since, hends, hns⟩ := exists_endsIn h
  obtain ⟨earlier, rfl⟩ := hends.seeded
  rw [← hns, Mark.mem_notifications_iff] at hn
  exact List.mem_append_right _ (List.mem_cons_of_mem _ hn)

/-- A notification never moves the commit point back. -/
theorem commitPoint_le_add (a : Assignment) (n : Notification) :
    a.resolved.commitPoint ≤ (a.add n).resolved.commitPoint := by
  rw [resolved_add]
  exact a.resolved.commitPoint_le_notify n

/-- A commit asks for the commit point that it leaves behind, and that lies ahead of the one before,
as long as `.last` is not notified. -/
theorem commitPoint_add {a : Assignment} {n : Notification}
    (hlast : ∀ x ∈ (a.add n).notifications, x.offset ≠ .last) {advance : Advance}
    (h : (a.resolved.notify n).1 = some advance) :
    a.resolved.commitPoint < advance.offset ∧
      (a.add n).resolved.commitPoint = advance.offset := by
  refine ⟨ResolvedSet.lt_of_notify_eq_some hlast h, ?_⟩
  rw [resolved_add]
  rcases a.resolved.notify_commitPoint n with ⟨hnone, -⟩ | ⟨advance', hsome, heq, -⟩
  · rw [hnone] at h
    cases h
  · obtain rfl := Option.some.inj (hsome.symm.trans h)
    exact heq

/-- If no mark of the chronicle notifies `.last`, the current assignment has no such notification. -/
theorem ne_last_of_current? {marks : List Mark} {a : Assignment} (h : current? marks = some a)
    {n : Notification} (hlast : ∀ x, Mark.notified x ∈ marks ++ [.notified n] → x.offset ≠ .last) :
    ∀ x ∈ (a.add n).notifications, x.offset ≠ .last := by
  intro x hx
  apply hlast
  rcases List.mem_append.mp hx with hx | hx
  · exact List.mem_append_left _ (notified_mem_of_current? h hx)
  · rw [List.mem_singleton.mp hx]
    exact List.mem_append_right _ (List.mem_singleton_self _)

/-- The invariant of the receipts of a chronicle: within an assignment their offsets go up, and none
is above the commit point of the current one. `Ascends.seeded`, `.notified`, `.issued` and
`.dropped` keep it, and `Legal.ascends` puts them together. -/
structure Ascends (marks : List Mark) : Prop where
  /-- The assignments come one after the other, and the offsets of each go up. -/
  pairwise : (receiptsFrom 0 marks).Pairwise fun x y =>
    x.1 < y.1 ∨ x.1 = y.1 ∧ x.2.advance.offset < y.2.advance.offset
  /-- No receipt is of a later assignment than the last. -/
  le_assignments : ∀ x ∈ receiptsFrom 0 marks, x.1 ≤ assignments marks
  /-- No receipt of the current assignment goes beyond the commit point. -/
  le_commitPoint : ∀ a, current? marks = some a → ∀ x ∈ receiptsFrom 0 marks,
    x.1 = assignments marks → x.2.advance.offset ≤ a.resolved.commitPoint

section

variable {p : Partition} {marks : List Mark} {a : Assignment}

/-- A mark without a receipt adds no assignment when it seeds none, and keeps the receipts as they
are: what `Ascends` says of their numbers stays true. -/
theorem Ascends.of_receipts_eq {marks' : List Mark} (h : Ascends marks)
    (hreceipts : receiptsFrom 0 marks' = receiptsFrom 0 marks)
    (hnumber : assignments marks' = assignments marks)
    (hpoint : ∀ b, current? marks' = some b → ∃ a, current? marks = some a ∧
      a.resolved.commitPoint ≤ b.resolved.commitPoint) : Ascends marks' where
  pairwise := hreceipts ▸ h.pairwise
  le_assignments := by
    rw [hreceipts, hnumber]
    exact h.le_assignments
  le_commitPoint b hb x hx heq := by
    obtain ⟨a, ha, hle⟩ := hpoint b hb
    rw [hreceipts] at hx
    rw [hnumber] at heq
    exact (h.le_commitPoint a ha x hx heq).trans hle

/-- Seeding keeps `Ascends`: the receipts so far are of earlier assignments. -/
theorem Ascends.seeded (h : Ascends marks) (first : Offset) :
    Ascends (marks ++ [.seeded first]) := by
  have hreceipts := receiptsFrom_concat marks (m := .seeded first) rfl
  have hnumber : assignments (marks ++ [.seeded first]) = assignments marks + 1 :=
    assignments_append marks _
  refine ⟨hreceipts ▸ h.pairwise, fun x hx => ?_, fun a _ x hx heq => ?_⟩
  · rw [hreceipts] at hx
    rw [hnumber]
    exact Nat.le_succ_of_le (h.le_assignments x hx)
  · rw [hreceipts] at hx
    rw [hnumber] at heq
    have := h.le_assignments x hx
    omega

/-- A notification keeps `Ascends`, as it does not move the commit point back. -/
theorem Ascends.notified (h : Ascends marks) (ha : current? marks = some a) (n : Notification) :
    Ascends (marks ++ [.notified n]) := by
  refine h.of_receipts_eq (receiptsFrom_concat marks rfl) (assignments_append marks _) fun b hb => ?_
  rw [current?_concat, ha] at hb
  obtain rfl := Option.some.inj hb
  exact ⟨a, ha, commitPoint_le_add a n⟩

/-- A notification and the receipt that it issues keep `Ascends`: the offset of the receipt is the
new commit point, beyond the one before. -/
theorem Ascends.issued (h : Ascends marks) (ha : current? marks = some a) {n : Notification}
    {advance : Advance} (hlt : a.resolved.commitPoint < advance.offset)
    (hpoint : (a.add n).resolved.commitPoint = advance.offset) (ticket : Nat) :
    Ascends (marks ++ [.notified n] ++ [.issued ⟨ticket, p, advance⟩]) := by
  have hreceipts : receiptsFrom 0 (marks ++ [.notified n] ++ [.issued ⟨ticket, p, advance⟩]) =
      receiptsFrom 0 marks ++ [(assignments marks, ⟨ticket, p, advance⟩)] := by
    rw [List.append_assoc, receiptsFrom_append, Nat.zero_add]
    rfl
  have hnumber : assignments (marks ++ [.notified n] ++ [.issued ⟨ticket, p, advance⟩]) =
      assignments marks := by
    rw [List.append_assoc]
    exact assignments_append marks _
  refine ⟨?_, fun x hx => ?_, fun b hb x hx heq => ?_⟩
  · rw [hreceipts, List.pairwise_append]
    refine ⟨h.pairwise, List.pairwise_singleton _ _, fun x hx y hy => ?_⟩
    obtain rfl := List.mem_singleton.mp hy
    rcases Nat.lt_or_eq_of_le (h.le_assignments x hx) with hless | heq
    · exact .inl hless
    · exact .inr ⟨heq, (h.le_commitPoint a ha x hx heq).trans_lt hlt⟩
  · rw [hnumber]
    rw [hreceipts, List.mem_append, List.mem_singleton] at hx
    rcases hx with hx | rfl
    · exact h.le_assignments x hx
    · exact le_rfl
  · rw [current?_concat, current?_concat, ha] at hb
    obtain rfl := Option.some.inj hb
    rw [hreceipts, List.mem_append, List.mem_singleton] at hx
    rw [hnumber] at heq
    rw [hpoint]
    rcases hx with hx | rfl
    · exact (h.le_commitPoint a ha x hx heq).trans hlt.le
    · exact le_rfl

/-- Giving the partition up keeps `Ascends`, as there is no current assignment then. -/
theorem Ascends.dropped (h : Ascends marks) (commitPoint : Offset) :
    Ascends (marks ++ [.dropped commitPoint]) := by
  refine h.of_receipts_eq (receiptsFrom_concat marks rfl) (assignments_append marks _) fun b hb => ?_
  rw [current?_concat] at hb
  cases hb

/-- **The receipts of a legal chronicle ascend**, as long as the last offset of the log is not
notified. -/
theorem Legal.ascends (h : Legal p marks)
    (hlast : ∀ n, Mark.notified n ∈ marks → n.offset ≠ .last) : Ascends marks := by
  induction h with
  | start =>
      refine ⟨.nil, fun x hx => ?_, fun a ha => ?_⟩
      · cases hx
      · cases ha
  | @seeded marks _ _ first ih =>
      exact (ih fun n hn => hlast n (List.mem_append_left _ hn)).seeded first
  | @notified marks a _ tracked n _ ih =>
      exact (ih fun x hx => hlast x (List.mem_append_left _ hx)).notified tracked n
  | @issued marks a _ tracked n advance ticket complete ih =>
      have hbefore := ih fun x hx =>
        hlast x (List.mem_append_left _ (List.mem_append_left _ hx))
      obtain ⟨hlt, hpoint⟩ := commitPoint_add
        (ne_last_of_current? tracked fun x hx => hlast x (List.mem_append_left _ hx)) complete
      exact hbefore.issued tracked hlt hpoint ticket
  | @dropped marks a _ tracked ih =>
      exact (ih fun n hn => hlast n (List.mem_append_left _ hn)).dropped _

end

/-! ### Seeding ahead -/

/-- Whether a mark may follow another when assignments begin ahead: `.seeded first` follows
`.dropped commitPoint` only if `commitPoint ≤ first`. -/
def BeginsAhead : Mark → Mark → Prop
  | .dropped commitPoint, .seeded first => commitPoint ≤ first
  | _, _ => True

instance : DecidableRel BeginsAhead
  | .dropped commitPoint, .seeded first => inferInstanceAs (Decidable (commitPoint ≤ first))
  | .dropped _, .notified _ => .isTrue trivial
  | .dropped _, .issued _ => .isTrue trivial
  | .dropped _, .dropped _ => .isTrue trivial
  | .seeded _, _ => .isTrue trivial
  | .notified _, _ => .isTrue trivial
  | .issued _, _ => .isTrue trivial

/-- Whether every assignment begins at or above the commit point at which the one before it was
given up: each two marks in a row are such that `BeginsAhead` holds. -/
def ReseedsAhead (marks : List Mark) : Prop :=
  marks.IsChain BeginsAhead

instance (marks : List Mark) : Decidable (ReseedsAhead marks) :=
  inferInstanceAs (Decidable (marks.IsChain BeginsAhead))

/-- What is required of a chronicle by `ReseedsAhead` is required of its beginning. -/
theorem ReseedsAhead.of_append {first second : List Mark} (h : ReseedsAhead (first ++ second)) :
    ReseedsAhead first :=
  List.IsChain.left_of_append h

/-- The invariant of the receipts of a chronicle that reseeds ahead: all their offsets go up, and
none is above the commit point that was reached last. `Legal.climbs` keeps it mark by mark. -/
structure Climbs (marks : List Mark) : Prop where
  /-- The offsets go up from one receipt to the next. -/
  pairwise : (marks.filterMap Mark.receipt?).Pairwise fun x y => x.advance.offset < y.advance.offset
  /-- Within an assignment no receipt goes beyond the commit point. -/
  tracked : ∀ a, current? marks = some a → ∀ x ∈ marks.filterMap Mark.receipt?,
    x.advance.offset ≤ a.resolved.commitPoint
  /-- Between assignments no receipt goes beyond the commit point at which the last was given up. -/
  untracked : current? marks = none → marks = [] ∨ ∃ earlier commitPoint,
    marks = earlier ++ [.dropped commitPoint] ∧
      ∀ x ∈ marks.filterMap Mark.receipt?, x.advance.offset ≤ commitPoint

/-- A mark without a receipt leaves the receipts. -/
theorem filterMap_receipt?_concat (marks : List Mark) {m : Mark} (h : m.receipt? = none) :
    (marks ++ [m]).filterMap Mark.receipt? = marks.filterMap Mark.receipt? := by
  rw [List.filterMap_append, List.filterMap_cons_none h, List.filterMap_nil, List.append_nil]

section

variable {p : Partition} {marks : List Mark} {a : Assignment}

/-- Seeding keeps `Climbs` when the new assignment begins at or behind the commit point at which the
one before it was given up. -/
theorem Climbs.seeded (h : Climbs marks) (hnone : current? marks = none) {first : Offset}
    (hahead : ReseedsAhead (marks ++ [.seeded first])) : Climbs (marks ++ [.seeded first]) := by
  have hreceipts := filterMap_receipt?_concat marks (m := .seeded first) rfl
  refine ⟨hreceipts ▸ h.pairwise, fun a ha x hx => ?_, fun hnone' => ?_⟩
  · rw [current?_concat] at ha
    obtain rfl := Option.some.inj ha
    rw [hreceipts] at hx
    rcases h.untracked hnone with rfl | ⟨earlier, commitPoint, rfl, hle⟩
    · cases hx
    · rw [ReseedsAhead, List.append_assoc] at hahead
      exact (hle x hx).trans (List.isChain_append_cons_cons.mp hahead).2.1
  · rw [current?_concat] at hnone'
    cases hnone'

/-- A notification keeps `Climbs`, as it does not move the commit point back. -/
theorem Climbs.notified (h : Climbs marks) (ha : current? marks = some a) (n : Notification) :
    Climbs (marks ++ [.notified n]) := by
  have hreceipts := filterMap_receipt?_concat marks (m := .notified n) rfl
  refine ⟨hreceipts ▸ h.pairwise, fun b hb x hx => ?_, fun hnone => ?_⟩
  · rw [current?_concat, ha] at hb
    obtain rfl := Option.some.inj hb
    rw [hreceipts] at hx
    exact (h.tracked a ha x hx).trans (commitPoint_le_add a n)
  · rw [current?_concat, ha] at hnone
    cases hnone

/-- A notification and the receipt that it issues keep `Climbs`: the offset of the receipt is the
new commit point, beyond the one before. -/
theorem Climbs.issued (h : Climbs marks) (ha : current? marks = some a) {n : Notification}
    {advance : Advance} (hlt : a.resolved.commitPoint < advance.offset)
    (hpoint : (a.add n).resolved.commitPoint = advance.offset) (ticket : Nat) :
    Climbs (marks ++ [.notified n] ++ [.issued ⟨ticket, p, advance⟩]) := by
  have hreceipts : (marks ++ [Mark.notified n] ++ [Mark.issued ⟨ticket, p, advance⟩]).filterMap
      Mark.receipt? = marks.filterMap Mark.receipt? ++ [⟨ticket, p, advance⟩] := by
    rw [List.filterMap_append, filterMap_receipt?_concat marks rfl]
    rfl
  refine ⟨?_, fun b hb x hx => ?_, fun hnone => ?_⟩
  · rw [hreceipts, List.pairwise_append]
    refine ⟨h.pairwise, List.pairwise_singleton _ _, fun x hx y hy => ?_⟩
    obtain rfl := List.mem_singleton.mp hy
    exact (h.tracked a ha x hx).trans_lt hlt
  · rw [current?_concat, current?_concat, ha] at hb
    obtain rfl := Option.some.inj hb
    rw [hreceipts, List.mem_append, List.mem_singleton] at hx
    rw [hpoint]
    rcases hx with hx | rfl
    · exact (h.tracked a ha x hx).trans hlt.le
    · exact le_rfl
  · rw [current?_concat, current?_concat, ha] at hnone
    cases hnone

/-- Giving the partition up keeps `Climbs`: no receipt goes beyond the commit point that is
dropped. -/
theorem Climbs.dropped (h : Climbs marks) (ha : current? marks = some a) :
    Climbs (marks ++ [.dropped a.resolved.commitPoint]) := by
  have hreceipts := filterMap_receipt?_concat marks (m := .dropped a.resolved.commitPoint) rfl
  refine ⟨hreceipts ▸ h.pairwise, fun b hb => ?_, fun _ => .inr ⟨marks, _, rfl, ?_⟩⟩
  · rw [current?_concat] at hb
    cases hb
  · rw [hreceipts]
    exact h.tracked a ha

/-- **The receipts of a legal chronicle climb when it `ReseedsAhead`**, as long as the last offset of
the log is not notified. -/
theorem Legal.climbs (h : Legal p marks)
    (hlast : ∀ n, Mark.notified n ∈ marks → n.offset ≠ .last) (hahead : ReseedsAhead marks) :
    Climbs marks := by
  induction h with
  | start =>
      refine ⟨.nil, fun a ha => ?_, fun _ => .inl rfl⟩
      cases ha
  | @seeded marks _ untracked first ih =>
      exact (ih (fun n hn => hlast n (List.mem_append_left _ hn)) hahead.of_append).seeded
        untracked hahead
  | @notified marks a _ tracked n _ ih =>
      exact (ih (fun x hx => hlast x (List.mem_append_left _ hx)) hahead.of_append).notified
        tracked n
  | @issued marks a _ tracked n advance ticket complete ih =>
      have hbefore := ih
        (fun x hx => hlast x (List.mem_append_left _ (List.mem_append_left _ hx)))
        hahead.of_append.of_append
      obtain ⟨hlt, hpoint⟩ := commitPoint_add
        (ne_last_of_current? tracked fun x hx => hlast x (List.mem_append_left _ hx)) complete
      exact hbefore.issued tracked hlt hpoint ticket
  | @dropped marks a _ tracked ih =>
      exact (ih (fun n hn => hlast n (List.mem_append_left _ hn)) hahead.of_append).dropped
        tracked

end

end Chronicle

namespace Pipeline

open Chronicle

/-- **Committed offsets never move backwards.** If no action `bypasses p` and `.last` is not
notified, `broker.history p` lists the offsets of the stored receipts in the order of issue:
assignment by assignment, and within each with ever higher offsets. If besides the chronicle
`ReseedsAhead`, so that no assignment begins below the commit point at which the one before it was
given up, the whole history is `Pairwise (· < ·)`. -/
theorem history_ascends {config : Config} {setup : Setup} {seed : UInt64} {faults : Faults}
    {pl : Pipeline} (hstart : start config setup (.start seed faults) = .ok pl)
    {actions : List PipelineAction} {p : Partition}
    (hactions : ∀ a ∈ actions, a.bypasses p = false)
    (hlast : ∀ n, Mark.notified n ∈ pl.chronicle p actions → n.offset ≠ .last) :
    let stored := (receiptsFrom 0 (pl.chronicle p actions)).filter fun x =>
      (pl.run actions).isStored x.2
    (pl.run actions).engine.broker.history p = stored.map (fun x => x.2.advance.offset) ∧
      (stored.Pairwise fun x y =>
        x.1 < y.1 ∨ x.1 = y.1 ∧ x.2.advance.offset < y.2.advance.offset) ∧
      (ReseedsAhead (pl.chronicle p actions) →
        ((pl.run actions).engine.broker.history p).Pairwise (· < ·)) := by
  intro stored
  have hlegal := (tells_run hstart actions p).legal
  have hhistory := (booked_run hstart hactions).history_eq (ledger_run hstart actions)
  refine ⟨?_, (hlegal.ascends hlast).pairwise.filter _, fun hahead => ?_⟩
  · rw [hhistory, ← map_snd_receiptsFrom 0, List.filter_map, List.map_map]
    rfl
  · rw [hhistory, List.pairwise_map]
    exact (hlegal.climbs hlast hahead).pairwise.filter _

/-- The client of the broker crashes on the second commit and takes its lane with it, the third
goes to a new lane, the partition is given up and seeded anew, and the fourth waits in a lane of
its own for the third. -/
theorem history_ascends_through_crash :
    let p : Partition := ⟨"orders", 0⟩
    let record : Nat → Record := fun n => ⟨p, .clamp n, []⟩
    let work : Nat → PipelineAction := fun lane => .engine (.move (.work lane))
    let actions : List PipelineAction :=
      [.receive (record 3), .resolve (record 3) .delivered, .resolve (record 4) .delivered,
        .engine (.move .take), .engine (.move .take), work 0, work 0, work 0, work 0,
        .resolve (record 5) .delivered, .revoke p, .receive (record 6),
        .resolve (record 6) .deadLettered, .engine (.move .take), .engine (.move .take),
        .engine (.move .take), work 2, work 1, work 1, work 1, work 2, work 2, work 2]
    ∃ pl, start .testing ⟨[.clamp 5], none⟩ (.start 7 .quiet) = .ok pl ∧
      (∀ a ∈ actions, a.bypasses p = false) ∧
      (∀ n, Mark.notified n ∈ pl.chronicle p actions → n.offset ≠ .last) ∧
      ReseedsAhead (pl.chronicle p actions) ∧
      (pl.run actions).engine.broker.history p = [.clamp 4, .clamp 6, .clamp 7] ∧
      ((pl.run actions).engine.broker.history p).Pairwise (· < ·) := by
  intro p record work actions
  have hactions : ∀ a ∈ actions, a.bypasses p = false := by decide
  have hstart : start .testing ⟨[.clamp 5], none⟩ (.start 7 .quiet) =
      .ok ⟨⟨.testing, ∅⟩, .start ⟨[.clamp 5], none⟩ (.start 7 .quiet), #[]⟩ := rfl
  have hlast : ∀ n, Mark.notified n ∈ Pipeline.chronicle
      ⟨⟨.testing, ∅⟩, .start ⟨[.clamp 5], none⟩ (.start 7 .quiet), #[]⟩ p actions →
      n.offset ≠ .last := by
    intro n hn
    rw [← Mark.mem_notifications_iff] at hn
    revert n
    decide +kernel
  have hahead : ReseedsAhead (Pipeline.chronicle
      ⟨⟨.testing, ∅⟩, .start ⟨[.clamp 5], none⟩ (.start 7 .quiet), #[]⟩ p actions) := by
    decide +kernel
  refine ⟨_, hstart, hactions, hlast, hahead, ?_, ?_⟩
  · decide +kernel
  · exact (history_ascends hstart hactions hlast).2.2 hahead

end Pipeline

end OffsetCommit
