import OffsetCommit.Proofs.Pipeline.WireOrder

/-!
# Receipts tile the log

The receipts of an assignment lie end to end: the first begins where the partition was seeded, each
begins where the one before it ends, and the last ends at the commit point (`Tiles`). What was not
stored is folded, count by count, into the way from the committed offset to the commit point, so the
next commit that goes through makes up for all that failed or were given up before it.

* `Tiles.concat`, `Tiles.toNat_eq`: tiles are laid one by one, and they reach as far as records
  are folded into them.
* `Legal.tiles`: the receipts of an assignment tile the log. `Legal.tiles_of_dropped` says the
  same of one that was given up.
* `receipts_tile`: so durable progress is accounted for along every run.
-/

namespace OffsetCommit

namespace Chronicle

/-! ### Tilings -/

/-- Whether the receipts lie end to end from `first` to `last`: each folds at least one record, and
its offset is that of the one before it plus `r.advance.count`. -/
def Tiles : Offset → List Receipt → Offset → Prop
  | first, [], last => first = last
  | first, r :: rest, last =>
      0 < r.advance.count ∧ r.advance.offset.toNat = first.toNat + r.advance.count ∧
        Tiles r.advance.offset rest last

/-- The number of records that are folded into some receipts, the sum of `r.advance.count`. -/
def folded (receipts : List Receipt) : Nat :=
  (receipts.map fun r => r.advance.count).foldr (· + ·) 0

/-- Receipts tile from `first` to `last` just when the front ones tile to some `o` and the back ones
from there. -/
theorem tiles_append_iff {first last : Offset} {front back : List Receipt} :
    Tiles first (front ++ back) last ↔ ∃ o, Tiles first front o ∧ Tiles o back last := by
  induction front generalizing first with
  | nil => simp [Tiles]
  | cons r rest ih =>
      simp only [List.cons_append, Tiles, ih]
      constructor
      · rintro ⟨hcount, hoffset, o, hrest, hback⟩
        exact ⟨o, ⟨hcount, hoffset, hrest⟩, hback⟩
      · rintro ⟨o, ⟨hcount, hoffset, hrest⟩, hback⟩
        exact ⟨hcount, hoffset, o, hrest, hback⟩

/-- A receipt `r` that begins at `last` and folds at least one record can be laid behind receipts
that tile up to `last`; then they tile up to `r.advance.offset`. -/
theorem Tiles.concat {first last : Offset} {receipts : List Receipt} (h : Tiles first receipts last)
    {r : Receipt} (hcount : 0 < r.advance.count)
    (hoffset : r.advance.offset.toNat = last.toNat + r.advance.count) :
    Tiles first (receipts ++ [r]) r.advance.offset :=
  tiles_append_iff.mpr ⟨last, h, hcount, hoffset, rfl⟩

/-- Receipts reach as far as records are folded into them: `last.toNat = first.toNat + folded
receipts`. -/
theorem Tiles.toNat_eq {first last : Offset} {receipts : List Receipt}
    (h : Tiles first receipts last) : last.toNat = first.toNat + folded receipts := by
  induction receipts generalizing first with
  | nil =>
      obtain rfl : first = last := h
      rfl
  | cons r rest ih =>
      obtain ⟨-, hoffset, hrest⟩ := h
      rw [ih hrest, hoffset, folded, folded, List.map_cons, List.foldr_cons, Nat.add_assoc]

/-- The last receipt ends where all of them end, and without a receipt nothing has moved. -/
theorem Tiles.getLast?_eq {first last : Offset} {receipts : List Receipt}
    (h : Tiles first receipts last) :
    receipts.getLast?.map (fun r => r.advance.offset) =
      if last = first then none else some last := by
  rcases List.eq_nil_or_concat receipts with rfl | ⟨rest, r, rfl⟩
  · exact (if_pos (show last = first from h.symm)).symm
  · rw [List.concat_eq_append] at h ⊢
    obtain ⟨o, hrest, hcount, hoffset, rfl⟩ := tiles_append_iff.mp h
    have hreach := hrest.toNat_eq
    have hne : r.advance.offset ≠ first := by
      intro heq
      rw [heq] at hoffset
      omega
    rw [List.getLast?_concat, if_neg hne]
    rfl

/-- **The receipts of an assignment tile the log** from the record that seeded it to the commit
point, as long as `.last` is not notified. -/
theorem Legal.tiles {p : Partition} {marks : List Mark} (h : Legal p marks) {first : Offset}
    {since : List Mark} (hends : EndsIn marks first since) {a : Assignment}
    (ha : current? marks = some a) (hlast : ∀ x ∈ a.notifications, x.offset ≠ .last) :
    Tiles first (since.filterMap Mark.receipt?) a.resolved.commitPoint := by
  induction h generalizing since a with
  | start => cases ha
  | @seeded marks _ _ o _ =>
      rw [current?_concat] at ha
      obtain rfl := Option.some.inj ha
      rcases hends.of_concat with ⟨hm, rfl⟩ | ⟨rest, -, hm, -⟩
      · obtain rfl := Mark.seeded.inj hm
        rfl
      · cases hm
  | @notified marks b _ tracked n incomplete ih =>
      rw [current?_concat, tracked] at ha
      obtain rfl := Option.some.inj ha
      rcases hends.of_concat with ⟨hm, -⟩ | ⟨rest, rfl, -, hrest⟩
      · cases hm
      · have hpoint : (b.add n).resolved.commitPoint = b.resolved.commitPoint := by
          rw [resolved_add]
          rcases b.resolved.notify_commitPoint n with ⟨-, heq⟩ | ⟨advance, hsome, -⟩
          · exact heq
          · rw [incomplete] at hsome
            cases hsome
        rw [filterMap_receipt?_concat rest rfl, hpoint]
        exact ih hrest tracked fun x hx => hlast x (List.mem_append_left _ hx)
  | @issued marks b _ tracked n advance ticket complete ih =>
      rw [current?_concat, current?_concat, tracked] at ha
      obtain rfl := Option.some.inj ha
      rcases hends.of_concat with ⟨hm, -⟩ | ⟨rest, rfl, -, hrest⟩
      · cases hm
      rcases hrest.of_concat with ⟨hm, -⟩ | ⟨rest, rfl, -, hrest⟩
      · cases hm
      · obtain ⟨-, hpoint⟩ := commitPoint_add hlast complete
        obtain ⟨hcount, hoffset⟩ := ResolvedSet.offset_of_notify_eq_some hlast complete
        -- the new receipt begins at the commit point, where those before it end
        have hbefore := ih hrest tracked fun x hx => hlast x (List.mem_append_left _ hx)
        rw [List.filterMap_append, filterMap_receipt?_concat rest rfl, hpoint]
        exact hbefore.concat hcount hoffset
  | dropped _ _ _ =>
      rw [current?_concat] at ha
      cases ha

/-- The receipts of an assignment that was given up tile the log up to the commit point at which it
was. -/
theorem Legal.tiles_of_dropped {p : Partition} {marks : List Mark} (h : Legal p marks)
    {earlier since after : List Mark} {first point : Offset}
    (hsplit : marks = (earlier ++ .seeded first :: since) ++ .dropped point :: after)
    (hwithin : ∀ m ∈ since, m.isBoundary = false)
    (hlast : ∀ n, Mark.notified n ∈ since → n.offset ≠ .last) :
    Tiles first (since.filterMap Mark.receipt?) point := by
  induction h generalizing after with
  | start => simp at hsplit
  | seeded _ _ _ ih =>
      obtain ⟨rest, hrest⟩ := exists_of_concat_eq_of_ne hsplit Mark.noConfusion
      exact ih hrest
  | notified _ _ _ _ ih =>
      obtain ⟨rest, hrest⟩ := exists_of_concat_eq_of_ne hsplit Mark.noConfusion
      exact ih hrest
  | issued _ _ _ _ _ _ ih =>
      obtain ⟨rest, hrest⟩ := exists_of_concat_eq_of_ne hsplit Mark.noConfusion
      obtain ⟨rest', hrest'⟩ := exists_of_concat_eq_of_ne hrest Mark.noConfusion
      exact ih hrest'
  | @dropped marks a legal tracked ih =>
      rcases eq_or_exists_of_concat_eq hsplit with ⟨rfl, hm⟩ | ⟨rest, hrest⟩
      · obtain rfl := Mark.dropped.inj hm
        have hends : EndsIn (earlier ++ .seeded first :: since) first since := ⟨⟨_, rfl⟩, hwithin⟩
        refine legal.tiles hends tracked fun x hx => ?_
        obtain rfl := Option.some.inj (tracked.symm.trans hends.current?_eq)
        exact hlast x (Mark.mem_notifications_iff.mp hx)
      · exact ih hrest

end Chronicle

namespace Pipeline

open Chronicle

/-- The committed offset is that of the last receipt that was stored. -/
theorem Booked.committed_of_last {pl : Pipeline} {p : Partition} {past : List Mark}
    (h : pl.Booked p past) (hl : pl.engine.Ledger) {before after : List Receipt} {r : Receipt}
    (hreceipts : past.filterMap Mark.receipt? = before ++ r :: after)
    (hstored : pl.isStored r = true) (hafter : ∀ x ∈ after, pl.isStored x = false) :
    pl.engine.broker.committed p = some r.advance.offset := by
  have hnone : after.filter pl.isStored = [] := by
    rw [List.filter_eq_nil_iff]
    intro x hx
    rw [hafter x hx]
    exact Bool.false_ne_true
  rw [h.recorded.committed, h.history_eq hl, hreceipts, List.filter_append,
    List.filter_cons_of_pos hstored, hnone, List.map_append, List.map_cons, List.map_nil,
    List.getLast?_concat]

/-- **Issued runs tile the log, and durable progress is accounted for.** If `.last` is not notified
in an assignment that `.seeded first` begins, its receipts lie end to end (`Tiles`) from `first` to
the commit point: to the `point` of the mark `.dropped point` that ends it, or to the commit point
of the snapshot. If besides no action `bypasses p` and `r` is the last receipt that `isStored`, with
`after` behind it, then `broker.committed p` and `folded after` add up to the commit point, whether
those receipts have failed, were given up or are on their way. -/
theorem receipts_tile {config : Config} {setup : Setup} {seed : UInt64} {faults : Faults}
    {pl : Pipeline} (hstart : start config setup (.start seed faults) = .ok pl)
    (actions : List PipelineAction) (p : Partition) :
    let now := pl.run actions
    (∀ earlier first since point after,
      pl.chronicle p actions =
        (earlier ++ .seeded first :: since) ++ .dropped point :: after →
      (∀ m ∈ since, m.isBoundary = false) → (∀ n, Mark.notified n ∈ since → n.offset ≠ .last) →
        Tiles first (since.filterMap Mark.receipt?) point) ∧
      (∀ first since, EndsIn (pl.chronicle p actions) first since →
        (∀ n, Mark.notified n ∈ since → n.offset ≠ .last) →
        ∃ snapshot, now.coordinator.snapshot? p = some snapshot ∧
          Tiles first (since.filterMap Mark.receipt?) snapshot.commitPoint ∧
          ((∀ a ∈ actions, a.bypasses p = false) → ∀ before r after,
            since.filterMap Mark.receipt? = before ++ r :: after →
            now.isStored r = true → (∀ x ∈ after, now.isStored x = false) →
              ∃ o, now.engine.broker.committed p = some o ∧
                o.toNat + folded after = snapshot.commitPoint.toNat)) := by
  intro now
  have htells := tells_run hstart actions p
  refine ⟨fun earlier first since point after hsplit hwithin hlast =>
    htells.legal.tiles_of_dropped hsplit hwithin hlast, fun first since hends hlast => ?_⟩
  have hcurrent := hends.current?_eq
  obtain ⟨t, ht, hrepresents⟩ := htells.tracked _ hcurrent
  have htiles := htells.legal.tiles hends hcurrent fun x hx =>
    hlast x (Mark.mem_notifications_iff.mp hx)
  rw [← hrepresents.commitPoint_eq] at htiles
  refine ⟨t.snapshot, ?_, htiles, fun hactions before r after hreceipts hstored hafter => ?_⟩
  · rw [Coordinator.snapshot?, ht]
    rfl
  · obtain ⟨earlier, hearlier⟩ := hends.seeded
    have hbooked := booked_run hstart hactions
    have hall : (pl.chronicle p actions).filterMap Mark.receipt? =
        (earlier.filterMap Mark.receipt? ++ before) ++ r :: after := by
      rw [hearlier, List.filterMap_append, List.append_assoc, ← hreceipts]
      rfl
    refine ⟨_, hbooked.committed_of_last (ledger_run hstart actions) hall hstored hafter, ?_⟩
    -- the receipts behind the stored one tile the rest, up to the commit point
    rw [hreceipts] at htiles
    obtain ⟨o, -, -, -, hrest⟩ := tiles_append_iff.mp htiles
    exact hrest.toNat_eq.symm

/-- A first assignment commits one record and is given up. In the second a commit goes through, the
next one is rejected, and the one after it, which folds two records, is still on its way. -/
theorem receipts_tile_over_failure :
    let p : Partition := ⟨"orders", 0⟩
    let record : Nat → Record := fun n => ⟨p, .clamp n, []⟩
    let work : Nat → PipelineAction := fun lane => .engine (.move (.work lane))
    let actions : List PipelineAction :=
      [.receive (record 3), .resolve (record 3) .delivered, .engine (.move .take), work 0, work 0,
        .revoke p, .receive (record 5), .resolve (record 5) .delivered, .engine (.move .take),
        .engine (.move .take), work 0, work 1, work 1, work 1,
        .engine (.changeFaults ⟨none, some true, none⟩), .resolve (record 6) .delivered,
        .engine (.move .take), work 1, work 1, .resolve (record 8) .discarded,
        .resolve (record 7) .deadLettered, .engine (.move .take)]
    ∃ pl, start .testing ⟨[], none⟩ (.start 7 .quiet) = .ok pl ∧
      Tiles (.clamp 3) [⟨0, p, ⟨.clamp 4, 1⟩⟩] (.clamp 4) ∧
      ∃ snapshot, (pl.run actions).coordinator.snapshot? p = some snapshot ∧
        Tiles (.clamp 5) [⟨1, p, ⟨.clamp 6, 1⟩⟩, ⟨2, p, ⟨.clamp 7, 1⟩⟩, ⟨3, p, ⟨.clamp 9, 2⟩⟩]
          snapshot.commitPoint ∧
        ∃ o, (pl.run actions).engine.broker.committed p = some o ∧
          o.toNat + (1 + 2) = snapshot.commitPoint.toNat := by
  intro p record work actions
  have hstart : start .testing ⟨[], none⟩ (.start 7 .quiet) =
      .ok ⟨⟨.testing, ∅⟩, .start ⟨[], none⟩ (.start 7 .quiet), #[]⟩ := rfl
  generalize hpl : (⟨⟨.testing, ∅⟩, .start ⟨[], none⟩ (.start 7 .quiet), #[]⟩ : Pipeline) = pl
    at hstart
  let earlier : List Mark := [.notified ⟨.clamp 3, .delivered⟩, .issued ⟨0, p, ⟨.clamp 4, 1⟩⟩]
  let since : List Mark :=
    [.notified ⟨.clamp 5, .delivered⟩, .issued ⟨1, p, ⟨.clamp 6, 1⟩⟩,
      .notified ⟨.clamp 6, .delivered⟩, .issued ⟨2, p, ⟨.clamp 7, 1⟩⟩,
      .notified ⟨.clamp 8, .discarded⟩, .notified ⟨.clamp 7, .deadLettered⟩,
      .issued ⟨3, p, ⟨.clamp 9, 2⟩⟩]
  have hchronicle : pl.chronicle p actions =
      ([] ++ .seeded (.clamp 3) :: earlier) ++ .dropped (.clamp 4) :: .seeded (.clamp 5) :: since := by
    subst hpl
    decide +kernel
  have hends : EndsIn (pl.chronicle p actions) (.clamp 5) since :=
    ⟨⟨_, hchronicle.trans (List.append_cons _ _ _)⟩, by decide⟩
  obtain ⟨hgivenUp, hcurrent⟩ := receipts_tile hstart actions p
  obtain ⟨snapshot, hsnapshot, htiles, hcommitted⟩ :=
    hcurrent (.clamp 5) since hends (by simp [since, Offset.ext_iff])
  refine ⟨pl, hstart, ?_, snapshot, hsnapshot, htiles, ?_⟩
  · exact hgivenUp [] (.clamp 3) earlier (.clamp 4) _ hchronicle (by decide)
      (by simp [earlier, Offset.ext_iff])
  · apply hcommitted (by decide) [] ⟨1, p, ⟨.clamp 6, 1⟩⟩
      [⟨2, p, ⟨.clamp 7, 1⟩⟩, ⟨3, p, ⟨.clamp 9, 2⟩⟩] rfl
    · subst hpl
      decide +kernel
    · subst hpl
      decide +kernel

end Pipeline

end OffsetCommit
