import OffsetCommit.Proofs.Pipeline.Receipts

/-!
# No commit past an unresolved record

A commit says that every record below its offset is done with. The coordinator issues no commit that
says more than it was told, and the broker stores no other commits as long as no one goes past the
coordinator: `commits_are_cleared`. It puts together `Legal.clears_of_issued`, on what was notified
before a receipt, and `Booked.history_eq`, on what the broker stores.
-/

namespace OffsetCommit.Pipeline

open Chronicle

/-- **No commit goes past a record that was not notified.** Wherever the chronicle of `p` has
`.issued receipt`, the marks before it `Clears` up to `receipt.advance.offset`: every offset from
the seeding of that assignment on has been notified in it. If no action `bypasses p`, each offset in
`broker.history p` is that of such a receipt. -/
theorem commits_are_cleared {config : Config} {setup : Setup} {seed : UInt64} {faults : Faults}
    {pl : Pipeline} (hstart : start config setup (.start seed faults) = .ok pl)
    (actions : List PipelineAction) (p : Partition) :
    (∀ before receipt after, pl.chronicle p actions = before ++ .issued receipt :: after →
      receipt.partition = p ∧ Clears before receipt.advance.offset) ∧
    ((∀ a ∈ actions, a.bypasses p = false) →
      ∀ o ∈ (pl.run actions).engine.broker.history p,
        ∃ before receipt after, pl.chronicle p actions = before ++ .issued receipt :: after ∧
          receipt.advance.offset = o ∧
          (pl.run actions).engine.stored? receipt.ticket = some o ∧ Clears before o) := by
  have hlegal := (tells_run hstart actions p).legal
  have hledger := ledger_run hstart actions
  refine ⟨fun before receipt after hsplit => hlegal.clears_of_issued hsplit, ?_⟩
  intro hactions o ho
  have hbooked := booked_run hstart hactions
  rw [hbooked.history_eq hledger, List.mem_map] at ho
  obtain ⟨receipt, hreceipt, rfl⟩ := ho
  obtain ⟨hmem, hstored⟩ := List.mem_filter.mp hreceipt
  have hissued := Mark.mem_receipts_iff.mp hmem
  obtain ⟨before, after, hsplit⟩ := List.append_of_mem hissued
  refine ⟨before, receipt, after, hsplit, rfl, ?_, (hlegal.clears_of_issued hsplit).2⟩
  rw [hbooked.stored?_eq hledger hissued, if_pos hstored]

/-- Records 3 and 4 are notified in the wrong order, the partition is given up with the commit on
its way, and the offset that the broker stores in the end is cleared all the same. -/
theorem commits_are_cleared_after_revocation :
    let p : Partition := ⟨"orders", 0⟩
    let record : Nat → Record := fun n => ⟨p, .clamp n, []⟩
    let actions : List PipelineAction :=
      [.receive (record 3), .resolve (record 4) .discarded, .resolve (record 3) .delivered,
        .engine (.move .take), .revoke p, .receive (record 9), .engine (.move .take),
        .engine (.move (.work 0)), .engine (.move (.work 0))]
    ∃ pl, start .testing ⟨[], none⟩ (.start 7 .quiet) = .ok pl ∧
      (∀ a ∈ actions, a.bypasses p = false) ∧
      (pl.run actions).engine.broker.history p = [.clamp 5] ∧
      ∃ before receipt after, pl.chronicle p actions = before ++ .issued receipt :: after ∧
        receipt.advance.offset = .clamp 5 ∧
        (pl.run actions).engine.stored? receipt.ticket = some (.clamp 5) ∧
        Clears before (.clamp 5) := by
  intro p record actions
  have hactions : ∀ a ∈ actions, a.bypasses p = false := by decide
  have hstart : start .testing ⟨[], none⟩ (.start 7 .quiet) =
      .ok ⟨⟨.testing, ∅⟩, .start ⟨[], none⟩ (.start 7 .quiet), #[]⟩ := rfl
  refine ⟨_, hstart, hactions, ?_, ?_⟩
  · decide +kernel
  · apply (commits_are_cleared hstart actions p).2 hactions
    decide +kernel

end OffsetCommit.Pipeline
