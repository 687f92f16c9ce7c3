import OffsetCommit.CommandLine.Execution

/-!
# Simulations that leave nothing to chance

When every rate of a simulation is zero or one, no draw decides anything: all records are successes
or none is, and the broker rejects every commit or none. The settings then say what is to be
reported, except for the number of commits of each partition, which depends on the order in which
dispatch ends.

* `Chance.IsSettled`: what is asked of a source of chance. It never comes true at rate zero and
  always at rate one.
* `HasCertainRates.attemptsCommit_outcome`: under such a source the settings alone decide how
  dispatch ends.
* `Report.IsExact`: what is to be reported, and `Report.IsExact.ending` says how the program ends
  then.
-/

namespace OffsetCommit

/-! ### Rates that decide by themselves -/

/-- A double with the value `v` compares to `q` as `v` does. -/
theorem Binary64.compare?_of_toRat? {x : Binary64} {v : Rat} (h : x.toRat? = some v) (q : Rat) :
    x.compare? q = some (if v < q then .lt else if v = q then .eq else .gt) := by
  cases x with
  | nan => cases h
  | infinity negative => cases h
  | finite negative significand exponent =>
      obtain rfl := Option.some.inj h
      rfl

/-- At rate zero the broker rejects no commit. -/
theorem settledByRate?_of_zero {rate : Binary64} (h : rate.toRat? = some 0) :
    settledByRate? rate = some false := by
  rw [settledByRate?, Binary64.atMost, Binary64.compare?_of_toRat? h]
  rfl

/-- At rate one the broker rejects every commit. -/
theorem settledByRate?_of_one {rate : Binary64} (h : rate.toRat? = some 1) :
    settledByRate? rate = some true := by
  rw [settledByRate?, Binary64.atMost, Binary64.atLeast, Binary64.compare?_of_toRat? h,
    Binary64.compare?_of_toRat? h]
  rfl

namespace Simulation

/-- Whether a rate is zero or one. -/
def IsCertain (rate : Binary64) : Prop :=
  rate.toRat? = some 0 ∨ rate.toRat? = some 1

/-- A rate that is zero or one decides by itself: the broker rejects unless the rate is zero. -/
theorem IsCertain.settledByRate? {rate : Binary64} (h : IsCertain rate) :
    settledByRate? rate = some (decide (rate.toRat? ≠ some 0)) := by
  rcases h with hzero | hone
  · rw [settledByRate?_of_zero hzero, hzero]
    rfl
  · rw [settledByRate?_of_one hone, hone]
    rfl

/-! ### Sources of chance -/

namespace Chance

/-- A source of chance that is settled by the rates zero and one. -/
structure IsSettled (chance : Chance) : Prop where
  /-- At rate zero no chance comes true. -/
  never : ∀ {rate}, rate.toRat? = some 0 → ∀ seed n, chance.happens rate seed n = false
  /-- At rate one every chance comes true. -/
  always : ∀ {rate}, rate.toRat? = some 1 → ∀ seed n, chance.happens rate seed n = true

/-- At a certain rate `happens` does not depend on the seed or on the number of the chance. -/
theorem IsSettled.happens_eq {chance : Chance} (hchance : chance.IsSettled) {rate : Binary64}
    (hrate : IsCertain rate) (seed : UInt64) (n : Nat) :
    chance.happens rate seed n = decide (rate.toRat? ≠ some 0) := by
  rcases hrate with hzero | hone
  · rw [hchance.never hzero, hzero]
    rfl
  · rw [hchance.always hone, hone]
    rfl

/-- The draws of the broker are settled by the rates zero and one: `Chance.ofDraws` is a source of
chance as `IsSettled` requires it. -/
theorem isSettled_ofDraws : ofDraws.IsSettled where
  never hzero seed n := by simp [ofDraws, settledByRate?_of_zero hzero]
  always hone seed n := by simp [ofDraws, settledByRate?_of_one hone]

end Chance

namespace Settings

/-- Settings that leave nothing to chance. -/
structure HasCertainRates (s : Settings) : Prop where
  /-- The subscriber accepts every record, or none. -/
  deadLetterRate : Simulation.IsCertain s.deadLetterRate
  /-- The dead-letter sink accepts every record that it is sent, or none. -/
  deadLetterFailRate : Simulation.IsCertain s.deadLetterFailRate
  /-- Every record passes the filter, or none does. -/
  discardRate : Simulation.IsCertain s.discardRate
  /-- The broker accepts every commit, or none. -/
  commitFailRate : Simulation.IsCertain s.commitFailRate

/-- Settings that the program accepts and that leave nothing to chance. -/
structure IsCertain (s : Settings) : Prop extends s.HasCertainRates where
  /-- Partitions have numbers of 32 bits. -/
  partitions : s.partitions < UInt32.size
  /-- The records of all partitions together have a number of 64 bits. -/
  records : s.partitions * s.records < UInt64.size
  /-- The shrink threshold is valid. -/
  threshold : 0 < s.shrinkThreshold

/-- Whether every record is a success. -/
def succeeds (s : Settings) : Bool :=
  s.discardRate.toRat? = some 0 ∧
    (s.deadLetterRate.toRat? = some 0 ∨ s.deadLetterFailRate.toRat? = some 0)

/-- Whether the broker rejects every commit. -/
def rejects (s : Settings) : Bool :=
  s.commitFailRate.toRat? ≠ some 0

/-- **No chance decides how dispatch ends**: `outcome chance s n` attempts a commit for every `n` if
`s.succeeds`, and for none otherwise. -/
theorem HasCertainRates.attemptsCommit_outcome {chance : Chance} (hchance : chance.IsSettled)
    {s : Settings} (h : s.HasCertainRates) (n : Nat) :
    (outcome chance s n).attemptsCommit = s.succeeds := by
  rw [outcome, succeeds, hchance.happens_eq h.discardRate, hchance.happens_eq h.deadLetterRate,
    hchance.happens_eq h.deadLetterFailRate]
  by_cases hdiscard : s.discardRate.toRat? = some 0
  · by_cases hdead : s.deadLetterRate.toRat? = some 0
    · simp [hdiscard, hdead, Outcome.attemptsCommit]
    · by_cases hfail : s.deadLetterFailRate.toRat? = some 0 <;>
        simp [hdiscard, hdead, hfail, Outcome.attemptsCommit]
  · simp [hdiscard, Outcome.attemptsCommit]

/-! ### What is to be reported -/

/-- The committed offset and the uncommitted tail of every partition. -/
def figures (s : Settings) : Nat × Nat :=
  if s.succeeds then if s.rejects then (0, 0) else (s.records, 0) else (0, s.records)

/-- The number of records folded into stored commits. -/
def folded (s : Settings) : Nat :=
  if s.succeeds ∧ ¬s.rejects then s.partitions * s.records else 0

/-- The lines of the report, given how many commits of each partition were stored. -/
def lines (s : Settings) (commits : Partition → Nat) : List String :=
  ["partition\tcommitted\tuncommitted_tail\tcommits"]
    ++ (keys s).map (fun p => toString p ++ "\t" ++ toString s.figures.1 ++ "\t"
      ++ toString s.figures.2 ++ "\t" ++ toString (commits p))
    ++ ["records folded into commits: " ++ toString s.folded]

end Settings

/-- A report with the figures to be reported. -/
structure Report.IsExact (s : Settings) (r : Report) : Prop where
  /-- There is a row for each partition in order, with the figures of every partition. -/
  rows : ∃ commits : Partition → Nat,
    r.rows = (keys s).map fun p => ⟨p, s.figures.1, s.figures.2, commits p⟩
  /-- The number of folded records is that of all records, or zero. -/
  folded : r.folded = s.folded
  /-- No notification was refused. -/
  refused : r.refused = 0

/-- **An exact report is no failure**: `CommandLine.ending` gives exit code zero and the lines of
the settings. -/
theorem Report.IsExact.ending {s : Settings} (hs : s.HasCertainRates) {r : Report} (h : r.IsExact s) :
    ∃ commits, CommandLine.ending s r = ⟨0, s.lines commits, none⟩ := by
  obtain ⟨commits, hrows⟩ := h.rows
  have hlines : r.lines = s.lines commits := by
    rw [lines, hrows, h.folded, List.map_map]
    rfl
  have hfailure : CommandLine.failure? s r = none := by
    have hfull : r.fallsShort s = true → s.commitFailRate.atMost 0 = false := by
      intro hshort
      obtain ⟨row, hrow, hne⟩ := List.any_eq_true.mp hshort
      rw [hrows] at hrow
      obtain ⟨p, -, rfl⟩ := List.mem_map.mp hrow
      rw [decide_eq_true_eq] at hne
      -- only rejected commits make a partition fall short
      have hrejects : s.commitFailRate.toRat? ≠ some 0 := by
        intro hzero
        apply hne
        simp only [Settings.figures, Settings.rejects, hzero]
        cases s.succeeds <;> simp
      rw [Binary64.atMost, Binary64.compare?_of_toRat? (hs.commitFailRate.resolve_left hrejects)]
      rfl
    rw [CommandLine.failure?, h.refused, if_neg (Nat.lt_irrefl 0), if_neg]
    rintro ⟨hshort, hrate⟩
    rw [hfull hshort] at hrate
    cases hrate
  refine ⟨commits, ?_⟩
  rw [CommandLine.ending, hfailure, hlines]

end Simulation

end OffsetCommit
