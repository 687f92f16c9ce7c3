import OffsetCommit.CommandLine.Reading

/-!
# What a command line can ask for

Every value is checked where it is read, before it is put into the request. So whatever the
arguments are, the simulation that they ask for counts with numbers of the sizes that the program
has for them, and its rates are probabilities: `Settings.InRange`.

* `Flag.inRange_assign`: a value that is read leaves the settings in range.
* `Progress.inRange_read`: so does whatever is left to read, by induction on the arguments.
* `inRange_of_read`: if `read arguments = .ok (.simulate o)`, then `o.settings.InRange`.
-/

namespace OffsetCommit

/-- Whether a rate is from zero to one. -/
def Binary64.IsProbability (rate : Binary64) : Prop :=
  rate.atLeast 0 = true ∧ rate.atMost 1 = true

/-- Settings that the program can hold. -/
structure Simulation.Settings.InRange (s : Simulation.Settings) : Prop where
  /-- Partitions are counted with 32 bits. -/
  partitions : s.partitions < UInt32.size
  /-- The records of a partition are counted with 64 bits. -/
  records : s.records < UInt64.size
  /-- So are the blocks that trackers keep. -/
  shrinkThreshold : s.shrinkThreshold < UInt64.size
  /-- The subscriber refuses records with some probability. -/
  deadLetterRate : s.deadLetterRate.IsProbability
  /-- So does the dead-letter sink. -/
  deadLetterFailRate : s.deadLetterFailRate.IsProbability
  /-- The filter drops records with some probability. -/
  discardRate : s.discardRate.IsProbability
  /-- The broker rejects commits with some probability. -/
  commitFailRate : s.commitFailRate.IsProbability

namespace CommandLine

variable {flag : Flag} {text : String} {o o' : Options} {pr pr' : Progress}

/-! ### Values -/

/-- A number that `readNatBelow? bound` reads is below `bound`. -/
theorem lt_of_readNatBelow? {bound n : Nat} (h : readNatBelow? bound text = some n) : n < bound := by
  obtain ⟨-, hlt⟩ := Option.filter_eq_some_iff.mp h
  exact of_decide_eq_true hlt

/-- A number of partitions that is read has 32 bits. -/
theorem lt_of_readPartitionNumber? {n : Nat} (h : readPartitionNumber? text = some n) :
    n < UInt32.size := by
  unfold readPartitionNumber? at h
  split at h
  · -- only zero is read behind a minus sign
    obtain ⟨-, hzero⟩ := Option.filter_eq_some_iff.mp h
    rw [of_decide_eq_true hzero]
    decide
  · exact lt_of_readNatBelow? h

/-- A rate that is read is a probability. -/
theorem isProbability_of_readRate {rate : Binary64} (h : readRate text = .ok rate) :
    rate.IsProbability := by
  unfold readRate at h
  split at h
  · cases h
  · split at h
    · next hprobability =>
        cases h
        exact hprobability
    · cases h

/-- A rate that is read into the settings is a probability there: the settings are `set rate` for
some `rate` with `rate.IsProbability`. -/
theorem exists_of_map_readRate {set : Binary64 → Options} (h : (readRate text).map set = .ok o') :
    ∃ rate : Binary64, rate.IsProbability ∧ set rate = o' := by
  rcases hread : readRate text with error | rate
  · rw [hread] at h
    cases h
  · rw [hread] at h
    exact ⟨rate, isProbability_of_readRate hread, Except.ok.inj h⟩

/-- The standard settings are in range. -/
theorem inRange_standard : Options.standard.settings.InRange where
  partitions := by decide
  records := by decide
  shrinkThreshold := by decide
  deadLetterRate := ⟨by decide +kernel, by decide +kernel⟩
  deadLetterFailRate := ⟨by decide +kernel, by decide +kernel⟩
  discardRate := ⟨by decide +kernel, by decide +kernel⟩
  commitFailRate := ⟨by decide +kernel, by decide +kernel⟩

/-- **A value is checked when it is read**: `flag.assign text o = .ok o'` leaves the settings in
range. -/
theorem Flag.inRange_assign (h : o.settings.InRange) (hassign : flag.assign text o = .ok o') :
    o'.settings.InRange := by
  unfold Flag.assign at hassign
  cases flag with
  | partitions =>
      dsimp only at hassign
      split at hassign
      · next n hn => exact Except.ok.inj hassign ▸ { h with partitions := lt_of_readPartitionNumber? hn }
      · cases hassign
  | records =>
      dsimp only at hassign
      split at hassign
      · next n hn => exact Except.ok.inj hassign ▸ { h with records := lt_of_readNatBelow? hn }
      · cases hassign
  | shrinkThreshold =>
      dsimp only at hassign
      split at hassign
      · next n hn => exact Except.ok.inj hassign ▸ { h with shrinkThreshold := lt_of_readNatBelow? hn }
      · cases hassign
  | deadLetterRate =>
      obtain ⟨rate, hrate, rfl⟩ := exists_of_map_readRate hassign
      exact { h with deadLetterRate := hrate }
  | deadLetterFailRate =>
      obtain ⟨rate, hrate, rfl⟩ := exists_of_map_readRate hassign
      exact { h with deadLetterFailRate := hrate }
  | discardRate =>
      obtain ⟨rate, hrate, rfl⟩ := exists_of_map_readRate hassign
      exact { h with discardRate := hrate }
  | commitFailRate =>
      obtain ⟨rate, hrate, rfl⟩ := exists_of_map_readRate hassign
      exact { h with commitFailRate := hrate }
  | topic => exact Except.ok.inj hassign ▸ { h with }
  | seed =>
      dsimp only at hassign
      split at hassign
      · exact Except.ok.inj hassign ▸ { h with }
      · cases hassign
  | maxDelay =>
      dsimp only at hassign
      split at hassign
      · exact Except.ok.inj hassign ▸ h
      · cases hassign
  | logLevel =>
      dsimp only at hassign
      split at hassign
      · exact Except.ok.inj hassign ▸ h
      · cases hassign

/-! ### Arguments -/

/-- Assigning a value while arguments are read leaves the settings in range. -/
theorem Progress.inRange_assign (h : pr.options.settings.InRange)
    (hassign : pr.assign flag text = .ok pr') : pr'.options.settings.InRange := by
  unfold Progress.assign at hassign
  split at hassign
  · cases hassign
  · rcases hvalue : flag.assign text pr.options with error | o
    · rw [hvalue] at hassign
      cases hassign
    · rw [hvalue] at hassign
      obtain rfl := Except.ok.inj hassign
      exact Flag.inRange_assign h hvalue

/-- Reading the value that an option waits for leaves the settings in range. -/
theorem Progress.inRange_settle (h : pr.options.settings.InRange) (hsettle : pr.settle = .ok pr') :
    pr'.options.settings.InRange := by
  unfold Progress.settle at hsettle
  split at hsettle
  · exact Except.ok.inj hsettle ▸ h
  · cases hsettle
  · have hsettled : ({ pr with pending := none } : Progress).options.settings.InRange := h
    exact Progress.inRange_assign hsettled hsettle

/-- Taking an option, with its value or without, leaves the settings in range. -/
theorem Progress.inRange_take {value : Option String} (h : pr.options.settings.InRange)
    (htake : pr.take flag value = .ok pr') : pr'.options.settings.InRange := by
  rcases hsettle : pr.settle with error | settled
  · rw [Progress.take, hsettle] at htake
    cases htake
  · rw [Progress.take, hsettle] at htake
    have hsettled := Progress.inRange_settle h hsettle
    rcases value with _ | value
    · exact Except.ok.inj htake ▸ hsettled
    · exact Progress.inRange_assign hsettled htake

/-- If reading finishes with a simulation, its settings are in range. -/
theorem Progress.inRange_finish (h : pr.options.settings.InRange)
    (hfinish : pr.finish = .ok (.simulate o)) : o.settings.InRange := by
  rcases hsettle : pr.settle with error | settled
  · rw [Progress.finish, hsettle] at hfinish
    cases hfinish
  · rw [Progress.finish, hsettle] at hfinish
    obtain rfl := Request.simulate.inj (Except.ok.inj hfinish)
    exact Progress.inRange_settle h hsettle

/-- A request for help or for the version is no simulation, whatever `settle` gives. -/
theorem Progress.settle_map_ne {request : Request} (hrequest : request ≠ .simulate o) :
    (pr.settle.map fun _ => request) ≠ .ok (.simulate o) := by
  rcases pr.settle with error | settled
  · intro heq
    cases heq
  · exact fun heq => hrequest (Except.ok.inj heq)

/-- **Whatever is left to read** keeps the settings in range: `pr.read arguments = .ok (.simulate
o)` gives `o.settings.InRange` if the settings of `pr` are. -/
theorem Progress.inRange_read {arguments : List String} (h : pr.options.settings.InRange)
    (hread : pr.read arguments = .ok (.simulate o)) : o.settings.InRange := by
  induction arguments generalizing pr with
  | nil => exact Progress.inRange_finish h hread
  | cons text rest ih =>
      unfold Progress.read at hread
      split at hread
      · next value _ =>
          split at hread
          · next flag _ =>
              -- the value has come, but it is not read yet
              have hcome : ({ pr with pending := some (flag, some value) } :
                  Progress).options.settings.InRange := h
              exact ih hcome hread
          · cases hread
      · split at hread
        · exact Progress.inRange_finish h hread
        · cases hread
      · exact absurd hread (Progress.settle_map_ne Request.noConfusion)
      · exact absurd hread (Progress.settle_map_ne Request.noConfusion)
      · split at hread
        · cases hread
        · split at hread
          · next taken htake => exact ih (Progress.inRange_take h htake) hread
          · cases hread
      · exact absurd hread (Progress.settle_map_ne Request.noConfusion)
      · exact absurd hread (Progress.settle_map_ne Request.noConfusion)
      · cases hread

/-- **What is asked for is in range**: `read arguments = .ok (.simulate o)` gives
`o.settings.InRange`. -/
theorem inRange_of_read {arguments : List String} (h : read arguments = .ok (.simulate o)) :
    o.settings.InRange :=
  Progress.inRange_read inRange_standard h

end CommandLine

end OffsetCommit
