import OffsetCommit.Proofs.CommandLine
import OffsetCommit.Proofs.Engine.Callers
import OffsetCommit.Proofs.Simulation.Progress

/-!
# What the program prints

A simulation that leaves nothing to chance prints what its settings say, for any number of
partitions and records.

* `exists_run`: that is so for `Simulation.run`, where each dispatch ends before the next record
  is read.
* `report_is_exact`: and for every other order of what the tasks and the engine do. No order ends
  in another report, none gets stuck before there is one, and none goes on for ever.
-/

namespace OffsetCommit.Simulation

variable {chance : Chance} {s : Settings} {pl : Pipeline}

/-! ### One dispatch after the other -/

/-- When each dispatch ends before the next record is read, as in `State.readAll`, all records are
`Accounted` for at the end, and none was refused. -/
theorem exists_accounted_readAll (hstart : begin s = .ok pl) (rest : List Record) :
    ∀ (n : Nat) (st : State) (actions : List PipelineAction), st.pipeline = pl.run actions →
      st.refused = 0 → Accounted s pl actions ((rest.zipIdx n).map (dispatchOf chance s)) [] →
      ∃ actions', (st.readAll chance s n rest).pipeline = pl.run actions' ∧
        (st.readAll chance s n rest).refused = 0 ∧ Accounted s pl actions' [] [] := by
  induction rest with
  | nil => exact fun _ _ actions hpipeline hrefused h => ⟨actions, hpipeline, hrefused, h⟩
  | cons r rest ih =>
      intro n st actions hpipeline hrefused h
      rw [List.zipIdx_cons, List.map_cons] at h
      have hread : pl.run (actions ++ [.receive (dispatchOf chance s (r, n)).record]) =
          (st.read r).pipeline := by
        rw [Pipeline.run_append, ← hpipeline]
        rfl
      have hreceived : Accounted s pl _ _ ([] ++ dispatchOf chance s (r, n) :: []) :=
        h.receive hstart
      obtain ⟨⟨answer, hanswer⟩, haccounted⟩ := hreceived.resolve hstart
      rw [hread] at hanswer
      refine ih (n + 1) _ _ ?_ ((refused_dispatch hanswer).trans hrefused) haccounted
      rw [pipeline_dispatch, Pipeline.run_append, hread]
      rfl

/-- Closing is a run of `closed actions after`, after which the engine has been left alone. -/
theorem exists_engine_close (pl : Pipeline) (actions : List PipelineAction) :
    ∃ after, (∀ a ∈ after, a.isInternal = true) ∧
      (pl.run actions).close.engine = (pl.run (closed actions after)).engine := by
  obtain ⟨after, hinternal, hawait⟩ := Engine.runsTo_await
    (fun e => e.hasReturned (pl.run actions).beginClose.1) (pl.run actions).beginClose.2.2.engine
  refine ⟨after, hinternal, hawait.trans ?_⟩
  rw [closed, Pipeline.run_append, Pipeline.run_cons, Pipeline.run_cons, Pipeline.run_map_engine]
  rfl

/-- A run of the simulation reads all records, lets each dispatch end, and reports. -/
theorem run_eq_ok (hstart : begin s = .ok pl) :
    run chance s = .ok ((State.readAll chance s ⟨pl, 0⟩ 0 (records s)).report s) := by
  rw [run, start_eq_map_begin, hstart]
  rfl

/-- **The report of one dispatch after the other is exact**: `run chance s` gives a report that
`IsExact` for the settings. -/
theorem exists_run (hchance : chance.IsSettled) (hs : s.IsCertain) :
    ∃ r, run chance s = .ok r ∧ r.IsExact s := by
  obtain ⟨pl, hstart⟩ := exists_begin hs.threshold
  obtain ⟨actions, hpipeline, hrefused, h⟩ := exists_accounted_readAll hstart (records s) 0 ⟨pl, 0⟩ []
    rfl rfl (accounted_begin hchance hs hstart)
  refine ⟨_, run_eq_ok hstart, ?_⟩
  generalize State.readAll chance s ⟨pl, 0⟩ 0 (records s) = st at hpipeline hrefused ⊢
  obtain ⟨after, hafter, hclose⟩ := exists_engine_close pl actions
  have hstopped : (pl.run actions).close.engine.stage = .stopped :=
    Engine.stopped_of_close h.uniform.sound h.uniform.closing (attended_run hstart actions)
      h.listening.serving
  rw [State.report, hrefused, hpipeline, hclose]
  exact h.isExact hs hstart hafter (hclose ▸ hstopped)

/-! ### The program -/

/-- **The report is exact, whatever happens first.** Let every rate of the settings that `arguments`
ask for be zero or one, and let the source of chance be any that never comes true at rate zero and always
does at rate one. Then every record is a success or none is, and `execute chance arguments` ends with
exit code zero and the lines `options.settings.lines commits`: a row with the same figures for each
partition and the number of folded records. However the tasks and the engine take turns, any
`Tasks.ending?` is such an ending, some step is possible as long as there is none, and at most
`options.settings.mostSteps` steps are, apart from those that let time pass. -/
theorem report_is_exact {chance : Chance} (hchance : chance.IsSettled) {arguments : List String}
    {options : CommandLine.Options}
    (hread : CommandLine.read arguments = .ok (.simulate options))
    (hrecords : options.settings.partitions * options.settings.records < UInt64.size)
    (hthreshold : 0 < options.settings.shrinkThreshold)
    (hrates : options.settings.HasCertainRates) :
    (∀ n, (outcome chance options.settings n).attemptsCommit = options.settings.succeeds) ∧
    (∃ commits, CommandLine.execute chance arguments =
      ⟨0, options.settings.lines commits, none⟩) ∧
    ∃ first, Tasks.start chance options.settings = .ok first ∧
      ∀ steps last, first.run? steps = some last →
        (∀ ending, last.ending? options.settings = some ending →
          ∃ commits, ending = ⟨0, options.settings.lines commits, none⟩) ∧
        (last.ending? options.settings = none →
          ∃ a : Step, a.isPass = false ∧ (last.step? a).isSome = true) ∧
        (steps.countP fun a => !a.isPass) ≤ options.settings.mostSteps := by
  have hs : options.settings.IsCertain :=
    ⟨hrates, (CommandLine.inRange_of_read hread).partitions, hrecords, hthreshold⟩
  refine ⟨hrates.attemptsCommit_outcome hchance, ?_, ?_⟩
  · obtain ⟨r, hrun, hexact⟩ := exists_run hchance hs
    rw [CommandLine.execute, hread]
    show ∃ commits, CommandLine.simulate chance options.settings = _
    rw [CommandLine.simulate, hrun]
    exact hexact.ending hrates
  · obtain ⟨pl, hstart⟩ := exists_begin hthreshold
    refine ⟨.initial chance options.settings pl, Tasks.start_eq chance hstart,
      fun steps last hrun => ?_⟩
    have hkept := (kept_initial hchance hs hstart).run hstart hrun
    refine ⟨fun ending hending => ?_, fun hnone => ?_, ?_⟩
    · obtain ⟨r, hreport, rfl⟩ := Option.map_eq_some_iff.mp hending
      exact (hkept.isExact hs hstart hreport).ending hrates
    · exact hkept.exists_step hstart (Option.map_eq_none_iff.mp hnone)
    · have hwork := (kept_initial hchance hs hstart).work_run hstart hrun
      rw [work_initial chance hstart] at hwork
      exact (Nat.le_add_left _ _).trans hwork

/-- Two partitions of two records, all of which the dead-letter sink accepts. The dispatch that begins
first ends last, and a run of the tasks in that order ends with the same figures. -/
theorem report_is_exact_in_reverse :
    let arguments := ["--partitions=2", "--records", "2", "--topic=t", "--dead-letter-rate=1",
      "--dead-letter-fail-rate=0", "--discard-rate=0", "--max-delay-ms=5"]
    let s : Settings :=
      { topic := "t"
        partitions := 2
        records := 2
        seed := 42
        deadLetterRate := .ofNat 1
        deadLetterFailRate := .zero
        discardRate := .zero
        commitFailRate := .zero
        shrinkThreshold := 128 }
    let steps : List Step :=
      [.read, .read, .read, .read, .report 3, .report 2, .report 1, .report 0, .move .take,
        .move .take, .move (.work 0), .move (.work 0), .pass 3, .move (.work 1), .move (.work 1),
        .finish 1, .finish 0, .close, .move .take, .move .take, .move .take, .move (.work 0),
        .move (.work 1), .move .collect, .move .collect, .move .stop]
    s.succeeds = true ∧ s.figures = (2, 0) ∧ s.folded = 4 ∧
      (∃ commits, CommandLine.execute .ofDraws arguments = ⟨0, s.lines commits, none⟩) ∧
      ∃ first last, Tasks.start .ofDraws s = .ok first ∧ first.run? steps = some last ∧
        ∃ commits, last.ending? s = some ⟨0, s.lines commits, none⟩ := by
  intro arguments s steps
  let options : CommandLine.Options := ⟨s, 5, .info⟩
  have hread : CommandLine.read arguments = .ok (.simulate options) := by decide +kernel
  have hrates : s.HasCertainRates :=
    ⟨.inr (by decide +kernel), .inl (by decide +kernel), .inl (by decide +kernel),
      .inl (by decide +kernel)⟩
  obtain ⟨-, hexecute, first, hstart, hruns⟩ :=
    report_is_exact Chance.isSettled_ofDraws hread (by decide) (show 0 < 128 by decide) hrates
  have hfirst : Tasks.start .ofDraws s = .ok first := hstart
  have hends : ((Tasks.start .ofDraws s).toOption.bind fun t => (t.run? steps).bind (·.ending? s)).isSome =
      true := by decide +kernel
  rw [hfirst] at hends
  obtain ⟨ending, hending⟩ := Option.isSome_iff_exists.mp hends
  obtain ⟨t, hsome, hrest⟩ := Option.bind_eq_some_iff.mp hending
  obtain rfl := Option.some.inj hsome
  obtain ⟨last, hrun, hlast⟩ := Option.bind_eq_some_iff.mp hrest
  obtain ⟨commits, rfl⟩ := (hruns steps last hrun).1 ending hlast
  exact ⟨by decide +kernel, by decide +kernel, by decide +kernel, hexecute, first, last, hfirst, hrun,
    commits, hlast⟩

end OffsetCommit.Simulation
