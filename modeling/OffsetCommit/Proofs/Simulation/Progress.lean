import OffsetCommit.Proofs.Simulation.Exactness

/-!
# Runs of a simulation

Whatever happens to a simulation with tasks, it is at work (`Working`) or it is being closed
(`Finishing`), and its pipeline has made a run that accounts for all records. Both together are
`Kept`.

* `Kept.step`, `Kept.run`: every step preserves it.
* `Kept.isExact`: so the report is exact once there is one.
* `Kept.exists_step`: until then some step is possible, as a task that waits for a commit, or the
  caller who closes, keeps the engine moving.
* `Kept.work_step`, `Kept.work_run`: every step but the passing of time uses up some of what is
  left to do.
-/

namespace OffsetCommit.Simulation

variable {s : Settings} {pl : Pipeline} {t t' : Tasks}

/-! ### What a step needs and does -/

/-- What a possible step needs and what it leads to: one case for each `Step`, as `step?` has it. -/
inductive Tasks.Takes (t : Tasks) : Step → Tasks → Prop where
  /-- A record is left to read. -/
  | read {d : Dispatch} {rest : List Dispatch} (unread : t.unread = d :: rest) :
      t.Takes .read
        { t with
          toState := t.toState.read d.record
          unread := rest
          dispatching := t.dispatching ++ [d] }
  /-- The task has its dispatch under way. -/
  | report {place : Nat} {d : Dispatch} (dispatching : t.dispatching[place]? = some d) :
      t.Takes (.report place)
        { t with
          toState := t.toState.dispatch d.record d.outcome
          dispatching := t.dispatching.eraseIdx place
          waiting := t.waiting ++ (t.receipt? d).toList }
  /-- The commit that the task waits for has ended. -/
  | finish {place : Nat} {r : Receipt} (waiting : t.waiting[place]? = some r)
      (ended : (t.pipeline.engine.status? r.ticket).isSome = true) :
      t.Takes (.finish place) { t with waiting := t.waiting.eraseIdx place }
  /-- The engine can make the move. -/
  | move {move : Move} (possible : t.pipeline.engine.isPossible move = true) :
      t.Takes (.move move) (t.onPipeline (·.onEngine (·.make move)))
  /-- Time passes anyhow. -/
  | pass {time : Nat} : t.Takes (.pass time) (t.onPipeline (·.onEngine (·.passTo time)))
  /-- All tasks have ended, and the close has not begun. -/
  | close (idle : t.isIdle = true) (closing : t.closing = none) :
      t.Takes .close
        { t with
          pipeline := t.pipeline.beginClose.2.2
          closing := some ⟨t.pipeline.coordinator, t.pipeline.beginClose.1⟩ }

/-- **A step that is possible does what it is for**: `t.step? a = some t'` gives `t.Takes a t'`. -/
theorem Tasks.takes_of_step? {a : Step} (h : t.step? a = some t') : t.Takes a t' := by
  cases a with
  | read =>
      rw [Tasks.step?] at h
      rcases hunread : t.unread with _ | ⟨d, rest⟩
      · rw [hunread] at h
        cases h
      · rw [hunread] at h
        obtain rfl := Option.some.inj h
        exact .read hunread
  | report place =>
      obtain ⟨d, hd, rfl⟩ := Option.map_eq_some_iff.mp h
      exact .report hd
  | finish place =>
      rw [Tasks.step?, Option.ite_none_right_eq_some] at h
      obtain ⟨hended, heq⟩ := h
      obtain rfl := Option.some.inj heq
      obtain ⟨r, hr, hstatus⟩ := (Option.any_eq_true _ _).mp hended
      exact .finish hr hstatus
  | move move =>
      obtain ⟨e, he, rfl⟩ := Option.map_eq_some_iff.mp h
      rw [Engine.perform, Option.ite_none_right_eq_some] at he
      obtain ⟨hpossible, heq⟩ := he
      obtain rfl := Option.some.inj heq
      exact .move hpossible
  | pass time =>
      obtain rfl := Option.some.inj h
      exact .pass
  | close =>
      rw [Tasks.step?, Option.ite_none_right_eq_some, Bool.and_eq_true, Option.isNone_iff_eq_none] at h
      obtain ⟨⟨hidle, hclosing⟩, heq⟩ := h
      obtain rfl := Option.some.inj heq
      exact .close hidle hclosing

/-! ### At work -/

/-- The invariant of a simulation whose tasks are at work: it is `Accounted`, and `issued` receipts
are waited for. -/
structure Working (s : Settings) (pl : Pipeline) (actions : List PipelineAction) (t : Tasks) :
    Prop where
  /-- The pipeline has made a run. -/
  pipeline : t.pipeline = pl.run actions
  /-- All records are accounted for. -/
  accounted : Accounted s pl actions t.unread t.dispatching
  /-- No notification was refused. -/
  refused : t.refused = 0
  /-- What tasks wait for has been issued. -/
  issued : ∀ r ∈ t.waiting, r.ticket < t.pipeline.engine.tickets.size
  /-- The close has not begun. -/
  closing : t.closing = none

/-- The invariant of a simulation that is being closed: the engine is left alone with the shutdown. -/
structure Finishing (s : Settings) (pl : Pipeline) (actions : List PipelineAction)
    (after : List EngineAction) (t : Tasks) : Prop where
  /-- The pipeline has made a run that closes it. -/
  pipeline : t.pipeline = pl.run (closed actions after)
  /-- All records are accounted for. -/
  accounted : Accounted s pl actions [] []
  /-- The engine has been left alone. -/
  alone : ∀ a ∈ after, a.isInternal = true
  /-- No notification was refused. -/
  refused : t.refused = 0
  /-- There is nothing left to read and no task. -/
  idle : t.unread = [] ∧ t.dispatching = [] ∧ t.waiting = []
  /-- The trackers are kept as they were before the close. -/
  closing : t.closing = some ⟨(pl.run actions).coordinator, (pl.run actions).beginClose.1⟩

/-- The invariant of a simulation with tasks: it is `Working` or `Finishing`. -/
def Kept (s : Settings) (pl : Pipeline) (t : Tasks) : Prop :=
  (∃ actions, Working s pl actions t) ∨ ∃ actions after, Finishing s pl actions after t

/-- A simulation with tasks as it is started. -/
def Tasks.initial (chance : Chance) (s : Settings) (pl : Pipeline) : Tasks :=
  ⟨⟨pl, 0⟩, dispatches chance s, [], [], none⟩

/-- The tasks start with `Tasks.initial` on the pipeline of `begin`. -/
theorem Tasks.start_eq (chance : Chance) (hstart : begin s = .ok pl) :
    Tasks.start chance s = .ok (.initial chance s pl) := by
  rw [Tasks.start, start_eq_map_begin, hstart]
  rfl

/-- At the start, where no action has been taken, `Kept` holds. -/
theorem kept_initial {chance : Chance} (hchance : chance.IsSettled) (hs : s.IsCertain)
    (hstart : begin s = .ok pl) : Kept s pl (.initial chance s pl) :=
  .inl ⟨[], rfl, accounted_begin hchance hs hstart, rfl, fun _ hr => (List.not_mem_nil hr).elim, rfl⟩

variable {actions : List PipelineAction} {after : List EngineAction}

/-- Reading the next record keeps a simulation at work. -/
theorem Working.read (hstart : begin s = .ok pl) (h : Working s pl actions t) {d : Dispatch}
    {rest : List Dispatch} (hunread : t.unread = d :: rest) :
    Working s pl (actions ++ [.receive d.record])
      { t with
        toState := t.toState.read d.record
        unread := rest
        dispatching := t.dispatching ++ [d] } where
  pipeline := by
    rw [Pipeline.run_append, ← h.pipeline]
    rfl
  accounted := (hunread ▸ h.accounted).receive hstart
  refused := h.refused
  issued := h.issued
  closing := h.closing

/-- The pipeline after a dispatch is the one after its notification. -/
theorem pipeline_dispatch (st : State) (r : Record) (outcome : Outcome) :
    (st.dispatch r outcome).pipeline = (st.pipeline.resolve r outcome).2 := by
  unfold State.dispatch
  rcases st.pipeline.resolve r outcome with ⟨_ | _, pipeline⟩ <;> rfl

/-- A notification that is not refused is not counted as refused. -/
theorem refused_dispatch {st : State} {r : Record} {outcome : Outcome} {answer : Option Receipt}
    (h : (st.pipeline.resolve r outcome).1 = .ok answer) :
    (st.dispatch r outcome).refused = st.refused := by
  unfold State.dispatch
  rcases hresolve : st.pipeline.resolve r outcome with ⟨answer', pipeline⟩
  rw [hresolve] at h
  obtain rfl : answer' = .ok answer := h
  rfl

/-- A notification adds to the tickets, and a receipt that it gives is among them. -/
theorem tickets_of_resolve (st : State) (d : Dispatch) :
    st.pipeline.engine.tickets.size ≤
        (st.pipeline.resolve d.record d.outcome).2.engine.tickets.size ∧
      ∀ r ∈ (st.receipt? d).toList,
        r.ticket < (st.pipeline.resolve d.record d.outcome).2.engine.tickets.size := by
  unfold State.receipt?
  rcases ht : st.pipeline.coordinator.trackers[d.record.partition]? with _ | tracker
  · obtain ⟨hanswer, -, hengine⟩ := Pipeline.resolve_of_untracked ht d.outcome
    rw [hanswer, hengine]
    exact ⟨le_rfl, by simp⟩
  · rcases hnotify : (tracker.notify ⟨d.record.offset, d.outcome⟩).1 with _ | advance
    · obtain ⟨hanswer, hengine, -⟩ := Pipeline.resolve_of_incomplete ht hnotify
      rw [hanswer, hengine]
      exact ⟨le_rfl, by simp⟩
    · obtain ⟨hanswer, hengine, -⟩ := Pipeline.resolve_of_complete ht hnotify
      obtain ⟨status, htickets⟩ := st.pipeline.engine.tickets_submit d.record.partition
        advance.offset advance.count
      rw [hanswer, hengine, htickets, Array.size_push]
      exact ⟨Nat.le_succ _, by simp⟩

/-- The end of a dispatch keeps a simulation at work, with one more task that waits if there is a
receipt. -/
theorem Working.report (hstart : begin s = .ok pl) (h : Working s pl actions t) {place : Nat}
    {d : Dispatch} (hd : t.dispatching[place]? = some d) :
    Working s pl (actions ++ [.resolve d.record d.outcome])
      { t with
        toState := t.toState.dispatch d.record d.outcome
        dispatching := t.dispatching.eraseIdx place
        waiting := t.waiting ++ (t.receipt? d).toList } := by
  obtain ⟨hlt, hget⟩ := List.getElem?_eq_some_iff.mp hd
  have hsplit : t.dispatching = t.dispatching.take place ++ d :: t.dispatching.drop (place + 1) := by
    rw [← hget, ← List.drop_eq_getElem_cons, List.take_append_drop]
  obtain ⟨⟨answer, hanswer⟩, haccounted⟩ := (hsplit ▸ h.accounted).resolve hstart
  rw [← h.pipeline] at hanswer
  obtain ⟨hsize, hreceipt⟩ := tickets_of_resolve t.toState d
  constructor
  case pipeline =>
    rw [Pipeline.run_append, ← h.pipeline]
    exact pipeline_dispatch t.toState d.record d.outcome
  case accounted =>
    show Accounted s pl _ t.unread (t.dispatching.eraseIdx place)
    rw [List.eraseIdx_eq_take_drop_succ]
    exact haccounted
  case refused =>
    exact (refused_dispatch hanswer).trans h.refused
  case issued =>
    intro r hr
    show r.ticket < (t.toState.dispatch d.record d.outcome).pipeline.engine.tickets.size
    rw [pipeline_dispatch]
    rcases List.mem_append.mp hr with hr | hr
    · exact (h.issued r hr).trans_le hsize
    · exact hreceipt r hr
  case closing =>
    exact h.closing

/-- The end of a task that waited keeps a simulation at work. -/
theorem Working.finish (h : Working s pl actions t) (place : Nat) :
    Working s pl actions { t with waiting := t.waiting.eraseIdx place } :=
  ⟨h.pipeline, h.accounted, h.refused,
    fun r hr => h.issued r (List.mem_of_mem_eraseIdx hr), h.closing⟩

/-- What the engine does by itself keeps a simulation at work. -/
theorem Working.engine (h : Working s pl actions t) {a : EngineAction} (ha : a.isInternal = true) :
    Working s pl (actions ++ [.engine a]) (t.onPipeline (·.onEngine (·.act a))) where
  pipeline := by
    rw [Pipeline.run_append, ← h.pipeline]
    rfl
  accounted := h.accounted.engine ha
  refused := h.refused
  issued r hr := by
    have hsize : (t.pipeline.engine.act a).tickets.size = t.pipeline.engine.tickets.size := by
      refine Engine.size_act (h.pipeline ▸ h.accounted.uniform.sound) ?_
      rintro p o count rfl
      cases ha
    exact hsize ▸ h.issued r hr
  closing := h.closing

/-- When a simulation is idle, its close begins: it is `Finishing`. -/
theorem Working.close (h : Working s pl actions t) (hidle : t.isIdle = true) :
    Finishing s pl actions []
      { t with
        pipeline := t.pipeline.beginClose.2.2
        closing := some ⟨t.pipeline.coordinator, t.pipeline.beginClose.1⟩ } := by
  simp only [Tasks.isIdle, Bool.and_eq_true, List.isEmpty_iff] at hidle
  obtain ⟨⟨hunread, hdispatching⟩, hwaiting⟩ := hidle
  have haccounted := h.accounted
  rw [hunread, hdispatching] at haccounted
  refine ⟨?_, haccounted, by simp, h.refused, ⟨hunread, hdispatching, hwaiting⟩, ?_⟩
  · rw [closed, Pipeline.run_append, ← h.pipeline]
    rfl
  · rw [h.pipeline]

/-- What the engine does by itself keeps a simulation that is being closed so. -/
theorem Finishing.engine (h : Finishing s pl actions after t) {a : EngineAction}
    (ha : a.isInternal = true) :
    Finishing s pl actions (after ++ [a]) (t.onPipeline (·.onEngine (·.act a))) where
  pipeline := by
    have hsplit : closed actions (after ++ [a]) = closed actions after ++ [.engine a] := by
      simp [closed]
    rw [hsplit, Pipeline.run_append, ← h.pipeline]
    rfl
  accounted := h.accounted
  alone x hx := by
    rcases List.mem_append.mp hx with hx | hx
    · exact h.alone x hx
    · rw [List.mem_singleton.mp hx]
      exact ha
  refused := h.refused
  idle := h.idle
  closing := h.closing

/-- What the engine does by itself preserves `Kept`. -/
theorem Kept.engine (h : Kept s pl t) {a : EngineAction} (ha : a.isInternal = true) :
    Kept s pl (t.onPipeline (·.onEngine (·.act a))) := by
  rcases h with ⟨actions, h⟩ | ⟨actions, after, h⟩
  · exact .inl ⟨_, h.engine ha⟩
  · exact .inr ⟨_, _, h.engine ha⟩

/-- **Every step is kept account of**: a possible step preserves `Kept`. -/
theorem Kept.step (hstart : begin s = .ok pl) (h : Kept s pl t) {a : Step}
    (hstep : t.step? a = some t') : Kept s pl t' := by
  cases Tasks.takes_of_step? hstep with
  | read hunread =>
      rcases h with ⟨actions, h⟩ | ⟨actions, after, h⟩
      · exact .inl ⟨_, h.read hstart hunread⟩
      · rw [h.idle.1] at hunread
        cases hunread
  | report hd =>
      rcases h with ⟨actions, h⟩ | ⟨actions, after, h⟩
      · exact .inl ⟨_, h.report hstart hd⟩
      · rw [h.idle.2.1] at hd
        cases hd
  | finish hr _ =>
      rcases h with ⟨actions, h⟩ | ⟨actions, after, h⟩
      · exact .inl ⟨_, h.finish _⟩
      · rw [h.idle.2.2] at hr
        cases hr
  | @move move hpossible =>
      have hmade := h.engine (a := .move move) rfl
      simp only [Engine.act_move_of_isPossible hpossible, Tasks.onPipeline, Pipeline.onEngine]
        at hmade
      exact hmade
  | @pass time => exact h.engine (a := .passTo time) rfl
  | close hidle hclosing =>
      rcases h with ⟨actions, h⟩ | ⟨actions, after, h⟩
      · exact .inr ⟨actions, [], h.close hidle⟩
      · rw [h.closing] at hclosing
        cases hclosing

/-- Every sequence of possible steps preserves `Kept`. -/
theorem Kept.run (hstart : begin s = .ok pl) (h : Kept s pl t) {steps : List Step}
    (hrun : t.run? steps = some t') : Kept s pl t' := by
  induction steps generalizing t with
  | nil => exact Option.some.inj hrun ▸ h
  | cons a rest ih =>
      obtain ⟨t'', hstep, hrest⟩ := Option.bind_eq_some_iff.mp hrun
      exact ih (h.step hstart hstep) hrest

/-! ### The report -/

/-- The engine of a run of the pipeline is `Attended`. -/
theorem attended_run (hstart : begin s = .ok pl) (actions : List PipelineAction) :
    (pl.run actions).engine.Attended := by
  rw [Pipeline.engine_run, Pipeline.engine_start hstart]
  exact (Engine.attended_start _ _).run _

/-- The caller who closes has not been answered, or has been and the engine has stopped. -/
theorem Finishing.callers (h : Finishing s pl actions after t) :
    t.pipeline.engine.callers[(pl.run actions).beginClose.1]? = some false ∨
      t.pipeline.engine.callers[(pl.run actions).beginClose.1]? = some true ∧
        t.pipeline.engine.stage = .stopped := by
  obtain ⟨-, hlistening⟩ := run_revoke_uniform h.accounted.uniform h.accounted.listening
    (pl.run actions).coordinator.tracked
  have hcaller : (pl.run actions).beginClose.1 = ((pl.run actions).engine.run
      ((pl.run actions).coordinator.tracked.map .revoke)).callers.size := by
    show ((pl.run actions).act .revokeAll).engine.callers.size = _
    rw [Pipeline.engine_act]
    rfl
  rw [h.pipeline, engine_run_closed, hcaller]
  exact Engine.callers_run (Engine.callers_shutdown hlistening.serving) after

/-- **Once there is a report it is exact**: `t.report? s = some r` gives `r.IsExact s`. -/
theorem Kept.isExact (hs : s.IsCertain) (hstart : begin s = .ok pl) (h : Kept s pl t) {r : Report}
    (hreport : t.report? s = some r) : r.IsExact s := by
  obtain ⟨c, hc, rfl⟩ := Option.map_eq_some_iff.mp hreport
  obtain ⟨hclosing, hreturned⟩ := Option.filter_eq_some_iff.mp hc
  rcases h with ⟨actions, h⟩ | ⟨actions, after, h⟩
  · rw [h.closing] at hclosing
    cases hclosing
  · obtain rfl := Option.some.inj (h.closing.symm.trans hclosing)
    have hstopped : t.pipeline.engine.stage = .stopped := by
      rcases h.callers with hwaits | ⟨-, hstopped⟩
      · simp [Engine.hasReturned, hwaits] at hreturned
      · exact hstopped
    rw [h.refused, h.pipeline]
    exact h.accounted.isExact hs hstart h.alone (h.pipeline ▸ hstopped)

/-! ### Progress -/

/-- A possible move of the engine is a step of the simulation. -/
theorem exists_step_of_move {move : Move} (h : t.pipeline.engine.isPossible move = true) :
    ∃ a : Step, a.isPass = false ∧ (t.step? a).isSome = true := by
  refine ⟨.move move, rfl, ?_⟩
  rw [Tasks.step?, Engine.perform, if_pos h]
  rfl

/-- **Nothing gets stuck**: as long as there is no report, some step other than the passing of time
is possible. -/
theorem Kept.exists_step (hstart : begin s = .ok pl) (h : Kept s pl t)
    (hreport : t.report? s = none) : ∃ a : Step, a.isPass = false ∧ (t.step? a).isSome = true := by
  rcases h with ⟨actions, h⟩ | ⟨actions, after, h⟩
  · rcases hunread : t.unread with _ | ⟨d, rest⟩
    swap
    · exact ⟨.read, rfl, by rw [Tasks.step?, hunread]; rfl⟩
    rcases hdispatching : t.dispatching with _ | ⟨d, rest⟩
    swap
    · exact ⟨.report 0, rfl, by rw [Tasks.step?, hdispatching]; rfl⟩
    rcases hwaiting : t.waiting with _ | ⟨r, rest⟩
    · refine ⟨.close, rfl, ?_⟩
      rw [Tasks.step?, Tasks.isIdle, hunread, hdispatching, hwaiting, h.closing]
      rfl
    · rcases hstatus : t.pipeline.engine.status? r.ticket with _ | status
      · have hissued := h.issued r (by simp [hwaiting])
        have huniform : t.pipeline.engine.Uniform s.rejects := h.pipeline ▸ h.accounted.uniform
        obtain ⟨move, hmove⟩ := huniform.exists_move hissued hstatus
        exact exists_step_of_move hmove
      · refine ⟨.finish 0, rfl, ?_⟩
        rw [Tasks.step?, hwaiting]
        simp [hstatus]
  · have hwaits : t.pipeline.engine.hasReturned (pl.run actions).beginClose.1 = false := by
      rw [Tasks.report?, h.closing] at hreport
      simpa using hreport
    have hcaller : (pl.run actions).beginClose.1 < t.pipeline.engine.callers.size := by
      rcases h.callers with hc | ⟨hc, -⟩
      · exact (Array.getElem?_eq_some_iff.mp hc).1
      · exact (Array.getElem?_eq_some_iff.mp hc).1
    have huniform : t.pipeline.engine.Uniform s.rejects :=
      h.pipeline ▸ h.accounted.uniform_closed h.alone
    have hattended : t.pipeline.engine.Attended := h.pipeline ▸ attended_run hstart _
    obtain ⟨move, hmove⟩ := huniform.exists_move_of_caller hattended hcaller hwaits
    exact exists_step_of_move hmove

/-! ### How long a run can be -/

/-- What is left to do about the close: one move for each partition, one for the shutdown, and the
step itself. -/
def closeWork (s : Settings) : Option Closing → Nat
  | none => s.partitions + 2
  | some _ => 0

/-- The steps that a simulation can still make, without those that let time pass: nine for a record
that has not been read, of which seven are for the commit of its notification. -/
def Tasks.work (s : Settings) (t : Tasks) : Nat :=
  9 * t.unread.length + 8 * t.dispatching.length + t.waiting.length + t.pipeline.engine.work
    + closeWork s t.closing

/-- The most steps of a simulation. -/
def Settings.mostSteps (s : Settings) : Nat :=
  9 * (s.partitions * s.records) + s.partitions + 4

/-- A notification costs at most the six moves for one commit. -/
theorem work_dispatch_le (st : State) (d : Dispatch) :
    (st.dispatch d.record d.outcome).pipeline.engine.work ≤ st.pipeline.engine.work + 6 := by
  rw [pipeline_dispatch]
  rcases st.pipeline.engine_resolve_cases d.record d.outcome with heq | ⟨o, count, heq⟩
  · exact heq ▸ Nat.le_add_right _ _
  · exact heq ▸ st.pipeline.engine.work_submit_le _ _ _

/-- Only partitions that are read are tracked, each once. -/
theorem Accounted.length_tracked_le (hstart : begin s = .ok pl) {unread opened : List Dispatch}
    (h : Accounted s pl actions unread opened) :
    (pl.run actions).coordinator.tracked.length ≤ s.partitions := by
  have hlength : (keys s).length = s.partitions := by
    rw [keys, List.length_map, List.length_range]
  rw [← hlength]
  refine (List.subperm_of_subset Std.ExtTreeMap.nodup_keys fun p hp => ?_).length_le
  by_contra hother
  have huntracked := (Pipeline.tells_run hstart actions p).untracked (by
    rw [h.elsewhere p hother]
    rfl)
  have htracked := Std.ExtTreeMap.mem_iff_isSome_getElem?.mp (Std.ExtTreeMap.mem_keys.mp hp)
  rw [huntracked] at htracked
  cases htracked

/-- To close takes at most one move for each partition and one for the shutdown. -/
theorem Working.work_close (hstart : begin s = .ok pl) (h : Working s pl actions t) :
    t.pipeline.beginClose.2.2.engine.work ≤ t.pipeline.engine.work + s.partitions + 1 := by
  have htracked := h.accounted.length_tracked_le hstart
  have hbegin : t.pipeline.beginClose.2.2.engine =
      (t.pipeline.engine.run (t.pipeline.coordinator.tracked.map .revoke)).shutdown := by
    show Engine.shutdown (t.pipeline.act .revokeAll).engine = _
    rw [Pipeline.engine_act]
    rfl
  have hrevoke := t.pipeline.engine.work_run_revoke_le t.pipeline.coordinator.tracked
  have hshutdown := (t.pipeline.engine.run
    (t.pipeline.coordinator.tracked.map .revoke)).work_shutdown_le
  rw [← h.pipeline] at htracked
  rw [hbegin]
  omega

/-- **Every step uses up work**, unless only time passes. -/
theorem Kept.work_step (hstart : begin s = .ok pl) (h : Kept s pl t) {a : Step}
    (hstep : t.step? a = some t') : t'.work s + (if a.isPass then 0 else 1) ≤ t.work s := by
  unfold Tasks.work
  cases Tasks.takes_of_step? hstep with
  | @read d rest hunread =>
      have hengine : (t.toState.read d.record).pipeline.engine = t.pipeline.engine := rfl
      simp only [hunread, hengine, List.length_append, List.length_cons, List.length_nil,
        Step.isPass, Bool.false_eq_true, if_false]
      omega
  | @report place d hd =>
      obtain ⟨hlt, -⟩ := List.getElem?_eq_some_iff.mp hd
      have hreceipt : (t.receipt? d).toList.length ≤ 1 := by
        rcases t.receipt? d with _ | r <;> simp
      have hdispatch := work_dispatch_le t.toState d
      simp only [List.length_append, List.length_eraseIdx_of_lt hlt, Step.isPass,
        Bool.false_eq_true, if_false]
      omega
  | finish hr _ =>
      obtain ⟨hlt, -⟩ := List.getElem?_eq_some_iff.mp hr
      simp only [List.length_eraseIdx_of_lt hlt, Step.isPass, Bool.false_eq_true, if_false]
      omega
  | move hpossible =>
      have hlt := Engine.work_make_lt hpossible
      simp only [Tasks.onPipeline, Pipeline.onEngine, Step.isPass, Bool.false_eq_true, if_false]
      omega
  | @pass time =>
      have hwork : (t.pipeline.engine.passTo time).work = t.pipeline.engine.work :=
        Engine.work_congr rfl rfl rfl rfl
      simp only [Tasks.onPipeline, Pipeline.onEngine, hwork, Step.isPass, if_true]
      omega
  | close _ hclosing =>
      rcases h with ⟨actions, h⟩ | ⟨actions, after, h⟩
      · have hclose := h.work_close hstart
        rw [h.closing]
        show 9 * t.unread.length + 8 * t.dispatching.length + t.waiting.length +
          t.pipeline.beginClose.2.2.engine.work + 0 + 1 ≤ _ + (s.partitions + 2)
        omega
      · rw [h.closing] at hclosing
        cases hclosing

/-- Each of several steps that is no `.pass` uses up one unit of `work`. -/
theorem Kept.work_run (hstart : begin s = .ok pl) (h : Kept s pl t) {steps : List Step}
    (hrun : t.run? steps = some t') :
    t'.work s + (steps.countP fun a => !a.isPass) ≤ t.work s := by
  induction steps generalizing t with
  | nil => exact Option.some.inj hrun ▸ Nat.le_refl _
  | cons a rest ih =>
      obtain ⟨t'', hstep, hrest⟩ := Option.bind_eq_some_iff.mp hrun
      have hfirst := h.work_step hstart hstep
      have hlater := ih (h.step hstart hstep) hrest
      have hcount : (if (!a.isPass) = true then 1 else 0) = if a.isPass then 0 else 1 := by
        cases a.isPass <;> rfl
      rw [List.countP_cons, hcount]
      omega

/-- The work of the simulation at the start is `s.mostSteps`. -/
theorem work_initial (chance : Chance) (hstart : begin s = .ok pl) :
    (Tasks.initial chance s pl).work s = s.mostSteps := by
  have hrecords : (dispatches chance s).length = s.partitions * s.records := by
    rw [dispatches, List.length_map, List.length_zipIdx, records, List.length_flatMap]
    simp only [List.length_map, keys, List.length_range, List.map_const', List.sum_replicate_nat]
    exact Nat.mul_comm _ _
  have hengine : pl.engine.work = 2 := by
    rw [Pipeline.engine_start hstart]
    rfl
  rw [Tasks.work, Tasks.initial, hrecords, hengine, Settings.mostSteps]
  simp only [List.length_nil, closeWork]
  omega

end OffsetCommit.Simulation
