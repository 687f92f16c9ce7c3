import OffsetCommit.Proofs.Engine.Observer
import OffsetCommit.Proofs.Engine.Work
import OffsetCommit.Proofs.Pipeline.Receipts
import OffsetCommit.Session.Play

/-!
# Sessions are runs

A session does nothing to its pipeline that a run could not do, so what holds along every run holds
of a session at all times.

* `Session.reaches_playAll`: the steps of a session lead to a pipeline that a run leads to, what
  was reported aside (`Pipeline.Reaches`). It is proved call by call (`reaches_enact`) and step by
  step (`reaches_perform`).
* `Session.exists_engine_actions`: after any steps the engine is `(Engine.start setup broker).run
  actions` for some `actions`, and its `setup` is the one it began with (`setup_playAll`).
* `Session.isSettled_playAll`: between two steps no move is possible.
-/

namespace OffsetCommit

namespace Pipeline

/-- What was reported so far has no bearing on what an action does: pipelines with the same
coordinator and engine have the same after `act a`. -/
theorem act_congr {pl pl' : Pipeline} (hcoordinator : pl.coordinator = pl'.coordinator)
    (hengine : pl.engine = pl'.engine) (a : PipelineAction) :
    (pl.act a).coordinator = (pl'.act a).coordinator ∧ (pl.act a).engine = (pl'.act a).engine := by
  obtain ⟨coordinator, engine, log⟩ := pl
  obtain ⟨coordinator', engine', log'⟩ := pl'
  obtain rfl : coordinator = coordinator' := hcoordinator
  obtain rfl : engine = engine' := hengine
  cases a with
  | receive r => exact ⟨rfl, rfl⟩
  | resolve r outcome =>
      simp only [act, resolve]
      rcases (coordinator.resolve r outcome).answer with error | _ | advance
      · exact ⟨rfl, rfl⟩
      · exact ⟨rfl, rfl⟩
      · exact ⟨rfl, rfl⟩
  | revoke p =>
      simp only [act, revoke]
      rcases coordinator.revoke? p with _ | ⟨left, events⟩
      · exact ⟨rfl, rfl⟩
      · exact ⟨rfl, rfl⟩
  | revokeAll => exact ⟨rfl, rfl⟩
  | engine a => exact ⟨rfl, rfl⟩

/-- The same holds of runs: `act_congr` for each action. -/
theorem run_congr {pl pl' : Pipeline} (hcoordinator : pl.coordinator = pl'.coordinator)
    (hengine : pl.engine = pl'.engine) (actions : List PipelineAction) :
    (pl.run actions).coordinator = (pl'.run actions).coordinator ∧
      (pl.run actions).engine = (pl'.run actions).engine := by
  induction actions generalizing pl pl' with
  | nil => exact ⟨hcoordinator, hengine⟩
  | cons a rest ih =>
      obtain ⟨hcoordinator', hengine'⟩ := act_congr hcoordinator hengine a
      exact ih hcoordinator' hengine'

/-- Whether a run leads from `pl` to the coordinator and the engine of `pl'`. What was reported may
differ. -/
def Reaches (pl pl' : Pipeline) : Prop :=
  ∃ actions : List PipelineAction,
    (pl.run actions).coordinator = pl'.coordinator ∧ (pl.run actions).engine = pl'.engine

/-- A pipeline `Reaches` every one with its coordinator and its engine, by the empty run. -/
theorem Reaches.of_eq {pl pl' : Pipeline}
    (hcoordinator : pl.coordinator = pl'.coordinator) (hengine : pl.engine = pl'.engine) :
    pl.Reaches pl' :=
  ⟨[], hcoordinator, hengine⟩

/-- The relation `Reaches` is transitive, as runs can be appended. -/
theorem Reaches.trans {pl pl' pl'' : Pipeline} (h : pl.Reaches pl') (h' : pl'.Reaches pl'') :
    pl.Reaches pl'' := by
  obtain ⟨first, hcoordinator, hengine⟩ := h
  obtain ⟨second, hcoordinator', hengine'⟩ := h'
  obtain ⟨hsame, hsame'⟩ := run_congr hcoordinator hengine second
  refine ⟨first ++ second, ?_, ?_⟩
  · rw [run_append, hsame, hcoordinator']
  · rw [run_append, hsame', hengine']

/-- One action is a run: `pl.Reaches (pl.act a)`. -/
theorem reaches_act (pl : Pipeline) (a : PipelineAction) : pl.Reaches (pl.act a) :=
  ⟨[a], rfl, rfl⟩

/-- If the engine `RunsTo (f pl.engine)` when it is left alone, then `pl.Reaches (pl.onEngine f)`. -/
theorem Reaches.of_runsTo (pl : Pipeline) {f : Engine → Engine}
    (h : pl.engine.RunsTo (f pl.engine)) : pl.Reaches (pl.onEngine f) := by
  obtain ⟨actions, -, heq⟩ := h
  refine ⟨actions.map .engine, ?_, ?_⟩
  · rw [run_map_engine]
    rfl
  · rw [run_map_engine]
    exact heq.symm

/-- Beginning to close is a run: `revokeAll`, and then the engine is asked to shut down. -/
theorem reaches_beginClose (pl : Pipeline) : pl.Reaches pl.beginClose.2.2 :=
  (pl.reaches_act .revokeAll).trans (reaches_act _ (.engine .shutdown))

/-- Closing is a run: `beginClose`, and then the engine is left alone until the shutdown returns. -/
theorem reaches_close (pl : Pipeline) : pl.Reaches pl.close := by
  have hawait := Reaches.of_runsTo pl.beginClose.2.2
    (Engine.runsTo_await (fun e => e.hasReturned pl.beginClose.1) _)
  exact (reaches_beginClose pl).trans (hawait.trans (.of_eq rfl rfl))

end Pipeline

namespace Session

open Pipeline

/-! ### Calls -/

/-- A call of `notify` is a run: it receives or resolves a record. -/
theorem reaches_notify (s : Session) (notice : Notice) (p : Partition) (o : Offset) :
    s.pipeline.Reaches (s.notify notice p o).2.pipeline := by
  cases notice with
  | received => exact s.pipeline.reaches_act (.receive (recordAt p o))
  | ended outcome =>
      have hresolve : s.pipeline.Reaches (s.pipeline.resolve (recordAt p o) outcome).2 :=
        s.pipeline.reaches_act (.resolve (recordAt p o) outcome)
      rcases heq : s.pipeline.resolve (recordAt p o) outcome with ⟨answer, pl⟩
      rw [heq] at hresolve
      simp only [notify, heq]
      split
      · exact hresolve
      · exact hresolve

/-- A call of `notifyEach` is a run, as each `notify` is. -/
theorem reaches_notifyEach (s : Session) (notice : Notice) (p : Partition) (tally : Tally)
    (offsets : List Offset) : s.pipeline.Reaches (s.notifyEach notice p tally offsets).2.pipeline := by
  induction offsets generalizing s tally with
  | nil => exact .of_eq rfl rfl
  | cons o rest ih => exact (s.reaches_notify notice p o).trans (ih _ _)

/-- A call of `beginShutdown` is a run, through the coordinator or past it. -/
theorem reaches_beginShutdown (s : Session) :
    s.pipeline.Reaches s.beginShutdown.2.pipeline := by
  unfold beginShutdown
  rcases s.attachment
  · have hclose := reaches_beginClose s.pipeline
    dsimp only
    split
    · exact hclose.trans (.of_eq rfl rfl)
    · exact hclose
  · have hshutdown : s.pipeline.Reaches (s.pipeline.onEngine Engine.shutdown) :=
      s.pipeline.reaches_act (.engine .shutdown)
    dsimp only
    split
    · exact hshutdown.trans (.of_eq rfl rfl)
    · exact hshutdown

/-- A call `f` to the coordinator is a run if it is one while the coordinator is there. -/
theorem reaches_toCoordinator {s : Session} {f : Session → Answer × Session}
    (h : s.pipeline.Reaches (f s).2.pipeline) :
    s.pipeline.Reaches (s.toCoordinator f).2.pipeline := by
  unfold toCoordinator
  split
  · exact .of_eq rfl rfl
  · exact h

/-- A command `f` to the engine is a run if it is one while `canCommand`. -/
theorem reaches_toEngine {s : Session} {f : Session → Answer × Session}
    (h : s.pipeline.Reaches (f s).2.pipeline) :
    s.pipeline.Reaches (s.toEngine f).2.pipeline := by
  unfold toEngine
  split
  · exact h
  · exact .of_eq rfl rfl

/-- **A call is a run.** Calls that change the pipeline are one action or two, questions are none. -/
theorem reaches_enact (s : Session) (call : Call) :
    s.pipeline.Reaches (s.enact call).2.pipeline := by
  cases call with
  | notify notice p o =>
      apply reaches_toCoordinator
      have hnotify := s.reaches_notify notice p o
      rcases heq : s.notify notice p o with ⟨error | _ | receipt, s'⟩
      · rw [heq] at hnotify
        exact hnotify
      · rw [heq] at hnotify
        exact hnotify
      · rw [heq] at hnotify
        exact hnotify
  | notifyEach notice p offsets =>
      exact reaches_toCoordinator (s.reaches_notifyEach notice p .empty offsets)
  | revokePartition p => exact reaches_toCoordinator (s.pipeline.reaches_act (.revoke p))
  | revokeAll => exact reaches_toCoordinator (s.pipeline.reaches_act .revokeAll)
  | dropCoordinator => exact s.pipeline.reaches_act (.engine .dropClients)
  | commit p advance =>
      exact reaches_toEngine
        (s.pipeline.reaches_act (.engine (.submit p advance.offset advance.count)))
  | closeLane p => exact reaches_toEngine (s.pipeline.reaches_act (.engine (.revoke p)))
  | beginShutdown =>
      unfold enact
      rcases s.attachment
      · exact reaches_toCoordinator s.reaches_beginShutdown
      · exact reaches_toEngine s.reaches_beginShutdown
  | changeFaults new => exact s.pipeline.reaches_act (.engine (.changeFaults new))
  | tracked => exact reaches_toCoordinator (.of_eq rfl rfl)
  | snapshot p => exact reaches_toCoordinator (.of_eq rfl rfl)
  | threshold => exact reaches_toCoordinator (.of_eq rfl rfl)
  | isClosed => exact reaches_toEngine (.of_eq rfl rfl)
  | dropReceipt receipt => exact .of_eq rfl rfl
  | faults => exact .of_eq rfl rfl
  | committed p => exact .of_eq rfl rfl
  | history p => exact .of_eq rfl rfl
  | failures p => exact .of_eq rfl rfl
  | total => exact .of_eq rfl rfl

/-- Several calls are a run, as each `enact` is. -/
theorem reaches_enactAll (s : Session) (calls : List Call) :
    s.pipeline.Reaches (s.enactAll calls).2.pipeline := by
  induction calls generalizing s with
  | nil => exact .of_eq rfl rfl
  | cons call rest ih => exact (s.reaches_enact call).trans (ih _)

/-! ### Steps -/

/-- Direct commits are a run: each `Engine.call`, and then the engine is left alone until it is
answered. -/
theorem reaches_commitDirectly (s : Session) (p : Partition) (o : Offset)
    (answers : Array (Except Error Unit)) (times : Nat) :
    s.pipeline.Reaches (s.commitDirectly p o answers times).2.pipeline := by
  induction times generalizing s o answers with
  | zero => exact .of_eq rfl rfl
  | succ times ih =>
      let isDone : Engine → Bool := fun e => (e.answer? s.engine.calls.size).isSome
      let called := s.onEngine (·.call p o)
      have hcall : s.pipeline.Reaches called.pipeline :=
        s.pipeline.reaches_act (.engine (.call p o))
      have hawait : called.pipeline.Reaches (called.onEngine (·.await isDone)).pipeline :=
        .of_runsTo called.pipeline (Engine.runsTo_await isDone _)
      unfold commitDirectly
      exact (hcall.trans hawait).trans (ih (called.onEngine (·.await isDone)) _ _)

/-- **A step is a run.** What a step waits for is done by the engine that is left alone. -/
theorem reaches_perform (s : Session) (step : Step) :
    s.pipeline.Reaches (s.perform step).2.pipeline := by
  cases step with
  | call call => exact s.reaches_enact call
  | batch calls => exact s.reaches_enactAll calls
  | close => exact reaches_toCoordinator (reaches_close s.pipeline)
  | shutdown =>
      have hshutdown : s.pipeline.Reaches (s.pipeline.onEngine Engine.shutdown) :=
        s.pipeline.reaches_act (.engine .shutdown)
      have hawait := Reaches.of_runsTo (s.pipeline.onEngine Engine.shutdown)
        (Engine.runsTo_await (fun e => e.hasReturned s.engine.callers.size) _)
      exact reaches_toEngine (hshutdown.trans hawait)
  | wait receipt =>
      have hawait := Reaches.of_runsTo s.pipeline
        (Engine.runsTo_await (fun e => (e.status? receipt).isSome) _)
      simp only [perform]
      split
      · split
        · exact hawait
        · exact hawait
      · exact .of_eq rfl rfl
  | elapse span => exact .of_runsTo s.pipeline (Engine.runsTo_elapse _ _)
  | commitDirectly p o times => exact s.reaches_commitDirectly p o #[] times

/-- Playing a step is a run: `perform`, and then the engine settles. -/
theorem reaches_play (s : Session) (step : Step) :
    s.pipeline.Reaches (s.play step).2.pipeline := by
  have hsettle := Reaches.of_runsTo (s.perform step).2.pipeline (Engine.runsTo_settle _)
  exact (s.reaches_perform step).trans (hsettle.trans (.of_eq rfl rfl))

/-- **A script is a run**, as each `play` is. -/
theorem reaches_playAll (s : Session) (steps : List Step) :
    s.pipeline.Reaches (s.playAll steps).2.pipeline := by
  induction steps generalizing s with
  | nil => exact .of_eq rfl rfl
  | cons step rest ih => exact (s.reaches_play step).trans (ih _)

/-- A session starts with the pipeline that `Pipeline.start` gives. -/
theorem pipeline_start {config : Config} {attachment : Attachment} {setup : Setup} {broker : Broker}
    {s : Session} (h : start config attachment setup broker = .ok s) :
    Pipeline.start config setup broker = .ok s.pipeline := by
  unfold start at h
  split at h
  · next pl hpl =>
      obtain rfl := Except.ok.inj h
      exact hpl
  · cases h

/-- Whatever the steps are, the engine after them is `s.engine.run actions` for some `actions`. -/
theorem exists_actions (s : Session) (steps : List Step) :
    ∃ actions : List EngineAction, (s.playAll steps).2.engine = s.engine.run actions := by
  obtain ⟨actions, -, hengine⟩ := s.reaches_playAll steps
  exact ⟨s.pipeline.allCommands actions, hengine.symm.trans (s.pipeline.engine_run actions)⟩

/-- The engine of a session after any steps is that of a run from `Engine.start setup broker`. -/
theorem exists_engine_actions {config : Config} {attachment : Attachment} {setup : Setup}
    {broker : Broker} {s : Session} (hstart : start config attachment setup broker = .ok s)
    (steps : List Step) : ∃ actions : List EngineAction,
      (s.playAll steps).2.engine = (Engine.start setup broker).run actions := by
  rw [← Pipeline.engine_start (pipeline_start hstart)]
  exact s.exists_actions steps

/-- No step changes the `setup` of the engine. -/
theorem setup_playAll {config : Config} {attachment : Attachment} {setup : Setup} {broker : Broker}
    {s : Session} (hstart : start config attachment setup broker = .ok s) (steps : List Step) :
    (s.playAll steps).2.engine.setup = setup := by
  obtain ⟨actions, hrun⟩ := exists_engine_actions hstart steps
  rw [hrun, Engine.setup_run (Engine.sound_start setup broker) (Engine.ledger_start setup broker)]
  rfl

/-! ### Settled sessions -/

/-- The invariant of a session between its steps: the engine has nothing to do, and every caller and
receipt that has been answered has been noted. -/
structure IsSettled (s : Session) : Prop where
  /-- No move is possible. -/
  engine : s.engine.next? = none
  /-- Those who asked for a shutdown and were answered have been told. -/
  shutdowns : ∀ sh ∈ s.shutdowns, s.engine.hasReturned sh.caller = false
  /-- The commits of held receipts have not ended. -/
  held : ∀ r ∈ s.held, s.engine.status? r = none

/-- A session is settled after `settle`: the engine has no move left, and what has ended is not
held. -/
theorem isSettled_settle (s : Session) : s.settle.2.IsSettled where
  engine := Engine.next?_settle s.engine
  shutdowns sh hsh := by
    have hmem : sh ∈ (s.shutdowns.partition fun sh =>
      (s.onEngine Engine.settle).engine.hasReturned sh.caller).2 := hsh
    rw [List.partition_eq_filter_filter] at hmem
    exact (Bool.not_eq_true' _).mp (List.mem_filter.mp hmem).2
  held r hr := by
    have hmem : r ∈ s.held.filter fun r => ((s.onEngine Engine.settle).engine.status? r).isNone := hr
    exact Option.isNone_iff_eq_none.mp (Array.mem_filter.mp hmem).2

/-- A session starts with no trackers, no receipts and no shutdowns, and with the engine of its
setup. -/
theorem start_eq {config : Config} {attachment : Attachment} {setup : Setup} {broker : Broker}
    {s : Session} (h : start config attachment setup broker = .ok s) :
    s = ⟨⟨⟨config, ∅⟩, .start setup broker, #[]⟩, attachment, false, #[], []⟩ := by
  unfold start Pipeline.start Coordinator.start at h
  rcases hconfig : config.validate with cause | ⟨⟨⟩⟩
  · rw [hconfig] at h
    cases h
  · rw [hconfig] at h
    exact (Except.ok.inj h).symm

/-- A session is settled at its start. -/
theorem isSettled_start {config : Config} {attachment : Attachment} {setup : Setup} {broker : Broker}
    {s : Session} (h : start config attachment setup broker = .ok s) : s.IsSettled := by
  rw [start_eq h]
  refine ⟨?_, fun sh hsh => ?_, fun r hr => ?_⟩
  · simp [engine, Engine.next?, Engine.urgent?, Engine.patient?, Engine.isPossible, Engine.start,
      Lanes.empty, Queue.empty, Queue.isEmpty]
  · cases hsh
  · simp at hr

/-- A settled session is left as it is by `settle`, and nothing has ended. -/
theorem IsSettled.settle_eq {s : Session} (h : s.IsSettled) : s.settle = ([], s) := by
  have hengine : s.engine.settle = s.engine := Engine.settle_of_next?_eq_none h.engine
  have hsame : s.onEngine Engine.settle = s := by
    show { s with pipeline := { s.pipeline with engine := s.engine.settle } } = s
    rw [hengine]
    rfl
  have hnone : (s.shutdowns.filter fun sh => s.engine.hasReturned sh.caller) = [] :=
    List.filter_eq_nil_iff.mpr fun sh hsh => by
      rw [h.shutdowns sh hsh]
      exact Bool.false_ne_true
  have hall : (s.shutdowns.filter fun sh => !s.engine.hasReturned sh.caller) = s.shutdowns :=
    List.filter_eq_self.mpr fun sh hsh => by
      rw [h.shutdowns sh hsh]
      rfl
  have hheld : (s.held.filter fun r => (s.engine.status? r).isNone) = s.held :=
    Array.filter_eq_self.mpr fun r hr => by
      rw [h.held r hr]
      rfl
  have hended : s.ended = [] := by
    rw [ended, List.filterMap_eq_nil_iff]
    intro r hr
    rw [h.held r (Array.mem_toList_iff.mp hr)]
    rfl
  have hlog : s.pipeline.report [] = s.pipeline := by
    rw [Pipeline.report, Array.appendList_nil]
  unfold settle
  dsimp only
  rw [hsame, List.partition_eq_filter_filter]
  have hrest : s.shutdowns.filter (not ∘ fun sh => s.engine.hasReturned sh.caller) = s.shutdowns :=
    hall
  rw [hended, hnone, hrest, hheld, List.flatMap_nil, hlog]

/-- A settled session is settled after any steps. -/
theorem isSettled_playAll {s : Session} (h : s.IsSettled) (steps : List Step) :
    (s.playAll steps).2.IsSettled := by
  induction steps generalizing s with
  | nil => exact h
  | cons step rest ih => exact ih (s := (s.play step).2) (isSettled_settle _)

end Session

end OffsetCommit
