import OffsetCommit.Proofs.Engine.Congruence
import OffsetCommit.Session.Play

/-!
# Sessions on engines between which no difference shows

Sessions are `Related` when their coordinators are the same and their engines are related by a
congruence `R`. Some receipts, those of `gone`, may be held by only one of the two, as long as
neither of them names one. What is done to both is answered alike and leaves them related
(`IsCongruent`).

* `isCongruent_enact`, `isCongruent_perform`: no call and no step tells related sessions apart.
* `Related.play`, `Related.playAll`: so steps have the same answers, and the same receipts have
  ended.
* `Related.halts`, `Related.firstTime?`: while they wait they stand still at related engines, so
  they come to the same at the same time.
-/

namespace OffsetCommit

/-! ### Pipelines -/

namespace Pipeline

/-- Whether two pipelines have the same coordinator and related engines, and, if it is asked for, have
reported the same decisions. -/
structure Related (R : Engine → Engine → Prop) (logged : Prop) (pl pl' : Pipeline) : Prop where
  /-- The coordinators are the same. -/
  coordinator : pl.coordinator = pl'.coordinator
  /-- The engines are related. -/
  engine : R pl.engine pl'.engine
  /-- The coordinators have reported the same. -/
  log : logged → pl.log = pl'.log

namespace Related

variable {R : Engine → Engine → Prop} {logged : Prop} {pl pl' : Pipeline}
  (h : pl.Related R logged pl')

include h

/-- A change of the engines that leaves these related leaves the pipelines related. -/
theorem onEngine {f : Engine → Engine} (hf : R (f pl.engine) (f pl'.engine)) :
    (pl.onEngine f).Related R logged (pl'.onEngine f) :=
  ⟨h.coordinator, hf, h.log⟩

/-- Reporting the same events leaves pipelines related. -/
theorem report (events : List DecisionEvent) :
    (pl.report events).Related R logged (pl'.report events) :=
  ⟨h.coordinator, h.engine, fun hlogged =>
    congrArg (fun log : Array DecisionEvent => log ++ events) (h.log hlogged)⟩

/-- The coordinator may be put in place of the one before. -/
theorem decide (c : Coordinator) :
    Related R logged { pl with coordinator := c } { pl' with coordinator := c } :=
  ⟨rfl, h.engine, h.log⟩

/-- Reading the same record leaves pipelines related. -/
theorem receive (r : Record) : (pl.receive r).Related R logged (pl'.receive r) := by
  unfold Pipeline.receive
  rw [← h.coordinator]
  exact (h.decide _).report _

variable (hR : Engine.IsCongruence R)

include hR

/-- What clients do to both engines leaves the pipelines related. -/
theorem act (a : EngineAction) (ha : ∀ move, a ≠ .move move) :
    (pl.onEngine (·.act a)).Related R logged (pl'.onEngine (·.act a)) :=
  h.onEngine (hR.act h.engine a ha)

/-- Issuing the same commit gives the same receipt and leaves the pipelines related. -/
theorem issue (p : Partition) (advance : Advance) :
    (pl.issue p advance).1 = (pl'.issue p advance).1 ∧
      (pl.issue p advance).2.Related R logged (pl'.issue p advance).2 := by
  have hsize : pl.engine.tickets.size = pl'.engine.tickets.size :=
    hR.query h.engine (Engine.shows_of_face fun f => f.tickets.size)
  refine ⟨?_, h.act hR (.submit p advance.offset advance.count) fun _ => EngineAction.noConfusion⟩
  unfold Pipeline.issue
  rw [hsize]

/-- A notification is answered alike. -/
theorem resolve (r : Record) (outcome : Outcome) :
    (pl.resolve r outcome).1 = (pl'.resolve r outcome).1 ∧
      (pl.resolve r outcome).2.Related R logged (pl'.resolve r outcome).2 := by
  unfold Pipeline.resolve
  rw [← h.coordinator]
  have hdecided := (h.decide (pl.coordinator.resolve r outcome).coordinator).report
    (pl.coordinator.resolve r outcome).events
  dsimp only
  rcases (pl.coordinator.resolve r outcome).answer with error | _ | advance
  · exact ⟨rfl, hdecided⟩
  · exact ⟨rfl, hdecided⟩
  · obtain ⟨hreceipt, hissued⟩ := hdecided.issue hR r.partition advance
    exact ⟨congrArg (fun receipt => Except.ok (some receipt)) hreceipt, hissued⟩

/-- A revocation is answered alike. -/
theorem revoke (p : Partition) :
    (pl.revoke p).1 = (pl'.revoke p).1 ∧ (pl.revoke p).2.Related R logged (pl'.revoke p).2 := by
  unfold Pipeline.revoke
  rw [← h.coordinator]
  rcases pl.coordinator.revoke? p with _ | ⟨coordinator, events⟩
  · exact ⟨rfl, h⟩
  · have hrevoked := (h.decide coordinator).act hR (.revoke p) fun _ => EngineAction.noConfusion
    exact ⟨rfl, hrevoked.report events⟩

/-- Revoking all partitions is answered alike. -/
theorem revokeAll :
    pl.revokeAll.1 = pl'.revokeAll.1 ∧ pl.revokeAll.2.Related R logged pl'.revokeAll.2 := by
  unfold Pipeline.revokeAll
  rw [← h.coordinator]
  have hrevoked := (h.decide pl.coordinator.revokeAll.1).onEngine
    (f := fun e => pl.coordinator.tracked.foldl Engine.revoke e)
    (hR.revokeEach h.engine pl.coordinator.tracked)
  exact ⟨rfl, hrevoked.report _⟩

/-- Closing begins alike, with the same caller and the same number of partitions. -/
theorem beginClose :
    pl.beginClose.1 = pl'.beginClose.1 ∧ pl.beginClose.2.1 = pl'.beginClose.2.1 ∧
      pl.beginClose.2.2.Related R logged pl'.beginClose.2.2 := by
  obtain ⟨hrevoked, hrelated⟩ := h.revokeAll hR
  have hsize := hR.query hrelated.engine (Engine.shows_of_face fun f => f.callers.size)
  exact ⟨hsize, hrevoked, hrelated.act hR .shutdown fun _ => EngineAction.noConfusion⟩

/-- Closing leaves the pipelines related: they wait for the same. -/
theorem close : pl.close.Related R logged pl'.close := by
  obtain ⟨hcaller, hrevoked, hrelated⟩ := h.beginClose hR
  have hwaited := hR.await (Engine.shows_hasReturned pl.beginClose.1) hrelated.engine
  have hclosed := (hrelated.onEngine hwaited).report [.closed pl.beginClose.2.1]
  unfold Pipeline.close
  dsimp only
  rw [← hcaller, ← hrevoked]
  exact hclosed

end Related

end Pipeline

/-! ### Sessions -/

/-- The receipt that a call names. -/
def Call.receipt? : Call → Option Nat
  | .dropReceipt r => some r
  | _ => none

/-- The receipts that a step names. -/
def Step.receipts : Step → List Nat
  | .call c => c.receipt?.toList
  | .batch calls => calls.filterMap Call.receipt?
  | .wait r => [r]
  | _ => []

namespace Session

/-- Whether two sessions have the same coordinator and related engines, differ in which receipts of a
list they hold and in nothing else, and, if it is asked for, have reported the same decisions. -/
structure Related (R : Engine → Engine → Prop) (logged : Prop) (gone : List Nat)
    (s s' : Session) : Prop where
  /-- The pipelines are related. -/
  pipeline : s.pipeline.Related R logged s'.pipeline
  /-- They hold on to the commit path in the same way. -/
  attachment : s.attachment = s'.attachment
  /-- Both have let go of the coordinator, or neither has. -/
  isDropped : s.isDropped = s'.isDropped
  /-- They hold the same receipts, those of the list aside. -/
  held : s.held.filter (· ∉ gone) = s'.held.filter (· ∉ gone)
  /-- The same shutdowns were begun and not answered. -/
  shutdowns : s.shutdowns = s'.shutdowns

variable {R : Engine → Engine → Prop} {logged : Prop} {gone : List Nat}

namespace Related

variable {s s' : Session} (h : s.Related R logged gone s')

include h

/-- Related sessions have related engines. -/
theorem engine : R s.engine s'.engine :=
  h.pipeline.engine

/-- Related sessions accept commands alike. -/
theorem canCommand : s.canCommand = s'.canCommand := by
  rw [Session.canCommand, Session.canCommand, h.attachment, h.isDropped]

/-- The pipelines may be put in place of those before. -/
theorem proceed {pl pl' : Pipeline} (hpipeline : pl.Related R logged pl') :
    Related R logged gone { s with pipeline := pl } { s' with pipeline := pl' } :=
  { h with pipeline := hpipeline }

/-- A change of the engines that leaves these related leaves the sessions related. -/
theorem onEngine {f : Engine → Engine} (hf : R (f s.engine) (f s'.engine)) :
    (s.onEngine f).Related R logged gone (s'.onEngine f) :=
  h.proceed (h.pipeline.onEngine hf)

/-- Holding the same receipt leaves the sessions related. -/
theorem hold (ticket : Nat) : Related R logged gone { s with held := s.held.push ticket }
    { s' with held := s'.held.push ticket } := by
  refine { h with held := ?_ }
  show (s.held.push ticket).filter (· ∉ gone) = (s'.held.push ticket).filter (· ∉ gone)
  rw [Array.filter_push, Array.filter_push, h.held]

/-- A receipt that is not of `gone` is held by both or by neither. -/
theorem contains {r : Nat} (hr : r ∉ gone) : s.held.contains r = s'.held.contains r := by
  have hmem : ∀ held : Array Nat, held.contains r = (held.filter (· ∉ gone)).contains r := by
    intro held
    rw [Bool.eq_iff_iff]
    simp [hr]
  rw [hmem, h.held, ← hmem]

/-- Letting go of the same receipt leaves the sessions related. -/
theorem erase (r : Nat) : Related R logged gone { s with held := s.held.erase r }
    { s' with held := s'.held.erase r } := by
  refine { h with held := ?_ }
  show (s.held.erase r).filter (· ∉ gone) = (s'.held.erase r).filter (· ∉ gone)
  rw [← Array.erase_filter, ← Array.erase_filter, h.held]

/-- A shutdown that was begun is over at once in both, or it is waited for in both. -/
theorem begin (hR : Engine.IsCongruence R) {pl pl' : Pipeline} (hpl : pl.Related R logged pl')
    (pending : PendingShutdown) :
    pl.engine.hasReturned pending.caller = pl'.engine.hasReturned pending.caller ∧
      Related R logged gone { s with pipeline := pl.report pending.events }
        { s' with pipeline := pl'.report pending.events } ∧
      Related R logged gone { s with pipeline := pl, shutdowns := s.shutdowns ++ [pending] }
        { s' with pipeline := pl', shutdowns := s'.shutdowns ++ [pending] } := by
  refine ⟨hR.query hpl.engine (Engine.shows_hasReturned pending.caller), h.proceed (hpl.report _),
    { h.proceed hpl with shutdowns := ?_ }⟩
  exact congrArg (fun shutdowns : List PendingShutdown => shutdowns ++ [pending]) h.shutdowns

end Related

/-- Whether `g` answers related sessions alike and leaves them related. -/
def IsCongruent {α : Type} (R : Engine → Engine → Prop) (logged : Prop) (gone : List Nat)
    (g : Session → α × Session) : Prop :=
  ∀ s s', s.Related R logged gone s' →
    (g s).1 = (g s').1 ∧ (g s).2.Related R logged gone (g s').2

/-- A question changes nothing, so it is congruent if it is answered alike. -/
theorem isCongruent_ask {α : Type} {query : Session → α}
    (hquery : ∀ s s' : Session, s.Related R logged gone s' → query s = query s') :
    IsCongruent R logged gone fun s => (query s, s) :=
  fun s s' h => ⟨hquery s s' h, h⟩

/-- What is asked of the coordinator is congruent if it is when there is one. -/
theorem IsCongruent.toCoordinator {f : Session → Answer × Session}
    (hf : IsCongruent R logged gone f) : IsCongruent R logged gone fun s => s.toCoordinator f := by
  intro s s' h
  dsimp only
  rw [Session.toCoordinator, Session.toCoordinator, ← h.isDropped]
  split
  · exact ⟨rfl, h⟩
  · exact hf s s' h

/-- What is asked of the engine is congruent if it is when there is one. -/
theorem IsCongruent.toEngine {f : Session → Answer × Session}
    (hf : IsCongruent R logged gone f) : IsCongruent R logged gone fun s => s.toEngine f := by
  intro s s' h
  dsimp only
  rw [Session.toEngine, Session.toEngine, ← h.canCommand]
  split
  · exact hf s s' h
  · exact ⟨rfl, h⟩

/-! ### Moments -/

/-- The engines at which the clock stands still while the broker decides direct commits. -/
def haltsDirectly (s : Session) (p : Partition) (o : Offset) : Nat → List Engine
  | 0 => []
  | times + 1 =>
      let call := s.engine.calls.size
      let isDone := fun e : Engine => (e.answer? call).isSome
      (s.engine.call p o).halts isDone ++
        (s.onEngine fun e => (e.call p o).await isDone).haltsDirectly p (o.advance 1) times

/-- The engines at which the clock stands still while the session does a step that takes time; none
for a call or a batch. -/
def halts (s : Session) : Step → List Engine
  | .call _ => []
  | .batch _ => []
  | .close =>
      if s.isDropped then []
      else
        s.pipeline.beginClose.2.2.engine.halts fun e => e.hasReturned s.pipeline.beginClose.1
  | .shutdown =>
      if s.canCommand then
        s.engine.shutdown.halts fun e => e.hasReturned s.engine.callers.size
      else []
  | .wait r => if s.held.contains r then s.engine.halts fun e => (e.status? r).isSome else []
  | .elapse span =>
      s.engine.halts (Engine.isIdleUntil (s.engine.now + span))
  | .commitDirectly p o times => s.haltsDirectly p o times

/-- The engines at which the clock stands still while a script is played: the one before each step,
those of `halts`, and the last one. -/
def moments (s : Session) : List Step → List Engine
  | [] => [s.engine]
  | step :: rest => s.engine :: (s.halts step ++ (s.play step).2.moments rest)

/-- The time of the first of the `moments` for which `isDone` holds, if there is one. -/
def firstTime? (s : Session) (isDone : Engine → Bool) (steps : List Step) : Option Nat :=
  ((s.moments steps).find? isDone).map Engine.now

/-- The time at which the commit with this ticket first has a status, going by the `moments` of the
script. -/
def endTime? (s : Session) (ticket : Nat) (steps : List Step) : Option Nat :=
  s.firstTime? (fun e => (e.status? ticket).isSome) steps

/-- The time at which `caller` is first answered, going by the `moments` of the script. -/
def returnTime? (s : Session) (caller : Nat) (steps : List Step) : Option Nat :=
  s.firstTime? (fun e => e.hasReturned caller) steps

section Congruence

variable (hR : Engine.IsCongruence R)

include hR

/-! ### Calls -/

/-- Telling the coordinator of a record is congruent. -/
theorem isCongruent_notify (notice : Notice) (p : Partition) (o : Offset) :
    IsCongruent R logged gone fun s => s.notify notice p o := by
  intro s s' h
  cases notice with
  | received => exact ⟨rfl, h.proceed (h.pipeline.receive (recordAt p o))⟩
  | ended outcome =>
      obtain ⟨hanswer, hrelated⟩ := h.pipeline.resolve hR (recordAt p o) outcome
      unfold notify
      dsimp only
      rw [← hanswer]
      rcases (s.pipeline.resolve (recordAt p o) outcome).1 with error | _ | receipt
      · exact ⟨rfl, h.proceed hrelated⟩
      · exact ⟨rfl, h.proceed hrelated⟩
      · exact ⟨rfl, (h.proceed hrelated).hold receipt.ticket⟩

/-- Telling it of several records is congruent. The induction is on the offsets. -/
theorem isCongruent_notifyEach (notice : Notice) (p : Partition) (tally : Tally)
    (offsets : List Offset) :
    IsCongruent R logged gone fun s => s.notifyEach notice p tally offsets := by
  intro s s' h
  induction offsets generalizing s s' tally with
  | nil => exact ⟨rfl, h⟩
  | cons o rest ih =>
      obtain ⟨hanswer, hrelated⟩ := isCongruent_notify hR notice p o s s' h
      dsimp only at hanswer hrelated ih ⊢
      rw [notifyEach, notifyEach]
      dsimp only
      rw [← hanswer]
      exact ih _ _ _ hrelated

/-- Beginning a shutdown is congruent. -/
theorem isCongruent_beginShutdown : IsCongruent R logged gone beginShutdown := by
  rintro ⟨pl, attachment, isDropped, held, shutdowns⟩
    ⟨pl', attachment', isDropped', held', shutdowns'⟩ h
  obtain rfl : attachment = attachment' := h.attachment
  have hpl : pl.Related R logged pl' := h.pipeline
  cases attachment with
  | exclusive =>
      obtain ⟨hcaller, hrevoked, hrelated⟩ := hpl.beginClose hR
      obtain ⟨hreturned, hnow, hlater⟩ :=
        h.begin hR hrelated ⟨pl.beginClose.1, some pl.beginClose.2.1⟩
      simp only [beginShutdown, ← hcaller, ← hrevoked, ← hreturned]
      split
      · exact ⟨rfl, hnow⟩
      · exact ⟨rfl, hlater⟩
  | shared =>
      have hcaller : pl.engine.callers.size = pl'.engine.callers.size :=
        hR.query hpl.engine (Engine.shows_of_face fun f => f.callers.size)
      have hrelated := hpl.act hR .shutdown fun _ => EngineAction.noConfusion
      obtain ⟨hreturned, hnow, hlater⟩ := h.begin hR hrelated ⟨pl.engine.callers.size, none⟩
      dsimp only at hreturned
      have hengine : ∀ pl : Pipeline, (pl.onEngine (·.act .shutdown)) = pl.onEngine Engine.shutdown :=
        fun _ => rfl
      rw [hengine, hengine] at hreturned hnow hlater
      rcases hback : (pl.onEngine Engine.shutdown).engine.hasReturned pl.engine.callers.size
      · rw [hback] at hreturned
        simp only [beginShutdown, engine, ← hcaller, hback, ← hreturned, Bool.false_eq_true, if_false]
        exact ⟨trivial, hlater⟩
      · rw [hback] at hreturned
        simp only [beginShutdown, engine, ← hcaller, hback, ← hreturned, if_true]
        exact ⟨trivial, hnow⟩

/-- A notice is answered alike: the answer is read off that of the coordinator
(`isCongruent_notify`). -/
theorem isCongruent_enact_notify (notice : Notice) (p : Partition) (o : Offset) :
    IsCongruent R logged gone fun s => s.enact (.notify notice p o) := by
  refine IsCongruent.toCoordinator fun s s' h => ?_
  obtain ⟨hanswer, hrelated⟩ := isCongruent_notify hR notice p o s s' h
  dsimp only at hanswer hrelated ⊢
  rcases hs : s.notify notice p o with ⟨answer, next⟩
  rcases hs' : s'.notify notice p o with ⟨answer', next'⟩
  rw [hs, hs'] at hanswer hrelated
  obtain rfl : answer = answer' := hanswer
  rcases answer with error | _ | receipt
  · exact ⟨rfl, hrelated⟩
  · exact ⟨rfl, hrelated⟩
  · exact ⟨rfl, hrelated⟩

/-- No call tells related sessions apart, unless it names a receipt of `gone`. -/
theorem isCongruent_enact {c : Call} (hc : ∀ r, c.receipt? = some r → r ∉ gone) :
    IsCongruent R logged gone fun s => s.enact c := by
  have hbroker : ∀ f : Broker → Answer, IsCongruent R logged gone fun s => s.ask f := fun f =>
    isCongruent_ask fun s s' h => congrArg f (hR.query h.engine Engine.shows_broker)
  cases c with
  | notify notice p o => exact isCongruent_enact_notify hR notice p o
  | notifyEach notice p offsets =>
      refine IsCongruent.toCoordinator fun s s' h => ?_
      obtain ⟨hanswer, hrelated⟩ := isCongruent_notifyEach hR notice p .empty offsets s s' h
      exact ⟨congrArg Answer.tally hanswer, hrelated⟩
  | revokePartition p =>
      refine IsCongruent.toCoordinator fun s s' h => ?_
      obtain ⟨hanswer, hrelated⟩ := h.pipeline.revoke hR p
      exact ⟨congrArg Answer.flag hanswer, h.proceed hrelated⟩
  | revokeAll =>
      refine IsCongruent.toCoordinator fun s s' h => ?_
      obtain ⟨hanswer, hrelated⟩ := h.pipeline.revokeAll hR
      exact ⟨congrArg Answer.number hanswer, h.proceed hrelated⟩
  | tracked =>
      exact (isCongruent_ask fun s s' h => by rw [h.pipeline.coordinator]).toCoordinator
  | snapshot p =>
      exact (isCongruent_ask fun s s' h => by rw [h.pipeline.coordinator]).toCoordinator
  | threshold =>
      exact (isCongruent_ask fun s s' h => by rw [h.pipeline.coordinator]).toCoordinator
  | dropCoordinator =>
      intro s s' h
      have hdropped := hR.act h.engine .dropClients fun _ => EngineAction.noConfusion
      exact ⟨rfl, { h.onEngine (f := Engine.dropClients) hdropped with isDropped := rfl }⟩
  | commit p advance =>
      refine IsCongruent.toEngine fun s s' h => ?_
      obtain ⟨hreceipt, hrelated⟩ := h.pipeline.issue hR p advance
      dsimp only
      rw [← hreceipt]
      exact ⟨rfl, (h.proceed hrelated).hold _⟩
  | closeLane p =>
      refine IsCongruent.toEngine fun s s' h => ⟨rfl, h.onEngine ?_⟩
      exact hR.act h.engine (.revoke p) fun _ => EngineAction.noConfusion
  | isClosed =>
      refine (isCongruent_ask fun s s' h => ?_).toEngine
      exact congrArg Answer.flag (hR.query h.engine Engine.shows_isClosed)
  | beginShutdown =>
      intro s s' h
      simp only [enact]
      rw [← h.attachment]
      rcases s.attachment
      · exact (isCongruent_beginShutdown hR).toCoordinator s s' h
      · exact (isCongruent_beginShutdown hR).toEngine s s' h
  | dropReceipt r =>
      exact fun s s' h => ⟨congrArg Answer.flag (h.contains (hc r rfl)), h.erase r⟩
  | changeFaults new =>
      refine fun s s' h => ⟨rfl, h.onEngine ?_⟩
      exact hR.act h.engine (.changeFaults new) fun _ => EngineAction.noConfusion
  | faults => exact hbroker _
  | committed p => exact hbroker _
  | history p => exact hbroker _
  | failures p => exact hbroker _
  | total => exact hbroker _

/-- Several calls do not tell related sessions apart either, unless one names a receipt of `gone`. -/
theorem isCongruent_enactAll {calls : List Call}
    (hcalls : ∀ r ∈ calls.filterMap Call.receipt?, r ∉ gone) :
    IsCongruent R logged gone fun s => s.enactAll calls := by
  intro s s' h
  induction calls generalizing s s' with
  | nil => exact ⟨rfl, h⟩
  | cons c rest ih =>
      have hc : ∀ r, c.receipt? = some r → r ∉ gone := fun r hr =>
        hcalls r (List.mem_filterMap.mpr ⟨c, List.mem_cons_self, hr⟩)
      have hrest : ∀ r ∈ rest.filterMap Call.receipt?, r ∉ gone := by
        intro r hr
        obtain ⟨c', hc', hr'⟩ := List.mem_filterMap.mp hr
        exact hcalls r (List.mem_filterMap.mpr ⟨c', List.mem_cons_of_mem c hc', hr'⟩)
      obtain ⟨hanswer, hrelated⟩ := isCongruent_enact hR hc s s' h
      obtain ⟨hanswers, hlast⟩ := ih hrest _ _ hrelated
      dsimp only at hanswer hanswers
      simp only [enactAll]
      rw [hanswer, hanswers]
      exact ⟨rfl, hlast⟩

/-! ### Steps -/

/-- Asking the broker directly is congruent, however often. -/
theorem isCongruent_commitDirectly (p : Partition) (o : Offset)
    (answers : Array (Except Error Unit)) (times : Nat) :
    IsCongruent R logged gone fun s => s.commitDirectly p o answers times := by
  intro s s' h
  induction times generalizing s s' o answers with
  | zero => exact ⟨rfl, h⟩
  | succ times ih =>
      have hcall : s.engine.calls.size = s'.engine.calls.size :=
        hR.query h.engine (Engine.shows_of_face fun f => f.calls.size)
      have hcalled := hR.act h.engine (.call p o) fun _ => EngineAction.noConfusion
      have hrelated := h.onEngine (f := fun e =>
          (e.call p o).await fun e => (e.answer? s.engine.calls.size).isSome)
        (hR.await ((Engine.shows_answer? s.engine.calls.size).map Option.isSome) hcalled)
      have hanswer := hR.query hrelated.engine (Engine.shows_answer? s.engine.calls.size)
      simp only [commitDirectly]
      rw [← hcall, ← hanswer]
      exact ih _ _ _ _ hrelated

/-- Waiting for a receipt that is not of `gone` is congruent. -/
theorem isCongruent_wait {r : Nat} (hr : r ∉ gone) :
    IsCongruent R logged gone fun s => s.perform (.wait r) := by
  intro s s' h
  have hrelated := h.onEngine (hR.await ((Engine.shows_status? r).map Option.isSome) h.engine)
  simp only [perform, ← h.contains hr]
  split
  · generalize s.onEngine (Engine.await fun e => (e.status? r).isSome) = t at hrelated ⊢
    generalize s'.onEngine (Engine.await fun e => (e.status? r).isSome) = t' at hrelated ⊢
    rw [← hR.query hrelated.engine (Engine.shows_status? r),
      ← hR.query hrelated.engine Engine.shows_now]
    rcases t.engine.status? r with _ | status
    · exact ⟨rfl, hrelated⟩
    · exact ⟨rfl, hrelated.erase r⟩
  · exact ⟨rfl, h⟩

/-- **No step tells related sessions apart**, unless it names a receipt of `gone`. -/
theorem isCongruent_perform {step : Step} (hstep : ∀ r ∈ step.receipts, r ∉ gone) :
    IsCongruent R logged gone fun s => s.perform step := by
  cases step with
  | call c => exact isCongruent_enact hR fun r hr => hstep r (by simp [Step.receipts, hr])
  | batch calls =>
      intro s s' h
      obtain ⟨hanswers, hrelated⟩ := isCongruent_enactAll hR hstep s s' h
      exact ⟨congrArg Answer.batch hanswers, hrelated⟩
  | close =>
      refine IsCongruent.toCoordinator fun s s' h => ?_
      have hrelated := h.proceed (h.pipeline.close hR)
      exact ⟨congrArg Answer.time (hR.query hrelated.engine Engine.shows_now), hrelated⟩
  | shutdown =>
      refine IsCongruent.toEngine fun s s' h => ?_
      have hsize : s.engine.callers.size = s'.engine.callers.size :=
        hR.query h.engine (Engine.shows_of_face fun f => f.callers.size)
      have hasked := hR.act h.engine .shutdown fun _ => EngineAction.noConfusion
      have hrelated := h.onEngine (f := fun e =>
          e.shutdown.await fun e => e.hasReturned s.engine.callers.size)
        (hR.await (Engine.shows_hasReturned s.engine.callers.size) hasked)
      dsimp only
      rw [← hsize]
      exact ⟨congrArg Answer.time (hR.query hrelated.engine Engine.shows_now), hrelated⟩
  | wait r => exact isCongruent_wait hR (hstep r (List.mem_singleton_self r))
  | elapse span =>
      exact fun s s' h => ⟨rfl, h.onEngine (hR.elapse h.engine span)⟩
  | commitDirectly p o times =>
      intro s s' h
      obtain ⟨hanswers, hrelated⟩ := isCongruent_commitDirectly hR p o #[] times s s' h
      refine ⟨?_, hrelated⟩
      dsimp only at hanswers hrelated
      simp only [perform]
      rw [hanswers, hR.query hrelated.engine Engine.shows_now]

/-- Settling notes the same, and receipts of `gone` aside it finds the same. -/
theorem Related.settle {s s' : Session} (h : s.Related R logged gone s') :
    s.settle.1.filter (fun ended => ended.1 ∉ gone) =
        s'.settle.1.filter (fun ended => ended.1 ∉ gone) ∧
      s.settle.2.Related R logged gone s'.settle.2 := by
  have hsettled := h.onEngine (hR.settle h.engine)
  have hreturned : ∀ c, (s.onEngine Engine.settle).engine.hasReturned c =
      (s'.onEngine Engine.settle).engine.hasReturned c := fun c =>
    hR.query hsettled.engine (Engine.shows_hasReturned c)
  have hstatus : ∀ r, (s.onEngine Engine.settle).engine.status? r =
      (s'.onEngine Engine.settle).engine.status? r := fun r =>
    hR.query hsettled.engine (Engine.shows_status? r)
  have hparts : (s.shutdowns.partition fun sh =>
        (s.onEngine Engine.settle).engine.hasReturned sh.caller) =
      s'.shutdowns.partition fun sh =>
        (s'.onEngine Engine.settle).engine.hasReturned sh.caller := by
    simp only [h.shutdowns, hreturned]
  have hpipeline : s.settle.2.pipeline.Related R logged s'.settle.2.pipeline := by
    have hreport := hsettled.pipeline.report ((s'.shutdowns.partition fun sh =>
      (s'.onEngine Engine.settle).engine.hasReturned sh.caller).1.flatMap PendingShutdown.events)
    simp only [Session.settle]
    rw [show (s.onEngine Engine.settle).shutdowns = s.shutdowns from rfl,
      show (s'.onEngine Engine.settle).shutdowns = s'.shutdowns from rfl, hparts]
    exact hreport
  have hheld : s.held.filter (· ∉ gone) = s'.held.filter (· ∉ gone) := h.held
  -- what has ended is read off the held receipts, so those of `gone` can be left out first
  have hended : ∀ t : Session, t.ended.filter (fun ended => ended.1 ∉ gone) =
      (t.held.filter (· ∉ gone)).toList.filterMap fun r => (t.engine.status? r).map (r, ·) := by
    intro t
    rw [ended, List.filter_filterMap, Array.toList_filter, List.filterMap_filter]
    apply List.filterMap_congr
    intro r _
    cases t.engine.status? r <;> simp [Option.filter]
  refine ⟨?_, hpipeline, hsettled.attachment, hsettled.isDropped, ?_, congrArg Prod.snd hparts⟩
  · show (s.onEngine Engine.settle).ended.filter _ = (s'.onEngine Engine.settle).ended.filter _
    rw [hended, hended]
    show (s.held.filter _).toList.filterMap _ = (s'.held.filter _).toList.filterMap _
    rw [hheld]
    exact List.filterMap_congr fun r _ => by rw [hstatus]
  · have hswap : ∀ t : Session, t.settle.2.held.filter (· ∉ gone) =
        (t.held.filter (· ∉ gone)).filter fun r =>
          ((t.onEngine Engine.settle).engine.status? r).isNone := by
      intro t
      show (t.held.filter _).filter _ = (t.held.filter _).filter _
      rw [Array.filter_filter, Array.filter_filter]
      simp only [Bool.and_comm]
    rw [hswap, hswap, hheld]
    simp only [hstatus]

/-- A step is answered alike and leads to related sessions, and the same receipts have ended, those
of `gone` aside. -/
theorem Related.play {s s' : Session} (h : s.Related R logged gone s') {step : Step}
    (hstep : ∀ r ∈ step.receipts, r ∉ gone) :
    (s.play step).1.answer = (s'.play step).1.answer ∧
      (s.play step).1.done.filter (fun ended => ended.1 ∉ gone) =
        (s'.play step).1.done.filter (fun ended => ended.1 ∉ gone) ∧
      (s.play step).2.Related R logged gone (s'.play step).2 := by
  obtain ⟨hanswer, hperformed⟩ := isCongruent_perform hR hstep s s' h
  obtain ⟨hdone, hsettled⟩ := hperformed.settle hR
  exact ⟨hanswer, hdone, hsettled⟩

/-- The steps of a script lead to related sessions. -/
theorem Related.playAll {s s' : Session} (h : s.Related R logged gone s') {steps : List Step}
    (hsteps : ∀ step ∈ steps, ∀ r ∈ step.receipts, r ∉ gone) :
    (s.playAll steps).2.Related R logged gone (s'.playAll steps).2 := by
  induction steps generalizing s s' with
  | nil => exact h
  | cons step rest ih =>
      obtain ⟨hstep, hrest⟩ := List.forall_mem_cons.mp hsteps
      exact ih (h.play hR hstep).2.2 hrest

/-! ### When things happen -/

/-- Asking the broker directly, related sessions stand still at related engines. -/
theorem Related.haltsDirectly {s s' : Session} (h : s.Related R logged gone s') (p : Partition)
    (o : Offset) (times : Nat) :
    List.Forall₂ R (s.haltsDirectly p o times) (s'.haltsDirectly p o times) := by
  induction times generalizing s s' o with
  | zero => exact .nil
  | succ times ih =>
      have hcall : s.engine.calls.size = s'.engine.calls.size :=
        hR.query h.engine (Engine.shows_of_face fun f => f.calls.size)
      have hanswered := (Engine.shows_answer? s.engine.calls.size).map Option.isSome
      have hcalled := hR.act h.engine (.call p o) fun _ => EngineAction.noConfusion
      have hrelated := h.onEngine (f := fun e =>
          (e.call p o).await fun e => (e.answer? s.engine.calls.size).isSome)
        (hR.await hanswered hcalled)
      simp only [Session.haltsDirectly]
      rw [← hcall]
      exact List.rel_append (hR.halts hanswered hcalled) (ih hrelated _)

/-- Related sessions stand still at related engines in every step: `List.Forall₂ R`. -/
theorem Related.halts {s s' : Session} (h : s.Related R logged gone s') {step : Step}
    (hstep : ∀ r ∈ step.receipts, r ∉ gone) : List.Forall₂ R (s.halts step) (s'.halts step) := by
  cases step with
  | call c => exact .nil
  | batch calls => exact .nil
  | close =>
      obtain ⟨hcaller, -, hrelated⟩ := h.pipeline.beginClose hR
      simp only [Session.halts]
      rw [← h.isDropped, ← hcaller]
      split
      · exact .nil
      · exact hR.halts (Engine.shows_hasReturned _) hrelated.engine
  | shutdown =>
      have hsize : s.engine.callers.size = s'.engine.callers.size :=
        hR.query h.engine (Engine.shows_of_face fun f => f.callers.size)
      have hasked := hR.act h.engine .shutdown fun _ => EngineAction.noConfusion
      simp only [Session.halts]
      rw [← h.canCommand, ← hsize]
      split
      · exact hR.halts (Engine.shows_hasReturned _) hasked
      · exact .nil
  | wait r =>
      simp only [Session.halts]
      rw [← h.contains (hstep r (List.mem_singleton_self r))]
      split
      · exact hR.halts ((Engine.shows_status? r).map Option.isSome) h.engine
      · exact .nil
  | elapse span =>
      simp only [Session.halts]
      rw [← hR.query h.engine Engine.shows_now]
      exact hR.halts (Engine.shows_isIdleUntil _) h.engine
  | commitDirectly p o times => exact h.haltsDirectly hR p o times

/-- The `moments` of related sessions along a script are related one by one. -/
theorem Related.moments {s s' : Session} (h : s.Related R logged gone s') {steps : List Step}
    (hsteps : ∀ step ∈ steps, ∀ r ∈ step.receipts, r ∉ gone) :
    List.Forall₂ R (s.moments steps) (s'.moments steps) := by
  induction steps generalizing s s' with
  | nil => exact .cons h.engine .nil
  | cons step rest ih =>
      obtain ⟨hstep, hrest⟩ := List.forall_mem_cons.mp hsteps
      exact .cons h.engine (List.rel_append (h.halts hR hstep) (ih (h.play hR hstep).2.2 hrest))

/-- Related sessions come to the same at the same time, if it `Shows`. -/
theorem Related.firstTime? {s s' : Session} (h : s.Related R logged gone s') {steps : List Step}
    (hsteps : ∀ step ∈ steps, ∀ r ∈ step.receipts, r ∉ gone) {isDone : Engine → Bool}
    (hdone : Engine.Shows isDone) : s.firstTime? isDone steps = s'.firstTime? isDone steps := by
  have hmoments := h.moments hR hsteps
  unfold Session.firstTime?
  generalize s.moments steps = engines at hmoments ⊢
  generalize s'.moments steps = engines' at hmoments ⊢
  induction hmoments with
  | nil => rfl
  | cons hfirst _ ih =>
      rw [List.find?_cons, List.find?_cons, hR.query hfirst hdone]
      split
      · exact congrArg some (hR.query hfirst Engine.shows_now)
      · exact ih

end Congruence

end Session

end OffsetCommit
