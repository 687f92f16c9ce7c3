import OffsetCommit.Proofs.Engine.Timetable
import OffsetCommit.Proofs.Session

/-!
# Batches of commits in a session

The calls of a batch take no time, so all commits that they issue are issued at one time, and from
then on their engine has a timetable. With a constant delay one commit of every partition ends after
each delay, and closing the coordinator takes as many delays as the partition with the most commits
has commits.

* `enact_induction`, `playAll_induction`: what issuing, revoking and settling preserve is
  preserved by brief calls.
* `issuing_batch`: so a batch leaves the engine `Issuing`.
* `ended_elapse`: how many commits have ended after waits that come to `passed spans`.
* `answer_close`: when `close` returns.
* `commits_keep_pace`: both of every session.
-/

namespace OffsetCommit

/-- Whether a call leaves the engine open to further commits and its broker as it is. -/
def Call.isBrief : Call → Bool
  | .beginShutdown => false
  | .dropCoordinator => false
  | .changeFaults _ => false
  | _ => true

/-- Whether a step is a call that `isBrief`, or a batch of them. -/
def Step.isBrief : Step → Bool
  | .call c => c.isBrief
  | .batch calls => calls.all Call.isBrief
  | _ => false

section

variable {P : Engine → Prop} (hsubmit : ∀ e p o count, P e → P (e.submit p o count))
  (hrevoke : ∀ e p, P e → P (e.revoke p))

include hsubmit hrevoke

/-! ### What is kept by issuing and revoking -/

/-- The coordinator does no more to its engine than to issue commits and to revoke partitions, so
what these preserve holds after it. -/
theorem Pipeline.act_induction {pl : Pipeline} {a : PipelineAction} (ha : ∀ b, a ≠ .engine b)
    (h : P pl.engine) : P (pl.act a).engine := by
  have hrun : ∀ (commands : List EngineAction) (e : Engine), P e →
      (∀ c ∈ commands, (∃ p o count, c = .submit p o count) ∨ ∃ p, c = .revoke p) →
      P (e.run commands) := by
    intro commands
    induction commands with
    | nil => exact fun _ he _ => he
    | cons c rest ih =>
        intro e he hcommands
        obtain ⟨hc, hrest⟩ := List.forall_mem_cons.mp hcommands
        refine ih (e.act c) ?_ hrest
        rcases hc with ⟨p, o, count, rfl⟩ | ⟨p, rfl⟩
        · exact hsubmit e p o count he
        · exact hrevoke e p he
  rw [Pipeline.engine_act]
  refine hrun _ _ h fun c hc => ?_
  cases a with
  | receive r => cases hc
  | resolve r outcome =>
      rw [Pipeline.commands] at hc
      split at hc
      · exact .inl ⟨_, _, _, List.mem_singleton.mp hc⟩
      · cases hc
  | revoke p =>
      rw [Pipeline.commands] at hc
      split at hc
      · exact .inr ⟨_, List.mem_singleton.mp hc⟩
      · cases hc
  | revokeAll =>
      obtain ⟨p, -, rfl⟩ := List.mem_map.mp hc
      exact .inr ⟨p, rfl⟩
  | engine b => exact absurd rfl (ha b)

namespace Session

/-- What issuing and revoking preserve holds after telling the coordinator of a record. -/
theorem notify_induction {s : Session} (notice : Notice) (p : Partition) (o : Offset)
    (h : P s.engine) : P (s.notify notice p o).2.engine := by
  cases notice with
  | received =>
      exact Pipeline.act_induction hsubmit hrevoke (a := .receive (recordAt p o))
        (fun _ => PipelineAction.noConfusion) h
  | ended outcome =>
      have hresolve : P (s.pipeline.resolve (recordAt p o) outcome).2.engine :=
        Pipeline.act_induction hsubmit hrevoke (a := .resolve (recordAt p o) outcome)
          (fun _ => PipelineAction.noConfusion) h
      rcases heq : s.pipeline.resolve (recordAt p o) outcome with ⟨answer, pl⟩
      rw [heq] at hresolve
      simp only [notify, heq]
      split
      · exact hresolve
      · exact hresolve

/-- What issuing and revoking preserve holds after telling the coordinator of several records. -/
theorem notifyEach_induction {s : Session} (notice : Notice) (p : Partition) (tally : Tally)
    (offsets : List Offset) (h : P s.engine) : P (s.notifyEach notice p tally offsets).2.engine := by
  induction offsets generalizing s tally with
  | nil => exact h
  | cons o rest ih => exact ih _ (notify_induction hsubmit hrevoke notice p o h)

/-- What issuing and revoking preserve holds after every brief call. -/
theorem enact_induction {s : Session} {c : Call} (hc : c.isBrief = true) (h : P s.engine) :
    P (s.enact c).2.engine := by
  have hcoordinator : ∀ {f : Session → Answer × Session}, P (f s).2.engine →
      P (s.toCoordinator f).2.engine := by
    intro f hf
    unfold toCoordinator
    split
    · exact h
    · exact hf
  have hengine : ∀ {f : Session → Answer × Session}, P (f s).2.engine →
      P (s.toEngine f).2.engine := by
    intro f hf
    unfold toEngine
    split
    · exact hf
    · exact h
  cases c with
  | notify notice p o =>
      apply hcoordinator
      have hnotify := notify_induction hsubmit hrevoke notice p o h
      rcases heq : s.notify notice p o with ⟨error | _ | receipt, s'⟩
      all_goals
        rw [heq] at hnotify
        exact hnotify
  | notifyEach notice p offsets =>
      exact hcoordinator (notifyEach_induction hsubmit hrevoke notice p .empty offsets h)
  | revokePartition p =>
      exact hcoordinator (Pipeline.act_induction hsubmit hrevoke (a := .revoke p)
        (fun _ => PipelineAction.noConfusion) h)
  | revokeAll =>
      exact hcoordinator (Pipeline.act_induction hsubmit hrevoke (a := .revokeAll)
        (fun _ => PipelineAction.noConfusion) h)
  | commit p advance => exact hengine (hsubmit _ p _ _ h)
  | closeLane p => exact hengine (hrevoke _ p h)
  | tracked => exact hcoordinator h
  | snapshot p => exact hcoordinator h
  | threshold => exact hcoordinator h
  | isClosed => exact hengine h
  | dropReceipt receipt => exact h
  | faults => exact h
  | committed p => exact h
  | history p => exact h
  | failures p => exact h
  | total => exact h
  | dropCoordinator => cases hc
  | beginShutdown => cases hc
  | changeFaults new => cases hc

/-- What issuing and revoking preserve holds after several brief calls. -/
theorem enactAll_induction {s : Session} {calls : List Call}
    (hcalls : ∀ c ∈ calls, c.isBrief = true) (h : P s.engine) : P (s.enactAll calls).2.engine := by
  induction calls generalizing s with
  | nil => exact h
  | cons c rest ih =>
      obtain ⟨hc, hrest⟩ := List.forall_mem_cons.mp hcalls
      exact ih hrest (enact_induction hsubmit hrevoke hc h)

/-- What issuing, revoking and settling preserve holds after a script of brief calls. -/
theorem playAll_induction (hsettle : ∀ e, P e → P e.settle) {s : Session} {steps : List Step}
    (hsteps : ∀ step ∈ steps, step.isBrief = true) (h : P s.engine) :
    P (s.playAll steps).2.engine := by
  induction steps generalizing s with
  | nil => exact h
  | cons step rest ih =>
      obtain ⟨hstep, hrest⟩ := List.forall_mem_cons.mp hsteps
      have hperformed : P (s.perform step).2.engine := by
        cases step with
        | call c => exact enact_induction hsubmit hrevoke hstep h
        | batch calls => exact enactAll_induction hsubmit hrevoke (List.all_eq_true.mp hstep) h
        | _ => cases hstep
      exact ih hrest (s := (s.play step).2) (hsettle _ hperformed)

end Session

end

namespace Session

/-! ### The timetable of a session -/

/-- A script may be played in two parts. -/
theorem playAll_append (s : Session) (first second : List Step) :
    (s.playAll (first ++ second)).2 = ((s.playAll first).2.playAll second).2 := by
  induction first generalizing s with
  | nil => rfl
  | cons step rest ih => exact ih (s.play step).2

/-- After a step the engine is the one that performing the step leaves, settled. -/
theorem engine_play (s : Session) (step : Step) :
    (s.play step).2.engine = (s.perform step).2.engine.settle :=
  rfl

/-- How much time passes in waits of the given spans, one after the other: their sum. -/
def passed (spans : List Nat) : Nat :=
  spans.foldr (· + ·) 0

/-- While a session waits, its engine stays `OnTime`, and `now` grows by `passed spans`. -/
theorem onTime_elapse {s : Session} {start delay : Nat} {fresh : Partition → List Nat}
    (h : s.engine.OnTime start delay fresh) (spans : List Nat) :
    (s.playAll (spans.map .elapse)).2.engine.OnTime start delay fresh ∧
      (s.playAll (spans.map .elapse)).2.engine.now = s.engine.now + passed spans := by
  induction spans generalizing s with
  | nil => exact ⟨h, rfl⟩
  | cons span rest ih =>
      obtain ⟨hwaited, hnow⟩ := h.elapse span
      have hplayed : (s.play (.elapse span)).2.engine = (s.engine.elapse span).settle :=
        s.engine_play (.elapse span)
      obtain ⟨hrest, hlast⟩ := ih (s := (s.play (.elapse span)).2) (hplayed ▸ hwaited.settle)
      have hplay : (s.playAll ((span :: rest).map .elapse)).2 =
          ((s.play (.elapse span)).2.playAll (rest.map .elapse)).2 :=
        s.playAll_append [.elapse span] (rest.map .elapse)
      have hpassed : passed (span :: rest) = span + passed rest := rfl
      rw [hplay, hlast, hplayed, Engine.now_settle, hnow, hpassed, Nat.add_assoc]
      exact ⟨hrest, rfl⟩

/-- When the engine of a session is `OnTime` since `start = now` and the session waits, exactly the
first `passed spans / delay` commits of each partition have ended, and every one of them
`isDecided`. -/
theorem ended_elapse {s : Session} {delay : Nat} {fresh : Partition → List Nat}
    (h : s.engine.OnTime s.engine.now delay fresh) (hsettled : s.IsSettled) (hpos : 0 < delay)
    (spans : List Nat) (p : Partition) :
    let later := (s.playAll (spans.map .elapse)).2.engine
    let ended := (fresh p).filter fun k => (later.status? k).isSome
    ended = (fresh p).take (passed spans / delay) ∧
      ended.length = min (passed spans / delay) (fresh p).length ∧
      ∀ k ∈ ended, later.isDecided k = true := by
  intro later ended
  obtain ⟨hlater, hnow⟩ := onTime_elapse h spans
  have hrest := isSettled_playAll hsettled (spans.map .elapse)
  obtain ⟨hended, hdecided⟩ := hlater.ended_eq hrest.engine hpos p
  rw [hnow, Nat.add_sub_cancel_left] at hended hdecided
  refine ⟨hended, ?_, fun k hk => hdecided k (hended ▸ hk)⟩
  exact (congrArg List.length hended).trans List.length_take

section

variable {config : Config} {attachment : Attachment} {setup : Setup} {broker : Broker}
  {first : Session} (hstart : start config attachment setup broker = .ok first)

include hstart

/-- A session that serves and has no commit on its way is ready to issue some: its engine is
`Issuing` from `now` on, with the commits issued so far as the old ones. -/
theorem issuing_of_idle (earlier : List Step)
    (hopen : (first.playAll earlier).2.engine.isClosed = false)
    (hidle : ∀ p, (first.playAll earlier).2.engine.pending p = [])
    (hcalls : (first.playAll earlier).2.engine.pendingCalls = []) :
    (first.playAll earlier).2.engine.Issuing (first.playAll earlier).2.engine.now
      (first.playAll earlier).2.engine.commitTime (first.playAll earlier).2.engine.issued := by
  obtain ⟨actions, hrun⟩ := exists_engine_actions hstart earlier
  have hsound := Engine.sound_start setup broker
  have hledger := Engine.ledger_start setup broker
  refine Engine.issuing_of_settled ?_ ?_
    (isSettled_playAll (isSettled_start hstart) earlier).engine
    (Engine.isClosed_eq_false_iff.mp hopen) hidle hcalls
  · rw [hrun]
    exact hsound.run actions
  · rw [hrun]
    exact hledger.run hsound actions

/-- A batch of brief steps at such a time leaves the engine `Issuing` from that time on, with the
commits before the batch as the old ones. -/
theorem issuing_batch (earlier : List Step) {delay : Nat} (hpos : 0 < delay)
    (hdelay : (first.playAll earlier).2.engine.broker.faults.delay = some delay)
    (hopen : (first.playAll earlier).2.engine.isClosed = false)
    (hidle : ∀ p, (first.playAll earlier).2.engine.pending p = [])
    (hcalls : (first.playAll earlier).2.engine.pendingCalls = [])
    {batch : List Step} (hbatch : ∀ step ∈ batch, step.isBrief = true) :
    (first.playAll (earlier ++ batch)).2.engine.Issuing (first.playAll earlier).2.engine.now delay
      (first.playAll earlier).2.engine.issued := by
  have hready := issuing_of_idle hstart earlier hopen hidle hcalls
  have htime : (first.playAll earlier).2.engine.commitTime = delay := by
    rw [Engine.commitTime, hdelay, Option.getD_some]
  rw [htime] at hready
  rw [playAll_append]
  exact playAll_induction (P := fun e => e.Issuing _ delay _)
    (fun e p o count he => he.submit p o count) (fun e p he => he.revoke p)
    (fun e he => he.settle hpos) hbatch hready

/-- Let the engine be `Issuing` from `t₀` on, and let none of its pending commits crash the client.
Then `close` answers with `t₀ + most * delay`, where `most` is the number of pending commits of the
partition with the most. -/
theorem answer_close (steps : List Step) {t₀ delay : Nat} {old : Partition → List Nat}
    (h : (first.playAll steps).2.engine.Issuing t₀ delay old)
    (hcalm : ∀ p, ∀ r ∈ (first.playAll steps).2.engine.pending p,
      r.offset ∉ (first.playAll steps).2.engine.setup.crashesAt)
    (hkept : (first.playAll steps).2.isDropped = false) {most : Nat}
    (hmost : IsGreatest
      (Set.range fun p => ((first.playAll steps).2.engine.pending p).length) most) :
    ((first.playAll steps).2.play .close).1.answer = .time (t₀ + most * delay) := by
  obtain ⟨actions, hrun⟩ := exists_engine_actions hstart steps
  have hsound := Engine.sound_start setup broker
  have hattended := (Engine.attended_start setup broker).run actions
  have hdraining := (Engine.draining_start setup broker).run hsound actions
  rw [← hrun] at hattended hdraining
  rw [← Engine.now_close h hcalm hattended hdraining hmost]
  have hanswer : ((first.playAll steps).2.play .close).1.answer =
      ((first.playAll steps).2.perform .close).1 := rfl
  rw [hanswer, perform, toCoordinator, hkept]
  rfl

/-- **Commits of a partition take turns, and partitions do not wait for each other**, to the
millisecond. Let `s` be a session at a time at which its engine serves, no commit is on its way and
every commit takes `delay`, and let the steps of `batch` take no time and issue the commits `fresh p`
of each partition `p`, on none of which the client of the broker crashes. Then after waits that come
to `passed spans` exactly the first `min (passed spans / delay) (fresh p).length` commits of each `p`
have ended, in the order of issue, and each of them was decided, one way or the other. A `close`
instead returns at `s.engine.now + most * delay`, where `most` is the greatest `(fresh p).length`. -/
theorem commits_keep_pace (earlier : List Step) {delay : Nat} (hpos : 0 < delay)
    (hdelay : (first.playAll earlier).2.engine.broker.faults.delay = some delay)
    (hopen : (first.playAll earlier).2.engine.isClosed = false)
    (hidle : ∀ p, (first.playAll earlier).2.engine.pending p = [])
    (hcalls : (first.playAll earlier).2.engine.pendingCalls = [])
    {batch : List Step} (hbatch : ∀ step ∈ batch, step.isBrief = true)
    (hcalm : ∀ p, ∀ k ∈ (first.playAll (earlier ++ batch)).2.engine.issued p,
      k ∉ (first.playAll earlier).2.engine.issued p → ∀ t : Ticket,
        (first.playAll (earlier ++ batch)).2.engine.tickets[k]? = some t →
          t.offset ∉ setup.crashesAt) :
    let s := (first.playAll earlier).2
    let after := (first.playAll (earlier ++ batch)).2
    ∃ fresh : Partition → List Nat,
      (∀ p, after.engine.issued p = s.engine.issued p ++ fresh p) ∧
      after.engine.now = s.engine.now ∧
      (∀ spans p,
        let later := (after.playAll (spans.map .elapse)).2.engine
        let ended := (fresh p).filter fun k => (later.status? k).isSome
        ended = (fresh p).take (passed spans / delay) ∧
          ended.length = min (passed spans / delay) (fresh p).length ∧
          ∀ k ∈ ended, later.isDecided k = true) ∧
      (after.isDropped = false → ∃ most,
        IsGreatest (Set.range fun p => (fresh p).length) most ∧
          (after.play .close).1.answer = .time (s.engine.now + most * delay)) := by
  intro s after
  have hissuing : after.engine.Issuing s.engine.now delay s.engine.issued :=
    issuing_batch hstart earlier hpos hdelay hopen hidle hcalls hbatch
  -- the pending commits are the issued ones, so the client crashes on none of them
  have hcalm' : ∀ p, ∀ r ∈ after.engine.pending p, r.offset ∉ after.engine.setup.crashesAt := by
    intro p r hr
    rw [setup_playAll hstart]
    exact hcalm p r.ticket (hissuing.steady.ledger.mem_issued hr) (hissuing.not_mem_old hr) _
      (hissuing.steady.ledger.ticket p r hr)
  have hsettled : after.IsSettled :=
    isSettled_playAll (isSettled_start hstart) (earlier ++ batch)
  refine ⟨_, hissuing.issued, hissuing.now,
    ended_elapse (hissuing.now ▸ hissuing.onTime hcalm') hsettled hpos, fun hkept => ?_⟩
  obtain ⟨most, hmost⟩ := Engine.exists_most_pending hissuing.steady.ledger
  exact ⟨most, by simpa only [List.length_map] using hmost,
    answer_close hstart (earlier ++ batch) hissuing hcalm' hkept hmost⟩

end

/-- Three commits of one partition, with a revocation between them and the first to be rejected, and
one of another, at five milliseconds each: after eleven milliseconds two of the three have ended, and
closing takes fifteen. -/
theorem commits_keep_pace_past_revocation :
    let p : Partition := ⟨"orders", 0⟩
    let other : Partition := ⟨"orders", 1⟩
    let broker : Broker := .start 7 { Faults.quiet with force := true, delay := some 5 }
    let setup : Setup := ⟨[.clamp 99], none⟩
    let delivered := Notice.ended .delivered
    let batch : List Step :=
      [.batch [.notify .received p (.clamp 0), .notifyEach delivered p [.clamp 0, .clamp 1]],
        .call (.revokePartition p),
        .batch [.notify .received p (.clamp 5), .notify delivered p (.clamp 5),
          .notify .received other (.clamp 0), .notify delivered other (.clamp 0)]]
    ∃ first, start .testing .exclusive setup broker = .ok first ∧
      (first.playAll batch).2.engine.issued p = [0, 1, 2] ∧
      (first.playAll batch).2.engine.issued other = [3] ∧
      ([0, 1, 2].filter fun k => ((((first.playAll batch).2.playAll
        ([4, 7].map Step.elapse)).2.engine).status? k).isSome) = [0, 1] ∧
      ((first.playAll batch).2.play .close).1.answer = .time 15 := by
  intro p other broker setup delivered batch
  let first : Session := ⟨⟨⟨.testing, ∅⟩, .start setup broker, #[]⟩, .exclusive, false, #[], []⟩
  have hstart : start .testing .exclusive setup broker = .ok first := rfl
  have hissued : (first.playAll batch).2.engine.issued p = [0, 1, 2] := by decide +kernel
  have hother : (first.playAll batch).2.engine.issued other = [3] := by decide +kernel
  have htickets : ∀ t ∈ (first.playAll batch).2.engine.tickets.toList,
      t.offset ∉ setup.crashesAt ∧ (t.partition = p ∨ t.partition = other) := by decide +kernel
  have hkept : (first.playAll batch).2.isDropped = false := by decide +kernel
  have hbrief : ∀ step ∈ batch, step.isBrief = true := by decide
  have hnever : ∀ q, (first.playAll []).2.engine.issued q = [] := fun _ => rfl
  obtain ⟨fresh, hfresh, hnow, hended, hclose⟩ :=
    commits_keep_pace hstart [] (show 0 < 5 by decide) rfl rfl (fun _ => rfl) rfl hbrief
      fun _ k _ _ t ht => (htickets t (Array.mem_toList_iff.mpr (Array.mem_of_getElem? ht))).1
  rw [List.nil_append] at hfresh hended hclose
  have hsame : ∀ q, fresh q = (first.playAll batch).2.engine.issued q := fun q => by
    rw [hfresh, hnever, List.nil_append]
  obtain ⟨most, hmost, hanswer⟩ := hclose hkept
  have hthree : most = 3 := by
    obtain ⟨q, hq⟩ := hmost.1
    have hlower := hmost.2 ⟨p, rfl⟩
    simp only [hsame] at hq hlower
    rw [hissued] at hlower
    refine Nat.le_antisymm (hq ▸ ?_) hlower
    rcases hfirst : (first.playAll batch).2.engine.issued q with _ | ⟨k, rest⟩
    · decide
    · obtain ⟨t, ht, rfl⟩ := Engine.mem_issued_iff.mp (hfirst ▸ List.mem_cons_self)
      rw [← hfirst]
      rcases (htickets t (Array.mem_toList_iff.mpr (Array.mem_of_getElem? ht))).2 with hp | hp
      · rw [hp, hissued]
        decide
      · rw [hp, hother]
        decide
  have hroom : passed [4, 7] / 5 = 2 := by decide
  have htwo : [0, 1, 2].take 2 = [0, 1] := rfl
  have hlast : (first.playAll []).2.engine.now + 3 * 5 = 15 := by decide
  obtain ⟨htaken, -⟩ := hended [4, 7] p
  rw [hsame, hissued, hroom, htwo] at htaken
  rw [hthree, hlast] at hanswer
  refine ⟨first, hstart, hissued, hother, ?_, ?_⟩
  · exact htaken
  · exact hanswer

end Session

end OffsetCommit
