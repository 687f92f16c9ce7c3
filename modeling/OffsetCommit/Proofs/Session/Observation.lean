import OffsetCommit.Proofs.Engine.Observer
import OffsetCommit.Proofs.Engine.Work
import OffsetCommit.Proofs.Session
import OffsetCommit.Proofs.Session.Alike

/-!
# Observers and receipts only observe

Two sessions whose steps differ in when receipts are let go, and whose engines differ in the
observer, tell the same: of every step that does more than let go of receipts the same is reported,
commits end at the same times, and so does every shutdown. Steps that only let go of receipts are
left out (`Step.undropped?`), and each session is compared with one that plays the steps that are
left.

* `IsSettled.play_eq`: a step that only lets go of receipts makes no difference to a settled
  session.
* `Alike.play`: every other step is told alike in alike sessions.
* `IsSettled.tale_eq`: so a script is told as the steps that are left of it would be.
* `IsSettled.firstTime?_eq`: and they come to the same at the same time.
* `observers_only_observe`: what this means for two sessions from the start.
-/

namespace OffsetCommit

/-! ### Steps that let go of receipts -/

/-- What a step does besides letting go of receipts; nothing when it does no more. -/
def Step.undropped? : Step → Option Step
  | .call c => if c.isDrop then none else some (.call c)
  | .batch calls =>
      match calls.filter (!·.isDrop) with
      | [] => none
      | c :: rest => some (.batch (c :: rest))
  | step => some step

/-- The answers to those calls that do not let go of a receipt. -/
def keptAnswers : List Call → List Answer → List Answer
  | c :: calls, answer :: answers =>
      if c.isDrop then keptAnswers calls answers else answer :: keptAnswers calls answers
  | _, _ => []

/-- The answer to what a step does besides letting go of receipts. -/
def Step.keptAnswer : Step → Answer → Answer
  | .batch calls, .batch answers => .batch (keptAnswers calls answers)
  | _, answer => answer

/-- A report without what was observed, and without the receipts of a list. -/
def Report.bare (gone : List Nat) (r : Report) : Report :=
  { r with done := r.done.filter (fun ended => ended.1 ∉ gone), seen := [], commits := [] }

/-- What is told of the steps that do more than let go of receipts, without what was observed and
without the receipts of a list. -/
def tale (gone : List Nat) : List Step → List Report → List Report
  | step :: steps, r :: reports =>
      match step.undropped? with
      | none => tale gone steps reports
      | some _ => { r.bare gone with answer := step.keptAnswer r.answer } :: tale gone steps reports
  | _, _ => []

/-- What is told at the end, without the receipts of a list. -/
def Summary.bare (gone : List Nat) (r : Summary) : Summary :=
  { r with pending := r.pending.filter (· ∉ gone) }

/-- A step of which nothing is left consists of calls that let go of receipts. -/
theorem Step.drops_of_undropped? {step : Step} (h : step.undropped? = none) :
    (∃ c, step = .call c ∧ c.isDrop = true) ∨
      ∃ calls, step = .batch calls ∧ ∀ c ∈ calls, c.isDrop = true := by
  cases step with
  | call c =>
      simp only [undropped?] at h
      split at h
      · next hc => exact .inl ⟨c, rfl, hc⟩
      · cases h
  | batch calls =>
      simp only [undropped?] at h
      split at h
      · next heq =>
          refine .inr ⟨calls, rfl, fun c hc => ?_⟩
          simpa using List.filter_eq_nil_iff.mp heq c hc
      · cases h
  | _ => cases h

/-- A step of which something is left is the same if it lets go of nothing, or it is a batch without
the calls that do. -/
theorem Step.eq_of_undropped? {step step' : Step} (h : step.undropped? = some step') :
    (step = step' ∧ step.hasDrop = false ∧ ∀ answer, step.keptAnswer answer = answer) ∨
      ∃ calls, step = .batch calls ∧ step' = .batch (calls.filter (!·.isDrop)) := by
  cases step with
  | call c =>
      simp only [undropped?] at h
      split at h
      · cases h
      · next hc =>
          exact .inl ⟨Option.some.inj h, Bool.eq_false_iff.mpr hc, fun _ => rfl⟩
  | batch calls =>
      simp only [undropped?] at h
      split at h
      · cases h
      · next c rest heq =>
          exact .inr ⟨calls, rfl, by rw [heq]; exact (Option.some.inj h).symm⟩
  | _ => exact .inl ⟨Option.some.inj h, rfl, fun _ => rfl⟩

/-- Letting go of receipts names no partition. -/
theorem partitions_undropped (steps : List Step) :
    steps.flatMap Step.partitions =
      (steps.filterMap Step.undropped?).flatMap Step.partitions := by
  have hcalls : ∀ calls : List Call,
      calls.filterMap Call.partition? = (calls.filter (!·.isDrop)).filterMap Call.partition? := by
    intro calls
    rw [List.filterMap_filter]
    apply List.filterMap_congr
    intro c _
    cases c <;> rfl
  induction steps with
  | nil => rfl
  | cons step rest ih =>
      rw [List.flatMap_cons, ih]
      rcases hstep : step.undropped? with _ | step'
      · have hnone : ∀ c : Call, c.isDrop = true → c.partition? = none := by
          intro c hc
          cases c <;> first | rfl | cases hc
        rw [List.filterMap_cons_none hstep, List.append_left_eq_self]
        rcases Step.drops_of_undropped? hstep with ⟨c, rfl, hc⟩ | ⟨calls, rfl, hdrops⟩
        · rw [Step.partitions, hnone c hc]
          rfl
        · exact List.filterMap_eq_nil_iff.mpr fun c hc => hnone c (hdrops c hc)
      · rw [List.filterMap_cons_some hstep, List.flatMap_cons]
        congr 1
        rcases Step.eq_of_undropped? hstep with ⟨rfl, -, -⟩ | ⟨calls, rfl, rfl⟩
        · rfl
        · exact hcalls calls

namespace Session

/-! ### Receipts that are let go -/

/-- The receipt that a call lets go of, if the session holds it. -/
def letGoBy (s : Session) : Call → List Nat
  | .dropReceipt r => if s.held.contains r then [r] else []
  | _ => []

/-- The receipts that calls let go of, one after the other. -/
def letGoByAll (s : Session) : List Call → List Nat
  | [] => []
  | c :: rest => s.letGoBy c ++ (s.enact c).2.letGoByAll rest

/-- The receipts that a step lets go of. -/
def letGoIn (s : Session) : Step → List Nat
  | .call c => s.letGoBy c
  | .batch calls => s.letGoByAll calls
  | _ => []

/-- The receipts that the steps of a script let go of. -/
def letGo (s : Session) : List Step → List Nat
  | [] => []
  | step :: rest => s.letGoIn step ++ (s.play step).2.letGo rest

variable {gone : List Nat}

/-- A call that lets go of a receipt of `gone`, or of one that is not held, leaves a session alike. -/
theorem alike_drop {s : Session} {c : Call} (hc : c.isDrop = true)
    (hgone : ∀ r ∈ s.letGoBy c, r ∈ gone) :
    ∃ held, (s.enact c).2 = { s with held := held } ∧ (∀ r ∈ held, r ∈ s.held) ∧
      (s.enact c).2.Alike gone s := by
  cases c with
  | dropReceipt r =>
      refine ⟨s.held.erase r, rfl, fun x hx => Array.mem_of_mem_erase hx, ?_⟩
      show Alike gone { s with held := s.held.erase r } s
      by_cases hr : r ∈ s.held
      · refine s.alike_erase (hgone r ?_)
        rw [letGoBy, if_pos (Array.contains_iff_mem.mpr hr)]
        exact List.mem_singleton_self r
      · rw [Array.erase_of_not_mem hr]
        exact .refl s
  | _ => cases hc

/-- Several calls that let go of receipts change nothing but `held`, which loses some of them, and
leave the session alike. -/
theorem alike_drops {s : Session} {calls : List Call} (hcalls : ∀ c ∈ calls, c.isDrop = true)
    (hgone : ∀ r ∈ s.letGoByAll calls, r ∈ gone) :
    ∃ held, (s.enactAll calls).2 = { s with held := held } ∧ (∀ r ∈ held, r ∈ s.held) ∧
      (s.enactAll calls).2.Alike gone s := by
  induction calls generalizing s with
  | nil => exact ⟨s.held, rfl, fun _ hr => hr, .refl s⟩
  | cons c rest ih =>
      obtain ⟨hc, hrest⟩ := List.forall_mem_cons.mp hcalls
      rw [letGoByAll] at hgone
      obtain ⟨held, heq, hsub, halike⟩ :=
        alike_drop hc fun r hr => hgone r (List.mem_append_left _ hr)
      obtain ⟨held', heq', hsub', halike'⟩ :=
        ih hrest fun r hr => hgone r (List.mem_append_right _ hr)
      refine ⟨held', ?_, fun r hr => hsub r ?_, halike'.trans halike⟩
      · show ((s.enact c).2.enactAll rest).2 = _
        rw [heq', heq]
      · have hr' := hsub' r hr
        rw [heq] at hr'
        exact hr'

/-- Calls among which some let go of receipts of `gone` come to the same as the others: the answers
that are kept are the same, and the sessions are alike. -/
theorem alike_enactAll {s s' : Session} (h : s.Alike gone s') {calls : List Call}
    (hgone : ∀ r ∈ s.letGoByAll calls, r ∈ gone) :
    keptAnswers calls (s.enactAll calls).1 = (s'.enactAll (calls.filter (!·.isDrop))).1 ∧
      (s.enactAll calls).2.Alike gone (s'.enactAll (calls.filter (!·.isDrop))).2 := by
  induction calls generalizing s s' with
  | nil => exact ⟨rfl, h⟩
  | cons c rest ih =>
      rw [letGoByAll] at hgone
      have hhere : ∀ r ∈ s.letGoBy c, r ∈ gone := fun r hr => hgone r (List.mem_append_left _ hr)
      have hlater : ∀ r ∈ (s.enact c).2.letGoByAll rest, r ∈ gone := fun r hr =>
        hgone r (List.mem_append_right _ hr)
      rcases hc : c.isDrop
      · obtain ⟨hanswer, halike⟩ := isBlind_enact hc s s' h
        obtain ⟨hanswers, hlast⟩ := ih halike hlater
        rw [List.filter_cons_of_pos (by rw [hc]; rfl)]
        simp only [enactAll, keptAnswers, hc, Bool.false_eq_true, if_false]
        dsimp only at hanswer
        rw [hanswers, hanswer]
        exact ⟨rfl, hlast⟩
      · obtain ⟨held, -, -, hdropped⟩ := alike_drop hc hhere
        rw [List.filter_cons_of_neg (by rw [hc]; exact Bool.false_ne_true)]
        simp only [enactAll, keptAnswers, hc, if_true]
        exact ih (hdropped.trans h) hlater

/-! ### Settled sessions -/

/-- A step that only lets go of receipts of `gone` leaves a settled session alike, and its engine as
it is. -/
theorem IsSettled.play_eq {s : Session} (h : s.IsSettled) {step : Step}
    (hstep : step.undropped? = none) (hgone : ∀ r ∈ s.letGoIn step, r ∈ gone) :
    (s.play step).2.Alike gone s ∧ (s.play step).2.engine = s.engine := by
  have hplayed : ∀ {held : Array Nat} {performed : Session}, performed = { s with held := held } →
      (∀ r ∈ held, r ∈ s.held) → performed.settle.2 = performed := by
    rintro held performed rfl hsub
    have hsettled : IsSettled { s with held := held } :=
      ⟨h.engine, h.shutdowns, fun r hr => h.held r (hsub r hr)⟩
    rw [hsettled.settle_eq]
  have hperformed : ∃ held, (s.perform step).2 = { s with held := held } ∧
      (∀ r ∈ held, r ∈ s.held) ∧ (s.perform step).2.Alike gone s := by
    rcases Step.drops_of_undropped? hstep with ⟨c, rfl, hc⟩ | ⟨calls, rfl, hcalls⟩
    · exact alike_drop hc hgone
    · exact alike_drops hcalls hgone
  obtain ⟨held, heq, hsub, halike⟩ := hperformed
  have hsame : (s.play step).2 = (s.perform step).2 := hplayed heq hsub
  rw [hsame]
  refine ⟨halike, ?_⟩
  rw [heq]
  rfl

/-! ### What is told of a script -/

/-- A step of which something is left is told alike in alike sessions, receipts of `gone` aside
(`Report.bare`). -/
theorem Alike.play {s s' : Session} (h : s.Alike gone s') {step step' : Step}
    (hstep : step.undropped? = some step') (hgone : ∀ r ∈ s.letGoIn step, r ∈ gone)
    (hwait : ∀ r, step = .wait r → r ∉ gone) :
    { (s.play step).1.bare gone with answer := step.keptAnswer (s.play step).1.answer } =
        (s'.play step').1.bare gone ∧
      (s.play step).2.Alike gone (s'.play step').2 := by
  have hperformed : step.keptAnswer (s.perform step).1 = (s'.perform step').1 ∧
      (s.perform step).2.Alike gone (s'.perform step').2 := by
    rcases Step.eq_of_undropped? hstep with ⟨rfl, hdrop, hkept⟩ | ⟨calls, rfl, rfl⟩
    · rw [hkept]
      exact isBlind_perform hdrop hwait s s' h
    · obtain ⟨hanswers, halike⟩ := alike_enactAll h hgone
      exact ⟨congrArg Answer.batch hanswers, halike⟩
  obtain ⟨hanswer, halike⟩ := hperformed
  obtain ⟨hdone, hsettled⟩ := halike.settle
  refine ⟨?_, hsettled⟩
  have hsize : s.pipeline.log.size = s'.pipeline.log.size := congrArg Array.size h.pipeline.log
  simp only [Session.play, Report.bare]
  rw [hanswer, hdone, hsettled.pipeline.log, hsize]

/-- A script is told as the steps that are left of it would be in an alike session. -/
theorem IsSettled.tale_eq {s s' : Session} (hsettled : s.IsSettled) (h : s.Alike gone s')
    {steps : List Step} (hgone : ∀ r ∈ s.letGo steps, r ∈ gone)
    (hwait : ∀ r, .wait r ∈ steps → r ∉ gone) :
    tale gone steps (s.playAll steps).1 =
        (s'.playAll (steps.filterMap Step.undropped?)).1.map (Report.bare gone) ∧
      (s.playAll steps).2.Alike gone (s'.playAll (steps.filterMap Step.undropped?)).2 := by
  induction steps generalizing s s' with
  | nil => exact ⟨rfl, h⟩
  | cons step rest ih =>
      rw [letGo] at hgone
      have hhere : ∀ r ∈ s.letGoIn step, r ∈ gone := fun r hr => hgone r (List.mem_append_left _ hr)
      have hlater : ∀ r ∈ (s.play step).2.letGo rest, r ∈ gone := fun r hr =>
        hgone r (List.mem_append_right _ hr)
      have hwaitLater : ∀ r, .wait r ∈ rest → r ∉ gone := fun r hr =>
        hwait r (List.mem_cons_of_mem step hr)
      have hnext : (s.play step).2.IsSettled := isSettled_settle _
      rcases hstep : step.undropped? with _ | step'
      · have halike := (hsettled.play_eq hstep hhere).1
        rw [List.filterMap_cons_none hstep]
        simp only [playAll, tale, hstep]
        exact ih hnext (halike.trans h) hlater hwaitLater
      · obtain ⟨hreport, halike⟩ := h.play hstep hhere fun r hr => hwait r (hr ▸ List.mem_cons_self)
        obtain ⟨htale, hlast⟩ := ih hnext halike hlater hwaitLater
        rw [List.filterMap_cons_some hstep]
        simp only [playAll, tale, hstep, List.map_cons]
        rw [htale, hreport]
        exact ⟨rfl, hlast⟩

/-- The summaries of alike sessions are the same, receipts of `gone` aside. -/
theorem Alike.summary {s s' : Session} (h : s.Alike gone s') (named : List Partition) :
    (s.summary named).bare gone = (s'.summary named).bare gone := by
  have hbroker : Engine.Overlooks Engine.broker := fun _ => rfl
  have hnow : Engine.Overlooks Engine.now := fun _ => rfl
  have hheld : s.held.toList.filter (· ∉ gone) = s'.held.toList.filter (· ∉ gone) := by
    rw [← Array.toList_filter, h.held, Array.toList_filter]
  simp only [Session.summary, Summary.bare]
  rw [h.query hbroker, h.query hnow, h.isDropped, h.pipeline.coordinator, h.shutdowns, hheld]

/-! ### When things happen -/

/-- Alike sessions stand still at the same engines, up to the observer. -/
theorem Alike.halts {s s' : Session} (h : s.Alike gone s') {step step' : Step}
    (hstep : step.undropped? = some step') (hwait : ∀ r, step = .wait r → r ∉ gone) :
    (s.halts step).map Engine.unobserved = (s'.halts step').map Engine.unobserved := by
  rcases Step.eq_of_undropped? hstep with ⟨rfl, hdrop, -⟩ | ⟨calls, rfl, rfl⟩
  · have hrelated := (alike_iff.mp h).halts Engine.isCongruence_sameUnobserved fun r hr =>
      hwait r (step.eq_wait_of_mem_receipts hdrop hr)
    rw [← List.forall₂_eq_eq_eq, List.forall₂_map_left_iff, List.forall₂_map_right_iff]
    exact hrelated
  · rfl

/-- The clock stands still at first where a session is. -/
theorem exists_moments_eq (s : Session) (steps : List Step) :
    ∃ later, s.moments steps = s.engine :: later := by
  cases steps with
  | nil => exact ⟨[], rfl⟩
  | cons step rest => exact ⟨_, rfl⟩

/-- The first engine that is as asked for is the same up to the observer, if `isDone` overlooks it. -/
theorem find?_unobserved {isDone : Engine → Bool} (hdone : Engine.Overlooks isDone)
    (engines : List Engine) :
    (engines.find? isDone).map Engine.unobserved =
      (engines.map Engine.unobserved).find? isDone := by
  rw [List.find?_map]
  congr 2
  funext e
  exact (hdone e).symm

/-- Letting go of receipts takes no time, so alike sessions find the same engine first, up to the
observer. -/
theorem IsSettled.find?_moments {s s' : Session} (hsettled : s.IsSettled) (h : s.Alike gone s')
    {steps : List Step} (hgone : ∀ r ∈ s.letGo steps, r ∈ gone)
    (hwait : ∀ r, .wait r ∈ steps → r ∉ gone) (isDone : Engine → Bool) :
    ((s.moments steps).map Engine.unobserved).find? isDone =
      ((s'.moments (steps.filterMap Step.undropped?)).map Engine.unobserved).find? isDone := by
  induction steps generalizing s s' with
  | nil =>
      simp only [moments, List.filterMap_nil, List.map_cons, List.map_nil]
      rw [h.engine]
  | cons step rest ih =>
      rw [letGo] at hgone
      have hhere : ∀ r ∈ s.letGoIn step, r ∈ gone := fun r hr => hgone r (List.mem_append_left _ hr)
      have hlater : ∀ r ∈ (s.play step).2.letGo rest, r ∈ gone := fun r hr =>
        hgone r (List.mem_append_right _ hr)
      have hwaitLater : ∀ r, .wait r ∈ rest → r ∉ gone := fun r hr =>
        hwait r (List.mem_cons_of_mem step hr)
      have hwaitHere : ∀ r, step = .wait r → r ∉ gone := fun r hr => hwait r (hr ▸ List.mem_cons_self)
      have hnext : (s.play step).2.IsSettled := isSettled_settle _
      rcases hstep : step.undropped? with _ | step'
      · -- the clock stands still at the same engine twice
        obtain ⟨halike, hengine⟩ := hsettled.play_eq hstep hhere
        have hhalts : s.halts step = [] := by
          rcases Step.drops_of_undropped? hstep with ⟨c, rfl, -⟩ | ⟨calls, rfl, -⟩ <;> rfl
        obtain ⟨later, hmoments⟩ := (s.play step).2.exists_moments_eq rest
        rw [List.filterMap_cons_none hstep, ← ih hnext (halike.trans h) hlater hwaitLater, moments,
          hhalts, List.nil_append, hmoments, hengine, List.map_cons, List.map_cons]
        rcases hfound : isDone s.engine.unobserved
        · rw [List.find?_cons_of_neg (by rw [hfound]; exact Bool.false_ne_true)]
        · rw [List.find?_cons_of_pos hfound, List.find?_cons_of_pos hfound]
      · have halike := (h.play hstep hhere hwaitHere).2
        rw [List.filterMap_cons_some hstep, moments, moments]
        simp only [List.map_cons, List.map_append, List.find?_cons, List.find?_append]
        rw [ih hnext halike hlater hwaitLater, h.halts hstep hwaitHere, h.engine]

/-- Alike sessions come to the same at the same time: `firstTime?` does not look at the observer. -/
theorem IsSettled.firstTime?_eq {s s' : Session} (hsettled : s.IsSettled) (h : s.Alike gone s')
    {steps : List Step} (hgone : ∀ r ∈ s.letGo steps, r ∈ gone)
    (hwait : ∀ r, .wait r ∈ steps → r ∉ gone) {isDone : Engine → Bool}
    (hdone : Engine.Overlooks isDone) :
    s.firstTime? isDone steps = s'.firstTime? isDone (steps.filterMap Step.undropped?) := by
  have hnow : ∀ engines : List Engine, (engines.find? isDone).map Engine.now =
      ((engines.map Engine.unobserved).find? isDone).map Engine.now := by
    intro engines
    rw [← find?_unobserved hdone, Option.map_map]
    rfl
  rw [firstTime?, firstTime?, hnow (s.moments steps), hnow (s'.moments _),
    hsettled.find?_moments h hgone hwait]

/-! ### Two sessions -/

/-- Sessions whose setups have the same `crashesAt` begin `Alike`, whatever their observers are. -/
theorem alike_start {config : Config} {attachment : Attachment} {setup setup' : Setup}
    (hsetup : setup.crashesAt = setup'.crashesAt) {broker : Broker} {s s' : Session}
    (hstart : start config attachment setup broker = .ok s)
    (hstart' : start config attachment setup' broker = .ok s') (gone : List Nat) :
    s'.Alike gone s := by
  rw [start_eq hstart, start_eq hstart']
  have hengine : (Engine.start setup' broker).unobserved =
      (Engine.start setup broker).unobserved := by
    simp only [Engine.unobserved, Engine.start, hsetup]
  exact ⟨⟨rfl, hengine, rfl⟩, rfl, rfl, rfl, rfl⟩

/-- Scripts that are equal up to `Step.undropped?` wait for the same receipts. -/
theorem mem_wait_of_undropped {steps steps' : List Step}
    (hsteps : steps.filterMap Step.undropped? = steps'.filterMap Step.undropped?) {r : Nat}
    (hr : .wait r ∈ steps') : .wait r ∈ steps := by
  have hmem : Step.wait r ∈ steps.filterMap Step.undropped? := by
    rw [hsteps]
    exact List.mem_filterMap.mpr ⟨_, hr, rfl⟩
  obtain ⟨step, hstep, heq⟩ := List.mem_filterMap.mp hmem
  rcases Step.eq_of_undropped? heq with ⟨rfl, -, -⟩ | ⟨calls, -, hcalls⟩
  · exact hstep
  · cases hcalls

/-- At any time the observer of a session has noted the counts of `granted` on which it does not
crash and `missed` the others, in some order. -/
theorem observed_playAll {config : Config} {attachment : Attachment} {setup : Setup}
    {broker : Broker} {s : Session} (hstart : start config attachment setup broker = .ok s)
    (steps : List Step) :
    let e := (s.playAll steps).2.engine
    e.observed.toList.Perm (e.granted.filterMap setup.notes?) ∧
      e.missed.Perm (e.granted.filterMap setup.misses?) ∧
      (setup.observer.isSome → e.observed.size + e.missed.length = e.granted.length) := by
  intro e
  have hsetup : e.setup = setup := setup_playAll hstart steps
  have hnoted : e.Noted := by
    obtain ⟨actions, hrun⟩ := exists_engine_actions hstart steps
    show (s.playAll steps).2.engine.Noted
    rw [hrun]
    exact (Engine.noted_start setup broker).run (Engine.sound_start setup broker)
      (Engine.ledger_start setup broker) actions
  have hobserved : e.observed.toList = e.told.filterMap setup.notes? := hsetup ▸ hnoted.observed_eq
  have hmissed : e.missed = e.told.filterMap setup.misses? := hsetup ▸ hnoted.missed_eq
  refine ⟨?_, ?_, fun hobserver => ?_⟩
  · rw [hobserved]
    exact hnoted.told_perm.filterMap _
  · rw [hmissed]
    exact hnoted.told_perm.filterMap _
  · rw [← Array.length_toList, hobserved, hmissed, Setup.length_notes_add_misses hobserver,
      hnoted.told_perm.length_eq]

/-- **Observers and receipts only observe.** Let two sessions differ in their observers alone, and
their scripts in which receipts are let go and when (`Step.undropped?`), such that no step waits for
a receipt that was let go in either. Up to what the observer noted, the lines of the commit path and
the receipts `gone`, every step is reported alike (`tale`), and so is the end (`bare`). Every commit
has the same `status?` and `endTime?`, and every request to shut down the same `returnTime?`. And
the observer has been called once for each commit that went through: `observed` holds the counts of
`e.granted` on which it does not crash, and `missed` the others. -/
theorem observers_only_observe {config : Config} {attachment : Attachment} {setup setup' : Setup}
    (hsetup : setup.crashesAt = setup'.crashesAt) {broker : Broker} {s s' : Session}
    (hstart : start config attachment setup broker = .ok s)
    (hstart' : start config attachment setup' broker = .ok s') {steps steps' : List Step}
    (hsteps : steps.filterMap Step.undropped? = steps'.filterMap Step.undropped?)
    (hwait : ∀ r, .wait r ∈ steps → r ∉ s.letGo steps ∧ r ∉ s'.letGo steps') :
    let gone := s.letGo steps ++ s'.letGo steps'
    let e := (s.playAll steps).2.engine
    let e' := (s'.playAll steps').2.engine
    tale gone steps (s.run steps).1 = tale gone steps' (s'.run steps').1 ∧
      (s.run steps).2.bare gone = (s'.run steps').2.bare gone ∧
      (∀ k, e.status? k = e'.status? k ∧ s.endTime? k steps = s'.endTime? k steps') ∧
      (∀ c, s.returnTime? c steps = s'.returnTime? c steps') ∧
      e.observed.toList.Perm (e.granted.filterMap setup.notes?) ∧
      e.missed.Perm (e.granted.filterMap setup.misses?) ∧
      (setup.observer.isSome → e.observed.size + e.missed.length = e.granted.length) := by
  intro gone e e'
  have halike : s'.Alike gone s := alike_start hsetup hstart hstart' gone
  have hgone : ∀ r ∈ s.letGo steps, r ∈ gone := fun r hr => List.mem_append_left _ hr
  have hgone' : ∀ r ∈ s'.letGo steps', r ∈ gone := fun r hr => List.mem_append_right _ hr
  have hwaits : ∀ r, .wait r ∈ steps → r ∉ gone := fun r hr hmem =>
    (List.mem_append.mp hmem).elim (hwait r hr).1 (hwait r hr).2
  have hwaits' : ∀ r, .wait r ∈ steps' → r ∉ gone := fun r hr =>
    hwaits r (mem_wait_of_undropped hsteps hr)
  have hsettled := isSettled_start hstart
  have hsettled' := isSettled_start hstart'
  -- both sessions are compared with the first one without the steps that only let go of receipts
  obtain ⟨htale, hlast⟩ := hsettled.tale_eq (.refl s) hgone hwaits
  obtain ⟨htale', hlast'⟩ := hsettled'.tale_eq halike hgone' hwaits'
  rw [← hsteps] at htale' hlast'
  have htime : ∀ {isDone : Engine → Bool}, Engine.Overlooks isDone →
      s.firstTime? isDone steps = s'.firstTime? isDone steps' := by
    intro isDone hdone
    rw [hsettled.firstTime?_eq (.refl s) hgone hwaits hdone,
      hsettled'.firstTime?_eq halike hgone' hwaits' hdone, hsteps]
  have hend : (s.playAll steps).2.Alike gone (s'.playAll steps').2 := hlast.trans hlast'.symm
  refine ⟨htale.trans htale'.symm, ?_, fun k => ⟨?_, htime ?_⟩, fun c => htime ?_,
    observed_playAll hstart steps⟩
  · show (Session.summary _ _).bare gone = (Session.summary _ _).bare gone
    rw [partitions_undropped steps, partitions_undropped steps', hsteps]
    exact hend.summary _
  · have hstatus : Engine.Overlooks (·.status? k) := fun _ => rfl
    exact hend.query hstatus
  · exact fun _ => rfl
  · exact fun _ => rfl

/-- One observer crashes on the second of three commits and the other session has none, and each of
the sessions lets go of another receipt. The second commit ends after ten milliseconds in both. -/
theorem observers_only_observe_past_crash :
    let p : Partition := ⟨"orders", 0⟩
    let broker : Broker := .start 7 { Faults.quiet with delay := some 5 }
    let commits : List Call :=
      [.commit p ⟨.clamp 4, 1⟩, .commit p ⟨.clamp 6, 2⟩, .commit p ⟨.clamp 9, 3⟩]
    let steps : List Step := [.batch commits, .call (.dropReceipt 0), .wait 1, .close]
    let steps' : List Step := [.batch (commits ++ [.dropReceipt 2]), .wait 1, .close]
    ∃ s s', start .testing .shared ⟨[], some [2]⟩ broker = .ok s ∧
      start .testing .shared ⟨[], none⟩ broker = .ok s' ∧
      s.letGo steps = [0] ∧ s'.letGo steps' = [2] ∧
      tale [0, 2] steps (s.run steps).1 = tale [0, 2] steps' (s'.run steps').1 ∧
      s.endTime? 1 steps = some 10 ∧ s'.endTime? 1 steps' = some 10 ∧
      (s.playAll steps).2.engine.observed.toList.Perm [1, 3] ∧
      (s.playAll steps).2.engine.missed.Perm [(p, .clamp 6)] := by
  intro p broker commits steps steps'
  let s : Session := ⟨⟨⟨.testing, ∅⟩, .start ⟨[], some [2]⟩ broker, #[]⟩, .shared, false, #[], []⟩
  let s' : Session := ⟨⟨⟨.testing, ∅⟩, .start ⟨[], none⟩ broker, #[]⟩, .shared, false, #[], []⟩
  have hcrashes : Setup.crashesAt ⟨[], some [2]⟩ = Setup.crashesAt ⟨[], none⟩ := rfl
  have hstart : start .testing .shared ⟨[], some [2]⟩ broker = .ok s := rfl
  have hstart' : start .testing .shared ⟨[], none⟩ broker = .ok s' := rfl
  have hsteps : steps.filterMap Step.undropped? = steps'.filterMap Step.undropped? := by
    decide +kernel
  have hgone : s.letGo steps = [0] := by decide +kernel
  have hgone' : s'.letGo steps' = [2] := by decide +kernel
  have hwait : ∀ r, .wait r ∈ steps → r ∉ s.letGo steps ∧ r ∉ s'.letGo steps' := by
    intro r hr
    rw [hgone, hgone']
    obtain rfl : r = 1 := by simpa [steps] using hr
    decide
  have hend : s.endTime? 1 steps = some 10 := by decide +kernel
  have hgranted : (s.playAll steps).2.engine.granted =
      [(p, .clamp 4, 1), (p, .clamp 6, 2), (p, .clamp 9, 3)] := by decide +kernel
  obtain ⟨htale, -, hstatus, -, hobserved, hmissed, -⟩ :=
    observers_only_observe hcrashes hstart hstart' hsteps hwait
  rw [hgone, hgone'] at htale
  rw [hgranted] at hobserved hmissed
  exact ⟨s, s', hstart, hstart', hgone, hgone', htale, hend, (hstatus 1).2 ▸ hend, hobserved, hmissed⟩

end Session

end OffsetCommit
