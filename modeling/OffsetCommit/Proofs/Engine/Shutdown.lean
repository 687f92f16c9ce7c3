import OffsetCommit.Proofs.Engine.Callers
import OffsetCommit.Proofs.Engine.Custody
import OffsetCommit.Proofs.Engine.Draining

/-!
# What a shutdown drains

A request to shut down parts the commits: those that were issued before it stand before it in the
mailbox, and those that are issued later stand behind it (`Engine.Parts`). The lanes bring the
earlier ones to an end before the loop stops and answers; the later ones are given up, and the
broker never hears of them.

* `Parts.run`: the request parts the commits until it is taken.
* `taken_before_shutdown`: when the loop comes to it, it has taken just the earlier commits.
* `taken_before_hangUp`: the same when the loop drains because all clients have gone.
* `shutdown_drains`: so an engine that has begun to drain has `Drained` just these.
-/

namespace OffsetCommit.Engine

/-! ### Before and behind the request -/

/-- A request `.shutdown caller` waits in the mailbox and parts the commits: those with tickets
below `bound` are taken or stand before it, all others behind. `Parts.run` keeps this until it is
taken. -/
structure Parts (e : Engine) (caller bound : Nat) (taken : List Request) : Prop where
  /-- The commits with lower tickets have all been issued. -/
  bound_le : bound ≤ e.tickets.size
  /-- Only such commits have been taken. -/
  taken : ∀ r ∈ taken, r.ticket < bound
  /-- Such commits stand before the request, and all others behind it. -/
  mailbox : ∃ front back, e.mailbox.toList = front ++ .shutdown caller :: back ∧
    .shutdown caller ∉ front ∧ (∀ r, .commit r ∈ front → r.ticket < bound) ∧
      ∀ r, .commit r ∈ back → bound ≤ r.ticket

/-- A request to shut down parts the commits issued so far, those with tickets below
`e.tickets.size`, from all later ones. -/
theorem parts_shutdown {e : Engine} (h : e.Attended) (hl : e.Ledger) {taken : List Request}
    {accepted : Nat → List Request} (hdealt : e.Dealt taken accepted)
    (hserving : e.stage = .serving) :
    e.shutdown.Parts e.callers.size e.tickets.size taken := by
  have hopen : e.isClosed = false := isClosed_eq_false_iff.mpr hserving
  refine ⟨?_, fun r hr => ?_, e.mailbox.toList, [], ?_, fun hmem => ?_, fun r hr => ?_,
    fun r hr => ?_⟩
  · simp [Engine.shutdown, hopen]
  · obtain ⟨t, ht, -⟩ := hdealt.ticket r hr
    exact (Array.getElem?_eq_some_iff.mp ht).1
  · simp [Engine.shutdown, hopen, Queue.toList_push]
  · exact Nat.lt_irrefl _ (h.lt_size hmem)
  · exact hl.lt_size (mem_pending_of_mailed (mem_mailed_iff.mpr hr))
  · cases hr

/-- The request parts the commits for as long as it has not been taken. -/
theorem Parts.act {e : Engine} {caller bound : Nat} {taken : List Request}
    (h : e.Parts caller bound taken) (hsound : e.Sound) {a : EngineAction}
    (hserving : (e.act a).stage = .serving) :
    (e.act a).Parts caller bound (taken ++ e.takes a) := by
  obtain ⟨front, back, hmail, hfirst, hfront, hback⟩ := h.mailbox
  cases delivery_act hsound a with
  | stays takes mailbox size =>
      rw [takes, List.append_nil]
      refine ⟨?_, h.taken, front, back, mailbox ▸ hmail, hfirst, hfront, hback⟩
      rw [size (serving_of_act hserving)]
      exact h.bound_le
  | posted command _ takes mailbox ticket size =>
      rw [takes, List.append_nil]
      refine ⟨?_, h.taken, front, back ++ [command], ?_, hfirst, hfront, fun r hr => ?_⟩
      · rw [size]
        exact h.bound_le.trans (Nat.le_add_right _ _)
      · rw [mailbox, hmail, List.append_assoc, List.cons_append]
      · rcases List.mem_append.mp hr with hr | hr
        · exact hback r hr
        · have hcommand : command = .commit r := (List.mem_singleton.mp hr).symm
          rw [ticket r (by rw [hcommand]; rfl)]
          exact h.bound_le
  | taken command takes mailbox size stage =>
      rw [mailbox] at hmail
      rcases front with _ | ⟨head, front⟩
      · -- the request itself has been taken, so the engine does not serve any more
        obtain ⟨rfl, -⟩ := List.cons.inj hmail
        rw [stage caller rfl] at hserving
        cases hserving
      · obtain ⟨rfl, hrest⟩ := List.cons.inj hmail
        refine ⟨size ▸ h.bound_le, fun r hr => ?_, front, back, hrest,
          fun hmem => hfirst (List.mem_cons_of_mem _ hmem),
          fun r hr => hfront r (List.mem_cons_of_mem _ hr), hback⟩
        rcases List.mem_append.mp hr with hr | hr
        · exact h.taken r hr
        · rw [takes] at hr
          cases command with
          | commit x =>
              rw [List.mem_singleton.mp hr]
              exact hfront x List.mem_cons_self
          | revoke p => cases hr
          | shutdown c => cases hr
  | discarded _ _ stopped =>
      rw [stopped] at hserving
      cases hserving

/-- A run preserves `Parts` if the loop still serves at its end, with `e.taken actions` appended. -/
theorem Parts.run {e : Engine} {caller bound : Nat} {taken : List Request}
    (h : e.Parts caller bound taken) (hsound : e.Sound) {actions : List EngineAction}
    (hserving : (e.run actions).stage = .serving) :
    (e.run actions).Parts caller bound (taken ++ e.taken actions) := by
  induction actions generalizing e taken with
  | nil =>
      rw [Engine.taken, along, List.append_nil]
      exact h
  | cons a rest ih =>
      rw [Engine.taken, along, ← List.append_assoc]
      exact ih (h.act hsound (serving_of_run hserving)) (hsound.act a) hserving

/-- When the request comes first in the mailbox, the commits with tickets below `bound` have been
taken, and no other has. -/
theorem Parts.mem_taken_iff {e : Engine} {caller bound : Nat} {taken : List Request}
    (h : e.Parts caller bound taken) {accepted : Nat → List Request}
    (hdealt : e.Dealt taken accepted) (hserving : e.stage = .serving)
    (hhead : e.mailbox.toList.head? = some (.shutdown caller)) (k : Nat) :
    (∃ r ∈ taken, r.ticket = k) ↔ k < bound := by
  obtain ⟨front, back, hmail, hfirst, -, hback⟩ := h.mailbox
  constructor
  · rintro ⟨r, hr, rfl⟩
    exact h.taken r hr
  · intro hk
    have hmem : k ∈ (taken ++ e.mailed).map Request.ticket := by
      rw [hdealt.all hserving, List.mem_range]
      exact hk.trans_le h.bound_le
    obtain ⟨r, hr, rfl⟩ := List.mem_map.mp hmem
    rcases List.mem_append.mp hr with hr | hr
    · exact ⟨r, hr, rfl⟩
    · exfalso
      have hcommand := mem_mailed_iff.mp hr
      rw [hmail] at hcommand hhead
      rcases front with _ | ⟨head, front⟩
      · rcases List.mem_cons.mp hcommand with heq | hbehind
        · cases heq
        · exact Nat.lt_irrefl _ (hk.trans_le (hback r hbehind))
      · rw [List.cons_append, List.head?_cons, Option.some.injEq] at hhead
        exact hfirst (hhead ▸ List.mem_cons_self)

/-! ### Commits that never get a turn -/

/-- What is under way is in some lane. -/
theorem exists_pendingIn_of_underWay {e : Engine} {p : Partition} {r : Request}
    (hr : r ∈ e.underWay p) : ∃ i, r ∈ e.lanes.pendingIn i := by
  obtain ⟨i, lane, hi, -, hcurrent⟩ := Lanes.mem_underWay_iff.mp hr
  refine ⟨i, Lanes.mem_pendingIn_iff.mpr ⟨lane, hi, List.mem_append_left _ ?_⟩⟩
  rw [hcurrent]
  exact List.mem_singleton_self r

/-- What a lane holds it was handed. -/
theorem Fate.mem_accepted {e : Engine} {i : Nat} {accepted crashed : List Request}
    (h : e.Fate i accepted crashed) (hsound : e.Sound) {r : Request}
    (hr : r ∈ e.lanes.pendingIn i) : r ∈ accepted := by
  cases h with
  | unharmed done haccepted =>
      rw [haccepted]
      exact List.mem_append_right _ hr
  | lost _ _ _ _ _ _ _ hended =>
      rw [hsound.wellFormed.pendingIn_of_hasEnded hended] at hr
      cases hr

/-- A turn comes only to a commit that has been taken. -/
theorem mem_taken_of_begun {setup : Setup} {broker : Broker} {actions : List EngineAction}
    {p : Partition} {r : Request} (hr : r ∈ (start setup broker).begun p actions) :
    r ∈ (start setup broker).taken actions := by
  -- along a run from any point, with the actions before it kept in view
  have hrun : ∀ earlier : List EngineAction,
      r ∈ ((start setup broker).run earlier).begun p actions →
        r ∈ (start setup broker).taken (earlier ++ actions) := by
    clear hr
    induction actions with
    | nil => exact fun _ hr => by cases hr
    | cons a rest ih =>
        intro earlier hr
        rw [begun, List.mem_append] at hr
        have hsplit : earlier ++ a :: rest = earlier ++ [a] ++ rest := by simp
        rw [hsplit]
        rcases hr with hr | hr
        · have hunder : r ∈ ((start setup broker).run (earlier ++ [a])).underWay p := by
            rw [run_append]
            exact List.mem_of_mem_filter hr
          obtain ⟨i, hi⟩ := exists_pendingIn_of_underWay hunder
          have haccepted := (fate_run setup broker (earlier ++ [a]) i).mem_accepted
            (sound_run setup broker _) hi
          rw [taken, along_append]
          exact List.mem_append_left _
            (((dealt_run setup broker (earlier ++ [a])).sublist i).subset haccepted)
        · apply ih
          rw [run_append]
          exact hr
  exact hrun [] hr

/-! ### What is drained -/

/-- What becomes of the commits along `actions` when the engine has begun to drain with just the
tickets below `bound` taken: these are decided or lost to a crash, and all others are given up
unheard. -/
structure Drained (first : Engine) (actions : List EngineAction) (bound : Nat) : Prop where
  /-- An earlier commit is decided, unless the client crashed on it or on one before it in its
  lane. -/
  earlier : ∀ k < bound, ∃ r ∈ first.taken actions, r.ticket = k ∧
    ∀ s, (first.run actions).status? k = some s → s.isDecided = true ∨ first.IsLost actions r
  /-- A later commit is given up. -/
  later : ∀ k ≥ bound, ∀ s, (first.run actions).status? k = some s → ∃ o, s = .abandoned o
  /-- The broker is never asked for a later commit. -/
  unheard : ∀ p, ∀ r ∈ first.begun p actions, r.ticket < bound
  /-- When the engine has stopped every commit has ended. -/
  ended : (first.run actions).stage = .stopped → ∀ k < (first.run actions).tickets.size,
    ((first.run actions).status? k).isSome = true
  /-- At rest the engine has stopped, and everyone who asked has been answered. -/
  rest : (first.run actions).IsAtRest → (first.run actions).stage = .stopped ∧
    ∀ c < (first.run actions).callers.size, (first.run actions).hasReturned c = true
  /-- When it is left alone, it comes to rest. -/
  comesToRest : ∃ further : List EngineAction, (∀ a ∈ further, a.isInternal = true) ∧
    (first.run (actions ++ further)).IsAtRest

/-- An engine that does not serve any more and has taken just the commits below `bound` has
`Drained` these. -/
theorem drained_of_taken {setup : Setup} {broker : Broker} {actions : List EngineAction}
    {bound : Nat} (hclosed : ((start setup broker).run actions).stage ≠ .serving)
    (htaken : ∀ k, (∃ r ∈ (start setup broker).taken actions, r.ticket = k) ↔ k < bound) :
    (start setup broker).Drained actions bound := by
  have hsound := sound_run setup broker actions
  have hl := ledger_run setup broker actions
  have hclosing := (closing_start setup broker).run (sound_start setup broker) actions
  have hdraining := (draining_start setup broker).run (sound_start setup broker) actions
  -- a commit must be taken before it can have its turn
  have hunheard : ∀ p, ∀ r ∈ (start setup broker).begun p actions, r.ticket < bound :=
    fun p r hr => (htaken r.ticket).mp ⟨r, mem_taken_of_begun hr, rfl⟩
  refine ⟨fun k hk => ?_, fun k hk s hs => ?_, hunheard, fun hstopped k hk => ?_, fun hrest => ?_,
    ?_⟩
  · obtain ⟨r, hr, rfl⟩ := (htaken k).mpr hk
    refine ⟨r, hr, rfl, fun s hs => ?_⟩
    rcases isDecided_or_isAbandoned (Option.isSome_iff_exists.mpr ⟨s, hs⟩) with hdecided | hgone
    · rw [isDecided, hs] at hdecided
      exact .inl hdecided
    · exact .inr ((isAbandoned_iff_isLost hr).mp hgone)
  · -- a decided commit would have had its turn
    have hnot : s.isDecided = false := by
      rw [Bool.eq_false_iff]
      intro hdecided
      rcases ht : ((start setup broker).run actions).tickets[k]? with _ | t
      · rw [status?, ht] at hs
        cases hs
      · have horder := (inOrder_start setup broker t.partition).run (sound_start setup broker)
          (ledger_start setup broker) actions
        obtain ⟨r, hr, rfl⟩ := horder.decided k (mem_issued_iff.mpr ⟨t, ht, rfl⟩)
          (by rw [isDecided, hs]; exact hdecided)
        exact Nat.not_lt.mpr hk (hunheard _ r hr)
    cases s with
    | abandoned o => exact ⟨o, rfl⟩
    | committed o count => cases hnot
    | failed o reason => cases hnot
  · have ht := Array.getElem?_eq_getElem hk
    rw [status?_of_getElem? ht, Option.isSome_iff_ne_none]
    intro hnone
    obtain ⟨r, hr, -⟩ := hl.pending k _ ht hnone
    rw [hdraining.pending_eq_nil hsound hclosing hstopped] at hr
    cases hr
  · have hnot := hrest.not_draining hsound hclosing
    refine ⟨?_, fun c hc => ((attended_start setup broker).run actions).hasReturned
      (hrest.mailbox_eq_nil hsound hclosing) hnot hc⟩
    rcases hstage : ((start setup broker).run actions).stage with _ | ⟨caller, awaited⟩ | _
    · exact absurd hstage hclosed
    · exact absurd hstage (hnot caller awaited)
    · rfl
  · obtain ⟨further, hinternal, hrest⟩ := exists_isAtRest ((start setup broker).run actions)
    exact ⟨further, hinternal, run_append _ actions further ▸ hrest⟩

/-- When the loop comes to a request to shut down, it has taken the commits that were issued before
the request, and no other. -/
theorem taken_before_shutdown {setup : Setup} {broker : Broker} {before between : List EngineAction}
    (hserving : ((start setup broker).run (before ++ .shutdown :: between)).stage = .serving)
    (hhead : ((start setup broker).run (before ++ .shutdown :: between)).mailbox.toList.head? =
      some (.shutdown ((start setup broker).run before).callers.size)) (k : Nat) :
    (∃ r ∈ (start setup broker).taken (before ++ .shutdown :: between), r.ticket = k) ↔
      k < ((start setup broker).run before).tickets.size := by
  have hdealt := dealt_run setup broker (before ++ .shutdown :: between)
  rw [taken, along_append, run_append, run_cons] at *
  have hparts := parts_shutdown ((attended_start setup broker).run before)
    (ledger_run setup broker before) (dealt_run setup broker before)
    (serving_of_act (serving_of_run hserving))
  exact (hparts.run ((sound_run setup broker before).act .shutdown) hserving).mem_taken_iff hdealt
    hserving hhead k

/-- Nothing is taken any more when the loop has taken a request to shut down, and it does not serve
again. -/
theorem closed_of_take_shutdown {e : Engine} (hserving : e.stage = .serving)
    {caller : Nat} (hhead : e.mailbox.toList.head? = some (.shutdown caller))
    (after : List EngineAction) :
    e.taken (.move .take :: after) = [] ∧ (e.run (.move .take :: after)).stage ≠ .serving := by
  have hclosed : (e.act (.move .take)).stage ≠ .serving ∧ e.takes (.move .take) = [] := by
    have hpossible : e.isPossible .take = true := by
      have hne : e.mailbox.isEmpty = false := by
        rw [Bool.eq_false_iff]
        intro hempty
        rw [Queue.isEmpty_iff.mp hempty] at hhead
        cases hhead
      rw [isPossible, hserving, hne]
      rfl
    obtain ⟨command, rest, hpop, hmail, htakes⟩ := exists_command hpossible
    rw [hmail, List.head?_cons, Option.some.injEq] at hhead
    subst hhead
    refine ⟨?_, htakes⟩
    rw [act_move_of_isPossible hpossible, make, takeCommand, hpop]
    exact Stage.noConfusion
  refine ⟨?_, fun hstill => hclosed.1 (serving_of_run hstill)⟩
  rw [taken, along, hclosed.2, List.nil_append]
  exact taken_of_closed hclosed.1 after

/-- When the loop drains because all clients have gone, all issued commits have been taken. -/
theorem taken_before_hangUp {setup : Setup} {broker : Broker} {before : List EngineAction}
    (hpossible : ((start setup broker).run before).isPossible .hangUp = true) (k : Nat) :
    (∃ r ∈ (start setup broker).taken before, r.ticket = k) ↔
      k < ((start setup broker).run before).tickets.size := by
  have hall := (dealt_run setup broker before).all (serving_of_isPossible (.inr rfl) hpossible)
  have hnone : ((start setup broker).run before).mailed = [] := by
    rw [isPossible, Bool.and_eq_true, Bool.and_eq_true] at hpossible
    rw [mailed, Queue.isEmpty_iff.mp hpossible.1.2]
    rfl
  rw [hnone, List.append_nil] at hall
  rw [← List.mem_range, ← hall, List.mem_map]

/-- An engine whose loop has taken the commits below `bound`, and then begins to drain, has
`Drained` just these. -/
theorem drained_of_split {setup : Setup} {broker : Broker} {before after : List EngineAction}
    {bound : Nat}
    (htaken : ∀ k, (∃ r ∈ (start setup broker).taken before, r.ticket = k) ↔ k < bound)
    (hnone : ((start setup broker).run before).taken after = [])
    (hclosed : (((start setup broker).run before).run after).stage ≠ .serving) :
    (start setup broker).Drained (before ++ after) bound := by
  refine drained_of_taken (run_append (start setup broker) before after ▸ hclosed) fun k => ?_
  rw [taken, along_append, ← taken, ← taken, hnone, List.append_nil]
  exact htaken k

/-- **A shutdown drains just what was issued before it.** However clients and the engine are
interleaved: when the loop takes the request `.shutdown` of the caller `asked.callers.size`, the
engine has `Drained` the commits with tickets below `asked.tickets.size`: each of these is decided,
or lost to a crash on it or on one before it in its lane; it has ended before anyone is answered
whose request was in the mailbox then; every later commit is given up unheard. The same holds from
`.hangUp` on, when all clients have gone. To `close` a pipeline is to ask for a shutdown after some
revocations and to `await` the answer. -/
theorem shutdown_drains (setup : Setup) (broker : Broker) (before : List EngineAction) :
    let first := start setup broker
    let asked := first.run before
    (∀ between after : List EngineAction,
      let taking := first.run (before ++ .shutdown :: between)
      let actions := before ++ .shutdown :: between ++ .move .take :: after
      let e := first.run actions
      taking.stage = .serving →
      taking.mailbox.toList.head? = some (.shutdown asked.callers.size) →
        first.Drained actions asked.tickets.size ∧
          ∀ c, .shutdown c ∈ taking.mailbox.toList → e.hasReturned c = true →
            e.stage = .stopped ∧ ∀ k < asked.tickets.size, (e.status? k).isSome = true) ∧
    (asked.isPossible .hangUp = true → ∀ after : List EngineAction,
      first.Drained (before ++ .move .hangUp :: after) asked.tickets.size) ∧
    ∀ pl : Pipeline, ∃ partitions : List Partition,
      let (caller, _, closing) := pl.beginClose
      closing.engine = (pl.engine.run (partitions.map .revoke)).act .shutdown ∧
        caller = (pl.engine.run (partitions.map .revoke)).callers.size ∧
        pl.close.engine = closing.engine.await fun e => e.hasReturned caller := by
  intro first asked
  refine ⟨fun between after => ?_, fun hpossible after => ?_, fun pl => ?_⟩
  · intro taking actions e hserving hhead
    obtain ⟨hnone, hclosed⟩ := closed_of_take_shutdown hserving hhead after
    have hdrained : first.Drained actions asked.tickets.size :=
      drained_of_split (taken_before_shutdown hserving hhead) hnone hclosed
    refine ⟨hdrained, fun c hc hreturned => ?_⟩
    have hrun : e = taking.run (.move .take :: after) := run_append first _ _
    have hwaits := (((attended_start setup broker).run _).waiting c).mpr (.inl hc)
    have hstopped : e.stage = .stopped := by
      rw [hrun] at hreturned ⊢
      exact stopped_of_hasReturned hwaits hreturned
    refine ⟨hstopped, fun k hk => ?_⟩
    obtain ⟨r, hr, rfl, -⟩ := hdrained.earlier k hk
    obtain ⟨t, ht, -⟩ := (dealt_run setup broker actions).ticket r hr
    exact hdrained.ended hstopped _ (Array.getElem?_eq_some_iff.mp ht).1
  · have hclosed : (asked.act (.move .hangUp)).stage ≠ .serving := by
      rw [act_move_of_isPossible hpossible]
      exact Stage.noConfusion
    exact drained_of_split (taken_before_hangUp hpossible) (taken_of_closed hclosed after)
      fun hserving => hclosed (serving_of_run hserving)
  · obtain ⟨partitions, hengine, hcaller⟩ := exists_beginClose pl
    exact ⟨partitions, hengine, hcaller, rfl⟩

/-- One commit is under way in a revoked lane and another waits in the lane behind it; the client
crashes on a third, and a fourth is lost with it. A fifth and a second shutdown stand behind the
first shutdown. On another engine all clients go before the only commit is taken. -/
theorem shutdown_drains_through_crash :
    let p : Partition := ⟨"orders", 0⟩
    let q : Partition := ⟨"orders", 1⟩
    let take : EngineAction := .move .take
    let work : Nat → EngineAction := fun lane => .move (.work lane)
    let before : List EngineAction :=
      [.submit p (.clamp 4) 1, take, work 0, .revoke p, take, .submit p (.clamp 5) 1, take,
        .submit q (.clamp 6) 1, take, .submit q (.clamp 7) 1]
    let between : List EngineAction := [.submit p (.clamp 8) 1, .shutdown, take]
    let after : List EngineAction :=
      [.submit p (.clamp 9) 1, work 2, work 2, work 0, work 0, work 1, work 1, work 1, work 1,
        .move .collect, .move .collect, .move .stop]
    let first := start ⟨[.clamp 6], none⟩ (.start 7 .quiet)
    let actions := before ++ .shutdown :: between ++ take :: after
    let e := first.run actions
    let leave : List EngineAction := [.submit p (.clamp 4) 1, .dropClients, take]
    let left := first.run leave
    (first.run (before ++ .shutdown :: between)).mailbox.toList =
        [.shutdown 0, .commit ⟨4, p, .clamp 8, 1⟩, .shutdown 1] ∧
      e.hasReturned 1 = true ∧ e.stage = .stopped ∧
      (List.range 6).map e.status? = [some (.committed (.clamp 4) 1),
        some (.committed (.clamp 5) 1), some (.abandoned (.clamp 6)),
        some (.abandoned (.clamp 7)), some (.abandoned (.clamp 8)), some (.abandoned (.clamp 9))] ∧
      first.Drained actions (first.run before).tickets.size ∧
      first.Drained (leave ++ .move .hangUp :: [work 0, work 0]) left.tickets.size ∧
      (first.run before).tickets.size = 4 ∧ left.tickets.size = 1 := by
  intro p q take work before between after first actions e leave left
  have hmailbox : (first.run (before ++ .shutdown :: between)).mailbox.toList =
      [.shutdown 0, .commit ⟨4, p, .clamp 8, 1⟩, .shutdown 1] := by decide +kernel
  have hreturned : e.hasReturned 1 = true := by decide +kernel
  obtain ⟨hdrains, -, -⟩ := shutdown_drains ⟨[.clamp 6], none⟩ (.start 7 .quiet) before
  obtain ⟨hdrained, hanswers⟩ :=
    hdrains between after (by decide +kernel) (by decide +kernel)
  obtain ⟨hstopped, -⟩ := hanswers 1 (by rw [hmailbox]; decide) hreturned
  obtain ⟨-, hleaves, -⟩ := shutdown_drains ⟨[.clamp 6], none⟩ (.start 7 .quiet) leave
  exact ⟨hmailbox, hreturned, hstopped, by decide +kernel, hdrained,
    hleaves (by decide +kernel) [work 0, work 0], by decide +kernel, by decide +kernel⟩

end OffsetCommit.Engine
