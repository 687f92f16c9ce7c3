import OffsetCommit.Proofs.Engine.Run
import OffsetCommit.Proofs.Lanes.Progress

/-!
# What an action does to the commits

Seen from the commits, only a handful of things can happen to an engine: a commit is issued, the
first pending one of its partition is decided, some are given up, or the broker decides a commit
that it was asked for directly. `Engine.Effect` lists them.

* `Sound.effect`: every action of a sound engine has one of these effects. It is put together from
  one lemma for each move (`takeCommand_spec`, `collect_spec`, `stop_spec`, `workLane_spec`,
  `answerCall_spec`).
* `Sound.act`, `Sound.run`: an engine stays sound.

Later statements about commits argue by the cases of `Engine.Effect` and look at no lane and no
mailbox.
-/

namespace OffsetCommit

/-- The request `r` of a command `.commit r`; `none` for any other command. -/
def Command.request? : Command → Option Request
  | .commit r => some r
  | .revoke _ => none
  | .shutdown _ => none

/-- The status with which a request ends once the broker has decided: `.committed` for `.ok ()`, and
`.failed` with the message of the error otherwise. -/
def Request.verdict (r : Request) : Except Error Unit → Status
  | .ok () => .committed r.offset r.count
  | .error error => .failed r.offset error.message

/-- The account after the broker has decided a commit. -/
def Account.settle (a : Account) (o : Offset) : Except Error Unit → Account
  | .ok () => a.accept o
  | .error _ => a.reject

/-- A decided commit is entered by `Account.settle` into the account of its partition and into no
other. -/
theorem Broker.account_commit (b : Broker) (p : Partition) (o : Offset) (q : Partition) :
    (b.commit p o).2.account q =
      if p = q then (b.account q).settle o (b.commit p o).1 else b.account q := by
  have hnext : ∀ x, b.decideNext.2.account x = b.account x := by
    intro x
    unfold decideNext
    repeat' first | rfl | split
  unfold commit
  rcases hfault : b.decideNext.1 with _ | fault
  · simp only [hfault, account_update, hnext, Account.settle]
  · simp only [hfault, account_update, hnext, Account.settle]

namespace Engine

/-! ### Pending commits -/

/-- The commits of `p` that wait in the mailbox of `e`, the oldest first: its `.commit r` with
`r.partition = p`. -/
def queued (e : Engine) (p : Partition) : List Request :=
  (e.mailbox.toList.filterMap Command.request?).filter fun r => r.partition = p

/-- The commits of `p` that were issued and have not ended, the oldest first: `e.lanes.pending p`,
which are in lanes, and then `e.queued p`, which wait in the mailbox. -/
def pending (e : Engine) (p : Partition) : List Request :=
  e.lanes.pending p ++ e.queued p

/-- The invariant of the lanes of an engine: they are `WellFormed` at all times, and `Tended` for as
long as the stage is `.serving`. It holds from `sound_start` on and is kept by `Sound.act`. -/
structure Sound (e : Engine) : Prop where
  /-- The lanes are in order. -/
  wellFormed : e.lanes.WellFormed
  /-- While the loop serves, every lane is held. -/
  tended : e.stage = .serving → e.lanes.Tended

/-- At the start there are no lanes. -/
theorem sound_start (setup : Setup) (broker : Broker) : (start setup broker).Sound :=
  ⟨Lanes.wellFormed_empty, fun _ => Lanes.tended_empty⟩

/-! ### The list of effects -/

/-- From `e` to `e'` nothing happens to any commit: tickets, pending commits, accounts and direct
calls are the same. -/
structure Quiet (e e' : Engine) : Prop where
  /-- No commit is issued, and none ends. -/
  tickets : e'.tickets = e.tickets
  /-- The pending commits stay in their order. -/
  pending : ∀ q, e'.pending q = e.pending q
  /-- The broker's accounts stay. -/
  account : ∀ q, e'.broker.account q = e.broker.account q
  /-- The direct calls stay. -/
  calls : e'.pendingCalls = e.pendingCalls

/-- What an action `a` does to the commits of `e` when it leads to `e'`: one case for each way in
which `tickets`, `pending` and the accounts of the broker can change. `Sound.effect` shows that
there is no other. -/
inductive Effect (e : Engine) (a : EngineAction) (e' : Engine) : Prop where
  /-- Nothing happens to any commit. -/
  | quiet (unchanged : e.Quiet e')
  /-- A commit is issued and stands behind all others of its partition. -/
  | issued (p : Partition) (o : Offset) (count : Nat) (action : a = .submit p o count)
      (tickets : e'.tickets = e.tickets.push ⟨p, o, count, none⟩)
      (pending : ∀ q, e'.pending q =
        e.pending q ++ if p = q then [⟨e.tickets.size, p, o, count⟩] else [])
      (account : ∀ q, e'.broker.account q = e.broker.account q)
      (calls : e'.pendingCalls = e.pendingCalls)
  /-- A commit is issued and given up at once. -/
  | refused (p : Partition) (o : Offset) (count : Nat) (action : a = .submit p o count)
      (tickets : e'.tickets = e.tickets.push ⟨p, o, count, some (.abandoned o)⟩)
      (pending : ∀ q, e'.pending q = e.pending q)
      (account : ∀ q, e'.broker.account q = e.broker.account q)
      (calls : e'.pendingCalls = e.pendingCalls)
  /-- The broker decides the first pending commit of a partition. -/
  | decided (r : Request) (answer : Except Error Unit)
      (tickets : e'.tickets = (e.finish r.ticket (r.verdict answer)).tickets)
      (pending : ∀ q, e.pending q = (if r.partition = q then [r] else []) ++ e'.pending q)
      (account : ∀ q, e'.broker.account q =
        if r.partition = q then (e.broker.account q).settle r.offset answer
        else e.broker.account q)
      (calls : e'.pendingCalls = e.pendingCalls)
  /-- Pending commits are given up. -/
  | abandoned (rs : List Request) (tickets : e'.tickets = (rs.foldl abandon e).tickets)
      (perm : ∀ q, (e.pending q).Perm ((rs.filter fun r => r.partition = q) ++ e'.pending q))
      (sublist : ∀ q, (e'.pending q).Sublist (e.pending q))
      (account : ∀ q, e'.broker.account q = e.broker.account q)
      (calls : e'.pendingCalls = e.pendingCalls)
  /-- The broker is asked for a commit directly. -/
  | called (p : Partition) (o : Offset) (action : a = .call p o)
      (tickets : e'.tickets = e.tickets) (pending : ∀ q, e'.pending q = e.pending q)
      (account : ∀ q, e'.broker.account q = e.broker.account q)
      (calls : ∀ c ∈ e'.pendingCalls, c ∈ e.pendingCalls ∨ c.partition = p)
  /-- The broker decides a commit that it was asked for directly. -/
  | answered (c : PendingCall) (answer : Except Error Unit) (call : c ∈ e.pendingCalls)
      (tickets : e'.tickets = e.tickets) (pending : ∀ q, e'.pending q = e.pending q)
      (account : ∀ q, e'.broker.account q =
        if c.partition = q then (e.broker.account q).settle c.offset answer
        else e.broker.account q)
      (calls : e'.pendingCalls ⊆ e.pendingCalls)

/-! ### What clients do -/

/-- A change is `Quiet` if the lanes' pending requests, the tickets, the accounts, the direct calls
and the commits in the mailbox stay. -/
theorem quiet_of_eq {e e' : Engine} (htickets : e'.tickets = e.tickets)
    (hlanes : ∀ q, e'.lanes.pending q = e.lanes.pending q)
    (hmailbox : e'.mailbox.toList.filterMap Command.request? =
      e.mailbox.toList.filterMap Command.request?)
    (haccount : ∀ q, e'.broker.account q = e.broker.account q)
    (hcalls : e'.pendingCalls = e.pendingCalls) : e.Quiet e' where
  tickets := htickets
  pending q := by rw [pending, pending, queued, queued, hlanes, hmailbox]
  account := haccount
  calls := hcalls

/-- Nothing at all is `Quiet`. -/
theorem Quiet.refl (e : Engine) : e.Quiet e :=
  quiet_of_eq rfl (fun _ => rfl) rfl (fun _ => rfl) rfl

/-- Revoking posts a command that is no commit. -/
theorem quiet_revoke (e : Engine) (p : Partition) : e.Quiet (e.revoke p) := by
  unfold revoke
  split
  · exact .refl e
  · refine quiet_of_eq rfl (fun _ => rfl) ?_ (fun _ => rfl) rfl
    rw [Queue.toList_push, List.filterMap_append]
    exact List.append_nil _

/-- Asking for a shutdown posts a command that is no commit. -/
theorem quiet_shutdown (e : Engine) : e.Quiet e.shutdown := by
  unfold shutdown
  dsimp only
  split
  · exact quiet_of_eq rfl (fun _ => rfl) rfl (fun _ => rfl) rfl
  · refine quiet_of_eq rfl (fun _ => rfl) ?_ (fun _ => rfl) rfl
    rw [Queue.toList_push, List.filterMap_append]
    exact List.append_nil _

/-- A commit is taken on by an open engine (`Effect.issued`) and given up by a closed one
(`Effect.refused`). -/
theorem effect_submit (e : Engine) (p : Partition) (o : Offset) (count : Nat) :
    e.Effect (.submit p o count) (e.submit p o count) := by
  unfold submit
  dsimp only
  split
  · exact .refused p o count rfl rfl (fun _ => rfl) (fun _ => rfl) rfl
  · refine .issued p o count rfl rfl (fun q => ?_) (fun _ => rfl) rfl
    simp only [pending, queued, Queue.toList_push, List.filterMap_append, List.filter_append,
      List.append_assoc, Command.request?, List.filterMap_cons, List.filterMap_nil,
      List.filter_cons, List.filter_nil, decide_eq_true_eq]

/-- A direct call is the case `Effect.called`. -/
theorem effect_call (e : Engine) (p : Partition) (o : Offset) :
    e.Effect (.call p o) (e.call p o) := by
  refine .called p o rfl rfl (fun _ => rfl) (fun _ => rfl) fun c hc => ?_
  rcases List.mem_append.mp hc with hc | hc
  · exact .inl hc
  · rw [List.mem_singleton.mp hc]
    exact .inr rfl

/-! ### The loop -/

/-- The `tickets` after the requests `rs` are given up: each has the status `.abandoned r.offset`. -/
def abandoned (tickets : Array Ticket) (rs : List Request) : Array Ticket :=
  rs.foldl (fun tickets r =>
    tickets.modify r.ticket fun t => { t with status := some (.abandoned r.offset) }) tickets

/-- Giving requests up touches nothing but `tickets`, which become `abandoned e.tickets rs`. -/
theorem foldl_abandon_eq (e : Engine) (rs : List Request) :
    rs.foldl abandon e = { e with tickets := abandoned e.tickets rs } := by
  induction rs generalizing e with
  | nil => rfl
  | cons r rest ih => exact ih (e.abandon r)

/-- Discarding commands gives their requests up and answers callers; everything else stays. -/
theorem foldl_discard_eq (e : Engine) (commands : List Command) :
    ∃ callers, commands.foldl discard e =
      { e with
        tickets := abandoned e.tickets (commands.filterMap Command.request?)
        callers := callers } := by
  induction commands generalizing e with
  | nil => exact ⟨e.callers, rfl⟩
  | cons command rest ih =>
      cases command with
      | commit r => exact ih (e.abandon r)
      | revoke p => exact ih e
      | shutdown caller => exact ih (e.release caller)

/-- Beginning to drain keeps the lanes in order and is `Quiet`. -/
theorem beginDrain_spec {e : Engine} (h : e.Sound) (caller : Option Nat) :
    (e.beginDrain caller).Sound ∧ e.Quiet (e.beginDrain caller) := by
  obtain ⟨hwf, hpending⟩ := Lanes.drain_spec h.wellFormed
  refine ⟨⟨hwf, fun hstage => ?_⟩, quiet_of_eq rfl hpending rfl (fun _ => rfl) rfl⟩
  cases hstage

/-- A command that is taken moves its request from the front of the mailbox to the end of the lanes,
which is `Quiet`. -/
theorem takeCommand_spec {e : Engine} (h : e.Sound) (hstage : e.stage = .serving) :
    e.takeCommand.Sound ∧ e.Quiet e.takeCommand := by
  unfold takeCommand
  rcases hpop : e.mailbox.pop? with _ | ⟨command, rest⟩
  · exact ⟨h, .refl e⟩
  have hmail := Queue.toList_of_pop? hpop
  cases command with
  | commit r =>
      obtain ⟨haccepted, htakes⟩ := Lanes.route_spec h.wellFormed (h.tended hstage) r
      simp only [obey, route, haccepted, if_true]
      refine ⟨⟨htakes.wellFormed, fun _ => htakes.tended⟩, rfl, fun q => ?_, fun _ => rfl, rfl⟩
      show (e.lanes.route r).lanes.pending q ++ _ = _
      rw [htakes.pending, List.append_assoc, pending, queued, queued, hmail,
        List.filterMap_cons_some (show (Command.commit r).request? = some r from rfl),
        List.filter_cons]
      split <;> simp_all [report]
  | revoke p =>
      obtain ⟨hwf, htended, hpending⟩ := Lanes.revoke_spec h.wellFormed (h.tended hstage) p
      refine ⟨⟨hwf, fun _ => htended⟩, quiet_of_eq rfl hpending ?_ (fun _ => rfl) rfl⟩
      rw [hmail]
      rfl
  | shutdown caller =>
      have htaken : ({ e with mailbox := rest } : Engine).Sound := ⟨h.wellFormed, h.tended⟩
      obtain ⟨hsound, hquiet⟩ := beginDrain_spec htaken (some caller)
      refine ⟨hsound, hquiet.tickets, fun q => ?_, hquiet.account, hquiet.calls⟩
      refine (hquiet.pending q).trans ?_
      rw [pending, pending, queued, queued, hmail]
      rfl

/-- Collecting an ended lane is `Quiet`. -/
theorem collect_spec {e : Engine} (h : e.Sound) : e.collect.Sound ∧ e.Quiet e.collect := by
  unfold collect
  split
  · refine ⟨⟨h.wellFormed, fun hstage => ?_⟩,
      quiet_of_eq rfl (fun _ => rfl) rfl (fun _ => rfl) rfl⟩
    cases hstage
  · exact ⟨h, .refl e⟩

/-- The engine after `stop`: the commits of the mailbox are `abandoned`, callers are answered, the
mailbox is empty and the stage is `.stopped`. -/
theorem stop_eq (e : Engine) : ∃ callers, e.stop =
    ({ e with
      tickets := abandoned e.tickets (e.mailbox.toList.filterMap Command.request?)
      callers := callers
      mailbox := .empty
      stage := .stopped } : Engine).report [.stopped] := by
  have hrelease : ∃ callers, e.releaseCaller = { e with callers := callers } := by
    unfold releaseCaller
    split
    · exact ⟨_, rfl⟩
    · exact ⟨e.callers, rfl⟩
  obtain ⟨callers, htold⟩ := hrelease
  obtain ⟨callers', hdiscard⟩ := foldl_discard_eq e.releaseCaller e.releaseCaller.mailbox.toList
  rw [htold] at hdiscard
  refine ⟨callers', ?_⟩
  unfold stop
  rw [htold]
  dsimp only at hdiscard ⊢
  rw [hdiscard]

/-- When the loop ends, the commits in its mailbox are given up, and those in lanes are not: the
case `Effect.abandoned`. -/
theorem stop_spec {e : Engine} (h : e.Sound) (a : EngineAction) :
    e.stop.Sound ∧ e.Effect a e.stop := by
  obtain ⟨callers, heq⟩ := e.stop_eq
  rw [heq]
  refine ⟨⟨h.wellFormed, fun hstage => ?_⟩, .abandoned
    (e.mailbox.toList.filterMap Command.request?) ?_ (fun q => ?_) (fun q => ?_) (fun _ => rfl) rfl⟩
  · cases hstage
  · rw [foldl_abandon_eq]
    rfl
  · exact List.perm_append_comm.trans (by simp [pending, queued, report])
  · exact List.Sublist.append (.refl _) (List.nil_sublist _)

/-! ### The lanes -/

/-- A change of a lane that `Lanes.Allows` and that leaves `isOpen` preserves `Sound`. -/
theorem Sound.modifyLane {e : Engine} (h : e.Sound) {i : Nat} {lane : Lane}
    (hi : e.lanes.all[i]? = some lane) {f : Lane → Lane}
    (hallows : e.lanes.Allows i lane (f lane)) (hopen : (f lane).isOpen = lane.isOpen) :
    (e.modifyLane i f).Sound where
  wellFormed := h.wellFormed.modify hi hallows
  tended hstage := (h.tended hstage).modify hi hallows hopen

/-- If a lane that is alone (`EndedBefore`) loses the requests `gone` at its front, these are the
first pending ones of its partition. -/
theorem Sound.pending_modifyLane {e : Engine} (h : e.Sound) {i : Nat} {lane : Lane}
    (hi : e.lanes.all[i]? = some lane) (halone : e.lanes.EndedBefore lane.partition i)
    {f : Lane → Lane} (hf : (f lane).partition = lane.partition) {gone : List Request}
    (hgone : lane.pending = gone ++ (f lane).pending) (q : Partition) :
    e.pending q = (if lane.partition = q then gone else []) ++ (e.modifyLane i f).pending q := by
  rw [pending, h.wellFormed.pending_modify_of_alone hi halone hf hgone, List.append_assoc]
  rfl

/-- A lane that is alone and goes on without ending a request is `Quiet`. -/
theorem Sound.modifyLane_spec {e : Engine} (h : e.Sound) {i : Nat} {lane : Lane}
    (hi : e.lanes.all[i]? = some lane) (hlive : lane.hasEnded = false)
    (halone : e.lanes.EndedBefore lane.partition i) {f : Lane → Lane}
    (hf : (f lane).partition = lane.partition) (hopen : (f lane).isOpen = lane.isOpen)
    (hphase : ∀ k, (f lane).phase ≠ .waiting k) (hpending : (f lane).pending = lane.pending)
    (hempty : (f lane).hasEnded = true → (f lane).queue.toList = []) :
    (e.modifyLane i f).Sound ∧ e.Quiet (e.modifyLane i f) := by
  have hallows := h.wellFormed.allows_of_alone hi hf hlive halone hphase
    (fun r hr => hpending ▸ hr) hempty
  refine ⟨h.modifyLane hi hallows hopen, rfl, fun q => ?_, fun _ => rfl, rfl⟩
  have hgone : e.pending q = (if lane.partition = q then [] else []) ++ (e.modifyLane i f).pending q :=
    h.pending_modifyLane hi halone hf hpending.symm q
  rw [ite_self, List.nil_append] at hgone
  exact hgone.symm

/-- A free lane takes its next request or ends, and that is `Quiet`. -/
theorem proceed_spec {e : Engine} (h : e.Sound) {i : Nat} {lane : Lane}
    (hi : e.lanes.all[i]? = some lane) (hphase : lane.phase = .ready) :
    (e.proceed i lane).Sound ∧ e.Quiet (e.proceed i lane) := by
  have hlive : lane.hasEnded = false := by
    rw [Lane.hasEnded, Lane.ending?, hphase]
    rfl
  have halone := h.wellFormed.alone i lane hi (by rw [hphase]; exact fun _ => Phase.noConfusion)
  have hpending : lane.pending = lane.queue.toList := by
    rw [Lane.pending, Lane.current?, hphase]
    rfl
  unfold proceed
  rcases hpop : lane.queue.pop? with _ | ⟨r, rest⟩
  · have hnil := Queue.pop?_eq_none_iff.mp hpop
    refine h.modifyLane_spec hi hlive halone rfl rfl (fun _ => Phase.noConfusion) ?_ fun _ => hnil
    rw [hpending]
    rfl
  · refine h.modifyLane_spec hi hlive halone rfl rfl (fun _ => Phase.noConfusion) ?_ fun hended => ?_
    · rw [hpending, Queue.toList_of_pop? hpop]
      rfl
    · cases hended

/-- After `observe` only `journal` and `observed` may differ. -/
theorem observe_eq (e : Engine) (p : Partition) (r : Request) :
    ∃ journal observed, e.observe p r = { e with journal := journal, observed := observed } := by
  unfold observe
  split
  · exact ⟨e.journal, e.observed, rfl⟩
  · split
    · exact ⟨_, e.observed, rfl⟩
    · exact ⟨e.journal, _, rfl⟩

/-- The engine after `conclude`: the lane is `.ready`, the broker has decided, and the ticket has
the decision. -/
theorem conclude_eq (e : Engine) (i : Nat) (lane : Lane) (r : Request) :
    ∃ journal observed, e.conclude i lane r =
      { e.setPhase i .ready with
        broker := (e.broker.commit lane.partition r.offset).2
        tickets :=
          (e.finish r.ticket (r.verdict (e.broker.commit lane.partition r.offset).1)).tickets
        journal := journal
        observed := observed } := by
  unfold conclude
  rcases e.broker.commit lane.partition r.offset with ⟨error | ⟨⟨⟩⟩, broker⟩
  · exact ⟨_, _, rfl⟩
  · obtain ⟨journal, observed, hobserve⟩ :=
      observe_eq ({ e with broker := broker }.setPhase i .ready) lane.partition r
    dsimp only
    rw [hobserve]
    exact ⟨_, _, rfl⟩

/-- A lane with a commit under way has not ended and is alone, and `r` comes first in it. -/
theorem Sound.of_committing {e : Engine} (h : e.Sound) {i : Nat} {lane : Lane}
    (hi : e.lanes.all[i]? = some lane) {r : Request} {due : Nat}
    (hphase : lane.phase = .committing r due) :
    lane.hasEnded = false ∧ e.lanes.EndedBefore lane.partition i ∧
      lane.pending = r :: lane.queue.toList ∧
      ∀ x ∈ r :: lane.queue.toList, x.partition = lane.partition := by
  have hpending : lane.pending = r :: lane.queue.toList := by
    rw [Lane.pending, Lane.current?, hphase]
    rfl
  refine ⟨?_, ?_, hpending, hpending ▸ h.wellFormed.own i lane hi⟩
  · rw [Lane.hasEnded, Lane.ending?, hphase]
    rfl
  · apply h.wellFormed.alone i lane hi
    rw [hphase]
    exact fun _ => Phase.noConfusion

/-- The commit under way in a lane and those behind it are pending in their partition. -/
theorem Sound.mem_pending_of_committing {e : Engine} (h : e.Sound) {i : Nat} {lane : Lane}
    (hi : e.lanes.all[i]? = some lane) {r : Request} {due : Nat}
    (hphase : lane.phase = .committing r due) {x : Request} (hx : x ∈ r :: lane.queue.toList) :
    x.partition = lane.partition ∧ x ∈ e.pending x.partition := by
  obtain ⟨-, -, hpending, hown⟩ := h.of_committing hi hphase
  refine ⟨hown x hx, List.mem_append_left _ (Lanes.mem_pending_iff.mpr ?_)⟩
  exact ⟨i, lane, hi, (hown x hx).symm, hpending ▸ hx⟩

/-- A commit that is concluded is the first pending one of its partition: the case `Effect.decided`. -/
theorem conclude_spec {e : Engine} (h : e.Sound) {i : Nat} {lane : Lane}
    (hi : e.lanes.all[i]? = some lane) {r : Request} {due : Nat}
    (hphase : lane.phase = .committing r due) (a : EngineAction) :
    (e.conclude i lane r).Sound ∧ e.Effect a (e.conclude i lane r) := by
  obtain ⟨hlive, halone, hpending, hown⟩ := h.of_committing hi hphase
  have hp : r.partition = lane.partition := hown r List.mem_cons_self
  have hallows : e.lanes.Allows i lane { lane with phase := .ready } :=
    h.wellFormed.allows_of_alone hi rfl hlive halone (fun _ => Phase.noConfusion)
      (fun x hx => by rw [hpending]; exact List.mem_cons_of_mem r hx) fun hended => by cases hended
  have hsound : (e.setPhase i .ready).Sound := h.modifyLane hi hallows rfl
  have hgone : ∀ q, e.pending q =
      (if lane.partition = q then [r] else []) ++ (e.setPhase i .ready).pending q :=
    h.pending_modifyLane hi halone rfl hpending
  obtain ⟨journal, observed, heq⟩ := e.conclude_eq i lane r
  rw [heq]
  refine ⟨⟨hsound.wellFormed, hsound.tended⟩, .decided r _ rfl (fun q => ?_) (fun q => ?_) rfl⟩
  · rw [hgone, hp]
    rfl
  · rw [hp]
    exact e.broker.account_commit lane.partition r.offset q

/-- A crash gives up the commit under way and all behind it in the lane: the case
`Effect.abandoned`. -/
theorem crash_spec {e : Engine} (h : e.Sound) {i : Nat} {lane : Lane}
    (hi : e.lanes.all[i]? = some lane) {r : Request} {due : Nat}
    (hphase : lane.phase = .committing r due) (a : EngineAction) :
    (e.crash i lane r).Sound ∧ e.Effect a (e.crash i lane r) := by
  obtain ⟨hlive, halone, hpending, hown⟩ := h.of_committing hi hphase
  have hallows : e.lanes.Allows i lane { lane with queue := .empty, phase := .ended true } :=
    h.wellFormed.allows_of_alone hi rfl hlive halone (fun _ => Phase.noConfusion)
      (fun x hx => by cases hx) fun _ => rfl
  have hsound :
      (e.modifyLane i fun lane => { lane with queue := .empty, phase := .ended true }).Sound :=
    h.modifyLane hi hallows rfl
  have hgone : ∀ q, e.pending q =
      (if lane.partition = q then r :: lane.queue.toList else []) ++
        (e.modifyLane i fun lane => { lane with queue := .empty, phase := .ended true }).pending q :=
    h.pending_modifyLane hi halone rfl (hpending.trans (List.append_nil _).symm)
  have hfilter : ∀ q, ((r :: lane.queue.toList).filter fun x => x.partition = q) =
      if lane.partition = q then r :: lane.queue.toList else [] := by
    intro q
    split
    · next hq =>
        exact List.filter_eq_self.mpr fun x hx => decide_eq_true ((hown x hx).trans hq)
    · next hq =>
        exact List.filter_eq_nil_iff.mpr fun x hx hxq =>
          hq ((hown x hx).symm.trans (of_decide_eq_true hxq))
  unfold crash
  rw [foldl_abandon_eq]
  refine ⟨⟨hsound.wellFormed, hsound.tended⟩, .abandoned (r :: lane.queue.toList) ?_ (fun q => ?_)
    (fun q => ?_) (fun _ => rfl) rfl⟩
  · rw [foldl_abandon_eq]
    rfl
  · rw [hgone, hfilter]
    exact .refl _
  · rw [hgone]
    exact List.sublist_append_right _ _

/-- A lane whose predecessor has ended may start, which is `Quiet`. -/
theorem wake_spec {e : Engine} (h : e.Sound) {i k : Nat} {lane : Lane}
    (hi : e.lanes.all[i]? = some lane) (hphase : lane.phase = .waiting k)
    (hended : e.lanes.hasEnded k = true) :
    (e.setPhase i .ready).Sound ∧ e.Quiet (e.setPhase i .ready) := by
  have hlive : lane.hasEnded = false := by
    rw [Lane.hasEnded, Lane.ending?, hphase]
    rfl
  have halone := h.wellFormed.endedBefore_of_predecessor hi hphase hended
  refine h.modifyLane_spec hi hlive halone rfl rfl (fun _ => Phase.noConfusion) ?_ fun hnow => ?_
  · rw [Lane.pending, Lane.pending, Lane.current?, Lane.current?, hphase]
  · cases hnow

/-- The work of a lane leaves `stage`, `mailbox`, `callers` and `pendingCalls` alone. -/
theorem workLane_frame (e : Engine) (i : Nat) :
    (e.workLane i).stage = e.stage ∧ (e.workLane i).mailbox = e.mailbox ∧
      (e.workLane i).callers = e.callers ∧ (e.workLane i).pendingCalls = e.pendingCalls := by
  unfold workLane
  rcases e.lanes.all[i]? with _ | lane
  · exact ⟨rfl, rfl, rfl, rfl⟩
  dsimp only
  split
  · exact ⟨rfl, rfl, rfl, rfl⟩
  · unfold proceed
    split <;> exact ⟨rfl, rfl, rfl, rfl⟩
  · next r _ _ =>
      split
      · rw [crash, foldl_abandon_eq]
        exact ⟨rfl, rfl, rfl, rfl⟩
      · obtain ⟨journal, observed, heq⟩ := e.conclude_eq i lane r
        rw [heq]
        exact ⟨rfl, rfl, rfl, rfl⟩
  · exact ⟨rfl, rfl, rfl, rfl⟩

/-- What a lane of an engine does by a possible move is a `Lanes.Progress`. -/
theorem progress_workLane {e : Engine} {i : Nat} (h : e.isPossible (.work i) = true) :
    e.lanes.Progress (e.workLane i).lanes := by
  rw [isPossible] at h
  unfold workLane
  rcases hi : e.lanes.all[i]? with _ | lane
  · rw [hi] at h
    cases h
  rw [hi, Option.any_some, canWork] at h
  dsimp only
  rcases hphase : lane.phase with k | _ | ⟨r, due⟩ | crashed
  · rw [hphase] at h
    exact .woken hi hphase h
  · rw [hphase] at h
    unfold proceed
    rcases hpop : lane.queue.pop? with _ | ⟨r, rest⟩
    · have hclosed : lane.isOpen = false := by
        simpa [Queue.isEmpty_iff.mpr (Queue.pop?_eq_none_iff.mp hpop)] using h
      exact .finished hi hphase hpop hclosed
    · exact .begun hi hphase hpop _
  · dsimp only
    split
    · rw [crash, foldl_abandon_eq]
      exact .crashed hi hphase
    · obtain ⟨journal, observed, heq⟩ := e.conclude_eq i lane r
      rw [heq]
      exact .decided hi hphase
  · rw [hphase] at h
    cases h

/-- The possible work of a lane keeps the engine sound and has an effect, by the phase of the lane. -/
theorem workLane_spec {e : Engine} (h : e.Sound) {i : Nat}
    (hpossible : e.isPossible (.work i) = true) (a : EngineAction) :
    (e.workLane i).Sound ∧ e.Effect a (e.workLane i) := by
  obtain ⟨lane, hi, hcan⟩ := (Option.any_eq_true _ _).mp hpossible
  unfold workLane
  rw [hi]
  rcases hphase : lane.phase with k | _ | ⟨r, due⟩ | crashed
  · simp only [canWork, hphase] at hcan
    obtain ⟨hsound, hquiet⟩ := wake_spec h hi hphase hcan
    simp only [hphase]
    exact ⟨⟨hsound.wellFormed, hsound.tended⟩,
      .quiet ⟨hquiet.tickets, hquiet.pending, hquiet.account, hquiet.calls⟩⟩
  · obtain ⟨hsound, hquiet⟩ := proceed_spec h hi hphase
    simp only [hphase]
    exact ⟨hsound, .quiet hquiet⟩
  · simp only [hphase]
    split
    · exact crash_spec h hi hphase a
    · exact conclude_spec h hi hphase a
  · simp only [hphase]
    exact ⟨h, .quiet (.refl e)⟩

/-! ### Every action -/

/-- A direct call is decided past all lanes: the case `Effect.answered`. -/
theorem answerCall_spec {e : Engine} (h : e.Sound) (place : Nat) (a : EngineAction) :
    (e.answerCall place).Sound ∧ e.Effect a (e.answerCall place) := by
  unfold answerCall
  rcases hcall : e.pendingCalls[place]? with _ | c
  · exact ⟨h, .quiet (.refl e)⟩
  · refine ⟨⟨h.wellFormed, h.tended⟩, .answered c (e.broker.commit c.partition c.offset).1
      (List.mem_of_getElem? hcall) rfl (fun _ => rfl) (fun q => ?_) ?_⟩
    · exact e.broker.account_commit c.partition c.offset q
    · exact List.eraseIdx_subset

/-- Every possible move keeps the engine sound and has an effect. -/
theorem make_spec {e : Engine} (h : e.Sound) {move : Move} (hpossible : e.isPossible move = true)
    (a : EngineAction) : (e.make move).Sound ∧ e.Effect a (e.make move) := by
  cases move with
  | answer place => exact answerCall_spec h place a
  | take =>
      obtain ⟨hsound, hquiet⟩ := takeCommand_spec h (serving_of_isPossible (.inl rfl) hpossible)
      exact ⟨hsound, .quiet hquiet⟩
  | hangUp =>
      obtain ⟨hsound, hquiet⟩ := beginDrain_spec h none
      exact ⟨hsound, .quiet hquiet⟩
  | work lane => exact workLane_spec h hpossible a
  | collect =>
      obtain ⟨hsound, hquiet⟩ := collect_spec h
      exact ⟨hsound, .quiet hquiet⟩
  | stop => exact stop_spec h a

/-- **Every action has one of the effects**, `e.Effect a (e.act a)`, and the engine stays sound. -/
theorem Sound.effect {e : Engine} (h : e.Sound) (a : EngineAction) :
    (e.act a).Sound ∧ e.Effect a (e.act a) := by
  have hkeep : ∀ e' : Engine, e'.lanes = e.lanes → e'.stage = e.stage → e'.Sound :=
    fun e' hlanes hstage => ⟨hlanes ▸ h.wellFormed, fun hserving =>
      hlanes ▸ h.tended (hstage.symm.trans hserving)⟩
  cases a with
  | submit p o count =>
      refine ⟨?_, effect_submit e p o count⟩
      simp only [act, submit]
      split
      · exact hkeep _ rfl rfl
      · exact hkeep _ rfl rfl
  | revoke p =>
      refine ⟨?_, .quiet (quiet_revoke e p)⟩
      simp only [act, revoke]
      split
      · exact h
      · exact hkeep _ rfl rfl
  | shutdown =>
      refine ⟨?_, .quiet (quiet_shutdown e)⟩
      simp only [act, shutdown]
      split
      · exact hkeep _ rfl rfl
      · exact hkeep _ rfl rfl
  | dropClients =>
      exact ⟨hkeep _ rfl rfl, .quiet (quiet_of_eq rfl (fun _ => rfl) rfl (fun _ => rfl) rfl)⟩
  | changeFaults new =>
      exact ⟨hkeep _ rfl rfl, .quiet (quiet_of_eq rfl (fun _ => rfl) rfl (fun _ => rfl) rfl)⟩
  | call p o => exact ⟨hkeep _ rfl rfl, effect_call e p o⟩
  | passTo time =>
      exact ⟨hkeep _ rfl rfl, .quiet (quiet_of_eq rfl (fun _ => rfl) rfl (fun _ => rfl) rfl)⟩
  | move move =>
      rw [act, perform]
      split
      · next hpossible => exact make_spec h hpossible _
      · exact ⟨h, .quiet (.refl e)⟩

/-- Every action preserves `Sound`. -/
theorem Sound.act {e : Engine} (h : e.Sound) (a : EngineAction) : (e.act a).Sound :=
  (h.effect a).1

/-- Every run preserves `Sound`. -/
theorem Sound.run {e : Engine} (h : e.Sound) (actions : List EngineAction) :
    (e.run actions).Sound := by
  induction actions generalizing e with
  | nil => exact h
  | cons a rest ih => exact ih (h.act a)

end Engine

end OffsetCommit
