import OffsetCommit.Proofs.Engine.Callers
import OffsetCommit.Proofs.Engine.Custody
import OffsetCommit.Proofs.Engine.Draining
import OffsetCommit.Proofs.Engine.Observer
import OffsetCommit.Proofs.Engine.Statuses

/-!
# The pace of commits

A lane begins with its next commit at the very time at which the one before it has ended, and no
lane waits for a lane of another partition. So as long as every commit takes the same time, the
commits of a partition end one such time apart, whatever lanes they are in and whatever happens to
other partitions.

* `beat_make`: what a move does to the commits of one partition is one of the cases of
  `Engine.Beat`.
* `Paced.make`, `Paced.passTo`: moves and the passing of time preserve `Engine.Paced`, the
  invariant on the clock.
* `Paced.done_eq`: when no move is possible, the commits that have ended are the first `(e.now -
  start) / delay` ones.
* `Listening.act` and its companions: what clients do to an engine that nobody has asked to shut
  down keeps it `Steady`.
-/

namespace OffsetCommit

/-- The request of `term?` is the lane's current one. -/
theorem Lane.map_fst_term? (lane : Lane) : lane.term?.map Prod.fst = lane.current? := by
  unfold term? current?
  rcases lane.phase with k | _ | ⟨r, due⟩ | crashed <;> rfl

/-- The requests of `terms p` are those under way. -/
theorem Lanes.map_fst_terms (ls : Lanes) (p : Partition) :
    (ls.terms p).map Prod.fst = ls.underWay p := by
  rw [terms, shown, underWay, List.map_filterMap]
  exact List.filterMap_congr fun lane _ => lane.map_fst_term?

/-- Deciding a commit does not change `faults.delay`, how long the next one takes. -/
theorem Broker.delay_commit (b : Broker) (p : Partition) (o : Offset) :
    (b.commit p o).2.faults.delay = b.faults.delay := by
  have hnext : b.decideNext.2.faults.delay = b.faults.delay := by
    unfold decideNext
    repeat' first | rfl | split
  unfold commit
  rcases hfault : b.decideNext.1 with _ | fault
  · simp only [hfault, update, hnext]
  · simp only [hfault, update, hnext]

namespace Engine

/-- How long a commit takes that begins now: the delay of the broker, and no time without one. -/
def commitTime (e : Engine) : Nat :=
  e.broker.faults.delay.getD 0

/-- The commits of `p` that are under way, each with the time at which it is decided. -/
def terms (e : Engine) (p : Partition) : List (Request × Nat) :=
  e.lanes.terms p

/-- What is under way is pending. -/
theorem mem_pending_of_terms {e : Engine} {p : Partition} {x : Request × Nat} (hx : x ∈ e.terms p) :
    x.1 ∈ e.pending p := by
  apply mem_pending_of_underWay
  rw [underWay, ← Lanes.map_fst_terms]
  exact List.mem_map_of_mem hx

/-- Without pending commits nothing is under way. -/
theorem terms_eq_nil_of_pending {e : Engine} {p : Partition} (h : e.pending p = []) :
    e.terms p = [] := by
  rw [List.eq_nil_iff_forall_not_mem]
  intro x hx
  have hmem := mem_pending_of_terms hx
  rw [h] at hmem
  cases hmem

/-! ### What a move does to the commits of a partition -/

/-- What a move does to the pending commits of `p` and to `terms p`: nothing, the first begins and
is due at `e.now + e.commitTime`, or the one that is under way and due is over. `beat_make` shows
that every move does one of these. -/
inductive Beat (e : Engine) (p : Partition) (e' : Engine) : Prop where
  /-- Nothing happens to them. -/
  | stays (pending : e'.pending p = e.pending p) (terms : e'.terms p = e.terms p)
  /-- None is under way, and the first pending one begins. -/
  | begins (r : Request) (rest : List Request) (first : e.pending p = r :: rest)
      (idle : e.terms p = []) (pending : e'.pending p = e.pending p)
      (terms : e'.terms p = [(r, e.now + e.commitTime)])
  /-- The one that is under way is due, and the broker decides it. -/
  | ends (r : Request) (due : Nat) (busy : e.terms p = [(r, due)]) (isDue : due ≤ e.now)
      (first : e.pending p = r :: e'.pending p) (decided : e'.isDecided r.ticket = true)
      (terms : e'.terms p = [])
  /-- The one that is under way is due, and the client of the broker crashes on it. -/
  | crashes (r : Request) (due : Nat) (busy : e.terms p = [(r, due)]) (isDue : due ≤ e.now)
      (crash : r.offset ∈ e.setup.crashesAt)
  /-- The loop ends and discards the commands in its mailbox. -/
  | discards (closed : e.stage ≠ .serving) (mailbox : e.mailbox.toList ≠ [])

/-- Work on a lane that is alone changes `terms` of its own partition to `(f lane).term?` and no
other. -/
theorem Sound.terms_modifyLane {e : Engine} (h : e.Sound) {i : Nat} {lane : Lane}
    (hi : e.lanes.all[i]? = some lane) (hlive : lane.hasEnded = false)
    (halone : e.lanes.EndedBefore lane.partition i) {f : Lane → Lane}
    (hf : (f lane).partition = lane.partition) (p : Partition) :
    (e.modifyLane i f).terms p =
      if lane.partition = p then (f lane).term?.toList else e.terms p :=
  h.wellFormed.shown_modify_of_alone Lane.isView_term? hi hlive halone hf p

/-- The partition of a lane that is alone has under way what this lane has. -/
theorem Sound.terms_of_alone {e : Engine} (h : e.Sound) {i : Nat} {lane : Lane}
    (hi : e.lanes.all[i]? = some lane) (hlive : lane.hasEnded = false)
    (halone : e.lanes.EndedBefore lane.partition i) :
    e.terms lane.partition = lane.term?.toList :=
  h.wellFormed.shown_of_alone Lane.isView_term? hi hlive halone

/-- A free lane begins with the first pending commit of its partition, at `e.now + e.commitTime`:
the case `Beat.begins`. -/
theorem beat_proceed {e : Engine} (h : e.Sound) {i : Nat} {lane : Lane}
    (hi : e.lanes.all[i]? = some lane) (hphase : lane.phase = .ready) (p : Partition) :
    e.Beat p (e.proceed i lane) := by
  obtain ⟨hlive, halone, hcurrent⟩ := h.idle_of_ready hi hphase
  have hquiet := (proceed_spec h hi hphase).2
  have hidle : e.terms lane.partition = [] := by
    rw [h.terms_of_alone hi hlive halone, Lane.isView_term?.idle hcurrent]
    rfl
  unfold proceed at hquiet ⊢
  rcases hpop : lane.queue.pop? with _ | ⟨r, left⟩
  · rw [hpop] at hquiet
    refine .stays (hquiet.pending p) ((h.terms_modifyLane hi hlive halone rfl p).trans ?_)
    split
    · next hp => exact (hp ▸ hidle).symm
    · rfl
  · rw [hpop] at hquiet
    obtain ⟨-, rest, hfirst⟩ := h.pending_of_ready hi hphase hpop
    have hterms := h.terms_modifyLane hi hlive halone
      (f := fun lane => { lane with queue := left, phase := .committing r e.dueFromNow }) rfl p
    by_cases hp : lane.partition = p
    · subst hp
      exact .begins r rest hfirst hidle (hquiet.pending _) (hterms.trans (if_pos rfl))
    · exact .stays (hquiet.pending p) (hterms.trans (if_neg hp))

/-- Work on a lane that is alone is the case `Beat.stays` for every other partition. -/
theorem beat_elsewhere {e e' : Engine} (h : e.Sound) {i : Nat} {lane : Lane}
    (hi : e.lanes.all[i]? = some lane) (hlive : lane.hasEnded = false)
    (halone : e.lanes.EndedBefore lane.partition i) {p : Partition} (hp : lane.partition ≠ p)
    {f : Lane → Lane} (hf : (f lane).partition = lane.partition) (gone : List Request)
    (hgone : lane.pending = gone ++ (f lane).pending) (hlanes : e'.lanes = e.lanes.modify i f)
    (hmailbox : e'.mailbox = e.mailbox) : e.Beat p e' := by
  have hpending := h.pending_modifyLane hi halone hf hgone p
  have hterms := h.terms_modifyLane hi hlive halone hf p
  rw [if_neg hp] at hpending hterms
  refine .stays (Eq.trans ?_ hpending.symm) (Eq.trans ?_ hterms)
  · rw [pending, pending, queued, queued, hlanes, hmailbox]
    rfl
  · rw [terms, hlanes]
    rfl

/-- The work of a lane is a `Beat`: a commit that is over (`Beat.ends`) leaves its lane free for the
next one. -/
theorem beat_workLane {e : Engine} (h : e.Sound) (hl : e.Ledger) {i : Nat}
    (hpossible : e.isPossible (.work i) = true) (p : Partition) : e.Beat p (e.workLane i) := by
  obtain ⟨lane, hi, hcan⟩ := (Option.any_eq_true _ _).mp hpossible
  unfold workLane
  rw [hi]
  rcases hphase : lane.phase with k | _ | ⟨r, due⟩ | crashed
  · simp only [canWork, hphase] at hcan
    have hquiet := (wake_spec h hi hphase hcan).2
    simp only [hphase]
    have hview : ({ lane with phase := .ready } : Lane).term? = lane.term? := by
      rw [Lane.term?, Lane.term?, hphase]
    exact .stays (hquiet.pending p)
      (Lanes.shown_modify_of_eq hi (f := fun lane => { lane with phase := .ready }) rfl hview p)
  · simp only [hphase]
    exact beat_proceed h hi hphase p
  · obtain ⟨hlive, halone, hpending, -⟩ := h.of_committing hi hphase
    have hdue : due ≤ e.now := by simpa [canWork, hphase] using hcan
    -- the lane is alone, so its commit is the one that is under way for the partition
    have hbusy : e.terms lane.partition = [(r, due)] := by
      rw [h.terms_of_alone hi hlive halone, Lane.term?, hphase]
      rfl
    simp only [hphase]
    by_cases hcrash : r.offset ∈ e.setup.crashesAt
    · rw [if_pos hcrash]
      by_cases hp : lane.partition = p
      · subst hp
        exact .crashes r due hbusy hdue hcrash
      · rw [crash, foldl_abandon_eq]
        exact beat_elsewhere h hi hlive halone hp
          (f := fun lane => { lane with queue := .empty, phase := .ended true }) rfl _
          (hpending.trans (List.append_nil _).symm) rfl rfl
    · rw [if_neg hcrash]
      have hdecided := isDecided_conclude h hl hi hphase
      obtain ⟨journal, observed, heq⟩ := e.conclude_eq i lane r
      rw [heq] at hdecided ⊢
      by_cases hp : lane.partition = p
      · subst hp
        have hgone : lane.pending = [r] ++ ({ lane with phase := .ready } : Lane).pending := hpending
        have hrest := h.pending_modifyLane hi halone
          (f := fun lane => { lane with phase := .ready }) rfl hgone lane.partition
        have hterms := h.terms_modifyLane hi hlive halone
          (f := fun lane => { lane with phase := .ready }) rfl lane.partition
        rw [if_pos rfl] at hrest hterms
        exact .ends r due hbusy hdue hrest hdecided hterms
      · exact beat_elsewhere h hi hlive halone hp
          (f := fun lane => { lane with phase := .ready }) rfl [r] hpending rfl rfl
  · simp only [hphase]
    exact .stays rfl rfl

/-- **Every move is a beat** for every partition: `e.Beat p (e.make move)`. -/
theorem beat_make {e : Engine} (h : e.Sound) (hl : e.Ledger) {move : Move}
    (hpossible : e.isPossible move = true) (p : Partition) : e.Beat p (e.make move) := by
  cases move with
  | answer place =>
      show e.Beat p (e.answerCall place)
      unfold answerCall
      split
      · exact .stays rfl rfl
      · exact .stays rfl rfl
  | take =>
      have hserving := serving_of_isPossible (.inl rfl) hpossible
      exact .stays ((takeCommand_spec h hserving).2.pending p)
        (shown_takeCommand Lane.isView_term? e p)
  | hangUp =>
      exact .stays ((beginDrain_spec h none).2.pending p)
        (Lanes.shown_drain Lane.isView_term? e.lanes p)
  | work lane => exact beat_workLane h hl hpossible p
  | collect =>
      refine .stays ((collect_spec h).2.pending p) ?_
      show e.collect.terms p = _
      unfold collect
      split <;> rfl
  | stop =>
      rcases hmailbox : e.mailbox.toList with _ | ⟨command, rest⟩
      · obtain ⟨callers, heq⟩ := e.stop_eq
        have hstop : e.stop.pending p = e.pending p := by
          rw [heq, pending, pending, queued, queued, hmailbox]
          rfl
        refine .stays hstop ?_
        rw [make, heq]
        rfl
      · refine .discards (fun hserving => ?_) (by simp [hmailbox])
        rw [isPossible, hserving] at hpossible
        cases hpossible

/-! ### What moves leave alone -/

/-- No move touches `now`, `commitTime` or `hasClients`. -/
theorem make_frame (e : Engine) (move : Move) :
    (e.make move).now = e.now ∧ (e.make move).commitTime = e.commitTime ∧
      (e.make move).hasClients = e.hasClients := by
  cases move with
  | answer place =>
      simp only [make, answerCall, commitTime]
      split
      · exact ⟨rfl, rfl, rfl⟩
      · exact ⟨rfl, by rw [Broker.delay_commit], rfl⟩
  | take =>
      simp only [make, takeCommand]
      rcases e.mailbox.pop? with _ | ⟨command, rest⟩
      · exact ⟨rfl, rfl, rfl⟩
      cases command with
      | commit r =>
          simp only [obey, route]
          split <;> exact ⟨rfl, rfl, rfl⟩
      | revoke p => exact ⟨rfl, rfl, rfl⟩
      | shutdown caller => exact ⟨rfl, rfl, rfl⟩
  | hangUp => exact ⟨rfl, rfl, rfl⟩
  | work i =>
      simp only [make, workLane]
      rcases e.lanes.all[i]? with _ | lane
      · exact ⟨rfl, rfl, rfl⟩
      dsimp only
      split
      · exact ⟨rfl, rfl, rfl⟩
      · unfold proceed
        split <;> exact ⟨rfl, rfl, rfl⟩
      · next r _ _ =>
          split
          · rw [crash, foldl_abandon_eq]
            exact ⟨rfl, rfl, rfl⟩
          · obtain ⟨journal, observed, heq⟩ := e.conclude_eq i lane r
            rw [heq]
            exact ⟨rfl, by rw [commitTime, Broker.delay_commit]; rfl, rfl⟩
      · exact ⟨rfl, rfl, rfl⟩
  | collect =>
      simp only [make, collect]
      split <;> exact ⟨rfl, rfl, rfl⟩
  | stop =>
      obtain ⟨callers, heq⟩ := e.stop_eq
      rw [make, heq]
      exact ⟨rfl, rfl, rfl⟩

/-- A commit that is pending after a move was pending before. -/
theorem pending_make_subset {e : Engine} (h : e.Sound) (hl : e.Ledger) {move : Move}
    (hpossible : e.isPossible move = true) (p : Partition) :
    (e.make move).pending p ⊆ e.pending p := by
  intro r hr
  rw [← act_move_of_isPossible hpossible] at hr
  rcases (h.effect (.move move)).2.mem_pending hr with hold | hnew
  · exact hold
  · have hlt := (hl.act h (.move move)).lt_size hr
    rw [hnew, size_act h (by simp)] at hlt
    exact absurd hlt (Nat.lt_irrefl _)

/-- If there are no direct calls, a move makes none. -/
theorem pendingCalls_make {e : Engine} (h : e.Sound) (hcalls : e.pendingCalls = []) {move : Move}
    (hpossible : e.isPossible move = true) : (e.make move).pendingCalls = [] := by
  cases (make_spec h hpossible (.move move)).2 with
  | quiet unchanged => exact unchanged.calls.trans hcalls
  | issued _ _ _ _ _ _ _ calls => exact calls.trans hcalls
  | refused _ _ _ _ _ _ _ calls => exact calls.trans hcalls
  | decided _ _ _ _ _ calls => exact calls.trans hcalls
  | abandoned _ _ _ _ _ calls => exact calls.trans hcalls
  | called _ _ action => cases action
  | answered c _ call =>
      rw [hcalls] at call
      cases call

/-- What a move does to the mailbox and the stage. `loopStep_make` shows that every move does one of
these. -/
inductive LoopStep (e e' : Engine) : Prop where
  /-- The loop takes no command. -/
  | rests (mailbox : e'.mailbox = e.mailbox) (stage : e'.stage = .serving ↔ e.stage = .serving)
  /-- It takes the first command, and only a shutdown makes it stop serving. -/
  | takes (command : Command) (mailbox : e.mailbox.toList = command :: e'.mailbox.toList)
      (stage : e'.stage = .serving ∨ ∃ c, command = .shutdown c)
  /-- It has no command left, as it does not serve any more or has no clients. -/
  | leaves (mailbox : e'.mailbox.toList = []) (cause : e.stage ≠ .serving ∨ e.hasClients = false)

/-- What a move does to the mailbox and the stage is a `LoopStep`. -/
theorem loopStep_make {e : Engine} {move : Move} (hpossible : e.isPossible move = true) :
    e.LoopStep (e.make move) := by
  cases move with
  | answer place =>
      simp only [make, answerCall]
      split <;> exact .rests rfl .rfl
  | take =>
      have hserving := serving_of_isPossible (.inl rfl) hpossible
      obtain ⟨command, rest, hpop, hmail, -⟩ := exists_command hpossible
      simp only [make, takeCommand, hpop]
      cases command with
      | commit r =>
          simp only [obey, route]
          split <;> exact .takes _ hmail (.inl hserving)
      | revoke p => exact .takes _ hmail (.inl hserving)
      | shutdown caller => exact .takes _ hmail (.inr ⟨caller, rfl⟩)
  | hangUp =>
      simp only [isPossible, Bool.and_eq_true, Bool.not_eq_true'] at hpossible
      exact .leaves (Queue.isEmpty_iff.mp hpossible.1.2) (.inr hpossible.2)
  | work lane =>
      obtain ⟨hstage, hmailbox, -⟩ := e.workLane_frame lane
      exact .rests hmailbox (by rw [make, hstage])
  | collect =>
      simp only [make, collect]
      split
      · next caller i rest hstage => exact .rests rfl (by simp [hstage, report])
      · exact .rests rfl .rfl
  | stop =>
      refine .leaves rfl (.inl fun hserving => ?_)
      rw [isPossible, hserving] at hpossible
      cases hpossible

/-! ### Steady engines -/

/-- The invariant of an engine that discards no command and in which every commit takes the time
`delay`. `Steady.make` and `Steady.passTo` keep it. -/
structure Steady (e : Engine) (delay : Nat) : Prop where
  /-- The lanes are in order. -/
  sound : e.Sound
  /-- The tickets agree with the pending commits. -/
  ledger : e.Ledger
  /-- Closing down goes its way. -/
  closing : e.Closing
  /-- The loop does not stop serving before its mailbox is empty. -/
  emptied : e.stage ≠ .serving → e.mailbox.toList = []
  /-- Nothing is posted behind a request to shut down. -/
  last : ∀ front c back, e.mailbox.toList = front ++ .shutdown c :: back → back = []
  /-- How long commits take. -/
  commitTime : e.commitTime = delay
  /-- The broker is not asked directly. -/
  calls : e.pendingCalls = []

/-- Every move preserves `Steady`. -/
theorem Steady.make {e : Engine} {delay : Nat} (h : e.Steady delay) {move : Move}
    (hpossible : e.isPossible move = true) : (e.make move).Steady delay := by
  have hact := act_move_of_isPossible hpossible
  refine ⟨hact ▸ h.sound.act _, hact ▸ h.ledger.act h.sound _, hact ▸ h.closing.act h.sound _,
    fun hstage => ?_, fun front c back hsplit => ?_, (e.make_frame move).2.1.trans h.commitTime,
    pendingCalls_make h.sound h.calls hpossible⟩
  · cases loopStep_make hpossible with
    | rests mailbox stage => exact mailbox ▸ h.emptied fun hserving => hstage (stage.mpr hserving)
    | takes command mailbox stage =>
        rcases stage with hserving | ⟨c, rfl⟩
        · exact absurd hserving hstage
        · exact h.last [] c _ mailbox
    | leaves mailbox => exact mailbox
  · cases loopStep_make hpossible with
    | rests mailbox => exact h.last front c back (mailbox ▸ hsplit)
    | takes command mailbox => exact h.last (command :: front) c back (mailbox.trans (by rw [hsplit]; rfl))
    | leaves mailbox =>
        rw [mailbox] at hsplit
        simp at hsplit

/-- The passing of time preserves `Steady`, as it changes nothing but `now`. -/
theorem Steady.passTo {e : Engine} {delay : Nat} (h : e.Steady delay) (time : Nat) :
    (e.passTo time).Steady delay :=
  ⟨h.sound.act (.passTo time), h.ledger.act h.sound (.passTo time),
    h.closing.act h.sound (.passTo time), h.emptied, h.last, h.commitTime, h.calls⟩

/-- When no move is possible, a partition with pending commits has one under way. -/
theorem Steady.busy {e : Engine} {delay : Nat} (h : e.Steady delay) (hsettled : e.next? = none)
    {p : Partition} (hpending : e.pending p ≠ []) : e.terms p ≠ [] := by
  intro hidle
  have hmailbox : e.mailbox.toList = [] := by
    by_cases hserving : e.stage = .serving
    · have hnot := isPossible_eq_false_of_next? hsettled .take
      rw [isPossible, hserving] at hnot
      exact Queue.isEmpty_iff.mp (by simpa using hnot)
    · exact h.emptied hserving
  have hcurrent : ∀ (i : Nat) (lane : Lane), e.lanes.all[i]? = some lane → lane.partition = p →
      lane.current? = none := by
    intro i lane hi hp
    rcases hterm : lane.term? with _ | x
    · rw [← lane.map_fst_term?, hterm, Option.map_none]
    · have hmem : x ∈ e.terms p := Lanes.mem_terms_iff.mpr ⟨i, lane, hi, hp, hterm⟩
      rw [hidle] at hmem
      cases hmem
  have hlanes := pending_eq_nil_of_lanes h.sound
    (lane_cases_of_idle hsettled h.sound h.closing hcurrent)
  refine hpending ?_
  rw [pending, queued, hlanes, hmailbox]
  rfl

/-- When no move is possible, what is under way is decided later than now. -/
theorem lt_due_of_settled {e : Engine} (hsettled : e.next? = none) {p : Partition}
    {x : Request × Nat} (hx : x ∈ e.terms p) : e.now < x.2 := by
  obtain ⟨i, lane, hi, -, hterm⟩ := Lanes.mem_terms_iff.mp hx
  have hnot := isPossible_eq_false_of_next? hsettled (.work i)
  rw [isPossible, hi, Option.any_some, canWork, Lane.phase_of_term? hterm] at hnot
  exact Nat.lt_of_not_le (of_decide_eq_false hnot)

/-! ### Listening engines -/

/-- On an engine that serves, `submit` adds a ticket and posts the commit. -/
theorem submit_of_serving {e : Engine} (h : e.stage = .serving) (p : Partition) (o : Offset)
    (count : Nat) : e.submit p o count =
      { e with
        tickets := e.tickets.push ⟨p, o, count, none⟩
        mailbox := e.mailbox.push (.commit ⟨e.tickets.size, p, o, count⟩) } := by
  simp [submit, isClosed_eq_false_iff.mpr h]

/-- On an engine that serves, `revoke` posts the revocation. -/
theorem revoke_of_serving {e : Engine} (h : e.stage = .serving) (p : Partition) :
    e.revoke p = { e with mailbox := e.mailbox.push (.revoke p) } := by
  simp [revoke, isClosed_eq_false_iff.mpr h]

/-- On an engine that serves, `shutdown` adds a caller and posts the request. -/
theorem shutdown_of_serving {e : Engine} (h : e.stage = .serving) : e.shutdown =
    { e with
      callers := e.callers.push false
      mailbox := e.mailbox.push (.shutdown e.callers.size) } := by
  simp [shutdown, isClosed_eq_false_iff.mpr h]

/-- The invariant of a `Steady` engine that serves and that nobody has asked to shut down.
`Listening.act` keeps it under internal actions, `Listening.submit` and `Listening.revoke` under
those of clients. -/
structure Listening (e : Engine) (delay : Nat) : Prop where
  /-- Commits take the same time. -/
  steady : e.Steady delay
  /-- The loop serves. -/
  serving : e.stage = .serving
  /-- Someone is there who can send commands. -/
  hasClients : e.hasClients = true
  /-- Nobody has asked for a shutdown. -/
  noShutdown : ∀ c, .shutdown c ∉ e.mailbox.toList

/-- No move makes a listening engine stop serving. -/
theorem Listening.make {e : Engine} {delay : Nat} (h : e.Listening delay) {move : Move}
    (hpossible : e.isPossible move = true) : (e.make move).Listening delay := by
  refine ⟨h.steady.make hpossible, ?_, (e.make_frame move).2.2.trans h.hasClients, fun c hc => ?_⟩
  · cases loopStep_make hpossible with
    | rests _ stage => exact stage.mpr h.serving
    | takes command mailbox stage =>
        rcases stage with hserving | ⟨c, rfl⟩
        · exact hserving
        · exact absurd (mailbox ▸ List.mem_cons_self) (h.noShutdown c)
    | leaves _ cause =>
        rcases cause with hclosed | hgone
        · exact absurd h.serving hclosed
        · exact absurd (h.hasClients.symm.trans hgone) (by simp)
  · apply h.noShutdown c
    cases loopStep_make hpossible with
    | rests mailbox => exact mailbox ▸ hc
    | takes command mailbox => exact mailbox ▸ List.mem_cons_of_mem command hc
    | leaves mailbox =>
        rw [mailbox] at hc
        cases hc

/-- The passing of time preserves `Listening`. -/
theorem Listening.passTo {e : Engine} {delay : Nat} (h : e.Listening delay) (time : Nat) :
    (e.passTo time).Listening delay :=
  ⟨h.steady.passTo time, h.serving, h.hasClients, h.noShutdown⟩

/-- A command of any kind may be posted: the engine is `Steady` afterwards. -/
theorem Listening.steady_post {e : Engine} {delay : Nat} (h : e.Listening delay) {a : EngineAction}
    {command : Command} (hstage : (e.act a).stage = e.stage)
    (hmailbox : (e.act a).mailbox.toList = e.mailbox.toList ++ [command])
    (htime : (e.act a).commitTime = e.commitTime)
    (hcalls : (e.act a).pendingCalls = e.pendingCalls) : (e.act a).Steady delay := by
  have hserving := hstage.trans h.serving
  refine ⟨h.steady.sound.act a, h.steady.ledger.act h.steady.sound a, .of_serving hserving,
    absurd hserving, fun front c back hsplit => ?_, htime.trans h.steady.commitTime,
    hcalls.trans h.steady.calls⟩
  rcases List.eq_nil_or_concat back with hnil | ⟨back, last, rfl⟩
  · exact hnil
  · -- the shutdown would have been there before
    rw [hmailbox, List.concat_eq_append, ← List.cons_append, ← List.append_assoc] at hsplit
    have hbefore := (List.append_inj' hsplit rfl).1
    exact absurd (hbefore ▸ by simp) (h.noShutdown c)

/-- Posting any command but a shutdown keeps the engine `Listening`. -/
theorem Listening.post {e : Engine} {delay : Nat} (h : e.Listening delay) {a : EngineAction}
    {command : Command} (hstage : (e.act a).stage = e.stage)
    (hclients : (e.act a).hasClients = e.hasClients)
    (hmailbox : (e.act a).mailbox.toList = e.mailbox.toList ++ [command])
    (hcommand : ∀ c, command ≠ .shutdown c) (htime : (e.act a).commitTime = e.commitTime)
    (hcalls : (e.act a).pendingCalls = e.pendingCalls) : (e.act a).Listening delay := by
  refine ⟨h.steady_post hstage hmailbox htime hcalls, hstage.trans h.serving,
    hclients.trans h.hasClients, fun c hc => ?_⟩
  rw [hmailbox, List.mem_append] at hc
  rcases hc with hc | hc
  · exact h.noShutdown c hc
  · exact hcommand c (List.mem_singleton.mp hc).symm

/-- Issuing a commit keeps the engine `Listening`. -/
theorem Listening.submit {e : Engine} {delay : Nat} (h : e.Listening delay) (p : Partition)
    (o : Offset) (count : Nat) : (e.submit p o count).Listening delay := by
  have hact := submit_of_serving h.serving p o count
  exact h.post (a := .submit p o count) (by rw [act, hact]) (by rw [act, hact])
    (by rw [act, hact, Queue.toList_push]) (by simp) (by rw [act, hact]; rfl) (by rw [act, hact])

/-- Revoking a partition keeps the engine `Listening`. -/
theorem Listening.revoke {e : Engine} {delay : Nat} (h : e.Listening delay) (p : Partition) :
    (e.revoke p).Listening delay := by
  have hact := revoke_of_serving h.serving p
  exact h.post (a := .revoke p) (by rw [act, hact]) (by rw [act, hact])
    (by rw [act, hact, Queue.toList_push]) (by simp) (by rw [act, hact]; rfl) (by rw [act, hact])

/-- A shutdown keeps the engine `Steady`; it is the last command. -/
theorem Listening.shutdown {e : Engine} {delay : Nat} (h : e.Listening delay) :
    e.shutdown.Steady delay := by
  have hact := shutdown_of_serving h.serving
  exact h.steady_post (a := .shutdown) (by rw [act, hact]) (by rw [act, hact, Queue.toList_push])
    (by rw [act, hact]; rfl) (by rw [act, hact])

/-- What an engine does by itself (`isInternal`) keeps it `Listening`. -/
theorem Listening.act {e : Engine} {delay : Nat} (h : e.Listening delay) {a : EngineAction}
    (ha : a.isInternal = true) : (e.act a).Listening delay := by
  cases a with
  | passTo time => exact h.passTo time
  | move move =>
      rw [Engine.act, perform]
      split
      · next hpossible => exact h.make hpossible
      · exact h
  | _ => cases ha

/-! ### Keeping the pace -/

/-- The invariant between the clock and the commits `fresh` of `p` that were issued at the time
`start`, of which `done` have ended: the `k`-th is decided at `start + k * delay`. `Paced.make` and
`Paced.passTo` keep it. -/
structure Paced (e : Engine) (p : Partition) (start delay : Nat) (fresh done : List Nat) : Prop where
  /-- The others are pending, in the order of issue. -/
  split : fresh = done ++ (e.pending p).map Request.ticket
  /-- Those that have ended were decided. -/
  decided : ∀ k ∈ done, e.isDecided k = true
  /-- The next one is decided when its time is over. -/
  due : ∀ x ∈ e.terms p, x.2 = start + (done.length + 1) * delay
  /-- The next one begins as soon as the last one has ended. -/
  idle : e.terms p = [] → e.pending p ≠ [] → e.now = start + done.length * delay
  /-- Each of those that have ended took its time. -/
  past : start + done.length * delay ≤ e.now
  /-- The clock does not run past the next one. -/
  ahead : e.pending p ≠ [] → e.now ≤ start + (done.length + 1) * delay

variable {e : Engine} {p : Partition} {start delay : Nat} {fresh done : List Nat}

/-- The property `Paced` depends on the pending commits of the partition, on what is under way and
on the clock. -/
theorem Paced.of_eq {e' : Engine} (h : e.Paced p start delay fresh done)
    (hpending : e'.pending p = e.pending p) (hterms : e'.terms p = e.terms p)
    (hnow : e'.now = e.now) (hdecided : ∀ k ∈ done, e'.isDecided k = true) :
    e'.Paced p start delay fresh done := by
  refine ⟨hpending ▸ h.split, hdecided, hterms ▸ h.due, ?_, hnow ▸ h.past, ?_⟩
  · rw [hterms, hpending, hnow]
    exact h.idle
  · rw [hpending, hnow]
    exact h.ahead

/-- **A move keeps the pace**, unless the client of the broker crashes: `hcalm` says that nothing
that is due has a crashing offset. -/
theorem Paced.make (h : e.Paced p start delay fresh done) (hsteady : e.Steady delay)
    (hcalm : ∀ x ∈ e.terms p, x.2 ≤ e.now → x.1.offset ∉ e.setup.crashesAt) {move : Move}
    (hpossible : e.isPossible move = true) :
    ∃ done', (e.make move).Paced p start delay fresh done' := by
  have hnow := (e.make_frame move).1
  have hdecided : ∀ k ∈ done, (e.make move).isDecided k = true := fun k hk => by
    rw [← act_move_of_isPossible hpossible]
    exact hsteady.ledger.isDecided_act hsteady.sound _ (h.decided k hk)
  cases beat_make hsteady.sound hsteady.ledger hpossible p with
  | stays pending terms => exact ⟨done, h.of_eq pending terms hnow hdecided⟩
  | begins r rest first idle pending terms =>
      have hbegin := h.idle idle (by simp [first])
      refine ⟨done, pending ▸ h.split, hdecided, fun x hx => ?_, fun hnone => ?_, hnow ▸ h.past, ?_⟩
      · rw [terms] at hx
        rw [List.mem_singleton.mp hx, hbegin, hsteady.commitTime, Nat.add_mul, Nat.one_mul,
          Nat.add_assoc]
      · rw [terms] at hnone
        cases hnone
      · rw [pending, hnow]
        exact h.ahead
  | ends r due busy isDue first decided terms =>
      have hdue : due = start + (done.length + 1) * delay := h.due (r, due) (by simp [busy])
      have hahead := h.ahead (by simp [first])
      -- the clock is not past its time, and the commit is due: it is decided right on time
      have hend : (e.make move).now = start + (done ++ [r.ticket]).length * delay := by
        rw [hnow, List.length_append]
        exact Nat.le_antisymm hahead (hdue ▸ isDue)
      refine ⟨done ++ [r.ticket], ?_, fun k hk => ?_, fun x hx => ?_, fun _ _ => hend, hend.ge,
        fun _ => hend.le.trans ?_⟩
      · rw [h.split, first, List.append_assoc]
        rfl
      · rcases List.mem_append.mp hk with hk | hk
        · exact hdecided k hk
        · exact List.mem_singleton.mp hk ▸ decided
      · rw [terms] at hx
        cases hx
      · exact Nat.add_le_add_left (Nat.mul_le_mul_right _ (Nat.le_succ _)) _
  | crashes r due busy isDue crash => exact absurd crash (hcalm (r, due) (by simp [busy]) isDue)
  | discards closed mailbox => exact absurd (hsteady.emptied closed) mailbox

/-- Time may pass up to the decision of what is under way. -/
theorem Paced.passTo (h : e.Paced p start delay fresh done) (hsteady : e.Steady delay)
    (hsettled : e.next? = none) {time : Nat} (htime : ∀ x ∈ e.terms p, time ≤ x.2) :
    (e.passTo time).Paced p start delay fresh done where
  split := h.split
  decided := h.decided
  due := h.due
  idle hnone hpending := absurd hnone (hsteady.busy hsettled hpending)
  past := h.past.trans (Nat.le_max_left _ _)
  ahead hpending := by
    obtain ⟨x, hx⟩ := List.exists_mem_of_ne_nil _ (hsteady.busy hsettled hpending)
    exact max_le (h.ahead hpending) ((htime x hx).trans (h.due x hx).le)

/-- Of the fresh commits, those with a status are the `done` ones: a pending one has none. -/
theorem Paced.filter_ended (h : e.Paced p start delay fresh done) (hl : e.Ledger) :
    (fresh.filter fun k => (e.status? k).isSome) = done := by
  have hdone : (done.filter fun k => (e.status? k).isSome) = done := by
    refine List.filter_eq_self.mpr fun k hk => ?_
    obtain ⟨s, hs, -⟩ := (Option.any_eq_true _ _).mp (h.decided k hk)
    rw [hs]
    rfl
  have hpending : ((e.pending p).map Request.ticket).filter (fun k => (e.status? k).isSome) = [] := by
    rw [List.filter_eq_nil_iff]
    intro k hk
    obtain ⟨r, hr, rfl⟩ := List.mem_map.mp hk
    rw [hl.status?_of_pending hr]
    exact Bool.false_ne_true
  rw [h.split, List.filter_append, hdone, hpending, List.append_nil]

/-- **How many commits have ended** is told by the clock alone: `done = fresh.take ((e.now - start)
/ delay)`. -/
theorem Paced.done_eq (h : e.Paced p start delay fresh done) (hsteady : e.Steady delay)
    (hsettled : e.next? = none) (hpos : 0 < delay) :
    done = fresh.take ((e.now - start) / delay) := by
  have hstart : start ≤ e.now := (Nat.le_add_right _ _).trans h.past
  have hpast : done.length * delay ≤ e.now - start := Nat.le_sub_of_add_le' h.past
  rcases hpending : e.pending p with _ | ⟨r, rest⟩
  · have hall : fresh = done := by
      rw [h.split, hpending]
      exact List.append_nil _
    rw [hall, List.take_of_length_le]
    exact (Nat.le_div_iff_mul_le hpos).mpr hpast
  · have hbusy : e.terms p ≠ [] := hsteady.busy hsettled (by simp [hpending])
    obtain ⟨x, hx⟩ := List.exists_mem_of_ne_nil _ hbusy
    have hlt := lt_due_of_settled hsettled hx
    rw [h.due x hx] at hlt
    have hcount : (e.now - start) / delay = done.length :=
      Nat.div_eq_of_lt_le hpast (Nat.sub_lt_left_of_lt_add hstart hlt)
    rw [hcount, h.split, List.take_left]

end Engine

end OffsetCommit
