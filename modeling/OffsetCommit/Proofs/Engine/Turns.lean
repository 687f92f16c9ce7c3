import Mathlib.Data.List.Sort
import OffsetCommit.Proofs.Engine.History
import OffsetCommit.Proofs.Lanes.UnderWay

/-!
# Commits take turns

The lanes ask the broker for the commits of a partition one after the other, in the order in which
clients issued them, and leave out only commits that were given up before their turn came.

* `turn_act`: what an action does to the commits under way is one of the cases of `Engine.Turn`.
* `InOrder.act`, `InOrder.run`: `Engine.InOrder` is the invariant that follows from it. An action
  brings at most one new turn, behind all turns before.
* `commits_take_turns`: however the actions of clients and the moves of the engine are
  interleaved, at most one commit of a partition is under way, and turns come in the order of
  issue.
-/

namespace OffsetCommit.Engine

/-- The commits of `p` that lanes ask the broker for at present, `e.lanes.underWay p`; at most one,
by `Lanes.WellFormed.length_underWay_le`. -/
def underWay (e : Engine) (p : Partition) : List Request :=
  e.lanes.underWay p

/-- Whether the broker has decided an issued commit. -/
def isDecided (e : Engine) (ticket : Nat) : Bool :=
  (e.status? ticket).any Status.isDecided

/-- Whether an issued commit has been given up. -/
def isAbandoned (e : Engine) (ticket : Nat) : Bool :=
  (e.status? ticket).any fun s => s matches .abandoned _

/-- The commits of `p` that are under way after `a` and were not before. -/
def begins (e : Engine) (p : Partition) (a : EngineAction) : List Request :=
  ((e.act a).underWay p).filter fun r => r ∉ e.underWay p

/-- The commits of `p` that lanes begin to ask the broker for along a run, `begins` of one action
after the other. -/
def begun (e : Engine) (p : Partition) : List EngineAction → List Request
  | [] => []
  | a :: rest => e.begins p a ++ (e.act a).begun p rest

/-- The commits of `p` that are pending and not under way. -/
def waiting (e : Engine) (p : Partition) : List Request :=
  (e.pending p).filter fun r => r ∉ e.underWay p

/-! ### What an action does to the commits under way -/

/-- What an action does to the commits under way from `e` to `e'`: nothing, or one gets its turn, or
one is over. `turn_act` shows that every action does one of these. -/
inductive Turn (e e' : Engine) : Prop where
  /-- The commits under way stay, and the broker decides none. -/
  | stays (underWay : ∀ q, e'.underWay q = e.underWay q)
      (decided : ∀ k, e'.isDecided k = true → e.isDecided k = true)
  /-- Nothing is under way for a partition, and its first pending commit gets its turn. -/
  | begins (r : Request) (rest : List Request) (first : e.pending r.partition = r :: rest)
      (idle : e.underWay r.partition = []) (unchanged : e.Quiet e')
      (underWay : ∀ q, e'.underWay q = if r.partition = q then [r] else e.underWay q)
  /-- The commit that was under way for a partition is over, and no other is decided. -/
  | ends (r : Request) (busy : e.underWay r.partition = [r])
      (finished : r ∉ e'.pending r.partition)
      (underWay : ∀ q, e'.underWay q = if r.partition = q then [] else e.underWay q)
      (decided : ∀ k, e'.isDecided k = true → e.isDecided k = true ∨ k = r.ticket)

/-- Whether a commit is decided depends on `tickets` alone. -/
theorem isDecided_of_tickets_eq {e e' : Engine} (h : e'.tickets = e.tickets) (k : Nat) :
    e'.isDecided k = e.isDecided k := by
  rw [isDecided, isDecided, status?, status?, h]

/-- Requests that come to an end are decided if their verdicts say so, and no others are. -/
theorem isDecided_of_concludes {e e' : Engine} {gone : List Request} {verdict : Request → Status}
    (h : Concludes e.tickets e'.tickets gone verdict) {k : Nat} (hk : e'.isDecided k = true) :
    e.isDecided k = true ∨ ∃ r ∈ gone, r.ticket = k ∧ (verdict r).isDecided = true := by
  rcases h.getElem? k with ⟨-, hsame⟩ | ⟨r, hr, hrk, hnew⟩
  · rw [isDecided, status?, hsame] at hk
    exact .inl hk
  · rw [isDecided, status?, hnew] at hk
    rcases ht : e.tickets[k]? with _ | t
    · rw [ht] at hk
      cases hk
    · rw [ht] at hk
      exact .inr ⟨r, hr, hrk, hk⟩

/-- A quiet action that leaves what is under way is the case `Turn.stays`. -/
theorem Quiet.stays {e e' : Engine} (h : e.Quiet e')
    (hunderWay : ∀ q, e'.underWay q = e.underWay q) : e.Turn e' :=
  .stays hunderWay fun k hk => (isDecided_of_tickets_eq h.tickets k).symm.trans hk

/-- A commit that is issued waits for its turn: the case `Turn.stays`. -/
theorem turn_submit (e : Engine) (p : Partition) (o : Offset) (count : Nat) :
    e.Turn (e.submit p o count) := by
  have hpush : ∀ (e' : Engine) (status : Option Status), e'.lanes = e.lanes →
      e'.tickets = e.tickets.push ⟨p, o, count, status⟩ → status.any Status.isDecided = false →
      e.Turn e' := by
    intro e' status hlanes htickets hstatus
    refine .stays (fun q => by rw [underWay, underWay, hlanes]) fun k hk => ?_
    rw [isDecided, Engine.status?, htickets, Array.getElem?_push] at hk
    split at hk
    · rw [Option.bind_some, hstatus] at hk
      cases hk
    · exact hk
  unfold submit
  dsimp only
  split
  · exact hpush _ _ rfl rfl rfl
  · exact hpush _ _ rfl rfl rfl

/-- Taking a command leaves what a `view` shows of the lanes of each partition. -/
theorem shown_takeCommand {α : Type} {view : Lane → Option α} (h : Lane.IsView view) (e : Engine)
    (q : Partition) : e.takeCommand.lanes.shown view q = e.lanes.shown view q := by
  unfold takeCommand
  rcases e.mailbox.pop? with _ | ⟨command, rest⟩
  · rfl
  cases command with
  | commit r =>
      simp only [obey, route]
      split
      · exact Lanes.shown_route h e.lanes r q
      · exact Lanes.shown_route h e.lanes r q
  | revoke p => exact Lanes.shown_revoke h e.lanes p q
  | shutdown caller => exact Lanes.shown_drain h e.lanes q

/-- In particular it leaves what is under way. -/
theorem underWay_takeCommand (e : Engine) (q : Partition) :
    e.takeCommand.underWay q = e.underWay q :=
  shown_takeCommand Lane.isView_current? e q

/-- When the loop ends, it gives up commits whose turn has not come: the case `Turn.stays`. -/
theorem turn_stop (e : Engine) : e.Turn e.stop := by
  obtain ⟨callers, heq⟩ := e.stop_eq
  have hconcludes := concludes_abandon e (e.mailbox.toList.filterMap Command.request?)
  rw [foldl_abandon_eq] at hconcludes
  rw [heq]
  refine .stays (fun _ => rfl) fun k hk => ?_
  rcases isDecided_of_concludes (e := e) hconcludes hk with hold | ⟨r, -, -, hdecided⟩
  · exact hold
  · cases hdecided

/-- A free lane has not ended, is alone and has nothing under way. -/
theorem Sound.idle_of_ready {e : Engine} (h : e.Sound) {i : Nat} {lane : Lane}
    (hi : e.lanes.all[i]? = some lane) (hphase : lane.phase = .ready) :
    lane.hasEnded = false ∧ e.lanes.EndedBefore lane.partition i ∧ lane.current? = none := by
  refine ⟨?_, ?_, ?_⟩
  · rw [Lane.hasEnded, Lane.ending?, hphase]
    rfl
  · exact h.wellFormed.alone i lane hi (by rw [hphase]; exact fun _ => Phase.noConfusion)
  · rw [Lane.current?, hphase]

/-- The next request of a free lane is the first pending one of its partition. -/
theorem Sound.pending_of_ready {e : Engine} (h : e.Sound) {i : Nat} {lane : Lane}
    (hi : e.lanes.all[i]? = some lane) (hphase : lane.phase = .ready) {r : Request}
    {left : Queue Request} (hpop : lane.queue.pop? = some (r, left)) :
    r.partition = lane.partition ∧ ∃ rest, e.pending lane.partition = r :: rest := by
  obtain ⟨-, halone, hcurrent⟩ := h.idle_of_ready hi hphase
  have hpending : lane.pending = r :: left.toList := by
    rw [Lane.pending, hcurrent, Queue.toList_of_pop? hpop]
    rfl
  refine ⟨h.wellFormed.own i lane hi r (hpending ▸ List.mem_cons_self),
    left.toList ++ e.lanes.pendingAfter lane.partition i ++ e.queued lane.partition, ?_⟩
  rw [pending, Lanes.pending_eq_append hi, h.wellFormed.pendingBefore_eq_nil halone, hpending]
  simp

/-- A free lane begins with its first request, which is the first of its partition: the case
`Turn.begins`. -/
theorem turn_proceed {e : Engine} (h : e.Sound) {i : Nat} {lane : Lane}
    (hi : e.lanes.all[i]? = some lane) (hphase : lane.phase = .ready) :
    e.Turn (e.proceed i lane) := by
  obtain ⟨hlive, halone, hcurrent⟩ := h.idle_of_ready hi hphase
  have hquiet := (proceed_spec h hi hphase).2
  have hidle : e.underWay lane.partition = [] := by
    rw [underWay, h.wellFormed.underWay_of_alone hi hlive halone, hcurrent]
    rfl
  have hmodify : ∀ {f : Lane → Lane}, (f lane).partition = lane.partition →
      ∀ q, (e.lanes.modify i f).underWay q =
        if lane.partition = q then (f lane).current?.toList else e.lanes.underWay q :=
    h.wellFormed.underWay_modify_of_alone hi hlive halone
  unfold proceed at hquiet ⊢
  rcases hpop : lane.queue.pop? with _ | ⟨r, left⟩
  · rw [hpop] at hquiet
    refine hquiet.stays fun q => (hmodify (by rfl) q).trans ?_
    split
    · next hq => exact (hq ▸ hidle).symm
    · rfl
  · rw [hpop] at hquiet
    obtain ⟨hp, rest, hfirst⟩ := h.pending_of_ready hi hphase hpop
    refine .begins r rest (hp ▸ hfirst) (hp ▸ hidle) hquiet fun q => ?_
    rw [hp]
    exact hmodify (by rfl) q

/-- A commit that is decided, or whose client crashes, is over, and its lane has no other: the case
`Turn.ends`. -/
theorem turn_of_committing {e e' : Engine} (h : e.Sound) (hl : e.Ledger) {i : Nat} {lane : Lane}
    (hi : e.lanes.all[i]? = some lane) {r : Request} {due : Nat}
    (hphase : lane.phase = .committing r due) {f : Lane → Lane}
    (hf : (f lane).partition = lane.partition) (hcurrent : (f lane).current? = none)
    (gone : List Request) (hgone : lane.pending = r :: gone ++ (f lane).pending)
    (hlanes : e'.lanes = e.lanes.modify i f) (hmailbox : e'.mailbox = e.mailbox)
    (hdecided : ∀ k, e'.isDecided k = true → e.isDecided k = true ∨ k = r.ticket) :
    e.Turn e' := by
  obtain ⟨hlive, halone, hpending, hown⟩ := h.of_committing hi hphase
  have hp : r.partition = lane.partition := hown r List.mem_cons_self
  have hsplit := h.pending_modifyLane hi halone hf hgone lane.partition
  rw [if_pos rfl] at hsplit
  have hsame : e'.pending r.partition = (e.modifyLane i f).pending lane.partition := by
    rw [hp, pending, pending, queued, queued, hlanes, hmailbox]
    rfl
  refine .ends r ?_ (fun hmem => ?_) (fun q => ?_) hdecided
  · rw [hp, underWay, h.wellFormed.underWay_of_alone hi hlive halone, Lane.current?, hphase]
    rfl
  · -- the tickets of pending commits are all different
    have hsorted := hl.sorted lane.partition
    rw [hsplit, List.cons_append, List.pairwise_cons] at hsorted
    rw [hsame] at hmem
    exact Nat.lt_irrefl _ (hsorted.1 r (List.mem_append_right _ hmem))
  · rw [underWay, hlanes, h.wellFormed.underWay_modify_of_alone hi hlive halone hf, hcurrent, hp]
    rfl

/-- The work of a lane is a `Turn`, by its phase. -/
theorem turn_workLane {e : Engine} (h : e.Sound) (hl : e.Ledger) {i : Nat}
    (hpossible : e.isPossible (.work i) = true) : e.Turn (e.workLane i) := by
  obtain ⟨lane, hi, hcan⟩ := (Option.any_eq_true _ _).mp hpossible
  unfold workLane
  rw [hi]
  rcases hphase : lane.phase with k | _ | ⟨r, due⟩ | crashed
  · simp only [canWork, hphase] at hcan
    obtain ⟨-, hquiet⟩ := wake_spec h hi hphase hcan
    simp only [hphase]
    have hcurrent : ({ lane with phase := .ready } : Lane).current? = lane.current? := by
      rw [Lane.current?, Lane.current?, hphase]
    have hunderWay := Lanes.shown_modify_of_eq hi
      (f := fun lane => { lane with phase := .ready }) rfl hcurrent
    exact .stays hunderWay fun k hk => (isDecided_of_tickets_eq hquiet.tickets k).symm.trans hk
  · simp only [hphase]
    exact turn_proceed h hi hphase
  · have hpending := (h.of_committing hi hphase).2.2.1
    simp only [hphase]
    split
    · have hconcludes := concludes_abandon e (r :: lane.queue.toList)
      rw [foldl_abandon_eq] at hconcludes
      rw [crash, foldl_abandon_eq]
      refine turn_of_committing h hl hi hphase
        (f := fun lane => { lane with queue := .empty, phase := .ended true }) rfl rfl
        lane.queue.toList (hpending.trans (List.append_nil _).symm) rfl rfl fun k hk => ?_
      rcases isDecided_of_concludes (e := e) hconcludes hk with hold | ⟨x, -, -, hdecided⟩
      · exact .inl hold
      · cases hdecided
    · obtain ⟨journal, observed, heq⟩ := e.conclude_eq i lane r
      have hconcludes := concludes_finish e r fun r =>
        r.verdict (e.broker.commit lane.partition r.offset).1
      rw [heq]
      refine turn_of_committing h hl hi hphase
        (f := fun lane => { lane with phase := .ready }) rfl rfl [] hpending rfl rfl fun k hk => ?_
      rcases isDecided_of_concludes (e := e) hconcludes hk with hold | ⟨x, hx, rfl, -⟩
      · exact .inl hold
      · exact .inr (congrArg Request.ticket (List.mem_singleton.mp hx))
  · simp only [hphase]
    exact (Quiet.refl e).stays fun _ => rfl

/-- **Every action is a turn**: `e.Turn (e.act a)`. -/
theorem turn_act {e : Engine} (h : e.Sound) (hl : e.Ledger) (a : EngineAction) :
    e.Turn (e.act a) := by
  have hkeep : ∀ e' : Engine, e'.lanes = e.lanes → e'.tickets = e.tickets → e.Turn e' :=
    fun e' hlanes htickets => .stays (fun q => by rw [underWay, underWay, hlanes]) fun k hk =>
      (isDecided_of_tickets_eq htickets k).symm.trans hk
  cases a with
  | submit p o count => exact turn_submit e p o count
  | revoke p =>
      simp only [act, revoke]
      split
      · exact hkeep _ rfl rfl
      · exact hkeep _ rfl rfl
  | shutdown =>
      simp only [act, shutdown]
      split
      · exact hkeep _ rfl rfl
      · exact hkeep _ rfl rfl
  | dropClients => exact hkeep _ rfl rfl
  | changeFaults new => exact hkeep _ rfl rfl
  | call p o => exact hkeep _ rfl rfl
  | passTo time => exact hkeep _ rfl rfl
  | move move =>
      rw [act, perform]
      split
      · next hpossible =>
          cases move with
          | answer place =>
              show e.Turn (e.answerCall place)
              unfold answerCall
              split
              · exact hkeep _ rfl rfl
              · exact hkeep _ rfl rfl
          | take =>
              have hserving := serving_of_isPossible (.inl rfl) hpossible
              exact (takeCommand_spec h hserving).2.stays e.underWay_takeCommand
          | hangUp => exact (beginDrain_spec h none).2.stays (Lanes.shown_drain Lane.isView_current? e.lanes)
          | work lane => exact turn_workLane h hl hpossible
          | collect =>
              refine (collect_spec h).2.stays fun q => ?_
              show e.collect.underWay q = _
              unfold collect
              split <;> rfl
          | stop => exact turn_stop e
      · exact hkeep _ rfl rfl

/-! ### The order of turns -/

/-- The invariant of the commits `begun` of a partition `p` whose turn has come: their tickets
ascend, what waits is younger than all of them, and only what has begun is decided. `InOrder.run`
keeps it. -/
structure InOrder (e : Engine) (p : Partition) (begun : List Request) : Prop where
  /-- Each of them has a ticket that asks for the same. -/
  ticket : ∀ r ∈ begun, ∃ t, e.tickets[r.ticket]? = some t ∧ t.asks = (p, r.offset, r.count)
  /-- Their turns came in the order of issue. -/
  sorted : begun.Pairwise fun r x => r.ticket < x.ticket
  /-- What is under way has had its turn. -/
  underWay : ∀ r ∈ e.underWay p, r ∈ begun
  /-- A commit that still waits was issued behind all of them. -/
  ahead : ∀ r ∈ e.waiting p, ∀ x ∈ begun, x.ticket < r.ticket
  /-- The broker decides no commit before its turn. -/
  decided : ∀ k ∈ e.issued p, e.isDecided k = true → ∃ r ∈ begun, r.ticket = k

/-- At the start no turn has come. -/
theorem inOrder_start (setup : Setup) (broker : Broker) (p : Partition) :
    (start setup broker).InOrder p [] := by
  refine ⟨by simp, .nil, fun r hr => ?_, by simp, fun k hk => ?_⟩
  · cases hr
  · cases hk

/-- What is waiting is pending and not under way. -/
theorem mem_waiting_iff {e : Engine} {p : Partition} {r : Request} :
    r ∈ e.waiting p ↔ r ∈ e.pending p ∧ r ∉ e.underWay p := by
  rw [waiting, List.mem_filter, decide_eq_true_eq]

/-- A commit that is pending after an action was pending before, or it has just been issued. -/
theorem Effect.mem_pending {e e' : Engine} {a : EngineAction} (h : e.Effect a e') {p : Partition}
    {r : Request} (hr : r ∈ e'.pending p) : r ∈ e.pending p ∨ r.ticket = e.tickets.size := by
  cases h with
  | quiet unchanged => exact .inl (unchanged.pending p ▸ hr)
  | issued q o count _ _ pending =>
      rw [pending, List.mem_append] at hr
      rcases hr with hr | hr
      · exact .inl hr
      · split at hr
        · exact .inr (congrArg Request.ticket (List.mem_singleton.mp hr))
        · cases hr
  | refused q o count _ _ pending => exact .inl (pending p ▸ hr)
  | decided x answer _ pending =>
      rw [pending]
      exact .inl (List.mem_append_right _ hr)
  | abandoned rs _ _ sublist => exact .inl ((sublist p).subset hr)
  | called q o _ _ pending => exact .inl (pending p ▸ hr)
  | answered c answer _ _ pending => exact .inl (pending p ▸ hr)

/-- What is under way is pending. -/
theorem mem_pending_of_underWay {e : Engine} {p : Partition} {r : Request}
    (hr : r ∈ e.underWay p) : r ∈ e.pending p := by
  obtain ⟨i, lane, hi, hp, hcurrent⟩ := Lanes.mem_underWay_iff.mp hr
  apply List.mem_append_left
  refine Lanes.mem_pending_iff.mpr ⟨i, lane, hi, hp, List.mem_append_left _ ?_⟩
  rw [hcurrent]
  exact List.mem_singleton_self r

/-- An action leaves every commit with its partition. -/
theorem Ledger.partition_of_issued {e e' : Engine} (h : e.Ledger) {a : EngineAction}
    (heffect : e.Effect a e') {p : Partition} {k : Nat} (hk : k ∈ e'.issued p) {t : Ticket}
    (ht : e.tickets[k]? = some t) : t.partition = p := by
  obtain ⟨t', ht', hleads⟩ := h.leadsTo heffect ht
  obtain ⟨t'', ht'', hp⟩ := mem_issued_iff.mp hk
  obtain rfl := Option.some.inj (ht'.symm.trans ht'')
  exact hleads.partition_eq.symm.trans hp

/-- The commits whose turn has come keep their tickets, up to the status. -/
theorem InOrder.ticket_of_effect {e e' : Engine} {p : Partition} {begun : List Request}
    (h : e.InOrder p begun) (hl : e.Ledger) {a : EngineAction} (heffect : e.Effect a e') :
    ∀ r ∈ begun, ∃ t, e'.tickets[r.ticket]? = some t ∧ t.asks = (p, r.offset, r.count) := by
  intro r hr
  obtain ⟨t, ht, hasks⟩ := h.ticket r hr
  obtain ⟨t', ht', hleads⟩ := hl.leadsTo heffect ht
  exact ⟨t', ht', hleads.asks_eq.trans hasks⟩

/-- A commit that is decided after an action was decided before or was under way, so its turn has
come. -/
theorem InOrder.decided_of_effect {e e' : Engine} {p : Partition} {begun : List Request}
    (h : e.InOrder p begun) (hl : e.Ledger) {a : EngineAction} (heffect : e.Effect a e')
    (hdecided : ∀ k, e'.isDecided k = true →
      e.isDecided k = true ∨ ∃ q, ∃ r ∈ e.underWay q, r.ticket = k) :
    ∀ k ∈ e'.issued p, e'.isDecided k = true → ∃ r ∈ begun, r.ticket = k := by
  intro k hk hkd
  rcases hdecided k hkd with hold | ⟨q, r, hr, rfl⟩
  · rcases ht : e.tickets[k]? with _ | t
    · rw [isDecided, status?, ht] at hold
      cases hold
    · exact h.decided k (mem_issued_iff.mpr ⟨t, ht, hl.partition_of_issued heffect hk ht⟩) hold
  · have ht := hl.ticket q r (mem_pending_of_underWay hr)
    obtain rfl : q = p := hl.partition_of_issued heffect hk ht
    exact ⟨r, h.underWay r hr, rfl⟩

/-- As long as no turn comes for a partition, `InOrder` is preserved with the same `begun`. -/
theorem InOrder.keep {e e' : Engine} {p : Partition} {begun : List Request}
    (h : e.InOrder p begun) (hl : e.Ledger) {a : EngineAction} (heffect : e.Effect a e')
    (hunderWay : ∀ r ∈ e'.underWay p, r ∈ e.underWay p)
    (hover : ∀ r ∈ e.underWay p, r ∈ e'.underWay p ∨ r ∉ e'.pending p)
    (hdecided : ∀ k, e'.isDecided k = true →
      e.isDecided k = true ∨ ∃ q, ∃ r ∈ e.underWay q, r.ticket = k) :
    e'.InOrder p begun where
  ticket := h.ticket_of_effect hl heffect
  sorted := h.sorted
  underWay r hr := h.underWay r (hunderWay r hr)
  ahead r hr x hx := by
    obtain ⟨hpending, hnot⟩ := mem_waiting_iff.mp hr
    rcases heffect.mem_pending hpending with hold | hnew
    · refine h.ahead r (mem_waiting_iff.mpr ⟨hold, fun hunder => ?_⟩) x hx
      rcases hover r hunder with hstill | hgone
      · exact hnot hstill
      · exact hgone hpending
    · obtain ⟨t, ht, -⟩ := h.ticket x hx
      rw [hnew]
      exact (Array.getElem?_eq_some_iff.mp ht).1
  decided := h.decided_of_effect hl heffect hdecided

/-- When the turn of the first pending commit comes, `begun` becomes `begun ++ [r]`. -/
theorem InOrder.begin {e e' : Engine} {p : Partition} {begun : List Request}
    (h : e.InOrder p begun) (hl : e.Ledger) {r : Request} {rest : List Request}
    (hfirst : e.pending p = r :: rest) (hidle : e.underWay p = []) (hquiet : e.Quiet e')
    (hunderWay : e'.underWay p = [r]) : e'.InOrder p (begun ++ [r]) := by
  have hsorted := hl.sorted p
  rw [hfirst, List.pairwise_cons] at hsorted
  have hmem : r ∈ e.pending p := hfirst ▸ List.mem_cons_self
  have hwaited : ∀ x ∈ e.pending p, x ∈ e.waiting p := fun x hx =>
    mem_waiting_iff.mpr ⟨hx, by rw [hidle]; exact List.not_mem_nil⟩
  refine ⟨fun x hx => ?_, ?_, fun x hx => ?_, fun x hx y hy => ?_, fun k hk hkd => ?_⟩
  · rw [hquiet.tickets]
    rcases List.mem_append.mp hx with hx | hx
    · exact h.ticket x hx
    · rw [List.mem_singleton.mp hx]
      exact ⟨_, hl.ticket p r hmem, rfl⟩
  · refine List.pairwise_append.mpr ⟨h.sorted, List.pairwise_singleton _ _, fun x hx y hy => ?_⟩
    rw [List.mem_singleton.mp hy]
    exact h.ahead r (hwaited r hmem) x hx
  · rw [hunderWay] at hx
    exact List.mem_append_right _ hx
  · obtain ⟨hpending, hnot⟩ := mem_waiting_iff.mp hx
    rw [hquiet.pending] at hpending
    rcases List.mem_append.mp hy with hy | hy
    · exact h.ahead x (hwaited x hpending) y hy
    · -- the new one is the first pending commit, so all others are behind it
      rw [List.mem_singleton.mp hy]
      rw [hfirst, List.mem_cons] at hpending
      rcases hpending with rfl | hrest
      · rw [hunderWay] at hnot
        exact absurd (List.mem_singleton_self x) hnot
      · exact hsorted.1 x hrest
  · rw [issued_of_tickets_eq hquiet.tickets] at hk
    rw [isDecided_of_tickets_eq hquiet.tickets] at hkd
    obtain ⟨x, hx, hxk⟩ := h.decided k hk hkd
    exact ⟨x, List.mem_append_left _ hx, hxk⟩

/-- If nothing is under way that was not before, no turn comes. -/
theorem begins_eq_nil {e : Engine} {p : Partition} {a : EngineAction}
    (h : ∀ r ∈ (e.act a).underWay p, r ∈ e.underWay p) : e.begins p a = [] := by
  rw [Engine.begins, List.filter_eq_nil_iff]
  intro r hr hnot
  exact of_decide_eq_true hnot (h r hr)

/-- **The order is kept**: every action preserves `InOrder`, with `e.begins p a` appended. -/
theorem InOrder.act {e : Engine} {p : Partition} {begun : List Request} (h : e.InOrder p begun)
    (hsound : e.Sound) (hl : e.Ledger) (a : EngineAction) :
    (e.act a).InOrder p (begun ++ e.begins p a) := by
  have heffect := (hsound.effect a).2
  -- the cases in which nothing of `p` begins differ only in what is under way and decided
  have hkeep : (∀ r ∈ (e.act a).underWay p, r ∈ e.underWay p) →
      (∀ r ∈ e.underWay p, r ∈ (e.act a).underWay p ∨ r ∉ (e.act a).pending p) →
      (∀ k, (e.act a).isDecided k = true →
        e.isDecided k = true ∨ ∃ q, ∃ r ∈ e.underWay q, r.ticket = k) →
      (e.act a).InOrder p (begun ++ e.begins p a) := by
    intro hunderWay hover hdecided
    rw [begins_eq_nil hunderWay, List.append_nil]
    exact h.keep hl heffect hunderWay hover hdecided
  cases turn_act hsound hl a with
  | stays underWay decided =>
      rw [funext_iff.mp (funext underWay) p] at hkeep
      exact hkeep (fun _ hr => hr) (fun _ hr => .inl hr) fun k hk => .inl (decided k hk)
  | begins r rest first idle unchanged underWay =>
      have hat := underWay p
      by_cases hp : r.partition = p
      · subst hp
        rw [if_pos rfl] at hat
        have hbegins : e.begins r.partition a = [r] := by
          rw [Engine.begins, hat, idle]
          rfl
        rw [hbegins]
        exact h.begin hl first idle unchanged hat
      · rw [if_neg hp] at hat
        rw [hat] at hkeep
        exact hkeep (fun _ hr => hr) (fun _ hr => .inl hr) fun k hk =>
          .inl ((isDecided_of_tickets_eq unchanged.tickets k).symm.trans hk)
  | ends r busy finished underWay decided =>
      have hat := underWay p
      have hdecided : ∀ k, (e.act a).isDecided k = true →
          e.isDecided k = true ∨ ∃ q, ∃ r ∈ e.underWay q, r.ticket = k := by
        intro k hk
        rcases decided k hk with hold | rfl
        · exact .inl hold
        · exact .inr ⟨r.partition, r, by rw [busy]; exact List.mem_singleton_self r, rfl⟩
      by_cases hp : r.partition = p
      · subst hp
        rw [if_pos rfl] at hat
        rw [hat, busy] at hkeep
        refine hkeep (fun x hx => ?_) (fun x hx => ?_) hdecided
        · cases hx
        · rw [List.mem_singleton.mp hx]
          exact .inr finished
      · rw [if_neg hp] at hat
        rw [hat] at hkeep
        exact hkeep (fun _ hr => hr) (fun _ hr => .inl hr) hdecided

/-- The order is kept along a run: `InOrder.act` for each action. -/
theorem InOrder.run {e : Engine} {p : Partition} {begun : List Request} (h : e.InOrder p begun)
    (hsound : e.Sound) (hl : e.Ledger) (actions : List EngineAction) :
    (e.run actions).InOrder p (begun ++ e.begun p actions) := by
  induction actions generalizing e begun with
  | nil =>
      rw [Engine.begun, List.append_nil]
      exact h
  | cons a rest ih =>
      rw [Engine.begun, ← List.append_assoc]
      exact ih (h.act hsound hl a) (hsound.act a) (hl.act hsound a)

/-- The commits of a partition that were not given up before their turn are those whose turn has
come and then those that wait for it. -/
theorem InOrder.issued_eq {e : Engine} {p : Partition} {begun : List Request}
    (h : e.InOrder p begun) (hl : e.Ledger) :
    ((e.issued p).filter fun k =>
      k ∈ begun.map Request.ticket ∨ e.isAbandoned k = false) =
        begun.map Request.ticket ++ (e.waiting p).map Request.ticket := by
  have hleft := (e.pairwise_issued p).filter fun k =>
    decide (k ∈ begun.map Request.ticket ∨ e.isAbandoned k = false)
  have hright : (begun.map Request.ticket ++ (e.waiting p).map Request.ticket).Pairwise
      (· < ·) := by
    refine List.pairwise_append.mpr ⟨List.pairwise_map.mpr h.sorted, ?_, ?_⟩
    · exact List.pairwise_map.mpr ((hl.sorted p).filter _)
    · simp only [List.mem_map]
      rintro _ ⟨x, hx, rfl⟩ _ ⟨r, hr, rfl⟩
      exact h.ahead r hr x hx
  -- both sides ascend, so it is enough that they have the same members
  refine hleft.eq_of_mem_iff hright fun k => ?_
  rw [List.mem_filter, decide_eq_true_eq, List.mem_append]
  constructor
  · rintro ⟨hissued, hbegun | halive⟩
    · exact .inl hbegun
    · obtain ⟨t, ht, rfl⟩ := mem_issued_iff.mp hissued
      by_cases hdecided : e.isDecided k = true
      · obtain ⟨r, hr, rfl⟩ := h.decided k hissued hdecided
        exact .inl (List.mem_map_of_mem hr)
      · have hnone : t.status = none := by
          rw [isAbandoned, status?_of_getElem? ht] at halive
          rw [isDecided, status?_of_getElem? ht] at hdecided
          rcases hs : t.status with _ | (_ | _ | _)
          · rfl
          all_goals simp_all [Status.isDecided]
        obtain ⟨r, hr, rfl⟩ := hl.pending k t ht hnone
        by_cases hunder : r ∈ e.underWay t.partition
        · exact .inl (List.mem_map_of_mem (h.underWay r hunder))
        · exact .inr (List.mem_map_of_mem (mem_waiting_iff.mpr ⟨hr, hunder⟩))
  · rintro (hbegun | hwaiting)
    · obtain ⟨r, hr, rfl⟩ := List.mem_map.mp hbegun
      obtain ⟨t, ht, hasks⟩ := h.ticket r hr
      exact ⟨mem_issued_iff.mpr ⟨t, ht, congrArg Prod.fst hasks⟩, .inl hbegun⟩
    · obtain ⟨r, hr, rfl⟩ := List.mem_map.mp hwaiting
      have hpending := (mem_waiting_iff.mp hr).1
      refine ⟨hl.mem_issued hpending, .inr ?_⟩
      rw [isAbandoned, status?_of_getElem? (hl.ticket p r hpending)]
      rfl

/-- **Commits take turns.** However clients and the engine are interleaved in `actions`, with any
crashes, revocations and new lanes: `e.underWay p` has at most one entry; the tickets are those of
the commits that clients issued, in the order of issue; and `begun`, the commits of `p` that lanes
have asked the broker for, are in just that order, leaving out only commits that were given up. What
lanes have not come to is `e.waiting p`, in the same order. -/
theorem commits_take_turns (setup : Setup) (broker : Broker) (actions : List EngineAction)
    (p : Partition) :
    let e := (start setup broker).run actions
    let begun := (start setup broker).begun p actions
    (e.underWay p).length ≤ 1 ∧
      e.tickets.toList.map Ticket.asks = actions.filterMap EngineAction.commit? ∧
      (∀ r ∈ begun, e.tickets[r.ticket]?.map Ticket.asks = some (p, r.offset, r.count)) ∧
      ((e.issued p).filter fun k =>
        k ∈ begun.map Request.ticket ∨ e.isAbandoned k = false) =
          begun.map Request.ticket ++ (e.waiting p).map Request.ticket := by
  intro e begun
  have hsound := sound_start setup broker
  have hl := ledger_start setup broker
  have horder : e.InOrder p begun := (inOrder_start setup broker p).run hsound hl actions
  refine ⟨(hsound.run actions).wellFormed.length_underWay_le p, asks_run hsound actions,
    fun r hr => ?_, horder.issued_eq (hl.run hsound actions)⟩
  obtain ⟨t, ht, hasks⟩ := horder.ticket r hr
  rw [ht, Option.map_some, hasks]

/-- The client of the broker crashes on the second commit, and the third is given up before its
turn. The fourth goes to a new lane, which is revoked while it is under way, and the fifth waits
for it in a lane of its own. -/
theorem commits_take_turns_through_crash :
    let p : Partition := ⟨"orders", 0⟩
    let commit : Nat → EngineAction := fun n => .submit p (.clamp n) 1
    let work : Nat → EngineAction := fun lane => .move (.work lane)
    let actions : List EngineAction :=
      [commit 4, commit 5, commit 6, .move .take, .move .take, .move .take, work 0, work 0, work 0,
        work 0, commit 7, .move .take, work 1, .revoke p, commit 8, .move .take, .move .take,
        work 2]
    let first := start ⟨[.clamp 5], none⟩ (.start 7 .quiet)
    let e := first.run actions
    e.underWay p = [⟨3, p, .clamp 7, 1⟩] ∧
      (first.begun p actions).map Request.ticket = [0, 1, 3] ∧
      ((e.issued p).filter fun k => k ∈ [0, 1, 3] ∨ e.isAbandoned k = false) = [0, 1, 3, 4] := by
  intro p commit work actions first e
  have hbegun : (first.begun p actions).map Request.ticket = [0, 1, 3] := by decide +kernel
  have hwaiting : (e.waiting p).map Request.ticket = [4] := by decide +kernel
  obtain ⟨-, -, -, hturns⟩ :=
    commits_take_turns ⟨[.clamp 5], none⟩ (.start 7 .quiet) actions p
  rw [hbegun, hwaiting] at hturns
  exact ⟨by decide +kernel, hbegun, hturns⟩

end OffsetCommit.Engine
