import OffsetCommit.Proofs.Engine.History

/-!
# What the observer is told

The observer is called for every commit that goes through, once and with the commit's count, and for
no other. It notes the count, unless it crashes; the commit has gone through either way. So at any
time the counts that it has noted, and the crashes that were reported, can be read off the tickets
(`Engine.Noted`).

* `telling_act`: each action calls the observer at most once, and just when it enters a status
  that says that the broker stored the offset (`Telling`).
* `Noted.run`: so `Noted` holds along every run.
-/

namespace OffsetCommit

/-! ### Reports and tickets of commits that went through -/

/-- The commit that went through, if an event is the report of one. -/
def CommitEvent.stored? : CommitEvent → Option (Partition × Offset × Nat)
  | .committed p o count => some (p, o, count)
  | _ => none

/-- The commit on which the observer crashed, if an event is the report of that. -/
def CommitEvent.missed? : CommitEvent → Option (Partition × Offset)
  | .observerCrashed p o => some (p, o)
  | _ => none

/-- Whether an event has nothing to do with commits that go through. -/
def CommitEvent.IsAside (event : CommitEvent) : Prop :=
  event.stored? = none ∧ event.missed? = none

/-- What a ticket asks for, if the broker has stored it. -/
def Ticket.granted? (t : Ticket) : Option (Partition × Offset × Nat) :=
  if t.status.any Status.isCommitted then some t.asks else none

/-- The count that the observer notes of a commit that goes through, unless it crashes on it. -/
def Setup.notes? (setup : Setup) (commit : Partition × Offset × Nat) : Option Nat :=
  setup.observer.bind fun crashesOn => if commit.2.2 ∈ crashesOn then none else some commit.2.2

/-- A commit that goes through, if the observer crashes on it. -/
def Setup.misses? (setup : Setup) (commit : Partition × Offset × Nat) :
    Option (Partition × Offset) :=
  setup.observer.bind fun crashesOn =>
    if commit.2.2 ∈ crashesOn then some (commit.1, commit.2.1) else none

/-- An observer either notes a commit or crashes on it. -/
theorem Setup.length_notes_add_misses {setup : Setup} (hobserver : setup.observer.isSome = true)
    (told : List (Partition × Offset × Nat)) :
    (told.filterMap setup.notes?).length + (told.filterMap setup.misses?).length = told.length := by
  obtain ⟨crashesOn, hcrashes⟩ := Option.isSome_iff_exists.mp hobserver
  induction told with
  | nil => rfl
  | cons commit rest ih =>
      simp only [List.filterMap_cons, notes?, misses?, hcrashes, Option.bind_some] at ih ⊢
      by_cases hmem : commit.2.2 ∈ crashesOn
      · simp only [hmem, if_true, List.length_cons]
        omega
      · simp only [hmem, if_false, List.length_cons]
        omega

namespace Lanes

/-- When a request is handed to a lane, the only events are `.laneReopened` and `.laneRefused`. -/
theorem eq_of_mem_route {ls : Lanes} {r : Request} {event : CommitEvent}
    (h : event ∈ (ls.route r).events) :
    event = .laneReopened r.partition r.offset ∨ event = .laneRefused r.partition := by
  unfold route at h
  dsimp only at h
  split at h
  · cases h
  · split at h
    · exact .inl (List.mem_singleton.mp h)
    · exact List.mem_pair.mp h

/-- When a lane is closed, the only event is `.laneClosed p`. -/
theorem eq_of_mem_revoke {ls : Lanes} {p : Partition} {event : CommitEvent}
    (h : event ∈ (ls.revoke p).2) : event = .laneClosed p := by
  unfold revoke at h
  dsimp only at h
  split at h
  · cases h
  · exact List.mem_singleton.mp h

end Lanes

namespace Engine

/-- The commits in the `.committed` reports of the journal, the oldest first. -/
def told (e : Engine) : List (Partition × Offset × Nat) :=
  e.journal.toList.filterMap CommitEvent.stored?

/-- The commits in the `.observerCrashed` reports of the journal, the oldest first. -/
def missed (e : Engine) : List (Partition × Offset) :=
  e.journal.toList.filterMap CommitEvent.missed?

/-- What the tickets with a status `.committed` ask for, in the order of issue. -/
def granted (e : Engine) : List (Partition × Offset × Nat) :=
  e.tickets.toList.filterMap Ticket.granted?

/-! ### What an action tells the observer -/

/-- What an action does to `observed`, `told`, `missed` and `granted`: nothing, or one pending
commit goes through and is noted in all of them. `telling_act` shows that every action does one of
these. -/
inductive Telling (e e' : Engine) : Prop where
  /-- No commit goes through, and the observer is not called. -/
  | silent (setup : e'.setup = e.setup) (observed : e'.observed = e.observed)
      (told : e'.told = e.told) (missed : e'.missed = e.missed) (granted : e'.granted = e.granted)
  /-- One pending commit goes through, and the observer is called for it. -/
  | called (r : Request) (setup : e'.setup = e.setup)
      (ticket : e.tickets[r.ticket]? = some ⟨r.partition, r.offset, r.count, none⟩)
      (tickets : e'.tickets = (e.finish r.ticket (.committed r.offset r.count)).tickets)
      (observed : e'.observed.toList =
        e.observed.toList ++ (e.setup.notes? (r.partition, r.offset, r.count)).toList)
      (told : e'.told = e.told ++ [(r.partition, r.offset, r.count)])
      (missed : e'.missed =
        e.missed ++ (e.setup.misses? (r.partition, r.offset, r.count)).toList)

/-- Where nothing happens, nobody is called. -/
theorem Telling.refl (e : Engine) : e.Telling e :=
  .silent rfl rfl rfl rfl rfl

/-- An action that calls no observer, reports only events that are `IsAside`, and leaves `granted`,
is the case `Telling.silent`. -/
theorem telling_of_aside {e e' : Engine} {events : List CommitEvent} (hsetup : e'.setup = e.setup)
    (hobserved : e'.observed = e.observed) (hjournal : e'.journal = e.journal ++ events)
    (haside : ∀ event ∈ events, event.IsAside) (hgranted : e'.granted = e.granted) :
    e.Telling e' := by
  have hstored : events.filterMap CommitEvent.stored? = [] :=
    List.filterMap_eq_nil_iff.mpr fun event hevent => (haside event hevent).1
  have hmissed : events.filterMap CommitEvent.missed? = [] :=
    List.filterMap_eq_nil_iff.mpr fun event hevent => (haside event hevent).2
  refine .silent hsetup hobserved ?_ ?_ hgranted
  · rw [told, hjournal, Array.toList_appendList, List.filterMap_append, hstored, List.append_nil]
    rfl
  · rw [missed, hjournal, Array.toList_appendList, List.filterMap_append, hmissed, List.append_nil]
    rfl

/-- A new ticket that was not stored leaves `granted`. -/
theorem granted_of_push {e e' : Engine} {t : Ticket} (h : e'.tickets = e.tickets.push t)
    (ht : t.granted? = none) : e'.granted = e.granted := by
  rw [granted, h, Array.toList_push, List.filterMap_append, List.filterMap_cons_none ht]
  exact List.append_nil _

/-- Pending commits that end without going through leave `granted`. -/
theorem Ledger.granted_of_concludes {e e' : Engine} (h : e.Ledger) {gone : List Request}
    {verdict : Request → Status} (htickets : Concludes e.tickets e'.tickets gone verdict)
    (hgone : ∀ r ∈ gone, r ∈ e.pending r.partition)
    (hverdict : ∀ r ∈ gone, (verdict r).isCommitted = false) : e'.granted = e.granted := by
  have hmap : e'.tickets.toList.map Ticket.granted? = e.tickets.toList.map Ticket.granted? := by
    apply List.ext_getElem?
    intro k
    rw [List.getElem?_map, List.getElem?_map, Array.getElem?_toList, Array.getElem?_toList]
    rcases htickets.getElem? k with ⟨-, hk⟩ | ⟨r, hr, rfl, hk⟩
    · rw [hk]
    · rw [hk, h.ticket r.partition r (hgone r hr)]
      simp [Ticket.granted?, hverdict r hr]
  have hjoin : ∀ tickets : List Ticket,
      tickets.filterMap Ticket.granted? = (tickets.map Ticket.granted?).filterMap id := fun tickets => by
    rw [List.filterMap_map]
    rfl
  rw [granted, granted, hjoin, hjoin, hmap]

/-- A pending commit that goes through is added to `granted`, somewhere in it. -/
theorem granted_perm_of_finish {e e' : Engine} {r : Request}
    (hticket : e.tickets[r.ticket]? = some ⟨r.partition, r.offset, r.count, none⟩)
    (htickets : e'.tickets = (e.finish r.ticket (.committed r.offset r.count)).tickets) :
    e'.granted.Perm ((r.partition, r.offset, r.count) :: e.granted) := by
  obtain ⟨hlt, hget⟩ := Array.getElem?_eq_some_iff.mp hticket
  have hold : e.tickets.toList = e.tickets.toList.take r.ticket ++
      ⟨r.partition, r.offset, r.count, none⟩ :: e.tickets.toList.drop (r.ticket + 1) := by
    rw [← hget, ← Array.getElem_toList, ← List.drop_eq_getElem_cons, List.take_append_drop]
  have hnew : e'.tickets.toList = e.tickets.toList.take r.ticket ++
      ⟨r.partition, r.offset, r.count, some (.committed r.offset r.count)⟩ ::
        e.tickets.toList.drop (r.ticket + 1) := by
    rw [htickets, finish, Array.toList_modify, List.modify_eq_take_cons_drop hlt,
      Array.getElem_toList, hget]
  rw [granted, granted, hnew]
  conv => rhs; rw [hold]
  simp only [List.filterMap_append, List.filterMap_cons]
  exact List.perm_middle

/-- Lanes report nothing of commits that go through when they are handed a request. -/
theorem isAside_of_mem_route {ls : Lanes} {r : Request} {event : CommitEvent}
    (h : event ∈ (ls.route r).events) : event.IsAside := by
  rcases Lanes.eq_of_mem_route h with rfl | rfl
  · exact ⟨rfl, rfl⟩
  · exact ⟨rfl, rfl⟩

/-- Lanes report nothing of commits that go through when they are closed. -/
theorem isAside_of_mem_revoke {ls : Lanes} {p : Partition} {event : CommitEvent}
    (h : event ∈ (ls.revoke p).2) : event.IsAside := by
  rw [Lanes.eq_of_mem_revoke h]
  exact ⟨rfl, rfl⟩

/-- Issuing a commit calls nobody. -/
theorem telling_submit (e : Engine) (p : Partition) (o : Offset) (count : Nat) :
    e.Telling (e.submit p o count) := by
  unfold submit
  dsimp only
  split
  · exact .silent rfl rfl rfl rfl (granted_of_push rfl rfl)
  · exact .silent rfl rfl rfl rfl (granted_of_push rfl rfl)

/-- Taking a command calls nobody. -/
theorem telling_takeCommand {e : Engine} (h : e.Sound) (hstage : e.stage = .serving) :
    e.Telling e.takeCommand := by
  unfold takeCommand
  rcases e.mailbox.pop? with _ | ⟨command, rest⟩
  · exact .refl e
  cases command with
  | commit r =>
      have haccepted := (Lanes.route_spec h.wellFormed (h.tended hstage) r).1
      simp only [obey, route, haccepted, if_true]
      exact telling_of_aside rfl rfl rfl (fun _ => isAside_of_mem_route) rfl
  | revoke p => exact telling_of_aside rfl rfl rfl (fun _ => isAside_of_mem_revoke) rfl
  | shutdown caller => exact .silent rfl rfl rfl rfl rfl

/-- Collecting an ended lane calls nobody. -/
theorem telling_collect (e : Engine) : e.Telling e.collect := by
  unfold collect
  split
  · refine telling_of_aside rfl rfl rfl (fun event hevent => ?_) rfl
    split at hevent
    · rw [List.mem_singleton.mp hevent]
      exact ⟨rfl, rfl⟩
    · cases hevent
  · exact .refl e

/-- Pending commits that are given up have not gone through. -/
theorem Ledger.granted_of_abandoned {e e' : Engine} (h : e.Ledger) {rs : List Request}
    (htickets : e'.tickets = abandoned e.tickets rs) (hrs : ∀ r ∈ rs, r ∈ e.pending r.partition) :
    e'.granted = e.granted := by
  have hconcludes := concludes_abandon e rs
  rw [foldl_abandon_eq] at hconcludes
  exact h.granted_of_concludes (htickets ▸ hconcludes) hrs fun _ _ => rfl

/-- Ending the loop calls nobody. -/
theorem telling_stop {e : Engine} (hl : e.Ledger) : e.Telling e.stop := by
  obtain ⟨callers, heq⟩ := e.stop_eq
  have haside : ∀ event ∈ [CommitEvent.stopped], event.IsAside :=
    List.forall_mem_singleton.mpr ⟨rfl, rfl⟩
  rw [heq]
  refine telling_of_aside rfl rfl rfl haside (hl.granted_of_abandoned rfl fun r hr => ?_)
  exact List.mem_append_right _ (List.mem_filter.mpr ⟨hr, decide_eq_true rfl⟩)

/-- A crash of the client calls nobody. -/
theorem telling_crash {e : Engine} (h : e.Sound) (hl : e.Ledger) {i : Nat} {lane : Lane}
    (hi : e.lanes.all[i]? = some lane) {r : Request} {due : Nat}
    (hphase : lane.phase = .committing r due) : e.Telling (e.crash i lane r) := by
  unfold crash
  rw [foldl_abandon_eq]
  refine .silent rfl rfl rfl rfl (hl.granted_of_abandoned rfl fun x hx => ?_)
  exact (h.mem_pending_of_committing hi hphase hx).2

/-- The observer is called for one commit: it notes the count (`notes?`) or is reported to have
crashed (`misses?`). -/
theorem observe_spec (e : Engine) (p : Partition) (r : Request) :
    (e.observe p r).setup = e.setup ∧ (e.observe p r).tickets = e.tickets ∧
      (e.observe p r).observed.toList =
        e.observed.toList ++ (e.setup.notes? (p, r.offset, r.count)).toList ∧
      (e.observe p r).told = e.told ∧
      (e.observe p r).missed = e.missed ++ (e.setup.misses? (p, r.offset, r.count)).toList := by
  unfold observe Setup.notes? Setup.misses?
  rcases e.setup.observer with _ | crashesOn
  · simp
  · by_cases hmem : r.count ∈ crashesOn
    · simp [hmem, told, missed, report, CommitEvent.stored?, CommitEvent.missed?]
    · simp [hmem, told, missed]

/-- The broker's decision calls the observer if it is to store the offset, the case
`Telling.called`. -/
theorem telling_conclude {e : Engine} (h : e.Sound) (hl : e.Ledger) {i : Nat} {lane : Lane}
    (hi : e.lanes.all[i]? = some lane) {r : Request} {due : Nat}
    (hphase : lane.phase = .committing r due) : e.Telling (e.conclude i lane r) := by
  obtain ⟨hp, hpending⟩ := h.mem_pending_of_committing hi hphase List.mem_cons_self
  unfold conclude
  rcases e.broker.commit lane.partition r.offset with ⟨error | ⟨⟨⟩⟩, broker⟩
  · have hconcludes := concludes_finish e r fun r => .failed r.offset error.message
    have hgone : ∀ x ∈ [r], x ∈ e.pending x.partition := fun x hx =>
      List.mem_singleton.mp hx ▸ hpending
    have haside : ∀ event ∈ [CommitEvent.failed lane.partition r.offset error], event.IsAside :=
      List.forall_mem_singleton.mpr ⟨rfl, rfl⟩
    exact telling_of_aside rfl rfl rfl haside
      (hl.granted_of_concludes hconcludes hgone fun _ _ => rfl)
  · rw [← hp]
    have hobserve := observe_spec ({ e with broker := broker }.setPhase i .ready) r.partition r
    obtain ⟨hsetup, htickets, hobserved, htold, hmissed⟩ := hobserve
    dsimp only
    refine .called r hsetup (hl.ticket _ r hpending) ?_ hobserved ?_ ?_
    · simp only [finish, report, htickets]
      rfl
    · simp only [told, finish, report, Array.toList_appendList, List.filterMap_append] at htold ⊢
      rw [htold]
      rfl
    · simp only [missed, finish, report, Array.toList_appendList, List.filterMap_append] at hmissed ⊢
      rw [hmissed]
      exact List.append_nil _

/-- The work of a lane calls the observer only by concluding a commit. -/
theorem telling_workLane {e : Engine} (h : e.Sound) (hl : e.Ledger) (i : Nat) :
    e.Telling (e.workLane i) := by
  unfold workLane
  rcases hi : e.lanes.all[i]? with _ | lane
  · exact .refl e
  · rcases hphase : lane.phase with k | _ | ⟨r, due⟩ | crashed
    · simp only [hphase]
      refine telling_of_aside rfl rfl rfl (fun event hevent => ?_) rfl
      split at hevent
      · rw [List.mem_singleton.mp hevent]
        exact ⟨rfl, rfl⟩
      · cases hevent
    · simp only [hphase, proceed]
      split
      · exact .silent rfl rfl rfl rfl rfl
      · exact .silent rfl rfl rfl rfl rfl
    · simp only [hphase]
      split
      · exact telling_crash h hl hi hphase
      · exact telling_conclude h hl hi hphase
    · simp only [hphase]
      exact .refl e

/-- **An action calls the observer for the commit that it sees through, and for no other**:
`e.Telling (e.act a)`. -/
theorem telling_act {e : Engine} (h : e.Sound) (hl : e.Ledger) (a : EngineAction) :
    e.Telling (e.act a) := by
  cases a with
  | submit p o count => exact telling_submit e p o count
  | revoke p =>
      simp only [act, revoke]
      split
      · exact .refl e
      · exact .silent rfl rfl rfl rfl rfl
  | shutdown =>
      simp only [act, shutdown]
      split
      · exact .silent rfl rfl rfl rfl rfl
      · exact .silent rfl rfl rfl rfl rfl
  | dropClients => exact .silent rfl rfl rfl rfl rfl
  | changeFaults new => exact .silent rfl rfl rfl rfl rfl
  | call p o => exact .silent rfl rfl rfl rfl rfl
  | passTo time => exact .silent rfl rfl rfl rfl rfl
  | move move =>
      rw [act, perform]
      split
      · next hpossible =>
          cases move with
          | answer place =>
              show e.Telling (e.answerCall place)
              unfold answerCall
              rcases e.pendingCalls[place]? with _ | c
              · exact .refl e
              · exact .silent rfl rfl rfl rfl rfl
          | take => exact telling_takeCommand h (serving_of_isPossible (.inl rfl) hpossible)
          | hangUp => exact .silent rfl rfl rfl rfl rfl
          | work lane => exact telling_workLane h hl lane
          | collect => exact telling_collect e
          | stop => exact telling_stop hl
      · exact .refl e

/-! ### What the observer has been told -/

/-- The invariant of the observer: `told` is a permutation of `granted`, and `observed` and `missed`
are read off it by `notes?` and `misses?`. `Noted.run` keeps it. -/
structure Noted (e : Engine) : Prop where
  /-- The commits that were reported to have gone through are those whose tickets say so. -/
  told_perm : e.told.Perm e.granted
  /-- The observer has noted the counts of those on which it did not crash, in the order in which
  they went through. -/
  observed_eq : e.observed.toList = e.told.filterMap e.setup.notes?
  /-- It was reported to have crashed on the others. -/
  missed_eq : e.missed = e.told.filterMap e.setup.misses?

/-- At the start nothing was told. -/
theorem noted_start (setup : Setup) (broker : Broker) : (start setup broker).Noted :=
  ⟨.refl _, rfl, rfl⟩

/-- An action that is a `Telling` preserves `Noted`. -/
theorem Noted.telling {e e' : Engine} (h : e.Noted) (htelling : e.Telling e') : e'.Noted := by
  cases htelling with
  | silent setup observed told missed granted =>
      constructor
      · rw [told, granted]
        exact h.told_perm
      · rw [observed, told, setup]
        exact h.observed_eq
      · rw [missed, told, setup]
        exact h.missed_eq
  | called r setup ticket tickets observed told missed =>
      have hgranted := granted_perm_of_finish ticket tickets
      constructor
      · rw [told]
        exact (List.perm_append_singleton _ _).trans ((h.told_perm.cons _).trans hgranted.symm)
      · rw [observed, told, setup, List.filterMap_append, h.observed_eq, List.filterMap_cons]
        cases e.setup.notes? (r.partition, r.offset, r.count) <;> rfl
      · rw [missed, told, setup, List.filterMap_append, h.missed_eq, List.filterMap_cons]
        cases e.setup.misses? (r.partition, r.offset, r.count) <;> rfl

/-- **The observer is told of every commit that goes through, once, and of no other**: `Noted` holds
along every run. -/
theorem Noted.run {e : Engine} (h : e.Noted) (hsound : e.Sound) (hl : e.Ledger)
    (actions : List EngineAction) : (e.run actions).Noted := by
  induction actions generalizing e with
  | nil => exact h
  | cons a rest ih =>
      exact ih (h.telling (telling_act hsound hl a)) (hsound.act a) (hl.act hsound a)

/-- What is fixed about an engine, its `setup`, stays. -/
theorem setup_run {e : Engine} (hsound : e.Sound) (hl : e.Ledger) (actions : List EngineAction) :
    (e.run actions).setup = e.setup := by
  induction actions generalizing e with
  | nil => rfl
  | cons a rest ih =>
      refine (ih (hsound.act a) (hl.act hsound a)).trans ?_
      cases telling_act hsound hl a with
      | silent setup => exact setup
      | called r setup => exact setup

end Engine

end OffsetCommit
