import OffsetCommit.Proofs.Engine.Ledger

/-!
# The history of a partition

A ticket keeps what it asks for, and its status is final. For a partition whose commits all go
through the engine the broker therefore holds exactly what the tickets say.

* `Ledger.status?_run`: a status never changes.
* `asks_run`: the tickets are the commits that clients asked for, in the order of asking.
* `Recorded.run`: the history lists the offsets of the commits that went through, in the order of
  issue; the committed offset is the last of them; and as many failures are counted as commits
  were rejected.
-/

namespace OffsetCommit

/-! ### Tickets over time -/

/-- What a ticket can become: it keeps `partition`, `offset` and `count`, and a status is final.
`Ledger.leadsTo_run` follows tickets along a run. -/
structure Ticket.LeadsTo (old new : Ticket) : Prop where
  /-- The partition stays. -/
  partition_eq : new.partition = old.partition
  /-- The offset stays. -/
  offset_eq : new.offset = old.offset
  /-- The count stays. -/
  count_eq : new.count = old.count
  /-- A status is final. -/
  status : ∀ s, old.status = some s → new.status = some s

namespace Ticket.LeadsTo

/-- A ticket leads to itself. -/
theorem refl (t : Ticket) : t.LeadsTo t :=
  ⟨rfl, rfl, rfl, fun _ h => h⟩

/-- What leads on leads on further: `Ticket.LeadsTo` is transitive. -/
theorem trans {t t' t'' : Ticket} (h : t.LeadsTo t') (h' : t'.LeadsTo t'') : t.LeadsTo t'' where
  partition_eq := h'.partition_eq.trans h.partition_eq
  offset_eq := h'.offset_eq.trans h.offset_eq
  count_eq := h'.count_eq.trans h.count_eq
  status s hs := h'.status s (h.status s hs)

end Ticket.LeadsTo

/-- What a ticket asks for: to commit an offset of a partition, with so many records folded into
the commit. -/
def Ticket.asks (t : Ticket) : Partition × Offset × Nat :=
  (t.partition, t.offset, t.count)

/-- What a client asks for when it issues a commit. -/
def EngineAction.commit? : EngineAction → Option (Partition × Offset × Nat)
  | .submit p o count => some (p, o, count)
  | _ => none

/-- A ticket keeps what it asks for. -/
theorem Ticket.LeadsTo.asks_eq {old new : Ticket} (h : old.LeadsTo new) : new.asks = old.asks := by
  rw [Ticket.asks, Ticket.asks, h.partition_eq, h.offset_eq, h.count_eq]

namespace Engine

/-- Pending commits that come to an end (`Concludes`) let every ticket lead on: theirs had no
status. -/
theorem Ledger.leadsTo_of_concludes {e e' : Engine} (h : e.Ledger) {gone : List Request}
    {verdict : Request → Status} (htickets : Concludes e.tickets e'.tickets gone verdict)
    (hgone : ∀ r ∈ gone, r ∈ e.pending r.partition) {k : Nat} {t : Ticket}
    (ht : e.tickets[k]? = some t) : ∃ t', e'.tickets[k]? = some t' ∧ t.LeadsTo t' := by
  rcases htickets.getElem? k with ⟨-, hk⟩ | ⟨r, hr, rfl, hk⟩
  · exact ⟨t, hk.trans ht, .refl t⟩
  · rw [ht] at hk
    refine ⟨_, hk, rfl, rfl, rfl, fun s hs => ?_⟩
    have hnone := h.ticket r.partition r (hgone r hr)
    rw [ht] at hnone
    obtain rfl := Option.some.inj hnone
    cases hs

/-- A new ticket changes no other. -/
theorem leadsTo_of_push {e e' : Engine} {new : Ticket} (htickets : e'.tickets = e.tickets.push new)
    {k : Nat} {t : Ticket} (ht : e.tickets[k]? = some t) :
    ∃ t', e'.tickets[k]? = some t' ∧ t.LeadsTo t' :=
  ⟨t, getElem?_of_push htickets ht, .refl t⟩

/-- No action forgets a ticket, changes what it asks for or changes its status. -/
theorem Ledger.leadsTo {e e' : Engine} (h : e.Ledger) {a : EngineAction} (heffect : e.Effect a e')
    {k : Nat} {t : Ticket} (ht : e.tickets[k]? = some t) :
    ∃ t', e'.tickets[k]? = some t' ∧ t.LeadsTo t' := by
  rcases heffect.tickets_cases with htickets | ⟨p, o, count, status, -, htickets⟩ |
    ⟨gone, verdict, hconcludes, hgone⟩
  · exact ⟨t, htickets ▸ ht, .refl t⟩
  · exact leadsTo_of_push htickets ht
  · exact h.leadsTo_of_concludes hconcludes hgone ht

/-- No run forgets a ticket either, or changes what it asks for or its status: `Ticket.LeadsTo` from
the beginning of the run to its end. -/
theorem Ledger.leadsTo_run {e : Engine} (h : e.Ledger) (hsound : e.Sound)
    (actions : List EngineAction) {k : Nat} {t : Ticket} (ht : e.tickets[k]? = some t) :
    ∃ t', (e.run actions).tickets[k]? = some t' ∧ t.LeadsTo t' := by
  induction actions generalizing e t with
  | nil => exact ⟨t, ht, .refl t⟩
  | cons a rest ih =>
      obtain ⟨t', ht', hstep⟩ := h.leadsTo (hsound.effect a).2 ht
      obtain ⟨t'', ht'', hrest⟩ := ih (h.act hsound a) (hsound.act a) ht'
      exact ⟨t'', ht'', hstep.trans hrest⟩

/-- **A status is final**: `status? k = some s` holds after every further run. -/
theorem Ledger.status?_run {e : Engine} (h : e.Ledger) (hsound : e.Sound)
    (actions : List EngineAction) {k : Nat} {s : Status} (hs : e.status? k = some s) :
    (e.run actions).status? k = some s := by
  obtain ⟨t, ht, hstatus⟩ := Option.bind_eq_some_iff.mp hs
  obtain ⟨t', ht', hleads⟩ := h.leadsTo_run hsound actions ht
  exact Option.bind_eq_some_iff.mpr ⟨t', ht', hleads.status s hstatus⟩

/-! ### Issued commits -/

/-- A commit that is issued has the next ticket, whether it is taken on or not. -/
theorem tickets_submit (e : Engine) (p : Partition) (o : Offset) (count : Nat) :
    ∃ status, (e.submit p o count).tickets = e.tickets.push ⟨p, o, count, status⟩ := by
  unfold submit
  dsimp only
  split
  · exact ⟨_, rfl⟩
  · exact ⟨_, rfl⟩

/-- A commit that is issued is the last in `issued p` and adds nothing to other partitions. -/
theorem issued_submit (e : Engine) (p : Partition) (o : Offset) (count : Nat) (q : Partition) :
    (e.submit p o count).issued q = e.issued q ++ if p = q then [e.tickets.size] else [] := by
  obtain ⟨status, htickets⟩ := e.tickets_submit p o count
  exact issued_of_push htickets q

/-- Nothing but `.submit q` adds to `issued q`. -/
theorem Effect.issued_eq {e e' : Engine} {a : EngineAction} (h : e.Effect a e') {q : Partition}
    (ha : ∀ o count, a ≠ .submit q o count) : e'.issued q = e.issued q := by
  rcases h.tickets_cases with htickets | ⟨p, o, count, status, rfl, htickets⟩ |
    ⟨gone, verdict, hconcludes, -⟩
  · exact issued_of_tickets_eq htickets q
  · rw [issued_of_push htickets, if_neg, List.append_nil]
    rintro rfl
    exact ha o count rfl
  · exact issued_of_concludes hconcludes q

/-- An action that issues no commit adds no ticket and changes no ticket's `asks`. -/
theorem Effect.asks_eq {e e' : Engine} {a : EngineAction} (h : e.Effect a e')
    (ha : a.commit? = none) :
    e'.tickets.toList.map Ticket.asks = e.tickets.toList.map Ticket.asks := by
  rcases h.tickets_cases with htickets | ⟨p, o, count, status, rfl, -⟩ |
    ⟨gone, verdict, hconcludes, -⟩
  · rw [htickets]
  · cases ha
  · apply List.ext_getElem?
    intro k
    rw [List.getElem?_map, List.getElem?_map, Array.getElem?_toList, Array.getElem?_toList]
    rcases hconcludes.getElem? k with ⟨-, hk⟩ | ⟨r, -, -, hk⟩
    · rw [hk]
    · rw [hk, Option.map_map]
      rfl

/-- Every commit that clients ask for has a ticket that says so: `a.commit?` is appended to what the
tickets ask for. -/
theorem asks_act {e : Engine} (h : e.Sound) (a : EngineAction) :
    (e.act a).tickets.toList.map Ticket.asks =
      e.tickets.toList.map Ticket.asks ++ a.commit?.toList := by
  cases ha : a.commit? with
  | none => rw [(h.effect a).2.asks_eq ha, Option.toList_none, List.append_nil]
  | some request =>
      cases a with
      | submit p o count =>
          obtain ⟨status, htickets⟩ := e.tickets_submit p o count
          obtain rfl := Option.some.inj ha
          rw [act, htickets, Array.toList_push, List.map_append]
          rfl
      | _ => cases ha

/-! ### What the broker holds -/

/-- An element that is kept from now on comes last when everything behind it is left out. -/
theorem filterMap_eq_append_singleton {α : Type} {l : List Nat} (hl : l.Pairwise (· < ·)) {k : Nat}
    (hk : k ∈ l) {f g : Nat → Option α} {b : α} (hf : f k = none) (hg : g k = some b)
    (hsame : ∀ j ∈ l, j ≠ k → g j = f j) (hbehind : ∀ j ∈ l, k < j → f j = none) :
    l.filterMap g = l.filterMap f ++ [b] := by
  obtain ⟨front, rest, rfl⟩ := List.append_of_mem hk
  obtain ⟨-, hrest, hfront⟩ := List.pairwise_append.mp hl
  rw [List.pairwise_cons] at hrest
  have hfrontSame : front.filterMap g = front.filterMap f := by
    apply List.filterMap_congr
    intro j hj
    exact hsame j (List.mem_append_left _ hj) (hfront j hj k List.mem_cons_self).ne
  have hnone : ∀ j ∈ rest, f j = none := fun j hj =>
    hbehind j (List.mem_append_right _ (List.mem_cons_of_mem k hj)) (hrest.1 j hj)
  have hnone' : ∀ j ∈ rest, g j = none := fun j hj =>
    (hsame j (List.mem_append_right _ (List.mem_cons_of_mem k hj)) (hrest.1 j hj).ne').trans
      (hnone j hj)
  rw [List.filterMap_append, List.filterMap_append, List.filterMap_cons_some hg,
    List.filterMap_cons_none hf, hfrontSame, List.filterMap_eq_nil_iff.mpr hnone,
    List.filterMap_eq_nil_iff.mpr hnone', List.append_nil]

/-- The invariant of the account of a partition `p` whose commits all go through the engine: the
history is `(e.issued p).filterMap e.stored?`, and the failures are as many as the rejections.
`Recorded.run` keeps it along runs that never call the broker for `p` directly. -/
structure Recorded (e : Engine) (p : Partition) : Prop where
  /-- The broker is not asked directly. -/
  uncalled : ∀ c ∈ e.pendingCalls, c.partition ≠ p
  /-- The history lists the offsets of the commits that went through, in the order of issue. -/
  history : e.broker.history p = (e.issued p).filterMap e.stored?
  /-- The committed offset is the last of the history. -/
  committed : e.broker.committed p = (e.broker.history p).getLast?
  /-- As many failures are counted as there are commits that were rejected. -/
  failures : e.broker.failures p = ((e.issued p).filterMap (e.shown Status.rejection?)).length

/-- At the start the account is empty and nothing was issued. -/
theorem recorded_start (setup : Setup) (seed : UInt64) (faults : Faults) (p : Partition) :
    (start setup (.start seed faults)).Recorded p := by
  have haccount : (Broker.start seed faults).account p = .empty := by
    simp [Broker.account, Broker.start]
  constructor
  case uncalled =>
    intro c hc
    cases hc
  case history =>
    show ((Broker.start seed faults).account p).history.toList = _
    rw [haccount]
    rfl
  case committed =>
    show ((Broker.start seed faults).account p).committed =
      ((Broker.start seed faults).account p).history.toList.getLast?
    rw [haccount]
    rfl
  case failures =>
    show ((Broker.start seed faults).account p).failures = _
    rw [haccount]
    rfl

/-- If the account stays and the tickets show the same, `Recorded` carries over. -/
theorem Recorded.of_account_eq {e e' : Engine} {p : Partition} (h : e.Recorded p)
    (hcalls : ∀ c ∈ e'.pendingCalls, c.partition ≠ p)
    (haccount : e'.broker.account p = e.broker.account p)
    (hshown : ∀ {α : Type} (view : Status → Option α), Status.OfDecided view →
      (e'.issued p).filterMap (e'.shown view) = (e.issued p).filterMap (e.shown view)) :
    e'.Recorded p := by
  have hstored := hshown _ Status.ofDecided_stored?
  refine ⟨hcalls, ?_, ?_, ?_⟩
  · rw [Broker.history, haccount]
    exact h.history.trans hstored.symm
  · have hcommitted := h.committed
    rw [Broker.committed, Broker.history] at hcommitted ⊢
    rw [haccount]
    exact hcommitted
  · rw [hshown _ Status.ofDecided_rejection?, ← h.failures, Broker.failures, Broker.failures,
      haccount]

/-- The status of a commit is that of its ticket. -/
theorem status?_of_getElem? {e : Engine} {k : Nat} {t : Ticket} (h : e.tickets[k]? = some t) :
    e.status? k = t.status := by
  rw [status?, h]
  rfl

section Views

variable {α : Type} {view : Status → Option α}

/-- What is shown of a commit depends on its ticket. -/
theorem shown_of_getElem?_eq {e e' : Engine} {k : Nat} (h : e'.tickets[k]? = e.tickets[k]?) :
    e'.shown view k = e.shown view k := by
  rw [shown, shown, status?, status?, h]

/-- Of a pending commit nothing is shown. -/
theorem Ledger.shown_of_pending {e : Engine} (h : e.Ledger) {p : Partition} {r : Request}
    (hr : r ∈ e.pending p) : e.shown view r.ticket = none := by
  rw [shown, status?_of_getElem? (h.ticket p r hr)]
  rfl

/-- A new ticket on which a view shows nothing adds nothing to what the tickets say. -/
theorem filterMap_shown_of_push {e e' : Engine} {t : Ticket}
    (htickets : e'.tickets = e.tickets.push t) (ht : t.status.bind view = none) (p : Partition) :
    (e'.issued p).filterMap (e'.shown view) = (e.issued p).filterMap (e.shown view) := by
  have hold : (e.issued p).filterMap (e'.shown view) = (e.issued p).filterMap (e.shown view) := by
    apply List.filterMap_congr
    intro k hk
    obtain ⟨t', ht', -⟩ := mem_issued_iff.mp hk
    apply shown_of_getElem?_eq
    rw [htickets, Array.getElem?_push, if_neg (Array.getElem?_eq_some_iff.mp ht').1.ne]
  have hnew : e'.shown view e.tickets.size = none := by
    have hlookup : e'.tickets[e.tickets.size]? = some t := by
      rw [htickets, Array.getElem?_push, if_pos rfl]
    rw [shown, status?_of_getElem? hlookup, ht]
  rw [issued_of_push htickets, List.filterMap_append, hold]
  split
  · rw [List.filterMap_cons_none hnew, List.filterMap_nil, List.append_nil]
  · exact List.append_nil _

/-- Commits that come to an end with a verdict that is not shown add nothing to what the tickets
say. -/
theorem Ledger.filterMap_shown_of_concludes {e e' : Engine} (h : e.Ledger) {gone : List Request}
    {verdict : Request → Status} (htickets : Concludes e.tickets e'.tickets gone verdict)
    (hgone : ∀ r ∈ gone, r ∈ e.pending r.partition) {p : Partition}
    (hverdict : ∀ r ∈ gone, r.partition = p → view (verdict r) = none) :
    (e'.issued p).filterMap (e'.shown view) = (e.issued p).filterMap (e.shown view) := by
  rw [issued_of_concludes htickets]
  apply List.filterMap_congr
  intro k hk
  rcases htickets.getElem? k with ⟨-, hsame⟩ | ⟨r, hr, rfl, hnew⟩
  · exact shown_of_getElem?_eq hsame
  · have hticket := h.ticket r.partition r (hgone r hr)
    obtain ⟨t, ht, hp⟩ := mem_issued_iff.mp hk
    obtain rfl := Option.some.inj (hticket.symm.trans ht)
    rw [hticket] at hnew
    rw [h.shown_of_pending (hgone r hr), shown, status?_of_getElem? hnew]
    exact hverdict r hr hp

/-- A decision that `view` shows as `a` is appended at the end, since all that was issued later is
still pending or was given up. -/
theorem Ledger.filterMap_shown_of_decided {e e' : Engine} (h : e.Ledger)
    (hview : Status.OfDecided view) {r : Request} {s : Status} {a : α} (hs : view s = some a)
    (htickets : e'.tickets = (e.finish r.ticket s).tickets) (hr : r ∈ e.pending r.partition) :
    (e'.issued r.partition).filterMap (e'.shown view) =
      (e.issued r.partition).filterMap (e.shown view) ++ [a] := by
  have hconcludes := concludes_finish e r fun _ => s
  rw [← htickets] at hconcludes
  have hticket := h.ticket r.partition r hr
  rw [issued_of_concludes hconcludes]
  apply filterMap_eq_append_singleton (pairwise_issued e r.partition) (h.mem_issued hr)
    (h.shown_of_pending hr)
  · rcases hconcludes.getElem? r.ticket with ⟨hne, -⟩ | ⟨x, -, -, hnew⟩
    · exact absurd rfl (hne r (List.mem_singleton_self r))
    · rw [hticket] at hnew
      rw [shown, status?_of_getElem? hnew]
      exact hs
  · intro k _ hne
    rcases hconcludes.getElem? k with ⟨-, hsame⟩ | ⟨x, hx, rfl, -⟩
    · exact shown_of_getElem?_eq hsame
    · rw [List.mem_singleton.mp hx] at hne
      exact absurd rfl hne
  · intro k hk hlt
    obtain ⟨t, ht, hp⟩ := mem_issued_iff.mp hk
    rw [shown, status?_of_getElem? ht, Option.bind_eq_none_iff]
    intro s' hs'
    rcases hshows : view s' with _ | b
    · rfl
    · have hbefore := h.decided k t s' ht hs' (hview.isDecided hshows)
      rw [hp] at hbefore
      exact absurd (hbefore r hr) (Nat.not_lt_of_lt hlt)

end Views

/-- The decision is entered into the account as it is on the ticket, so `Recorded` is preserved. -/
theorem Recorded.decide {e e' : Engine} {p : Partition} (h : e.Recorded p) (hl : e.Ledger)
    {r : Request} {answer : Except Error Unit}
    (htickets : e'.tickets = (e.finish r.ticket (r.verdict answer)).tickets)
    (hr : r ∈ e.pending r.partition)
    (haccount : ∀ q, e'.broker.account q =
      if r.partition = q then (e.broker.account q).settle r.offset answer else e.broker.account q)
    (hcalls : e'.pendingCalls = e.pendingCalls) : e'.Recorded p := by
  have hconcludes := concludes_finish e r fun r => r.verdict answer
  rw [← htickets] at hconcludes
  have hgone : ∀ x ∈ [r], x ∈ e.pending x.partition := fun x hx => List.mem_singleton.mp hx ▸ hr
  have huncalled : ∀ c ∈ e'.pendingCalls, c.partition ≠ p := hcalls ▸ h.uncalled
  by_cases hp : r.partition = p
  · subst hp
    have hsettled := haccount r.partition
    rw [if_pos rfl] at hsettled
    rcases answer with error | ⟨⟨⟩⟩
    · have hstored : (e'.issued r.partition).filterMap (e'.shown Status.stored?) =
          (e.issued r.partition).filterMap (e.shown Status.stored?) :=
        hl.filterMap_shown_of_concludes hconcludes hgone fun _ _ _ => rfl
      have hrejected :=
        hl.filterMap_shown_of_decided Status.ofDecided_rejection? rfl htickets hr
      refine ⟨huncalled, ?_, ?_, ?_⟩
      · rw [Broker.history, hsettled]
        exact h.history.trans hstored.symm
      · rw [Broker.committed, Broker.history, hsettled]
        exact h.committed
      · rw [hrejected, List.length_append, ← h.failures, Broker.failures, hsettled]
        rfl
    · have hstored := hl.filterMap_shown_of_decided Status.ofDecided_stored? rfl htickets hr
      have hrejected : (e'.issued r.partition).filterMap (e'.shown Status.rejection?) =
          (e.issued r.partition).filterMap (e.shown Status.rejection?) :=
        hl.filterMap_shown_of_concludes hconcludes hgone fun _ _ _ => rfl
      have hhistory : e'.broker.history r.partition =
          e.broker.history r.partition ++ [r.offset] := by
        rw [Broker.history, hsettled]
        exact Array.toList_push
      refine ⟨huncalled, ?_, ?_, ?_⟩
      · rw [hhistory, h.history]
        exact hstored.symm
      · rw [hhistory, List.getLast?_concat, Broker.committed, hsettled]
        rfl
      · rw [hrejected, ← h.failures, Broker.failures, hsettled]
        rfl
  · refine h.of_account_eq huncalled ?_ fun view _ => ?_
    · rw [haccount, if_neg hp]
    · apply hl.filterMap_shown_of_concludes hconcludes hgone
      intro x hx hxp
      exact absurd (List.mem_singleton.mp hx ▸ hxp) hp

/-- Every effect preserves `Recorded p`, unless the broker is asked for `p` directly. -/
theorem Recorded.effect {e e' : Engine} {p : Partition} (h : e.Recorded p) (hl : e.Ledger)
    {a : EngineAction} (ha : ∀ o, a ≠ .call p o) (heffect : e.Effect a e') : e'.Recorded p := by
  have hsame : e'.tickets = e.tickets → ∀ {α : Type} (view : Status → Option α),
      (e'.issued p).filterMap (e'.shown view) = (e.issued p).filterMap (e.shown view) := by
    intro htickets α view
    rw [issued_of_tickets_eq htickets]
    exact List.filterMap_congr fun k _ => shown_of_getElem?_eq (by rw [htickets])
  cases heffect with
  | quiet unchanged =>
      exact h.of_account_eq (unchanged.calls ▸ h.uncalled) (unchanged.account p)
        fun view _ => hsame unchanged.tickets view
  | issued q o count _ tickets _ account calls =>
      exact h.of_account_eq (calls ▸ h.uncalled) (account p)
        fun _ _ => filterMap_shown_of_push tickets rfl p
  | refused q o count _ tickets _ account calls =>
      exact h.of_account_eq (calls ▸ h.uncalled) (account p)
        fun _ hview => filterMap_shown_of_push tickets (hview o) p
  | decided r answer tickets pending account calls =>
      refine h.decide hl tickets ?_ account calls
      rw [pending, if_pos rfl]
      exact List.mem_cons_self
  | abandoned rs tickets perm _ account calls =>
      have hconcludes := concludes_abandon e rs
      rw [← tickets] at hconcludes
      have hgone : ∀ r ∈ rs, r ∈ e.pending r.partition := fun r hr =>
        (perm r.partition).mem_iff.mpr
          (List.mem_append_left _ (List.mem_filter.mpr ⟨hr, decide_eq_true rfl⟩))
      exact h.of_account_eq (calls ▸ h.uncalled) (account p) fun _ hview =>
        hl.filterMap_shown_of_concludes hconcludes hgone fun r _ _ => hview r.offset
  | called q o action tickets _ account calls =>
      refine h.of_account_eq (fun c hc => ?_) (account p) fun view _ => hsame tickets view
      rcases calls c hc with hc | hc
      · exact h.uncalled c hc
      · rintro rfl
        exact ha o (hc ▸ action)
  | answered c answer call tickets _ account calls =>
      refine h.of_account_eq (fun x hx => h.uncalled x (calls hx)) ?_
        fun view _ => hsame tickets view
      rw [account, if_neg (h.uncalled c call)]

/-! ### Runs -/

/-- A run without `.submit p` leaves `issued p`. -/
theorem issued_run {e : Engine} (h : e.Sound) {p : Partition} {actions : List EngineAction}
    (hactions : ∀ a ∈ actions, ∀ o count, a ≠ .submit p o count) :
    (e.run actions).issued p = e.issued p := by
  induction actions generalizing e with
  | nil => rfl
  | cons a rest ih =>
      obtain ⟨ha, hrest⟩ := List.forall_mem_cons.mp hactions
      exact (ih (h.act a) hrest).trans ((h.effect a).2.issued_eq ha)

/-- The tickets of a run are the commits that its clients asked for, in the order of asking:
`asks_act` for each action. -/
theorem asks_run {e : Engine} (h : e.Sound) (actions : List EngineAction) :
    (e.run actions).tickets.toList.map Ticket.asks =
      e.tickets.toList.map Ticket.asks ++ actions.filterMap EngineAction.commit? := by
  induction actions generalizing e with
  | nil => exact (List.append_nil _).symm
  | cons a rest ih =>
      rw [run_cons, ih (h.act a), asks_act h a, List.append_assoc, List.filterMap_cons]
      cases a.commit? <;> rfl

/-- A run without `.call p` preserves `Recorded p`. -/
theorem Recorded.run {e : Engine} {p : Partition} (h : e.Recorded p) (hl : e.Ledger)
    (hsound : e.Sound) {actions : List EngineAction}
    (hactions : ∀ a ∈ actions, ∀ o, a ≠ .call p o) : (e.run actions).Recorded p := by
  induction actions generalizing e with
  | nil => exact h
  | cons a rest ih =>
      obtain ⟨ha, hrest⟩ := List.forall_mem_cons.mp hactions
      exact ih (h.effect hl ha (hsound.effect a).2) (hl.act hsound a) (hsound.act a) hrest

end Engine

end OffsetCommit
