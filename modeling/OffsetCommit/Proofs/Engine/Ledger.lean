import OffsetCommit.Proofs.Engine.Effect

/-!
# The ledger

Tickets, pending commits and the broker's accounts tell one story. A commit is pending exactly as
long as its ticket has no status, and pending commits are decided in the order of issue
(`Engine.Ledger`).

* `Effect.tickets_cases`: what an action can do to the tickets.
* `Ledger.issue`, `Ledger.refuse`, `Ledger.conclude`: each of these preserves `Ledger`.
* `Ledger.act`, `Ledger.run`: so every action and every run does.
-/

namespace OffsetCommit

namespace Status

/-- Whether the broker has decided the commit. -/
def isDecided : Status → Bool
  | committed .. => true
  | failed .. => true
  | abandoned .. => false

/-- The offset that the broker stored, if it did. -/
def stored? : Status → Option Offset
  | committed offset _ => some offset
  | failed .. => none
  | abandoned .. => none

/-- Why the broker rejected the commit, if it did. -/
def rejection? : Status → Option String
  | committed .. => none
  | failed _ reason => some reason
  | abandoned .. => none

/-- Whether a status speaks of a commit of an offset into which so many records are folded. -/
def IsAbout (o : Offset) (count : Nat) : Status → Prop
  | committed offset n => offset = o ∧ n = count
  | failed offset _ => offset = o
  | abandoned offset => offset = o

/-- Whether `view` leaves out the commits that were given up, `view (.abandoned o) = none`. -/
def OfDecided {α : Type} (view : Status → Option α) : Prop :=
  ∀ o, view (.abandoned o) = none

/-- Of a commit that was given up, `stored?` shows nothing. -/
theorem ofDecided_stored? : OfDecided stored? := fun _ => rfl

/-- Of a commit that was given up, `rejection?` shows nothing. -/
theorem ofDecided_rejection? : OfDecided rejection? := fun _ => rfl

/-- A status of which such a view shows something is a decision. -/
theorem OfDecided.isDecided {α : Type} {view : Status → Option α} (h : OfDecided view) {s : Status}
    {a : α} (hs : view s = some a) : s.isDecided = true := by
  cases s with
  | committed offset count => rfl
  | failed offset reason => rfl
  | abandoned offset =>
      rw [h] at hs
      cases hs

end Status

/-- The verdict on a request is about its offset and its count. -/
theorem Request.verdict_isAbout (r : Request) (answer : Except Error Unit) :
    (r.verdict answer).IsAbout r.offset r.count := by
  rcases answer with error | ⟨⟨⟩⟩
  · rfl
  · exact ⟨rfl, rfl⟩

/-! ### Tickets -/

/-- From `old` to `new` the requests in `gone` come to an end: the ticket of each has the status
`verdict r`, and all others are as they were. -/
structure Concludes (old new : Array Ticket) (gone : List Request) (verdict : Request → Status) :
    Prop where
  /-- No ticket is added. -/
  size_eq : new.size = old.size
  /-- A ticket stays, or it belongs to a request that ends and has the request's status. -/
  getElem? : ∀ k : Nat, (∀ r ∈ gone, r.ticket ≠ k) ∧ new[k]? = old[k]? ∨
    ∃ r ∈ gone, r.ticket = k ∧
      new[k]? = old[k]?.map fun t => { t with status := some (verdict r) }

/-- Finishing one request is a `Concludes` with this request alone. -/
theorem concludes_finish (e : Engine) (r : Request) (verdict : Request → Status) :
    Concludes e.tickets (e.finish r.ticket (verdict r)).tickets [r] verdict where
  size_eq := Array.size_modify
  getElem? k := by
    have hmodify : (e.finish r.ticket (verdict r)).tickets[k]? =
        if r.ticket = k then e.tickets[k]?.map fun t => { t with status := some (verdict r) }
        else e.tickets[k]? := Array.getElem?_modify
    split at hmodify
    · next hk => exact .inr ⟨r, List.mem_singleton_self r, hk, hmodify⟩
    · next hk =>
        refine .inl ⟨fun x hx => ?_, hmodify⟩
        rw [List.mem_singleton.mp hx]
        exact hk

/-- Giving requests up is a `Concludes` with the verdict `.abandoned`. -/
theorem concludes_abandon (e : Engine) (rs : List Request) :
    Concludes e.tickets (rs.foldl Engine.abandon e).tickets rs fun r => .abandoned r.offset := by
  induction rs generalizing e with
  | nil => exact ⟨rfl, fun k => .inl ⟨by simp, rfl⟩⟩
  | cons r rest ih =>
      obtain ⟨hsize, hrest⟩ := ih (e.abandon r)
      have hfirst := concludes_finish e r fun r => .abandoned r.offset
      refine ⟨hsize.trans hfirst.size_eq, fun k => ?_⟩
      rcases hrest k with ⟨hnot, hk⟩ | ⟨x, hx, hxk, hk⟩
      · rcases hfirst.getElem? k with ⟨hr, hrk⟩ | ⟨x, hx, hxk, hrk⟩
        · refine .inl ⟨?_, hk.trans hrk⟩
          exact List.forall_mem_cons.mpr ⟨hr r (List.mem_singleton_self r), hnot⟩
        · obtain rfl := List.mem_singleton.mp hx
          exact .inr ⟨x, List.mem_cons_self, hxk, hk.trans hrk⟩
      · -- a later request with the same ticket has the last word
        refine .inr ⟨x, List.mem_cons_of_mem r hx, hxk, hk.trans ?_⟩
        rcases hfirst.getElem? k with ⟨-, hrk⟩ | ⟨y, -, -, hrk⟩
        · exact congrArg _ hrk
        · refine (congrArg _ hrk).trans ?_
          rw [Option.map_map]
          rfl

namespace Engine

/-- The numbers of the tickets of `p`, in the order of issue. -/
def issued (e : Engine) (p : Partition) : List Nat :=
  (List.range e.tickets.size).filter fun k => e.tickets[k]?.any fun t => t.partition = p

/-- The offset that the broker stored for an issued commit, if it did. -/
def stored? (e : Engine) (ticket : Nat) : Option Offset :=
  (e.status? ticket).bind Status.stored?

/-- What `view` shows of the status of `ticket`; `none` while it has no status. -/
def shown {α : Type} (e : Engine) (view : Status → Option α) (ticket : Nat) : Option α :=
  (e.status? ticket).bind view

/-- The list `issued p` has the numbers of the tickets of `p`. -/
theorem mem_issued_iff {e : Engine} {p : Partition} {k : Nat} :
    k ∈ e.issued p ↔ ∃ t, e.tickets[k]? = some t ∧ t.partition = p := by
  simp only [issued, List.mem_filter, List.mem_range, Option.any_eq_true, decide_eq_true_eq]
  constructor
  · exact And.right
  · rintro ⟨t, ht, hp⟩
    exact ⟨(Array.getElem?_eq_some_iff.mp ht).1, t, ht, hp⟩

/-- The numbers in `e.issued p` ascend. -/
theorem pairwise_issued (e : Engine) (p : Partition) : (e.issued p).Pairwise (· < ·) :=
  List.Pairwise.filter _ List.pairwise_lt_range

/-- It depends on `tickets` alone. -/
theorem issued_of_tickets_eq {e e' : Engine} (h : e'.tickets = e.tickets) (p : Partition) :
    e'.issued p = e.issued p := by
  rw [issued, issued, h]

/-- When a ticket `new` is added, every ticket is the new one or was there before. -/
theorem eq_or_getElem?_of_push {tickets tickets' : Array Ticket} {new t : Ticket} {k : Nat}
    (h : tickets' = tickets.push new) (ht : tickets'[k]? = some t) :
    k = tickets.size ∧ t = new ∨ tickets[k]? = some t := by
  rw [h, Array.getElem?_push] at ht
  split at ht
  · next hk => exact .inl ⟨hk, (Option.some.inj ht).symm⟩
  · exact .inr ht

/-- When a ticket is added, those that were there stay. -/
theorem getElem?_of_push {tickets tickets' : Array Ticket} {new t : Ticket} {k : Nat}
    (h : tickets' = tickets.push new) (ht : tickets[k]? = some t) : tickets'[k]? = some t := by
  rw [h, Array.getElem?_push, if_neg (Array.getElem?_eq_some_iff.mp ht).1.ne]
  exact ht

/-- A new ticket adds its number to `issued` of its partition. -/
theorem issued_of_push {e e' : Engine} {t : Ticket} (h : e'.tickets = e.tickets.push t)
    (p : Partition) :
    e'.issued p = e.issued p ++ if t.partition = p then [e.tickets.size] else [] := by
  rw [issued, issued, h, Array.size_push, List.range_succ, List.filter_append]
  congr 1
  · apply List.filter_congr
    intro k hk
    rw [Array.getElem?_push, if_neg (List.mem_range.mp hk).ne]
  · simp only [List.filter_cons, List.filter_nil, Array.getElem?_push, if_true, Option.any_some,
      decide_eq_true_eq]

/-- Commits that come to an end stay issued. -/
theorem issued_of_concludes {e e' : Engine} {gone : List Request} {verdict : Request → Status}
    (h : Concludes e.tickets e'.tickets gone verdict) (p : Partition) :
    e'.issued p = e.issued p := by
  rw [issued, issued, h.size_eq]
  apply List.filter_congr
  intro k _
  rcases h.getElem? k with ⟨-, hk⟩ | ⟨r, -, -, hk⟩
  · rw [hk]
  · rw [hk, Option.any_map]

/-- What an action does to the tickets: they stay, a commit that is issued has a new one, or pending
commits come to an end (`Concludes`). -/
theorem Effect.tickets_cases {e e' : Engine} {a : EngineAction} (h : e.Effect a e') :
    e'.tickets = e.tickets ∨
      (∃ p o count status, a = .submit p o count ∧
        e'.tickets = e.tickets.push ⟨p, o, count, status⟩) ∨
      ∃ gone verdict, Concludes e.tickets e'.tickets gone verdict ∧
        ∀ r ∈ gone, r ∈ e.pending r.partition := by
  cases h with
  | quiet unchanged => exact .inl unchanged.tickets
  | issued p o count action tickets => exact .inr (.inl ⟨p, o, count, _, action, tickets⟩)
  | refused p o count action tickets => exact .inr (.inl ⟨p, o, count, _, action, tickets⟩)
  | decided r answer tickets pending =>
      have hconcludes := concludes_finish e r fun r => r.verdict answer
      rw [← tickets] at hconcludes
      refine .inr (.inr ⟨_, _, hconcludes, fun x hx => ?_⟩)
      rw [List.mem_singleton.mp hx, pending, if_pos rfl]
      exact List.mem_cons_self
  | abandoned rs tickets perm =>
      have hconcludes := concludes_abandon e rs
      rw [← tickets] at hconcludes
      refine .inr (.inr ⟨_, _, hconcludes, fun x hx => ?_⟩)
      exact (perm x.partition).mem_iff.mpr
        (List.mem_append_left _ (List.mem_filter.mpr ⟨hx, decide_eq_true rfl⟩))
  | called p o _ tickets => exact .inl tickets
  | answered c answer _ tickets => exact .inl tickets

/-! ### Tickets and pending commits -/

/-- The invariant between tickets and pending commits: `k` is pending just as long as its ticket has
no status, and what is pending of a partition is younger than all that was decided of it. It holds
from `ledger_start` on and is kept by `Ledger.act`. -/
structure Ledger (e : Engine) : Prop where
  /-- A pending commit has its ticket, and the ticket has no status. -/
  ticket : ∀ p, ∀ r ∈ e.pending p, e.tickets[r.ticket]? = some ⟨p, r.offset, r.count, none⟩
  /-- A ticket without a status belongs to a pending commit. -/
  pending : ∀ (k : Nat) (t : Ticket), e.tickets[k]? = some t → t.status = none →
    ∃ r ∈ e.pending t.partition, r.ticket = k
  /-- The pending commits of a partition stand in the order of issue. -/
  sorted : ∀ p, (e.pending p).Pairwise fun r x => r.ticket < x.ticket
  /-- A commit that the broker has decided was issued before every pending one. -/
  decided : ∀ (k : Nat) (t : Ticket) (s : Status), e.tickets[k]? = some t → t.status = some s →
    s.isDecided = true → ∀ r ∈ e.pending t.partition, k < r.ticket
  /-- A status tells what the commit asked for. -/
  isAbout : ∀ (k : Nat) (t : Ticket) (s : Status), e.tickets[k]? = some t → t.status = some s →
    s.IsAbout t.offset t.count

/-- At the start there are no tickets. -/
theorem ledger_start (setup : Setup) (broker : Broker) : (start setup broker).Ledger := by
  constructor <;> intros <;> simp_all [start, pending, queued, Queue.empty, Queue.toList]

/-- What `Ledger` says depends on `tickets` and `pending` alone. -/
theorem Ledger.of_eq {e e' : Engine} (h : e.Ledger) (htickets : e'.tickets = e.tickets)
    (hpending : ∀ q, e'.pending q = e.pending q) : e'.Ledger := by
  constructor
  case ticket =>
    intro p
    rw [hpending, htickets]
    exact h.ticket p
  case pending =>
    intro k t
    rw [hpending, htickets]
    exact h.pending k t
  case sorted =>
    intro p
    rw [hpending]
    exact h.sorted p
  case decided =>
    intro k t s
    rw [hpending, htickets]
    exact h.decided k t s
  case isAbout =>
    intro k t s
    rw [htickets]
    exact h.isAbout k t s

/-- A pending commit was issued for its partition. -/
theorem Ledger.mem_issued {e : Engine} (h : e.Ledger) {p : Partition} {r : Request}
    (hr : r ∈ e.pending p) : r.ticket ∈ e.issued p :=
  mem_issued_iff.mpr ⟨_, h.ticket p r hr, rfl⟩

/-- The ticket of a pending commit exists. -/
theorem Ledger.lt_size {e : Engine} (h : e.Ledger) {p : Partition} {r : Request}
    (hr : r ∈ e.pending p) : r.ticket < e.tickets.size :=
  (Array.getElem?_eq_some_iff.mp (h.ticket p r hr)).1

/-- A new commit, taken on behind all others of its partition, preserves `Ledger`. -/
theorem Ledger.issue {e e' : Engine} (h : e.Ledger) {p : Partition} {o : Offset} {count : Nat}
    (htickets : e'.tickets = e.tickets.push ⟨p, o, count, none⟩)
    (hpending : ∀ q, e'.pending q =
      e.pending q ++ if p = q then [⟨e.tickets.size, p, o, count⟩] else []) : e'.Ledger := by
  have hmem : ∀ q r, r ∈ e'.pending q →
      r ∈ e.pending q ∨ p = q ∧ r = ⟨e.tickets.size, p, o, count⟩ := by
    intro q r hr
    rw [hpending, List.mem_append] at hr
    rcases hr with hr | hr
    · exact .inl hr
    · split at hr
      · next hq => exact .inr ⟨hq, List.mem_singleton.mp hr⟩
      · cases hr
  constructor
  case ticket =>
    intro q r hr
    rcases hmem q r hr with hr | ⟨rfl, rfl⟩
    · exact getElem?_of_push htickets (h.ticket q r hr)
    · rw [htickets, Array.getElem?_push, if_pos rfl]
  case pending =>
    intro k t ht hnone
    rw [hpending]
    rcases eq_or_getElem?_of_push htickets ht with ⟨rfl, rfl⟩ | ht
    · refine ⟨⟨e.tickets.size, p, o, count⟩, ?_, rfl⟩
      rw [if_pos rfl]
      exact List.mem_append_right _ (List.mem_singleton_self _)
    · obtain ⟨r, hr, hk⟩ := h.pending k t ht hnone
      exact ⟨r, List.mem_append_left _ hr, hk⟩
  case sorted =>
    intro q
    rw [hpending, List.pairwise_append]
    refine ⟨h.sorted q, ?_, fun r hr x hx => ?_⟩
    · split <;> simp
    · split at hx
      · rw [List.mem_singleton.mp hx]
        exact h.lt_size hr
      · cases hx
  case decided =>
    intro k t s ht hs hdecided r hr
    rcases eq_or_getElem?_of_push htickets ht with ⟨-, rfl⟩ | ht
    · cases hs
    · rcases hmem _ r hr with hr | ⟨-, rfl⟩
      · exact h.decided k t s ht hs hdecided r hr
      · exact (Array.getElem?_eq_some_iff.mp ht).1
  case isAbout =>
    intro k t s ht hs
    rcases eq_or_getElem?_of_push htickets ht with ⟨-, rfl⟩ | ht
    · cases hs
    · exact h.isAbout k t s ht hs

/-- A commit that is given up as soon as it is issued preserves `Ledger`. -/
theorem Ledger.refuse {e e' : Engine} (h : e.Ledger) {p : Partition} {o : Offset} {count : Nat}
    (htickets : e'.tickets = e.tickets.push ⟨p, o, count, some (.abandoned o)⟩)
    (hpending : ∀ q, e'.pending q = e.pending q) : e'.Ledger := by
  constructor
  case ticket =>
    intro q r hr
    rw [hpending] at hr
    exact getElem?_of_push htickets (h.ticket q r hr)
  case pending =>
    intro k t ht hnone
    rw [hpending]
    rcases eq_or_getElem?_of_push htickets ht with ⟨-, rfl⟩ | ht
    · cases hnone
    · exact h.pending k t ht hnone
  case sorted =>
    intro q
    rw [hpending]
    exact h.sorted q
  case decided =>
    intro k t s ht hs hdecided r hr
    rw [hpending] at hr
    rcases eq_or_getElem?_of_push htickets ht with ⟨-, rfl⟩ | ht
    · cases hs
      cases hdecided
    · exact h.decided k t s ht hs hdecided r hr
  case isAbout =>
    intro k t s ht hs
    rcases eq_or_getElem?_of_push htickets ht with ⟨-, rfl⟩ | ht
    · cases hs
      rfl
    · exact h.isAbout k t s ht hs

/-- The ticket of a pending commit that comes to an end: no status has been entered on it before. -/
theorem Ledger.ticket_of_gone {e e' : Engine} (h : e.Ledger) {gone : List Request}
    (hperm : ∀ q, (e.pending q).Perm ((gone.filter fun r => r.partition = q) ++ e'.pending q))
    {r : Request} (hr : r ∈ gone) :
    e.tickets[r.ticket]? = some ⟨r.partition, r.offset, r.count, none⟩ := by
  refine h.ticket r.partition r ((hperm r.partition).mem_iff.mpr (List.mem_append_left _ ?_))
  exact List.mem_filter.mpr ⟨hr, decide_eq_true rfl⟩

/-- A commit that comes to an end and one that stays have different tickets, as the pending commits of
a partition are `sorted`. -/
theorem Ledger.ticket_ne_of_gone {e e' : Engine} (h : e.Ledger) {gone : List Request}
    (hperm : ∀ q, (e.pending q).Perm ((gone.filter fun r => r.partition = q) ++ e'.pending q))
    (hsublist : ∀ q, (e'.pending q).Sublist (e.pending q)) {q : Partition} {r x : Request}
    (hr : r ∈ gone) (hx : x ∈ e'.pending q) : r.ticket ≠ x.ticket := by
  intro heq
  have hticket := h.ticket q x ((hsublist q).subset hx)
  rw [← heq, h.ticket_of_gone hperm hr] at hticket
  obtain rfl : r.partition = q := congrArg Ticket.partition (Option.some.inj hticket)
  have hnodup : ((e.pending r.partition).map Request.ticket).Nodup :=
    List.pairwise_map.mpr ((h.sorted r.partition).imp Nat.ne_of_lt)
  have hsplit := ((hperm r.partition).map Request.ticket).nodup_iff.mp hnodup
  rw [List.map_append, List.nodup_append] at hsplit
  refine hsplit.2.2 r.ticket ?_ x.ticket (List.mem_map_of_mem hx) heq
  exact List.mem_map_of_mem (List.mem_filter.mpr ⟨hr, decide_eq_true rfl⟩)

/-- A ticket that is found after some commits have come to an end is as before, or it belongs to one of
these and has its verdict. -/
theorem Ledger.getElem?_of_concludes {e e' : Engine} (h : e.Ledger) {gone : List Request}
    {verdict : Request → Status} (htickets : Concludes e.tickets e'.tickets gone verdict)
    (hperm : ∀ q, (e.pending q).Perm ((gone.filter fun r => r.partition = q) ++ e'.pending q))
    {k : Nat} {t : Ticket} (ht : e'.tickets[k]? = some t) :
    (∀ r ∈ gone, r.ticket ≠ k) ∧ e.tickets[k]? = some t ∨
      ∃ r ∈ gone, r.ticket = k ∧ t = ⟨r.partition, r.offset, r.count, some (verdict r)⟩ := by
  rcases htickets.getElem? k with ⟨hnot, hk⟩ | ⟨r, hr, rfl, hk⟩
  · exact .inl ⟨hnot, hk.symm.trans ht⟩
  · rw [h.ticket_of_gone hperm hr] at hk
    exact .inr ⟨r, hr, rfl, Option.some.inj (ht.symm.trans hk)⟩

/-- Pending commits that come to an end preserve `Ledger`, if all that the broker decided among them
were issued before those that stay (`hfirst`). -/
theorem Ledger.conclude {e e' : Engine} (h : e.Ledger) {gone : List Request}
    {verdict : Request → Status} (htickets : Concludes e.tickets e'.tickets gone verdict)
    (habout : ∀ r, (verdict r).IsAbout r.offset r.count)
    (hperm : ∀ q, (e.pending q).Perm ((gone.filter fun r => r.partition = q) ++ e'.pending q))
    (hsublist : ∀ q, (e'.pending q).Sublist (e.pending q))
    (hfirst : ∀ r ∈ gone, (verdict r).isDecided = true →
      ∀ x ∈ e'.pending r.partition, r.ticket < x.ticket) : e'.Ledger := by
  constructor
  case ticket =>
    intro q x hx
    rcases htickets.getElem? x.ticket with ⟨-, hk⟩ | ⟨r, hr, heq, -⟩
    · rw [hk]
      exact h.ticket q x ((hsublist q).subset hx)
    · exact absurd heq (h.ticket_ne_of_gone hperm hsublist hr hx)
  case pending =>
    intro k t ht hnone
    rcases h.getElem?_of_concludes htickets hperm ht with ⟨hnot, ht⟩ | ⟨r, -, -, rfl⟩
    · obtain ⟨x, hx, rfl⟩ := h.pending k t ht hnone
      refine ⟨x, ?_, rfl⟩
      rcases List.mem_append.mp ((hperm t.partition).mem_iff.mp hx) with hx | hx
      · exact absurd rfl (hnot x (List.mem_of_mem_filter hx))
      · exact hx
    · cases hnone
  case sorted =>
    intro q
    exact (h.sorted q).sublist (hsublist q)
  case decided =>
    intro k t s ht hs hdecided x hx
    rcases h.getElem?_of_concludes htickets hperm ht with ⟨-, ht⟩ | ⟨r, hr, rfl, rfl⟩
    · exact h.decided k t s ht hs hdecided x ((hsublist t.partition).subset hx)
    · cases hs
      exact hfirst r hr hdecided x hx
  case isAbout =>
    intro k t s ht hs
    rcases h.getElem?_of_concludes htickets hperm ht with ⟨-, ht⟩ | ⟨r, -, -, rfl⟩
    · exact h.isAbout k t s ht hs
    · cases hs
      exact habout r

/-- The first pending commit was issued before the others, by `Ledger.sorted`. -/
theorem Ledger.lt_of_first {e e' : Engine} (h : e.Ledger) {r : Request}
    (hpending : ∀ q, e.pending q = (if r.partition = q then [r] else []) ++ e'.pending q) :
    ∀ x ∈ e'.pending r.partition, r.ticket < x.ticket := by
  have hsorted := h.sorted r.partition
  rw [hpending, if_pos rfl, List.singleton_append, List.pairwise_cons] at hsorted
  exact hsorted.1

/-- Every effect preserves `Ledger`. -/
theorem Ledger.effect {e e' : Engine} (h : e.Ledger) {a : EngineAction} (heffect : e.Effect a e') :
    e'.Ledger := by
  cases heffect with
  | quiet unchanged => exact h.of_eq unchanged.tickets unchanged.pending
  | issued p o count _ tickets pending => exact h.issue tickets pending
  | refused p o count _ tickets pending => exact h.refuse tickets pending
  | decided r answer tickets pending =>
      have hconcludes := concludes_finish e r fun r => r.verdict answer
      rw [← tickets] at hconcludes
      refine h.conclude hconcludes (fun r => r.verdict_isAbout answer) (fun q => ?_)
        (fun q => ?_) fun x hx _ => ?_
      · simp only [pending q, List.filter_cons, List.filter_nil, decide_eq_true_eq]
        exact .refl _
      · rw [pending]
        exact List.sublist_append_right _ _
      · rw [List.mem_singleton.mp hx]
        exact h.lt_of_first pending
  | abandoned rs tickets perm sublist =>
      have hconcludes := concludes_abandon e rs
      rw [← tickets] at hconcludes
      exact h.conclude hconcludes (fun _ => rfl) perm sublist fun _ _ hdecided => by
        cases hdecided
  | called p o _ tickets pending => exact h.of_eq tickets pending
  | answered c answer _ tickets pending => exact h.of_eq tickets pending

/-- Every action of a sound engine preserves `Ledger`. -/
theorem Ledger.act {e : Engine} (h : e.Ledger) (hsound : e.Sound) (a : EngineAction) :
    (e.act a).Ledger :=
  h.effect (hsound.effect a).2

/-- Every run preserves `Ledger`. -/
theorem Ledger.run {e : Engine} (h : e.Ledger) (hsound : e.Sound) (actions : List EngineAction) :
    (e.run actions).Ledger := by
  induction actions generalizing e with
  | nil => exact h
  | cons a rest ih => exact ih (h.act hsound a) (hsound.act a)

end Engine

end OffsetCommit
