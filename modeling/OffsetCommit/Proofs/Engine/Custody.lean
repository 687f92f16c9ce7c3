import OffsetCommit.Proofs.Engine.Delivery

/-!
# What becomes of a commit

The commits that the loop has taken and those that wait in its mailbox are the issued ones, in the
order of issue. Each one that was taken is in the care of one lane (`Dealt`). A lane brings the
requests that it was handed to their decisions, one after the other, until a crash takes the first
undecided one and all that stand behind it (`Fate`).

* `Dealt.act`, `Dealt.run`: taking a commit hands it to one lane, once.
* `Fate.act`, `Fate.run`: a lane loses requests by a crash alone.
* `isAbandoned_iff_isLost`: so a commit that was taken is given up just when it `IsLost`.
-/

namespace OffsetCommit.Engine

/-! ### Lanes in the course of time -/

/-- A lane that is closed or has ended stays so: `e.lanes.LeadsTo (e.act a).lanes`. -/
theorem lanes_leadsTo_act {e : Engine} (h : e.Sound) (a : EngineAction) :
    e.lanes.LeadsTo (e.act a).lanes := by
  by_cases hmove : ∃ move, a = .move move
  · obtain ⟨move, rfl⟩ := hmove
    rw [Engine.act, perform]
    split
    · next hpossible =>
        cases move with
        | answer place =>
            show e.lanes.LeadsTo (e.answerCall place).lanes
            unfold answerCall
            split <;> exact .refl _
        | take =>
            have hserving := serving_of_isPossible (.inl rfl) hpossible
            show e.lanes.LeadsTo e.takeCommand.lanes
            unfold takeCommand
            rcases e.mailbox.pop? with _ | ⟨command, rest⟩
            · exact .refl _
            cases command with
            | commit r =>
                obtain ⟨k, hhanded⟩ := Lanes.exists_handed h.wellFormed (h.tended hserving) r
                simp only [obey, route]
                split <;> exact hhanded.leadsTo
            | revoke p => exact Lanes.leadsTo_revoke e.lanes p
            | shutdown caller => exact Lanes.leadsTo_drain e.lanes
        | hangUp => exact Lanes.leadsTo_drain e.lanes
        | work lane => exact (h.wellFormed.progress (progress_workLane hpossible)).2
        | collect =>
            show e.lanes.LeadsTo e.collect.lanes
            unfold collect
            split <;> exact .refl _
        | stop =>
            obtain ⟨callers, heq⟩ := e.stop_eq
            show e.lanes.LeadsTo e.stop.lanes
            rw [heq]
            exact .refl _
    · exact .refl _
  · rw [(lanes_stage_act fun move heq => hmove ⟨move, heq⟩).1]
    exact .refl _

/-! ### Statuses are final -/

/-- A decision is final: `isDecided k` is preserved by every action. -/
theorem Ledger.isDecided_act {e : Engine} (hl : e.Ledger) (h : e.Sound) (a : EngineAction) {k : Nat}
    (hk : e.isDecided k = true) : (e.act a).isDecided k = true := by
  obtain ⟨s, hs, hdecided⟩ := (Option.any_eq_true _ _).mp hk
  rw [isDecided, show (e.act a).status? k = some s from hl.status?_run h [a] hs]
  exact hdecided

/-- Giving up is final: `isAbandoned k` is preserved by every action. -/
theorem Ledger.isAbandoned_act {e : Engine} (hl : e.Ledger) (h : e.Sound) (a : EngineAction)
    {k : Nat} (hk : e.isAbandoned k = true) : (e.act a).isAbandoned k = true := by
  obtain ⟨s, hs, habandoned⟩ := (Option.any_eq_true _ _).mp hk
  rw [isAbandoned, show (e.act a).status? k = some s from hl.status?_run h [a] hs]
  exact habandoned

/-- A commit is not both decided and given up. -/
theorem not_isAbandoned_of_isDecided {e : Engine} {k : Nat} (hk : e.isDecided k = true) :
    e.isAbandoned k = false := by
  obtain ⟨s, hs, hdecided⟩ := (Option.any_eq_true _ _).mp hk
  rw [isAbandoned, hs]
  cases s with
  | committed offset count => rfl
  | failed offset reason => rfl
  | abandoned offset => cases hdecided

/-- A commit with a status is decided or given up. -/
theorem isDecided_or_isAbandoned {e : Engine} {k : Nat} (hk : (e.status? k).isSome = true) :
    e.isDecided k = true ∨ e.isAbandoned k = true := by
  obtain ⟨s, hs⟩ := Option.isSome_iff_exists.mp hk
  rw [isDecided, isAbandoned, hs]
  cases s with
  | committed offset count => exact .inl rfl
  | failed offset reason => exact .inl rfl
  | abandoned offset => exact .inr rfl

/-- A pending request has no status. -/
theorem Ledger.status?_of_pending {e : Engine} (hl : e.Ledger) {p : Partition} {r : Request}
    (hr : r ∈ e.pending p) : e.status? r.ticket = none :=
  status?_of_getElem? (hl.ticket p r hr)

/-! ### The requests of one lane -/

/-- What has become of the requests that lane `i` was handed, `accepted`, of which the client has
crashed on `crashed`: they are decided up to those that the lane still holds, or up to one crash
behind which all are given up. `Fate.run` keeps this. -/
inductive Fate (e : Engine) (i : Nat) (accepted crashed : List Request) : Prop where
  /-- The lane has had no crash: its requests are decided up to those that it still holds. -/
  | unharmed (done : List Request) (accepted : accepted = done ++ e.lanes.pendingIn i)
      (decided : ∀ r ∈ done, e.isDecided r.ticket = true) (crashed : crashed = [])
  /-- The client has crashed on one of the requests: those before it are decided, and all others
  are given up. -/
  | lost (done : List Request) (r : Request) (behind : List Request)
      (accepted : accepted = done ++ r :: behind)
      (decided : ∀ x ∈ done, e.isDecided x.ticket = true)
      (abandoned : ∀ x ∈ r :: behind, e.isAbandoned x.ticket = true) (crashed : crashed = [r])
      (ended : e.lanes.hasEnded i = true)

/-- At the start no lane was handed anything. -/
theorem fate_start (setup : Setup) (broker : Broker) (i : Nat) :
    (start setup broker).Fate i [] [] :=
  .unharmed [] (by simp [start, Lanes.pendingIn, Lanes.empty]) (by simp) rfl

/-- If a request is handed to lane `k`, then `enters i a` is this request for `i = k` and empty for
every other lane: it stands behind all that the lane held. -/
theorem enters_of_handed {e : Engine} {a : EngineAction} {r : Request} {k : Nat}
    (h : e.lanes.Handed (e.act a).lanes r k) (hnew : r ∉ e.lanes.pendingIn k) (i : Nat) :
    e.enters i a = if k = i then [r] else [] := by
  have hnone : (e.lanes.pendingIn i).filter (fun x => x ∉ e.lanes.pendingIn i) = [] :=
    List.filter_eq_nil_iff.mpr fun x hx hnot => of_decide_eq_true hnot hx
  rw [enters, h.pendingIn]
  split
  · next hki =>
      subst hki
      rw [List.filter_append, hnone, List.nil_append]
      exact List.filter_cons_of_pos (decide_eq_true hnew)
  · exact hnone

/-- If nothing pends in lane `i` that did not before, nothing enters it. -/
theorem enters_eq_nil {e : Engine} {a : EngineAction} {i : Nat}
    (h : ∀ r ∈ (e.act a).lanes.pendingIn i, r ∈ e.lanes.pendingIn i) : e.enters i a = [] :=
  List.filter_eq_nil_iff.mpr fun r hr hnot => of_decide_eq_true hnot (h r hr)

/-- A request that waits in the mailbox is in no lane. -/
theorem Ledger.not_mem_pendingIn {e : Engine} (hl : e.Ledger) (h : e.Sound) {r : Request}
    (hr : r ∈ e.mailed) (i : Nat) :
    r ∉ e.lanes.pendingIn i := by
  intro hlane
  have hsorted := List.pairwise_append.mp (hl.sorted r.partition)
  refine Nat.lt_irrefl r.ticket (hsorted.2.2 r ?_ r ?_)
  · exact h.wellFormed.mem_pending_of_pendingIn hlane
  · exact List.mem_filter.mpr ⟨hr, decide_eq_true rfl⟩

/-- A lane that has ended is handed nothing, no crash happens to it, and it stays ended. -/
theorem nothing_enters_of_hasEnded {e : Engine} {i : Nat} (hsound : e.Sound) (hl : e.Ledger)
    (hended : e.lanes.hasEnded i = true) (a : EngineAction) :
    e.enters i a = [] ∧ e.crashes i a = [] ∧ (e.act a).lanes.hasEnded i = true := by
  have hended' := (lanes_leadsTo_act hsound a).hasEnded hended
  have hheld := hsound.wellFormed.pendingIn_of_hasEnded hended
  have hholds := (hsound.act a).wellFormed.pendingIn_of_hasEnded hended'
  refine ⟨enters_eq_nil fun x hx => ?_, ?_, hended'⟩
  · rw [hholds] at hx
    cases hx
  · cases passage_act hsound hl a with
    | stays _ crashes => exact crashes i
    | handed _ _ _ _ crashes => exact crashes i
    | decided _ _ _ crashes => exact crashes i
    | crashed x j _ _ crashes held =>
        rw [crashes i, if_neg]
        rintro rfl
        rw [hheld] at held
        cases held

/-- A lane without a crash that has decided `done` of `accepted = done ++ pendingIn i` has a `Fate`
after the action: it decides the first of what it held, is handed one more, crashes, or stays as it
is. -/
theorem fate_act_of_unharmed {e : Engine} {i : Nat} {accepted done : List Request}
    (haccepted : accepted = done ++ e.lanes.pendingIn i) (hsound : e.Sound) (hl : e.Ledger)
    (a : EngineAction) (hdone : ∀ r ∈ done, (e.act a).isDecided r.ticket = true) :
    (e.act a).Fate i (accepted ++ e.enters i a) (e.crashes i a) := by
  cases passage_act hsound hl a with
  | stays _ crashes pendingIn =>
      rw [crashes i, enters_eq_nil fun x hx => pendingIn i ▸ hx, List.append_nil]
      exact .unharmed done (haccepted.trans (by rw [pendingIn])) hdone rfl
  | handed r k _ _ crashes mailbox handed =>
      have hnew : r ∉ e.lanes.pendingIn k :=
        hl.not_mem_pendingIn hsound (mem_mailed_iff.mpr (mailbox ▸ List.mem_cons_self)) k
      refine .unharmed done ?_ hdone (crashes i)
      rw [enters_of_handed handed hnew, handed.pendingIn, haccepted, List.append_assoc]
      split
      · rfl
      · rw [List.append_nil]
  | decided r j _ crashes pendingIn hr =>
      have hsub : ∀ x ∈ (e.act a).lanes.pendingIn i, x ∈ e.lanes.pendingIn i := fun x hx => by
        rw [pendingIn]
        exact List.mem_append_right _ hx
      rw [crashes i, enters_eq_nil hsub, List.append_nil]
      refine .unharmed (done ++ if j = i then [r] else []) ?_ (fun x hx => ?_) rfl
      · rw [haccepted, pendingIn, List.append_assoc]
      · rcases List.mem_append.mp hx with hx | hx
        · exact hdone x hx
        · split at hx
          · rw [List.mem_singleton.mp hx]
            exact hr
          · cases hx
  | crashed r j behind _ crashes held pendingIn abandoned ended =>
      by_cases hji : j = i
      · subst hji
        have hnone : ∀ x ∈ (e.act a).lanes.pendingIn j, x ∈ e.lanes.pendingIn j := by
          rw [pendingIn, if_pos rfl]
          exact fun x hx => by cases hx
        rw [crashes j, if_pos rfl, enters_eq_nil hnone, List.append_nil]
        exact .lost done r behind (haccepted.trans (by rw [held])) hdone abandoned rfl ended
      · have hsame := pendingIn i
        rw [if_neg hji] at hsame
        rw [crashes i, if_neg hji, enters_eq_nil fun x hx => hsame ▸ hx, List.append_nil]
        exact .unharmed done (haccepted.trans (by rw [hsame])) hdone rfl

/-- **A lane loses requests by a crash alone**: every action preserves `Fate`, with what enters the
lane and what crashes in it appended. -/
theorem Fate.act {e : Engine} {i : Nat} {accepted crashed : List Request}
    (h : e.Fate i accepted crashed) (hsound : e.Sound) (hl : e.Ledger) (a : EngineAction) :
    (e.act a).Fate i (accepted ++ e.enters i a) (crashed ++ e.crashes i a) := by
  cases h with
  | unharmed done haccepted hdecided hcrashed =>
      rw [hcrashed, List.nil_append]
      exact fate_act_of_unharmed haccepted hsound hl a fun r hr =>
        hl.isDecided_act hsound a (hdecided r hr)
  | lost done r behind haccepted hdecided habandoned hcrashed hended =>
      obtain ⟨henters, hcrashes, hended'⟩ := nothing_enters_of_hasEnded hsound hl hended a
      rw [henters, hcrashes, List.append_nil, List.append_nil]
      exact .lost done r behind haccepted (fun x hx => hl.isDecided_act hsound a (hdecided x hx))
        (fun x hx => hl.isAbandoned_act hsound a (habandoned x hx)) hcrashed hended'

/-- The fate of a lane along a run: `Fate.act` for each action. -/
theorem Fate.run {e : Engine} {i : Nat} {accepted crashed : List Request}
    (h : e.Fate i accepted crashed) (hsound : e.Sound) (hl : e.Ledger)
    (actions : List EngineAction) :
    (e.run actions).Fate i (accepted ++ e.accepted i actions) (crashed ++ e.crashed i actions) := by
  induction actions generalizing e accepted crashed with
  | nil =>
      rw [Engine.accepted, Engine.crashed, along, along, List.append_nil, List.append_nil]
      exact h
  | cons a rest ih =>
      rw [Engine.accepted, Engine.crashed, along, along, ← List.append_assoc, ← List.append_assoc]
      exact ih (h.act hsound hl a) (hsound.act a) (hl.act hsound a)

/-! ### From the mailbox to the lanes -/

/-- The invariant between the commits that the loop has taken and the lanes: each request in `taken`
is in `accepted i` for one lane `i`, and in the order of `taken`. `Dealt.run` keeps it. -/
structure Dealt (e : Engine) (taken : List Request) (accepted : Nat → List Request) : Prop where
  /-- The commits are taken in the order of issue. -/
  sorted : ((taken ++ e.mailed).map Request.ticket).Pairwise (· < ·)
  /-- A commit that was taken has its ticket. -/
  ticket : ∀ r ∈ taken, ∃ t, e.tickets[r.ticket]? = some t ∧
    t.asks = (r.partition, r.offset, r.count)
  /-- As long as the loop serves, every issued commit is taken or waits in the mailbox. -/
  all : e.stage = .serving →
    (taken ++ e.mailed).map Request.ticket = List.range e.tickets.size
  /-- Every commit that was taken is in the care of a lane. -/
  cared : ∀ r ∈ taken, ∃ i, r ∈ accepted i
  /-- A lane is handed requests in the order in which the loop takes them. -/
  sublist : ∀ i, (accepted i).Sublist taken
  /-- No request is handed to two lanes. -/
  unique : ∀ r i j, r ∈ accepted i → r ∈ accepted j → i = j
  /-- A lane is handed requests of its own partition. -/
  own : ∀ i, ∀ r ∈ accepted i, ∃ lane : Lane, e.lanes.all[i]? = some lane ∧
    lane.partition = r.partition

/-- At the start nothing was taken. -/
theorem dealt_start (setup : Setup) (broker : Broker) :
    (start setup broker).Dealt [] fun _ => [] := by
  constructor <;> simp [mailed, start, Queue.empty, Queue.toList]

/-- Lanes are handed a request only when the loop takes one: `takes a = []` gives `enters i a = []`. -/
theorem enters_eq_nil_of_takes {e : Engine} (h : e.Sound) (hl : e.Ledger) {a : EngineAction}
    (htakes : e.takes a = []) (i : Nat) : e.enters i a = [] := by
  apply enters_eq_nil
  cases passage_act h hl a with
  | stays _ _ pendingIn =>
      rw [pendingIn]
      exact fun _ hr => hr
  | handed r k _ takes =>
      rw [htakes] at takes
      cases takes
  | decided r j _ _ pendingIn =>
      rw [pendingIn i]
      exact fun x hx => List.mem_append_right _ hx
  | crashed r j behind _ _ _ pendingIn =>
      rw [pendingIn i]
      split
      · exact fun x hx => by cases hx
      · exact fun _ hx => hx

/-- The request that the loop takes is handed to one lane `k`, and it was in none before. -/
theorem exists_handed_of_takes {e : Engine} (h : e.Sound) (hl : e.Ledger) {a : EngineAction}
    {r : Request} (htakes : e.takes a = [r]) :
    ∃ k, e.lanes.Handed (e.act a).lanes r k ∧ ∀ i, e.enters i a = if k = i then [r] else [] := by
  cases passage_act h hl a with
  | stays takes =>
      rw [htakes] at takes
      cases takes
  | handed x k _ takes _ mailbox handed =>
      obtain rfl : r = x := List.singleton_inj.mp (htakes.symm.trans takes)
      have hnew : r ∉ e.lanes.pendingIn k :=
        hl.not_mem_pendingIn h (mem_mailed_iff.mpr (mailbox ▸ List.mem_cons_self)) k
      exact ⟨k, handed, enters_of_handed handed hnew⟩
  | decided _ _ takes =>
      rw [htakes] at takes
      cases takes
  | crashed _ _ _ takes =>
      rw [htakes] at takes
      cases takes

/-- Requests that were taken keep their tickets, up to the status. -/
theorem Dealt.ticket_act {e : Engine} {taken : List Request} {accepted : Nat → List Request}
    (h : e.Dealt taken accepted) (hsound : e.Sound) (hl : e.Ledger) (a : EngineAction) :
    ∀ r ∈ taken, ∃ t, (e.act a).tickets[r.ticket]? = some t ∧
      t.asks = (r.partition, r.offset, r.count) := by
  intro r hr
  obtain ⟨t, ht, hasks⟩ := h.ticket r hr
  obtain ⟨t', ht', hleads⟩ := hl.leadsTo (hsound.effect a).2 ht
  exact ⟨t', ht', hleads.asks_eq.trans hasks⟩

/-- Lanes keep their partitions, so they have still been handed requests of their own. -/
theorem Dealt.own_act {e : Engine} {taken : List Request} {accepted : Nat → List Request}
    (h : e.Dealt taken accepted) (hsound : e.Sound) (a : EngineAction) :
    ∀ i, ∀ r ∈ accepted i, ∃ lane : Lane, (e.act a).lanes.all[i]? = some lane ∧
      lane.partition = r.partition := by
  intro i r hr
  obtain ⟨lane, hi, hp⟩ := h.own i r hr
  obtain ⟨lane', hi', hleads⟩ := lanes_leadsTo_act hsound a i lane hi
  exact ⟨lane', hi', hleads.partition_eq.trans hp⟩

/-- As long as no commit is taken (`takes a = []`), all stay in the care of their lanes. -/
theorem Dealt.keep {e : Engine} {taken : List Request} {accepted : Nat → List Request}
    (h : e.Dealt taken accepted) (hsound : e.Sound) (hl : e.Ledger) {a : EngineAction}
    (htakes : e.takes a = [])
    (hsorted : ((taken ++ (e.act a).mailed).map Request.ticket).Pairwise (· < ·))
    (hall : (e.act a).stage = .serving →
      (taken ++ (e.act a).mailed).map Request.ticket = List.range (e.act a).tickets.size) :
    (e.act a).Dealt (taken ++ e.takes a) fun i => accepted i ++ e.enters i a := by
  have henters := enters_eq_nil_of_takes hsound hl htakes
  simp only [htakes, henters, List.append_nil]
  exact ⟨hsorted, h.ticket_act hsound hl a, hall, h.cared, h.sublist, h.unique,
    h.own_act hsound a⟩

/-- **A commit that is taken comes into the care of one lane**: it is appended to `taken`, and to
`accepted k` for a single `k`. -/
theorem Dealt.take {e : Engine} {taken : List Request} {accepted : Nat → List Request}
    (h : e.Dealt taken accepted) (hsound : e.Sound) (hl : e.Ledger) {a : EngineAction}
    {r : Request} (htakes : e.takes a = [r]) (hmailed : e.mailed = r :: (e.act a).mailed)
    (hsize : (e.act a).tickets.size = e.tickets.size) :
    (e.act a).Dealt (taken ++ e.takes a) fun i => accepted i ++ e.enters i a := by
  obtain ⟨k, hhanded, henters⟩ := exists_handed_of_takes hsound hl htakes
  have hmem : ∀ {x i}, x ∈ accepted i ++ e.enters i a ↔ x ∈ accepted i ∨ k = i ∧ x = r := by
    intro x i
    rw [henters, List.mem_append]
    split
    · next hki => simp [hki]
    · next hki => simp [hki]
  have hsplit : taken ++ e.mailed = (taken ++ [r]) ++ (e.act a).mailed := by
    rw [hmailed, List.append_assoc]
    rfl
  -- what was taken before has an earlier ticket
  have hnew : ∀ i, r ∉ accepted i := by
    intro i hr
    have hsorted := h.sorted
    rw [hmailed, List.map_append, List.pairwise_append] at hsorted
    exact Nat.lt_irrefl r.ticket
      (hsorted.2.2 _ (List.mem_map_of_mem ((h.sublist i).subset hr)) _ List.mem_cons_self)
  have hwaits : r ∈ e.mailed := hmailed ▸ List.mem_cons_self
  obtain ⟨lane, hk, hp, -⟩ := hhanded.live
  rw [htakes]
  refine ⟨hsplit ▸ h.sorted, fun x hx => ?_, fun hserving => ?_, fun x hx => ?_, fun i => ?_,
    fun x i j hi hj => ?_, fun i x hx => ?_⟩
  · rcases List.mem_append.mp hx with hx | hx
    · exact h.ticket_act hsound hl a x hx
    · obtain rfl := List.mem_singleton.mp hx
      obtain ⟨t', ht', hleads⟩ := hl.leadsTo (hsound.effect a).2
        (hl.ticket _ x (mem_pending_of_mailed hwaits))
      exact ⟨t', ht', hleads.asks_eq⟩
  · rw [← hsplit, h.all (serving_of_act hserving), hsize]
  · rcases List.mem_append.mp hx with hx | hx
    · obtain ⟨i, hi⟩ := h.cared x hx
      exact ⟨i, hmem.mpr (.inl hi)⟩
    · exact ⟨k, hmem.mpr (.inr ⟨rfl, List.mem_singleton.mp hx⟩)⟩
  · rw [henters]
    split
    · exact (h.sublist i).append (.refl _)
    · exact (h.sublist i).append (List.nil_sublist _)
  · rcases hmem.mp hi with hi | ⟨hki, rfl⟩
    · rcases hmem.mp hj with hj | ⟨-, rfl⟩
      · exact h.unique x i j hi hj
      · exact absurd hi (hnew i)
    · rcases hmem.mp hj with hj | ⟨hkj, -⟩
      · exact absurd hj (hnew j)
      · exact hki.symm.trans hkj
  · rcases hmem.mp hx with hx | ⟨rfl, rfl⟩
    · exact h.own_act hsound a i x hx
    · exact ⟨lane, hk, hp⟩

/-- Every action preserves `Dealt`: it takes one commit (`Dealt.take`) or none (`Dealt.keep`). -/
theorem Dealt.act {e : Engine} {taken : List Request} {accepted : Nat → List Request}
    (h : e.Dealt taken accepted) (hsound : e.Sound) (hl : e.Ledger) (a : EngineAction) :
    (e.act a).Dealt (taken ++ e.takes a) fun i => accepted i ++ e.enters i a := by
  -- nothing is taken, and the commits that are taken or posted change only with the tickets
  have hkeep : e.takes a = [] → (e.act a).mailed = e.mailed →
      (e.stage = .serving → (e.act a).tickets.size = e.tickets.size) →
      (e.act a).Dealt (taken ++ e.takes a) fun i => accepted i ++ e.enters i a := by
    intro htakes hmailed hsize
    refine h.keep hsound hl htakes (hmailed ▸ h.sorted) fun hserving => ?_
    rw [hmailed, hsize (serving_of_act hserving)]
    exact h.all (serving_of_act hserving)
  cases delivery_act hsound a with
  | stays takes mailbox size => exact hkeep takes (by rw [mailed, mailed, mailbox]) size
  | posted command serving takes mailbox ticket size =>
      have hmailed : (e.act a).mailed = e.mailed ++ command.request?.toList := by
        rw [mailed, mailed, mailbox, List.filterMap_append]
        rcases hrequest : command.request? with _ | r <;> simp [hrequest]
      rcases hrequest : command.request? with _ | r
      · rw [hrequest] at hmailed size
        exact hkeep takes (hmailed.trans (List.append_nil _)) fun _ => size
      · rw [hrequest] at hmailed size
        have hrange : (taken ++ (e.act a).mailed).map Request.ticket =
            List.range (e.act a).tickets.size := by
          rw [hmailed, ← List.append_assoc, List.map_append, h.all serving, size]
          simp [List.range_succ, ticket r hrequest]
        exact h.keep hsound hl takes (hrange ▸ List.pairwise_lt_range) fun _ => hrange
  | taken command takes mailbox size =>
      have hmailed : e.mailed = command.request?.toList ++ (e.act a).mailed := by
        rw [mailed, mailed, mailbox]
        rcases hrequest : command.request? with _ | r <;> simp [hrequest]
      rcases hrequest : command.request? with _ | r
      · rw [hrequest] at hmailed takes
        exact hkeep takes hmailed.symm fun _ => size
      · rw [hrequest] at hmailed takes
        exact h.take hsound hl takes hmailed size
  | discarded takes mailbox stopped =>
      have hmailed : (e.act a).mailed = [] := by
        rw [mailed, mailbox]
        rfl
      refine h.keep hsound hl takes ?_ fun hserving => ?_
      · rw [hmailed, List.append_nil]
        exact h.sorted.sublist ((List.sublist_append_left _ _).map _)
      · rw [stopped] at hserving
        cases hserving

/-- Along a run every commit that is taken is dealt to a lane: `Dealt.act` for each action. -/
theorem Dealt.run {e : Engine} {taken : List Request} {accepted : Nat → List Request}
    (h : e.Dealt taken accepted) (hsound : e.Sound) (hl : e.Ledger)
    (actions : List EngineAction) :
    (e.run actions).Dealt (taken ++ e.taken actions) fun i =>
      accepted i ++ e.accepted i actions := by
  induction actions generalizing e taken accepted with
  | nil =>
      simp only [Engine.taken, Engine.accepted, along, List.append_nil]
      exact h
  | cons a rest ih =>
      simp only [Engine.taken, Engine.accepted, along, ← List.append_assoc]
      exact ih (h.act hsound hl a) (hsound.act a) (hl.act hsound a)

/-! ### Commits that a crash takes along -/

/-- Along a run the client of the broker has crashed on `r`, or on an earlier request `x` of the
lane that `r` was handed to. By `isAbandoned_iff_isLost` a commit that the loop has taken is given
up in no other case. -/
def IsLost (first : Engine) (actions : List EngineAction) (r : Request) : Prop :=
  ∃ i, ∃ x ∈ first.crashed i actions, ∃ before behind,
    first.accepted i actions = before ++ x :: behind ∧ r ∈ x :: behind

/-- Where a list is split at the first element without `P`, every later split at such an element has
it at the end. -/
theorem mem_of_append_eq {α : Type} {P : α → Prop} {done behind before behind' : List α} {x x' : α}
    (h : done ++ x :: behind = before ++ x' :: behind') (hdone : ∀ y ∈ done, P y) (hx' : ¬P x') :
    ∀ y ∈ x' :: behind', y ∈ x :: behind := by
  intro y hy
  rcases List.append_eq_append_iff.mp h with ⟨middle, -, hright⟩ | ⟨middle, hleft, hright⟩
  · rw [hright]
    exact List.mem_append_right _ hy
  · rcases middle with _ | ⟨z, middle⟩
    · rw [List.nil_append] at hright
      exact hright ▸ hy
    · obtain ⟨rfl, -⟩ := List.cons.inj hright
      exact absurd (hdone x' (hleft ▸ List.mem_append_right _ List.mem_cons_self)) hx'

section Started

variable (setup : Setup) (broker : Broker) (actions : List EngineAction)

/-- An engine that was started is `Sound` after every run. -/
theorem sound_run : ((start setup broker).run actions).Sound :=
  (sound_start setup broker).run actions

/-- Its `Ledger` holds after every run. -/
theorem ledger_run : ((start setup broker).run actions).Ledger :=
  (ledger_start setup broker).run (sound_start setup broker) actions

/-- Every lane has a `Fate` after every run. -/
theorem fate_run (i : Nat) : ((start setup broker).run actions).Fate i
    ((start setup broker).accepted i actions) ((start setup broker).crashed i actions) :=
  (fate_start setup broker i).run (sound_start setup broker) (ledger_start setup broker) actions

/-- What was taken is `Dealt` after every run. -/
theorem dealt_run : ((start setup broker).run actions).Dealt ((start setup broker).taken actions)
    fun i => (start setup broker).accepted i actions :=
  (dealt_start setup broker).run (sound_start setup broker) (ledger_start setup broker) actions

variable {setup broker actions}

/-- **A commit that was taken is given up by a crash alone**: it `isAbandoned` just when it
`IsLost`, that is, together with the request on which the client crashed. -/
theorem isAbandoned_iff_isLost {r : Request} (hr : r ∈ (start setup broker).taken actions) :
    ((start setup broker).run actions).isAbandoned r.ticket = true ↔
      (start setup broker).IsLost actions r := by
  constructor
  · intro habandoned
    obtain ⟨i, hi⟩ := (dealt_run setup broker actions).cared r hr
    have hnot : ¬((start setup broker).run actions).isDecided r.ticket = true := fun hdecided => by
      rw [not_isAbandoned_of_isDecided hdecided] at habandoned
      cases habandoned
    -- the lane that was handed `r` decides its fate: without a crash in it, `r` is decided or pending
    cases fate_run setup broker actions i with
    | unharmed done accepted decided =>
        rw [accepted, List.mem_append] at hi
        rcases hi with hi | hi
        · exact absurd (decided r hi) hnot
        · have hpending : r ∈ ((start setup broker).run actions).pending r.partition :=
            List.mem_append_left _
              ((sound_run setup broker actions).wellFormed.mem_pending_of_pendingIn hi)
          rw [isAbandoned, (ledger_run setup broker actions).status?_of_pending hpending]
            at habandoned
          cases habandoned
    | lost done x behind accepted decided _ crashed =>
        refine ⟨i, x, crashed ▸ List.mem_singleton_self x, done, behind, accepted, ?_⟩
        rw [accepted, List.mem_append] at hi
        rcases hi with hi | hi
        · exact absurd (decided r hi) hnot
        · exact hi
  · rintro ⟨i, x, hx, before, behind, hsplit, hmem⟩
    cases fate_run setup broker actions i with
    | unharmed _ _ _ crashed =>
        rw [crashed] at hx
        cases hx
    | lost done x' behind' accepted decided abandoned crashed =>
        rw [crashed, List.mem_singleton] at hx
        subst hx
        refine abandoned r (mem_of_append_eq (accepted.symm.trans hsplit) decided ?_ r hmem)
        intro hdecided
        have hgone := abandoned x List.mem_cons_self
        rw [not_isAbandoned_of_isDecided hdecided] at hgone
        cases hgone

end Started

end OffsetCommit.Engine
