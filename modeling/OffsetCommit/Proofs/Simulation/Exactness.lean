import OffsetCommit.Proofs.Simulation.Accounts

/-!
# Exact reports

When every record of a simulation has been notified and the pipeline is closed, the report says
exactly how many records there were. The trackers decide how far commits can come, whatever the
order of the notifications, and as all commits end alike the broker holds either just that or
nothing. The receipts of a partition tile its log, so the records folded into them add up to the
same.

* `Accounted.tiles`: the commit point and the tail of each partition.
* `Accounted.committed_closed`, `Accounted.count_closed`, `Accounted.observed_closed`: what the
  broker, the tickets and the observer hold when the engine has stopped.
* `Accounted.isExact`: so the report is exact (`Report.IsExact`).
-/

namespace OffsetCommit

/-! ### Sums over partitions -/

/-- When the items of each partition add up to `c`, all of them add up to `ps.length * c`. -/
theorem foldr_add_of_partitions {α : Type} (g : α → Partition) (f : α → Nat) {c : Nat}
    {ps : List Partition} (hnodup : ps.Nodup) {l : List α} (hg : ∀ a ∈ l, g a ∈ ps)
    (hc : ∀ p ∈ ps, ((l.filter fun a => g a = p).map f).foldr (· + ·) 0 = c) :
    (l.map f).foldr (· + ·) 0 = ps.length * c := by
  induction ps generalizing l with
  | nil =>
      have hnil : l = [] := List.eq_nil_iff_forall_not_mem.mpr fun a ha => by
        cases hg a ha
      rw [hnil, List.length_nil, Nat.zero_mul]
      rfl
  | cons p rest ih =>
      obtain ⟨hp, hrest⟩ := List.nodup_cons.mp hnodup
      have hsplit := (List.filter_append_perm (fun a => decide (g a = p)) l).symm.map f
      have hothers : ((l.filter fun a => !decide (g a = p)).map f).foldr (· + ·) 0 =
          rest.length * c := by
        refine ih hrest (fun a ha => ?_) fun q hq => ?_
        · obtain ⟨hmem, hne⟩ := List.mem_filter.mp ha
          rcases List.mem_cons.mp (hg a hmem) with heq | hin
          · simp [heq] at hne
          · exact hin
        · rw [List.filter_filter, ← hc q (List.mem_cons_of_mem _ hq)]
          congr 2
          refine List.filter_congr fun a _ => ?_
          by_cases hq' : g a = q
          · have hne : q ≠ p := fun heq => hp (heq ▸ hq)
            simp [hq', hne]
          · simp [hq']
      have hown := hc p List.mem_cons_self
      rw [hsplit.foldr_eq, List.map_append]
      rw [← List.sum_eq_foldr] at hothers hown ⊢
      rw [List.sum_append, hothers, hown, List.length_cons, Nat.succ_mul, Nat.add_comm]

/-- Filtering the places of a list by what stands there is filtering the list. -/
theorem map_filter_range_size {α β : Type} (l : List α) (keep : α → Bool) (f : Option α → β) :
    ((List.range l.length).filter fun k => l[k]?.any keep).map (fun k => f l[k]?) =
      (l.filter keep).map fun a => f (some a) := by
  induction l using List.reverseRecOn with
  | nil => rfl
  | append_singleton l a ih =>
      have hbefore : ∀ k ∈ List.range l.length, (l ++ [a])[k]? = l[k]? := fun k hk =>
        List.getElem?_append_left (List.mem_range.mp hk)
      have hfilter : ((List.range l.length).filter fun k => (l ++ [a])[k]?.any keep) =
          (List.range l.length).filter fun k => l[k]?.any keep :=
        List.filter_congr fun k hk => by rw [hbefore k hk]
      have hmap : (((List.range l.length).filter fun k => l[k]?.any keep).map fun k =>
          f (l ++ [a])[k]?) = (l.filter keep).map fun a => f (some a) := by
        rw [← ih]
        refine List.map_congr_left fun k hk => ?_
        rw [hbefore k (List.mem_of_mem_filter hk)]
      rw [List.length_append, List.length_singleton, List.range_succ, List.filter_append,
        List.map_append, hfilter, hmap, List.filter_append, List.map_append]
      congr 1
      by_cases hkeep : keep a = true <;> simp [hkeep]

namespace Pipeline

/-- The tickets of a partition ask for as many records as are folded into its receipts. -/
theorem Booked.folded_eq {pl : Pipeline} {p : Partition} {past : List Mark} (h : pl.Booked p past) :
    ((pl.engine.tickets.toList.filter fun t => t.partition = p).map Ticket.count).foldr (· + ·) 0 =
      Chronicle.folded (past.filterMap Mark.receipt?) := by
  have hcount : ∀ receipt ∈ past.filterMap Mark.receipt?,
      ((pl.engine.tickets[receipt.ticket]?.map Ticket.count).getD 0) = receipt.advance.count := by
    intro receipt hreceipt
    obtain ⟨t, ht, -, -, hcount⟩ := h.ticket receipt (Mark.mem_receipts_iff.mp hreceipt)
    rw [ht, Option.map_some, Option.getD_some, hcount]
  have hissued := congrArg
    (List.map fun k => (pl.engine.tickets[k]?.map Ticket.count).getD 0) h.issued
  have hplaces := map_filter_range_size pl.engine.tickets.toList (fun t => decide (t.partition = p))
    fun t => (t.map Ticket.count).getD 0
  simp only [Array.getElem?_toList, Array.length_toList, Option.map_some, Option.getD_some]
    at hplaces
  rw [Engine.issued, hplaces, List.map_map] at hissued
  rw [Chronicle.folded, hissued]
  exact congrArg _ (List.map_congr_left hcount)

end Pipeline

namespace Simulation

open Chronicle

/-! ### The trackers before the close -/

section Trackers

variable {s : Settings} {pl : Pipeline} {actions : List PipelineAction}

/-- Partitions that are read have no more records than fit into a log. -/
theorem Settings.IsCertain.fits (hs : s.IsCertain) {p : Partition} (hp : p ∈ keys s) :
    (Offset.clamp 0).toNat + s.records ≤ Offset.last.toNat := by
  have hpos : 0 < s.partitions := by
    obtain ⟨k, hk, -⟩ := List.mem_map.mp hp
    exact (Nat.zero_le k).trans_lt (List.mem_range.mp hk)
  have hle := Nat.le_mul_of_pos_left s.records hpos
  have hlt : s.records < 0x10000000000000000 := hle.trans_lt hs.records
  show 0 + s.records ≤ 0xffffffffffffffff
  omega

/-- When all records of a partition have been notified, each has been notified once: `NotifiedOnce`. -/
theorem notifiedOnce_of_perm {count : Nat} (hfit : (Offset.clamp 0).toNat + count ≤ Offset.last.toNat)
    {ns : List Notification} (h : (ns.map Notification.offset).Perm (allOffsets count)) :
    NotifiedOnce (.clamp 0) count ns := by
  have hnats := h.map Offset.toNat
  have hall : (allOffsets count).map Offset.toNat = List.range' (Offset.clamp 0).toNat count := by
    rw [allOffsets, List.map_map, show (Offset.clamp 0).toNat = 0 from rfl, ← List.range_eq_range']
    refine (List.map_congr_left fun k hk => ?_).trans (List.map_id _)
    have hlt := List.mem_range.mp hk
    rw [show (Offset.clamp 0).toNat = 0 from rfl, Offset.toNat_last] at hfit
    exact Offset.toNat_clamp_of_lt (by omega)
  rwa [hall, List.map_map] at hnats

/-- When all records of a partition have been notified, all of them with a success or none, the
commit point is `count` or zero. -/
theorem commitPoint_of_notifiedOnce {succeeds : Bool} {count : Nat}
    (hfit : (Offset.clamp 0).toNat + count ≤ Offset.last.toNat) {ns : List Notification}
    (h : NotifiedOnce (.clamp 0) count ns)
    (houtcomes : ∀ n ∈ ns, n.outcome.attemptsCommit = succeeds) :
    ((ResolvedSet.start (.clamp 0)).replay ns).commitPoint.toNat = if succeeds then count else 0 := by
  have hsum := ResolvedSet.commitPoint_add_committableRun hfit h
  rcases succeeds with _ | _
  · have hfollows := ResolvedSet.follows_replay h.nodup h.first_le (h.ne_last hfit)
    have hnever : ∀ k high, ¬FillsAt (.clamp 0) ns k high := by
      rintro k high ⟨n, hn, hsuccess, -⟩
      rw [houtcomes n (List.mem_of_getElem? hn)] at hsuccess
      cases hsuccess
    rw [hfollows.none hnever]
    rfl
  · rw [if_pos rfl]
    rcases hlast : ns.getLast? with _ | n
    · -- without a notification there are no records
      obtain rfl := List.getLast?_eq_none_iff.mp hlast
      obtain rfl : count = 0 := by simpa using h.length_eq.symm
      rfl
    · rw [ResolvedSet.commitPoint_of_success hfit h hlast
        (houtcomes n (List.mem_of_getLast? hlast))]
      exact Nat.zero_add count

/-- **The trackers know all records**: when everything has been notified, the receipts of a
partition tile its log up to the last record or not at all, and what they leave is the tail. -/
theorem Accounted.tiles (hs : s.IsCertain) (hstart : begin s = .ok pl)
    (h : Accounted s pl actions [] []) {p : Partition} (hp : p ∈ keys s) :
    ∃ point, Tiles (.clamp 0) ((pl.chronicle p actions).filterMap Mark.receipt?) point ∧
      point.toNat = (if s.succeeds then s.records else 0) ∧
      (((pl.run actions).coordinator.snapshot? p).map Snapshot.committableRun).getD 0 =
        if s.succeeds then 0 else s.records := by
  have htells := Pipeline.tells_run hstart actions p
  have hfit := hs.fits hp
  cases h.stands p hp with
  | fresh hpast _ hunread =>
      have hcount : s.records = 0 := by
        have hlength := congrArg List.length hunread
        simpa [offsetsOf, allOffsets] using hlength.symm
      have huntracked : (pl.run actions).coordinator.snapshot? p = none := by
        rw [Coordinator.snapshot?, htells.untracked (by rw [hpast]; rfl)]
        rfl
      refine ⟨.clamp 0, by rw [hpast]; rfl, ?_, ?_⟩
      · rw [hcount, ite_self]
        rfl
      · rw [huntracked, hcount, ite_self]
        rfl
  | seeded since hpast within all outcomes =>
      have hends : EndsIn (pl.chronicle p actions) (.clamp 0) since := ⟨⟨[], hpast⟩, within⟩
      obtain ⟨t, ht, hrepresents⟩ := htells.tracked _ hends.current?_eq
      have honce : NotifiedOnce (.clamp 0) s.records (since.filterMap Mark.notification?) := by
        refine notifiedOnce_of_perm hfit ?_
        simpa only [offsetsOf, List.filter_nil, List.map_nil, List.append_nil] using all
      have hpoint := commitPoint_of_notifiedOnce hfit honce outcomes
      have hreceipts : (pl.chronicle p actions).filterMap Mark.receipt? =
          since.filterMap Mark.receipt? := by
        rw [hpast]
        rfl
      refine ⟨_, hreceipts ▸ htells.legal.tiles hends hends.current?_eq (honce.ne_last hfit),
        hpoint, ?_⟩
      have hsum := ResolvedSet.commitPoint_add_committableRun hfit honce
      rw [hpoint, show (Offset.clamp 0).toNat = 0 from rfl] at hsum
      rw [Coordinator.snapshot?, ht, Option.map_some, Option.map_some, Option.getD_some,
        hrepresents.committableRun_eq]
      show ((ResolvedSet.start (.clamp 0)).replay
        (since.filterMap Mark.notification?)).committableRun = _
      by_cases hsucceeds : s.succeeds = true
      · rw [if_pos hsucceeds] at hsum ⊢
        omega
      · rw [if_neg hsucceeds] at hsum ⊢
        omega

end Trackers

/-! ### After the close -/

/-- A run that goes on by closing the pipeline, after which the engine is left alone. -/
def closed (actions : List PipelineAction) (after : List EngineAction) : List PipelineAction :=
  actions ++ .revokeAll :: .engine .shutdown :: after.map .engine

section Close

variable {s : Settings} {pl : Pipeline} {actions : List PipelineAction} {after : List EngineAction}
  {unread opened : List Dispatch}

/-- Closing revokes the tracked partitions, shuts down, and lets the engine go on. -/
theorem engine_run_closed (pl : Pipeline) (actions : List PipelineAction)
    (after : List EngineAction) : (pl.run (closed actions after)).engine =
      ((((pl.run actions).engine.run
        ((pl.run actions).coordinator.tracked.map .revoke)).act .shutdown).run after) := by
  rw [closed, Pipeline.run_append, Pipeline.run_cons, Pipeline.run_cons, Pipeline.run_map_engine]
  show Engine.run (Engine.act ((pl.run actions).act .revokeAll).engine .shutdown) after = _
  rw [Pipeline.engine_act]
  rfl

/-- Closing issues no commit. -/
theorem receipts_closed (pl : Pipeline) (p : Partition) (actions : List PipelineAction)
    (after : List EngineAction) :
    (pl.chronicle p (closed actions after)).filterMap Mark.receipt? =
      (pl.chronicle p actions).filterMap Mark.receipt? := by
  have hengine : ∀ (rest : List EngineAction) (pl : Pipeline),
      pl.chronicle p (rest.map .engine) = [] := by
    intro rest
    induction rest with
    | nil => exact fun _ => rfl
    | cons a rest ih => exact fun pl => ih _
  have hrevoked : ((pl.run actions).marks p .revokeAll).filterMap Mark.receipt? = [] := by
    rw [Pipeline.marks]
    rcases (pl.run actions).coordinator.trackers[p]? with _ | t <;> rfl
  have hshutdown := hengine (.shutdown :: after) ((pl.run actions).act .revokeAll)
  rw [List.map_cons] at hshutdown
  rw [closed, Pipeline.chronicle_append, Pipeline.chronicle, hshutdown, List.append_nil,
    List.filterMap_append, hrevoked, List.append_nil]

/-- The observer notes what it is told, and nothing makes it crash. -/
theorem noted_run (hstart : begin s = .ok pl) (actions : List PipelineAction) :
    (pl.run actions).engine.Noted ∧ (pl.run actions).engine.setup = ⟨[], some []⟩ := by
  have hsound := Engine.sound_start ⟨[], some []⟩
    (.start s.seed { Faults.quiet with rate := s.commitFailRate })
  have hledger := Engine.ledger_start ⟨[], some []⟩
    (.start s.seed { Faults.quiet with rate := s.commitFailRate })
  rw [Pipeline.engine_run, Pipeline.engine_start hstart]
  exact ⟨(Engine.noted_start _ _).run hsound hledger _, Engine.setup_run hsound hledger _⟩

/-- Revoking partitions keeps the loop listening and all commits alike. -/
theorem run_revoke_uniform {e : Engine} {rejects : Bool} (h : e.Uniform rejects)
    (hlistening : e.Listening 0) (partitions : List Partition) :
    (e.run (partitions.map .revoke)).Uniform rejects ∧
      (e.run (partitions.map .revoke)).Listening 0 := by
  induction partitions generalizing e with
  | nil => exact ⟨h, hlistening⟩
  | cons p rest ih => exact ih (h.revoke hlistening p) (hlistening.revoke p)

/-- The engine is `Uniform` after closing as well. -/
theorem Accounted.uniform_closed (h : Accounted s pl actions unread opened)
    (hafter : ∀ a ∈ after, a.isInternal = true) :
    (pl.run (closed actions after)).engine.Uniform s.rejects := by
  obtain ⟨huniform, hlistening⟩ := run_revoke_uniform h.uniform h.listening
    (pl.run actions).coordinator.tracked
  rw [engine_run_closed]
  exact (huniform.shutdown hlistening).run hafter

/-- **When the engine has stopped, every commit has ended**, and all have ended alike: each ticket
has a status that `isCommitted` unless the broker rejects. -/
theorem Accounted.status_closed (hstart : begin s = .ok pl)
    (h : Accounted s pl actions unread opened) (hafter : ∀ a ∈ after, a.isInternal = true)
    (hstopped : (pl.run (closed actions after)).engine.stage = .stopped) {k : Nat} {t : Ticket}
    (ht : (pl.run (closed actions after)).engine.tickets[k]? = some t) :
    ∃ status, t.status = some status ∧ status.isCommitted = !s.rejects := by
  have huniform := h.uniform_closed hafter
  have hdraining : (pl.run (closed actions after)).engine.Draining := by
    rw [Pipeline.engine_run, Pipeline.engine_start hstart]
    exact (Engine.draining_start _ _).run (Engine.sound_start _ _) _
  rcases hstatus : t.status with _ | status
  · -- without a status the commit would still be on its way
    obtain ⟨r, hr, -⟩ := huniform.ledger.pending k t ht hstatus
    rw [hdraining.pending_eq_nil huniform.sound huniform.closing hstopped] at hr
    cases hr
  · exact ⟨status, rfl, huniform.alike k status ((Engine.status?_of_getElem? ht).trans hstatus)⟩

/-- The books of every partition are kept until the end. -/
theorem Accounted.booked_closed (hstart : begin s = .ok pl)
    (h : Accounted s pl actions unread opened) (hafter : ∀ a ∈ after, a.isInternal = true)
    (p : Partition) :
    (pl.run (closed actions after)).Booked p (pl.chronicle p (closed actions after)) := by
  refine Pipeline.booked_run hstart fun a ha => ?_
  rcases List.mem_append.mp ha with ha | ha
  · exact h.straight a ha p
  rcases List.mem_cons.mp ha with rfl | ha
  · rfl
  rcases List.mem_cons.mp ha with rfl | ha
  · rfl
  · obtain ⟨b, hb, rfl⟩ := List.mem_map.mp ha
    have hinternal := hafter b hb
    cases b with
    | passTo time => rfl
    | move move => rfl
    | _ => cases hinternal

/-- **The broker holds what the trackers say, or nothing**: the committed offset of each partition
is `s.figures.1`. -/
theorem Accounted.committed_closed (hs : s.IsCertain) (hstart : begin s = .ok pl)
    (h : Accounted s pl actions [] []) (hafter : ∀ a ∈ after, a.isInternal = true)
    (hstopped : (pl.run (closed actions after)).engine.stage = .stopped) {p : Partition}
    (hp : p ∈ keys s) :
    (((pl.run (closed actions after)).engine.broker.committed p).map Offset.toNat).getD 0 =
      s.figures.1 := by
  have hbooked := h.booked_closed hstart hafter p
  have hledger := (h.uniform_closed hafter).ledger
  obtain ⟨point, htiles, hpoint, -⟩ := h.tiles hs hstart hp
  have hreceipts := receipts_closed pl p actions after
  rw [← hreceipts] at htiles
  have hstored : ∀ receipt ∈ (pl.chronicle p (closed actions after)).filterMap Mark.receipt?,
      (pl.run (closed actions after)).isStored receipt = !s.rejects := by
    intro receipt hreceipt
    obtain ⟨t, ht, -⟩ := hbooked.ticket receipt (Mark.mem_receipts_iff.mp hreceipt)
    obtain ⟨status, hstatus, hcommitted⟩ := h.status_closed hstart hafter hstopped ht
    rw [Pipeline.isStored, Engine.stored?, Engine.status?_of_getElem? ht, hstatus, ← hcommitted]
    cases status <;> rfl
  rw [hbooked.recorded.committed, hbooked.history_eq hledger, Settings.figures]
  rcases hrejects : s.rejects with _ | _
  · have hall : ((pl.chronicle p (closed actions after)).filterMap Mark.receipt?).filter
        (pl.run (closed actions after)).isStored =
          (pl.chronicle p (closed actions after)).filterMap Mark.receipt? :=
      List.filter_eq_self.mpr fun receipt hreceipt => by rw [hstored receipt hreceipt, hrejects]; rfl
    rw [hall, List.getLast?_map, htiles.getLast?_eq]
    have hnumber : ((if point = Offset.clamp 0 then none else some point).map Offset.toNat).getD 0 =
        point.toNat := by
      split
      · next hzero => rw [hzero]; rfl
      · rfl
    rw [hnumber, hpoint]
    rcases s.succeeds with _ | _ <;> rfl
  · have hnone : ((pl.chronicle p (closed actions after)).filterMap Mark.receipt?).filter
        (pl.run (closed actions after)).isStored = [] :=
      List.filter_eq_nil_iff.mpr fun receipt hreceipt => by
        rw [hstored receipt hreceipt, hrejects]
        exact Bool.false_ne_true
    rw [hnone]
    rcases s.succeeds with _ | _ <;> rfl

/-- The tickets ask for as many records as the trackers have passed. -/
theorem Accounted.count_closed (hs : s.IsCertain) (hstart : begin s = .ok pl)
    (h : Accounted s pl actions [] []) (hafter : ∀ a ∈ after, a.isInternal = true) :
    ((pl.run (closed actions after)).engine.tickets.toList.map Ticket.count).foldr (· + ·) 0 =
      s.partitions * if s.succeeds then s.records else 0 := by
  have hbooked := h.booked_closed hstart hafter
  have hlength : (keys s).length = s.partitions := by
    rw [keys, List.length_map, List.length_range]
  rw [← hlength]
  refine foldr_add_of_partitions Ticket.partition _ (nodup_keys hs.partitions) (fun t ht => ?_)
    fun p hp => ?_
  · -- a ticket of another partition would have a receipt in its chronicle
    obtain ⟨k, hk⟩ := List.mem_iff_getElem?.mp ht
    rw [Array.getElem?_toList] at hk
    have hissued := Engine.mem_issued_iff.mpr ⟨t, hk, rfl⟩
    by_contra hp
    rw [(hbooked t.partition).issued, receipts_closed, h.elsewhere t.partition hp] at hissued
    cases hissued
  · obtain ⟨point, htiles, hpoint, -⟩ := h.tiles hs hstart hp
    rw [(hbooked p).folded_eq, receipts_closed, ← hpoint, htiles.toNat_eq]
    exact (Nat.zero_add _).symm

/-- **The observer has noted all records, or none**: the counts add up to `s.folded`. -/
theorem Accounted.observed_closed (hs : s.IsCertain) (hstart : begin s = .ok pl)
    (h : Accounted s pl actions [] []) (hafter : ∀ a ∈ after, a.isInternal = true)
    (hstopped : (pl.run (closed actions after)).engine.stage = .stopped) :
    (pl.run (closed actions after)).engine.observed.toList.foldr (· + ·) 0 = s.folded := by
  have hstatus := fun k t => h.status_closed hstart hafter hstopped (k := k) (t := t)
  have hcount := h.count_closed hs hstart hafter
  obtain ⟨hnoted, hsetup⟩ := noted_run hstart (closed actions after)
  generalize (pl.run (closed actions after)).engine = e at *
  have hticket : ∀ t ∈ e.tickets.toList, ∃ status, t.status = some status ∧
      status.isCommitted = !s.rejects := fun t ht => by
    obtain ⟨k, hk⟩ := List.mem_iff_getElem?.mp ht
    exact hstatus k t (Array.getElem?_toList ▸ hk)
  -- the observer notes every count that it is told
  have hobserved : e.observed.toList = e.told.map fun commit => commit.2.2 := by
    rw [hnoted.observed_eq, ← List.filterMap_eq_map]
    exact List.filterMap_congr fun commit _ => by rw [hsetup]; rfl
  rw [hobserved, (hnoted.told_perm.map _).foldr_eq, Engine.granted, Settings.folded]
  rcases hrejects : s.rejects with _ | _
  · have hall : e.tickets.toList.filterMap Ticket.granted? = e.tickets.toList.map Ticket.asks := by
      rw [← List.filterMap_eq_map]
      refine List.filterMap_congr fun t ht => ?_
      obtain ⟨status, hsome, hcommitted⟩ := hticket t ht
      rw [Ticket.granted?, hsome, Option.any_some, hcommitted, hrejects]
      rfl
    rw [hall, List.map_map]
    refine hcount.trans ?_
    rcases s.succeeds with _ | _ <;> simp
  · have hnone : e.tickets.toList.filterMap Ticket.granted? = [] := by
      refine List.filterMap_eq_nil_iff.mpr fun t ht => ?_
      obtain ⟨status, hsome, hcommitted⟩ := hticket t ht
      rw [Ticket.granted?, hsome, Option.any_some, hcommitted, hrejects]
      rfl
    rw [hnone]
    simp

/-- **The report is exact**, in whatever order everything has happened. -/
theorem Accounted.isExact (hs : s.IsCertain) (hstart : begin s = .ok pl)
    (h : Accounted s pl actions [] []) (hafter : ∀ a ∈ after, a.isInternal = true)
    (hstopped : (pl.run (closed actions after)).engine.stage = .stopped) :
    (reportOn s (pl.run actions).coordinator (pl.run (closed actions after)).engine 0).IsExact s where
  rows := by
    refine ⟨fun p => ((pl.run (closed actions after)).engine.broker.history p).length,
      List.map_congr_left fun p hp => ?_⟩
    obtain ⟨point, -, -, htail⟩ := h.tiles hs hstart hp
    have hfigures : s.figures.2 = if s.succeeds then 0 else s.records := by
      rw [Settings.figures]
      rcases s.succeeds with _ | _
      · rfl
      · rcases s.rejects with _ | _ <;> rfl
    rw [row, h.committed_closed hs hstart hafter hstopped hp, htail, hfigures]
  folded := h.observed_closed hs hstart hafter hstopped
  refused := rfl

end Close

end Simulation

end OffsetCommit
