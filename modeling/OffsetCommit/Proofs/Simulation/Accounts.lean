import OffsetCommit.Proofs.Engine.Uniform
import OffsetCommit.Proofs.Pipeline.Completion
import OffsetCommit.Proofs.Simulation.Chances
import OffsetCommit.Proofs.Simulation.Tasks

/-!
# What is read, under way and notified

Each record of a simulation is read once, then its dispatch is under way, and in the end it is
notified. In whatever order that happens, the offsets of a partition that are notified, under way
and unread are together those of all its records.

* `Stands.receive`, `Stands.resolve`: reading and notifying a record keep this of one partition,
  and no notification is refused, as reading begins with the first offset.
* `Accounted.receive`, `Accounted.resolve`, `Accounted.engine`: they keep it of all partitions.
* `accounted_begin`: it holds at the start.
-/

namespace OffsetCommit

namespace Simulation

/-- The offsets of `p` among those of the dispatches `ds`. -/
def offsetsOf (p : Partition) (ds : List Dispatch) : List Offset :=
  (ds.filter fun d => d.record.partition = p).map fun d => d.record.offset

/-- The offsets of the records of a partition. -/
def allOffsets (count : Nat) : List Offset :=
  (List.range count).map .clamp

section Offsets

variable {p : Partition} {ds ds' : List Dispatch} {d : Dispatch}

/-- The offsets of `p` in two lists of dispatches, one after the other. -/
theorem offsetsOf_append : offsetsOf p (ds ++ ds') = offsetsOf p ds ++ offsetsOf p ds' := by
  rw [offsetsOf, List.filter_append, List.map_append]
  rfl

/-- The offset of the first dispatch comes first, if it is one of `p`. -/
theorem offsetsOf_cons : offsetsOf p (d :: ds) =
    (if d.record.partition = p then [d.record.offset] else []) ++ offsetsOf p ds := by
  rw [offsetsOf, List.filter_cons]
  by_cases hp : d.record.partition = p
  · simp [hp, offsetsOf]
  · simp [hp, offsetsOf]

/-- They are the offsets of the records of `p`. -/
theorem offsetsOf_eq (p : Partition) (ds : List Dispatch) : offsetsOf p ds =
    ((ds.map Dispatch.record).filter fun r => r.partition = p).map Record.offset := by
  rw [offsetsOf, List.filter_map, List.map_map]
  rfl

end Offsets

/-! ### One partition -/

/-- Where the records of a partition stand, by its chronicle and the offsets that are under way and
unread. -/
inductive Stands (succeeds : Bool) (count : Nat) (past : List Mark) (opened unread : List Offset) :
    Prop where
  /-- None has been read. -/
  | fresh (past : past = []) (opened : opened = []) (unread : unread = allOffsets count)
  /-- The first one has seeded the partition. -/
  | seeded (since : List Mark) (past : past = .seeded (.clamp 0) :: since)
      (within : ∀ m ∈ since, m.isBoundary = false)
      (all : ((since.filterMap Mark.notification?).map Notification.offset ++ opened ++ unread).Perm
        (allOffsets count))
      (outcomes : ∀ n ∈ since.filterMap Mark.notification?,
        n.outcome.attemptsCommit = succeeds)

variable {succeeds : Bool} {count : Nat} {pl : Pipeline} {p : Partition} {past : List Mark}
  {opened unread : List Offset}

/-- What does not concern a partition leaves its records where they stand. -/
theorem Stands.aside (h : Stands succeeds count past opened unread) {marks : List Mark}
    (hmarks : marks = []) : Stands succeeds count (past ++ marks) opened unread := by
  rwa [hmarks, List.append_nil]

/-- A record that is read goes from `unread` to the end of `opened`. -/
theorem Stands.receive {r : Record}
    (h : Stands succeeds count past opened (r.offset :: unread)) (htells : pl.Tells r.partition past) :
    Stands succeeds count (past ++ pl.marks r.partition (.receive r)) (opened ++ [r.offset])
      unread := by
  cases h with
  | fresh hpast hopened hunread =>
      subst hpast hopened
      have hmarks : pl.marks r.partition (.receive r) = [.seeded r.offset] := by
        simp [Pipeline.marks, htells.untracked rfl]
      have hfirst : r.offset = .clamp 0 := by
        rcases count with _ | count
        · cases hunread
        · rw [allOffsets, List.range_succ_eq_map] at hunread
          exact (List.cons.inj hunread).1
      rw [hmarks, hfirst]
      refine .seeded [] rfl (by simp) ?_ (by simp)
      rw [← hunread, hfirst]
      exact .refl _
  | seeded since hpast within all outcomes =>
      have hends : Chronicle.EndsIn past (.clamp 0) since := ⟨⟨[], hpast⟩, within⟩
      obtain ⟨t, ht, -⟩ := htells.tracked _ hends.current?_eq
      have hmarks : pl.marks r.partition (.receive r) = [] := by
        simp [Pipeline.marks, ht]
      rw [hmarks, List.append_nil]
      refine .seeded since hpast within ?_ outcomes
      simpa only [List.append_assoc, List.singleton_append] using all

/-- A record that is under way is notified and leaves `opened`, and the notification is not refused. -/
theorem Stands.resolve {r : Record} {opened' : List Offset}
    (h : Stands succeeds count past (opened ++ r.offset :: opened') unread)
    (htells : pl.Tells r.partition past) {outcome : Outcome}
    (houtcome : outcome.attemptsCommit = succeeds) :
    (∃ answer, (pl.resolve r outcome).1 = .ok answer) ∧
      Stands succeeds count (past ++ pl.marks r.partition (.resolve r outcome)) (opened ++ opened')
        unread := by
  cases h with
  | fresh _ hopened _ => simp at hopened
  | seeded since hpast within all outcomes =>
      have hends : Chronicle.EndsIn past (.clamp 0) since := ⟨⟨[], hpast⟩, within⟩
      obtain ⟨t, ht, -⟩ := htells.tracked _ hends.current?_eq
      obtain ⟨-, hboundary, hnotified⟩ :=
        Pipeline.marks_of_tracked ht (a := .resolve r outcome) rfl
      have hnew : (pl.marks r.partition (.resolve r outcome)).filterMap Mark.notification? =
          [⟨r.offset, outcome⟩] := by
        rw [hnotified, PipelineAction.notification?, if_pos rfl]
        rfl
      refine ⟨?_, .seeded (since ++ pl.marks r.partition (.resolve r outcome)) ?_ ?_ ?_ ?_⟩
      · rcases hnotify : (t.notify ⟨r.offset, outcome⟩).1 with _ | advance
        · exact ⟨_, (Pipeline.resolve_of_incomplete ht hnotify).1⟩
        · exact ⟨_, (Pipeline.resolve_of_complete ht hnotify).1⟩
      · rw [hpast, List.cons_append]
      · intro m hm
        rcases List.mem_append.mp hm with hm | hm
        · exact within m hm
        · exact hboundary m hm
      · rw [List.filterMap_append, hnew, List.map_append]
        refine List.Perm.trans ?_ all
        simp only [List.append_assoc, List.map_cons, List.map_nil, List.cons_append,
          List.nil_append]
        exact List.perm_middle.symm.append_left _
      · rw [List.filterMap_append, hnew]
        intro n hn
        rcases List.mem_append.mp hn with hn | hn
        · exact outcomes n hn
        · rw [List.mem_singleton.mp hn]
          exact houtcome

/-! ### All records -/

/-- The dispatches of `s` have the records of `records s`, in their order, whatever the chance is. -/
theorem map_record_dispatches (chance : Chance) (s : Settings) :
    (dispatches chance s).map Dispatch.record = records s := by
  rw [dispatches, List.map_map]
  exact List.zipIdx_map_fst 0 (records s)

/-- Partitions with different numbers are different. -/
theorem nodup_keys {s : Settings} (h : s.partitions < UInt32.size) : (keys s).Nodup := by
  refine List.Nodup.map_on (fun k hk j hj heq => ?_) List.nodup_range
  have hnumber := congrArg (fun p : Partition => p.number.toNat) heq
  have hk' := (List.mem_range.mp hk).trans h
  have hj' := (List.mem_range.mp hj).trans h
  simpa [UInt32.toNat_ofNat_of_lt' hk', UInt32.toNat_ofNat_of_lt' hj'] using hnumber

/-- Each partition is read in the order of its offsets: `allOffsets s.records`. -/
theorem offsetsOf_dispatches (chance : Chance) {s : Settings} (h : s.partitions < UInt32.size)
    {p : Partition} (hp : p ∈ keys s) :
    offsetsOf p (dispatches chance s) = allOffsets s.records := by
  have hturn : ∀ o, (((keys s).map fun q => recordAt q o).filter fun r => r.partition = p) =
      [recordAt p o] := by
    intro o
    rw [List.filter_map]
    have hown : (keys s).filter (fun q => decide (q = p)) = [p] :=
      (List.filter_beq p).trans (by rw [List.count_eq_one_of_mem (nodup_keys h) hp, List.replicate_one])
    show List.map _ ((keys s).filter fun q => decide (q = p)) = _
    rw [hown, List.map_singleton]
  rw [offsetsOf_eq, map_record_dispatches, records, List.filter_flatMap]
  simp only [hturn]
  rw [← List.map_eq_flatMap, List.map_map]
  rfl

/-- Every record in `dispatches chance s` is one of a partition in `keys s`, and its outcome is the
one that the settings leave no choice about. -/
theorem mem_dispatches {chance : Chance} (hchance : chance.IsSettled) {s : Settings}
    (hs : s.IsCertain) {d : Dispatch} (hd : d ∈ dispatches chance s) :
    d.record.partition ∈ keys s ∧ d.outcome.attemptsCommit = s.succeeds := by
  obtain ⟨⟨r, n⟩, hr, rfl⟩ := List.mem_map.mp hd
  obtain ⟨o, -, hrow⟩ := List.mem_flatMap.mp (List.fst_mem_of_mem_zipIdx hr)
  obtain ⟨p, hp, rfl⟩ := List.mem_map.mp hrow
  exact ⟨hp, hs.toHasCertainRates.attemptsCommit_outcome hchance n⟩

/-! ### The whole simulation -/

/-- A simulation as it is started, with nothing read: a pipeline over a broker with the seed and the
commit rate of the settings. -/
def begin (s : Settings) : Except Error Pipeline :=
  Pipeline.start ⟨s.shrinkThreshold⟩ ⟨[], some []⟩
    (.start s.seed { Faults.quiet with rate := s.commitFailRate })

/-- A simulation starts with the pipeline of `begin`, and nothing has been refused. -/
theorem start_eq_map_begin (s : Settings) :
    start s = (begin s).map fun pl => (⟨pl, 0⟩ : State) := by
  unfold start
  rcases hbegin : begin s with error | pl
  · rw [begin] at hbegin
    dsimp only at hbegin ⊢
    rw [hbegin]
    rfl
  · rw [begin] at hbegin
    dsimp only at hbegin ⊢
    rw [hbegin]
    rfl

/-- A valid shrink threshold is all it takes to start. -/
theorem exists_begin {s : Settings} (h : 0 < s.shrinkThreshold) : ∃ pl, begin s = .ok pl := by
  have hvalid : Config.validate ⟨s.shrinkThreshold⟩ = .ok () := by
    simp [Config.validate, Nat.pos_iff_ne_zero.mp h]
  rw [begin, Pipeline.start, Coordinator.start, hvalid]
  exact ⟨_, rfl⟩

/-- The invariant of a simulation until it is closed: `pl.run actions` has bypassed the coordinator
nowhere, all its commits end alike, and the records of each partition stand as `Stands` says. -/
structure Accounted (s : Settings) (pl : Pipeline) (actions : List PipelineAction)
    (unread opened : List Dispatch) : Prop where
  /-- No one goes past the coordinator. -/
  straight : ∀ a ∈ actions, ∀ p, a.bypasses p = false
  /-- The engine takes commands. -/
  listening : (pl.run actions).engine.Listening 0
  /-- All its commits end alike. -/
  uniform : (pl.run actions).engine.Uniform s.rejects
  /-- So the records of each partition stand. -/
  stands : ∀ p ∈ keys s, Stands s.succeeds s.records (pl.chronicle p actions) (offsetsOf p opened)
    (offsetsOf p unread)
  /-- Nothing has happened to other partitions. -/
  elsewhere : ∀ p ∉ keys s, pl.chronicle p actions = []
  /-- Nothing will happen to them, and the outcomes are those of the settings. -/
  known : ∀ d ∈ unread ++ opened,
    d.record.partition ∈ keys s ∧ d.outcome.attemptsCommit = s.succeeds

section

variable {s : Settings} {pl : Pipeline}

/-- The engine of a simulation is `Uniform`: commits take no time, and they all end alike. -/
theorem uniform_begin (hs : s.IsCertain) (hstart : begin s = .ok pl) :
    pl.engine.Uniform s.rejects := by
  rw [Pipeline.engine_start hstart]
  exact Engine.uniform_start rfl rfl rfl hs.commitFailRate.settledByRate?

/-- At the start all records are unread and accounted for. -/
theorem accounted_begin {chance : Chance} (hchance : chance.IsSettled) (hs : s.IsCertain)
    (hstart : begin s = .ok pl) : Accounted s pl [] (dispatches chance s) [] where
  straight a ha := by cases ha
  listening := by
    refine ⟨(uniform_begin hs hstart).toSteady, ?_, ?_, ?_⟩ <;>
      rw [Pipeline.run_nil, Pipeline.engine_start hstart]
    · rfl
    · rfl
    · simp [Engine.start]
  uniform := uniform_begin hs hstart
  stands p hp := .fresh rfl rfl (offsetsOf_dispatches chance hs.partitions hp)
  elsewhere p _ := rfl
  known d hd := by
    rw [List.append_nil] at hd
    exact mem_dispatches hchance hs hd

variable {actions : List PipelineAction} {unread opened opened' : List Dispatch} {d : Dispatch}

/-- Reading the next record preserves `Accounted`. -/
theorem Accounted.receive (hstart : begin s = .ok pl)
    (h : Accounted s pl actions (d :: unread) opened) :
    Accounted s pl (actions ++ [.receive d.record]) unread (opened ++ [d]) := by
  have hrun : pl.run (actions ++ [.receive d.record]) = (pl.run actions).receive d.record :=
    pl.run_append actions _
  have hengine : (pl.run (actions ++ [.receive d.record])).engine = (pl.run actions).engine := by
    rw [hrun]
    rfl
  have hknown := h.known d (by simp)
  refine ⟨fun a ha p => ?_, hengine ▸ h.listening, hengine ▸ h.uniform, fun p hp => ?_,
    fun p hp => ?_, fun x hx => h.known x ?_⟩
  · rcases List.mem_append.mp ha with ha | ha
    · exact h.straight a ha p
    · rw [List.mem_singleton.mp ha]
      rfl
  · have hstands := h.stands p hp
    rw [offsetsOf_cons] at hstands
    rw [Pipeline.chronicle_concat, offsetsOf_append, offsetsOf_cons]
    by_cases hown : d.record.partition = p
    · subst hown
      rw [if_pos rfl] at hstands ⊢
      exact hstands.receive (Pipeline.tells_run hstart actions _)
    · rw [if_neg hown] at hstands ⊢
      rw [List.nil_append, show offsetsOf p [] = [] from rfl, List.append_nil]
      exact hstands.aside (by simp [Pipeline.marks, hown])
  · have hother : d.record.partition ≠ p := fun heq => hp (heq ▸ hknown.1)
    rw [Pipeline.chronicle_concat, h.elsewhere p hp, List.nil_append]
    simp [Pipeline.marks, hother]
  · simp only [List.mem_append, List.mem_cons] at hx ⊢
    tauto

/-- The end of a dispatch `d` that is under way preserves `Accounted`, and its notification is not
refused. -/
theorem Accounted.resolve (hstart : begin s = .ok pl)
    (h : Accounted s pl actions unread (opened ++ d :: opened')) :
    (∃ answer, ((pl.run actions).resolve d.record d.outcome).1 = .ok answer) ∧
      Accounted s pl (actions ++ [.resolve d.record d.outcome]) unread (opened ++ opened') := by
  have hrun : pl.run (actions ++ [.resolve d.record d.outcome]) =
      ((pl.run actions).resolve d.record d.outcome).2 := pl.run_append actions _
  have hknown := h.known d (by simp)
  have hown := h.stands d.record.partition hknown.1
  rw [offsetsOf_append, offsetsOf_cons, if_pos rfl] at hown
  obtain ⟨hanswer, hstands⟩ := hown.resolve (Pipeline.tells_run hstart actions _) hknown.2
  have hengine := (pl.run actions).engine_resolve_cases d.record d.outcome
  rw [← hrun] at hengine
  refine ⟨hanswer, fun a ha p => ?_, ?_, ?_, fun p hp => ?_, fun p hp => ?_, fun x hx => h.known x ?_⟩
  · rcases List.mem_append.mp ha with ha | ha
    · exact h.straight a ha p
    · rw [List.mem_singleton.mp ha]
      rfl
  · rcases hengine with heq | ⟨o, count, heq⟩
    · exact heq ▸ h.listening
    · exact heq ▸ h.listening.submit _ _ _
  · rcases hengine with heq | ⟨o, count, heq⟩
    · exact heq ▸ h.uniform
    · exact heq ▸ h.uniform.submit h.listening _ _ _
  · rw [Pipeline.chronicle_concat, offsetsOf_append]
    by_cases hsame : d.record.partition = p
    · subst hsame
      exact hstands
    · have hother := h.stands p hp
      rw [offsetsOf_append, offsetsOf_cons, if_neg hsame] at hother
      exact hother.aside (by simp [Pipeline.marks, hsame])
  · have hother : d.record.partition ≠ p := fun heq => hp (heq ▸ hknown.1)
    rw [Pipeline.chronicle_concat, h.elsewhere p hp, List.nil_append]
    simp [Pipeline.marks, hother]
  · simp only [List.mem_append, List.mem_cons] at hx ⊢
    tauto

/-- What the engine does by itself preserves `Accounted`. -/
theorem Accounted.engine (h : Accounted s pl actions unread opened) {a : EngineAction}
    (ha : a.isInternal = true) : Accounted s pl (actions ++ [.engine a]) unread opened := by
  have hengine : (pl.run (actions ++ [.engine a])).engine = (pl.run actions).engine.act a := by
    rw [pl.run_append actions]
    rfl
  refine ⟨fun x hx p => ?_, hengine ▸ h.listening.act ha, hengine ▸ h.uniform.act ha,
    fun p hp => ?_, fun p hp => ?_, h.known⟩
  · rcases List.mem_append.mp hx with hx | hx
    · exact h.straight x hx p
    · rw [List.mem_singleton.mp hx]
      cases a with
      | passTo time => rfl
      | move move => rfl
      | _ => cases ha
  · rw [Pipeline.chronicle_concat]
    exact (h.stands p hp).aside rfl
  · rw [Pipeline.chronicle_concat, h.elsewhere p hp]
    rfl

end

end Simulation

end OffsetCommit
