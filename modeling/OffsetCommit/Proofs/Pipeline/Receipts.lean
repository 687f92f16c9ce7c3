import OffsetCommit.Proofs.Pipeline.Run

/-!
# Receipts and the broker

The coordinator acts on the engine only by a few commands, so a run of the pipeline is a run of its
engine (`engine_run`). A receipt in the chronicle of a partition is the number of a ticket that asks
for just what the receipt says (`Booked`).

* `Booked.act`, `Booked.run`: the books are kept by every action that does not go past the
  coordinator.
* `Booked.history_eq`: so the history of the partition lists the offsets of the receipts whose
  commits went through.
-/

namespace OffsetCommit.Pipeline

open Chronicle

/-! ### The engine's part -/

/-- What an action asks of the engine, going by the state that it finds. -/
def commands (pl : Pipeline) : PipelineAction → List EngineAction
  | .receive _ => []
  | .resolve r outcome =>
      match (pl.resolve r outcome).1 with
      | .ok (some receipt) => [.submit r.partition receipt.advance.offset receipt.advance.count]
      | _ => []
  | .revoke p => if pl.coordinator.trackers[p]?.isSome then [.revoke p] else []
  | .revokeAll => pl.coordinator.tracked.map .revoke
  | .engine a => [a]

/-- What a run asks of the engine, `commands` of one action after the other; by `engine_run` the
engine is what it was after all of these. -/
def allCommands (pl : Pipeline) : List PipelineAction → List EngineAction
  | [] => []
  | a :: rest => pl.commands a ++ (pl.act a).allCommands rest

/-- An action of the pipeline runs `pl.commands a` on its engine. -/
theorem engine_act (pl : Pipeline) (a : PipelineAction) :
    (pl.act a).engine = pl.engine.run (pl.commands a) := by
  cases a with
  | receive r => rfl
  | resolve r outcome =>
      rw [act, commands]
      rcases ht : pl.coordinator.trackers[r.partition]? with _ | t
      · obtain ⟨hanswer, -, hengine⟩ := resolve_of_untracked ht outcome
        rw [hanswer]
        exact hengine
      · rcases hnotify : (t.notify ⟨r.offset, outcome⟩).1 with _ | advance
        · obtain ⟨hanswer, hengine, -⟩ := resolve_of_incomplete ht hnotify
          rw [hanswer]
          exact hengine
        · obtain ⟨hanswer, hengine, -⟩ := resolve_of_complete ht hnotify
          rw [hanswer]
          exact hengine
  | revoke p =>
      rw [act, revoke, commands]
      rcases ht : pl.coordinator.trackers[p]? with _ | t
      · rw [Coordinator.revoke?_of_untracked ht]
        rfl
      · obtain ⟨c, events, heq, -⟩ := Coordinator.revoke?_of_tracked ht
        rw [heq]
        rfl
  | revokeAll =>
      rw [commands, Engine.run, List.foldl_map]
      rfl
  | engine a => rfl

/-- A run of the pipeline is a run of its engine: `pl.allCommands actions`. -/
theorem engine_run (pl : Pipeline) (actions : List PipelineAction) :
    (pl.run actions).engine = pl.engine.run (pl.allCommands actions) := by
  induction actions generalizing pl with
  | nil => rfl
  | cons a rest ih => rw [run_cons, ih, engine_act, allCommands, Engine.run_append]

/-- The coordinator never asks the broker directly. -/
theorem ne_call_of_mem_commands {pl : Pipeline} {a : PipelineAction}
    (ha : ∀ p o, a ≠ .engine (.call p o)) : ∀ c ∈ pl.commands a, ∀ p o, c ≠ .call p o := by
  rintro c hc p o rfl
  cases a with
  | receive r => cases hc
  | resolve r outcome =>
      rw [commands] at hc
      split at hc
      · cases List.mem_singleton.mp hc
      · cases hc
  | revoke q =>
      rw [commands] at hc
      split at hc
      · cases List.mem_singleton.mp hc
      · cases hc
  | revokeAll =>
      obtain ⟨q, -, hq⟩ := List.mem_map.mp hc
      cases hq
  | engine a => exact ha p o (congrArg PipelineAction.engine (List.mem_singleton.mp hc).symm)

/-- Every action of the pipeline keeps its engine `Sound`. -/
theorem sound_act {pl : Pipeline} (h : pl.engine.Sound) (a : PipelineAction) :
    (pl.act a).engine.Sound := by
  rw [engine_act]
  exact h.run _

/-- Every action of the pipeline preserves the `Ledger` of its engine. -/
theorem ledger_act {pl : Pipeline} (h : pl.engine.Ledger) (hsound : pl.engine.Sound)
    (a : PipelineAction) : (pl.act a).engine.Ledger := by
  rw [engine_act]
  exact h.run hsound _

/-! ### Receipts and tickets -/

/-- The invariant between the receipts in the chronicle `past` of `p` and the tickets of the engine,
while nobody bypasses the coordinator for `p`: the receipts are the tickets of `p`, in the order of
issue. `Booked.run` keeps it. -/
structure Booked (pl : Pipeline) (p : Partition) (past : List Mark) : Prop where
  /-- A receipt is the number of a ticket that asks for what the receipt says. -/
  ticket : ∀ receipt, Mark.issued receipt ∈ past →
    ∃ t, pl.engine.tickets[receipt.ticket]? = some t ∧ t.partition = p ∧
      t.offset = receipt.advance.offset ∧ t.count = receipt.advance.count
  /-- There are no other tickets for the partition. -/
  issued : pl.engine.issued p = (past.filterMap Mark.receipt?).map Receipt.ticket
  /-- The broker holds what the tickets say. -/
  recorded : pl.engine.Recorded p

/-- At the start nothing is booked. -/
theorem booked_start {pl : Pipeline} {setup : Setup} {seed : UInt64} {faults : Faults}
    (h : pl.engine = .start setup (.start seed faults)) (p : Partition) : pl.Booked p [] where
  ticket receipt hr := by cases hr
  issued := by
    rw [h]
    rfl
  recorded := by
    rw [h]
    exact Engine.recorded_start setup seed faults p

/-- An action that issues no commit of a partition leaves its books. -/
theorem Booked.of_commands {pl : Pipeline} {p : Partition} {past : List Mark} (h : pl.Booked p past)
    (hsound : pl.engine.Sound) (hl : pl.engine.Ledger) {a : PipelineAction}
    (hsubmit : ∀ c ∈ pl.commands a, ∀ o count, c ≠ .submit p o count)
    (hcall : ∀ c ∈ pl.commands a, ∀ o, c ≠ .call p o)
    (hmarks : (pl.marks p a).filterMap Mark.receipt? = []) :
    (pl.act a).Booked p (past ++ pl.marks p a) := by
  refine ⟨fun receipt hr => ?_, ?_, ?_⟩
  · have hpast : Mark.issued receipt ∈ past := by
      rw [← Mark.mem_receipts_iff, List.filterMap_append, hmarks, List.append_nil] at hr
      exact Mark.mem_receipts_iff.mp hr
    obtain ⟨t, ht, hp, ho, hcount⟩ := h.ticket receipt hpast
    obtain ⟨t', ht', hleads⟩ := hl.leadsTo_run hsound (pl.commands a) ht
    rw [engine_act]
    exact ⟨t', ht', hleads.partition_eq.trans hp, hleads.offset_eq.trans ho,
      hleads.count_eq.trans hcount⟩
  · rw [engine_act, Engine.issued_run hsound hsubmit, List.filterMap_append, hmarks,
      List.append_nil]
    exact h.issued
  · rw [engine_act]
    exact h.recorded.run hl hsound hcall

/-- A commit that is issued for a partition is entered into its books: the receipt has the ticket
`pl.engine.tickets.size`. -/
theorem Booked.issue {pl : Pipeline} {p : Partition} {past : List Mark} (h : pl.Booked p past)
    (hsound : pl.engine.Sound) (hl : pl.engine.Ledger) {a : PipelineAction} {n : Notification}
    {advance : Advance} (hcommands : pl.commands a = [.submit p advance.offset advance.count])
    (hmarks : pl.marks p a = [.notified n, .issued ⟨pl.engine.tickets.size, p, advance⟩]) :
    (pl.act a).Booked p (past ++ pl.marks p a) := by
  have hengine : (pl.act a).engine = pl.engine.submit p advance.offset advance.count := by
    rw [engine_act, hcommands]
    rfl
  obtain ⟨status, htickets⟩ := pl.engine.tickets_submit p advance.offset advance.count
  rw [← hengine] at htickets
  refine ⟨fun receipt hr => ?_, ?_, ?_⟩
  · rw [hmarks, List.mem_append, List.mem_cons, List.mem_singleton] at hr
    rcases hr with hr | hr | hr
    · obtain ⟨t, ht, hp, ho, hcount⟩ := h.ticket receipt hr
      obtain ⟨t', ht', hleads⟩ := Engine.leadsTo_of_push htickets ht
      exact ⟨t', ht', hleads.partition_eq.trans hp, hleads.offset_eq.trans ho,
        hleads.count_eq.trans hcount⟩
    · cases hr
    · obtain rfl := Mark.issued.inj hr
      refine ⟨⟨p, advance.offset, advance.count, status⟩, ?_, rfl, rfl, rfl⟩
      rw [htickets, Array.getElem?_push, if_pos rfl]
  · rw [hengine, Engine.issued_submit, if_pos rfl, h.issued, hmarks, List.filterMap_append,
      List.map_append]
    rfl
  · rw [hengine]
    refine h.recorded.effect hl (fun o => ?_) (hsound.effect (.submit p _ _)).2
    exact EngineAction.noConfusion

/-- **The books are kept**: every action that does not bypass the coordinator for `p` preserves
`Booked p`. -/
theorem Booked.act {pl : Pipeline} {p : Partition} {past : List Mark} (h : pl.Booked p past)
    (hsound : pl.engine.Sound) (hl : pl.engine.Ledger) {a : PipelineAction}
    (ha : a.bypasses p = false) : (pl.act a).Booked p (past ++ pl.marks p a) := by
  cases a with
  | receive r =>
      refine h.of_commands hsound hl (by simp [commands]) (by simp [commands]) ?_
      rw [marks]
      split <;> rfl
  | resolve r outcome =>
      by_cases hp : r.partition = p
      · subst hp
        rcases ht : pl.coordinator.trackers[r.partition]? with _ | t
        · have hanswer := (resolve_of_untracked ht outcome).1
          apply h.of_commands hsound hl <;> simp [commands, marks, hanswer, Mark.receipt?]
        · rcases hnotify : (t.notify ⟨r.offset, outcome⟩).1 with _ | advance
          · have hanswer := (resolve_of_incomplete ht hnotify).1
            apply h.of_commands hsound hl <;> simp [commands, marks, hanswer, Mark.receipt?]
          · have hanswer := (resolve_of_complete ht hnotify).1
            apply h.issue hsound hl
            · rw [commands, hanswer]
            · rw [marks, if_pos rfl, hanswer]
      · apply h.of_commands hsound hl
        · intro c hc o count heq
          subst heq
          rw [commands] at hc
          split at hc
          · obtain ⟨hpartition, -⟩ := EngineAction.submit.inj (List.mem_singleton.mp hc)
            exact hp hpartition.symm
          · cases hc
        · intro c hc o
          exact ne_call_of_mem_commands (fun _ _ => PipelineAction.noConfusion) c hc p o
        · rw [marks, if_neg hp]
          rfl
  | revoke q =>
      apply h.of_commands hsound hl
      · simp [commands]
      · simp [commands]
      · rw [marks]
        split
        · rcases pl.coordinator.trackers[p]? with _ | t <;> rfl
        · rfl
  | revokeAll =>
      apply h.of_commands hsound hl
      · simp [commands]
      · simp [commands]
      · rw [marks]
        rcases pl.coordinator.trackers[p]? with _ | t <;> rfl
  | engine a =>
      apply h.of_commands hsound hl
      · rintro c hc o count rfl
        rw [← List.mem_singleton.mp hc] at ha
        simp [PipelineAction.bypasses] at ha
      · rintro c hc o rfl
        rw [← List.mem_singleton.mp hc] at ha
        simp [PipelineAction.bypasses] at ha
      · rfl

/-- The books are kept along a run: `Booked.act` for each action. -/
theorem Booked.run {pl : Pipeline} {p : Partition} {past : List Mark} (h : pl.Booked p past)
    (hsound : pl.engine.Sound) (hl : pl.engine.Ledger) {actions : List PipelineAction}
    (hactions : ∀ a ∈ actions, a.bypasses p = false) :
    (pl.run actions).Booked p (past ++ pl.chronicle p actions) := by
  induction actions generalizing pl past with
  | nil =>
      rw [chronicle, List.append_nil]
      exact h
  | cons a rest ih =>
      obtain ⟨ha, hrest⟩ := List.forall_mem_cons.mp hactions
      rw [chronicle, ← List.append_assoc]
      exact ih (h.act hsound hl ha) (sound_act hsound a) (ledger_act hl hsound a) hrest

/-! ### From the start -/

section

variable {config : Config} {setup : Setup} {broker : Broker} {pl : Pipeline}

/-- The `Ledger` of the engine holds after every run from the start. -/
theorem ledger_run (hstart : start config setup broker = .ok pl) (actions : List PipelineAction) :
    (pl.run actions).engine.Ledger := by
  rw [engine_run, engine_start hstart]
  exact (Engine.ledger_start setup broker).run (Engine.sound_start setup broker) _

/-- After every run the chronicle of a partition tells what there is for it: `Tells p (pl.chronicle
p actions)`. -/
theorem tells_run (hstart : start config setup broker = .ok pl) (actions : List PipelineAction)
    (p : Partition) : (pl.run actions).Tells p (pl.chronicle p actions) :=
  (tells_start hstart p).run actions

/-- After every run in which no one bypasses the coordinator for `p`, its books are kept. -/
theorem booked_run {seed : UInt64} {faults : Faults}
    (hstart : start config setup (.start seed faults) = .ok pl) {actions : List PipelineAction}
    {p : Partition} (hactions : ∀ a ∈ actions, a.bypasses p = false) :
    (pl.run actions).Booked p (pl.chronicle p actions) := by
  have hengine := engine_start hstart
  apply (booked_start hengine p).run _ _ hactions
  · rw [hengine]
    exact Engine.sound_start setup _
  · rw [hengine]
    exact Engine.ledger_start setup _

end

/-! ### The history -/

/-- Whether the broker has stored the offset of `receipt`. -/
def isStored (pl : Pipeline) (receipt : Receipt) : Bool :=
  (pl.engine.stored? receipt.ticket).isSome

/-- The broker stores for a receipt the offset that the receipt says, if it stores one. -/
theorem Booked.stored?_eq {pl : Pipeline} {p : Partition} {past : List Mark} (h : pl.Booked p past)
    (hl : pl.engine.Ledger) {receipt : Receipt} (hr : Mark.issued receipt ∈ past) :
    pl.engine.stored? receipt.ticket =
      if pl.isStored receipt then some receipt.advance.offset else none := by
  obtain ⟨t, ht, -, hoffset, -⟩ := h.ticket receipt hr
  rw [isStored]
  rcases hstored : pl.engine.stored? receipt.ticket with _ | o
  · rfl
  · rw [Engine.stored?, Engine.status?_of_getElem? ht, Option.bind_eq_some_iff] at hstored
    obtain ⟨s, hs, ho⟩ := hstored
    have habout := hl.isAbout receipt.ticket t s ht hs
    cases s with
    | committed offset count =>
        obtain rfl := Option.some.inj ho
        rw [Option.isSome_some, if_pos rfl, habout.1, hoffset]
    | failed offset reason => cases ho
    | abandoned offset => cases ho

/-- **The history lists the receipts whose commits went through**, in the order of issue. -/
theorem Booked.history_eq {pl : Pipeline} {p : Partition} {past : List Mark} (h : pl.Booked p past)
    (hl : pl.engine.Ledger) :
    pl.engine.broker.history p =
      ((past.filterMap Mark.receipt?).filter pl.isStored).map fun r => r.advance.offset := by
  rw [h.recorded.history, h.issued, List.filterMap_map, ← List.filterMap_eq_map,
    List.filterMap_filter]
  apply List.filterMap_congr
  intro receipt hr
  rw [Function.comp_apply, h.stored?_eq hl (Mark.mem_receipts_iff.mp hr)]
  rfl

end OffsetCommit.Pipeline
