import OffsetCommit.Proofs.Engine.Effect

/-!
# The engine runs out of work

Every move uses up some of `Engine.work`, whatever the order in which moves are made, so an engine
that is left alone makes no more moves than that.

* `work_make_lt`: `(e.make move).work < e.work` for every possible move.
* `next?_settle`: so settling goes on until no move is possible.
* `isAtRest_await`: waiting ends when the engine is as asked for, or with one at rest.
* `exists_isAtRest`: an engine that is left alone comes to rest.
-/

namespace OffsetCommit

/-! ### The values of a table -/

/-- The values of a table are those of its entries. -/
theorem Partition.values_eq {α : Type} (t : Partition.Table α) :
    t.values = t.toList.map Prod.snd := by
  obtain ⟨⟨q⟩⟩ := t
  induction q using Quotient.ind with
  | _ m =>
      show m.inner.values = (Std.DTreeMap.Internal.Impl.Const.toList m.inner).map Prod.snd
      unfold Std.DTreeMap.Internal.Impl.values Std.DTreeMap.Internal.Impl.Const.toList
      rw [Std.DTreeMap.Internal.Impl.foldr_eq_foldr, Std.DTreeMap.Internal.Impl.foldr_eq_foldr]
      induction m.inner.toListModel with
      | nil => rfl
      | cons entry rest ih => exact congrArg _ ih

/-- An element is a value if it is the entry of some partition. -/
theorem Partition.mem_values_iff {α : Type} {t : Partition.Table α} {a : α} :
    a ∈ t.values ↔ ∃ p : Partition, t[p]? = some a := by
  simp only [values_eq, List.mem_map, Prod.exists, exists_eq_right,
    Std.ExtTreeMap.mem_toList_iff_getElem?_eq_some]

/-- A table has as many values as entries. -/
theorem Partition.length_values {α : Type} (t : Partition.Table α) :
    t.values.length = t.size := by
  rw [values_eq, List.length_map, Std.ExtTreeMap.length_toList]

/-- A table that has no value twice lists each of its values once. -/
theorem Partition.nodup_values {α : Type} {t : Partition.Table α}
    (h : ∀ {p q : Partition} {a : α}, t[p]? = some a → t[q]? = some a → p = q) :
    t.values.Nodup := by
  rw [values_eq]
  refine List.pairwise_map.mpr (Std.ExtTreeMap.distinct_keys_toList.imp_of_mem ?_)
  rintro ⟨p, a⟩ ⟨q, b⟩ hp hq hne hab
  obtain rfl : a = b := hab
  rw [Std.ExtTreeMap.mem_toList_iff_getElem?_eq_some] at hp hq
  exact hne (Std.LawfulEqOrd.compare_eq_iff_eq.mpr (h hp hq))

/-! ### The work of lanes -/

/-- The moves that the lanes can still make. -/
def Lanes.work (ls : Lanes) : Nat :=
  (ls.all.toList.map Lane.work).foldr (· + ·) 0

/-- The lanes that the loop would have to wait for. -/
def Lanes.held (ls : Lanes) : Nat :=
  ls.opened.size + ls.retired.size

/-- A request that is queued is worth two moves: beginning with it and ending it. -/
@[simp] theorem Lane.work_push (lane : Lane) (r : Request) :
    (lane.push r).work = lane.work + 2 := by
  simp only [work, push, Queue.push]
  omega

/-- A new lane has two moves to make: to be woken and to end. -/
theorem Lane.work_opening_le (p : Partition) (predecessor : Option Nat) :
    (opening p predecessor).work ≤ 2 := by
  rcases predecessor with _ | k
  · exact Nat.le_succ 1
  · exact le_rfl

namespace Lanes

/-- Modifying one lane changes the work by what it changes of this lane. -/
theorem work_modify {ls : Lanes} {i : Nat} {lane : Lane} (hi : ls.all[i]? = some lane)
    (f : Lane → Lane) : (ls.modify i f).work + lane.work = ls.work + (f lane).work := by
  have hsplit := toList_eq_of_getElem? hi
  unfold work
  rw [toList_modify hi]
  conv_rhs => rw [hsplit]
  simp only [List.map_append, List.map_cons, ← List.sum_eq_foldr, List.sum_append, List.sum_cons]
  omega

/-- If `f` adds at most `n` to the work of any lane, modifying one adds at most `n`. -/
theorem work_modify_le (ls : Lanes) (i : Nat) {f : Lane → Lane} {n : Nat}
    (hf : ∀ lane, (f lane).work ≤ lane.work + n) :
    (ls.modify i f).work ≤ ls.work + n := by
  rcases hi : ls.all[i]? with _ | lane
  · rw [modify_of_getElem?_eq_none hi]
    exact Nat.le_add_right _ _
  · have hmodify := work_modify hi f
    have hlane := hf lane
    omega

/-- Changing all lanes without changing the work of any leaves the work. -/
theorem work_map {ls ls' : Lanes} {f : Lane → Lane} (hall : ls'.all = ls.all.map f)
    (hf : ∀ lane, (f lane).work = lane.work) : ls'.work = ls.work := by
  unfold work
  rw [hall, Array.toList_map, List.map_map]
  congr 1
  exact List.map_congr_left fun lane _ => hf lane

/-- Opening a lane costs at most three moves, counting the wait for it. -/
theorem work_openFor_le (ls : Lanes) (p : Partition) :
    (ls.openFor p).2.work + (ls.openFor p).2.held ≤ ls.work + ls.held + 3 := by
  have hwork : (ls.openFor p).2.work = ls.work + (Lane.opening p ls.retired[p]?).work := by
    simp [work, openFor, ← List.sum_eq_foldr, -List.foldr_append]
  have hopening := Lane.work_opening_le p ls.retired[p]?
  have hinsert : (ls.opened.insert p ls.all.size).size ≤ ls.opened.size + 1 :=
    Std.ExtTreeMap.size_insert_le
  have herase : (ls.retired.erase p).size ≤ ls.retired.size := Std.ExtTreeMap.size_erase_le
  have hheld : (ls.openFor p).2.held =
      (ls.opened.insert p ls.all.size).size + (ls.retired.erase p).size := rfl
  rw [hwork, hheld, held]
  omega

/-- The new lane has not ended. -/
theorem hasEnded_openFor (ls : Lanes) (p : Partition) :
    (ls.openFor p).2.hasEnded (ls.openFor p).1 = false := by
  have hnew : (ls.openFor p).2.all[(ls.openFor p).1]? = some (.opening p ls.retired[p]?) :=
    Array.getElem?_push_size
  rw [hasEnded, ending?, hnew]
  exact Lane.hasEnded_opening p _

/-- Sending a request to a lane costs two moves. -/
theorem work_send?_le {ls ls' : Lanes} {i : Nat} {r : Request} (h : ls.send? i r = some ls') :
    ls'.work + ls'.held ≤ ls.work + ls.held + 2 := by
  unfold send? at h
  split at h
  · cases h
  · obtain rfl := Option.some.inj h
    have hwork := ls.work_modify_le i (f := (·.push r)) fun lane => (Lane.work_push lane r).le
    have hheld : (ls.modify i (·.push r)).held = ls.held := rfl
    omega

/-- Shutting a lane costs nothing, and the loop has one lane less to wait for. -/
theorem work_shut {ls : Lanes} {p : Partition} {i : Nat} (h : ls.opened[p]? = some i) :
    (ls.shut p i).work + (ls.shut p i).held + 1 ≤ ls.work + ls.held := by
  have hwork := ls.work_modify_le i (f := .close) (n := 0) fun lane => le_rfl
  have hcontains : ls.opened.contains p = true := by
    rw [← Std.ExtTreeMap.isSome_getElem?_eq_contains, h]
    rfl
  have hsize : (ls.opened.erase p).size + 1 ≤ ls.opened.size := by
    have hpos : ls.opened.size ≠ 0 := by
      intro hzero
      rw [Std.ExtTreeMap.eq_empty_iff_size_eq_zero.mpr hzero] at hcontains
      simp at hcontains
    rw [Std.ExtTreeMap.size_erase, if_pos hcontains]
    omega
  have hshut : (ls.shut p i).work = (ls.modify i .close).work := rfl
  have hheld : (ls.shut p i).held = (ls.opened.erase p).size + ls.retired.size := rfl
  rw [hshut, hheld, held]
  omega

/-- Handing a request to the lanes costs at most five moves. -/
theorem work_route_le (ls : Lanes) (r : Request) :
    (ls.route r).lanes.work + (ls.route r).lanes.held ≤ ls.work + ls.held + 5 := by
  have hopenFor := ls.work_openFor_le r.partition
  rcases hopened : ls.opened[r.partition]? with _ | i
  · -- a lane that was just opened takes the request
    have hlane : ls.laneFor r.partition = ls.openFor r.partition := by
      rw [laneFor, hopened]
    have hsend : (ls.openFor r.partition).2.send? (ls.openFor r.partition).1 r =
        some ((ls.openFor r.partition).2.modify (ls.openFor r.partition).1 (·.push r)) := by
      rw [send?, hasEnded_openFor]
      rfl
    have hle := work_send?_le hsend
    unfold route
    simp only [hlane, hsend]
    omega
  · have hlane : ls.laneFor r.partition = (i, ls) := by
      rw [laneFor, hopened]
    unfold route
    simp only [hlane]
    rcases hsend : ls.send? i r with _ | ls'
    · have hshut := work_shut hopened
      have hagain : (ls.shut r.partition i).laneFor r.partition =
          (ls.shut r.partition i).openFor r.partition := by
        have hnone : (ls.shut r.partition i).opened[r.partition]? = none :=
          (Partition.getElem?_erase ls.opened r.partition r.partition).trans (if_pos rfl)
        rw [laneFor, hnone]
      have hreopen := (ls.shut r.partition i).work_openFor_le r.partition
      simp only [hagain]
      rcases hresend : ((ls.shut r.partition i).openFor r.partition).2.send?
          ((ls.shut r.partition i).openFor r.partition).1 r with _ | ls'
      · dsimp only
        omega
      · have hle := work_send?_le hresend
        dsimp only
        omega
    · have hle := work_send?_le hsend
      dsimp only
      omega

/-- Revoking a partition costs nothing. -/
theorem work_revoke_le (ls : Lanes) (p : Partition) :
    (ls.revoke p).1.work + (ls.revoke p).1.held ≤ ls.work + ls.held := by
  have hfilter : ls.prune.retired.size ≤ ls.retired.size := Std.ExtTreeMap.size_filter_le_size
  have hprune : ls.prune.held ≤ ls.held := Nat.add_le_add_left hfilter _
  have hwork : ls.prune.work = ls.work := rfl
  unfold revoke
  dsimp only
  split
  · show ls.prune.work + ls.prune.held ≤ _
    omega
  · next i hopened =>
      have hshut := work_shut hopened
      have hinsert : (ls.prune.retired.insert p i).size ≤ ls.prune.retired.size + 1 :=
        Std.ExtTreeMap.size_insert_le
      have hheld : (ls.prune.shut p i).held =
          (ls.prune.shut p i).opened.size + ls.prune.retired.size := rfl
      show (ls.prune.shut p i).work +
        ((ls.prune.shut p i).opened.size + (ls.prune.retired.insert p i).size) ≤ _
      omega

/-- Draining the lanes leaves their work, and the loop waits for as many as are `held`. -/
theorem work_drain (ls : Lanes) :
    ls.drain.2.work = ls.work ∧ ls.drain.1.length = ls.held := by
  refine ⟨work_map (f := .close) rfl fun _ => rfl, ?_⟩
  show (ls.retired.values ++ ls.opened.values).length = ls.opened.size + ls.retired.size
  rw [List.length_append, Partition.length_values, Partition.length_values, Nat.add_comm]

/-- Whatever a lane does by itself uses up work. -/
theorem Progress.work_lt {ls ls' : Lanes} (h : ls.Progress ls') : ls'.work < ls.work := by
  have hless : ∀ {i : Nat} {lane : Lane} {f : Lane → Lane}, ls.all[i]? = some lane →
      (f lane).work < lane.work → (ls.modify i f).work < ls.work := by
    intro i lane f hi hlt
    have hmodify := work_modify hi f
    omega
  cases h with
  | @woken i lane k hi hphase _ =>
      refine hless hi ?_
      simp [Lane.work, hphase]
  | @begun i lane r rest hi hphase hpop due =>
      refine hless hi ?_
      have hsize := congrArg List.length (Queue.toList_of_pop? hpop)
      rw [List.length_cons, Queue.length_toList, Queue.length_toList] at hsize
      simp only [Lane.work, hphase]
      omega
  | @decided i lane r due hi hphase =>
      refine hless hi ?_
      simp [Lane.work, hphase]
  | @crashed i lane r due hi hphase =>
      refine hless hi ?_
      have hnothing : ({ lane with queue := .empty, phase := .ended true } : Lane).work = 0 := rfl
      rw [hnothing, Lane.work, hphase]
      exact Nat.succ_pos _
  | @finished i lane hi hphase _ _ =>
      refine hless hi ?_
      simp [Lane.work, hphase]

/-- A step of `Progress` leaves the number of lanes that the loop would have to wait for. -/
theorem Progress.held_eq {ls ls' : Lanes} (h : ls.Progress ls') : ls'.held = ls.held := by
  cases h <;> rfl

/-- The loop waits for the lanes in the hands of partitions: those with `IsHead p i`. -/
theorem mem_drain_iff {ls : Lanes} {i : Nat} : i ∈ ls.drain.1 ↔ ∃ p, ls.IsHead p i := by
  simp only [drain, List.mem_append, Partition.mem_values_iff, IsHead, exists_or, or_comm]

end Lanes

namespace Engine

/-! ### Every move uses up work -/

/-- The work of an engine: its direct calls, the commands in its mailbox, the loop and the lanes. -/
theorem work_eq (e : Engine) : e.work =
    e.pendingCalls.length + (e.mailbox.toList.map Command.work).foldr (· + ·) 0 + e.loopWork +
      e.lanes.work :=
  rfl

/-- A loop that serves has to begin to drain, to collect each lane that is held, and to stop. -/
theorem loopWork_of_serving {e : Engine} (h : e.stage = .serving) :
    e.loopWork = e.lanes.held + 2 := by
  rw [loopWork, h]
  rfl

/-- The work of the loop depends on its stage and on how many lanes are held. -/
theorem loopWork_congr {e e' : Engine} (hstage : e'.stage = e.stage)
    (hheld : e'.lanes.held = e.lanes.held) : e'.loopWork = e.loopWork := by
  unfold loopWork
  rw [hstage]
  split
  · exact congrArg (· + 2) hheld
  · rfl
  · rfl

/-- The work of an engine depends on lanes, direct calls, mailbox and stage. -/
theorem work_congr {e e' : Engine} (hlanes : e'.lanes = e.lanes)
    (hcalls : e'.pendingCalls = e.pendingCalls) (hmailbox : e'.mailbox = e.mailbox)
    (hstage : e'.stage = e.stage) : e'.work = e.work := by
  have hheld : e'.lanes.held = e.lanes.held := by
    rw [hlanes]
  rw [work_eq, work_eq, hlanes, hcalls, hmailbox, loopWork_congr hstage hheld]

/-- Answering a direct call uses up work. -/
theorem work_answerCall {e : Engine} {place : Nat}
    (h : e.isPossible (.answer place) = true) : (e.answerCall place).work < e.work := by
  rcases hplace : e.pendingCalls[place]? with _ | c
  · rw [isPossible, hplace] at h
    cases h
  · obtain ⟨hlt, -⟩ := List.getElem?_eq_some_iff.mp hplace
    have hanswered : (e.answerCall place).work =
        ({ e with pendingCalls := e.pendingCalls.eraseIdx place } : Engine).work := by
      unfold answerCall
      rw [hplace]
      exact work_congr rfl rfl rfl rfl
    have hloop : ({ e with pendingCalls := e.pendingCalls.eraseIdx place } : Engine).loopWork =
        e.loopWork := rfl
    have hlength := List.length_eraseIdx_of_lt hlt
    rw [hanswered, work_eq, work_eq, hloop]
    dsimp only
    omega

/-- A loop that begins to drain has one thing less to do. -/
theorem work_beginDrain {e : Engine} (h : e.stage = .serving) (caller : Option Nat) :
    (e.beginDrain caller).work < e.work := by
  obtain ⟨hwork, hlength⟩ := e.lanes.work_drain
  have hloop : (e.beginDrain caller).loopWork = e.lanes.drain.1.length + 1 := rfl
  have hlanes : (e.beginDrain caller).lanes = e.lanes.drain.2 := rfl
  have hcalls : (e.beginDrain caller).pendingCalls = e.pendingCalls := rfl
  have hmailbox : (e.beginDrain caller).mailbox = e.mailbox := rfl
  rw [work_eq, work_eq, hloop, hlanes, hcalls, hmailbox, hwork, hlength, loopWork_of_serving h]
  omega

/-- Obeying a commit costs at most five moves, less than the command was worth. -/
theorem work_obey_commit {e : Engine} (h : e.stage = .serving) (r : Request) :
    (e.obey (.commit r)).work ≤ e.work + 5 := by
  have hle := e.lanes.work_route_le r
  have hstage : (e.obey (.commit r)).stage = .serving := by
    simp only [obey, route]
    split <;> exact h
  have hlanes : (e.obey (.commit r)).lanes = (e.lanes.route r).lanes := by
    simp only [obey, route]
    split <;> rfl
  have hcalls : (e.obey (.commit r)).pendingCalls = e.pendingCalls := by
    simp only [obey, route]
    split <;> rfl
  have hmailbox : (e.obey (.commit r)).mailbox = e.mailbox := by
    simp only [obey, route]
    split <;> rfl
  rw [work_eq, work_eq, hcalls, hmailbox, loopWork_of_serving hstage, loopWork_of_serving h, hlanes]
  omega

/-- Obeying a revocation costs nothing. -/
theorem work_obey_revoke {e : Engine} (h : e.stage = .serving) (p : Partition) :
    (e.obey (.revoke p)).work ≤ e.work := by
  have hle := e.lanes.work_revoke_le p
  have hstage : (e.obey (.revoke p)).stage = .serving := h
  have hlanes : (e.obey (.revoke p)).lanes = (e.lanes.revoke p).1 := rfl
  have hcalls : (e.obey (.revoke p)).pendingCalls = e.pendingCalls := rfl
  have hmailbox : (e.obey (.revoke p)).mailbox = e.mailbox := rfl
  rw [work_eq, work_eq, hcalls, hmailbox, loopWork_of_serving hstage, loopWork_of_serving h, hlanes]
  omega

/-- Taking a command uses up work. -/
theorem work_takeCommand {e : Engine} (h : e.isPossible .take = true) :
    e.takeCommand.work < e.work := by
  rw [isPossible, Bool.and_eq_true, decide_eq_true_eq, Bool.not_eq_true'] at h
  obtain ⟨hstage, hmailbox⟩ := h
  unfold takeCommand
  rcases hpop : e.mailbox.pop? with _ | ⟨command, rest⟩
  · rw [Queue.isEmpty_iff.mpr (Queue.pop?_eq_none_iff.mp hpop)] at hmailbox
    cases hmailbox
  have htaken : ({ e with mailbox := rest } : Engine).work + command.work = e.work := by
    have hloop : ({ e with mailbox := rest } : Engine).loopWork = e.loopWork := rfl
    rw [work_eq, work_eq, Queue.toList_of_pop? hpop, List.map_cons, List.foldr_cons, hloop]
    dsimp only
    omega
  have hserving : ({ e with mailbox := rest } : Engine).stage = .serving := hstage
  cases command with
  | commit r =>
      have hle := work_obey_commit hserving r
      have hcost : (Command.commit r).work = 6 := rfl
      dsimp only
      omega
  | revoke p =>
      have hle := work_obey_revoke hserving p
      have hcost : (Command.revoke p).work = 1 := rfl
      dsimp only
      omega
  | shutdown caller =>
      have hlt := work_beginDrain hserving (some caller)
      have hobey : ({ e with mailbox := rest } : Engine).obey (.shutdown caller) =
          ({ e with mailbox := rest } : Engine).beginDrain (some caller) := rfl
      dsimp only
      rw [hobey]
      omega

/-- The work of a lane uses up work. -/
theorem work_workLane {e : Engine} {i : Nat} (h : e.isPossible (.work i) = true) :
    (e.workLane i).work < e.work := by
  obtain ⟨hstage, hmailbox, -, hcalls⟩ := e.workLane_frame i
  have hprogress := progress_workLane h
  have hless := hprogress.work_lt
  rw [work_eq, work_eq, hcalls, hmailbox, loopWork_congr hstage hprogress.held_eq]
  omega

/-- Collecting an ended lane uses up work. -/
theorem work_collect {e : Engine} (h : e.isPossible .collect = true) :
    e.collect.work < e.work := by
  rw [isPossible] at h
  split at h
  · next caller i rest hstage =>
      have hbefore : e.loopWork = rest.length + 2 := by
        rw [loopWork, hstage]
        rfl
      have hafter : ({ e with stage := .draining caller rest } : Engine).work + 1 = e.work := by
        have hloop : ({ e with stage := .draining caller rest } : Engine).loopWork =
          rest.length + 1 := rfl
        rw [work_eq, work_eq, hbefore, hloop]
        dsimp only
        omega
      have hcollect : e.collect.work =
          ({ e with stage := .draining caller rest } : Engine).work := by
        unfold collect
        rw [hstage]
        exact work_congr rfl rfl rfl rfl
      omega
  · cases h

/-- Ending the loop uses up work. -/
theorem work_stop {e : Engine} (h : e.isPossible .stop = true) : e.stop.work < e.work := by
  rw [isPossible] at h
  split at h
  · next caller hstage =>
      have hbefore : e.loopWork = 1 := by
        rw [loopWork, hstage]
        rfl
      obtain ⟨callers, heq⟩ := e.stop_eq
      have hafter : e.stop.work = e.pendingCalls.length + e.lanes.work := by
        rw [heq, work_eq]
        exact Nat.add_right_cancel_iff.mpr rfl
      rw [hafter, work_eq]
      omega
  · cases h

/-- **Every move uses up work**, so no order of moves goes on for longer than `Engine.work`. -/
theorem work_make_lt {e : Engine} {move : Move} (h : e.isPossible move = true) :
    (e.make move).work < e.work := by
  cases move with
  | answer place => exact work_answerCall h
  | take => exact work_takeCommand h
  | hangUp =>
      rw [isPossible, Bool.and_eq_true, Bool.and_eq_true, decide_eq_true_eq] at h
      exact work_beginDrain h.1.1 none
  | work lane => exact work_workLane h
  | collect => exact work_collect h
  | stop => exact work_stop h

/-! ### What clients add -/

/-- A command that is posted adds `command.work`. -/
theorem work_of_push {e e' : Engine} (hlanes : e'.lanes = e.lanes)
    (hcalls : e'.pendingCalls = e.pendingCalls) (hstage : e'.stage = e.stage) {command : Command}
    (hmailbox : e'.mailbox.toList = e.mailbox.toList ++ [command]) :
    e'.work = e.work + command.work := by
  have hheld : e'.lanes.held = e.lanes.held := by
    rw [hlanes]
  rw [work_eq, work_eq, hlanes, hcalls, hmailbox, loopWork_congr hstage hheld, List.map_append]
  simp only [← List.sum_eq_foldr, List.sum_append, List.map_cons, List.map_nil, List.sum_cons,
    List.sum_nil]
  omega

/-- Issuing a commit adds at most six moves. -/
theorem work_submit_le (e : Engine) (p : Partition) (o : Offset) (count : Nat) :
    (e.submit p o count).work ≤ e.work + 6 := by
  unfold submit
  dsimp only
  split
  · exact Nat.le_add_right _ _
  · refine Nat.le_of_eq (Eq.trans (work_of_push ?_ ?_ ?_ (e.mailbox.toList_push _)) ?_)
    all_goals rfl

/-- Revoking a partition adds at most one move. -/
theorem work_revoke_le (e : Engine) (p : Partition) : (e.revoke p).work ≤ e.work + 1 := by
  unfold revoke
  split
  · exact Nat.le_add_right _ _
  · refine Nat.le_of_eq (Eq.trans (work_of_push ?_ ?_ ?_ (e.mailbox.toList_push _)) ?_)
    all_goals rfl

/-- Revoking several partitions adds at most one move for each. -/
theorem work_run_revoke_le (e : Engine) (partitions : List Partition) :
    (e.run (partitions.map .revoke)).work ≤ e.work + partitions.length := by
  induction partitions generalizing e with
  | nil => exact Nat.le_refl _
  | cons p rest ih =>
      have hfirst := e.work_revoke_le p
      have hrest : ((e.act (.revoke p)).run (rest.map .revoke)).work ≤ _ := ih _
      rw [List.map_cons, run_cons, List.length_cons]
      simp only [act] at hrest ⊢
      omega

/-- Asking for a shutdown adds at most one move. -/
theorem work_shutdown_le (e : Engine) : e.shutdown.work ≤ e.work + 1 := by
  unfold shutdown
  dsimp only
  split
  · exact Nat.le_add_right _ _
  · refine Nat.le_of_eq (Eq.trans (work_of_push ?_ ?_ ?_ (e.mailbox.toList_push _)) ?_)
    all_goals rfl

/-! ### Settling and waiting -/

/-- Making moves does not add work. -/
theorem work_runMoves_le (fuel : Nat) (e : Engine) : (runMoves fuel e).work ≤ e.work := by
  induction fuel generalizing e with
  | zero => exact le_rfl
  | succ fuel ih =>
      unfold runMoves
      rcases hnext : e.next? with _ | move
      · exact le_rfl
      · exact (ih _).trans (work_make_lt (isPossible_of_next? hnext)).le

/-- With as much fuel as work, `runMoves` goes on until no move is possible. -/
theorem next?_runMoves {fuel : Nat} {e : Engine} (h : e.work ≤ fuel) :
    (runMoves fuel e).next? = none := by
  induction fuel generalizing e with
  | zero =>
      rcases hnext : e.next? with _ | move
      · exact hnext
      · have hlt := work_make_lt (isPossible_of_next? hnext)
        omega
  | succ fuel ih =>
      unfold runMoves
      rcases hnext : e.next? with _ | move
      · exact hnext
      · have hlt := work_make_lt (isPossible_of_next? hnext)
        apply ih
        omega

/-- **Settling goes on until no move is possible**: `e.settle.next? = none`. -/
theorem next?_settle (e : Engine) : e.settle.next? = none :=
  next?_runMoves le_rfl

/-- Where no move is possible, none is made. -/
theorem runMoves_of_next? {e : Engine} (h : e.next? = none) (fuel : Nat) : runMoves fuel e = e := by
  cases fuel with
  | zero => rfl
  | succ fuel => rw [runMoves, h]

/-- More fuel than there is work makes no difference. -/
theorem runMoves_of_work_le {fuel fuel' : Nat} {e : Engine} (h : e.work ≤ fuel)
    (h' : e.work ≤ fuel') : runMoves fuel e = runMoves fuel' e := by
  induction fuel generalizing e fuel' with
  | zero =>
      rcases hnext : e.next? with _ | move
      · rw [runMoves_of_next? hnext, runMoves_of_next? hnext]
      · have hlt := work_make_lt (isPossible_of_next? hnext)
        omega
  | succ fuel ih =>
      rcases hnext : e.next? with _ | move
      · rw [runMoves_of_next? hnext, runMoves_of_next? hnext]
      · have hlt := work_make_lt (isPossible_of_next? hnext)
        obtain ⟨fuel', rfl⟩ : ∃ n, fuel' = n + 1 := ⟨fuel' - 1, by omega⟩
        simp only [runMoves, hnext]
        exact ih (by omega) (by omega)

/-- An engine that has settled stays as it is. -/
theorem settle_of_next?_eq_none {e : Engine} (h : e.next? = none) : e.settle = e :=
  runMoves_of_next? h _

/-- Settling begins with the next move. -/
theorem settle_of_next? {e : Engine} {move : Move} (h : e.next? = some move) :
    e.settle = (e.make move).settle := by
  have hlt := work_make_lt (isPossible_of_next? h)
  obtain ⟨fuel, hfuel⟩ : ∃ fuel, e.work = fuel + 1 := ⟨e.work - 1, by omega⟩
  have hsettle : e.settle = runMoves fuel (e.make move) := by
    rw [settle, hfuel, runMoves, h]
  rw [hsettle]
  exact runMoves_of_work_le (by omega) le_rfl

/-- Settling does not add work. -/
theorem work_settle_le (e : Engine) : e.settle.work ≤ e.work :=
  work_runMoves_le e.work e

/-- Settling uses up work if a move is possible. -/
theorem work_settle_lt {e : Engine} {move : Move} (h : e.next? = some move) :
    e.settle.work < e.work := by
  have hlt := work_make_lt (isPossible_of_next? h)
  obtain ⟨fuel, hfuel⟩ : ∃ fuel, e.work = fuel + 1 := ⟨e.work - 1, by omega⟩
  have hsettle : e.settle = runMoves fuel (e.make move) := by
    rw [settle, hfuel, runMoves, h]
  rw [hsettle]
  exact (work_runMoves_le fuel _).trans_lt hlt

/-- Whether no part of an engine can move and no commit is under way. -/
def IsAtRest (e : Engine) : Prop :=
  e.next? = none ∧ e.nextDue? = none

/-- When the time of the earliest commit under way has come, there is a move to make. -/
theorem next?_passTo_ne_none {e : Engine} {due : Nat} (h : e.nextDue? = some due) :
    (e.passTo due).next? ≠ none := by
  intro hnone
  rcases List.mem_append.mp (List.min?_mem h) with hcall | hlane
  · obtain ⟨c, hc, rfl⟩ := List.mem_map.mp hcall
    obtain ⟨place, hplace⟩ := List.getElem?_of_mem hc
    have hnot := isPossible_eq_false_of_next? hnone (.answer place)
    simp [isPossible, passTo, canAnswer, hplace] at hnot
  · obtain ⟨lane, hmem, hdue⟩ := List.mem_filterMap.mp hlane
    obtain ⟨i, hi⟩ := Array.getElem?_of_mem (Array.mem_toList_iff.mp hmem)
    have hnot := isPossible_eq_false_of_next? hnone (.work i)
    unfold Lane.due? at hdue
    split at hdue
    · next r due' hphase =>
        obtain rfl := Option.some.inj hdue
        simp [isPossible, passTo, canWork, hi, hphase] at hnot
    · cases hdue

/-- Passing to that time and settling uses up work. -/
theorem work_settle_passTo_lt {e : Engine} {due : Nat} (h : e.nextDue? = some due) :
    (e.passTo due).settle.work < e.work := by
  obtain ⟨move, hnext⟩ := Option.ne_none_iff_exists'.mp (next?_passTo_ne_none h)
  have hpassed : (e.passTo due).work = e.work := work_congr rfl rfl rfl rfl
  exact hpassed ▸ work_settle_lt hnext

/-- With enough fuel, waiting ends with an engine that is as asked for or at rest. -/
theorem isAtRest_awaitWithin {fuel : Nat} {isDone : Engine → Bool} {e : Engine}
    (h : e.settle.work ≤ fuel) :
    isDone (awaitWithin fuel isDone e) = true ∨ (awaitWithin fuel isDone e).IsAtRest := by
  induction fuel generalizing e with
  | zero =>
      refine .inr ⟨next?_settle e, ?_⟩
      rcases hdue : e.settle.nextDue? with _ | due
      · exact hdue
      · have hlt := work_settle_passTo_lt hdue
        omega
  | succ fuel ih =>
      unfold awaitWithin
      dsimp only
      split
      · next hdone => exact .inl hdone
      · rcases hdue : e.settle.nextDue? with _ | due
        · exact .inr ⟨next?_settle e, hdue⟩
        · have hlt := work_settle_passTo_lt hdue
          apply ih
          omega

/-- **Waiting ends** with an engine that is as asked for, or with one at rest. -/
theorem isAtRest_await (isDone : Engine → Bool) (e : Engine) :
    isDone (e.await isDone) = true ∨ (e.await isDone).IsAtRest :=
  isAtRest_awaitWithin e.work_settle_le

/-- An engine that is left alone comes to rest by internal actions. -/
theorem exists_isAtRest (e : Engine) : ∃ actions : List EngineAction,
    (∀ a ∈ actions, a.isInternal = true) ∧ (e.run actions).IsAtRest := by
  obtain ⟨actions, hinternal, hawait⟩ := e.runsTo_await fun _ => false
  refine ⟨actions, hinternal, ?_⟩
  rcases e.isAtRest_await fun _ => false with hdone | hrest
  · cases hdone
  · exact hawait ▸ hrest

end Engine

end OffsetCommit
