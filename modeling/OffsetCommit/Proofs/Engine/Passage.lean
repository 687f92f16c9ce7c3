import OffsetCommit.Proofs.Engine.Turns
import OffsetCommit.Proofs.Lanes.Custody

/-!
# The way of a commit through the engine

Every action does one of four things to the requests in the lanes: it leaves them alone, hands one
to a single lane, brings the first of a lane to its decision, or brings down a lane with all that it
holds. `Engine.Passage` lists them, and it says with each of them which request the loop has taken
from the mailbox and on which one the client of the broker has crashed.

* `passage_act`: every action is a `Passage`. The cases are `passage_takeCommand`,
  `passage_conclude` and `passage_crash`.

Statements about what becomes of the requests of a lane argue by these cases alone.
-/

namespace OffsetCommit.Engine

/-! ### What can be observed of an action -/

/-- The commit that the loop takes from its mailbox by `.move .take`, if the oldest command is one;
`[]` for any other action. -/
def takes (e : Engine) : EngineAction → List Request
  | .move .take =>
      if e.isPossible .take then (e.mailbox.toList.head?.bind Command.request?).toList else []
  | _ => []

/-- The requests that are pending in lane `i` after `a` and were not before. -/
def enters (e : Engine) (i : Nat) (a : EngineAction) : List Request :=
  ((e.act a).lanes.pendingIn i).filter fun r => r ∉ e.lanes.pendingIn i

/-- The request of lane `i` on which the client of the broker crashes by `.move (.work i)`: the one
under way, if its offset is in `e.setup.crashesAt`. -/
def crashes (e : Engine) (i : Nat) : EngineAction → List Request
  | .move (.work j) =>
      if e.isPossible (.work j) ∧ j = i then
        ((e.lanes.all[i]?.bind Lane.current?).filter fun r => r.offset ∈ e.setup.crashesAt).toList
      else []
  | _ => []

/-- What `observe` shows of each action of a run in the state that it finds, one after the other. -/
def along {α : Type} (observe : Engine → EngineAction → List α) (e : Engine) :
    List EngineAction → List α
  | [] => []
  | a :: rest => observe e a ++ (e.act a).along observe rest

/-- What is observed along two runs is observed along the first and then along the second. -/
theorem along_append {α : Type} (observe : Engine → EngineAction → List α) (e : Engine)
    (first second : List EngineAction) :
    e.along observe (first ++ second) =
      e.along observe first ++ (e.run first).along observe second := by
  induction first generalizing e with
  | nil => rfl
  | cons a rest ih =>
      rw [List.cons_append, along, along, ih, List.append_assoc]
      rfl

/-- The commits that the loop has taken along a run, in this order: `takes` of one action after the
other. -/
def taken (e : Engine) (actions : List EngineAction) : List Request :=
  e.along takes actions

/-- The requests that lane `i` has been handed along a run, in this order: `enters` of one action
after the other. -/
def accepted (e : Engine) (i : Nat) (actions : List EngineAction) : List Request :=
  e.along (fun e a => e.enters i a) actions

/-- The requests of lane `i` on which the client of the broker has crashed along a run: `crashes` of
one action after the other. -/
def crashed (e : Engine) (i : Nat) (actions : List EngineAction) : List Request :=
  e.along (fun e a => e.crashes i a) actions

/-! ### What an action does to the requests in the lanes -/

/-- What an action does to the requests in the lanes, told by `takes`, `crashes` and what is pending
in each lane. `passage_act` shows that every action does one of these. -/
inductive Passage (e : Engine) (a : EngineAction) (e' : Engine) : Prop where
  /-- Every lane holds what it held. -/
  | stays (takes : e.takes a = []) (crashes : ∀ i, e.crashes i a = [])
      (pendingIn : ∀ j, e'.lanes.pendingIn j = e.lanes.pendingIn j)
  /-- The loop takes the oldest command, and its request is handed to one lane. -/
  | handed (r : Request) (k : Nat) (serving : e.stage = .serving) (takes : e.takes a = [r])
      (crashes : ∀ i, e.crashes i a = [])
      (mailbox : e.mailbox.toList = .commit r :: e'.mailbox.toList)
      (handed : e.lanes.Handed e'.lanes r k)
  /-- The broker decides the first request of a lane. -/
  | decided (r : Request) (i : Nat) (takes : e.takes a = []) (crashes : ∀ i, e.crashes i a = [])
      (pendingIn : ∀ j, e.lanes.pendingIn j =
        (if i = j then [r] else []) ++ e'.lanes.pendingIn j)
      (decided : e'.isDecided r.ticket = true)
  /-- The client crashes on the first request of a lane, and all that the lane holds is given
  up. -/
  | crashed (r : Request) (i : Nat) (behind : List Request) (takes : e.takes a = [])
      (crashes : ∀ j, e.crashes j a = if i = j then [r] else [])
      (held : e.lanes.pendingIn i = r :: behind)
      (pendingIn : ∀ j, e'.lanes.pendingIn j = if i = j then [] else e.lanes.pendingIn j)
      (abandoned : ∀ x ∈ r :: behind, e'.isAbandoned x.ticket = true)
      (ended : e'.lanes.hasEnded i = true)

/-- Only `.take` takes a commit. -/
theorem takes_eq_nil {e : Engine} {a : EngineAction} (h : a ≠ .move .take) : e.takes a = [] := by
  unfold takes
  split
  · exact absurd rfl h
  · rfl

/-- Only the work of a lane can crash. -/
theorem crashes_eq_nil {e : Engine} {a : EngineAction} (h : ∀ i, a ≠ .move (.work i)) (j : Nat) :
    e.crashes j a = [] := by
  unfold crashes
  split
  · next i => exact absurd rfl (h i)
  · rfl

/-- A move that is not possible takes nothing. -/
theorem takes_of_impossible {e : Engine} {move : Move} (h : e.isPossible move = false) :
    e.takes (.move move) = [] := by
  unfold takes
  split
  · next heq =>
      cases heq
      rw [h]
      rfl
  · rfl

/-- A move that is not possible is the case `Passage.stays`: it takes nothing and crashes nowhere. -/
theorem Passage.of_impossible {e : Engine} {move : Move} (h : e.isPossible move = false) :
    e.Passage (.move move) e := by
  refine .stays (takes_of_impossible h) (fun i => ?_) fun j => rfl
  unfold crashes
  split
  · next heq =>
      cases heq
      rw [h]
      simp
  · rfl

/-- A move that is not possible leaves the engine as it was. -/
theorem act_move_of_impossible {e : Engine} {move : Move} (h : e.isPossible move = false) :
    e.act (.move move) = e := by
  rw [act, perform, h]
  rfl

/-- A crash happens to the commit that lane `i` has under way, and the action is `e.crash i lane x`. -/
theorem exists_committing_of_crashes {e : Engine} {i : Nat} {a : EngineAction} {x : Request}
    (hx : x ∈ e.crashes i a) : ∃ lane due, e.lanes.all[i]? = some lane ∧
      lane.phase = .committing x due ∧ e.act a = e.crash i lane x := by
  unfold crashes at hx
  split at hx
  · next j =>
      split at hx
      · next hpossible =>
          obtain ⟨hpossible, rfl⟩ := hpossible
          rw [Option.mem_toList, Option.filter_eq_some_iff] at hx
          obtain ⟨hcurrent, hcrash⟩ := hx
          obtain ⟨lane, hj, hlane⟩ := Option.bind_eq_some_iff.mp hcurrent
          obtain ⟨due, hphase⟩ := Lane.phase_of_current? hlane
          refine ⟨lane, due, hj, hphase, ?_⟩
          rw [act_move_of_isPossible hpossible, make, workLane, hj]
          simp only [hphase, if_pos (of_decide_eq_true hcrash)]
      · cases hx
  · cases hx

/-- The command that the loop takes is the first of the mailbox, and the others stay; `takes` has
its request. -/
theorem exists_command {e : Engine} (h : e.isPossible .take = true) :
    ∃ command rest, e.mailbox.pop? = some (command, rest) ∧
      e.mailbox.toList = command :: rest.toList ∧
      e.takes (.move .take) = command.request?.toList := by
  rcases hpop : e.mailbox.pop? with _ | ⟨command, rest⟩
  · rw [isPossible, Queue.isEmpty_iff.mpr (Queue.pop?_eq_none_iff.mp hpop)] at h
    simp at h
  · have hmail := Queue.toList_of_pop? hpop
    refine ⟨command, rest, rfl, hmail, ?_⟩
    rw [takes, if_pos h, hmail, List.head?_cons, Option.bind_some]

/-- The command that is taken is handed on (`Passage.handed`), or it is not a commit
(`Passage.stays`). -/
theorem passage_takeCommand {e : Engine} (h : e.Sound) (hpossible : e.isPossible .take = true) :
    e.Passage (.move .take) e.takeCommand := by
  have hserving := serving_of_isPossible (.inl rfl) hpossible
  have hcrashes : ∀ i, e.crashes i (.move .take) = [] := crashes_eq_nil (by simp)
  obtain ⟨command, rest, hpop, hmail, htakes⟩ := exists_command hpossible
  simp only [takeCommand, hpop]
  cases command with
  | commit r =>
      obtain ⟨k, hhanded⟩ := Lanes.exists_handed h.wellFormed (h.tended hserving) r
      have haccepted := (Lanes.route_spec h.wellFormed (h.tended hserving) r).1
      simp only [obey, route, haccepted, if_true]
      exact .handed r k hserving htakes hcrashes hmail hhanded
  | revoke p => exact .stays htakes hcrashes (Lanes.pendingIn_revoke e.lanes p)
  | shutdown caller => exact .stays htakes hcrashes (Lanes.pendingIn_drain e.lanes)

/-- A change of phase that keeps the current request keeps what every lane holds. -/
theorem pendingIn_setPhase_of_eq {e : Engine} {i : Nat} {lane : Lane}
    (hi : e.lanes.all[i]? = some lane) {phase : Phase}
    (hcurrent : ({ lane with phase := phase } : Lane).current? = lane.current?) (j : Nat) :
    (e.setPhase i phase).lanes.pendingIn j = e.lanes.pendingIn j := by
  refine Lanes.pendingIn_modify_of_eq (f := fun lane => { lane with phase := phase })
    (fun other hother => ?_) j
  obtain rfl := Option.some.inj (hi.symm.trans hother)
  rw [Lane.pending, Lane.pending, hcurrent]

/-- A free lane goes on with its first request, which it still holds. -/
theorem pendingIn_proceed {e : Engine} {i : Nat} {lane : Lane} (hi : e.lanes.all[i]? = some lane)
    (hphase : lane.phase = .ready) (j : Nat) :
    (e.proceed i lane).lanes.pendingIn j = e.lanes.pendingIn j := by
  have hcurrent : lane.current? = none := by rw [Lane.current?, hphase]
  unfold proceed
  rcases hpop : lane.queue.pop? with _ | ⟨r, rest⟩
  · exact pendingIn_setPhase_of_eq hi (by rw [hcurrent]; rfl) j
  · refine Lanes.pendingIn_modify_of_eq (fun other hother => ?_) j
    obtain rfl := Option.some.inj (hi.symm.trans hother)
    rw [Lane.pending, Lane.pending, hcurrent, Queue.toList_of_pop? hpop]
    rfl

/-- The ticket of a commit that is concluded has the decision. -/
theorem isDecided_conclude {e : Engine} (h : e.Sound) (hl : e.Ledger) {i : Nat} {lane : Lane}
    (hi : e.lanes.all[i]? = some lane) {r : Request} {due : Nat}
    (hphase : lane.phase = .committing r due) :
    (e.conclude i lane r).isDecided r.ticket = true := by
  have hheld := (h.mem_pending_of_committing hi hphase List.mem_cons_self).2
  obtain ⟨journal, observed, heq⟩ := e.conclude_eq i lane r
  have hticket : (e.finish r.ticket
      (r.verdict (e.broker.commit lane.partition r.offset).1)).tickets[r.ticket]? =
        some ⟨r.partition, r.offset, r.count,
          some (r.verdict (e.broker.commit lane.partition r.offset).1)⟩ := by
    refine Array.getElem?_modify.trans ?_
    rw [if_pos rfl, hl.ticket _ r hheld]
    rfl
  rw [heq, isDecided, status?, hticket]
  rcases (e.broker.commit lane.partition r.offset).1 with error | ⟨⟨⟩⟩
  · rfl
  · rfl

/-- A commit that is concluded leaves its lane: the case `Passage.decided`. -/
theorem passage_conclude {e : Engine} (h : e.Sound) (hl : e.Ledger) {i : Nat} {lane : Lane}
    (hi : e.lanes.all[i]? = some lane) {r : Request} {due : Nat}
    (hphase : lane.phase = .committing r due) {a : EngineAction} (htakes : e.takes a = [])
    (hcrashes : ∀ j, e.crashes j a = []) : e.Passage a (e.conclude i lane r) := by
  have hpending := (h.of_committing hi hphase).2.2.1
  refine .decided r i htakes hcrashes (fun j => ?_) (isDecided_conclude h hl hi hphase)
  obtain ⟨journal, observed, heq⟩ := e.conclude_eq i lane r
  have hready := Lanes.pendingIn_modify e.lanes i (fun lane => { lane with phase := .ready }) j
  rw [heq]
  show _ = _ ++ (e.lanes.modify i _).pendingIn j
  rw [hready]
  split
  · next hij =>
      subst hij
      rw [hi, Option.map_some, Option.getD_some, Lanes.pendingIn_of_getElem? hi, hpending]
      rfl
  · rfl

/-- Requests that are given up have it on their tickets. -/
theorem isAbandoned_of_concludes {e e' : Engine} {gone : List Request}
    (h : Concludes e.tickets e'.tickets gone fun r => .abandoned r.offset) {r : Request}
    (hr : r ∈ gone) {t : Ticket} (ht : e.tickets[r.ticket]? = some t) :
    e'.isAbandoned r.ticket = true := by
  rcases h.getElem? r.ticket with ⟨hnot, -⟩ | ⟨x, -, -, hnew⟩
  · exact absurd rfl (hnot r hr)
  · rw [isAbandoned, status?, hnew, ht]
    rfl

/-- A crash brings its lane down with all that it holds: the case `Passage.crashed`. -/
theorem passage_crash {e : Engine} (h : e.Sound) (hl : e.Ledger) {i : Nat} {lane : Lane}
    (hi : e.lanes.all[i]? = some lane) {r : Request} {due : Nat}
    (hphase : lane.phase = .committing r due) {a : EngineAction} (htakes : e.takes a = [])
    (hcrashes : ∀ j, e.crashes j a = if i = j then [r] else []) :
    e.Passage a (e.crash i lane r) := by
  obtain ⟨-, -, hpending, -⟩ := h.of_committing hi hphase
  have hheld : e.lanes.pendingIn i = r :: lane.queue.toList := by
    rw [Lanes.pendingIn_of_getElem? hi, hpending]
  have hconcludes := concludes_abandon e (r :: lane.queue.toList)
  rw [foldl_abandon_eq] at hconcludes
  rw [crash, foldl_abandon_eq]
  refine .crashed r i lane.queue.toList htakes hcrashes hheld (fun j => ?_) (fun x hx => ?_) ?_
  · refine (Lanes.pendingIn_modify e.lanes i _ j).trans ?_
    split
    · next hij =>
        rw [← hij, hi]
        rfl
    · rfl
  · have hmem : x ∈ e.pending x.partition :=
      List.mem_append_left _ (h.wellFormed.mem_pending_of_pendingIn (hheld ▸ hx))
    exact isAbandoned_of_concludes hconcludes hx (hl.ticket _ x hmem)
  · refine Lanes.hasEnded_eq_true_iff.mpr
      ⟨{ lane with queue := .empty, phase := .ended true }, ?_, rfl⟩
    refine (Lanes.getElem?_modify e.lanes i _ i).trans ?_
    rw [if_pos rfl, hi, Option.map_some]

/-- The work of a lane is a `Passage`, by the phase of the lane. -/
theorem passage_workLane {e : Engine} (h : e.Sound) (hl : e.Ledger) {i : Nat}
    (hpossible : e.isPossible (.work i) = true) :
    e.Passage (.move (.work i)) (e.workLane i) := by
  obtain ⟨lane, hi, -⟩ := (Option.any_eq_true _ _).mp hpossible
  have htakes : e.takes (.move (.work i)) = [] := takes_eq_nil (by simp)
  have hcrashes : ∀ j, e.crashes j (.move (.work i)) =
      if i = j then (lane.current?.filter fun r => r.offset ∈ e.setup.crashesAt).toList else [] := by
    intro j
    rw [crashes]
    by_cases hij : i = j
    · subst hij
      rw [if_pos ⟨hpossible, rfl⟩, if_pos rfl, hi, Option.bind_some]
    · rw [if_neg (fun hand => hij hand.2), if_neg hij]
  unfold workLane
  rw [hi]
  rcases hphase : lane.phase with k | _ | ⟨r, due⟩ | ended
  all_goals simp only [Lane.current?, hphase, Option.filter_none, Option.toList_none, ite_self]
    at hcrashes
  · simp only [hphase]
    have hcurrent : ({ lane with phase := .ready } : Lane).current? = lane.current? := by
      rw [Lane.current?, Lane.current?, hphase]
    exact .stays htakes hcrashes (pendingIn_setPhase_of_eq hi hcurrent)
  · simp only [hphase]
    exact .stays htakes hcrashes (pendingIn_proceed hi hphase)
  · simp only [hphase]
    rw [Option.filter_some] at hcrashes
    split
    · next hcrash =>
        rw [if_pos (by simpa using hcrash)] at hcrashes
        exact passage_crash h hl hi hphase htakes hcrashes
    · next hcalm =>
        rw [if_neg (by simpa using hcalm)] at hcrashes
        simp only [Option.toList_none, ite_self] at hcrashes
        exact passage_conclude h hl hi hphase htakes hcrashes
  · simp only [hphase]
    exact .stays htakes hcrashes fun _ => rfl

/-- **Every action is a passage**: `e.Passage a (e.act a)`. -/
theorem passage_act {e : Engine} (h : e.Sound) (hl : e.Ledger) (a : EngineAction) :
    e.Passage a (e.act a) := by
  by_cases hmove : ∃ move, a = .move move
  · obtain ⟨move, rfl⟩ := hmove
    rcases hpossible : e.isPossible move with _ | _
    · rw [act_move_of_impossible hpossible]
      exact .of_impossible hpossible
    rw [act_move_of_isPossible hpossible]
    cases move with
    | take => exact passage_takeCommand h hpossible
    | work lane => exact passage_workLane h hl hpossible
    | answer place =>
        refine .stays rfl (fun _ => rfl) fun j => ?_
        show (e.answerCall place).lanes.pendingIn j = _
        unfold answerCall
        split <;> rfl
    | hangUp => exact .stays rfl (fun _ => rfl) (Lanes.pendingIn_drain e.lanes)
    | collect =>
        refine .stays rfl (fun _ => rfl) fun j => ?_
        show e.collect.lanes.pendingIn j = _
        unfold collect
        split <;> rfl
    | stop =>
        obtain ⟨callers, heq⟩ := e.stop_eq
        refine .stays rfl (fun _ => rfl) fun j => ?_
        show e.stop.lanes.pendingIn j = _
        rw [heq]
        rfl
  · have hnot : ∀ move, a ≠ .move move := fun move heq => hmove ⟨move, heq⟩
    refine .stays (takes_eq_nil (hnot _)) (crashes_eq_nil fun i => hnot _) fun j => ?_
    rw [(lanes_stage_act hnot).1]

end OffsetCommit.Engine
