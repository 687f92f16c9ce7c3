import OffsetCommit.Proofs.Engine.Work
import OffsetCommit.Proofs.Lanes.Leftovers

/-!
# Engines without their leftovers

`Engine.tidied` leaves out of an engine what nothing comes of: the leftovers of ended lanes, lanes
that have ended among those that the loop waits for, revocations that will not be taken any more,
and what was reported. Engines with the same `tidied` go on alike.

* `takeCommand_alike`, `workLane_alike`, `stop_alike`, `respects_answerCall`: the same move leads
  from such engines to such engines.
* `tidied_workLane_of_waiting`, `tidied_collect`: moves after which `tidied` is the same, such as
  when a lane notices that the one before it has ended; the other engine need not make them.
-/

namespace OffsetCommit

/-- The queue of some elements, the oldest first. -/
def Queue.ofList {α : Type} (elements : List α) : Queue α :=
  ⟨elements, [], elements.length, rfl⟩

/-- The elements of `ofList elements` are `elements`. -/
@[simp] theorem Queue.toList_ofList {α : Type} (elements : List α) :
    (Queue.ofList elements).toList = elements :=
  List.append_nil elements

/-- Whether it matters that a command is discarded. -/
def Command.matters : Command → Bool
  | .revoke _ => false
  | _ => true

/-- A stage that does not wait for lanes that have ended. -/
def Stage.tidied (ended : Nat → Bool) : Stage → Stage
  | .serving => .serving
  | .draining caller awaited => .draining caller (awaited.filter fun i => !ended i)
  | .stopped => .stopped

/-- Leaving out ended lanes twice is leaving them out by the later knowledge `ended'`. -/
theorem Stage.tidied_tidied {ended ended' : Nat → Bool}
    (hle : ∀ k, ended k = true → ended' k = true) (stage : Stage) :
    (stage.tidied ended).tidied ended' = stage.tidied ended' := by
  cases stage with
  | serving => rfl
  | stopped => rfl
  | draining caller awaited =>
      simp only [tidied, List.filter_filter]
      congr 2
      funext i
      rcases hi : ended i
      · simp
      · simp [hle i hi]

namespace Engine

/-- The commands that still have a bearing. -/
def toObey (e : Engine) : List Command :=
  if e.isClosed then e.mailbox.toList.filter Command.matters else e.mailbox.toList

/-- The engine without leftovers: without revocations in the mailbox that come too late, without
ended lanes among those that are awaited or retired, with every lane woken that can be, and without
its journal. -/
def tidied (e : Engine) : Engine :=
  { e with
    mailbox := .ofList e.toObey
    stage := e.stage.tidied e.lanes.hasEnded
    lanes := e.lanes.tidied
    journal := #[] }

/-- Whether commands are refused can be told from `tidied`. -/
theorem isClosed_tidied (e : Engine) : e.tidied.isClosed = e.isClosed := by
  show decide (e.stage.tidied _ ≠ .serving) = decide (e.stage ≠ .serving)
  cases e.stage <;> rfl

/-- An engine that serves obeys every command of its mailbox. -/
theorem toObey_of_open {e : Engine} (h : e.isClosed = false) : e.toObey = e.mailbox.toList := by
  rw [toObey, h]
  rfl

/-- Of an engine that does not serve, only commands that matter have a bearing. -/
theorem toObey_of_closed {e : Engine} (h : e.isClosed = true) :
    e.toObey = e.mailbox.toList.filter Command.matters := by
  rw [toObey, h]
  rfl

/-- Whether `f` takes engines that are the same when tidied to such engines. -/
def Respects (f : Engine → Engine) : Prop :=
  ∀ e e', e.tidied = e'.tidied → (f e).tidied = (f e').tidied

/-- If `(f e).tidied` is a function of `e.tidied`, then `Respects f`. -/
theorem respects_of_tidied {f : Engine → Engine} (F : Engine → Engine)
    (h : ∀ e, (f e).tidied = F e.tidied) : Respects f := by
  intro e e' heq
  rw [h, heq, ← h]

/-- The composition of two changes with `Respects` has it, too. -/
theorem Respects.comp {f g : Engine → Engine} (hg : Respects g) (hf : Respects f) :
    Respects fun e => g (f e) :=
  fun e e' h => hg _ _ (hf e e' h)

/-- The mailbox of `e.tidied` holds `e.toObey`. -/
theorem toObey_tidied (e : Engine) : e.tidied.mailbox.toList = e.toObey :=
  Queue.toList_ofList e.toObey

/-- Engines with the same `tidied` refuse commands alike. -/
theorem isClosed_alike {e e' : Engine} (h : e.tidied = e'.tidied) : e.isClosed = e'.isClosed := by
  rw [← e.isClosed_tidied, h, e'.isClosed_tidied]

/-- Engines that are the same when tidied have the same commands `toObey`. -/
theorem toObey_alike {e e' : Engine} (h : e.tidied = e'.tidied) : e.toObey = e'.toObey := by
  rw [← toObey_tidied, h, toObey_tidied]

/-! ### The broker and the loop -/

/-- A direct call is answered alike. -/
theorem respects_answerCall (place : Nat) : Respects (·.answerCall place) := by
  refine respects_of_tidied (·.answerCall place) fun e => ?_
  have hcalls : e.tidied.pendingCalls = e.pendingCalls := rfl
  unfold answerCall
  rw [hcalls]
  rcases e.pendingCalls[place]? with _ | c <;> rfl

/-- Their lanes are the same when tidied. -/
theorem lanes_alike {e e' : Engine} (h : e.tidied = e'.tidied) :
    e.lanes.tidied = e'.lanes.tidied :=
  (congrArg lanes h :)

/-- Lanes `ls` may be put in place of those before if every lane that has ended stays ended. -/
theorem tidied_withLanes (e : Engine) {ls : Lanes}
    (hle : ∀ k, e.lanes.hasEnded k = true → ls.hasEnded k = true) :
    ({ e with lanes := ls } : Engine).tidied =
      { e.tidied with stage := e.tidied.stage.tidied ls.hasEnded, lanes := ls.tidied } := by
  have hstage : e.tidied.stage.tidied ls.hasEnded = e.stage.tidied ls.hasEnded :=
    e.stage.tidied_tidied hle
  rw [hstage]
  rfl

/-- Replacing the lanes by ones with the same `Lanes.tidied` keeps engines alike. -/
theorem withLanes_alike {e e' : Engine} (h : e.tidied = e'.tidied) {ls ls' : Lanes}
    (hlanes : ls.tidied = ls'.tidied) (hle : ∀ k, e.lanes.hasEnded k = true → ls.hasEnded k = true) :
    ({ e with lanes := ls } : Engine).tidied = ({ e' with lanes := ls' } : Engine).tidied := by
  have hended : ls.hasEnded = ls'.hasEnded := Lanes.hasEnded_alike hlanes
  have hle' : ∀ k, e'.lanes.hasEnded k = true → ls'.hasEnded k = true := by
    rw [← hended, ← Lanes.hasEnded_alike (lanes_alike h)]
    exact hle
  refine (e.tidied_withLanes hle).trans (Eq.trans ?_ (e'.tidied_withLanes hle').symm)
  rw [h, hlanes, hended]

end Engine

/-! ### Closing all lanes -/

namespace Lanes

/-- Pruning leaves the retired lanes that have not ended. -/
theorem values_prune (ls : Lanes) :
    ls.prune.retired.values = ls.retired.values.filter fun i => !ls.hasEnded i := by
  rw [Partition.values_eq, Partition.values_eq, prune, Std.ExtTreeMap.toList_filter,
    List.filter_map]
  rfl

/-- Draining ends no lane. -/
theorem hasEnded_drain (ls : Lanes) : ls.drain.2.hasEnded = ls.hasEnded := by
  funext k
  show ((ls.all.map Lane.close)[k]?.bind Lane.ending?).isSome = _
  rw [Array.getElem?_map, hasEnded, ending?]
  rcases ls.all[k]? with _ | lane <;> rfl

/-- Draining the lanes ignores leftovers. -/
theorem ignoresLeftovers_drain : IgnoresLeftovers fun ls => ls.drain.2 := by
  intro ls
  have hended : ls.tidied.drain.2.hasEnded = ls.hasEnded :=
    ls.tidied.hasEnded_drain.trans ls.hasEnded_tidied
  refine tidied_eq (ls.hasEnded_drain.trans hended.symm) (fun k => ?_) (fun _ => rfl) fun _ => rfl
  show (ls.all.map Lane.close)[k]?.map _ = (ls.tidied.all.map Lane.close)[k]?.map _
  rw [hended, Array.getElem?_map, Array.getElem?_map, getElem?_tidied]
  rcases ls.all[k]? with _ | lane
  · rfl
  · exact congrArg some (by rw [Lane.close_woken, Lane.woken_woken fun _ h => h])

/-- The same lanes are waited for after `drain`, those aside that have ended. -/
theorem awaited_alike {ls ls' : Lanes} (h : ls.tidied = ls'.tidied) :
    (ls.drain.1.filter fun i => !ls.hasEnded i) = ls'.drain.1.filter fun i => !ls'.hasEnded i := by
  have hawaited : ∀ ls : Lanes, (ls.drain.1.filter fun i => !ls.hasEnded i) =
      ls.tidied.retired.values ++ ls.tidied.opened.values.filter fun i => !ls.tidied.hasEnded i := by
    intro ls
    have hretired : ls.tidied.retired.values = ls.prune.retired.values := rfl
    rw [hretired, values_prune, hasEnded_tidied]
    exact List.filter_append _ _
  rw [hawaited, h, ← hawaited]

end Lanes

namespace Engine

/-! ### The loop -/

/-- A request is routed alike. -/
theorem respects_route (r : Request) : Respects (·.route r) := by
  intro e e' h
  obtain ⟨haccepted, hlanes⟩ := Lanes.route_alike (lanes_alike h) r
  have hrouted := withLanes_alike h hlanes fun _ hk => (e.lanes.leadsTo_route r).hasEnded hk
  show (e.route r).tidied = (e'.route r).tidied
  unfold route
  dsimp only
  rw [haccepted]
  split
  · exact hrouted
  · exact congrArg (abandon · r) hrouted

section Serving

variable {e e' : Engine} (h : e.tidied = e'.tidied) (hserving : e.stage = .serving)

include h hserving

/-- While the loop serves, the mailboxes are the same. -/
theorem mailbox_alike : e.mailbox.toList = e'.mailbox.toList := by
  have hopen : e.isClosed = false := by simp [isClosed, hserving]
  rw [← toObey_of_open hopen, toObey_alike h,
    toObey_of_open ((isClosed_alike h).symm.trans hopen)]

/-- A serving loop begins to drain alike. -/
theorem beginDrain_alike (caller : Option Nat) :
    (e.beginDrain caller).tidied = (e'.beginDrain caller).tidied := by
  have hlanes := Lanes.ignoresLeftovers_drain.alike (lanes_alike h)
  have hawaited := Lanes.awaited_alike (lanes_alike h)
  have hdrained : ∀ e : Engine, (e.beginDrain caller).tidied =
      { e.tidied with
        mailbox := .ofList (e.mailbox.toList.filter Command.matters)
        stage := .draining caller (e.lanes.drain.1.filter fun i => !e.lanes.hasEnded i)
        lanes := e.lanes.drain.2.tidied } := by
    intro e
    rw [← e.lanes.hasEnded_drain]
    rfl
  rw [hdrained e, hdrained e', h, hlanes, hawaited, mailbox_alike h hserving]

/-- A command is obeyed alike. -/
theorem obey_alike (command : Command) : (e.obey command).tidied = (e'.obey command).tidied := by
  cases command with
  | commit r => exact respects_route r e e' h
  | revoke p =>
      have hlanes := (Lanes.ignoresLeftovers_revoke p).alike (lanes_alike h)
      exact withLanes_alike h hlanes fun _ hk => (e.lanes.leadsTo_revoke p).hasEnded hk
  | shutdown caller => exact beginDrain_alike h hserving (some caller)

/-- The oldest command is the same, and so is what comes of it. -/
theorem takeCommand_alike : e.takeCommand.tidied = e'.takeCommand.tidied := by
  have hmailbox := mailbox_alike h hserving
  have hopen : e.isClosed = false := by simp [isClosed, hserving]
  have hopen' : e'.isClosed = false := (isClosed_alike h).symm.trans hopen
  have hrest : ∀ {e : Engine} {rest : Queue Command}, e.isClosed = false →
      ({ e with mailbox := rest } : Engine).tidied = { e.tidied with mailbox := .ofList rest.toList } := by
    intro e rest hopen
    rw [← toObey_of_open (e := { e with mailbox := rest }) hopen]
    rfl
  unfold takeCommand
  rcases hpop : e.mailbox.pop? with _ | ⟨command, rest⟩
  · rw [Queue.pop?_eq_none_iff.mpr (hmailbox ▸ Queue.pop?_eq_none_iff.mp hpop)]
    exact h
  · rcases hpop' : e'.mailbox.pop? with _ | ⟨command', rest'⟩
    · rw [Queue.pop?_eq_none_iff, ← hmailbox, Queue.toList_of_pop? hpop] at hpop'
      cases hpop'
    · rw [Queue.toList_of_pop? hpop, Queue.toList_of_pop? hpop'] at hmailbox
      obtain ⟨rfl, htail⟩ := List.cons.inj hmailbox
      refine obey_alike (e := { e with mailbox := rest }) ?_ hserving command
      rw [hrest hopen, hrest hopen', h, htail]

end Serving

/-! ### The lanes -/

section Lanes

variable {e e' : Engine} (h : e.tidied = e'.tidied) {i : Nat} {lane : Lane}
  (hi : e.lanes.all[i]? = some lane) (hi' : e'.lanes.all[i]? = some lane)

include h hi hi'

/-- A change that ignores whether a lane has noticed the end of the one before it is made alike. -/
theorem modifyLane_alike (hlive : lane.hasEnded = false) {f : Lane → Lane}
    (hf : Lane.IgnoresWaking f) : (e.modifyLane i f).tidied = (e'.modifyLane i f).tidied := by
  have hback : ∀ {ls : Lanes}, ls.all[i]? = some lane →
      ∀ old, ls.all[i]? = some old → old.hasEnded = true → (f old).hasEnded = true := by
    intro ls hlane old hold hended
    obtain rfl := Option.some.inj (hlane.symm.trans hold)
    rw [hlive] at hended
    cases hended
  have hlanes : (e.lanes.modify i f).tidied = (e'.lanes.modify i f).tidied := by
    rw [Lanes.tidied_modify hf (hback hi), lanes_alike h, ← Lanes.tidied_modify hf (hback hi')]
  exact withLanes_alike h hlanes fun _ hk => Lanes.hasEnded_modify (hback hi) hk

end Lanes

/-- A ticket is finished alike. -/
theorem respects_finish (ticket : Nat) (status : Status) : Respects (·.finish ticket status) :=
  respects_of_tidied (·.finish ticket status) fun _ => rfl

/-- Requests are given up alike. -/
theorem respects_abandonEach (rs : List Request) : Respects (rs.foldl abandon) := by
  induction rs with
  | nil => exact fun _ _ h => h
  | cons r rest ih => exact ih.comp (respects_finish r.ticket (.abandoned r.offset))

/-- The observer is called alike. -/
theorem respects_observe (p : Partition) (r : Request) : Respects (·.observe p r) := by
  refine respects_of_tidied (fun t => { t.observe p r with journal := #[] }) fun e => ?_
  have hsetup : e.tidied.setup = e.setup := rfl
  unfold observe
  rw [hsetup]
  rcases e.setup.observer with _ | crashesOn
  · rfl
  · dsimp only
    split <;> rfl

section Lanes

variable {e e' : Engine} (h : e.tidied = e'.tidied) {i : Nat} {lane : Lane}
  (hi : e.lanes.all[i]? = some lane) (hi' : e'.lanes.all[i]? = some lane)

include h hi hi'

/-- A commit is concluded alike. -/
theorem conclude_alike (hlive : lane.hasEnded = false) (r : Request) :
    (e.conclude i lane r).tidied = (e'.conclude i lane r).tidied := by
  have hbroker : e.broker = e'.broker := (congrArg broker h :)
  unfold conclude
  rw [hbroker]
  rcases e'.broker.commit lane.partition r.offset with ⟨answer, broker⟩
  have hdecided : ({ e with broker := broker } : Engine).tidied =
      ({ e' with broker := broker } : Engine).tidied :=
    congrArg (fun e : Engine => { e with broker := broker }) h
  have hready : ({ e with broker := broker }.setPhase i .ready).tidied =
      ({ e' with broker := broker }.setPhase i .ready).tidied :=
    modifyLane_alike hdecided hi hi' hlive (Lane.ignoresWaking_setPhase .ready)
  rcases answer with error | ⟨⟨⟩⟩
  · exact respects_finish _ _ _ _ hready
  · exact respects_finish _ _ _ _ (respects_observe lane.partition r _ _ hready)

/-- A lane that is not `.waiting` does the same work. -/
theorem workLane_alike (hwaiting : ∀ k, lane.phase ≠ .waiting k) :
    (e.workLane i).tidied = (e'.workLane i).tidied := by
  have hnow : e.now = e'.now := (congrArg now h :)
  have hbroker : e.broker = e'.broker := (congrArg broker h :)
  have hsetup : e.setup = e'.setup := (congrArg setup h :)
  have hdue : e.dueFromNow = e'.dueFromNow := by rw [dueFromNow, dueFromNow, hnow, hbroker]
  unfold workLane
  rw [hi, hi']
  rcases hphase : lane.phase with k | _ | ⟨r, due⟩ | crashed
  · exact absurd hphase (hwaiting k)
  · have hlive : lane.hasEnded = false := by rw [Lane.hasEnded, Lane.ending?, hphase]; rfl
    simp only [hphase, proceed]
    rcases lane.queue.pop? with _ | ⟨r, rest⟩
    · exact modifyLane_alike h hi hi' hlive (Lane.ignoresWaking_setPhase (.ended false))
    · rw [hdue]
      exact modifyLane_alike h hi hi' hlive (Lane.ignoresWaking_setQueue rest _)
  · have hlive : lane.hasEnded = false := by rw [Lane.hasEnded, Lane.ending?, hphase]; rfl
    simp only [hphase, hsetup]
    split
    · have hended := modifyLane_alike h hi hi' hlive
        (Lane.ignoresWaking_setQueue .empty (.ended true))
      exact respects_abandonEach (r :: lane.queue.toList) _ _ hended
    · exact conclude_alike h hi hi' hlive r
  · simp only [hphase]
    exact h

end Lanes

/-! ### Ending -/

/-- A command is discarded alike. -/
theorem respects_discard (command : Command) : Respects (·.discard command) := by
  cases command with
  | commit r => exact respects_finish r.ticket (.abandoned r.offset)
  | revoke p => exact fun _ _ h => h
  | shutdown caller => exact respects_of_tidied (·.release caller) fun _ => rfl

/-- Commands are discarded alike, one after the other. -/
theorem respects_discardEach (commands : List Command) : Respects (commands.foldl discard) := by
  induction commands with
  | nil => exact fun _ _ h => h
  | cons command rest ih => exact ih.comp (respects_discard command)

/-- Only commands with `Command.matters` make a difference when they are discarded. -/
theorem foldl_discard_filter (commands : List Command) (e : Engine) :
    commands.foldl discard e = (commands.filter Command.matters).foldl discard e := by
  induction commands generalizing e with
  | nil => rfl
  | cons command rest ih =>
      cases command with
      | commit r => exact ih _
      | revoke p => exact ih e
      | shutdown caller => exact ih _

/-- Answering the caller for whom the loop drained leaves the mailbox alone. -/
theorem mailbox_releaseCaller (e : Engine) : e.releaseCaller.mailbox = e.mailbox := by
  unfold releaseCaller
  split <;> rfl

/-- Answering the caller for whom the loop drains comes to the same, by `tidied`. -/
theorem respects_releaseCaller : Respects releaseCaller := by
  refine respects_of_tidied releaseCaller fun e => ?_
  have hstage : e.tidied.stage = e.stage.tidied e.lanes.hasEnded := rfl
  unfold releaseCaller
  rw [hstage]
  rcases e.stage with _ | ⟨_ | caller, awaited⟩ | _ <;> rfl

/-- The loop ends alike: what it discards differs by revocations only, `foldl_discard_filter`. -/
theorem stop_alike {e e' : Engine} (h : e.tidied = e'.tidied) (hclosed : e.isClosed = true) :
    e.stop.tidied = e'.stop.tidied := by
  have htold := respects_releaseCaller e e' h
  have hmailbox : e.releaseCaller.mailbox.toList.filter Command.matters =
      e'.releaseCaller.mailbox.toList.filter Command.matters := by
    rw [mailbox_releaseCaller, mailbox_releaseCaller, ← toObey_of_closed hclosed, toObey_alike h,
      toObey_of_closed ((isClosed_alike h).symm.trans hclosed)]
  have hleft := respects_discardEach (e'.releaseCaller.mailbox.toList.filter Command.matters) _ _ htold
  unfold stop
  dsimp only
  rw [foldl_discard_filter, hmailbox, foldl_discard_filter e'.releaseCaller.mailbox.toList]
  exact congrArg (fun left : Engine => { left with mailbox := .ofList [], stage := .stopped }) hleft

/-! ### Silent moves -/

/-- A lane that notices that the one before it has ended leaves `tidied` as it was. -/
theorem tidied_workLane_of_waiting {e : Engine} {i k : Nat} {lane : Lane}
    (hi : e.lanes.all[i]? = some lane) (hphase : lane.phase = .waiting k)
    (hended : e.lanes.hasEnded k = true) : (e.workLane i).tidied = e.tidied := by
  let ready : Lane → Lane := fun lane => { lane with phase := .ready }
  have hsame : (e.lanes.modify i ready).hasEnded = e.lanes.hasEnded := by
    funext j
    rw [Lanes.hasEnded, Lanes.hasEnded, Lanes.ending?, Lanes.ending?, Lanes.getElem?_modify]
    split
    · next hij =>
        subst hij
        rw [hi]
        show (ready lane).ending?.isSome = lane.ending?.isSome
        rw [Lane.ending?, Lane.ending?, hphase]
    · rfl
  have hlanes : (e.lanes.modify i ready).tidied = e.lanes.tidied := by
    refine Lanes.tidied_eq hsame (fun j => ?_) (fun _ => rfl) fun _ => rfl
    rw [Lanes.getElem?_modify]
    split
    · next hij =>
        subst hij
        rw [hi]
        show some ((ready lane).woken _) = some (lane.woken _)
        rw [Lane.woken_of_not_waiting fun _ => Phase.noConfusion, Lane.woken, hphase]
        simp only [hended, if_true, ready]
    · rfl
  have hworked : (e.workLane i).tidied = ({ e with lanes := e.lanes.modify i ready } : Engine).tidied := by
    unfold workLane
    rw [hi]
    simp only [hphase]
    rfl
  have hstage : e.tidied.stage.tidied e.lanes.hasEnded = e.tidied.stage :=
    e.stage.tidied_tidied fun _ h => h
  rw [hworked, e.tidied_withLanes fun k hk => by rwa [hsame], hlanes, hsame, hstage]
  rfl

/-- The loop that finds that an awaited lane has ended leaves `tidied` as it was. -/
theorem tidied_collect {e : Engine} (h : e.isPossible .collect = true) :
    e.collect.tidied = e.tidied := by
  rw [isPossible] at h
  split at h
  · next caller i rest hstage =>
      have hawaited : e.stage.tidied e.lanes.hasEnded =
          .draining caller (rest.filter fun i => !e.lanes.hasEnded i) := by
        rw [hstage, Stage.tidied, List.filter_cons_of_neg (by simp [h])]
      have hclosed : e.isClosed = true := by simp [isClosed, hstage]
      have hcollected : e.collect.tidied = { e.tidied with
          mailbox := .ofList (e.mailbox.toList.filter Command.matters)
          stage := .draining caller (rest.filter fun i => !e.lanes.hasEnded i) } := by
        unfold collect
        rw [hstage]
        rfl
      rw [hcollected, ← hawaited, ← toObey_of_closed hclosed]
      rfl
  · cases h

end Engine

end OffsetCommit
