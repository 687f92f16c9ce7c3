import Mathlib.Data.List.Perm.Basic
import OffsetCommit.Proofs.Broker.Accounts
import OffsetCommit.Proofs.Engine.Asked

/-!
# The ledger of the broker balances

A commit call returns when the broker has decided, whether a lane made it or someone who asks the
broker directly, and it is then that it is entered into the account of its partition. So an account
holds as many entries as calls have returned. A call that has not returned, or on which the client
crashed, has left no trace.

* `returns_act`: an action lets at most one call return (`Returns`). The three cases are
  `returns_conclude` for the commit of a lane, `returns_answer` for a direct call, and no call at
  all.
* `Balanced.of_returns`: an action of any of these kinds preserves `Balanced`, and `Balanced.run`
  follows by induction.
* `ledger_balances`: what all this says of a run from the start.
-/

namespace OffsetCommit

/-- The status itself if the broker has decided the commit, `s.isDecided`, and `none` otherwise. -/
def Status.decision? (s : Status) : Option Status :=
  if s.isDecided then some s else none

/-- Statuses without a decision are invisible to `Status.decision?`, which is what
`Status.OfDecided` asks for. -/
theorem Status.ofDecided_decision? : Status.OfDecided Status.decision? := fun _ => rfl

/-- The status that a request gets from an answer is a decision. -/
theorem Request.decision?_verdict (r : Request) (answer : Except Error Unit) :
    (r.verdict answer).decision? = some (r.verdict answer) := by
  rcases answer with error | ⟨⟨⟩⟩ <;> rfl

namespace Engine

/-! ### Calls that have returned -/

/-- The statuses with which commits of `p` have been decided, in the order of `e.issued p`. -/
def rulings (e : Engine) (p : Partition) : List Status :=
  (e.issued p).filterMap (e.shown Status.decision?)

/-- Whether a direct call is about a partition and has returned. -/
def isAnswered (p : Partition) (c : DirectCall) : Bool :=
  c.partition = p ∧ c.answer.isSome = true

/-- The number of direct calls for `p` that have returned. -/
def answered (e : Engine) (p : Partition) : Nat :=
  e.calls.toList.countP (isAnswered p)

/-- The number of commit calls for `p` that have returned: `rulings` counts those of lanes,
`answered` the direct ones. -/
def returned (e : Engine) (p : Partition) : Nat :=
  (e.rulings p).length + e.answered p

/-- What an action does to the direct calls: nothing, `.call p o` makes one, or `.answer place` lets
one return. `calling_act` shows that every action does one of these. -/
inductive Calling (e : Engine) (a : EngineAction) (e' : Engine) : Prop where
  /-- Nothing. -/
  | same (calls : e'.calls = e.calls) (pendingCalls : e'.pendingCalls = e.pendingCalls)
  /-- There is a new one. -/
  | made (p : Partition) (o : Offset) (due : Nat) (action : a = .call p o)
      (calls : e'.calls = e.calls.push ⟨p, o, none⟩)
      (pendingCalls : e'.pendingCalls = e.pendingCalls ++ [⟨e.calls.size, p, o, due⟩])
  /-- The broker decides one, and it returns. -/
  | returned (place : Nat) (c : PendingCall) (call : e.pendingCalls[place]? = some c)
      (action : a = .move (.answer place)) (possible : e.isPossible (.answer place) = true)
      (calls : e'.calls = e.calls.modify c.call fun call =>
        { call with answer := some (e.broker.commit c.partition c.offset).1 })
      (pendingCalls : e'.pendingCalls = e.pendingCalls.eraseIdx place)

/-- Moves other than `.answer` leave `calls` and `pendingCalls` alone. -/
theorem calling_make {e : Engine} {move : Move} (h : ∀ place, move ≠ .answer place) :
    (e.make move).calls = e.calls ∧ (e.make move).pendingCalls = e.pendingCalls := by
  cases move with
  | answer place => exact absurd rfl (h place)
  | take =>
      show e.takeCommand.calls = _ ∧ e.takeCommand.pendingCalls = _
      unfold takeCommand
      rcases e.mailbox.pop? with _ | ⟨command, rest⟩
      · exact ⟨rfl, rfl⟩
      cases command with
      | commit r =>
          simp only [obey, route]
          split <;> exact ⟨rfl, rfl⟩
      | revoke p => exact ⟨rfl, rfl⟩
      | shutdown caller => exact ⟨rfl, rfl⟩
  | hangUp => exact ⟨rfl, rfl⟩
  | work i =>
      show (e.workLane i).calls = _ ∧ (e.workLane i).pendingCalls = _
      unfold workLane
      rcases e.lanes.all[i]? with _ | lane
      · exact ⟨rfl, rfl⟩
      dsimp only
      split
      · exact ⟨rfl, rfl⟩
      · unfold proceed
        split <;> exact ⟨rfl, rfl⟩
      · next r due _ =>
          split
          · rw [crash, foldl_abandon_eq]
            exact ⟨rfl, rfl⟩
          · obtain ⟨journal, observed, heq⟩ := e.conclude_eq i lane r
            rw [heq]
            exact ⟨rfl, rfl⟩
      · exact ⟨rfl, rfl⟩
  | collect =>
      show e.collect.calls = _ ∧ e.collect.pendingCalls = _
      unfold collect
      split <;> exact ⟨rfl, rfl⟩
  | stop =>
      obtain ⟨callers, heq⟩ := e.stop_eq
      show e.stop.calls = _ ∧ e.stop.pendingCalls = _
      rw [heq]
      exact ⟨rfl, rfl⟩

/-- Every action is a `Calling`: it makes a direct call, lets one return, or leaves them all alone. -/
theorem calling_act (e : Engine) (a : EngineAction) : e.Calling a (e.act a) := by
  cases a with
  | submit p o count =>
      simp only [act, submit]
      split <;> exact .same rfl rfl
  | revoke p =>
      simp only [act, revoke]
      split <;> exact .same rfl rfl
  | shutdown =>
      simp only [act, shutdown]
      split <;> exact .same rfl rfl
  | dropClients => exact .same rfl rfl
  | changeFaults new => exact .same rfl rfl
  | call p o => exact .made p o _ rfl rfl rfl
  | passTo time => exact .same rfl rfl
  | move move =>
      rcases hpossible : e.isPossible move with _ | _
      · rw [act_move_of_impossible hpossible]
        exact .same rfl rfl
      rw [act_move_of_isPossible hpossible]
      by_cases hanswer : ∃ place, move = .answer place
      · obtain ⟨place, rfl⟩ := hanswer
        obtain ⟨c, hc, -⟩ := (Option.any_eq_true _ _).mp hpossible
        show e.Calling _ (e.answerCall place)
        rw [answerCall, hc]
        exact .returned place c hc rfl hpossible rfl rfl
      · obtain ⟨hcalls, hpending⟩ := calling_make (e := e) fun place heq => hanswer ⟨place, heq⟩
        exact .same hcalls hpending

/-- The invariant of `e.pendingCalls`: they are different calls without an answer. `Waiting.run`
keeps it. -/
structure Waiting (e : Engine) : Prop where
  /-- They have not returned. -/
  unanswered : ∀ c ∈ e.pendingCalls, e.calls[c.call]? = some ⟨c.partition, c.offset, none⟩
  /-- They are different ones. -/
  nodup : (e.pendingCalls.map PendingCall.call).Nodup

/-- At the start there are no direct calls, so `Waiting` holds. -/
theorem waiting_start (setup : Setup) (broker : Broker) : (start setup broker).Waiting :=
  ⟨fun _ hc => absurd hc List.not_mem_nil, List.nodup_nil⟩

/-- Every action preserves `Waiting`, by the cases of `calling_act`. -/
theorem Waiting.act {e : Engine} (h : e.Waiting) (a : EngineAction) : (e.act a).Waiting := by
  cases e.calling_act a with
  | same calls pendingCalls =>
      constructor
      · rw [calls, pendingCalls]
        exact h.unanswered
      · rw [pendingCalls]
        exact h.nodup
  | made p o due _ calls pendingCalls =>
      have hlt : ∀ c ∈ e.pendingCalls, c.call < e.calls.size := fun c hc =>
        (Array.getElem?_eq_some_iff.mp (h.unanswered c hc)).1
      constructor
      · rw [calls, pendingCalls]
        intro c hc
        rcases List.mem_append.mp hc with hc | hc
        · rw [Array.getElem?_push, if_neg (hlt c hc).ne]
          exact h.unanswered c hc
        · rw [List.mem_singleton.mp hc, Array.getElem?_push, if_pos rfl]
      · rw [pendingCalls, List.map_append, List.nodup_append]
        refine ⟨h.nodup, List.nodup_singleton _, fun k hk j hj => ?_⟩
        obtain ⟨c, hc, rfl⟩ := List.mem_map.mp hk
        rw [List.mem_singleton.mp hj]
        exact (hlt c hc).ne
  | returned place c call _ _ calls pendingCalls =>
      obtain ⟨hplace, rfl⟩ := List.getElem?_eq_some_iff.mp call
      have hperm := (List.getElem_cons_eraseIdx_perm hplace).map PendingCall.call
      have hnodup := hperm.nodup_iff.mpr h.nodup
      rw [List.map_cons, List.nodup_cons] at hnodup
      constructor
      · rw [calls, pendingCalls]
        intro c hc
        have hother : e.pendingCalls[place].call ≠ c.call := fun heq =>
          hnodup.1 (List.mem_map.mpr ⟨c, hc, heq.symm⟩)
        rw [Array.getElem?_modify, if_neg hother]
        exact h.unanswered c (List.eraseIdx_subset hc)
      · rw [pendingCalls]
        exact hnodup.2

/-! ### What the tickets say -/

/-- The rulings of a partition depend on `tickets` alone. -/
theorem rulings_of_tickets_eq {e e' : Engine} (h : e'.tickets = e.tickets) (p : Partition) :
    e'.rulings p = e.rulings p := by
  rw [rulings, rulings, issued_of_tickets_eq h]
  exact List.filterMap_congr fun k _ => shown_of_getElem?_eq (by rw [h])

/-- Unless an account changes, `rulings p` stays as it is: a commit that is decided is entered. -/
theorem Effect.rulings_eq {e e' : Engine} {a : EngineAction} (h : e.Effect a e') (hl : e.Ledger)
    (haccount : ∀ p, e'.broker.account p = e.broker.account p) (p : Partition) :
    e'.rulings p = e.rulings p := by
  cases h with
  | quiet unchanged => exact rulings_of_tickets_eq unchanged.tickets p
  | issued q o count _ tickets => exact filterMap_shown_of_push tickets rfl p
  | refused q o count _ tickets => exact filterMap_shown_of_push tickets rfl p
  | decided r answer _ _ account =>
      have hown := account r.partition
      rw [if_pos rfl, haccount] at hown
      exact absurd hown.symm (Account.settle_ne _ r.offset answer)
  | abandoned rs tickets perm =>
      have hconcludes := concludes_abandon e rs
      rw [← tickets] at hconcludes
      have hgone : ∀ r ∈ rs, r ∈ e.pending r.partition := fun r hr =>
        (perm r.partition).mem_iff.mpr
          (List.mem_append_left _ (List.mem_filter.mpr ⟨hr, decide_eq_true rfl⟩))
      exact hl.filterMap_shown_of_concludes hconcludes hgone fun _ _ _ => rfl
  | called q o _ tickets => exact rulings_of_tickets_eq tickets p
  | answered c answer _ tickets => exact rulings_of_tickets_eq tickets p

/-- A commit that is decided is the last of its partition so far: finishing a pending `r` appends
`r.verdict answer` to `rulings r.partition` and to no other. -/
theorem Ledger.rulings_of_finish {e e' : Engine} (h : e.Ledger) {r : Request}
    {answer : Except Error Unit}
    (htickets : e'.tickets = (e.finish r.ticket (r.verdict answer)).tickets)
    (hr : r ∈ e.pending r.partition) (p : Partition) :
    e'.rulings p = e.rulings p ++ if r.partition = p then [r.verdict answer] else [] := by
  by_cases hp : r.partition = p
  · subst hp
    rw [if_pos rfl]
    exact h.filterMap_shown_of_decided Status.ofDecided_decision? (r.decision?_verdict answer)
      htickets hr
  · rw [if_neg hp, List.append_nil]
    have hconcludes := concludes_finish e r fun r => r.verdict answer
    rw [← htickets] at hconcludes
    refine h.filterMap_shown_of_concludes hconcludes (fun x hx => ?_) fun x hx hxp => ?_
    · exact List.mem_singleton.mp hx ▸ hr
    · exact absurd (List.mem_singleton.mp hx ▸ hxp) hp

/-! ### What an action means to the calls -/

/-- What an action means to the commit calls. If `e.decides a = []` none of them returns; otherwise
just one does, of a lane or a direct one, and what `Broker.Enters` says of its answer is entered.
`returns_act` shows that every action does one of these. -/
inductive Returns (e : Engine) (a : EngineAction) (e' : Engine) : Prop where
  /-- No call returns, and no account changes. -/
  | none (decides : e.decides a = []) (account : ∀ p, e'.broker.account p = e.broker.account p)
      (rulings : ∀ p, e'.rulings p = e.rulings p) (answered : ∀ p, e'.answered p = e.answered p)
  /-- The call of a lane returns. The commit has had no status and ends with the answer. -/
  | lane (r : Request) (answer : Except Error Unit)
      (asks : e.asks a = [.commit r.partition r.offset])
      (ticket : e.tickets[r.ticket]? = some ⟨r.partition, r.offset, r.count, none⟩)
      (told : e'.status? r.ticket = some (r.verdict answer))
      (rulings : ∀ p, e'.rulings p =
        e.rulings p ++ if r.partition = p then [r.verdict answer] else [])
      (answered : ∀ p, e'.answered p = e.answered p)
      (entered : e.broker.Enters e'.broker r.partition r.offset answer)
  /-- A direct call returns with the answer. -/
  | direct (c : PendingCall) (answer : Except Error Unit)
      (asks : e.asks a = [.commit c.partition c.offset])
      (call : e.calls[c.call]? = some ⟨c.partition, c.offset, none⟩)
      (told : e'.answer? c.call = some answer) (rulings : ∀ p, e'.rulings p = e.rulings p)
      (answered : ∀ p, e'.answered p = e.answered p + if c.partition = p then 1 else 0)
      (entered : e.broker.Enters e'.broker c.partition c.offset answer)

/-- If an action asks the broker for one commit, the broker afterwards is `(e.broker.commit p o).2`. -/
theorem decides_of_asks {e : Engine} {a : EngineAction} {p : Partition} {o : Offset}
    (h : e.asks a = [.commit p o]) : (e.act a).broker = (e.broker.commit p o).2 := by
  rw [broker_act, h]
  rfl

/-- Counting after `l.modify i f`, where the element at `i` did not count before: one more if `f x`
counts. -/
theorem countP_modify {α : Type} {l : List α} {i : Nat} {x : α} (h : l[i]? = some x) {p : α → Bool}
    (hx : p x = false) (f : α → α) :
    (l.modify i f).countP p = l.countP p + if p (f x) then 1 else 0 := by
  induction l generalizing i with
  | nil => cases h
  | cons y rest ih =>
      cases i with
      | zero =>
          obtain rfl := Option.some.inj h
          rw [List.modify_zero_cons, List.countP_cons, List.countP_cons, hx]
          rfl
      | succ i =>
          rw [List.modify_succ_cons, List.countP_cons, List.countP_cons, ih h]
          omega

/-- A direct call that returns adds one to `answered` of its partition and nothing to the others. -/
theorem answered_of_modify {e e' : Engine} {c : PendingCall} {answer : Except Error Unit}
    (hcall : e.calls[c.call]? = some ⟨c.partition, c.offset, none⟩)
    (hcalls : e'.calls = e.calls.modify c.call fun call => { call with answer := some answer })
    (p : Partition) : e'.answered p = e.answered p + if c.partition = p then 1 else 0 := by
  rw [← Array.getElem?_toList] at hcall
  rw [answered, answered, hcalls, Array.toList_modify, countP_modify hcall]
  · simp [isAnswered]
  · simp [isAnswered]

/-- When the broker answers a direct call, this call returns: the case `Returns.direct`. -/
theorem returns_answer {e : Engine} (h : e.Waiting) {place : Nat}
    (hpossible : e.isPossible (.answer place) = true) :
    e.Returns (.move (.answer place)) (e.act (.move (.answer place))) := by
  obtain ⟨c, hc, -⟩ := (Option.any_eq_true _ _).mp hpossible
  have hcall := h.unanswered c (List.mem_of_getElem? hc)
  have hasks : e.asks (.move (.answer place)) = [.commit c.partition c.offset] := by
    rw [asks, if_pos hpossible, asksBy, hc]
    rfl
  have hact : e.act (.move (.answer place)) =
      { e with
        broker := (e.broker.commit c.partition c.offset).2
        calls := e.calls.modify c.call fun call =>
          { call with answer := some (e.broker.commit c.partition c.offset).1 }
        pendingCalls := e.pendingCalls.eraseIdx place } := by
    rw [act_move_of_isPossible hpossible, make, answerCall, hc]
  refine .direct c (e.broker.commit c.partition c.offset).1 hasks hcall ?_ (fun p => ?_)
    (fun p => ?_) ?_
  · rw [hact, answer?, Array.getElem?_modify, if_pos rfl, hcall]
    rfl
  · exact rulings_of_tickets_eq (by rw [hact]) p
  · exact answered_of_modify hcall (by rw [hact]) p
  · rw [decides_of_asks hasks]
    exact e.broker.enters_commit c.partition c.offset

/-- When the commit of a lane is decided, the call of the lane returns: the case `Returns.lane`. The
client must not crash on the offset. -/
theorem returns_conclude {e : Engine} (h : e.Sound) (hl : e.Ledger) {i : Nat} {lane : Lane}
    (hi : e.lanes.all[i]? = some lane) {r : Request} {due : Nat}
    (hphase : lane.phase = .committing r due) (hcalm : r.offset ∉ e.setup.crashesAt)
    (hpossible : e.isPossible (.work i) = true) :
    e.Returns (.move (.work i)) (e.act (.move (.work i))) := by
  obtain ⟨hp, hheld⟩ := h.mem_pending_of_committing hi hphase List.mem_cons_self
  have hticket := hl.ticket _ r hheld
  have hasks : e.asks (.move (.work i)) = [.commit r.partition r.offset] := by
    rw [asks, if_pos hpossible, asksBy, hi, Option.toList_some, List.flatMap_singleton, hp]
    unfold asksFor
    simp only [hphase, hcalm, if_false]
  have hact : e.act (.move (.work i)) = e.conclude i lane r := by
    rw [act_move_of_isPossible hpossible, make, workLane, hi]
    simp only [hphase, hcalm, if_false]
  obtain ⟨journal, observed, heq⟩ := e.conclude_eq i lane r
  rw [← hp] at heq
  rw [heq] at hact
  have htickets : (e.act (.move (.work i))).tickets =
      (e.finish r.ticket (r.verdict (e.broker.commit r.partition r.offset).1)).tickets := by
    rw [hact]
  refine .lane r (e.broker.commit r.partition r.offset).1 hasks hticket ?_
    (hl.rulings_of_finish htickets hheld) (fun p => ?_) ?_
  · have hlookup : (e.act (.move (.work i))).tickets[r.ticket]? =
        some ⟨r.partition, r.offset, r.count,
          some (r.verdict (e.broker.commit r.partition r.offset).1)⟩ := by
      rw [htickets]
      refine Array.getElem?_modify.trans ?_
      rw [if_pos rfl, hticket]
      rfl
    exact status?_of_getElem? hlookup
  · rw [answered, answered, hact]
    rfl
  · rw [decides_of_asks hasks]
    exact e.broker.enters_commit r.partition r.offset

/-- Whether `a` lets a lane whose commit is under way bring it to its decision. -/
def DecidesInLane (e : Engine) (a : EngineAction) : Prop :=
  ∃ i lane r due, a = .move (.work i) ∧ e.isPossible (.work i) = true ∧
    e.lanes.all[i]? = some lane ∧ lane.phase = .committing r due ∧ r.offset ∉ e.setup.crashesAt

/-- If `a` neither answers a direct call nor decides a commit of a lane (`DecidesInLane`), then
`e.decides a = []`. -/
theorem decides_eq_nil {e : Engine} {a : EngineAction}
    (hanswer : ¬∃ place, a = .move (.answer place) ∧ e.isPossible (.answer place) = true)
    (hlane : ¬e.DecidesInLane a) : e.decides a = [] := by
  cases a with
  | move move =>
      rcases hpossible : e.isPossible move with _ | _
      · rw [decides, asks, hpossible]
        rfl
      rw [decides, asks, if_pos hpossible]
      cases move with
      | answer place => exact absurd ⟨place, rfl, hpossible⟩ hanswer
      | work i =>
          rw [asksBy]
          rcases hi : e.lanes.all[i]? with _ | lane
          · rfl
          rw [Option.toList_some, List.flatMap_singleton]
          unfold asksFor
          rcases hphase : lane.phase with k | _ | ⟨r, due⟩ | crashed
          · rfl
          · rfl
          · by_cases hcalm : r.offset ∈ e.setup.crashesAt
            · simp only [hcalm, if_true]
              rfl
            · exact absurd ⟨i, lane, r, due, rfl, hpossible, hi, hphase, hcalm⟩ hlane
          · rfl
      | _ => rfl
  | _ => rfl

/-- If `e.decides a = []`, no account changes. -/
theorem account_act_of_decides {e : Engine} {a : EngineAction} (h : e.decides a = [])
    (p : Partition) : (e.act a).broker.account p = e.broker.account p := by
  have hnone : e.broker.decided (e.asks a) = [] := h
  rw [broker_act, Broker.account_run, hnone]
  rfl

/-- **Every action lets at most one call return**, and only a call that returns changes an account:
`e.Returns a (e.act a)`. -/
theorem returns_act {e : Engine} (h : e.Sound) (hl : e.Ledger) (hw : e.Waiting) (a : EngineAction) :
    e.Returns a (e.act a) := by
  -- the broker decides by two moves alone, and what it decides is what returns
  by_cases hanswer : ∃ place, a = .move (.answer place) ∧ e.isPossible (.answer place) = true
  · obtain ⟨place, rfl, hpossible⟩ := hanswer
    exact returns_answer hw hpossible
  by_cases hlane : e.DecidesInLane a
  · obtain ⟨i, lane, r, due, rfl, hpossible, hi, hphase, hcalm⟩ := hlane
    exact returns_conclude h hl hi hphase hcalm hpossible
  have hdecides := decides_eq_nil hanswer hlane
  have haccount := account_act_of_decides hdecides
  refine .none hdecides haccount ((h.effect a).2.rulings_eq hl haccount) fun p => ?_
  cases e.calling_act a with
  | same calls => rw [answered, answered, calls]
  | made q o due _ calls =>
      rw [answered, answered, calls, Array.toList_push, List.countP_append]
      simp [isAnswered]
  | returned place c call action possible => exact absurd ⟨place, action, possible⟩ hanswer

/-! ### The balance -/

/-- The invariant of the account of `p`: the committed offset is the last of the history, and
`(e.broker.history p).length + e.broker.failures p = e.returned p`. `Balanced.run` keeps it. -/
structure Balanced (e : Engine) (p : Partition) : Prop where
  /-- The committed offset is the last of the history. -/
  committed : e.broker.committed p = (e.broker.history p).getLast?
  /-- There are as many entries as calls have returned. -/
  returned : (e.broker.history p).length + e.broker.failures p = e.returned p

/-- A call that returns is one entry more on the left of `Balanced.returned` and one call more on
its right. -/
theorem Balanced.enter {e e' : Engine} {p : Partition} (h : e.Balanced p) {q : Partition} {o : Offset}
    {answer : Except Error Unit} (hentered : e.broker.Enters e'.broker q o answer)
    (hreturned : e'.returned p = e.returned p + if q = p then 1 else 0) : e'.Balanced p := by
  by_cases hq : q = p
  · subst hq
    rw [if_pos rfl] at hreturned
    have hbalance := h.returned
    rcases answer with error | ⟨⟨⟩⟩
    · obtain ⟨-, hhistory, hcommitted, hfailures⟩ := hentered.error error rfl
      refine ⟨?_, ?_⟩
      · rw [hhistory, hcommitted, h.committed]
      · rw [hhistory, hfailures, hreturned]
        omega
    · obtain ⟨hhistory, hcommitted, hfailures⟩ := hentered.ok rfl
      refine ⟨?_, ?_⟩
      · rw [hhistory, hcommitted, List.getLast?_concat]
      · rw [hhistory, hfailures, hreturned, List.length_append, List.length_singleton]
        omega
  · rw [if_neg hq, Nat.add_zero] at hreturned
    have haccount := hentered.others p (Ne.symm hq)
    refine ⟨?_, ?_⟩
    · rw [Broker.committed, Broker.history, haccount]
      exact h.committed
    · rw [Broker.history, Broker.failures, haccount, hreturned]
      exact h.returned

/-- An action that `Returns` preserves `Balanced`. -/
theorem Balanced.of_returns {e e' : Engine} {a : EngineAction} {p : Partition} (h : e.Balanced p)
    (hreturns : e.Returns a e') : e'.Balanced p := by
  cases hreturns with
  | none _ account rulings answered =>
      refine ⟨?_, ?_⟩
      · rw [Broker.committed, Broker.history, account]
        exact h.committed
      · rw [Broker.history, Broker.failures, account, Engine.returned, rulings, answered]
        exact h.returned
  | lane r answer _ _ _ rulings answered entered =>
      refine h.enter entered ?_
      rw [Engine.returned, Engine.returned, rulings, answered, List.length_append]
      split
      · rw [List.length_singleton]
        omega
      · rfl
  | direct c answer _ _ _ rulings answered entered =>
      refine h.enter entered ?_
      rw [Engine.returned, Engine.returned, rulings, answered, Nat.add_assoc]

/-- At the start every account is empty and no call has returned. -/
theorem balanced_start (setup : Setup) (seed : UInt64) (faults : Faults) (p : Partition) :
    (start setup (.start seed faults)).Balanced p := by
  have hrecorded := recorded_start setup seed faults p
  refine ⟨hrecorded.committed, ?_⟩
  rw [hrecorded.history, hrecorded.failures]
  rfl

/-- The balance holds along every run: `Balanced.of_returns` for each action. -/
theorem Balanced.run {e : Engine} {p : Partition} (h : e.Balanced p) (hsound : e.Sound)
    (hl : e.Ledger) (hw : e.Waiting) (actions : List EngineAction) : (e.run actions).Balanced p := by
  induction actions generalizing e with
  | nil => exact h
  | cons a rest ih =>
      exact ih (h.of_returns (returns_act hsound hl hw a)) (hsound.act a) (hl.act hsound a) (hw.act a)

/-- Along every run, direct calls that are pending have not returned: `Waiting.act` for each action. -/
theorem Waiting.run {e : Engine} (h : e.Waiting) (actions : List EngineAction) :
    (e.run actions).Waiting := by
  induction actions generalizing e with
  | nil => exact h
  | cons a rest ih => exact ih (h.act a)

/-- A call on which the client crashes leaves the broker as it was. -/
theorem broker_act_of_crashes {e : Engine} {a : EngineAction} {i : Nat} (h : e.crashes i a ≠ []) :
    (e.act a).broker = e.broker := by
  obtain ⟨r, hr⟩ := List.exists_mem_of_ne_nil _ h
  obtain ⟨lane, due, -, -, hact⟩ := exists_committing_of_crashes hr
  rw [hact, crash, foldl_abandon_eq]
  rfl

/-- **The ledger of the broker balances.** However lanes and direct calls take turns, with any
delays, faults and crashes, at every moment of a run: the committed offset of `p` is the last of its
history, and history and failures together have `e.returned p` entries (`Balanced`); `broker.total`
is the length of all histories together; and the account of `p` is what `Account.enter` makes of the
decisions about `p`. Every action lets at most one call return, whose answer is entered as
`Broker.Enters` says (`Returns`): a success appends its offset to the history of its own partition,
a failure adds one to `failures`, and no other partition changes. A call on which the client crashes
leaves the broker as it is. -/
theorem ledger_balances (setup : Setup) (seed : UInt64) (faults : Faults)
    (actions : List EngineAction) :
    let first := start setup (.start seed faults)
    let e := first.run actions
    (∀ p, e.Balanced p) ∧
      (∀ s : Finset Partition, (∀ p, e.broker.history p ≠ [] → p ∈ s) →
        e.broker.total = ∑ p ∈ s, (e.broker.history p).length) ∧
      (∀ p, e.broker.account p =
        ((first.decided actions).filter fun d => d.partition = p).foldl Account.enter .empty) ∧
      (∀ earlier a later, actions = earlier ++ a :: later →
        (first.run earlier).Returns a (first.run (earlier ++ [a])) ∧
          ((∃ i, (first.run earlier).crashes i a ≠ []) →
            (first.run (earlier ++ [a])).broker = (first.run earlier).broker)) := by
  intro first e
  have hsound : first.Sound := sound_start setup _
  have hl : first.Ledger := ledger_start setup _
  have hw : first.Waiting := waiting_start setup _
  refine ⟨fun p => (balanced_start setup seed faults p).run hsound hl hw actions,
    fun s hs => e.broker.total_eq hs, fun p => ?_, fun earlier a later _ => ?_⟩
  · obtain ⟨hbroker, hdecided⟩ := broker_run first actions
    have hempty : first.broker.account p = .empty := by
      simp [first, start, Broker.account, Broker.start]
    rw [hbroker, hdecided, Broker.account_run, hempty]
  · rw [run_append]
    refine ⟨returns_act (hsound.run earlier) (hl.run hsound earlier) (hw.run earlier) a, ?_⟩
    rintro ⟨i, hcrashes⟩
    exact broker_act_of_crashes hcrashes

end Engine

end OffsetCommit
