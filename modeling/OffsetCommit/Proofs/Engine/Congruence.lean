import OffsetCommit.Proofs.Engine.Work

/-!
# Engines between which no difference shows

Whoever waits for an engine sees of it what is in its `Engine.Face`. A congruence `R` is a relation
between engines that have the same face; whatever clients do and however time passes they stay
related, and so they do when they settle. Waiting goes from one settled engine to the next, at times
that can be told from the face.

* `IsCongruence.query`: a question that `Shows` has the same answer at related engines.
* `IsCongruence.halts`: waiting stands still at related engines, `List.Forall₂ R (e.halts isDone)
  (e'.halts isDone)`.
* `IsCongruence.await`, `IsCongruence.elapse`: so it leads from related engines to related ones.
-/

namespace OffsetCommit

namespace Engine

/-! ### Standing still -/

/-- The engines at which `await isDone` stands still, with so much fuel: each has settled, and from
one to the next the clock moves on to `nextDue?`. -/
def haltsWithin : Nat → (Engine → Bool) → Engine → List Engine
  | 0, _, e => [e.settle]
  | fuel + 1, isDone, e =>
      e.settle ::
        if isDone e.settle then []
        else
          match e.settle.nextDue? with
          | none => []
          | some due => haltsWithin fuel isDone (e.settle.passTo due)

/-- The engines at which `e.await isDone` stands still, the last of which it returns
(`getLast?_halts`). -/
def halts (isDone : Engine → Bool) (e : Engine) : List Engine :=
  haltsWithin e.work isDone e

/-- The last of `haltsWithin` is where waiting with the same fuel ends. -/
theorem getLast?_haltsWithin (fuel : Nat) (isDone : Engine → Bool) (e : Engine) :
    (haltsWithin fuel isDone e).getLast? = some (awaitWithin fuel isDone e) := by
  induction fuel generalizing e with
  | zero => rfl
  | succ fuel ih =>
      unfold haltsWithin awaitWithin
      dsimp only
      split
      · rfl
      · rcases e.settle.nextDue? with _ | due
        · rfl
        · dsimp only
          rw [List.getLast?_cons, ih]
          rfl

/-- The last of `e.halts isDone` is `e.await isDone`. -/
theorem getLast?_halts (isDone : Engine → Bool) (e : Engine) :
    (e.halts isDone).getLast? = some (e.await isDone) :=
  getLast?_haltsWithin e.work isDone e

/-- With enough fuel `haltsWithin` unfolds without mention of it: the settled engine, and what
follows the next decision unless `isDone` holds. -/
theorem haltsWithin_eq {fuel : Nat} {isDone : Engine → Bool} {e : Engine}
    (h : e.settle.work ≤ fuel) : haltsWithin fuel isDone e =
      e.settle :: if isDone e.settle then []
        else match e.settle.nextDue? with
          | none => []
          | some due => haltsWithin (fuel - 1) isDone (e.settle.passTo due) := by
  cases fuel with
  | zero =>
      rcases hdue : e.settle.nextDue? with _ | due
      · simp only [haltsWithin, ite_self]
      · have hlt := work_settle_passTo_lt hdue
        omega
  | succ fuel => rfl

/-! ### Faces -/

/-- What shows of an engine: its time and its broker, the commits and requests that were made of it
with the answers to them, whether it refuses commands, and when the next commit is decided. -/
structure Face where
  /-- The time. -/
  now : Nat
  /-- The broker. -/
  broker : Broker
  /-- The issued commits. -/
  tickets : Array Ticket
  /-- The requests to shut down. -/
  callers : Array Bool
  /-- The direct commits. -/
  calls : Array DirectCall
  /-- Whether commands are refused. -/
  isClosed : Bool
  /-- The earliest time at which a commit under way is decided. -/
  nextDue? : Option Nat

/-- What shows of the engine. -/
def face (e : Engine) : Face :=
  ⟨e.now, e.broker, e.tickets, e.callers, e.calls, e.isClosed, e.nextDue?⟩

/-- Whether `query` can be answered from the face of an engine: it is the same for engines with the
same `face`. -/
def Shows {α : Type} (query : Engine → α) : Prop :=
  ∀ e e', e.face = e'.face → query e = query e'

/-- What is computed from `e.face` shows. -/
theorem shows_of_face {α : Type} (query : Face → α) : Shows fun e => query e.face :=
  fun _ _ h => congrArg query h

/-- The time shows. -/
theorem shows_now : Shows now := shows_of_face Face.now

/-- The broker shows. -/
theorem shows_broker : Shows broker := shows_of_face Face.broker

/-- Whether commands are refused shows. -/
theorem shows_isClosed : Shows isClosed := shows_of_face Face.isClosed

/-- The time of the next decision shows. -/
theorem shows_nextDue? : Shows nextDue? := shows_of_face Face.nextDue?

/-- The status of each ticket shows. -/
theorem shows_status? (ticket : Nat) : Shows (·.status? ticket) :=
  shows_of_face fun f => f.tickets[ticket]?.bind Ticket.status

/-- Whether a request to shut down has been answered shows. -/
theorem shows_hasReturned (caller : Nat) : Shows (·.hasReturned caller) :=
  shows_of_face fun f => f.callers[caller]?.getD false

/-- The answer to each direct call shows. -/
theorem shows_answer? (call : Nat) : Shows (·.answer? call) :=
  shows_of_face fun f => f.calls[call]?.bind DirectCall.answer

/-- Whether nothing is decided before `time` shows, as `nextDue?` does. -/
theorem shows_isIdleUntil (time : Nat) : Shows (isIdleUntil time) :=
  shows_of_face fun f => match f.nextDue? with | none => true | some due => time < due

/-- If `query` shows, so does whatever is computed from its answer. -/
theorem Shows.map {α β : Type} {query : Engine → α} (h : Shows query) (f : α → β) :
    Shows fun e => f (query e) :=
  fun e e' hface => congrArg f (h e e' hface)

/-! ### Congruences -/

/-- Whether engines related by `R` show the same face and stay related by every action and by
`settle`. From this alone the sessions over them are told the same (`Session.Related.playAll`). -/
structure IsCongruence (R : Engine → Engine → Prop) : Prop where
  /-- The same shows of them. -/
  face : ∀ {e e' : Engine}, R e e' → e.face = e'.face
  /-- What is done to both leaves them related. -/
  act : ∀ {e e' : Engine}, R e e' → ∀ a : EngineAction, (∀ move, a ≠ .move move) →
    R (e.act a) (e'.act a)
  /-- They settle as related ones. -/
  settle : ∀ {e e' : Engine}, R e e' → R e.settle e'.settle

namespace IsCongruence

variable {R : Engine → Engine → Prop} (hR : IsCongruence R) {e e' : Engine}

include hR

/-- Related engines answer alike every `query` that `Shows`. -/
theorem query (h : R e e') {α : Type} {query : Engine → α} (hquery : Shows query) :
    query e = query e' :=
  hquery e e' (hR.face h)

/-- Revoking the same partitions leaves engines related: `IsCongruence.act` for each of them. -/
theorem revokeEach (h : R e e') (partitions : List Partition) :
    R (partitions.foldl revoke e) (partitions.foldl revoke e') := by
  induction partitions generalizing e e' with
  | nil => exact h
  | cons p rest ih => exact ih (hR.act h (.revoke p) fun _ => EngineAction.noConfusion)

/-- Related engines have related halts, each with fuel enough for its own work. The induction is on
the fuel of the first. -/
theorem haltsWithin {isDone : Engine → Bool} (hdone : Shows isDone) {fuel fuel' : Nat}
    (h : R e e') (hfuel : e.settle.work ≤ fuel) (hfuel' : e'.settle.work ≤ fuel') :
    List.Forall₂ R (haltsWithin fuel isDone e) (haltsWithin fuel' isDone e') := by
  induction fuel using Nat.strong_induction_on generalizing fuel' e e' with
  | _ fuel ih =>
      have hsettled := hR.settle h
      have hdue := hR.query hsettled shows_nextDue?
      rw [haltsWithin_eq hfuel, haltsWithin_eq hfuel', ← hR.query hsettled hdone, ← hdue]
      refine .cons hsettled ?_
      split
      · exact .nil
      · rcases hnext : e.settle.nextDue? with _ | due
        · exact .nil
        · have hlt := work_settle_passTo_lt hnext
          have hlt' := work_settle_passTo_lt (hdue ▸ hnext)
          have hpassed := hR.act hsettled (.passTo due) fun _ => EngineAction.noConfusion
          exact ih (fuel - 1) (by omega) hpassed (by omega) (by omega)

/-- **Waiting stands still at related engines**, one by one. -/
theorem halts {isDone : Engine → Bool} (hdone : Shows isDone) (h : R e e') :
    List.Forall₂ R (e.halts isDone) (e'.halts isDone) :=
  hR.haltsWithin hdone h e.work_settle_le e'.work_settle_le

/-- Waiting leads from related engines to related ones: the last halts are related. -/
theorem await {isDone : Engine → Bool} (hdone : Shows isDone) (h : R e e') :
    R (e.await isDone) (e'.await isDone) := by
  have hlast : ∀ {engines engines' : List Engine}, List.Forall₂ R engines engines' →
      ∀ x ∈ engines.getLast?, ∀ y ∈ engines'.getLast?, R x y := by
    intro engines engines' hengines
    induction hengines with
    | nil => exact fun x hx => by cases hx
    | cons hfirst hrest ih =>
        cases hrest with
        | nil =>
            intro x hx y hy
            obtain rfl := Option.some.inj hx
            obtain rfl := Option.some.inj hy
            exact hfirst
        | cons _ _ => exact ih
  exact hlast (hR.halts hdone h) _ (getLast?_halts isDone e) _ (getLast?_halts isDone e')

/-- Letting time pass leads from related engines to related ones: `elapse` is waiting until nothing
is decided within the span, and then a pause. -/
theorem elapse (h : R e e') (span : Nat) : R (e.elapse span) (e'.elapse span) := by
  have hwaited := hR.await (shows_isIdleUntil (e.now + span)) h
  have hpassed := hR.act hwaited (.passTo (e.now + span)) fun _ => EngineAction.noConfusion
  show R (((e.await _).passTo _).settle) (((e'.await _).passTo _).settle)
  rw [← hR.query h shows_now]
  exact hR.settle hpassed

end IsCongruence

end Engine

end OffsetCommit
