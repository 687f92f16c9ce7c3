import OffsetCommit.Proofs.Broker.Accounts
import OffsetCommit.Proofs.Broker.Draws
import OffsetCommit.Proofs.Engine.Asked

/-!
# Faults follow the draws

However lanes, direct calls and changes of the settings take turns, the faults of a run are those of a
broker that is asked for its commits one after the other. They are a function of the seed and of the
number of draws that were really made.

* `FaultStream seed faults` lists what holds of `Broker.start seed faults`, whatever it is asked: which
  commits are rejected and by which draw (`rules`, `draws`, `once`), what a commit answers and enters
  into the accounts (`commit`, `accounts`), and which changes of the list leave all other commits alone
  (`idle`, `isIdle`, `order`, `shift`, `resume`).
* `Engine.faults_follow_draws` reads off a run of the engine what its broker is asked,
  `Engine.asked`, so that all of this holds of the run.
-/

namespace OffsetCommit

/-- What a broker with this `seed` and these `faults` does whatever it is asked: which commits it
rejects, what it answers to each and enters into which account, and which draws it makes for it. -/
structure FaultStream (seed : UInt64) (faults : Faults) : Prop where
  /-- Every commit that is asked for is decided, in this order. -/
  complete : ∀ asked, ((Broker.start seed faults).decided asked).map
      (fun d => (d.partition, d.offset)) = asked.filterMap BrokerAction.commit?
  /-- Each of them follows the rules, and what counts are the settings that it finds and the draws of
  the commits before it. -/
  rules : ∀ asked (k : Nat) d, ((Broker.start seed faults).decided asked)[k]? = some d →
    ∃ f, (faults.found asked)[k]? = some f ∧
      f.Rules seed (Faults.drawCount ((faults.found asked).take k)) d.fault
  /-- A `commit p o` decides by `decideNext`. If there is a fault, the caller is told so; otherwise the
  answer is `.ok ()`. The decision is entered into the account of `p` and into no other, and the seed,
  the draws and the settings that the next commit finds are those that `decideNext` leaves. -/
  commit : ∀ front p o, let b := (Broker.start seed faults).run front
    let d : DecidedCommit := ⟨p, o, b.decideNext.1⟩
    (Broker.start seed faults).decided (front ++ [.commit p o]) =
        (Broker.start seed faults).decided front ++ [d] ∧
      b.commit p o = (d.answer, b.decideNext.2.update p (·.enter d)) ∧
      (∀ fault, d.fault = some fault →
        (b.commit p o).1 = .error (.commitFailed p o fault.message)) ∧
      (d.fault = none → (b.commit p o).1 = .ok ()) ∧
      b.Enters (b.commit p o).2 p o (b.commit p o).1
  /-- So the account of a partition is what the decisions on its commits make of it: the history has
  the offsets that were not rejected, the last of them is committed, and the others are counted. -/
  accounts : ∀ asked p, let b := (Broker.start seed faults).run asked
    let own := ((Broker.start seed faults).decided asked).filter fun d => d.partition = p
    b.history p = own.filterMap DecidedCommit.stored? ∧
      b.committed p = (own.filterMap DecidedCommit.stored?).getLast? ∧
      b.failures p = own.countP (·.fault.isSome)
  /-- No other draws are made. -/
  draws : ∀ asked, ((Broker.start seed faults).run asked).draws =
    Faults.drawCount (faults.found asked)
  /-- An order to reject that is not taken back by hand lets the next commit fail without a draw, the
  caller is told so, and the order is used up by that. -/
  once : ∀ front order changes p o later, order.force = some true →
    (∀ new ∈ changes, new.force ≠ some false) → (∀ new ∈ later, new.force ≠ some true) →
    let b := (Broker.start seed faults).run front
    let told := (b.changeFaults order).changes changes
    told.decideNext.1 = some .forced ∧
      (told.commit p o).1 = .error (.commitFailed p o Fault.forced.message) ∧
      (told.commit p o).2.draws = b.draws ∧
      ((told.commit p o).2.changes later).faults.force = false
  /-- What is idle can be put in anywhere or left out, and all other commits are decided alike. -/
  idle : ∀ front inserted back, ((Broker.start seed faults).run front).IsIdle inserted →
    ∃ rest, (Broker.start seed faults).decided (front ++ inserted ++ back) =
        (Broker.start seed faults).decided front ++
          ((Broker.start seed faults).run front).decided inserted ++ rest ∧
      (Broker.start seed faults).decided (front ++ back) =
        (Broker.start seed faults).decided front ++ rest
  /-- Idle is a commit without a draw that finds no order, and a commit together with its order. -/
  isIdle : ∀ front p o, let b := (Broker.start seed faults).run front
    (b.faults.force = false → b.faults.draws = false → b.IsIdle [.commit p o]) ∧
      (b.faults.force = false → b.IsIdle [.change ⟨none, some true, none⟩, .commit p o]) ∧
      (b.faults.force = true → b.IsIdle [.commit p o, .change ⟨none, some true, none⟩])
  /-- In the order of decisions, those that make no draw can stand anywhere. -/
  order : ∀ asked asked' front quiet back, faults.found asked = front ++ quiet ++ back →
    faults.found asked' = front ++ back → (∀ f ∈ quiet, f.draws = false) →
    ∃ before between after,
      ((Broker.start seed faults).decided asked).map DecidedCommit.fault =
          before ++ between ++ after ∧
        ((Broker.start seed faults).decided asked').map DecidedCommit.fault = before ++ after ∧
        before.length = front.length ∧ between.length = quiet.length ∧ after.length = back.length
  /-- The draws from the `k`-th on are those of the seed that is `k` further on. -/
  shift : ∀ k n, draw seed (k + n) = draw (seed + UInt64.ofNat k) n
  /-- So a broker that has made `k` draws decides like a new one whose seed is `k` further on. -/
  resume : ∀ front back, let b := (Broker.start seed faults).run front
    b.decided back = (Broker.start (seed + UInt64.ofNat b.draws) b.faults).decided back

section

variable (seed : UInt64) (faults : Faults)

/-- An order to reject that is not taken back makes the next commit fail, whatever else is changed
meanwhile. The commit makes no draw, and the order is gone afterwards. -/
theorem Broker.commit_of_ordered (b : Broker) {order : FaultsChange} (horder : order.force = some true)
    {changes : List FaultsChange} (hchanges : ∀ new ∈ changes, new.force ≠ some false)
    (p : Partition) (o : Offset) :
    let told := (b.changeFaults order).changes changes
    told.decideNext.1 = some .forced ∧
      (told.commit p o).1 = .error (.commitFailed p o Fault.forced.message) ∧
      (told.commit p o).2.draws = b.draws ∧ (told.commit p o).2.faults.force = false := by
  intro told
  have hset : (b.changeFaults order).faults.force = true := by
    show order.force.getD _ = true
    rw [horder, Option.getD_some]
  have htold : told.faults.force = true := Broker.force_changes _ hset hchanges
  have hforced : told.decideNext.1 = some .forced := by
    rw [Broker.decideNext_eq]
    exact Faults.fault?_of_force htold
  refine ⟨hforced, told.answer_commit_of_fault p o hforced, ?_, ?_⟩
  · rw [(told.commit_snd_eq p o).2.1, Faults.draws_of_force htold, Broker.draws_changes]
    rfl
  · rw [(told.commit_snd_eq p o).2.2]
    rfl

/-- The accounts of a broker that has been asked for commits since its start hold the decisions. -/
theorem Broker.accounts_run (asked : List BrokerAction) (p : Partition) :
    let b := (Broker.start seed faults).run asked
    let own := ((Broker.start seed faults).decided asked).filter fun d => d.partition = p
    b.history p = own.filterMap DecidedCommit.stored? ∧
      b.committed p = (own.filterMap DecidedCommit.stored?).getLast? ∧
      b.failures p = own.countP (·.fault.isSome) := by
  intro b own
  have hhistory : b.history p = own.filterMap DecidedCommit.stored? :=
    (Broker.history_run _ asked p).trans (List.nil_append _)
  refine ⟨hhistory, hhistory ▸ Broker.committed_run rfl asked, ?_⟩
  exact (Broker.failures_run _ asked p).trans (Nat.zero_add _)

/-- **Every broker has a fault stream**: `FaultStream seed faults` holds of `Broker.start seed faults`. -/
theorem faultStream : FaultStream seed faults where
  complete := Broker.map_decided _
  rules asked k d hd := by
    obtain ⟨f, hf, hrules⟩ := Broker.rules_of_decided hd
    have hstart : (Broker.start seed faults).draws = 0 := rfl
    rw [hstart, Nat.zero_add] at hrules
    exact ⟨f, hf, hrules⟩
  commit front p o :=
    let b := (Broker.start seed faults).run front
    ⟨Broker.decided_append .., b.commit_eq p o, fun _ hfault => b.answer_commit_of_fault p o hfault,
      b.answer_commit_of_none p o, b.enters_commit p o⟩
  accounts := Broker.accounts_run seed faults
  draws asked := by
    rw [Broker.draws_run]
    exact Nat.zero_add _
  once front order changes p o later horder hchanges hlater := by
    obtain ⟨hforced, hanswer, hdraws, hcleared⟩ :=
      ((Broker.start seed faults).run front).commit_of_ordered horder hchanges p o
    exact ⟨hforced, hanswer, hdraws, Broker.force_changes _ hcleared hlater⟩
  idle front inserted back hidle := by
    refine ⟨((Broker.start seed faults).run front).decided back, ?_, Broker.decided_append ..⟩
    rw [List.append_assoc, Broker.decided_append, hidle.decided_append, List.append_assoc]
  isIdle _ p o :=
    ⟨fun hforce hdraws => Broker.isIdle_commit hforce hdraws p o,
      fun hforce => Broker.isIdle_forced hforce p o,
      fun hforce => Broker.isIdle_forced_of_force hforce p o⟩
  order _ _ _ _ _ h h' hquiet := Broker.fault_decided_of_found h h' hquiet
  shift := draw_add seed
  resume front back := by
    intro b
    have hseed : b.seed = seed := Broker.seed_run _ front
    rw [b.decided_shift, hseed]
    refine Broker.decided_congr ?_ ?_ ?_ back <;> rfl

end

namespace Engine

/-- **Faults follow the draws.** Whatever the `actions` of a run are, its broker and the commits that it
decides are those of `Broker.start seed faults` asked for `first.asked actions`, one after the other. So
all that `FaultStream seed faults` says about decisions, answers and accounts holds of the run. -/
theorem faults_follow_draws (setup : Setup) (seed : UInt64) (faults : Faults)
    (actions : List EngineAction) :
    let first := start setup (.start seed faults)
    (first.run actions).broker = (Broker.start seed faults).run (first.asked actions) ∧
      first.decided actions = (Broker.start seed faults).decided (first.asked actions) ∧
      FaultStream seed faults := by
  intro first
  obtain ⟨hbroker, hdecided⟩ := broker_run first actions
  exact ⟨hbroker, hdecided, faultStream seed faults⟩

end Engine

end OffsetCommit
