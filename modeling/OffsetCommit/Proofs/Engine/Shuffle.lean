import OffsetCommit.Proofs.Engine.Silence

/-!
# Revocations in another order

Revocations that wait in the mailbox one right behind the other may be taken in any order. Two of
them that are exchanged are taken at one time, when whatever was due before has been done, and by
then the lanes differ in leftovers alone. Engines are `Akin` when they are the same when tidied, up
to such exchanges (`Command.Shuffled`).

* `settle_swap`, `settle_shuffled`: when the engine has settled, an exchange makes no difference
  but for leftovers.
* `Akin.act`, `Akin.settle`: whatever clients do to engines that are akin they stay so, and when
  they have settled they have the same `tidied`.
* `isCongruence_akin`: so no difference shows between them.
* `akin_revokeEach`: the order in which partitions are revoked does not matter.
-/

namespace OffsetCommit

/-! ### Commands in another order -/

/-- Whether commands differ only in the order of revocations that come right one behind the other. -/
inductive Command.Shuffled : List Command → List Command → Prop where
  /-- There are no commands. -/
  | nil : Shuffled [] []
  /-- The first command is the same. -/
  | cons (command : Command) {commands commands' : List Command} :
      Shuffled commands commands' → Shuffled (command :: commands) (command :: commands')
  /-- The first two are revocations. -/
  | swap (p q : Partition) (commands : List Command) :
      Shuffled (.revoke p :: .revoke q :: commands) (.revoke q :: .revoke p :: commands)
  /-- The commands are put in another order twice. -/
  | trans {commands commands' commands'' : List Command} :
      Shuffled commands commands' → Shuffled commands' commands'' → Shuffled commands commands''

namespace Command.Shuffled

variable {commands commands' : List Command}

/-- Every list of commands is a shuffle of itself. -/
theorem refl (commands : List Command) : Shuffled commands commands := by
  induction commands with
  | nil => exact .nil
  | cons command rest ih => exact .cons command ih

/-- Further commands may follow on both sides. -/
theorem append_right (h : Shuffled commands commands') (later : List Command) :
    Shuffled (commands ++ later) (commands' ++ later) := by
  induction h with
  | nil => exact .refl later
  | cons command _ ih => exact .cons command ih
  | swap p q rest => exact .swap p q (rest ++ later)
  | trans _ _ ih ih' => exact .trans ih ih'

/-- Earlier commands may stand in front on both sides. -/
theorem append_left (h : Shuffled commands commands') (earlier : List Command) :
    Shuffled (earlier ++ commands) (earlier ++ commands') := by
  induction earlier with
  | nil => exact h
  | cons command rest ih => exact .cons command ih

/-- Revocations may be put in any order: permuted `partitions` give shuffled revocations. -/
theorem of_perm {partitions partitions' : List Partition} (h : partitions.Perm partitions') :
    Shuffled (partitions.map .revoke) (partitions'.map .revoke) := by
  induction h with
  | nil => exact .nil
  | cons p _ ih => exact .cons (.revoke p) ih
  | swap p q rest => exact .swap q p (rest.map .revoke)
  | trans _ _ ih ih' => exact .trans ih ih'

/-- The commands that matter when they are discarded come in the same order. -/
theorem filter_matters (h : Shuffled commands commands') :
    commands.filter matters = commands'.filter matters := by
  induction h with
  | nil => rfl
  | cons command _ ih => rw [List.filter_cons, ih, ← List.filter_cons]
  | swap p q rest => rfl
  | trans _ _ ih ih' => exact ih.trans ih'

end Command.Shuffled

namespace Engine

/-! ### Engines with other commands -/

/-- The engine with `commands` in its mailbox in place of what is there. -/
def handed (e : Engine) (commands : List Command) : Engine :=
  { e with mailbox := .ofList commands }

/-- Tidying an engine with other commands tidies the commands: a closed one keeps those that matter. -/
theorem tidied_handed (e : Engine) (commands : List Command) :
    (e.handed commands).tidied =
      e.tidied.handed (if e.isClosed then commands.filter Command.matters else commands) := by
  have htoObey : (e.handed commands).toObey =
      if e.isClosed then commands.filter Command.matters else commands := by
    have hmailbox : (e.handed commands).mailbox.toList = commands := Queue.toList_ofList commands
    rw [toObey, hmailbox]
    rfl
  rw [← htoObey]
  rfl

/-- An engine with `toObey` for its mailbox has the same `tidied`. -/
theorem handed_toObey (e : Engine) : (e.handed e.toObey).tidied = e.tidied := by
  have hsame : (if e.isClosed then e.toObey.filter Command.matters else e.toObey) = e.toObey := by
    rcases hclosed : e.isClosed
    · rfl
    · rw [toObey_of_closed hclosed, if_pos rfl, List.filter_filter]
      simp only [Bool.and_self]
  rw [tidied_handed, hsame]
  rfl

/-- Answering a direct call does not look at the mailbox. -/
theorem answerCall_handed (e : Engine) (commands : List Command) (place : Nat) :
    (e.handed commands).answerCall place = (e.answerCall place).handed commands := by
  have hcalls : (e.handed commands).pendingCalls = e.pendingCalls := rfl
  unfold answerCall
  rw [hcalls]
  rcases e.pendingCalls[place]? with _ | c <;> rfl

/-- Obeying a command does not look at the mailbox. -/
theorem obey_handed (e : Engine) (commands : List Command) (command : Command) :
    (e.handed commands).obey command = (e.obey command).handed commands := by
  cases command with
  | commit r =>
      have hlanes : (e.handed commands).lanes = e.lanes := rfl
      unfold obey route
      rw [hlanes]
      dsimp only
      split <;> rfl
  | revoke p => rfl
  | shutdown caller => rfl

/-- An engine that serves and has a command to take answers the calls that are due, and then takes
the command. -/
theorem next?_of_serving {e : Engine} (hserving : e.stage = .serving)
    (hmailbox : e.mailbox.toList ≠ []) :
    e.next? = ((e.pendingCalls.findIdx? e.canAnswer).map Move.answer).or (some .take) := by
  have hempty : e.mailbox.isEmpty = false := by
    rw [Bool.eq_false_iff]
    exact fun h => hmailbox (Queue.isEmpty_iff.mp h)
  have htake : e.isPossible .take = true := by
    rw [isPossible, hserving, hempty]
    rfl
  simp only [next?, urgent?, htake, if_true, Option.orElse_eq_orElse, Option.orElse_eq_or,
    Option.some_or]

/-- When no call is due, the next move is `.take`. -/
theorem next?_of_no_call_due {e : Engine} (hserving : e.stage = .serving)
    (hmailbox : e.mailbox.toList ≠ []) (hcalls : e.pendingCalls.findIdx? e.canAnswer = none) :
    e.next? = some .take := by
  rw [next?_of_serving hserving hmailbox, hcalls]
  rfl

/-- Revocations at the front of the mailbox are taken one after the other: the engine settles as one
with lanes `revokeEach partitions` and the mailbox `rest`. -/
theorem settle_of_revocations {e : Engine} (hserving : e.stage = .serving)
    (hcalls : e.pendingCalls.findIdx? e.canAnswer = none) {partitions : List Partition}
    {rest : List Command} (hmailbox : e.mailbox.toList = partitions.map .revoke ++ rest) :
    ∃ mailbox journal, mailbox.toList = rest ∧ e.settle =
      settle { e with
        mailbox := mailbox, lanes := e.lanes.revokeEach partitions, journal := journal } := by
  induction partitions generalizing e with
  | nil => exact ⟨e.mailbox, e.journal, hmailbox, rfl⟩
  | cons p others ih =>
      have hnext : e.next? = some .take :=
        next?_of_no_call_due hserving (by rw [hmailbox]; exact List.cons_ne_nil _ _) hcalls
      rcases hpop : e.mailbox.pop? with _ | ⟨command, left⟩
      · rw [Queue.pop?_eq_none_iff, hmailbox] at hpop
        cases hpop
      · have hfront := Queue.toList_of_pop? hpop
        rw [hmailbox] at hfront
        obtain ⟨rfl, hleft⟩ := List.cons.inj hfront
        have hmake : e.make .take = { e with
            mailbox := left
            lanes := (e.lanes.revoke p).1
            journal := e.journal ++ (e.lanes.revoke p).2 } := by
          show e.takeCommand = _
          rw [takeCommand, hpop]
          rfl
        rw [settle_of_next? hnext, hmake]
        exact ih (e := { e with
            mailbox := left
            lanes := (e.lanes.revoke p).1
            journal := e.journal ++ (e.lanes.revoke p).2 }) hserving hcalls hleft.symm

/-- What was reported, and how the mailbox holds its commands, cannot be told from `tidied`. -/
theorem tidied_mailbox (e : Engine) {mailbox mailbox' : Queue Command}
    (h : mailbox.toList = mailbox'.toList) (journal journal' : Array CommitEvent) :
    ({ e with mailbox := mailbox, journal := journal } : Engine).tidied =
      ({ e with mailbox := mailbox', journal := journal' } : Engine).tidied := by
  have htoObey : ({ e with mailbox := mailbox, journal := journal } : Engine).toObey =
      ({ e with mailbox := mailbox', journal := journal' } : Engine).toObey := by
    unfold toObey
    dsimp only
    rw [h]
    rfl
  rw [tidied, htoObey]
  rfl

/-! ### Two revocations exchanged -/

/-- Two revocations at the front of the mailbox may be exchanged, when no direct call is due. -/
theorem settle_swap_front {e : Engine} (hserving : e.stage = .serving)
    (hcalls : e.pendingCalls.findIdx? e.canAnswer = none) (p q : Partition) (after : List Command) :
    (e.handed (.revoke p :: .revoke q :: after)).settle.tidied =
      (e.handed (.revoke q :: .revoke p :: after)).settle.tidied := by
  have htaken : ∀ p q, ∃ mailbox journal, mailbox.toList = after ∧
      (e.handed (.revoke p :: .revoke q :: after)).settle = settle { e with
        mailbox := mailbox, lanes := e.lanes.revokeEach [p, q], journal := journal } := by
    intro p q
    have hmailbox : (e.handed (.revoke p :: .revoke q :: after)).mailbox.toList =
        [p, q].map .revoke ++ after := Queue.toList_ofList _
    exact settle_of_revocations (e := e.handed (.revoke p :: .revoke q :: after)) hserving hcalls
      hmailbox
  obtain ⟨mailbox, journal, hmailbox, heq⟩ := htaken p q
  obtain ⟨mailbox', journal', hmailbox', heq'⟩ := htaken q p
  have hended : (e.lanes.revokeEach [p, q]).hasEnded = e.lanes.hasEnded :=
    ((e.lanes.revoke p).1.hasEnded_revoke q).trans (e.lanes.hasEnded_revoke p)
  have hsame := e.tidied_mailbox (hmailbox.trans hmailbox'.symm) journal journal'
  have hlanes := withLanes_alike hsame (e.lanes.tidied_revoke_comm p q) fun k hk => by
    rw [← hended] at hk
    exact hk
  rw [heq, heq']
  exact respects_settle _ _ hlanes

/-- **Two revocations, one right behind the other, may be exchanged** wherever they stand in the
mailbox. The induction is on the work that is left until they come to the front. -/
theorem settle_swap (e : Engine) (before : List Command) (p q : Partition) (after : List Command) :
    (e.handed (before ++ .revoke p :: .revoke q :: after)).settle.tidied =
      (e.handed (before ++ .revoke q :: .revoke p :: after)).settle.tidied := by
  have hclosed : ∀ {e : Engine}, e.isClosed = true → ∀ before : List Command,
      (e.handed (before ++ .revoke p :: .revoke q :: after)).settle.tidied =
        (e.handed (before ++ .revoke q :: .revoke p :: after)).settle.tidied := by
    intro e hclosed before
    have hshuffled := Command.Shuffled.append_left (.swap p q after) before
    apply respects_settle
    rw [tidied_handed, tidied_handed, hclosed, if_pos rfl, if_pos rfl, hshuffled.filter_matters]
  -- until the first of the two is taken both engines make the same moves
  induction hwork : (e.handed (before ++ .revoke p :: .revoke q :: after)).work
    using Nat.strong_induction_on generalizing e before with
  | _ n ih =>
      rcases hopen : e.isClosed
      · have hserving : e.stage = .serving := by simpa [isClosed] using hopen
        have hnonempty : ∀ p q, (e.handed (before ++ .revoke p :: .revoke q :: after)).mailbox.toList ≠
            [] := by
          intro p q
          have hmailbox : (e.handed (before ++ .revoke p :: .revoke q :: after)).mailbox.toList =
            before ++ .revoke p :: .revoke q :: after := Queue.toList_ofList _
          rw [hmailbox]
          simp
        have hnext : ∀ p q, (e.handed (before ++ .revoke p :: .revoke q :: after)).next? =
            ((e.pendingCalls.findIdx? e.canAnswer).map Move.answer).or (some .take) := fun p q =>
          next?_of_serving (e := e.handed (before ++ .revoke p :: .revoke q :: after)) hserving
            (hnonempty p q)
        rcases hcalls : e.pendingCalls.findIdx? e.canAnswer with _ | place
        · rw [hcalls, Option.map_none, Option.none_or] at hnext
          rcases before with _ | ⟨command, before⟩
          · exact settle_swap_front hserving hcalls p q after
          · have hlt := work_make_lt (isPossible_of_next? (hnext p q))
            have htaken : ∀ p q, (e.handed (command :: before ++ .revoke p :: .revoke q :: after)).make
                .take = (e.obey command).handed (before ++ .revoke p :: .revoke q :: after) :=
              fun p q => e.obey_handed (before ++ .revoke p :: .revoke q :: after) command
            rw [htaken, hwork] at hlt
            rw [settle_of_next? (hnext p q), settle_of_next? (hnext q p), htaken, htaken]
            exact ih _ hlt _ _ rfl
        · rw [hcalls] at hnext
          have hlt := work_make_lt (isPossible_of_next? (hnext p q))
          have hanswered : ∀ p q, (e.handed (before ++ .revoke p :: .revoke q :: after)).make
              (.answer place) =
                (e.answerCall place).handed (before ++ .revoke p :: .revoke q :: after) := fun p q =>
            e.answerCall_handed _ place
          have hsame : ∀ p q, (e.handed (before ++ .revoke p :: .revoke q :: after)).next? =
              some (.answer place) := hnext
          rw [hanswered, hwork] at hlt
          rw [settle_of_next? (hsame p q), settle_of_next? (hsame q p), hanswered, hanswered]
          exact ih _ hlt _ _ rfl
      · exact hclosed hopen before

/-- So commands may be shuffled: `settle_swap` for each exchange. -/
theorem settle_shuffled (e : Engine) {commands commands' : List Command}
    (h : Command.Shuffled commands commands') (before : List Command) :
    (e.handed (before ++ commands)).settle.tidied =
      (e.handed (before ++ commands')).settle.tidied := by
  induction h generalizing before with
  | nil => rfl
  | cons command _ ih =>
      have hnext := ih (before ++ [command])
      simpa only [List.append_assoc, List.singleton_append] using hnext
  | swap p q after => exact e.settle_swap before p q after
  | trans _ _ ih ih' => exact (ih before).trans (ih' before)

/-! ### Engines that are akin -/

/-- Whether `e` and `e'` are the same when tidied, up to the order of revocations that come one
right behind the other. It is a congruence, by `isCongruence_akin`. -/
structure Akin (e e' : Engine) : Prop where
  /-- They are the same, what is in their mailboxes aside. -/
  tidied : e.tidied.handed [] = e'.tidied.handed []
  /-- The same is left to obey, in almost the same order. -/
  commands : Command.Shuffled e.toObey e'.toObey

namespace Akin

variable {e e' : Engine}

/-- Engines with the same `tidied` are akin. -/
theorem of_tidied (h : e.tidied = e'.tidied) : e.Akin e' :=
  ⟨congrArg (handed · []) h, toObey_alike h ▸ .refl _⟩

/-- Every engine is akin to itself. -/
theorem refl (e : Engine) : e.Akin e :=
  .of_tidied rfl

section Alike

variable (h : e.Akin e')

include h

/-- Engines that are akin have the same face. -/
theorem face : e.face = e'.face := by
  have hsame : (e.tidied.handed []).face = (e'.tidied.handed []).face := congrArg Engine.face h.tidied
  rw [← e.face_tidied, ← e'.face_tidied]
  exact hsame

/-- Their observers have noted the same. -/
theorem observed : e.observed = e'.observed :=
  (congrArg Engine.observed h.tidied :)

/-- Engines that are `Akin` refuse commands alike. -/
theorem isClosed : e.isClosed = e'.isClosed :=
  (congrArg Face.isClosed h.face :)

/-- With the same commands in their mailboxes they have the same `tidied`. -/
theorem handed (commands : List Command) :
    (e.handed commands).tidied = (e'.handed commands).tidied := by
  rw [tidied_handed, tidied_handed, h.isClosed]
  show (e.tidied.handed []).handed _ = (e'.tidied.handed []).handed _
  rw [h.tidied]

/-- **Engines that are akin are the same when they have settled**, leftovers aside: `e.settle.tidied
= e'.settle.tidied`. -/
theorem settle : e.settle.tidied = e'.settle.tidied :=
  calc e.settle.tidied
      = (e.handed e.toObey).settle.tidied := respects_settle _ _ e.handed_toObey.symm
    _ = (e.handed e'.toObey).settle.tidied := e.settle_shuffled h.commands []
    _ = (e'.handed e'.toObey).settle.tidied := respects_settle _ _ (h.handed e'.toObey)
    _ = e'.settle.tidied := respects_settle _ _ e'.handed_toObey

/-- A change `f` that has nothing to do with leftovers or with the mailbox leaves them akin. -/
theorem map {f : Engine → Engine} (hf : ∀ e, (f e).tidied.handed [] = f (e.tidied.handed []))
    (hcommands : ∀ e, (f e).toObey = e.toObey) : (f e).Akin (f e') := by
  refine ⟨?_, ?_⟩
  · rw [hf, h.tidied, ← hf]
  · rw [hcommands, hcommands]
    exact h.commands

/-- Posting the same command to both leaves them akin. -/
theorem push (hopen : e.isClosed = false) (command : Command) :
    Akin { e with mailbox := e.mailbox.push command } { e' with mailbox := e'.mailbox.push command } := by
  have hopen' : e'.isClosed = false := h.isClosed.symm.trans hopen
  have hposted : ∀ {e : Engine}, e.isClosed = false →
      ({ e with mailbox := e.mailbox.push command } : Engine).toObey = e.toObey ++ [command] := by
    intro e hopen
    rw [toObey_of_open hopen]
    exact (toObey_of_open (e := { e with mailbox := e.mailbox.push command }) hopen).trans
      (Queue.toList_push _ _)
  refine ⟨h.tidied, ?_⟩
  rw [hposted hopen, hposted hopen']
  exact h.commands.append_right [command]

/-- Issuing the same commit leaves them akin. -/
theorem submit (p : Partition) (o : Offset) (count : Nat) :
    (e.submit p o count).Akin (e'.submit p o count) := by
  have hsize : e.tickets.size = e'.tickets.size := (congrArg (fun e => e.tickets.size) h.tidied :)
  have hticket : ∀ status, Akin { e with tickets := e.tickets.push ⟨p, o, count, status⟩ }
      { e' with tickets := e'.tickets.push ⟨p, o, count, status⟩ } := fun status =>
    h.map (f := fun e => { e with tickets := e.tickets.push ⟨p, o, count, status⟩ }) (fun _ => rfl)
      fun _ => rfl
  unfold Engine.submit
  rw [← h.isClosed, ← hsize]
  rcases hclosed : e.isClosed
  · exact (hticket none).push hclosed (.commit ⟨e.tickets.size, p, o, count⟩)
  · exact hticket (some (.abandoned o))

/-- Revoking the same partition leaves them akin. -/
theorem revoke (p : Partition) : (e.revoke p).Akin (e'.revoke p) := by
  unfold Engine.revoke
  rw [← h.isClosed]
  rcases hclosed : e.isClosed
  · exact h.push hclosed (.revoke p)
  · exact h

/-- Asking both for a shutdown leaves them akin. -/
theorem shutdown : e.shutdown.Akin e'.shutdown := by
  have hsize : e.callers.size = e'.callers.size := (congrArg (fun e => e.callers.size) h.tidied :)
  have hcaller : ∀ told, Akin { e with callers := e.callers.push told }
      { e' with callers := e'.callers.push told } := fun told =>
    h.map (f := fun e => { e with callers := e.callers.push told }) (fun _ => rfl) fun _ => rfl
  unfold Engine.shutdown
  rw [← h.isClosed, ← hsize]
  rcases hclosed : e.isClosed
  · exact (hcaller false).push hclosed (.shutdown e.callers.size)
  · exact hcaller true

/-- **Whatever clients do to engines that are akin leaves them akin**, and so does the passing of
time: `(e.act a).Akin (e'.act a)` unless `a` is a move. -/
theorem act (a : EngineAction) (ha : ∀ move, a ≠ .move move) : (e.act a).Akin (e'.act a) := by
  cases a with
  | submit p o count => exact h.submit p o count
  | revoke p => exact h.revoke p
  | shutdown => exact h.shutdown
  | dropClients => exact h.map (f := dropClients) (fun _ => rfl) fun _ => rfl
  | changeFaults new => exact h.map (f := (·.changeFaults new)) (fun _ => rfl) fun _ => rfl
  | call p o => exact h.map (f := (·.call p o)) (fun _ => rfl) fun _ => rfl
  | passTo time => exact h.map (f := (·.passTo time)) (fun _ => rfl) fun _ => rfl
  | move move => exact absurd rfl (ha move)

end Alike

end Akin

/-- No difference shows between engines that are akin: `Akin` is an `IsCongruence`. -/
theorem isCongruence_akin : IsCongruence Akin where
  face h := h.face
  act h a ha := h.act a ha
  settle h := .of_tidied h.settle

/-! ### Several partitions revoked -/

/-- A closed engine does not post revocations. -/
theorem foldl_revoke_of_closed {e : Engine} (h : e.isClosed = true) (partitions : List Partition) :
    partitions.foldl revoke e = e := by
  induction partitions with
  | nil => rfl
  | cons p rest ih =>
      have hsame : e.revoke p = e := if_pos h
      rw [List.foldl_cons, hsame, ih]

/-- An open engine posts them behind its other commands. -/
theorem foldl_revoke_of_open {e : Engine} (h : e.isClosed = false) (partitions : List Partition) :
    ∃ mailbox, mailbox.toList = e.mailbox.toList ++ partitions.map .revoke ∧
      partitions.foldl revoke e = { e with mailbox := mailbox } := by
  induction partitions generalizing e with
  | nil => exact ⟨e.mailbox, (List.append_nil _).symm, rfl⟩
  | cons p rest ih =>
      have hfirst : e.revoke p = { e with mailbox := e.mailbox.push (.revoke p) } :=
        if_neg (by rw [h]; exact Bool.false_ne_true)
      obtain ⟨mailbox, hmailbox, heq⟩ := ih (e := { e with mailbox := e.mailbox.push (.revoke p) }) h
      refine ⟨mailbox, ?_, ?_⟩
      · rw [hmailbox, Queue.toList_push, List.append_assoc]
        rfl
      · rw [List.foldl_cons, hfirst, heq]

/-- **The order in which partitions are revoked does not matter**: permuted `partitions` lead to
engines that are akin. -/
theorem akin_revokeEach (e : Engine) {partitions partitions' : List Partition}
    (h : partitions.Perm partitions') :
    (partitions.foldl revoke e).Akin (partitions'.foldl revoke e) := by
  rcases hclosed : e.isClosed
  · obtain ⟨mailbox, hmailbox, heq⟩ := foldl_revoke_of_open hclosed partitions
    obtain ⟨mailbox', hmailbox', heq'⟩ := foldl_revoke_of_open hclosed partitions'
    rw [heq, heq']
    refine ⟨rfl, ?_⟩
    rw [toObey_of_open (e := { e with mailbox := mailbox }) hclosed,
      toObey_of_open (e := { e with mailbox := mailbox' }) hclosed, hmailbox, hmailbox']
    exact (Command.Shuffled.of_perm h).append_left _
  · rw [foldl_revoke_of_closed hclosed, foldl_revoke_of_closed hclosed]
    exact .refl e

end Engine

end OffsetCommit
