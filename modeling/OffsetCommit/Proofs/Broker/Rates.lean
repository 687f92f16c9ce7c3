import OffsetCommit.Proofs.Broker.Draws

/-!
# Two rates

Two brokers with the same seed are asked the same, and the rate of one is at most that of the other:
`Broker.Raises`. The rates never change. As long as neither rate decides by itself both brokers make
the same draws, and a draw below the lower rate is below the higher one as well
(`Faults.Raises.fault?`). If a rate decides by itself, the draws of its broker do not matter. So
what the first broker rejects is rejected by the second, commit by commit (`Broker.Raises.run`), and
the accounts follow (`DecidedCommit.Worsens.accounts`).
-/

namespace OffsetCommit

/-- Whether the rate stays what it is. -/
def BrokerAction.KeepsRate : BrokerAction → Prop
  | .commit _ _ => True
  | .change new => new.rate = none

/-- How the fault of a commit can differ where more commits are rejected: it can have one that it did
not have. -/
def FaultWorsens (fault fault' : Option Fault) : Prop :=
  fault' = fault ∨ fault = none ∧ fault' = some .random

/-- How a decision can differ where more commits are rejected. -/
structure DecidedCommit.Worsens (d d' : DecidedCommit) : Prop where
  /-- It is about the same partition. -/
  partition : d'.partition = d.partition
  /-- It is about the same offset. -/
  offset : d'.offset = d.offset
  /-- A commit that was rejected is rejected for the same reason. -/
  fault : FaultWorsens d.fault d'.fault

/-- Settings with a higher rate, and otherwise the same. -/
structure Faults.Raises (f f' : Faults) : Prop where
  /-- The next commit is rejected by order in neither case or in both. -/
  force : f'.force = f.force
  /-- Commits take the same time. -/
  delay : f'.delay = f.delay
  /-- The rate is at least as high. -/
  rate : f.rate.IsAtMost f'.rate

/-- Spending the order keeps `Raises`. -/
theorem Faults.Raises.spent {f f' : Faults} (h : f.Raises f') : f.spent.Raises f'.spent :=
  ⟨rfl, h.delay, h.rate⟩

/-- A rate does not decide by itself exactly when it is neither `atMost 0` nor `atLeast 1`. -/
theorem settledByRate?_eq_none_iff {rate : Binary64} :
    settledByRate? rate = none ↔ rate.atMost 0 = false ∧ rate.atLeast 1 = false := by
  unfold settledByRate?
  cases rate.atMost 0 <;> cases rate.atLeast 1 <;> simp

/-- A rate rejects a commit whose draw is `q` exactly when it is not `atMost 0`, and is `atLeast 1`
or above `q`. -/
theorem settledByRate?_getD_iff {rate : Binary64} {q : Rat} :
    (settledByRate? rate).getD (rate.above q) = true ↔
      rate.atMost 0 = false ∧ (rate.atLeast 1 = true ∨ rate.above q = true) := by
  unfold settledByRate?
  cases rate.atMost 0 <;> cases rate.atLeast 1 <;> simp

/-- **A higher rate takes no fault away**, if both rates leave it to the same draw. -/
theorem Faults.Raises.fault? {f f' : Faults} (h : f.Raises f') {seed : UInt64} {n n' : Nat}
    (hdraws : settledByRate? f.rate = none → settledByRate? f'.rate = none → n' = n) :
    FaultWorsens (f.fault? seed n) (f'.fault? seed n') := by
  unfold Faults.fault?
  rw [h.force]
  split
  · exact .inl rfl
  by_cases hlow : (settledByRate? f.rate).getD (f.rate.above (draw seed n)) = true
  · -- what the lower rate rejects is rejected by the higher one
    have hhigh : (settledByRate? f'.rate).getD (f'.rate.above (draw seed n')) = true := by
      obtain ⟨hpos, hrejects⟩ := settledByRate?_getD_iff.mp hlow
      have hpos' : f'.rate.atMost 0 = false :=
        Bool.eq_false_iff.mpr fun hzero => Bool.eq_false_iff.mp hpos (h.rate.atMost hzero)
      refine settledByRate?_getD_iff.mpr ⟨hpos', ?_⟩
      rcases hone' : f'.rate.atLeast 1 with _ | _
      · have hone : f.rate.atLeast 1 = false :=
          Bool.eq_false_iff.mpr fun hone => Bool.eq_false_iff.mp hone' (h.rate.atLeast hone)
        rw [hone] at hrejects
        rw [hdraws (settledByRate?_eq_none_iff.mpr ⟨hpos, hone⟩)
          (settledByRate?_eq_none_iff.mpr ⟨hpos', hone'⟩)]
        exact .inr (h.rate.above (hrejects.resolve_left Bool.false_ne_true))
      · exact .inl rfl
    rw [if_pos hlow, if_pos hhigh]
    exact .inl rfl
  · rw [if_neg hlow]
    split
    · exact .inr ⟨rfl, rfl⟩
    · exact .inl rfl

namespace Broker

/-- What connects a broker with one whose rate is higher. -/
structure Raises (b b' : Broker) : Prop where
  /-- They have the same seed. -/
  seed : b'.seed = b.seed
  /-- Their settings are the same up to the rate. -/
  faults : b.faults.Raises b'.faults
  /-- If both make draws, they have made the same ones. -/
  draws : settledByRate? b.faults.rate = none → settledByRate? b'.faults.rate = none →
    b'.draws = b.draws

variable {b b' : Broker}

/-- What the first broker rejects with `decideNext` is rejected by the second. -/
theorem Raises.decideNext (h : b.Raises b') :
    FaultWorsens b.decideNext.1 b'.decideNext.1 := by
  rw [decideNext_eq, decideNext_eq, h.seed]
  exact h.faults.fault? h.draws

/-- A commit keeps `Raises`. -/
theorem Raises.commit (h : b.Raises b') (p : Partition) (o : Offset) :
    (b.commit p o).2.Raises (b'.commit p o).2 := by
  obtain ⟨hseed, hdraws, hfaults⟩ := b.commit_snd_eq p o
  obtain ⟨hseed', hdraws', hfaults'⟩ := b'.commit_snd_eq p o
  constructor
  case seed => rw [hseed, hseed', h.seed]
  case faults =>
    rw [hfaults, hfaults']
    exact h.faults.spent
  case draws =>
    rw [hfaults, hfaults', hdraws, hdraws']
    intro hrate hrate'
    -- both make a draw, or neither does
    rw [h.draws hrate hrate', Faults.draws, Faults.draws, h.faults.force,
      show settledByRate? b.faults.rate = none from hrate,
      show settledByRate? b'.faults.rate = none from hrate']

/-- A change of the settings that leaves the rate keeps `Raises`. -/
theorem Raises.changeFaults (h : b.Raises b') {new : FaultsChange} (hnew : new.rate = none) :
    (b.changeFaults new).Raises (b'.changeFaults new) := by
  have hrate : ∀ x : Broker, (x.changeFaults new).faults.rate = x.faults.rate := by
    intro x
    show new.rate.getD x.faults.rate = _
    rw [hnew, Option.getD_none]
  constructor
  case seed => exact h.seed
  case faults =>
    refine ⟨?_, ?_, ?_⟩
    · show new.force.getD _ = new.force.getD _
      rw [h.faults.force]
    · show new.delay.getD _ = new.delay.getD _
      rw [h.faults.delay]
    · rw [hrate, hrate]
      exact h.faults.rate
  case draws =>
    rw [hrate, hrate]
    exact h.draws

/-- Whatever both brokers are asked once, `Raises` is kept and each decision `Worsens`. -/
theorem Raises.act (h : b.Raises b') {a : BrokerAction} (ha : a.KeepsRate) :
    (b.act a).Raises (b'.act a) ∧
      List.Forall₂ DecidedCommit.Worsens (b.decides a) (b'.decides a) := by
  cases a with
  | commit p o => exact ⟨h.commit p o, .cons ⟨rfl, rfl, h.decideNext⟩ .nil⟩
  | change new => exact ⟨h.changeFaults ha, .nil⟩

/-- **Whatever both brokers are asked, the second rejects what the first does**: `Raises` is kept,
and the decisions worsen pair by pair. -/
theorem Raises.run (h : b.Raises b') {asked : List BrokerAction}
    (hasked : ∀ a ∈ asked, a.KeepsRate) :
    (b.run asked).Raises (b'.run asked) ∧
      List.Forall₂ DecidedCommit.Worsens (b.decided asked) (b'.decided asked) := by
  induction asked generalizing b b' with
  | nil => exact ⟨h, .nil⟩
  | cons a rest ih =>
      obtain ⟨hact, hdecides⟩ := h.act (hasked a List.mem_cons_self)
      obtain ⟨hrun, hdecided⟩ := ih hact fun x hx => hasked x (List.mem_cons_of_mem a hx)
      exact ⟨hrun, List.rel_append hdecides hdecided⟩

end Broker

/-! ### What becomes of the accounts -/

/-- Where more commits are rejected, fewer offsets are stored and more failures are counted: of each
partition the second list of `stored?` is a sublist of the first, and it has at least as many
faults. -/
theorem DecidedCommit.Worsens.accounts {ds ds' : List DecidedCommit}
    (h : List.Forall₂ Worsens ds ds') (p : Partition) :
    ((ds'.filter fun d => d.partition = p).filterMap stored?).Sublist
        ((ds.filter fun d => d.partition = p).filterMap stored?) ∧
      (ds.filter fun d => d.partition = p).countP (·.fault.isSome) ≤
        (ds'.filter fun d => d.partition = p).countP (·.fault.isSome) := by
  induction h with
  | nil => exact ⟨.slnil, Nat.le_refl 0⟩
  | @cons d d' rest rest' hd _ ih =>
      obtain ⟨hstored, hfailed⟩ := ih
      rw [List.filter_cons, List.filter_cons, hd.partition]
      split
      · rw [List.countP_cons, List.countP_cons]
        rcases hd.fault with hsame | ⟨hnone, hsome⟩
        · have hsame' : d'.stored? = d.stored? := by
            rw [stored?, stored?, hsame, hd.offset]
          rw [hsame, List.filterMap_cons, List.filterMap_cons, hsame']
          refine ⟨?_, Nat.add_le_add_right hfailed _⟩
          split
          · exact hstored
          · exact hstored.cons_cons _
        · have hnone' : d'.stored? = none := by
            rw [stored?, hsome]
            rfl
          rw [List.filterMap_cons_none hnone', hnone, hsome]
          refine ⟨?_, hfailed.trans (Nat.le_add_right _ _)⟩
          rw [List.filterMap_cons]
          split
          · exact hstored
          · exact hstored.cons _
      · exact ⟨hstored, hfailed⟩

end OffsetCommit
