import OffsetCommit.Proofs.Binary64.Order
import OffsetCommit.Proofs.Binary64.Rounding
import OffsetCommit.Proofs.Broker.Run

/-!
# What the broker draws

Whether a commit is rejected depends on the settings that it finds and on the number of draws that
were made before it, and on nothing else. A commit that finds the order to reject, or a rate that
decides by itself, makes no draw. So it can be left out, or put in anywhere else, and no other
commit notices.

* `Faults.rules_fault?` and `Broker.rules_of_decided`: each decision follows `Faults.Rules`, the
  five cases of a commit (the order, a rate that decides by itself either way, a rate that is no
  number, a draw).
* `Broker.decided_eq`: the decisions are read off what is asked and the settings that are found.
* `Broker.IsIdle.decided_append` and `fault_decided_of_found`: what makes no draw can be put in
  anywhere.
* `draw_add` and `Broker.decided_shift`: `k` draws made are `k` added to the seed.
-/

namespace OffsetCommit

/-! ### The draws of a seed -/

/-- The word behind a draw is `(seed + n) * 0x9e3779b97f4a7c15` modulo `2 ^ 64`. -/
theorem toNat_drawWord (seed : UInt64) (n : Nat) :
    (drawWord seed n).toNat = (seed.toNat + n) * 0x9e3779b97f4a7c15 % 2 ^ 64 := by
  rw [drawWord, UInt64.toNat_mul, UInt64.toNat_add, UInt64.toNat_ofNat', Nat.add_mod_mod,
    Nat.mod_mul_mod]
  rfl

/-- **A draw is a word of 64 bits, rounded to the nearest double, as a part of all words**: `draw
seed n = d / 2 ^ 64`, where `d` is the nearest double of the word. -/
theorem draw_eq (seed : UInt64) (n : Nat) :
    ∃ d, IsNearestDouble ((seed.toNat + n) * 0x9e3779b97f4a7c15 % 2 ^ 64) d ∧
      draw seed n = (d : Rat) / 2 ^ 64 := by
  obtain ⟨d, hnearest, hvalue⟩ := Binary64.toRat?_ofNat (drawWord seed n).toNat_lt
  rw [toNat_drawWord] at hnearest
  refine ⟨d, hnearest, ?_⟩
  rw [draw, hvalue, Option.getD_some, Rat.mkRat_eq_div, Rat.num_natCast, Rat.den_natCast,
    Nat.one_mul, Int.cast_natCast]
  norm_num [UInt64.size]

/-- **The draws of a seed from the `k`-th on are the draws of the seed that is `k` further on**:
`draw seed (k + n) = draw (seed + k) n`, with the sum in 64 bits. -/
theorem draw_add (seed : UInt64) (k n : Nat) :
    draw seed (k + n) = draw (seed + UInt64.ofNat k) n := by
  have hword : drawWord seed (k + n) = drawWord (seed + UInt64.ofNat k) n := by
    rw [drawWord, drawWord, UInt64.ofNat_add, UInt64.add_assoc]
  rw [draw, draw, hword]

/-! ### What a commit finds -/

namespace Faults

variable {f : Faults} {seed : UInt64} {n : Nat}

/-- Whether a commit that finds these settings makes a draw. -/
def draws (f : Faults) : Bool :=
  !f.force && (settledByRate? f.rate).isNone

/-- The fault of a commit that finds these settings when so many draws have been made. -/
def fault? (f : Faults) (seed : UInt64) (n : Nat) : Option Fault :=
  if f.force then some .forced
  else if (settledByRate? f.rate).getD (f.rate.above (draw seed n)) then some .random
  else none

/-- The settings as a commit leaves them: the order to reject is used up. -/
def spent (f : Faults) : Faults :=
  { f with force := false }

/-- The settings that the commits find, one after the other. -/
def found (f : Faults) : List BrokerAction → List Faults
  | [] => []
  | .commit _ _ :: rest => f :: f.spent.found rest
  | .change new :: rest => (f.change new).found rest

/-- The number of draws that commits make which find these settings. -/
def drawCount (found : List Faults) : Nat :=
  found.countP draws

/-- How a commit ends that finds these settings when so many draws have been made. -/
structure Rules (f : Faults) (seed : UInt64) (n : Nat) (fault : Option Fault) : Prop where
  /-- The order to reject comes first, and costs no draw. -/
  forced : f.force = true → fault = some .forced ∧ f.draws = false
  /-- A rate of at most zero lets the commit through without a draw. -/
  low : f.force = false → ∀ v, f.rate.place? = some v → v ≤ 0 → fault = none ∧ f.draws = false
  /-- A rate of at least one rejects it without a draw. -/
  high : f.force = false → ∀ v, f.rate.place? = some v → 1 ≤ v →
    fault = some .random ∧ f.draws = false
  /-- A rate between them rejects it if the draw is below the rate. -/
  between : f.force = false → ∀ v, f.rate.place? = some v → 0 < v → v < 1 →
    f.draws = true ∧
      ∃ d : Nat, IsNearestDouble ((seed.toNat + n) * 0x9e3779b97f4a7c15 % 2 ^ 64) d ∧
        (((d / 2 ^ 64 : Rat) : WithTop Rat) < v → fault = some .random) ∧
        (v ≤ ((d / 2 ^ 64 : Rat) : WithTop Rat) → fault = none)
  /-- A rate that is not a number lets it through, with a draw. -/
  nan : f.force = false → f.rate = .nan → f.draws = true ∧ fault = none

/-- A commit that finds the order to reject has the fault `.forced`. -/
theorem fault?_of_force (h : f.force = true) : f.fault? seed n = some .forced := by
  rw [fault?, if_pos h]

/-- A commit that finds the order to reject makes no draw. -/
theorem draws_of_force (h : f.force = true) : f.draws = false := by
  rw [draws, h]
  rfl

/-- **The rules hold**: `f.fault? seed n` is the decision of a commit that finds `f` after `n`
draws. -/
theorem rules_fault? (f : Faults) (seed : UInt64) (n : Nat) : f.Rules seed n (f.fault? seed n) where
  forced h := ⟨fault?_of_force h, draws_of_force h⟩
  low h v hv hle := by
    have hsettled : settledByRate? f.rate = some false := by
      rw [settledByRate?, if_pos ((Binary64.atMost_iff hv).mpr hle)]
    rw [fault?, draws, h, hsettled]
    exact ⟨rfl, rfl⟩
  high h v hv hle := by
    have hlow : ¬f.rate.atMost 0 = true := fun hlow =>
      absurd (hle.trans ((Binary64.atMost_iff hv).mp hlow)) (by decide)
    have hsettled : settledByRate? f.rate = some true := by
      rw [settledByRate?, if_neg hlow, if_pos ((Binary64.atLeast_iff hv).mpr hle)]
    rw [fault?, draws, h, hsettled]
    exact ⟨rfl, rfl⟩
  between h v hv hpos hlt := by
    have hsettled : settledByRate? f.rate = none := by
      rw [settledByRate?, if_neg fun hlow => hpos.not_ge ((Binary64.atMost_iff hv).mp hlow),
        if_neg fun hhigh => hlt.not_ge ((Binary64.atLeast_iff hv).mp hhigh)]
    obtain ⟨d, hnearest, hdraw⟩ := draw_eq seed n
    rw [fault?, draws, h, hsettled, Option.getD_none, hdraw]
    refine ⟨rfl, d, hnearest, fun hbelow => ?_, fun hreached => ?_⟩
    · rw [(Binary64.above_iff hv).mpr hbelow]
      rfl
    · have hnot : f.rate.above (d / 2 ^ 64) = false :=
        Bool.eq_false_iff.mpr fun habove => hreached.not_gt ((Binary64.above_iff hv).mp habove)
      rw [hnot]
      rfl
  nan h hnan := by
    rw [fault?, draws, h, hnan]
    exact ⟨rfl, rfl⟩

/-- The faults of commits that find these settings, when so many draws were made before. -/
def faults (seed : UInt64) : Nat → List Faults → List (Option Fault)
  | _, [] => []
  | n, f :: rest => f.fault? seed n :: faults seed (n + f.draws.toNat) rest

/-- The first commit makes `f.draws.toNat` draws, and the others make theirs. -/
theorem drawCount_cons (f : Faults) (rest : List Faults) :
    drawCount (f :: rest) = f.draws.toNat + drawCount rest := by
  rw [drawCount, drawCount, List.countP_cons, Nat.add_comm]
  cases f.draws <;> rfl

/-- The draws of two lists of commits add up. -/
theorem drawCount_append (front back : List Faults) :
    drawCount (front ++ back) = drawCount front + drawCount back :=
  List.countP_append

/-- Commits of which none makes a draw make no draws together. -/
theorem drawCount_of_draws {found : List Faults} (h : ∀ f ∈ found, f.draws = false) :
    drawCount found = 0 :=
  List.countP_eq_zero.mpr fun f hf => Bool.eq_false_iff.mp (h f hf)

/-- There is one entry of `faults` for each of the settings in `found`. -/
theorem length_faults (seed : UInt64) (n : Nat) (found : List Faults) :
    (faults seed n found).length = found.length := by
  induction found generalizing n with
  | nil => rfl
  | cons f rest ih => rw [faults, List.length_cons, List.length_cons, ih]

/-- The decisions on `back` count the draws that `front` makes. -/
theorem faults_append (seed : UInt64) (n : Nat) (front back : List Faults) :
    faults seed n (front ++ back) =
      faults seed n front ++ faults seed (n + drawCount front) back := by
  induction front generalizing n with
  | nil => rfl
  | cons f rest ih =>
      rw [List.cons_append, faults, faults, ih, drawCount_cons, Nat.add_assoc, List.cons_append]

/-- The draws that count for the `k`-th commit are those of the commits before it, `found.take k`. -/
theorem getElem?_faults (seed : UInt64) (n : Nat) (found : List Faults) (k : Nat) :
    (faults seed n found)[k]? =
      found[k]?.map fun f => f.fault? seed (n + drawCount (found.take k)) := by
  induction found generalizing n k with
  | nil => rfl
  | cons f rest ih =>
      cases k with
      | zero => rfl
      | succ k =>
          rw [faults, List.getElem?_cons_succ, List.getElem?_cons_succ, ih, List.take_succ_cons,
            drawCount_cons, Nat.add_assoc]

/-- **The draws of a seed go on where another seed begins**: `k` draws made before are `k` added to
the seed. -/
theorem faults_add (seed : UInt64) (k n : Nat) (found : List Faults) :
    faults seed (k + n) found = faults (seed + UInt64.ofNat k) n found := by
  induction found generalizing n with
  | nil => rfl
  | cons f rest ih => rw [faults, faults, Nat.add_assoc, ih, fault?, fault?, draw_add]

end Faults

/-! ### What a broker decides -/

namespace Broker

variable {b : Broker}

/-- **A commit is decided by the settings that it finds and the draws made before it**: the decision
is `b.faults.fault? b.seed b.draws`, the draw is counted if there is one, and the order is spent. -/
theorem decideNext_eq (b : Broker) :
    b.decideNext =
      (b.faults.fault? b.seed b.draws,
        { b with draws := b.draws + b.faults.draws.toNat, faults := b.faults.spent }) := by
  have hspent : b.faults.force = false → b.faults.spent = b.faults := by
    intro h
    rw [Faults.spent, ← h]
  unfold decideNext Faults.fault? Faults.draws
  split
  · next hforce =>
      rw [hforce]
      rfl
  · next hforce =>
      rw [hspent (Bool.eq_false_iff.mpr hforce), Bool.eq_false_iff.mpr hforce]
      rcases settledByRate? b.faults.rate with _ | rejects <;> rfl

/-- After a commit the seed is the same, the draw is counted if there was one, and the order is
spent. -/
theorem commit_snd_eq (b : Broker) (p : Partition) (o : Offset) :
    (b.commit p o).2.seed = b.seed ∧
      (b.commit p o).2.draws = b.draws + b.faults.draws.toNat ∧
      (b.commit p o).2.faults = b.faults.spent := by
  rw [commit_eq, decideNext_eq]
  exact ⟨rfl, rfl, rfl⟩

/-- A run does the first thing that is asked and then the rest. -/
theorem run_cons (b : Broker) (a : BrokerAction) (rest : List BrokerAction) :
    b.run (a :: rest) = (b.act a).run rest := rfl

/-- No run changes the seed. -/
theorem seed_run (b : Broker) (asked : List BrokerAction) : (b.run asked).seed = b.seed := by
  induction asked generalizing b with
  | nil => rfl
  | cons a rest ih =>
      rw [run_cons, ih]
      cases a with
      | commit p o => exact (b.commit_snd_eq p o).1
      | change new => rfl

/-- A broker makes the draws of the settings that its commits find, `Faults.drawCount
(b.faults.found asked)`. -/
theorem draws_run (b : Broker) (asked : List BrokerAction) :
    (b.run asked).draws = b.draws + Faults.drawCount (b.faults.found asked) := by
  induction asked generalizing b with
  | nil => rfl
  | cons a rest ih =>
      rw [run_cons, ih]
      cases a with
      | commit p o =>
          obtain ⟨-, hdraws, hfaults⟩ := b.commit_snd_eq p o
          rw [act, hdraws, hfaults, Faults.found, Faults.drawCount_cons, Nat.add_assoc]
      | change new => rfl

/-- **The decisions of a broker are read off what it is asked and the settings that its commits
find**: the `k`-th commit asked for has the `k`-th fault of `Faults.faults b.seed b.draws
(b.faults.found asked)`. -/
theorem decided_eq (b : Broker) (asked : List BrokerAction) :
    b.decided asked =
      List.zipWith (fun c fault => ⟨c.1, c.2, fault⟩) (asked.filterMap BrokerAction.commit?)
        (Faults.faults b.seed b.draws (b.faults.found asked)) := by
  induction asked generalizing b with
  | nil => rfl
  | cons a rest ih =>
      rw [decided, ih]
      cases a with
      | commit p o =>
          obtain ⟨hseed, hdraws, hfaults⟩ := b.commit_snd_eq p o
          rw [act, hseed, hdraws, hfaults, decides, decideNext_eq, Faults.found, Faults.faults]
          rfl
      | change new => rfl

/-- There are as many settings in `f.found asked` as commits in `asked`. -/
theorem length_found (f : Faults) (asked : List BrokerAction) :
    (f.found asked).length = (asked.filterMap BrokerAction.commit?).length := by
  induction asked generalizing f with
  | nil => rfl
  | cons a rest ih =>
      cases a with
      | commit p o => exact congrArg (· + 1) (ih f.spent)
      | change new => exact ih (f.change new)

/-- The faults that are decided are those of the settings found. -/
theorem map_fault_decided (b : Broker) (asked : List BrokerAction) :
    (b.decided asked).map DecidedCommit.fault =
      Faults.faults b.seed b.draws (b.faults.found asked) := by
  have hlength : (Faults.faults b.seed b.draws (b.faults.found asked)).length =
      (asked.filterMap BrokerAction.commit?).length := by
    rw [Faults.length_faults, length_found]
  rw [decided_eq, List.map_zipWith, ← List.map_uncurry_zip_eq_zipWith]
  exact List.map_snd_zip hlength.le

/-- **Each decision follows the rules** for the settings that its commit finds and the draws of the
commits before it. -/
theorem rules_of_decided {asked : List BrokerAction} {k : Nat} {d : DecidedCommit}
    (h : (b.decided asked)[k]? = some d) :
    ∃ f, (b.faults.found asked)[k]? = some f ∧
      f.Rules b.seed (b.draws + Faults.drawCount ((b.faults.found asked).take k)) d.fault := by
  have hfault := congrArg (·[k]?) (b.map_fault_decided asked)
  simp only [List.getElem?_map, h, Option.map_some, Faults.getElem?_faults] at hfault
  obtain ⟨f, hf, heq⟩ := Option.map_eq_some_iff.mp hfault.symm
  exact ⟨f, hf, heq ▸ f.rules_fault? _ _⟩

/-! ### Commits that make no draw -/

/-- Whether nobody notices when this is asked: no commit makes a draw, and the settings are in the end
what they were. -/
structure IsIdle (b : Broker) (asked : List BrokerAction) : Prop where
  /-- No commit makes a draw. -/
  draws : ∀ f ∈ b.faults.found asked, f.draws = false
  /-- The settings are in the end what they were. -/
  faults : (b.run asked).faults = b.faults

/-- A commit that finds no order and makes no draw is idle. -/
theorem isIdle_commit (hforce : b.faults.force = false) (hdraws : b.faults.draws = false)
    (p : Partition) (o : Offset) : b.IsIdle [.commit p o] where
  draws f hf := by
    rw [List.mem_singleton.mp hf]
    exact hdraws
  faults := by
    show (b.commit p o).2.faults = b.faults
    rw [(b.commit_snd_eq p o).2.2, Faults.spent, ← hforce]

/-- A commit together with the order to reject it is idle where no other order is given. -/
theorem isIdle_forced (hforce : b.faults.force = false) (p : Partition) (o : Offset) :
    b.IsIdle [.change ⟨none, some true, none⟩, .commit p o] where
  draws f hf := by
    rw [List.mem_singleton.mp hf]
    exact Faults.draws_of_force rfl
  faults := by
    show ((b.changeFaults ⟨none, some true, none⟩).commit p o).2.faults = b.faults
    rw [(commit_snd_eq _ p o).2.2]
    show { b.faults with force := false } = b.faults
    rw [← hforce]

/-- Where an order is given already, a commit uses that one up and a new order replaces it: the two
together are idle. -/
theorem isIdle_forced_of_force (hforce : b.faults.force = true) (p : Partition) (o : Offset) :
    b.IsIdle [.commit p o, .change ⟨none, some true, none⟩] where
  draws f hf := by
    rw [List.mem_singleton.mp hf]
    exact Faults.draws_of_force hforce
  faults := by
    show (b.commit p o).2.faults.change ⟨none, some true, none⟩ = b.faults
    rw [(commit_snd_eq _ p o).2.2]
    show { b.faults with force := true } = b.faults
    rw [← hforce]

/-- Nothing but the seed, the draws and the settings counts for the decisions. -/
theorem decided_congr {b' : Broker} (hseed : b'.seed = b.seed) (hdraws : b'.draws = b.draws)
    (hfaults : b'.faults = b.faults) (asked : List BrokerAction) :
    b'.decided asked = b.decided asked := by
  rw [decided_eq, decided_eq, hseed, hdraws, hfaults]

/-- **What is idle can be put in anywhere**: `b.decided (asked ++ back)` is `b.decided asked`, and
then the decisions on `back` are those without `asked`. -/
theorem IsIdle.decided_append {asked : List BrokerAction} (h : b.IsIdle asked)
    (back : List BrokerAction) : b.decided (asked ++ back) = b.decided asked ++ b.decided back := by
  rw [Broker.decided_append]
  congr 1
  refine decided_congr (b.seed_run asked) ?_ h.faults back
  rw [draws_run, Faults.drawCount_of_draws h.draws, Nat.add_zero]

/-- **In the order of decisions, those without a draw can be put in anywhere**: with `quiet` put in
between `front` and `back`, the decisions on both are what they are without it. -/
theorem fault_decided_of_found {asked asked' : List BrokerAction} {front quiet back : List Faults}
    (h : b.faults.found asked = front ++ quiet ++ back)
    (h' : b.faults.found asked' = front ++ back) (hquiet : ∀ f ∈ quiet, f.draws = false) :
    ∃ before between after,
      (b.decided asked).map DecidedCommit.fault = before ++ between ++ after ∧
        (b.decided asked').map DecidedCommit.fault = before ++ after ∧
        before.length = front.length ∧ between.length = quiet.length ∧
        after.length = back.length := by
  refine ⟨Faults.faults b.seed b.draws front,
    Faults.faults b.seed (b.draws + Faults.drawCount front) quiet,
    Faults.faults b.seed (b.draws + Faults.drawCount front) back, ?_, ?_,
    Faults.length_faults .., Faults.length_faults .., Faults.length_faults ..⟩
  · rw [map_fault_decided, h, Faults.faults_append, Faults.faults_append, Faults.drawCount_append,
      Faults.drawCount_of_draws hquiet, Nat.add_zero]
  · rw [map_fault_decided, h', Faults.faults_append]

/-! ### The order to reject -/

/-- Settings are changed, and no commit is asked for. -/
def changes (b : Broker) (news : List FaultsChange) : Broker :=
  b.run (news.map BrokerAction.change)

/-- Changes of the settings make no draw. -/
theorem draws_changes (b : Broker) (news : List FaultsChange) : (b.changes news).draws = b.draws := by
  induction news generalizing b with
  | nil => rfl
  | cons new rest ih => exact ih (b.changeFaults new)

/-- Unless the flag is set to its opposite by hand, it stays. -/
theorem force_changes (b : Broker) {news : List FaultsChange} {flag : Bool}
    (h : b.faults.force = flag) (hnews : ∀ new ∈ news, new.force ≠ some !flag) :
    (b.changes news).faults.force = flag := by
  induction news generalizing b with
  | nil => exact h
  | cons new rest ih =>
      refine ih (b.changeFaults new) ?_ fun x hx => hnews x (List.mem_cons_of_mem new hx)
      have hnew := hnews new List.mem_cons_self
      show new.force.getD b.faults.force = flag
      rcases hforce : new.force with _ | value
      · exact h
      · rw [hforce] at hnew
        cases value <;> cases flag <;> simp_all

/-! ### Two seeds -/

/-- **A broker that has made `k` draws decides like one that has made none and whose seed is `k`
further on.** -/
theorem decided_shift (b : Broker) (asked : List BrokerAction) :
    b.decided asked =
      { b with seed := b.seed + UInt64.ofNat b.draws, draws := 0 }.decided asked := by
  rw [decided_eq, decided_eq]
  exact congrArg _ (Faults.faults_add b.seed b.draws 0 _)

end Broker

end OffsetCommit
