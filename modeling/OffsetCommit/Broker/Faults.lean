import OffsetCommit.Binary64.Basic

/-!
# Faults

The simulated broker rejects commits on purpose: the next one when it is told to, and others at
a rate. Whether a commit is rejected at a rate strictly between zero and one is a matter of a
draw. The `n`-th draw of a seed is a fixed number in the unit interval, so a run of the broker
can be repeated exactly, and commits that need no draw do not disturb those that do.
-/

namespace OffsetCommit

/-! ## Settings -/

/-- How the simulated broker treats commits. -/
structure Faults where
  /-- The probability with which a commit is rejected. -/
  rate : Binary64
  /-- Whether the next commit is rejected, whatever the rate. -/
  force : Bool
  /-- The time in milliseconds that every commit takes. -/
  delay : Option Nat
deriving DecidableEq

/-- New values for some of the settings. -/
structure FaultsChange where
  /-- The new rate, if it changes. -/
  rate : Option Binary64
  /-- The new order to reject the next commit, if it changes. -/
  force : Option Bool
  /-- The new delay, if it changes; a delay may change to none. -/
  delay : Option (Option Nat)
deriving DecidableEq, Inhabited

namespace Faults

/-- Every commit succeeds at once. -/
def quiet : Faults := ⟨.zero, false, none⟩

/-- One commit in twenty is rejected. -/
def flaky : Faults := { quiet with rate := .ofDecimal false 5 (-2) }

instance : Inhabited Faults := ⟨quiet⟩

/-- The settings with some of them changed. -/
def change (faults : Faults) (new : FaultsChange) : Faults :=
  { rate := new.rate.getD faults.rate
    force := new.force.getD faults.force
    delay := new.delay.getD faults.delay }

end Faults

/-- Why the simulated broker rejected a commit. -/
inductive Fault where
  /-- It was told to reject the next commit. -/
  | forced
  /-- The rate, or the draw against it, said so. -/
  | random
deriving DecidableEq, Inhabited

/-- The wording of a simulated fault. -/
def Fault.message : Fault → String
  | forced => "simulated failure (forced)"
  | random => "simulated failure (random)"

/-! ## Draws -/

/-- The odd multiplier that spreads consecutive numbers over all 64-bit words. -/
def drawMultiplier : UInt64 := 0x9e3779b97f4a7c15

/-- The word behind the `n`-th draw of a seed. -/
def drawWord (seed : UInt64) (n : Nat) : UInt64 :=
  (seed + UInt64.ofNat n) * drawMultiplier

/-- The `n`-th draw of a seed: its word, rounded to the nearest double, as a part of the number
of all words. -/
def draw (seed : UInt64) (n : Nat) : Rat :=
  let rounded := (Binary64.ofNat (drawWord seed n).toNat).toRat?.getD 0
  mkRat rounded.num (rounded.den * UInt64.size)

/-- Whether a rate decides by itself: at most zero rejects nothing, at least one everything. -/
def settledByRate? (rate : Binary64) : Option Bool :=
  if rate.atMost 0 then some false
  else if rate.atLeast 1 then some true
  else none

end OffsetCommit
