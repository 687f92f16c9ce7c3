import Mathlib.Algebra.Order.Ring.Rat
import Mathlib.Order.WithBot
import OffsetCommit.Binary64.Basic

/-!
# Doubles as extended rationals

A double that is a number has a place among the rationals and the two infinities, `Binary64.place?`,
and comparing it with a rational is comparing the two places (`compare?_eq`). What is not a number
has no place, and every comparison with it fails. The tests `atMost`, `atLeast` and `above` are
thereby monotone in the order `Binary64.IsAtMost`.
-/

namespace OffsetCommit.Binary64

variable {x y : Binary64} {q : Rat} {v : WithBot (WithTop Rat)}

/-- The place of a double among the rationals and the two infinities. -/
def place? : Binary64 → Option (WithBot (WithTop Rat))
  | nan => none
  | infinity true => some ⊥
  | infinity false => some ((⊤ : WithTop Rat))
  | finite negative significand exponent =>
      some ((value negative significand exponent : WithTop Rat))

/-- Whether two doubles are numbers and the first is at most the second. -/
def IsAtMost (x y : Binary64) : Prop :=
  ∃ v w, x.place? = some v ∧ y.place? = some w ∧ v ≤ w

/-- **Comparing a number with a rational is comparing their places**: if `x.place? = some v`, then
`x.compare? q` is the order of `v` and `q`. -/
theorem compare?_eq (h : x.place? = some v) :
    x.compare? q =
      some (if v < ((q : WithTop Rat) : WithBot (WithTop Rat)) then .lt
        else if v = ((q : WithTop Rat) : WithBot (WithTop Rat)) then .eq else .gt) := by
  cases x with
  | nan => cases h
  | infinity negative =>
      cases negative with
      | true =>
          obtain rfl := Option.some.inj h
          rw [if_pos (WithBot.bot_lt_coe _)]
          rfl
      | false =>
          obtain rfl := Option.some.inj h
          rw [if_neg (not_lt.mpr (WithBot.coe_le_coe.mpr le_top)),
            if_neg fun heq => WithTop.top_ne_coe (WithBot.coe_injective heq)]
          rfl
  | finite negative significand exponent =>
      obtain rfl := Option.some.inj h
      simp only [compare?, WithBot.coe_lt_coe, WithTop.coe_lt_coe, WithBot.coe_inj, WithTop.coe_inj]

/-- A number with place `v` is `atMost q` exactly when `v ≤ q`. -/
theorem atMost_iff (h : x.place? = some v) :
    x.atMost q = true ↔ v ≤ ((q : WithTop Rat) : WithBot (WithTop Rat)) := by
  rw [atMost, compare?_eq h]
  rcases lt_trichotomy v ((q : WithTop Rat) : WithBot (WithTop Rat)) with hlt | rfl | hgt
  · simp [hlt, hlt.le]
  · simp
  · simp [hgt.not_gt, hgt.ne', hgt.not_ge]

/-- A number with place `v` is `atLeast q` exactly when `q ≤ v`. -/
theorem atLeast_iff (h : x.place? = some v) :
    x.atLeast q = true ↔ ((q : WithTop Rat) : WithBot (WithTop Rat)) ≤ v := by
  rw [atLeast, compare?_eq h]
  rcases lt_trichotomy v ((q : WithTop Rat) : WithBot (WithTop Rat)) with hlt | rfl | hgt
  · simp [hlt, hlt.not_ge]
  · simp
  · simp [hgt.not_gt, hgt.ne', hgt.le]

/-- A number with place `v` is `above q` exactly when `q < v`. -/
theorem above_iff (h : x.place? = some v) :
    x.above q = true ↔ ((q : WithTop Rat) : WithBot (WithTop Rat)) < v := by
  rw [above, compare?_eq h]
  rcases lt_trichotomy v ((q : WithTop Rat) : WithBot (WithTop Rat)) with hlt | rfl | hgt
  · simp [hlt, hlt.not_gt]
  · simp
  · simp [hgt.not_gt, hgt.ne', hgt]

/-! ### The greater of two rates -/

/-- If `x` is at most `y` and `y` is at most `q`, so is `x`. -/
theorem IsAtMost.atMost (h : x.IsAtMost y) (hy : y.atMost q = true) : x.atMost q = true := by
  obtain ⟨v, w, hv, hw, hle⟩ := h
  exact (atMost_iff hv).mpr (hle.trans ((atMost_iff hw).mp hy))

/-- If `x` is at most `y` and `x` is at least `q`, so is `y`. -/
theorem IsAtMost.atLeast (h : x.IsAtMost y) (hx : x.atLeast q = true) : y.atLeast q = true := by
  obtain ⟨v, w, hv, hw, hle⟩ := h
  exact (atLeast_iff hw).mpr (((atLeast_iff hv).mp hx).trans hle)

/-- If `x` is at most `y` and `x` is above `q`, so is `y`. -/
theorem IsAtMost.above (h : x.IsAtMost y) (hx : x.above q = true) : y.above q = true := by
  obtain ⟨v, w, hv, hw, hle⟩ := h
  exact (above_iff hw).mpr (((above_iff hv).mp hx).trans_le hle)

end OffsetCommit.Binary64
