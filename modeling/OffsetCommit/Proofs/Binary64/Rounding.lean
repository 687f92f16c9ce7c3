import Mathlib.Data.Nat.Dist
import Mathlib.Data.Nat.Log
import Mathlib.Data.Rat.Lemmas
import Mathlib.Tactic.Linarith
import OffsetCommit.Binary64.Basic

/-!
# Natural numbers rounded to doubles

A natural number that fits into 64 bits is rounded to the nearest double, and of two that are
equally near to the even one: `IsNearestDouble n d`. What is a double, and which one is nearest, is
said here of natural numbers alone: between `2 ^ k` and `2 ^ (k + 1)` the doubles are the multiples
of `2 ^ (k - 52)`.

* `IsNearestDouble.unique`: there is only one nearest double.
* `isNearestDouble_roundDiv`: the multiple of the unit that `roundDiv` finds is the nearest
  double.
* `Binary64.toRat?_ofNat`: `Binary64.ofNat n` stands for the nearest double of `n`.
-/

namespace OffsetCommit

/-! ### What the nearest double is -/

/-- Whether a natural number is a double: it has no more than 53 significant binary digits. -/
def IsDouble (n : Nat) : Prop :=
  ∃ significand exponent, significand < 2 ^ 53 ∧ exponent ≤ 971 ∧ n = significand * 2 ^ exponent

/-- Whether `d` is the double nearest to `n`. If another one is equally near, `d` is an even multiple
of what lies between them. -/
structure IsNearestDouble (n d : Nat) : Prop where
  /-- It is a double. -/
  isDouble : IsDouble d
  /-- No double is nearer. -/
  nearest : ∀ x, IsDouble x → Nat.dist d n ≤ Nat.dist x n
  /-- A tie goes to the even one. -/
  even : ∀ x, IsDouble x → x ≠ d → Nat.dist x n = Nat.dist d n → 2 * Nat.dist x d ∣ d

/-- There is only one nearest double: `IsNearestDouble n d` and `IsNearestDouble n d'` give `d =
d'`. -/
theorem IsNearestDouble.unique {n d d' : Nat} (h : IsNearestDouble n d)
    (h' : IsNearestDouble n d') : d = d' := by
  by_contra hne
  have hsame : Nat.dist d n = Nat.dist d' n :=
    Nat.le_antisymm (h.nearest d' h'.isDouble) (h'.nearest d h.isDouble)
  obtain ⟨a, ha⟩ := h.even d' h'.isDouble (Ne.symm hne) hsame.symm
  obtain ⟨b, hb⟩ := h'.even d h.isDouble hne hsame
  rw [Nat.dist_comm] at ha
  -- both are even multiples of what lies between them
  have hpos : 0 < Nat.dist d d' := Nat.dist_pos_of_ne hne
  have hdvd : 2 * Nat.dist d d' ∣ Nat.dist d d' := by
    rcases Nat.le_total d d' with hle | hle
    · have hsub := Nat.dvd_sub (Dvd.intro b hb.symm) (Dvd.intro a ha.symm)
      rwa [← Nat.dist_eq_sub_of_le hle] at hsub
    · have hsub := Nat.dvd_sub (Dvd.intro a ha.symm) (Dvd.intro b hb.symm)
      rwa [← Nat.dist_eq_sub_of_le_right hle] at hsub
  have hle := Nat.le_of_dvd hpos hdvd
  omega

namespace Binary64

/-! ### Rounding to multiples -/

/-- Rounding to multiples of one changes nothing. -/
theorem roundDiv_one (n : Nat) : roundDiv n 1 = n := by
  simp [roundDiv, Nat.mod_one]

/-- The quotient of a number below `unit * bound` is rounded to `bound` at most. -/
theorem roundDiv_le {n unit bound : Nat} (h : n < unit * bound) : roundDiv n unit ≤ bound := by
  have hdiv : n / unit < bound := Nat.div_lt_of_lt_mul h
  unfold roundDiv
  dsimp only
  split
  · exact hdiv.le
  · split
    · exact hdiv
    · have := Nat.mod_lt (n / unit) (by decide : 0 < 2)
      omega

/-- What is rounded lies at most half of a unit away, and a tie goes to the even multiple. -/
theorem roundDiv_spec (n : Nat) {unit : Nat} (hunit : 0 < unit) :
    2 * Nat.dist (roundDiv n unit * unit) n ≤ unit ∧
      (2 * Nat.dist (roundDiv n unit * unit) n = unit → roundDiv n unit % 2 = 0) := by
  have hdiv : unit * (n / unit) + n % unit = n := Nat.div_add_mod n unit
  have hlt := Nat.mod_lt n hunit
  unfold roundDiv Nat.dist
  dsimp only
  generalize n / unit = quotient at hdiv ⊢
  generalize n % unit = rest at hdiv hlt ⊢
  rw [Nat.mul_comm] at hdiv
  split
  · omega
  · split
    · rw [Nat.add_one_mul quotient unit]
      omega
    · rcases Nat.mod_two_eq_zero_or_one quotient with heven | hodd
      · rw [heven, Nat.add_zero]
        omega
      · rw [hodd, Nat.add_one_mul quotient unit]
        omega

/-- Among the multiples of a unit `roundDiv n unit * unit` is nearest to `n`. -/
theorem dist_roundDiv_le (n : Nat) {unit x : Nat} (hunit : 0 < unit) (hx : unit ∣ x) :
    Nat.dist (roundDiv n unit * unit) n ≤ Nat.dist x n := by
  obtain ⟨hhalf, -⟩ := roundDiv_spec n hunit
  have hd : unit ∣ roundDiv n unit * unit := Nat.dvd_mul_left unit _
  generalize roundDiv n unit * unit = d at hd hhalf ⊢
  by_cases hlt : x < d
  · have hapart := Nat.le_of_dvd (by omega) (Nat.dvd_sub hd hx)
    unfold Nat.dist at hhalf ⊢
    omega
  · by_cases heq : x = d
    · rw [heq]
    · have hapart := Nat.le_of_dvd (by omega) (Nat.dvd_sub hx hd)
      unfold Nat.dist at hhalf ⊢
      omega

/-- A double that is no multiple of `2 ^ k` lies below `2 ^ (k + 52)`. -/
theorem lt_of_isDouble {x k : Nat} (hx : IsDouble x) (hdvd : ¬2 ^ k ∣ x) : x < 2 ^ (k + 52) := by
  obtain ⟨significand, exponent, hlt, -, rfl⟩ := hx
  have hexponent : exponent < k := by
    by_contra hle
    exact hdvd (Dvd.dvd.mul_left (Nat.pow_dvd_pow 2 (Nat.le_of_not_lt hle)) significand)
  calc significand * 2 ^ exponent < 2 ^ 53 * 2 ^ exponent :=
        Nat.mul_lt_mul_of_pos_right hlt (Nat.two_pow_pos exponent)
    _ = 2 ^ (53 + exponent) := (Nat.pow_add 2 53 exponent).symm
    _ ≤ 2 ^ (k + 52) := Nat.pow_le_pow_right (by decide) (by omega)

/-- **The nearest multiple of the unit is the nearest double**: if `n` has no more than `k + 53`
bits, and as many unless `k = 0`, then `roundDiv n (2 ^ k) * 2 ^ k` is the nearest double of `n`. -/
theorem isNearestDouble_roundDiv {n k : Nat} (hk : k ≤ 900) (hlow : k = 0 ∨ 2 ^ (k + 52) ≤ n)
    (hhigh : n < 2 ^ (k + 53)) : IsNearestDouble n (roundDiv n (2 ^ k) * 2 ^ k) := by
  have hunit : 0 < 2 ^ k := Nat.two_pow_pos k
  obtain ⟨hhalf, heven⟩ := roundDiv_spec n hunit
  have hmultiple : ∀ x, 2 ^ k ∣ x → Nat.dist (roundDiv n (2 ^ k) * 2 ^ k) n ≤ Nat.dist x n := fun x =>
    dist_roundDiv_le n hunit
  -- a double between the multiples lies further away than the power of two that `n` has reached
  have hbetween : ∀ x, IsDouble x → ¬2 ^ k ∣ x →
      Nat.dist (roundDiv n (2 ^ k) * 2 ^ k) n < Nat.dist x n := by
    intro x hx hdvd
    have hbelow := lt_of_isDouble hx hdvd
    have hreached : 2 ^ (k + 52) ≤ n := by
      rcases hlow with rfl | hlow
      · exact absurd (one_dvd x) hdvd
      · exact hlow
    have hpower := hmultiple (2 ^ (k + 52)) (Nat.pow_dvd_pow 2 (Nat.le_add_right k 52))
    unfold Nat.dist at hpower ⊢
    omega
  constructor
  case isDouble =>
    have hle : roundDiv n (2 ^ k) ≤ 2 ^ 53 := roundDiv_le (by rwa [← Nat.pow_add])
    rcases Nat.lt_or_eq_of_le hle with hlt | heq
    · exact ⟨_, k, hlt, by omega, rfl⟩
    · refine ⟨2 ^ 52, k + 1, by decide, by omega, ?_⟩
      rw [heq, ← Nat.pow_add, ← Nat.pow_add]
      congr 1
      omega
  case nearest =>
    intro x hx
    by_cases hdvd : 2 ^ k ∣ x
    · exact hmultiple x hdvd
    · exact (hbetween x hx hdvd).le
  case even =>
    intro x hx hne htie
    have hdvd : 2 ^ k ∣ x := by
      by_contra hdvd
      exact (hbetween x hx hdvd).ne htie.symm
    have hd : 2 ^ k ∣ roundDiv n (2 ^ k) * 2 ^ k := Nat.dvd_mul_left _ _
    have hapart : 2 ^ k ≤ Nat.dist x (roundDiv n (2 ^ k) * 2 ^ k) := by
      generalize roundDiv n (2 ^ k) * 2 ^ k = d at hd hne ⊢
      rcases Nat.lt_or_gt_of_ne hne with hlt | hlt
      · have := Nat.le_of_dvd (by omega) (Nat.dvd_sub hd hdvd)
        unfold Nat.dist
        omega
      · have := Nat.le_of_dvd (by omega) (Nat.dvd_sub hdvd hd)
        unfold Nat.dist
        omega
    have hunitDist : Nat.dist x (roundDiv n (2 ^ k) * 2 ^ k) = 2 ^ k ∧
        2 * Nat.dist (roundDiv n (2 ^ k) * 2 ^ k) n = 2 ^ k := by
      generalize roundDiv n (2 ^ k) * 2 ^ k = d at htie hapart hhalf ⊢
      unfold Nat.dist at htie hapart hhalf ⊢
      omega
    rw [hunitDist.1]
    exact Nat.mul_dvd_mul_right (Nat.dvd_of_mod_eq_zero (heven hunitDist.2)) _

/-! ### The double of a natural number -/

/-- The model's powers of two are those of the library. -/
theorem twoTo_eq (n : Nat) : twoTo n = 2 ^ n := rfl

/-- The exponent for a natural number `n` leaves 53 bits: it is `n.log2 - 52`, and at least `-1074`. -/
theorem exponentFor_one {n : Nat} (hn : n ≠ 0) : exponentFor n 1 = max ((n.log2 : Int) - 52) (-1074) := by
  have hlow : 2 ^ n.log2 ≤ n := Nat.log2_self_le hn
  have hone : Nat.log2 1 = 0 := rfl
  unfold exponentFor scaled
  simp only [hone, twoTo_eq, Nat.one_mul]
  rw [if_neg]
  · congr 1
    omega
  · rw [Nat.not_lt]
    by_cases hsmall : n.log2 ≤ 53
    · have hexponents : (-((n.log2 : Int) - (0 : Nat) - 53)).toNat = 53 - n.log2 ∧
          ((n.log2 : Int) - (0 : Nat) - 53).toNat = 0 := by
        omega
      rw [hexponents.1, hexponents.2, Nat.pow_zero, Nat.div_one]
      calc 2 ^ 53 = 2 ^ n.log2 * 2 ^ (53 - n.log2) := by
            rw [← Nat.pow_add]
            congr 1
            omega
        _ ≤ n * 2 ^ (53 - n.log2) := Nat.mul_le_mul_right _ hlow
    · have hexponents : (-((n.log2 : Int) - (0 : Nat) - 53)).toNat = 0 ∧
          ((n.log2 : Int) - (0 : Nat) - 53).toNat = n.log2 - 53 := by
        omega
      rw [hexponents.1, hexponents.2, Nat.pow_zero, Nat.mul_one,
        Nat.le_div_iff_mul_le (Nat.two_pow_pos _), ← Nat.pow_add]
      have hsum : 53 + (n.log2 - 53) = n.log2 := by omega
      rwa [hsum]

/-- Powers of two grow with the exponent. -/
theorem twoTo_lt {m n : Nat} (h : m < n) : twoTo m < twoTo n :=
  Nat.pow_lt_pow_right (by decide) h

/-- A significand of at most `2 ^ 53` is in the format, whatever exponent of a 64-bit number it has. -/
theorem not_twoTo_le {significand k : Nat} (hsignificand : significand ≤ 2 ^ 53) (hk : k ≤ 64) :
    ¬twoTo 1024 ≤ significand * twoTo k := by
  rw [Nat.not_le]
  calc significand * twoTo k ≤ twoTo 53 * twoTo 64 :=
        Nat.mul_le_mul hsignificand (Nat.pow_le_pow_right (by decide) hk)
    _ = twoTo 117 := (Nat.pow_add 2 53 64).symm
    _ < twoTo 1024 := twoTo_lt (by decide)

/-- A significand with a natural exponent `k` stands for `significand * 2 ^ k`. -/
theorem value_natCast (significand k : Nat) :
    value false significand k = ((significand * 2 ^ k : Nat) : Rat) := by
  have hexponents : (-(k : Int)).toNat = 0 ∧ (k : Int).toNat = k := by omega
  rw [value, hexponents.1, hexponents.2]
  exact Rat.mkRat_one _

/-- A significand `n * 2 ^ k` with the exponent `-k` stands for `n`. -/
theorem value_neg (n k : Nat) : value false (n * 2 ^ k) (-(k : Int)) = (n : Rat) := by
  have hexponents : (- -(k : Int)).toNat = k ∧ (-(k : Int)).toNat = 0 := by omega
  rw [value, hexponents.1, hexponents.2, if_neg Bool.false_ne_true]
  show mkRat ((n * 2 ^ k * 1 : Nat) : Int) (2 ^ k) = n
  rw [Nat.mul_one, Nat.cast_mul, Rat.mkRat_eq_div]
  rw [Int.cast_mul, Int.cast_natCast, Int.cast_natCast]
  exact mul_div_cancel_right₀ _ (Nat.cast_ne_zero.mpr (Nat.two_pow_pos k).ne')

/-- The double of a number `n` of 64 bits is a multiple of `2 ^ (n.log2 - 52)`, the one that
`roundDiv` finds. -/
theorem toRat?_ofNat_eq {n : Nat} (hn : n ≠ 0) (h : n < 2 ^ 64) :
    (ofNat n).toRat? =
      some ((roundDiv n (2 ^ (n.log2 - 52)) * 2 ^ (n.log2 - 52) : Nat) : Rat) := by
  have hlow : 2 ^ n.log2 ≤ n := Nat.log2_self_le hn
  have hhigh : n < 2 ^ (n.log2 + 1) := Nat.lt_log2_self
  have hlog : n.log2 < 64 := (Nat.log2_lt hn).mpr h
  unfold ofNat ofFraction
  simp only [exponentFor_one hn, scaled, Nat.one_mul]
  rw [max_eq_left (by omega : (-1074 : Int) ≤ (n.log2 : Int) - 52)]
  by_cases hsmall : n.log2 ≤ 52
  · have hexponents : (-((n.log2 : Int) - 52)).toNat = 52 - n.log2 ∧
        ((n.log2 : Int) - 52).toNat = 0 ∧ n.log2 - 52 = 0 ∧
        (n.log2 : Int) - 52 = -((52 - n.log2 : Nat) : Int) := by
      omega
    have hfits : n * twoTo (52 - n.log2) ≤ 2 ^ 53 := by
      calc n * 2 ^ (52 - n.log2) ≤ 2 ^ (n.log2 + 1) * 2 ^ (52 - n.log2) :=
            Nat.mul_le_mul_right _ hhigh.le
        _ = 2 ^ 53 := by
            rw [← Nat.pow_add]
            congr 1
            omega
    have hround : roundDiv (n * twoTo (52 - n.log2)) (twoTo 0) = n * twoTo (52 - n.log2) :=
      roundDiv_one _
    rw [hexponents.1, hexponents.2.1, hexponents.2.2.1, hround, if_neg (not_twoTo_le hfits (by decide)),
      toRat?, hexponents.2.2.2]
    rw [Nat.pow_zero, roundDiv_one, Nat.mul_one]
    exact congrArg some (value_neg n (52 - n.log2))
  · have hexponents : (-((n.log2 : Int) - 52)).toNat = 0 ∧
        ((n.log2 : Int) - 52).toNat = n.log2 - 52 ∧
        (n.log2 : Int) - 52 = ((n.log2 - 52 : Nat) : Int) := by
      omega
    have hfits : roundDiv n (twoTo (n.log2 - 52)) ≤ 2 ^ 53 := by
      apply roundDiv_le
      show n < 2 ^ (n.log2 - 52) * 2 ^ 53
      rw [← Nat.pow_add]
      have hsum : n.log2 - 52 + 53 = n.log2 + 1 := by omega
      rwa [hsum]
    have hscaled : n * twoTo 0 = n := Nat.mul_one n
    rw [hexponents.1, hexponents.2.1, hscaled, if_neg (not_twoTo_le hfits (by omega)), toRat?,
      hexponents.2.2]
    exact congrArg some (value_natCast _ _)

/-- **A number of 64 bits is rounded to the nearest double**, a tie to the even one: `(ofNat
n).toRat?` is some `d` with `IsNearestDouble n d`. -/
theorem toRat?_ofNat {n : Nat} (h : n < 2 ^ 64) :
    ∃ d, IsNearestDouble n d ∧ (ofNat n).toRat? = some (d : Rat) := by
  by_cases hn : n = 0
  · subst hn
    exact ⟨0, isNearestDouble_roundDiv (k := 0) (by decide) (.inl rfl) (by decide), by decide +kernel⟩
  · have hlow : 2 ^ n.log2 ≤ n := Nat.log2_self_le hn
    have hhigh : n < 2 ^ (n.log2 + 1) := Nat.lt_log2_self
    have hlog : n.log2 < 64 := (Nat.log2_lt hn).mpr h
    refine ⟨_, isNearestDouble_roundDiv (k := n.log2 - 52) (by omega) ?_ ?_,
      toRat?_ofNat_eq hn h⟩
    · by_cases hsmall : n.log2 ≤ 52
      · exact .inl (by omega)
      · right
        have hsum : n.log2 - 52 + 52 = n.log2 := by omega
        rwa [hsum]
    · exact hhigh.trans_le (Nat.pow_le_pow_right (by decide) (by omega))

end Binary64

end OffsetCommit
