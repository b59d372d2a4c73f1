/-
Arithmetic progressions of integers that stop before a bound.

The terms `start + k * step` that lie strictly before `stop`, in the direction of `step`, are the
first few, and how many they are is one division of magnitudes, rounded up.  They lie between the
first and the last of them, so an interval that holds these two holds them all.
-/
import Mathlib.Algebra.Order.Ring.Int
import Mathlib.Tactic.Linarith
import Mathlib.Tactic.Ring

namespace Progression

/-- `x` comes strictly before `stop` in the direction of `step`. -/
def Before (step stop x : Int) : Prop := (0 < step ∧ x < stop) ∨ (step < 0 ∧ stop < x)

/-- `a / b`, rounded up. -/
def roundUp (a b : Nat) : Nat := a / b + if a % b ≠ 0 then 1 else 0

/-- How many terms come before the bound, where `span` leads from the start to it. -/
def count (step span : Int) : Nat :=
  if (0 < step ↔ 0 < span) ∧ span ≠ 0 then roundUp span.natAbs step.natAbs else 0

theorem lt_roundUp {a b k : Nat} (hb : 0 < b) : k < roundUp a b ↔ k * b < a := by
  unfold roundUp
  have hdiv : b * (a / b) + a % b = a := Nat.div_add_mod a b
  have hmod : a % b < b := Nat.mod_lt a hb
  rcases Nat.lt_trichotomy k (a / b) with hlt | heq | hgt
  · have hmul : (k + 1) * b ≤ a / b * b := Nat.mul_le_mul_right b hlt
    rw [Nat.add_mul, Nat.one_mul, Nat.mul_comm (a / b) b] at hmul
    constructor
    · intro _
      omega
    · intro _
      omega
  · rw [heq, Nat.mul_comm]
    by_cases hzero : a % b = 0
    · rw [if_neg (by omega)]
      omega
    · rw [if_pos hzero]
      omega
  · have hmul : (a / b + 1) * b ≤ k * b := Nat.mul_le_mul_right b hgt
    rw [Nat.add_mul, Nat.one_mul, Nat.mul_comm (a / b) b] at hmul
    constructor
    · intro h
      split at h
      · omega
      · omega
    · intro h
      omega

theorem roundUp_le (a : Nat) {b : Nat} (hb : 0 < b) : roundUp a b ≤ a := by
  by_contra hgt
  have hlt : a * b < a := (lt_roundUp hb).mp (by omega)
  have hle := Nat.le_mul_of_pos_right a hb
  omega

theorem before_neg (step stop x : Int) : Before (-step) (-stop) (-x) ↔ Before step stop x := by
  unfold Before
  omega

theorem count_neg {step : Int} (hstep : step ≠ 0) (span : Int) :
    count (-step) (-span) = count step span := by
  unfold count
  rw [Int.natAbs_neg, Int.natAbs_neg]
  exact if_congr (by omega) rfl rfl

private theorem before_iff_of_pos {step : Int} (hpos : 0 < step) (start stop : Int) (k : Nat) :
    Before step stop (start + k * step) ↔ k < count step (stop - start) := by
  unfold Before count
  by_cases hspan : 0 < stop - start
  · have hcast : ((k * step.natAbs : Nat) : Int) = k * step := by
      rw [Nat.cast_mul, Int.natAbs_of_nonneg hpos.le]
    rw [if_pos (by omega), lt_roundUp (by omega)]
    omega
  · have hge : 0 ≤ (k : Int) * step := by positivity
    rw [if_neg (by omega)]
    omega

/-- **The count is the number of terms before the bound.** -/
theorem before_iff {step : Int} (hstep : step ≠ 0) (start stop : Int) (k : Nat) :
    Before step stop (start + k * step) ↔ k < count step (stop - start) := by
  rcases lt_or_gt_of_ne hstep with hneg | hpos
  · have hflip := @before_iff_of_pos (-step) (by omega) (-start) (-stop) k
    rw [show -start + k * -step = -(start + k * step) by ring, before_neg,
      show -stop - -start = -(stop - start) by ring, count_neg hstep] at hflip
    exact hflip
  · exact before_iff_of_pos hpos start stop k

/-- No more terms than there are integers on the way. -/
theorem count_le {step : Int} (hstep : step ≠ 0) (span : Int) :
    count step span ≤ span.natAbs := by
  unfold count
  split
  · exact roundUp_le _ (by omega)
  · exact Nat.zero_le _

/-- The terms lie between any two of them that enclose their numbers. -/
theorem between {step start : Int} {i k j : Nat} (hik : i ≤ k) (hkj : k ≤ j) :
    min (start + i * step) (start + j * step) ≤ start + k * step ∧
      start + k * step ≤ max (start + i * step) (start + j * step) := by
  rcases le_total 0 step with hpos | hneg
  · have h1 := mul_le_mul_of_nonneg_right (Int.ofNat_le.mpr hik) hpos
    have h2 := mul_le_mul_of_nonneg_right (Int.ofNat_le.mpr hkj) hpos
    omega
  · have h1 := mul_le_mul_of_nonpos_right (Int.ofNat_le.mpr hik) hneg
    have h2 := mul_le_mul_of_nonpos_right (Int.ofNat_le.mpr hkj) hneg
    omega

end Progression
