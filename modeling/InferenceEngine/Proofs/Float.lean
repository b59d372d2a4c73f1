/-
What the sampling stages need of the arithmetic, and that the floats of the code have it.

The stages shift a row by its maximum, so the exponential is only taken of numbers that are
not positive; there it is between zero and two, and one at zero.  `Lawful` collects these
facts, and `boundedFloats_lawful` shows them of the kernel the code dispatches to: range
reduction leaves a remainder of at most two fifths, on which every Horner step stays small
and positive, so that no result comes near the limits of the format.
-/
import InferenceEngine.Sampling.Float
import Mathlib.Algebra.Order.Field.Basic
import Mathlib.Algebra.Order.Field.Power
import Mathlib.Algebra.Order.Floor.Ring
import Mathlib.Tactic.Linarith
import Mathlib.Tactic.NormNum
import Mathlib.Tactic.Positivity

namespace InferenceEngine

/-- What the stages ask of the arithmetic. -/
structure FloatModel.Lawful (m : FloatModel) : Prop where
  single_zero : m.single 0 = .finite 0
  single_nonpos : ∀ x, x ≤ 0 → m.single x = .infinity true ∨ ∃ y ≤ 0, m.single x = .finite y
  double_exact : ∀ x, |x| ≤ 2 ^ 64 → m.double x = .finite x
  exp_nan : m.exp .nan = .nan
  exp_negInf : m.exp (.infinity true) = .finite 0
  exp_zero : m.exp (.finite 0) = .finite 1
  exp_nonpos : ∀ x ≤ 0, ∃ w, m.exp (.finite x) = .finite w ∧ 0 ≤ w ∧ w ≤ 2

namespace F32

theorem bounded_of_le {largest x : Rat} (h : |x| ≤ largest) : bounded largest x = .finite x :=
  if_neg (not_lt.mpr h)

theorem bounded_of_lt {largest x : Rat} (h : largest < |x|) :
    bounded largest x = .infinity (x < 0) :=
  if_pos h

/-! ### Small numbers

Up to some bound no operation reaches infinity.  The kernel of the exponential stays below it:
its argument is reduced first, and its polynomial has small coefficients. -/

theorem small_le_float32Max {x : Rat} (h : |x| ≤ 1000) : |x| ≤ float32Max :=
  le_trans h (by norm_num [float32Max])

theorem mul_small {a b : Rat} (h : |a * b| ≤ 1000) :
    mul (bounded float32Max) (.finite a) (.finite b) = .finite (a * b) :=
  bounded_of_le (small_le_float32Max h)

theorem add_small {a b : Rat} (h : |a + b| ≤ 1000) :
    add (bounded float32Max) (.finite a) (.finite b) = .finite (a + b) :=
  bounded_of_le (small_le_float32Max h)

theorem sub_small {a b : Rat} (h : |a - b| ≤ 1000) :
    sub (bounded float32Max) (.finite a) (.finite b) = .finite (a - b) :=
  bounded_of_le (small_le_float32Max h)

/-- A factor of at most two fifths. -/
theorem mul_le_two_fifths {y r a : Rat} (hy : 0 ≤ y) (ha : y ≤ a) (hr : |r| ≤ 2 / 5) :
    |y * r| ≤ a * (2 / 5) := by
  rw [abs_mul, abs_of_nonneg hy]
  exact mul_le_mul ha hr (abs_nonneg r) (le_trans hy ha)

/-- One step of the polynomial. -/
theorem horner_step {y r p a : Rat} (hy : 0 ≤ y) (ha : y ≤ a) (hr : |r| ≤ 2 / 5) (ha1 : a ≤ 1)
    (hp : |p| ≤ 1) :
    (mul (bounded float32Max) (.finite y) (.finite r)).add (bounded float32Max) (.finite p)
        = .finite (y * r + p) ∧
      p - a * (2 / 5) ≤ y * r + p ∧ y * r + p ≤ p + a * (2 / 5) := by
  have hmul := mul_le_two_fifths hy ha hr
  obtain ⟨h1, h2⟩ := abs_le.mp hmul
  obtain ⟨h3, h4⟩ := abs_le.mp hp
  refine ⟨?_, by linarith, by linarith⟩
  rw [mul_small (le_trans hmul (by linarith)), add_small (abs_le.mpr ⟨by linarith, by linarith⟩)]

/-- The range reduction: the power of two and the remainder. -/
theorem reduce_range {x : Rat} (hlo : kExpLo ≤ x) (h0 : x ≤ 0) :
    -126 ≤ ⌊kExpLog2ef * x + 1 / 2⌋ ∧ ⌊kExpLog2ef * x + 1 / 2⌋ ≤ 0 ∧
      |x - ⌊kExpLog2ef * x + 1 / 2⌋ * kExpC1 - ⌊kExpLog2ef * x + 1 / 2⌋ * kExpC2| ≤ 2 / 5 := by
  have hfloor := Int.floor_le (kExpLog2ef * x + 1 / 2)
  have hlt := Int.lt_floor_add_one (kExpLog2ef * x + 1 / 2)
  have hge : -126 ≤ ⌊kExpLog2ef * x + 1 / 2⌋ := by
    rw [Int.le_floor]
    norm_num [kExpLog2ef, kExpLo] at hlo ⊢
    linarith
  have hle : ⌊kExpLog2ef * x + 1 / 2⌋ ≤ 0 := by
    rw [← Int.lt_add_one_iff, Int.floor_lt]
    norm_num [kExpLog2ef]
    linarith
  generalize ⌊kExpLog2ef * x + 1 / 2⌋ = n at hfloor hlt hge hle ⊢
  have hge' : (-126 : Rat) ≤ n := by exact_mod_cast hge
  have hle' : (n : Rat) ≤ 0 := by exact_mod_cast hle
  refine ⟨hge, hle, abs_le.mpr ⟨?_, ?_⟩⟩
  · norm_num [kExpLog2ef, kExpC1, kExpC2] at hfloor hlt ⊢
    linarith
  · norm_num [kExpLog2ef, kExpC1, kExpC2] at hfloor hlt ⊢
    linarith

/-- The kernel on the numbers it does not flush. -/
theorem expF32Scalar_reduced {x : Rat} (hlo : kExpLo ≤ x) (h0 : x ≤ 0) :
    ∃ y, expF32Scalar (bounded float32Max) (.finite x)
        = .finite (y * 2 ^ ⌊kExpLog2ef * x + 1 / 2⌋) ∧ 0 ≤ y ∧ y ≤ 2 := by
  obtain ⟨hn, hn0, hr⟩ := reduce_range hlo h0
  have hx : |x| ≤ 88 := abs_le.mpr ⟨by norm_num [kExpLo] at hlo; linarith, by linarith⟩
  have hprod : |kExpLog2ef * x| ≤ 200 := by
    rw [abs_mul, abs_of_nonneg (by norm_num [kExpLog2ef])]
    norm_num [kExpLog2ef]
    linarith
  obtain ⟨hp1, hp2⟩ := abs_le.mp hprod
  obtain ⟨hx1, hx2⟩ := abs_le.mp hx
  have hsum : |kExpLog2ef * x + 1 / 2| ≤ 1000 := abs_le.mpr ⟨by linarith, by linarith⟩
  unfold expF32Scalar
  have hflush : F32.lt (.finite x) (.finite kExpLo) = false := by
    simp only [F32.lt, decide_eq_false_iff_not, not_lt]; exact hlo
  have hsat : F32.min (.finite x) (.finite kExpHi) = .finite x := by
    refine if_neg ?_
    simp only [F32.lt, decide_eq_true_eq, not_lt]
    exact le_trans h0 (by norm_num [kExpHi])
  simp only [hflush, Bool.false_eq_true, if_false, hsat, mul_small (le_trans hprod (by norm_num)),
    add_small hsum, F32.floor]
  generalize ⌊kExpLog2ef * x + 1 / 2⌋ = n at hn hn0 hr ⊢
  have hn' : (-126 : Rat) ≤ n := by exact_mod_cast hn
  have hn0' : (n : Rat) ≤ 0 := by exact_mod_cast hn0
  have hc1 : |(n : Rat) * kExpC1| ≤ 100 := by
    exact abs_le.mpr ⟨by norm_num [kExpC1]; linarith, by norm_num [kExpC1]; linarith⟩
  have hc2 : |(n : Rat) * kExpC2| ≤ 1 := by
    exact abs_le.mpr ⟨by norm_num [kExpC2]; linarith, by norm_num [kExpC2]; linarith⟩
  obtain ⟨hc11, hc12⟩ := abs_le.mp hc1
  have hd : |x - n * kExpC1| ≤ 1000 := abs_le.mpr ⟨by linarith, by linarith⟩
  simp only [mul_small (le_trans hc1 (by norm_num)), mul_small (le_trans hc2 (by norm_num)),
    sub_small hd, sub_small (le_trans hr (by norm_num))]
  generalize x - n * kExpC1 - n * kExpC2 = r at hr ⊢
  -- the steps of the polynomial, each with the bounds the next one needs
  obtain ⟨e1, l1, u1⟩ := horner_step (y := kExpP0) (p := kExpP1) (a := 1 / 1000)
    (by norm_num [kExpP0]) (by norm_num [kExpP0]) hr (by norm_num) (by norm_num [kExpP1])
  generalize kExpP0 * r + kExpP1 = y1 at *
  norm_num [kExpP1] at l1 u1
  obtain ⟨e2, l2, u2⟩ := horner_step (y := y1) (p := kExpP2) (a := 1 / 500)
    (by linarith) (by linarith) hr (by norm_num) (by norm_num [kExpP2])
  generalize y1 * r + kExpP2 = y2 at *
  norm_num [kExpP2] at l2 u2
  obtain ⟨e3, l3, u3⟩ := horner_step (y := y2) (p := kExpP3) (a := 1 / 100)
    (by linarith) (by linarith) hr (by norm_num) (by norm_num [kExpP3])
  generalize y2 * r + kExpP3 = y3 at *
  norm_num [kExpP3] at l3 u3
  obtain ⟨e4, l4, u4⟩ := horner_step (y := y3) (p := kExpP4) (a := 1 / 20)
    (by linarith) (by linarith) hr (by norm_num) (by norm_num [kExpP4])
  generalize y3 * r + kExpP4 = y4 at *
  norm_num [kExpP4] at l4 u4
  obtain ⟨e5, l5, u5⟩ := horner_step (y := y4) (p := kExpP5) (a := 1 / 5)
    (by linarith) (by linarith) hr (by norm_num) (by norm_num [kExpP5])
  generalize y4 * r + kExpP5 = y5 at *
  norm_num [kExpP5] at l5 u5
  simp only [e1, e2, e3, e4, e5]
  -- what is left is `y5 * r ^ 2 + r + 1`, and the power of two
  obtain ⟨hr1, hr2⟩ := abs_le.mp hr
  have hz : |r * r| ≤ 2 / 5 := by
    rw [abs_mul]
    exact le_trans (mul_le_mul hr hr (abs_nonneg r) (by norm_num)) (by norm_num)
  have hyz := mul_le_two_fifths (show 0 ≤ y5 by linarith) (show y5 ≤ 3 / 5 by linarith) hz
  obtain ⟨hyz1, hyz2⟩ := abs_le.mp hyz
  have hyz0 : 0 ≤ y5 * (r * r) := mul_nonneg (by linarith) (mul_self_nonneg r)
  have hyr : |y5 * (r * r) + r| ≤ 1000 := abs_le.mpr ⟨by linarith, by linarith⟩
  have hyr1 : |y5 * (r * r) + r + 1| ≤ 1000 := abs_le.mpr ⟨by linarith, by linarith⟩
  simp only [mul_small (le_trans hz (by norm_num)), mul_small (le_trans hyz (by norm_num)),
    add_small hyr, add_small hyr1, pow2n]
  have hpow : (0 : Rat) < 2 ^ n := zpow_pos (by norm_num) n
  have hpow1 : (2 : Rat) ^ n ≤ 1 := zpow_le_one_of_nonpos₀ (by norm_num) hn0
  have hfinal : |(y5 * (r * r) + r + 1) * 2 ^ n| ≤ 1000 := by
    rw [abs_mul, abs_of_pos hpow]
    exact le_trans (mul_le_mul hyr1 hpow1 (le_of_lt hpow) (by norm_num)) (by norm_num)
  rw [Int.floor_intCast, mul_small hfinal]
  exact ⟨_, rfl, by linarith, by linarith⟩

theorem expF32Scalar_nonpos {x : Rat} (h0 : x ≤ 0) :
    ∃ w, expF32Scalar (bounded float32Max) (.finite x) = .finite w ∧ 0 ≤ w ∧ w ≤ 2 := by
  by_cases hlo : kExpLo ≤ x
  · obtain ⟨y, he, hy0, hy2⟩ := expF32Scalar_reduced hlo h0
    obtain ⟨_, hn0, _⟩ := reduce_range hlo h0
    have hpow : (0 : Rat) < 2 ^ ⌊kExpLog2ef * x + 1 / 2⌋ := zpow_pos (by norm_num) _
    have hpow1 : (2 : Rat) ^ ⌊kExpLog2ef * x + 1 / 2⌋ ≤ 1 :=
      zpow_le_one_of_nonpos₀ (by norm_num) hn0
    refine ⟨_, he, mul_nonneg hy0 (le_of_lt hpow), ?_⟩
    calc y * 2 ^ ⌊kExpLog2ef * x + 1 / 2⌋ ≤ 2 * 1 :=
          mul_le_mul hy2 hpow1 (le_of_lt hpow) (by norm_num)
      _ = 2 := by norm_num
  · refine ⟨0, if_pos ?_, le_refl _, by norm_num⟩
    simp only [F32.lt, decide_eq_true_eq]
    exact not_le.mp hlo

end F32

/-- **The floats of the code have what the stages ask for.** -/
theorem boundedFloats_lawful (log : F32 → F32) : (boundedFloats log).Lawful where
  single_zero := F32.bounded_of_le (by norm_num [float32Max])
  single_nonpos := by
    intro x hx
    by_cases h : float32Max < |x|
    · refine .inl ((F32.bounded_of_lt h).trans ?_)
      have hne : x ≠ 0 := by
        rintro rfl
        norm_num [float32Max] at h
      rw [decide_eq_true (lt_of_le_of_ne hx hne)]
    · exact .inr ⟨x, hx, F32.bounded_of_le (not_lt.mp h)⟩
  double_exact := by
    intro x hx
    refine F32.bounded_of_le (le_trans hx ?_)
    calc (2 : Rat) ^ 64 ≤ 2 ^ 971 := pow_le_pow_right₀ (by norm_num) (by norm_num)
      _ ≤ (2 ^ 53 - 1) * 2 ^ 971 :=
          le_mul_of_one_le_left (by positivity) (by norm_num)
  exp_nan := rfl
  exp_negInf := rfl
  exp_zero := by
    show expF32Scalar (F32.bounded float32Max) (.finite 0) = .finite 1
    decide +kernel
  exp_nonpos := fun x hx => F32.expF32Scalar_nonpos hx

end InferenceEngine
