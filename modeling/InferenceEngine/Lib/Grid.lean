/-
Rounding to the nearest point of a grid.

The points of a grid are numbered upwards.  `Lower` and `Upper` say that a point is not too far up
and not too far down for what it rounds, and that between two neighbours which are equally near
the even one is right.  The rest of what is expected of rounding follows from these two: that no
other point is nearer, that rounding is monotone, and that a point is its own rounding.
-/
import Mathlib.Algebra.Order.Field.Rat
import Mathlib.Algebra.Ring.Parity
import Mathlib.Tactic.Linarith
import Mathlib.Tactic.Ring

namespace Grid

variable {G : Nat → Nat} {X Y r r' : Nat}

/-- `r` is not too large for `X`: its lower neighbour is not nearer. -/
def Lower (G : Nat → Nat) (X r : Nat) : Prop :=
  ∀ p, p + 1 = r → G p + G r ≤ 2 * X ∧ (G p + G r = 2 * X → Even r)

/-- `r` is not too small for `X`: its upper neighbour is not nearer. -/
def Upper (G : Nat → Nat) (X r : Nat) : Prop :=
  2 * X ≤ G r + G (r + 1) ∧ (2 * X = G r + G (r + 1) → Even r)

theorem lower_self (hG : StrictMono G) (p : Nat) : Lower G (G p) p := by
  intro q hq
  have hlt : G q < G p := hG (by omega)
  exact ⟨by omega, fun h => by omega⟩

theorem upper_self (hG : StrictMono G) (p : Nat) : Upper G (G p) p := by
  have hlt : G p < G (p + 1) := hG (by omega)
  exact ⟨by omega, fun h => by omega⟩

/-- **Rounding is monotone.** -/
theorem Lower.le_of_upper (hG : StrictMono G) (hX : Lower G X r) (hY : Upper G Y r')
    (hle : X ≤ Y) : r ≤ r' := by
  by_contra hgt
  obtain ⟨p, rfl⟩ : ∃ p, r = p + 1 := ⟨r - 1, by omega⟩
  obtain ⟨hlow, heven⟩ := hX p rfl
  obtain ⟨hhigh, heven'⟩ := hY
  have h1 : G r' ≤ G p := hG.monotone (by omega)
  have h2 : G (r' + 1) ≤ G (p + 1) := hG.monotone (by omega)
  -- the two midpoints are one, and both of its neighbours are even
  have heq : G r' = G p := by omega
  obtain rfl := hG.injective heq
  have hodd := heven (by omega)
  rw [Nat.even_add_one] at hodd
  exact hodd (heven' (by omega))

/-- No point of the grid is nearer to `X`, and one that is as near makes `r` even. -/
theorem nearest (hG : StrictMono G) (hlow : Lower G X r) (hhigh : Upper G X r) (q : Nat) :
    |(G r : ℚ) - X| ≤ |(G q : ℚ) - X| ∧ (|(G q : ℚ) - X| = |(G r : ℚ) - X| → q = r ∨ Even r) := by
  rcases Nat.lt_trichotomy q r with hlt | rfl | hgt
  · obtain ⟨p, rfl⟩ : ∃ p, r = p + 1 := ⟨r - 1, by omega⟩
    obtain ⟨hmid, heven⟩ := hlow p rfl
    have hp : G q ≤ G p := hG.monotone (by omega)
    have hpr : G p < G (p + 1) := hG (by omega)
    have hmidQ : (G p : ℚ) + G (p + 1) ≤ 2 * X := by exact_mod_cast hmid
    have hpQ : (G q : ℚ) ≤ G p := by exact_mod_cast hp
    have hprQ : (G p : ℚ) < G (p + 1) := by exact_mod_cast hpr
    rw [abs_of_nonpos (by linarith : (G q : ℚ) - X ≤ 0)]
    constructor
    · rw [abs_le]
      constructor
      · linarith
      · linarith
    · intro htie
      refine Or.inr (heven ?_)
      rcases abs_cases ((G (p + 1) : ℚ) - X) with ⟨habs, _⟩ | ⟨habs, _⟩
      · rw [habs] at htie
        have hsum : (G p : ℚ) + G (p + 1) = 2 * X := by linarith
        exact_mod_cast hsum
      · linarith
  · exact ⟨le_refl _, fun _ => Or.inl rfl⟩
  · obtain ⟨hmid, heven⟩ := hhigh
    have hq : G (r + 1) ≤ G q := hG.monotone (by omega)
    have hr : G r < G (r + 1) := hG (by omega)
    have hmidQ : 2 * (X : ℚ) ≤ G r + G (r + 1) := by exact_mod_cast hmid
    have hqQ : (G (r + 1) : ℚ) ≤ G q := by exact_mod_cast hq
    have hrQ : (G r : ℚ) < G (r + 1) := by exact_mod_cast hr
    rw [abs_of_nonneg (by linarith : 0 ≤ (G q : ℚ) - X)]
    constructor
    · rw [abs_le]
      constructor
      · linarith
      · linarith
    · intro htie
      refine Or.inr (heven ?_)
      rcases abs_cases ((G r : ℚ) - X) with ⟨habs, _⟩ | ⟨habs, _⟩
      · linarith
      · rw [habs] at htie
        have hsum : 2 * (X : ℚ) = G r + G (r + 1) := by linarith
        exact_mod_cast hsum

/-- The same grid in smaller units. -/
theorem Lower.scale (h : Lower G X r) {c : Nat} (hc : 0 < c) :
    Lower (fun p => G p * c) (X * c) r := by
  intro p hp
  obtain ⟨hmid, heven⟩ := h p hp
  have hsum : G p * c + G r * c = (G p + G r) * c := (Nat.add_mul _ _ _).symm
  have htwice : 2 * (X * c) = 2 * X * c := (Nat.mul_assoc _ _ _).symm
  dsimp only
  rw [hsum, htwice]
  exact ⟨Nat.mul_le_mul_right c hmid, fun htie => heven (Nat.mul_right_cancel hc htie)⟩

theorem Upper.scale (h : Upper G X r) {c : Nat} (hc : 0 < c) :
    Upper (fun p => G p * c) (X * c) r := by
  obtain ⟨hmid, heven⟩ := h
  have hsum : G r * c + G (r + 1) * c = (G r + G (r + 1)) * c := (Nat.add_mul _ _ _).symm
  have htwice : 2 * (X * c) = 2 * X * c := (Nat.mul_assoc _ _ _).symm
  unfold Upper
  rw [hsum, htwice]
  exact ⟨Nat.mul_le_mul_right c hmid, fun htie => heven (Nat.mul_right_cancel hc htie)⟩

/-- Only the neighbours of `r` count. -/
theorem Lower.congr {G' : Nat → Nat} (h : Lower G X r) (hG : ∀ p ≤ r, G p = G' p) :
    Lower G' X r := by
  intro p hp
  rw [← hG p (by omega), ← hG r (le_refl r)]
  exact h p hp

theorem Upper.congr {G' : Nat → Nat} (h : Upper G X r) (hG : ∀ p ≤ r + 1, G p = G' p) :
    Upper G' X r := by
  unfold Upper
  rw [← hG r (by omega), ← hG (r + 1) (le_refl _)]
  exact h

/-- `v / 2 ^ s` to the nearest integer, of two the even one, without a comparison: what is added
carries into the quotient exactly when the remainder is past the middle, or at it under an odd
quotient. -/
def roundShift (v s : Nat) : Nat := (v + (2 ^ (s - 1) - 1) + v / 2 ^ s % 2) / 2 ^ s

private theorem roundShift_cases (v : Nat) {h : Nat} (hh : 0 < h) :
    let q := v / (2 * h)
    let n := (v + (h - 1) + q % 2) / (2 * h)
    (n = q ∧ v % (2 * h) + q % 2 ≤ h) ∨ (n = q + 1 ∧ h < v % (2 * h) + q % 2) := by
  intro q n
  have hdiv : 2 * h * q + v % (2 * h) = v := Nat.div_add_mod v (2 * h)
  have hmod : v % (2 * h) < 2 * h := Nat.mod_lt v (by omega)
  have hsum : v + (h - 1) + q % 2 = 2 * h * q + (v % (2 * h) + (h - 1) + q % 2) := by omega
  have hn : n = q + (v % (2 * h) + (h - 1) + q % 2) / (2 * h) := by
    show (v + (h - 1) + q % 2) / (2 * h) = _
    rw [hsum, Nat.mul_add_div (by omega)]
  by_cases hcarry : v % (2 * h) + q % 2 ≤ h
  · rw [Nat.div_eq_of_lt (by omega)] at hn
    exact Or.inl ⟨hn, hcarry⟩
  · have hone : (v % (2 * h) + (h - 1) + q % 2) / (2 * h) = 1 :=
      Nat.div_eq_of_lt_le (by omega) (by omega)
    rw [hone] at hn
    exact Or.inr ⟨hn, by omega⟩

/-- **The carry rounds to nearest, ties to even.** -/
theorem roundShift_spec (v : Nat) {s : Nat} (hs : 0 < s) :
    Lower (· * 2 ^ s) v (roundShift v s) ∧ Upper (· * 2 ^ s) v (roundShift v s) := by
  obtain ⟨h, hh, hpow, hhalf⟩ : ∃ h, 0 < h ∧ 2 ^ s = 2 * h ∧ 2 ^ (s - 1) = h := by
    refine ⟨2 ^ (s - 1), Nat.two_pow_pos _, ?_, rfl⟩
    rw [← Nat.pow_succ', show (s - 1).succ = s by omega]
  unfold roundShift
  rw [hpow, hhalf]
  have hcases := roundShift_cases v hh
  dsimp only at hcases
  have hdiv : 2 * h * (v / (2 * h)) + v % (2 * h) = v := Nat.div_add_mod v (2 * h)
  have hmod : v % (2 * h) < 2 * h := Nat.mod_lt v (by omega)
  generalize (v + (h - 1) + v / (2 * h) % 2) / (2 * h) = n at hcases ⊢
  generalize v / (2 * h) = q at hcases hdiv
  rw [Nat.mul_comm (2 * h) q] at hdiv
  have hnext : ∀ i : Nat, (i + 1) * (2 * h) = i * (2 * h) + 2 * h := fun i => Nat.succ_mul i _
  unfold Lower Upper
  dsimp only
  rcases hcases with ⟨rfl, hround⟩ | ⟨rfl, hround⟩
  · constructor
    · intro p hp
      subst hp
      have := hnext p
      exact ⟨by omega, fun h => by omega⟩
    · have := hnext n
      exact ⟨by omega, fun h => Nat.even_iff.mpr (by omega)⟩
  · constructor
    · intro p hp
      obtain rfl : p = q := by omega
      have := hnext p
      exact ⟨by omega, fun h => Nat.even_iff.mpr (by omega)⟩
    · have := hnext q
      have := hnext (q + 1)
      exact ⟨by omega, fun h => by omega⟩

theorem roundShift_le {v s n : Nat} (hs : 0 < s) (h : v ≤ n * 2 ^ s) : roundShift v s ≤ n := by
  have hG : StrictMono (· * 2 ^ s : Nat → Nat) :=
    fun _ _ hlt => Nat.mul_lt_mul_of_pos_right hlt (Nat.two_pow_pos s)
  exact (roundShift_spec v hs).1.le_of_upper hG (upper_self hG n) h

theorem le_roundShift {v s n : Nat} (h : n * 2 ^ s ≤ v) : n ≤ roundShift v s := by
  unfold roundShift
  rw [Nat.le_div_iff_mul_le (Nat.two_pow_pos s)]
  omega

end Grid
