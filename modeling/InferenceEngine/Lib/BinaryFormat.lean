/-
Binary floating point formats.

Without its sign a word of a format is a number, and the words count the numbers of the format
upwards from zero: word `a` is `scaled a` times the least positive number.  The numbering does not
stop at the largest finite number.  The word of the infinity stands where the next one would be,
and what rounds to it there overflows.

A format with a longer fraction and a larger range has all the numbers of a smaller one, at
regular places: `scaled_refine`.  The numbers half way between two neighbours of the smaller
format are among them, which is why rounding can be done on words.
-/
import InferenceEngine.Lib.Grid
import Mathlib.Algebra.Order.Field.Power

/-- The widths of the exponent field and of the fraction. -/
structure BinaryFormat where
  exponentBits : Nat
  fractionBits : Nat
deriving DecidableEq, Repr

namespace BinaryFormat

variable (f : BinaryFormat)

/-- The word of the positive infinity. -/
def infinity : Nat := (2 ^ f.exponentBits - 1) * 2 ^ f.fractionBits

/-- The sign bit. -/
def signBit : Nat := 2 ^ (f.exponentBits + f.fractionBits)

/-- A word without its sign, in units of the least positive number. -/
def scaled (a : Nat) : Nat :=
  if a / 2 ^ f.fractionBits = 0 then a
  else (2 ^ f.fractionBits + a % 2 ^ f.fractionBits) * 2 ^ (a / 2 ^ f.fractionBits - 1)

/-- The least positive number; the bias of the exponent is `2 ^ (exponentBits - 1) - 1`. -/
def least : ℚ := 2 ^ (2 - 2 ^ (f.exponentBits - 1) - (f.fractionBits : ℤ))

/-- A word without its sign bit. -/
def magnitude (w : Nat) : Nat := w % f.signBit

/-- Whether the sign bit is set. -/
def negative (w : Nat) : Bool := f.signBit ≤ w

/-! ### The numbers in order

Within one exponent the numbers are evenly spaced, and the last of one exponent is followed by
the first of the next, so the words are in the order of their numbers. -/

/-- The numbers of one exponent, the first of the next one included. -/
theorem scaled_piece (e : Nat) {t : Nat} (h : t ≤ 2 ^ f.fractionBits) :
    f.scaled (e * 2 ^ f.fractionBits + t) =
      if e = 0 then t else (2 ^ f.fractionBits + t) * 2 ^ (e - 1) := by
  have hpos : 0 < 2 ^ f.fractionBits := Nat.two_pow_pos _
  unfold scaled
  rcases Nat.lt_or_eq_of_le h with hlt | rfl
  · rw [Nat.mul_comm e, Nat.mul_add_div hpos, Nat.mul_add_mod, Nat.div_eq_of_lt hlt,
      Nat.mod_eq_of_lt hlt, Nat.add_zero]
    by_cases he : e = 0
    · rw [if_pos he, if_pos he, he, Nat.mul_zero, Nat.zero_add]
    · rw [if_neg he, if_neg he]
  · rw [← Nat.succ_mul, Nat.mul_div_cancel _ hpos, Nat.mul_mod_left, if_neg (by omega)]
    cases e with
    | zero => simp
    | succ e =>
        rw [if_neg (by omega), Nat.add_zero, Nat.succ_sub_one, Nat.succ_sub_one, Nat.pow_succ]
        ring

theorem scaled_succ (a : Nat) :
    f.scaled (a + 1) = f.scaled a + 2 ^ (a / 2 ^ f.fractionBits - 1) := by
  have hpos : 0 < 2 ^ f.fractionBits := Nat.two_pow_pos _
  have hlt : a % 2 ^ f.fractionBits < 2 ^ f.fractionBits := Nat.mod_lt a hpos
  have ha : a / 2 ^ f.fractionBits * 2 ^ f.fractionBits + a % 2 ^ f.fractionBits = a :=
    Nat.div_add_mod' a _
  have hpiece := f.scaled_piece (a / 2 ^ f.fractionBits) hlt.le
  have hnext := f.scaled_piece (a / 2 ^ f.fractionBits) (Nat.succ_le_of_lt hlt)
  rw [ha] at hpiece
  rw [Nat.add_succ, ha, Nat.succ_eq_add_one, Nat.succ_eq_add_one] at hnext
  rw [hnext, hpiece]
  split
  · rename_i hzero
    rw [hzero]
    rfl
  · ring

theorem scaled_strictMono : StrictMono f.scaled :=
  strictMono_nat_of_lt_succ fun a => by
    rw [scaled_succ]
    have := Nat.two_pow_pos (a / 2 ^ f.fractionBits - 1)
    omega

/-- Up to the second exponent the words are the numbers. -/
theorem scaled_of_le {a : Nat} (h : a ≤ 2 ^ (f.fractionBits + 1)) : f.scaled a = a := by
  rw [Nat.pow_succ] at h
  rcases Nat.lt_or_ge a (2 ^ f.fractionBits) with hlt | hge
  · have hpiece := f.scaled_piece 0 hlt.le
    rw [Nat.zero_mul, Nat.zero_add, if_pos rfl] at hpiece
    exact hpiece
  · have hpiece := f.scaled_piece 1 (t := a - 2 ^ f.fractionBits) (by omega)
    rw [Nat.one_mul, if_neg (by decide), Nat.add_sub_cancel' hge, Nat.sub_self, Nat.pow_zero,
      Nat.mul_one] at hpiece
    exact hpiece

/-! ### A finer format

Rounding to a format is looked at in a finer one, where its numbers and the midpoints between
them are numbers too. -/

variable {f} {g : BinaryFormat} {c d : Nat}

/-- A format with `d` more bits of fraction, whose exponents start `c` lower, has the numbers of
`f` from the normal ones on (all of them if the exponents start together) at every `2 ^ d`-th
place, and divides what is between them evenly. -/
theorem scaled_refine (hd : g.fractionBits = f.fractionBits + d) {p u : Nat}
    (hp : c = 0 ∨ 2 ^ f.fractionBits ≤ p) (hu : u ≤ 2 ^ d) :
    g.scaled ((p + c * 2 ^ f.fractionBits) * 2 ^ d + u) =
      f.scaled p * 2 ^ (c + d) + u * 2 ^ (p / 2 ^ f.fractionBits - 1 + c) := by
  have hpos : 0 < 2 ^ f.fractionBits := Nat.two_pow_pos _
  have hlt : p % 2 ^ f.fractionBits < 2 ^ f.fractionBits := Nat.mod_lt p hpos
  have hdiv : p / 2 ^ f.fractionBits * 2 ^ f.fractionBits + p % 2 ^ f.fractionBits = p :=
    Nat.div_add_mod' p _
  have hfp := f.scaled_piece (p / 2 ^ f.fractionBits) hlt.le
  rw [hdiv] at hfp
  have he : p / 2 ^ f.fractionBits = 0 → c = 0 := by
    intro hzero
    rcases hp with hc | hle
    · exact hc
    · have := (Nat.div_eq_zero_iff_lt hpos).mp hzero
      omega
  generalize p / 2 ^ f.fractionBits = e at hdiv hfp he ⊢
  generalize p % 2 ^ f.fractionBits = t at hlt hdiv hfp
  have hbound : t * 2 ^ d + u ≤ 2 ^ g.fractionBits := by
    have hmul : (t + 1) * 2 ^ d ≤ 2 ^ f.fractionBits * 2 ^ d := Nat.mul_le_mul_right _ hlt
    rw [hd, Nat.pow_add]
    rw [Nat.succ_mul] at hmul
    omega
  have hplace : (p + c * 2 ^ f.fractionBits) * 2 ^ d + u
      = (e + c) * 2 ^ g.fractionBits + (t * 2 ^ d + u) := by
    rw [← hdiv, hd, Nat.pow_add]
    ring
  rw [hplace, g.scaled_piece (e + c) hbound, hfp]
  by_cases hzero : e = 0
  · rw [hzero, he hzero, if_pos rfl, if_pos rfl]
    simp
  · rw [if_neg hzero, if_neg (by omega), show e + c - 1 = e - 1 + c by omega, hd, Nat.pow_add,
      Nat.pow_add, Nat.pow_add]
    ring

/-- Half way between two neighbours of `f`. -/
theorem scaled_midpoint (hd : g.fractionBits = f.fractionBits + d) (hpos : 0 < d) {p : Nat}
    (hp : c = 0 ∨ 2 ^ f.fractionBits ≤ p) :
    2 * g.scaled ((p + c * 2 ^ f.fractionBits) * 2 ^ d + 2 ^ (d - 1)) =
      f.scaled p * 2 ^ (c + d) + f.scaled (p + 1) * 2 ^ (c + d) := by
  have hhalf : 2 ^ d = 2 * 2 ^ (d - 1) := by
    rw [← Nat.pow_succ', show (d - 1).succ = d by omega]
  rw [scaled_refine hd hp (by omega), scaled_succ, Nat.pow_add 2 (p / 2 ^ f.fractionBits - 1) c,
    Nat.pow_add 2 c d, hhalf]
  ring

/-- The numbers of `f` in units of the least number of a format where it is `2 ^ k` of them. -/
def grid (f : BinaryFormat) (k p : Nat) : Nat := f.scaled p * 2 ^ k

theorem grid_strictMono (f : BinaryFormat) (k : Nat) : StrictMono (f.grid k) :=
  fun _ _ h => Nat.mul_lt_mul_of_pos_right (f.scaled_strictMono h) (Nat.two_pow_pos k)

private theorem even_rebias (hf : 0 < f.fractionBits) {p : Nat} :
    Even (p + c * 2 ^ f.fractionBits) ↔ Even p := by
  have hpow : Even (c * 2 ^ f.fractionBits) := by
    rw [show f.fractionBits = f.fractionBits - 1 + 1 by omega, Nat.pow_succ]
    exact ⟨c * 2 ^ (f.fractionBits - 1), by ring⟩
  rw [Nat.even_add]
  exact ⟨fun h => h.mpr hpow, fun h => ⟨fun _ => hpow, fun _ => h⟩⟩

/-- Rounding the word rounds the number: upwards. -/
theorem upper_refine (hf : 0 < f.fractionBits) (hd : g.fractionBits = f.fractionBits + d)
    (hpos : 0 < d) {a p : Nat} (hp : c = 0 ∨ 2 ^ f.fractionBits ≤ p)
    (h : Grid.Upper (· * 2 ^ d) a (p + c * 2 ^ f.fractionBits)) :
    Grid.Upper (f.grid (c + d)) (g.scaled a) p := by
  have hhalf : 2 ^ d = 2 * 2 ^ (d - 1) := by
    rw [← Nat.pow_succ', show (d - 1).succ = d by omega]
  have hmid := scaled_midpoint hd hpos hp
  obtain ⟨hle, heven⟩ := h
  dsimp only at hle heven
  have hnext := Nat.succ_mul (p + c * 2 ^ f.fractionBits) (2 ^ d)
  rw [Nat.succ_eq_add_one] at hnext
  have hword : a ≤ (p + c * 2 ^ f.fractionBits) * 2 ^ d + 2 ^ (d - 1) := by omega
  have hnumber := g.scaled_strictMono.monotone hword
  unfold Grid.Upper grid
  refine ⟨by omega, fun htie => ?_⟩
  have hat : a = (p + c * 2 ^ f.fractionBits) * 2 ^ d + 2 ^ (d - 1) :=
    g.scaled_strictMono.injective (by omega)
  exact (even_rebias hf).mp (heven (by omega))

/-- Rounding the word rounds the number: downwards. -/
theorem lower_refine (hf : 0 < f.fractionBits) (hd : g.fractionBits = f.fractionBits + d)
    (hpos : 0 < d) {a p : Nat}
    (ha : c = 0 ∨ (2 ^ f.fractionBits + c * 2 ^ f.fractionBits) * 2 ^ d ≤ a)
    (hp : c = 0 ∨ 2 ^ f.fractionBits ≤ p)
    (h : Grid.Lower (· * 2 ^ d) a (p + c * 2 ^ f.fractionBits)) :
    Grid.Lower (f.grid (c + d)) (g.scaled a) p := by
  have hhalf : 2 ^ d = 2 * 2 ^ (d - 1) := by
    rw [← Nat.pow_succ', show (d - 1).succ = d by omega]
  intro q hq
  subst hq
  by_cases hnormal : c = 0 ∨ 2 ^ f.fractionBits ≤ q
  · have hmid := scaled_midpoint hd hpos hnormal
    obtain ⟨hle, heven⟩ := h (q + c * 2 ^ f.fractionBits) (by omega)
    dsimp only at hle heven
    have hnext := Nat.succ_mul (q + c * 2 ^ f.fractionBits) (2 ^ d)
    rw [show q + 1 + c * 2 ^ f.fractionBits = (q + c * 2 ^ f.fractionBits).succ by omega]
      at hle heven
    have hword : (q + c * 2 ^ f.fractionBits) * 2 ^ d + 2 ^ (d - 1) ≤ a := by omega
    have hnumber := g.scaled_strictMono.monotone hword
    unfold grid
    refine ⟨by omega, fun htie => ?_⟩
    have hat : a = (q + c * 2 ^ f.fractionBits) * 2 ^ d + 2 ^ (d - 1) :=
      g.scaled_strictMono.injective (by omega)
    have hodd := heven (by omega)
    rwa [show (q + c * 2 ^ f.fractionBits).succ = q + 1 + c * 2 ^ f.fractionBits by omega,
      even_rebias hf] at hodd
  · -- the first normal number, and `a` is not below it
    obtain ⟨hc, hq⟩ := not_or.mp hnormal
    have hfirst : q + 1 = 2 ^ f.fractionBits := by
      have := hp.resolve_left hc
      omega
    have hplace := scaled_refine (c := c) hd (Or.inr (hp.resolve_left hc)) (Nat.zero_le (2 ^ d))
    rw [Nat.add_zero, Nat.zero_mul, Nat.add_zero, hfirst] at hplace
    have hnumber := g.scaled_strictMono.monotone (ha.resolve_left hc)
    have hstep := grid_strictMono f (c + d) (Nat.lt_succ_self q)
    rw [← hfirst] at hplace hnumber
    unfold grid at hstep ⊢
    rw [Nat.succ_eq_add_one] at hstep
    exact ⟨by omega, fun htie => by omega⟩

end BinaryFormat
