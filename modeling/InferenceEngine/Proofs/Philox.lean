/-
The counter-based generator is a permutation of its counters.

A round multiplies two of its words by odd constants and keeps both halves of the products: the
low half gives the word back, and the word gives the high half, which is then taken out of the
other two words.  Ten rounds under the bumped keys are undone in the opposite order.
-/
import InferenceEngine.Sampling.Philox
import Mathlib.Data.Rat.Cast.Order
import Mathlib.Logic.Function.Basic
import Mathlib.Tactic.Linarith
import Mathlib.Tactic.Positivity

namespace InferenceEngine

/-! ### One round

A round multiplies two of the words and puts the high halves into the others.  The multipliers
are odd, so the factors can be had back from the low halves. -/

/-- The inverses of the two multipliers modulo `2 ^ 32`. -/
def kM0Inverse : BitVec 32 := 0x991A7CDB

/-- The inverse of the second multiplier. -/
def kM1Inverse : BitVec 32 := 0x6D7CAE67

theorem kM0Inverse_mul : kM0Inverse * kM0 = 1#32 := by decide

theorem kM1Inverse_mul : kM1Inverse * kM1 = 1#32 := by decide

/-- The low half of a product is the product modulo `2 ^ 32`. -/
theorem mulHiLo32_low (a b : BitVec 32) : (mulHiLo32 a b).2 = a * b := by
  show (a.setWidth 64 * b.setWidth 64).setWidth 32 = a * b
  rw [BitVec.setWidth_mul _ _ (by decide), BitVec.setWidth_setWidth_of_le _ (by decide),
    BitVec.setWidth_setWidth_of_le _ (by decide), BitVec.setWidth_eq, BitVec.setWidth_eq]

/-- A factor with an inverse is found back in the low half. -/
theorem mul_mulHiLo32_low {a inverse : BitVec 32} (h : inverse * a = 1#32) (b : BitVec 32) :
    inverse * (mulHiLo32 a b).2 = b := by
  rw [mulHiLo32_low, ← BitVec.mul_assoc, h, BitVec.one_mul]

/-- A word that a product of the inverse gives back. -/
theorem mulHiLo32_low_mul {a inverse : BitVec 32} (h : inverse * a = 1#32) (b : BitVec 32) :
    (mulHiLo32 a (inverse * b)).2 = b := by
  rw [mulHiLo32_low, ← BitVec.mul_assoc, BitVec.mul_comm a, h, BitVec.one_mul]

/-- What is put into a word by `^^^` is taken out by it. -/
theorem xor_xor_cancel (a b c : BitVec 32) : a ^^^ (a ^^^ b ^^^ c) ^^^ c = b := by
  rw [← BitVec.xor_assoc, ← BitVec.xor_assoc, BitVec.xor_self, BitVec.zero_xor, BitVec.xor_assoc,
    BitVec.xor_self, BitVec.xor_zero]

/-- The round undone: the factors come from the low halves and give the high halves. -/
def philox4x32Unround (out : Philox4x32Block) (key : PhiloxKey) : Philox4x32Block :=
  let w0 := kM0Inverse * out.w3
  let w2 := kM1Inverse * out.w1
  ⟨w0, (mulHiLo32 kM1 w2).1 ^^^ out.w0 ^^^ key.k0, w2, (mulHiLo32 kM0 w0).1 ^^^ out.w2 ^^^ key.k1⟩

theorem philox4x32Unround_round (ctr : Philox4x32Block) (key : PhiloxKey) :
    philox4x32Unround (philox4x32Round ctr key) key = ctr := by
  unfold philox4x32Unround philox4x32Round
  simp only [mul_mulHiLo32_low kM0Inverse_mul, mul_mulHiLo32_low kM1Inverse_mul, xor_xor_cancel]

theorem philox4x32Round_unround (out : Philox4x32Block) (key : PhiloxKey) :
    philox4x32Round (philox4x32Unround out key) key = out := by
  unfold philox4x32Unround philox4x32Round
  simp only [mulHiLo32_low_mul kM0Inverse_mul, mulHiLo32_low_mul kM1Inverse_mul, xor_xor_cancel]

theorem philox4x32Round_bijective (key : PhiloxKey) :
    Function.Bijective fun ctr => philox4x32Round ctr key :=
  Function.bijective_iff_has_inverse.mpr ⟨fun out => philox4x32Unround out key,
    fun ctr => philox4x32Unround_round ctr key, fun out => philox4x32Round_unround out key⟩

/-! ### Ten rounds

A composition of bijections, for whatever key each of them is given. -/

theorem philoxRounds_bijective (rounds : Nat) :
    ∀ key, Function.Bijective (philoxRounds rounds key) := by
  induction rounds with
  | zero => intro key; exact Function.bijective_id
  | succ rounds ih =>
      intro key
      exact (ih (bumpKey key)).comp (philox4x32Round_bijective (bumpKey key))

theorem philox4x32_10_bijective (key : PhiloxKey) : Function.Bijective (philox4x32_10 key) :=
  (philoxRounds_bijective 9 key).comp (philox4x32Round_bijective key)

/-! ### The coordinates of a request

The counter holds the step, in two words, and the draw; the seed is the key. -/

/-- The block of a step and a draw under a seed. -/
def philoxBlock (seed step : BitVec 64) (draw : BitVec 32) : Philox4x32Block :=
  philox4x32_10 ⟨seed.setWidth 32, (seed >>> 32).setWidth 32⟩
    ⟨step.setWidth 32, (step >>> 32).setWidth 32, draw, 0⟩

/-- The 53 bits of a block that make a number. -/
def Philox4x32Block.bits (block : Philox4x32Block) : Nat :=
  ((block.w1.setWidth 64 <<< 32 ||| block.w0.setWidth 64) >>> 11).toNat

theorem Philox4x32Block.bits_lt (block : Philox4x32Block) : block.bits < 2 ^ 53 := by
  unfold Philox4x32Block.bits
  rw [BitVec.toNat_ushiftRight, Nat.shiftRight_eq_div_pow]
  have := (block.w1.setWidth 64 <<< 32 ||| block.w0.setWidth 64).isLt
  omega

/-- The two halves of a step determine it. -/
theorem halves_injective {step step' : BitVec 64} (hlow : step.setWidth 32 = step'.setWidth 32)
    (hhigh : (step >>> 32).setWidth 32 = (step' >>> 32).setWidth 32) : step = step' := by
  have hlow' := congrArg BitVec.toNat hlow
  have hhigh' := congrArg BitVec.toNat hhigh
  rw [BitVec.toNat_setWidth, BitVec.toNat_setWidth] at hlow' hhigh'
  rw [BitVec.toNat_ushiftRight, BitVec.toNat_ushiftRight, Nat.shiftRight_eq_div_pow,
    Nat.shiftRight_eq_div_pow] at hhigh'
  have hlt := step.isLt
  have hlt' := step'.isLt
  refine BitVec.eq_of_toNat_eq ?_
  omega

theorem philoxBlock_injective (seed : BitVec 64) :
    Function.Injective fun c : BitVec 64 × BitVec 32 => philoxBlock seed c.1 c.2 := by
  rintro ⟨step, draw⟩ ⟨step', draw'⟩ h
  have hctr := (philox4x32_10_bijective _).1 h
  rw [Philox4x32Block.mk.injEq] at hctr
  obtain ⟨hlow, hhigh, hdraw, -⟩ := hctr
  exact Prod.ext (halves_injective hlow hhigh) hdraw

/-- A number of the generator is the bits of its block, as a fraction. -/
theorem philoxUniformDouble_eq (seed step : BitVec 64) (draw : BitVec 32) :
    philoxUniformDouble seed step draw
      = .finite ((philoxBlock seed step draw).bits / 2 ^ 53) := by
  show F32.finite (((philoxBlock seed step draw).bits : Rat) * (1 / 9007199254740992)) = _
  congr 1
  norm_num [div_eq_mul_inv]

/-- The number of the generator is in the unit interval. -/
theorem philoxUniformDouble_unit (seed step : BitVec 64) (draw : BitVec 32) :
    ∃ u, philoxUniformDouble seed step draw = .finite u ∧ 0 ≤ u ∧ u < 1 := by
  refine ⟨_, philoxUniformDouble_eq seed step draw, by positivity, ?_⟩
  have hlt : ((philoxBlock seed step draw).bits : Rat) < 2 ^ 53 := by
    exact_mod_cast (philoxBlock seed step draw).bits_lt
  rw [div_lt_one (by positivity)]
  exact hlt

/-- **The generator permutes the counters under every key, gives distinct coordinates distinct
blocks, and makes of a block a multiple of `2 ^ -53` in the unit interval.** -/
theorem philox_permutation :
    (∀ key, Function.Bijective (philox4x32_10 key)) ∧
    (∀ seed, Function.Injective fun c : BitVec 64 × BitVec 32 => philoxBlock seed c.1 c.2) ∧
    ∀ seed step draw, ∃ u : Rat, philoxUniformDouble seed step draw = .finite u ∧
      0 ≤ u ∧ u < 1 ∧ u = (philoxBlock seed step draw).bits / 2 ^ 53 := by
  refine ⟨philox4x32_10_bijective, philoxBlock_injective, ?_⟩
  intro seed step draw
  obtain ⟨u, hu, h0, h1⟩ := philoxUniformDouble_unit seed step draw
  refine ⟨u, hu, h0, h1, ?_⟩
  rw [philoxUniformDouble_eq] at hu
  cases hu
  rfl

end InferenceEngine
