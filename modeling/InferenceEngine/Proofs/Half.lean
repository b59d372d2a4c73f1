/-
Narrowing to half precision is correctly rounded.

The words without their sign carry the argument.  Where the half is a normal number, its word is
the word of the float with the exponent moved and the low bits of the fraction rounded away, so
rounding the word rounds the number.  Where it is subnormal, the words of the half are evenly
spaced numbers, and the fraction of the float is rounded with a shift that depends on its
exponent.  What the thresholds separate are the last number that rounds to zero, the first normal
half, and the middle between the largest half and the next one there would be.
-/
import InferenceEngine.Lib.Narrowing
import InferenceEngine.Lib.Returns
import InferenceEngine.Tensor.Half
import Mathlib.Data.Nat.Bitwise

namespace InferenceEngine

open BinaryFormat Except Words
open Grid (roundShift roundShift_spec)

/-- IEEE binary32. -/
def fp32 : BinaryFormat := ⟨8, 23⟩

/-- IEEE binary16. -/
def fp16 : BinaryFormat := ⟨5, 10⟩

/-- One sign bit, eight bits of exponent and seven of mantissa. -/
def bf16 : BinaryFormat := ⟨8, 7⟩

/-! ### bfloat16, without the sign

The exponents agree, so a word is rounded by dropping its low half, ties to even. -/

theorem bf16_narrows : Narrows fp32 bf16 16 (roundShift · 16) where
  exponentBits_pos := by decide
  fractionBits_pos := by decide
  least := by
    show (2 : ℚ) ^ (2 - 2 ^ (8 - 1) - (7 : ℤ)) = 2 ^ 16 * 2 ^ (2 - 2 ^ (8 - 1) - (23 : ℤ))
    norm_num
  le_infinity := by
    intro a ha
    exact Grid.roundShift_le (by decide) ha
  infinity := by decide
  lower := by
    intro a _
    exact lower_refine (g := fp32) (f := bf16) (c := 0) (d := 16) (by decide) rfl (by decide)
      (Or.inl rfl) (Or.inl rfl) (by simpa using (roundShift_spec a (by decide : 0 < 16)).1)
  upper := by
    intro a _ _
    exact upper_refine (g := fp32) (f := bf16) (c := 0) (d := 16) (by decide) rfl (by decide)
      (Or.inl rfl) (by simpa using (roundShift_spec a (by decide : 0 < 16)).2)

/-! ### float16, without the sign

There are three kinds of halves that a float can round to, and the thresholds of the code lie
between them.  Each branch is compared with the nearest half on its own. -/

/-- The branches of `Fp32ToFp16Bits` for what is no NaN. -/
def narrowFp16 (a : Nat) : Nat :=
  if 0x477FF000 ≤ a then 0x7C00
  else if 0x38800000 ≤ a then roundShift a 13 - 112 * 2 ^ 10
  else if a / 2 ^ 23 < 102 then 0
  else roundShift (2 ^ 23 + a % 2 ^ 23) (126 - a / 2 ^ 23)

private theorem fp16_normal {a : Nat} (ha : 0x38800000 ≤ a) :
    roundShift a 13 = roundShift a 13 - 112 * 2 ^ 10 + 112 * 2 ^ fp16.fractionBits ∧
      2 ^ fp16.fractionBits ≤ roundShift a 13 - 112 * 2 ^ 10 := by
  have hge : 113 * 2 ^ 10 ≤ roundShift a 13 := Grid.le_roundShift (by omega)
  show roundShift a 13 = roundShift a 13 - 112 * 2 ^ 10 + 112 * 2 ^ 10 ∧
    2 ^ 10 ≤ roundShift a 13 - 112 * 2 ^ 10
  omega

/-- The middle past the largest finite half, as a float. -/
private theorem fp16_overflow_midpoint :
    2 * fp32.scaled 0x477FF000 = fp16.grid 125 0x7BFF + fp16.grid 125 0x7C00 :=
  scaled_midpoint (g := fp32) (f := fp16) (c := 112) (d := 13) rfl (by decide) (p := 0x7BFF)
    (Or.inr (by decide))

private theorem fp16_grid_small {p : Nat} (hp : p ≤ 2 ^ 11) : p * 2 ^ 125 = fp16.grid 125 p := by
  unfold grid
  rw [fp16.scaled_of_le (show p ≤ 2 ^ (10 + 1) from hp)]

/-- A float whose half is subnormal: a fraction with its leading bit, and a shift. -/
private theorem fp32_scaled {a : Nat} (ha : 2 ^ 23 ≤ a) :
    fp32.scaled a = (2 ^ 23 + a % 2 ^ 23) * 2 ^ (a / 2 ^ 23 - 1) := by
  have hfield : a / 2 ^ 23 ≠ 0 := by omega
  exact if_neg hfield

/-- `r` is the half nearest to the float `a`, neither too large nor too small. -/
private def NearestHalf (a r : Nat) : Prop :=
  Grid.Lower (fp16.grid 125) (fp32.scaled a) r ∧ Grid.Upper (fp16.grid 125) (fp32.scaled a) r

private theorem fp16_overflow_lower {a : Nat} (ha : 0x477FF000 ≤ a) :
    Grid.Lower (fp16.grid 125) (fp32.scaled a) 0x7C00 := by
  intro p hp
  obtain rfl : p = 0x7BFF := by omega
  have hmono := fp32.scaled_strictMono.monotone ha
  rw [← fp16_overflow_midpoint]
  exact ⟨by omega, fun _ => by decide⟩

private theorem fp16_normal_nearest {a : Nat} (ha : 0x38800000 ≤ a) :
    NearestHalf a (roundShift a 13 - 112 * 2 ^ 10) := by
  obtain ⟨hplace, hnormal⟩ := fp16_normal ha
  obtain ⟨hlower, hupper⟩ := roundShift_spec a (by decide : 0 < 13)
  rw [hplace] at hlower hupper
  exact ⟨lower_refine (g := fp32) (f := fp16) (c := 112) (d := 13) (by decide) rfl (by decide)
      (Or.inr ha) (Or.inr hnormal) hlower,
    upper_refine (g := fp32) (f := fp16) (c := 112) (d := 13) (by decide) rfl (by decide)
      (Or.inr hnormal) hupper⟩

private theorem fp16_zero_nearest {a : Nat} (ha : a / 2 ^ 23 < 102) : NearestHalf a 0 := by
  -- half of the least half, as a float
  have hhalf : fp32.scaled (102 * 2 ^ 23 + 0) = (2 ^ 23 + 0) * 2 ^ (102 - 1) :=
    fp32.scaled_piece 102 (t := 0) (by decide)
  have hlt : fp32.scaled a < fp32.scaled (102 * 2 ^ 23 + 0) := fp32.scaled_strictMono (by omega)
  refine ⟨fun p hp => absurd hp (by omega), ?_⟩
  unfold Grid.Upper
  rw [← fp16_grid_small (by decide), ← fp16_grid_small (by decide)]
  exact ⟨by omega, fun htie => by omega⟩

private theorem fp16_subnormal_nearest {a : Nat} (hlow : ¬a / 2 ^ 23 < 102) (ha : a < 0x38800000) :
    NearestHalf a (roundShift (2 ^ 23 + a % 2 ^ 23) (126 - a / 2 ^ 23)) ∧
      roundShift (2 ^ 23 + a % 2 ^ 23) (126 - a / 2 ^ 23) ≤ 2 ^ 10 := by
  have hscaled := fp32_scaled (show 2 ^ 23 ≤ a by omega)
  have hfraction : 2 ^ 23 + a % 2 ^ 23 < 2 ^ 10 * 2 ^ 14 := by omega
  have hexp : a / 2 ^ 23 < 113 := by omega
  generalize a / 2 ^ 23 = e at hlow hexp hscaled ⊢
  generalize 2 ^ 23 + a % 2 ^ 23 = m at *
  have hsmall : roundShift m (126 - e) ≤ 2 ^ 10 := by
    refine Grid.roundShift_le (by omega) ?_
    have hpow : 2 ^ 14 ≤ 2 ^ (126 - e) := Nat.pow_le_pow_right (by decide) (by omega)
    exact hfraction.le.trans (Nat.mul_le_mul_left _ hpow)
  obtain ⟨hlower, hupper⟩ := roundShift_spec m (show 0 < 126 - e by omega)
  have hgrid : ∀ p ≤ 2 ^ 11, p * 2 ^ (126 - e) * 2 ^ (e - 1) = fp16.grid 125 p := by
    intro p hp
    rw [Nat.mul_assoc, ← Nat.pow_add, show 126 - e + (e - 1) = 125 by omega]
    exact fp16_grid_small hp
  unfold NearestHalf
  rw [hscaled]
  exact ⟨⟨(hlower.scale (Nat.two_pow_pos (e - 1))).congr fun p hp => hgrid p (by omega),
    (hupper.scale (Nat.two_pow_pos (e - 1))).congr fun p hp => hgrid p (by omega)⟩, hsmall⟩

theorem fp16_narrows : Narrows fp32 fp16 125 narrowFp16 where
  exponentBits_pos := by decide
  fractionBits_pos := by decide
  least := by
    show (2 : ℚ) ^ (2 - 2 ^ (5 - 1) - (10 : ℤ)) = 2 ^ 125 * 2 ^ (2 - 2 ^ (8 - 1) - (23 : ℤ))
    norm_num
  le_infinity := by
    intro a ha
    show narrowFp16 a ≤ 31 * 2 ^ 10
    unfold narrowFp16
    split
    · decide
    · split
      · have hle : roundShift a 13 ≤ 0x477FF000 / 2 ^ 13 + 1 :=
          Grid.roundShift_le (by decide) (by omega)
        omega
      · split
        · decide
        · have hsmall := (fp16_subnormal_nearest (a := a) (by assumption) (by omega)).2
          omega
  infinity := by decide
  lower := by
    intro a ha
    unfold narrowFp16
    split
    · exact fp16_overflow_lower (by assumption)
    · split
      · exact (fp16_normal_nearest (by assumption)).1
      · split
        · exact (fp16_zero_nearest (by assumption)).1
        · exact (fp16_subnormal_nearest (by assumption) (by omega)).1.1
  upper := by
    intro a ha hlt
    unfold narrowFp16 at hlt ⊢
    split
    · rename_i hover
      rw [if_pos hover] at hlt
      exact absurd hlt (by decide)
    · split
      · exact (fp16_normal_nearest (by assumption)).2
      · split
        · exact (fp16_zero_nearest (by assumption)).2
        · exact (fp16_subnormal_nearest (by assumption) (by omega)).1.2

/-! ### Fields of a word

Words are put together with shifts and disjunctions.  Fields that do not overlap add up, and
nothing leaves 32 bits. -/

namespace Words

theorem add_ok {a b : Nat} (h : a + b < 2 ^ 32) : add a b = .ok (a + b) := if_pos h

theorem sub_ok {a b : Nat} (h : b ≤ a) : sub a b = .ok (a - b) := if_pos h

theorem shiftRight_ok {a k : Nat} (h : k < 32) : shiftRight a k = .ok (a / 2 ^ k) := by
  rw [shiftRight, if_pos h, Nat.shiftRight_eq_div_pow]

theorem shiftLeft_ok {a k : Nat} (h : k < 32) : shiftLeft a k = .ok (a * 2 ^ k % 2 ^ 32) := by
  rw [shiftLeft, if_pos h, Nat.shiftLeft_eq]

end Words

/-- Fields that do not overlap are put together by addition. -/
theorem or_field (s : Nat) {y i : Nat} (h : y < 2 ^ i) : s * 2 ^ i ||| y = s * 2 ^ i + y := by
  rw [Nat.mul_comm]
  exact (Nat.two_pow_add_eq_or_of_lt h s).symm

/-- A single bit, where the word has no higher ones. -/
theorem and_bit {x i : Nat} (h : x < 2 ^ (i + 1)) : x &&& 2 ^ i = x / 2 ^ i * 2 ^ i := by
  have hle : x / 2 ^ i < 2 := by
    rw [Nat.div_lt_iff_lt_mul (Nat.two_pow_pos i), ← Nat.pow_succ']
    exact h
  rw [Nat.and_comm, Nat.two_pow_and, Nat.testBit_eq_decide_div_mod_eq, Nat.mod_eq_of_lt hle,
    Nat.mul_comm]
  generalize x / 2 ^ i = b at hle ⊢
  rcases Nat.lt_or_ge b 1 with hzero | hone
  · obtain rfl : b = 0 := by omega
    rfl
  · obtain rfl : b = 1 := by omega
    rfl

/-- The sign of a float, moved to where a half has it. -/
theorem and_sign {x : Nat} (h : x < 2 ^ 32) : x / 2 ^ 16 &&& 0x8000 = x / 2 ^ 31 * 2 ^ 15 := by
  have hbit := and_bit (x := x / 2 ^ 16) (i := 15) (by omega)
  rw [Nat.div_div_eq_div_mul] at hbit
  exact hbit

theorem narrowFp16_lt {a : Nat} (ha : a ≤ 0x7F800000) : narrowFp16 a < 2 ^ 15 := by
  have hle := fp16_narrows.le_infinity a ha
  have hinf : fp16.infinity < 2 ^ 15 := by decide
  omega

/-- **What is no NaN keeps its sign, and the rest is narrowed; no word wraps on the way.** -/
theorem fp32ToFp16Bits_ok {value : UInt32} (h : value.toNat % 2 ^ 31 ≤ 0x7F800000) :
    fp32ToFp16Bits value = .ok (.ofNat
      (value.toNat / 2 ^ 31 * 2 ^ 15 + narrowFp16 (value.toNat % 2 ^ 31))) := by
  have hbits : value.toNat < 2 ^ 32 := value.toNat_lt
  have hmask : value.toNat &&& 0x7FFFFFFF = value.toNat % 2 ^ 31 :=
    Nat.and_two_pow_sub_one_eq_mod _ 31
  have hlt := narrowFp16_lt h
  unfold fp32ToFp16Bits
  dsimp only
  rw [shiftRight_ok (by decide), ok_bind, and_sign hbits, hmask]
  generalize value.toNat % 2 ^ 31 = a at h hlt ⊢
  generalize value.toNat / 2 ^ 31 = s
  rw [if_neg (by omega), ← or_field s hlt]
  unfold narrowFp16 at hlt ⊢
  by_cases hover : 0x477FF000 ≤ a
  · rw [if_pos hover, if_pos hover]
    rfl
  rw [if_neg hover, if_neg hover] at *
  by_cases hnormal : 0x38800000 ≤ a
  · have hkept := (fp16_normal hnormal).2
    have hrounded : (a + 0x00000FFF + a / 2 ^ 13 % 2) / 2 ^ 13 = roundShift a 13 := rfl
    rw [if_pos hnormal, if_pos hnormal, add_ok (by omega), ok_bind, shiftRight_ok (by decide),
      ok_bind, Nat.and_one_is_mod, add_ok (by omega), ok_bind, shiftRight_ok (by decide), ok_bind,
      shiftLeft_ok (by decide), ok_bind, hrounded, sub_ok (by omega)]
    rfl
  rw [if_neg hnormal, if_neg hnormal] at *
  rw [shiftRight_ok (by decide), ok_bind]
  by_cases hzero : a / 2 ^ 23 < 102
  · rw [if_pos hzero, if_pos hzero, Nat.or_zero]
    rfl
  rw [if_neg hzero, if_neg hzero] at *
  have hmantissa : (a &&& 0x007FFFFF) ||| 0x00800000 = 2 ^ 23 + a % 2 ^ 23 := by
    rw [show a &&& 0x007FFFFF = a % 2 ^ 23 from Nat.and_two_pow_sub_one_eq_mod a 23, Nat.or_comm]
    exact or_field 1 (i := 23) (Nat.mod_lt a (by decide))
  have hfraction : 2 ^ 23 + a % 2 ^ 23 < 2 ^ 24 := by omega
  have hexp : a / 2 ^ 23 < 113 := by omega
  rw [hmantissa]
  generalize 2 ^ 23 + a % 2 ^ 23 = m at *
  generalize a / 2 ^ 23 = e at *
  have hone : 1 ≤ 2 ^ (126 - e - 1) := Nat.one_le_two_pow
  have hpow : 2 ^ (126 - e - 1) ≤ 2 ^ 23 := Nat.pow_le_pow_right (by decide) (by omega)
  have hhalf : 1 * 2 ^ (126 - e - 1) % 2 ^ 32 = 2 ^ (126 - e - 1) := by
    rw [Nat.one_mul, Nat.mod_eq_of_lt (by omega)]
  have hrounded : (m + (2 ^ (126 - e - 1) - 1) + m / 2 ^ (126 - e) % 2) / 2 ^ (126 - e)
    = roundShift m (126 - e) := rfl
  rw [sub_ok (by omega), ok_bind, sub_ok (by omega), ok_bind, shiftLeft_ok (by omega), ok_bind,
    hhalf, sub_ok hone, ok_bind, add_ok (by omega), ok_bind, shiftRight_ok (by omega), ok_bind,
    Nat.and_one_is_mod, add_ok (by omega), ok_bind, shiftRight_ok (by omega), ok_bind, hrounded]
  rfl

/-- A NaN keeps what fits of its payload, and has a payload in any case. -/
theorem fp32ToFp16Bits_nan {value : UInt32} (h : 0x7F800000 < value.toNat % 2 ^ 31) :
    ∃ payload, 0 < payload ∧ payload < 2 ^ 10 ∧
      fp32ToFp16Bits value = .ok (.ofNat (value.toNat / 2 ^ 31 * 2 ^ 15 + (0x7C00 + payload))) ∧
      (value.toNat / 2 ^ 13 % 2 ^ 10 ≠ 0 → payload = value.toNat / 2 ^ 13 % 2 ^ 10) := by
  have hbits : value.toNat < 2 ^ 32 := value.toNat_lt
  have hmask : value.toNat &&& 0x7FFFFFFF = value.toNat % 2 ^ 31 :=
    Nat.and_two_pow_sub_one_eq_mod _ 31
  have hpayload : value.toNat % 2 ^ 31 / 2 ^ 13 &&& 0x03FF = value.toNat / 2 ^ 13 % 2 ^ 10 := by
    rw [show value.toNat % 2 ^ 31 / 2 ^ 13 &&& 0x03FF = value.toNat % 2 ^ 31 / 2 ^ 13 % 2 ^ 10 from
      Nat.and_two_pow_sub_one_eq_mod _ 10]
    omega
  have hfit : value.toNat / 2 ^ 13 % 2 ^ 10 < 2 ^ 10 := Nat.mod_lt _ (by decide)
  have hkept : (if value.toNat / 2 ^ 13 % 2 ^ 10 = 0 then 0x0200
      else value.toNat / 2 ^ 13 % 2 ^ 10) < 2 ^ 10 := by
    split
    · decide
    · exact hfit
  refine ⟨_, ?_, hkept, ?_, fun hne => if_neg hne⟩
  · split
    · decide
    · omega
  · unfold fp32ToFp16Bits
    dsimp only
    rw [shiftRight_ok (by decide), ok_bind, and_sign hbits, hmask, if_pos h,
      shiftRight_ok (by decide), ok_bind, hpayload, Nat.or_assoc,
      show (0x7C00 : Nat) = 31 * 2 ^ 10 from rfl, or_field 31 hkept, or_field _ (by omega)]
    rfl

/-! ### The words of bfloat16

The word is the upper half of the wider one after an addition that rounds, so there are no cases
for its exponent. -/

theorem fp32ToBf16Bits_ok {value : UInt32} (h : value.toNat % 2 ^ 31 ≤ 0x7F800000) :
    fp32ToBf16Bits value = .ok (.ofNat
      (value.toNat / 2 ^ 31 * 2 ^ 15 + roundShift (value.toNat % 2 ^ 31) 16)) := by
  have hbits : value.toNat < 2 ^ 32 := value.toNat_lt
  have hmask : value.toNat &&& 0x7FFFFFFF = value.toNat % 2 ^ 31 :=
    Nat.and_two_pow_sub_one_eq_mod _ 31
  -- the sign is far above what the rounding carries
  have hrounded : (value.toNat + 0x7FFF + value.toNat / 2 ^ 16 % 2) / 2 ^ 16
      = value.toNat / 2 ^ 31 * 2 ^ 15 + roundShift (value.toNat % 2 ^ 31) 16 := by
    unfold roundShift
    omega
  unfold fp32ToBf16Bits
  dsimp only
  rw [hmask, if_neg (by omega), add_ok (by omega), ok_bind, shiftRight_ok (by decide), ok_bind,
    Nat.and_one_is_mod, add_ok (by omega), ok_bind, shiftRight_ok (by decide), ok_bind, hrounded]
  rfl

theorem fp32ToBf16Bits_nan {value : UInt32} (h : 0x7F800000 < value.toNat % 2 ^ 31) :
    ∃ payload, 0 < payload ∧ payload < 2 ^ 7 ∧
      fp32ToBf16Bits value = .ok (.ofNat (value.toNat / 2 ^ 31 * 2 ^ 15 + (0x7F80 + payload))) ∧
      (value.toNat / 2 ^ 16 % 2 ^ 7 ≠ 0 → payload = value.toNat / 2 ^ 16 % 2 ^ 7) := by
  have hbits : value.toNat < 2 ^ 32 := value.toNat_lt
  have hmask : value.toNat &&& 0x7FFFFFFF = value.toNat % 2 ^ 31 :=
    Nat.and_two_pow_sub_one_eq_mod _ 31
  have hword : value.toNat / 2 ^ 16 % 2 ^ 16
      = value.toNat / 2 ^ 31 * 2 ^ 15 + (0x7F80 + value.toNat / 2 ^ 16 % 2 ^ 7) := by omega
  have hpayload : value.toNat / 2 ^ 16 % 2 ^ 16 &&& 0x007F = value.toNat / 2 ^ 16 % 2 ^ 7 := by
    rw [show value.toNat / 2 ^ 16 % 2 ^ 16 &&& 0x007F = value.toNat / 2 ^ 16 % 2 ^ 16 % 2 ^ 7 from
      Nat.and_two_pow_sub_one_eq_mod _ 7]
    omega
  have hrun : fp32ToBf16Bits value = .ok (.ofNat (if value.toNat / 2 ^ 16 % 2 ^ 7 = 0
      then value.toNat / 2 ^ 16 % 2 ^ 16 ||| 0x0040 else value.toNat / 2 ^ 16 % 2 ^ 16)) := by
    unfold fp32ToBf16Bits
    dsimp only
    rw [hmask, if_pos h, shiftRight_ok (by decide), ok_bind, hpayload]
    rfl
  by_cases hzero : value.toNat / 2 ^ 16 % 2 ^ 7 = 0
  · have hquiet : value.toNat / 2 ^ 16 % 2 ^ 16 ||| 0x0040
        = value.toNat / 2 ^ 31 * 2 ^ 15 + (0x7F80 + 0x0040) := by
      have hfield := or_field (value.toNat / 2 ^ 16 % 2 ^ 16 / 2 ^ 7) (y := 0x0040) (i := 7)
        (by decide)
      rw [show value.toNat / 2 ^ 16 % 2 ^ 16 / 2 ^ 7 * 2 ^ 7 = value.toNat / 2 ^ 16 % 2 ^ 16 by
        omega] at hfield
      omega
    rw [if_pos hzero, hquiet] at hrun
    exact ⟨0x0040, by decide, by decide, hrun, fun hne => absurd hzero hne⟩
  · rw [if_neg hzero, hword] at hrun
    exact ⟨_, Nat.pos_of_ne_zero hzero, Nat.mod_lt _ (by decide), hrun, fun _ => rfl⟩

/-! ### Widening

Every half is a float.  A subnormal one is shifted until its leading bit is where a float leaves
it out. -/

/-- The branches of `Fp16BitsToFp32`, without the sign. -/
def widenFp16 (p : Nat) : Nat :=
  if p / 2 ^ 10 = 31 then 0x7F800000 + p % 2 ^ 10 * 2 ^ 13
  else if p / 2 ^ 10 = 0 then
    if p % 2 ^ 10 = 0 then 0
    else (103 + Nat.log 2 (p % 2 ^ 10)) * 2 ^ 23
      + p % 2 ^ 10 * 2 ^ (23 - Nat.log 2 (p % 2 ^ 10)) % 2 ^ 23
  else (p / 2 ^ 10 + 112) * 2 ^ 23 + p % 2 ^ 10 * 2 ^ 13

theorem widenFp16_lt {p : Nat} (hp : p < 2 ^ 15) : widenFp16 p < 2 ^ 31 := by
  unfold widenFp16
  split
  · omega
  · split
    · split
      · decide
      · have hlog : Nat.log 2 (p % 2 ^ 10) < 10 :=
          Nat.log_lt_of_lt_pow (by omega) (Nat.mod_lt _ (by decide))
        omega
    · omega

/-- The leading bit of a subnormal half becomes the one that a float does not store. -/
private theorem fp32_scaled_subnormal {m : Nat} (h0 : m ≠ 0) (hm : m < 2 ^ 10) :
    fp32.scaled ((103 + Nat.log 2 m) * 2 ^ 23 + m * 2 ^ (23 - Nat.log 2 m) % 2 ^ 23)
      = m * 2 ^ 125 := by
  have hlog : Nat.log 2 m < 10 := Nat.log_lt_of_lt_pow h0 hm
  have hlow : 2 ^ Nat.log 2 m ≤ m := Nat.pow_log_le_self 2 h0
  have hhigh : m < 2 ^ (Nat.log 2 m + 1) := Nat.lt_pow_succ_log_self (by decide) m
  generalize Nat.log 2 m = n at *
  have h1 : 2 ^ n * 2 ^ (23 - n) = 2 ^ 23 := by
    rw [← Nat.pow_add, Nat.add_sub_cancel' (by omega)]
  have h2 : 2 ^ 23 ≤ m * 2 ^ (23 - n) := by
    rw [← h1]
    exact Nat.mul_le_mul_right _ hlow
  have h3 : m * 2 ^ (23 - n) < 2 ^ 24 := by
    calc m * 2 ^ (23 - n) < 2 ^ (n + 1) * 2 ^ (23 - n) :=
          Nat.mul_lt_mul_of_pos_right hhigh (Nat.two_pow_pos _)
      _ = 2 ^ 24 := by rw [← Nat.pow_add, show n + 1 + (23 - n) = 24 by omega]
  have hpiece := fp32.scaled_piece (103 + n) (t := m * 2 ^ (23 - n) % 2 ^ 23)
    (Nat.mod_lt _ (by decide)).le
  have hleading : 2 ^ 23 + m * 2 ^ (23 - n) % 2 ^ 23 = m * 2 ^ (23 - n) := by omega
  rw [if_neg (by omega), show fp32.fractionBits = 23 from rfl, hleading, Nat.mul_assoc,
    ← Nat.pow_add, show 23 - n + (103 + n - 1) = 125 by omega] at hpiece
  exact hpiece

theorem widenFp16_scaled {p : Nat} (hp : p < fp16.infinity) :
    fp32.scaled (widenFp16 p) = fp16.grid 125 p := by
  have hlt : p < 31 * 2 ^ 10 := hp
  unfold widenFp16
  rw [if_neg (by omega)]
  split
  · rename_i hfield
    have hword : p % 2 ^ 10 = p := by omega
    rw [hword, ← fp16_grid_small (by omega)]
    split
    · rename_i hzero
      rw [hzero]
      decide
    · exact fp32_scaled_subnormal (by assumption) (by omega)
  · rename_i hfield
    have hplace := scaled_refine (g := fp32) (f := fp16) (c := 112) (d := 13) rfl (p := p) (u := 0)
      (Or.inr (show 2 ^ 10 ≤ p by omega)) (Nat.zero_le _)
    have hword : (p + 112 * 2 ^ fp16.fractionBits) * 2 ^ 13 + 0
        = (p / 2 ^ 10 + 112) * 2 ^ 23 + p % 2 ^ 10 * 2 ^ 13 := by
      show (p + 112 * 2 ^ 10) * 2 ^ 13 + 0 = _
      omega
    rw [← hword, hplace, Nat.zero_mul, Nat.add_zero]
    rfl

/-- Sign, exponent field and fraction of a float, put together. -/
private theorem or_fields (s : Nat) {e m : Nat} (he : e < 2 ^ 8) (hm : m < 2 ^ 23) :
    s * 2 ^ 31 ||| e * 2 ^ 23 ||| m = s * 2 ^ 31 + (e * 2 ^ 23 + m) := by
  rw [Nat.or_assoc, or_field e hm, or_field s (by omega)]

private theorem shiftLeft_field {e : Nat} (he : e < 2 ^ 8) : shiftLeft e 23 = .ok (e * 2 ^ 23) := by
  rw [shiftLeft_ok (by decide), Nat.mod_eq_of_lt (by omega)]

private theorem shiftLeft_fraction {m : Nat} (hm : m < 2 ^ 10) :
    shiftLeft m 13 = .ok (m * 2 ^ 13) := by
  rw [shiftLeft_ok (by decide), Nat.mod_eq_of_lt (by omega)]

private theorem and_fraction (x : Nat) : x % 2 ^ 32 &&& 0x007FFFFF = x % 2 ^ 23 := by
  rw [show x % 2 ^ 32 &&& 0x007FFFFF = x % 2 ^ 32 % 2 ^ 23 from
    Nat.and_two_pow_sub_one_eq_mod _ 23]
  omega

theorem fp16BitsToFp32_ok (halfBits : UInt16) :
    fp16BitsToFp32 halfBits = .ok (.ofNat
      (halfBits.toNat / 2 ^ 15 * 2 ^ 31 + widenFp16 (halfBits.toNat % 2 ^ 15))) := by
  have hbits : halfBits.toNat < 2 ^ 16 := halfBits.toNat_lt
  have hsign : (halfBits.toNat &&& 0x8000) * 2 ^ 16 % 2 ^ 32 =
      halfBits.toNat / 2 ^ 15 * 2 ^ 31 := by
    rw [show halfBits.toNat &&& 0x8000 = halfBits.toNat / 2 ^ 15 * 2 ^ 15 from and_bit hbits]
    omega
  have hexponent : halfBits.toNat / 2 ^ 10 &&& 0x1F = halfBits.toNat % 2 ^ 15 / 2 ^ 10 := by
    rw [show halfBits.toNat / 2 ^ 10 &&& 0x1F = halfBits.toNat / 2 ^ 10 % 2 ^ 5 from
      Nat.and_two_pow_sub_one_eq_mod _ 5]
    omega
  have hmantissa : halfBits.toNat &&& 0x03FF = halfBits.toNat % 2 ^ 15 % 2 ^ 10 := by
    rw [show halfBits.toNat &&& 0x03FF = halfBits.toNat % 2 ^ 10 from
      Nat.and_two_pow_sub_one_eq_mod _ 10]
    omega
  have hp : halfBits.toNat % 2 ^ 15 < 2 ^ 15 := Nat.mod_lt _ (by decide)
  unfold fp16BitsToFp32
  dsimp only
  rw [shiftLeft_ok (by decide), ok_bind, hsign, shiftRight_ok (by decide), ok_bind, hexponent,
    hmantissa]
  clear hsign hexponent hmantissa
  generalize halfBits.toNat % 2 ^ 15 = p at hp ⊢
  generalize halfBits.toNat / 2 ^ 15 = s
  unfold widenFp16
  have he : p / 2 ^ 10 < 2 ^ 5 := by omega
  have hm : p % 2 ^ 10 < 2 ^ 10 := Nat.mod_lt _ (by decide)
  generalize p / 2 ^ 10 = e at he ⊢
  generalize p % 2 ^ 10 = m at hm ⊢
  by_cases hinf : e = 31
  · have hor := or_fields s (e := 255) (m := m * 2 ^ 13) (by decide) (by omega)
    rw [if_pos hinf, if_pos hinf, shiftLeft_fraction hm, ok_bind]
    exact congrArg (fun n => Except.ok (UInt32.ofNat n)) hor
  rw [if_neg hinf, if_neg hinf]
  by_cases hsmall : e = 0
  · rw [if_pos hsmall, if_pos hsmall]
    by_cases hzero : m = 0
    · rw [if_pos hzero, if_pos hzero, Nat.add_zero]
      rfl
    · have hlog : Nat.log 2 m < 10 := Nat.log_lt_of_lt_pow hzero hm
      have hcount : countlZero m = 31 - Nat.log 2 m := if_neg hzero
      rw [if_neg hzero, if_neg hzero, hcount, sub_ok (by omega), ok_bind,
        Nat.sub_sub_self (by omega)]
      generalize Nat.log 2 m = n at hlog ⊢
      rw [add_ok (by omega), ok_bind, sub_ok (by omega), ok_bind, shiftLeft_ok (by omega), ok_bind,
        and_fraction, shiftLeft_field (by omega), ok_bind,
        or_fields s (by omega) (Nat.mod_lt _ (by decide))]
      rfl
  · rw [if_neg hsmall, if_neg hsmall, add_ok (by omega), ok_bind, shiftLeft_field (by omega),
      ok_bind, shiftLeft_fraction hm, ok_bind, or_fields s (by omega) (by omega)]
    rfl

theorem bf16BitsToFp32_ok (bf16Bits : UInt16) :
    bf16BitsToFp32 bf16Bits = .ok (.ofNat
      (bf16Bits.toNat / 2 ^ 15 * 2 ^ 31 + bf16Bits.toNat % 2 ^ 15 * 2 ^ 16)) := by
  have hbits : bf16Bits.toNat < 2 ^ 16 := bf16Bits.toNat_lt
  have hword : bf16Bits.toNat * 2 ^ 16 % 2 ^ 32
      = bf16Bits.toNat / 2 ^ 15 * 2 ^ 31 + bf16Bits.toNat % 2 ^ 15 * 2 ^ 16 := by omega
  unfold bf16BitsToFp32
  rw [shiftLeft_ok (by decide), ok_bind, hword]
  rfl

/-! ### Both types

The two types are treated alike from here: a conversion is given by what it does to the sign and
to the rest of a word. -/

/-- The format of the words. -/
def HalfType.format : HalfType → BinaryFormat
  | .float16 => fp16
  | .bfloat16 => bf16

/-- What the conversions of a type do to the sign and to the rest of a word. -/
structure Converts (half : HalfType) (k : Nat) (narrow widen : Nat → Nat) : Prop where
  narrows : Narrows fp32 half.format k narrow
  signBit : half.format.signBit = 2 ^ 15
  narrow_ok : ∀ value : UInt32, value.toNat % 2 ^ 31 ≤ fp32.infinity →
    half.narrow value = .ok (.ofNat (value.toNat / 2 ^ 31 * 2 ^ 15 + narrow (value.toNat % 2 ^ 31)))
  narrow_nan : ∀ value : UInt32, fp32.infinity < value.toNat % 2 ^ 31 →
    ∃ a, half.format.infinity < a ∧ a < 2 ^ 15 ∧
      half.narrow value = .ok (.ofNat (value.toNat / 2 ^ 31 * 2 ^ 15 + a)) ∧
      ∀ p < 2 ^ 15, half.format.infinity < p → value.toNat % 2 ^ 31 = widen p → a = p
  widen_ok : ∀ h : UInt16,
    half.widen h = .ok (.ofNat (h.toNat / 2 ^ 15 * 2 ^ 31 + widen (h.toNat % 2 ^ 15)))
  widen_lt : ∀ p < 2 ^ 15, widen p < 2 ^ 31
  widen_finite : ∀ p < half.format.infinity,
    widen p < fp32.infinity ∧ fp32.scaled (widen p) = half.format.grid k p
  widen_infinity : widen half.format.infinity = fp32.infinity
  widen_nan : ∀ p < 2 ^ 15, half.format.infinity < p → fp32.infinity < widen p

theorem float16_converts : Converts .float16 125 narrowFp16 widenFp16 where
  narrows := fp16_narrows
  signBit := by decide
  narrow_ok := fun _ h => fp32ToFp16Bits_ok h
  narrow_nan := by
    intro value h
    obtain ⟨payload, hpos, hlt, hrun, hkeep⟩ := fp32ToFp16Bits_nan h
    refine ⟨0x7C00 + payload, ?_, by omega, hrun, ?_⟩
    · show 31 * 2 ^ 10 < 0x7C00 + payload
      omega
    · intro p hp hnan hword
      have hnan' : 31 * 2 ^ 10 < p := hnan
      unfold widenFp16 at hword
      rw [if_pos (by omega)] at hword
      have hkept := hkeep (by omega)
      omega
  widen_ok := fp16BitsToFp32_ok
  widen_lt := fun _ => widenFp16_lt
  widen_finite := by
    intro p hp
    refine ⟨?_, widenFp16_scaled hp⟩
    have hlt := fp16.grid_strictMono 125 hp
    have hplace : fp16.grid 125 HalfType.float16.format.infinity = fp32.scaled (143 * 2 ^ 23) := by
      decide
    rw [← widenFp16_scaled hp, hplace, fp32.scaled_strictMono.lt_iff_lt] at hlt
    exact hlt.trans (by decide)
  widen_infinity := by decide
  widen_nan := by
    intro p hp hnan
    have hnan' : 31 * 2 ^ 10 < p := hnan
    show 255 * 2 ^ 23 < widenFp16 p
    unfold widenFp16
    rw [if_pos (by omega)]
    omega

theorem bfloat16_converts : Converts .bfloat16 16 (roundShift · 16) (· * 2 ^ 16) where
  narrows := bf16_narrows
  signBit := by decide
  narrow_ok := fun _ h => fp32ToBf16Bits_ok h
  narrow_nan := by
    intro value h
    obtain ⟨payload, hpos, hlt, hrun, hkeep⟩ := fp32ToBf16Bits_nan h
    refine ⟨0x7F80 + payload, ?_, by omega, hrun, ?_⟩
    · show 255 * 2 ^ 7 < 0x7F80 + payload
      omega
    · intro p hp hnan hword
      have hnan' : 255 * 2 ^ 7 < p := hnan
      have hkept := hkeep (by omega)
      omega
  widen_ok := bf16BitsToFp32_ok
  widen_lt := by
    intro p hp
    omega
  widen_finite := by
    intro p hp
    have hlt : p < 255 * 2 ^ 7 := hp
    have hplace := scaled_refine (g := fp32) (f := bf16) (c := 0) (d := 16) rfl (p := p) (u := 0)
      (Or.inl rfl) (Nat.zero_le _)
    rw [Nat.zero_mul, Nat.zero_mul, Nat.add_zero, Nat.add_zero, Nat.add_zero, Nat.zero_add]
      at hplace
    refine ⟨?_, hplace⟩
    show p * 2 ^ 16 < 255 * 2 ^ 23
    omega
  widen_infinity := by decide
  widen_nan := by
    intro p hp hnan
    have hnan' : 255 * 2 ^ 7 < p := hnan
    show 255 * 2 ^ 23 < p * 2 ^ 16
    omega

theorem HalfType.infinity_lt (half : HalfType) : half.format.infinity < 2 ^ 15 := by
  cases half with
  | float16 => decide
  | bfloat16 => decide

/-- The parts of a float. -/
theorem float_parts (value : UInt32) :
    fp32.magnitude value.toNat = value.toNat % 2 ^ 31 ∧
      fp32.negative value.toNat = decide (value.toNat / 2 ^ 31 = 1) := by
  have hbit : fp32.signBit = 2 ^ 31 := by decide
  have hlt : value.toNat < 2 ^ 32 := value.toNat_lt
  unfold magnitude negative
  rw [hbit, decide_eq_decide]
  exact ⟨rfl, by omega⟩

namespace Converts

variable {half : HalfType} {k : Nat} {narrow widen : Nat → Nat}

/-- The parts of a half. -/
theorem half_parts (h : Converts half k narrow widen) (word : UInt16) :
    half.format.magnitude word.toNat = word.toNat % 2 ^ 15 ∧
      half.format.negative word.toNat = decide (word.toNat / 2 ^ 15 = 1) := by
  have hlt : word.toNat < 2 ^ 16 := word.toNat_lt
  unfold magnitude negative
  rw [h.signBit, decide_eq_decide]
  exact ⟨rfl, by omega⟩

/-- A half that was put together from its parts. -/
theorem half_of_parts {s a : Nat} (hs : s < 2) (ha : a < 2 ^ 15) :
    (UInt16.ofNat (s * 2 ^ 15 + a)).toNat / 2 ^ 15 = s ∧
      (UInt16.ofNat (s * 2 ^ 15 + a)).toNat % 2 ^ 15 = a := by
  rw [UInt16.toNat_ofNat_of_lt' (show s * 2 ^ 15 + a < 2 ^ 16 by omega)]
  omega

theorem float_of_parts {s a : Nat} (hs : s < 2) (ha : a < 2 ^ 31) :
    (UInt32.ofNat (s * 2 ^ 31 + a)).toNat / 2 ^ 31 = s ∧
      (UInt32.ofNat (s * 2 ^ 31 + a)).toNat % 2 ^ 31 = a := by
  rw [UInt32.toNat_ofNat_of_lt' (show s * 2 ^ 31 + a < 2 ^ 32 by omega)]
  omega

theorem sign_lt (value : UInt32) : value.toNat / 2 ^ 31 < 2 := by
  have hlt : value.toNat < 2 ^ 32 := value.toNat_lt
  omega

/-- What narrowing does to the parts of a float that is no NaN. -/
theorem narrowed (h : Converts half k narrow widen) {value : UInt32}
    (hle : fp32.magnitude value.toNat ≤ fp32.infinity) :
    ∃ r, half.narrow value = .ok r ∧
      half.format.magnitude r.toNat = narrow (fp32.magnitude value.toNat) ∧
      half.format.negative r.toNat = fp32.negative value.toNat ∧
      (Even (half.format.magnitude r.toNat) → Even r.toNat) := by
  obtain ⟨hmagnitude, hnegative⟩ := float_parts value
  rw [hmagnitude] at hle ⊢
  have hnarrow := h.narrows.le_infinity _ hle
  have hlt := half.infinity_lt
  obtain ⟨hsign, hrest⟩ := half_of_parts (sign_lt value)
    (show narrow (value.toNat % 2 ^ 31) < 2 ^ 15 by omega)
  refine ⟨_, h.narrow_ok value hle, ?_⟩
  generalize UInt16.ofNat _ = r at hsign hrest ⊢
  obtain ⟨hmagnitude', hnegative'⟩ := h.half_parts r
  refine ⟨by rw [hmagnitude', hrest], by rw [hnegative', hnegative, hsign], fun heven => ?_⟩
  rw [hmagnitude', Nat.even_iff] at heven
  rw [Nat.even_iff]
  omega

theorem rounds (h : Converts half k narrow widen) {value : UInt32}
    (hnan : fp32.read value.toNat ≠ .nan) :
    ∃ r, half.narrow value = .ok r ∧
      half.format.Rounded (fp32.read value.toNat) (fp32.negative value.toNat) r.toNat := by
  have hle : fp32.magnitude value.toNat ≤ fp32.infinity := not_lt.mp (mt read_nan_iff.mpr hnan)
  obtain ⟨r, hrun, hmagnitude, hsign, heven⟩ := h.narrowed hle
  exact ⟨r, hrun, h.narrows.rounded hle hmagnitude hsign heven⟩

theorem monotone (h : Converts half k narrow widen) {x y : UInt32} {rx ry : UInt16}
    (hx : half.narrow x = .ok rx) (hy : half.narrow y = .ok ry)
    (hle : (fp32.read x.toNat).Le (fp32.read y.toNat)) :
    (half.format.read rx.toNat).Le (half.format.read ry.toNat) := by
  obtain ⟨hxnan, hynan⟩ := hle.not_nan
  have hxle : fp32.magnitude x.toNat ≤ fp32.infinity := not_lt.mp (mt read_nan_iff.mpr hxnan)
  have hyle : fp32.magnitude y.toNat ≤ fp32.infinity := not_lt.mp (mt read_nan_iff.mpr hynan)
  obtain ⟨_, hrun, hmagnitude, hsign, _⟩ := h.narrowed hxle
  obtain ⟨_, hrun', hmagnitude', hsign', _⟩ := h.narrowed hyle
  cases hx.symm.trans hrun
  cases hy.symm.trans hrun'
  exact h.narrows.read_le (by decide) hxle hyle hmagnitude hsign hmagnitude' hsign' hle

theorem narrow_of_nan (h : Converts half k narrow widen) {value : UInt32}
    (hnan : fp32.read value.toNat = .nan) :
    ∃ r, half.narrow value = .ok r ∧ half.format.read r.toNat = .nan := by
  rw [read_nan_iff, (float_parts value).1] at hnan
  obtain ⟨a, hlow, hhigh, hrun, _⟩ := h.narrow_nan value hnan
  refine ⟨_, hrun, ?_⟩
  rw [read_nan_iff, (h.half_parts _).1, (half_of_parts (sign_lt value) hhigh).2]
  exact hlow

/-- Widening keeps the reading, and narrowing takes it back. -/
theorem inverts (h : Converts half k narrow widen) (word : UInt16) :
    ∃ w, half.widen word = .ok w ∧ fp32.read w.toNat = half.format.read word.toNat ∧
      fp32.negative w.toNat = half.format.negative word.toNat ∧ half.narrow w = .ok word := by
  have hword : word.toNat < 2 ^ 16 := word.toNat_lt
  have hp : word.toNat % 2 ^ 15 < 2 ^ 15 := Nat.mod_lt _ (by decide)
  have hs : word.toNat / 2 ^ 15 < 2 := by omega
  have hback : UInt16.ofNat (word.toNat / 2 ^ 15 * 2 ^ 15 + word.toNat % 2 ^ 15) = word := by
    rw [Nat.div_add_mod', UInt16.ofNat_toNat]
  obtain ⟨hmagnitude, hnegative⟩ := h.half_parts word
  obtain ⟨hsign, hrest⟩ := float_of_parts hs (h.widen_lt _ hp)
  refine ⟨_, h.widen_ok word, ?_⟩
  generalize UInt32.ofNat _ = w at hsign hrest ⊢
  obtain ⟨hmagnitude', hnegative'⟩ := float_parts w
  have hsame : fp32.negative w.toNat = half.format.negative word.toNat := by
    rw [hnegative', hnegative, hsign]
  rw [hrest] at hmagnitude'
  rcases Nat.lt_trichotomy (word.toNat % 2 ^ 15) half.format.infinity with hlt | heq | hgt
  · obtain ⟨hfinite, hscaled⟩ := h.widen_finite _ hlt
    refine ⟨h.narrows.read_eq hsame (by rw [hmagnitude']; exact hfinite)
      (by rw [hmagnitude]; exact hlt) (by rw [hmagnitude', hmagnitude, hscaled]), hsame, ?_⟩
    rw [h.narrow_ok w (by rw [hrest]; exact hfinite.le), hsign, hrest,
      h.narrows.exact hfinite.le hlt.le hscaled, hback]
  · refine ⟨?_, hsame, ?_⟩
    · rw [read_of_eq (by rw [hmagnitude', heq, h.widen_infinity]),
        read_of_eq (by rw [hmagnitude, heq]), hsame]
    · rw [heq, h.widen_infinity] at hrest
      rw [h.narrow_ok w (by rw [hrest]), hsign, hrest, h.narrows.infinity, ← heq, hback]
  · have hnan := h.widen_nan _ hp hgt
    refine ⟨?_, hsame, ?_⟩
    · rw [read_nan_iff.mpr (by rw [hmagnitude']; exact hnan),
        read_nan_iff.mpr (by rw [hmagnitude]; exact hgt)]
    · obtain ⟨a, _, _, hrun, hkeep⟩ := h.narrow_nan w (by rw [hrest]; exact hnan)
      rw [hrun, hsign, hkeep _ hp hgt hrest, hback]

end Converts

/-- The conversions of either type. -/
theorem HalfType.converts (half : HalfType) : ∃ k narrow widen, Converts half k narrow widen := by
  cases half with
  | float16 => exact ⟨_, _, _, float16_converts⟩
  | bfloat16 => exact ⟨_, _, _, bfloat16_converts⟩

/-- **Narrowing is correctly rounded and monotone, takes widening back, and keeps NaNs; no shift
and no sum on the way leaves its range.** -/
theorem half_narrowing (half : HalfType) :
    (∀ value : UInt32, fp32.read value.toNat ≠ .nan → ∃ r, half.narrow value = .ok r ∧
      half.format.Rounded (fp32.read value.toNat) (fp32.negative value.toNat) r.toNat) ∧
    (∀ (x y : UInt32) (rx ry : UInt16), half.narrow x = .ok rx → half.narrow y = .ok ry →
      (fp32.read x.toNat).Le (fp32.read y.toNat) →
        (half.format.read rx.toNat).Le (half.format.read ry.toNat)) ∧
    (∀ word : UInt16, ∃ w, half.widen word = .ok w ∧
      fp32.read w.toNat = half.format.read word.toNat ∧
      fp32.negative w.toNat = half.format.negative word.toNat ∧ half.narrow w = .ok word) ∧
    (∀ value : UInt32, fp32.read value.toNat = .nan →
      ∃ r, half.narrow value = .ok r ∧ half.format.read r.toNat = .nan) := by
  obtain ⟨k, narrow, widen, h⟩ := half.converts
  exact ⟨fun _ => h.rounds, fun _ _ _ _ => h.monotone, h.inverts, fun _ => h.narrow_of_nan⟩

example : fp16.overflow = 65520 := by
  norm_num [BinaryFormat.overflow, number, scaled, least, BinaryFormat.infinity, fp16]

/-- What is a tie at the last midpoint overflows: 65520 becomes an infinity, and what is just below
it becomes 65504. -/
example : fp32ToFp16Bits 0x477FF000 = .ok 0x7C00 ∧ fp32ToFp16Bits 0x477FEFFF = .ok 0x7BFF := by
  decide

end InferenceEngine
