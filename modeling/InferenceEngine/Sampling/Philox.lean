/-
The counter-based generator: `sampling/philox.h`.

A block is four 32-bit words and a key two; every operation is modulo `2 ^ 32`.
-/
import InferenceEngine.Sampling.Float

namespace InferenceEngine

/-- `Philox4x32Block`. -/
structure Philox4x32Block where
  w0 : BitVec 32
  w1 : BitVec 32
  w2 : BitVec 32
  w3 : BitVec 32
deriving DecidableEq, Repr

/-- The two key words. -/
structure PhiloxKey where
  k0 : BitVec 32
  k1 : BitVec 32
deriving DecidableEq, Repr

/-- `MulHiLo32`: the high and the low half of the product. -/
def mulHiLo32 (a b : BitVec 32) : BitVec 32 × BitVec 32 :=
  let product := a.setWidth 64 * b.setWidth 64
  ((product >>> 32).setWidth 32, product.setWidth 32)

/-- The multiplier of the first word. -/
def kM0 : BitVec 32 := 0xD2511F53

/-- The multiplier of the third word. -/
def kM1 : BitVec 32 := 0xCD9E8D57

/-- `Philox4x32Round`. -/
def philox4x32Round (ctr : Philox4x32Block) (key : PhiloxKey) : Philox4x32Block :=
  let (hi0, lo0) := mulHiLo32 kM0 ctr.w0
  let (hi1, lo1) := mulHiLo32 kM1 ctr.w2
  ⟨hi1 ^^^ ctr.w1 ^^^ key.k0, lo1, hi0 ^^^ ctr.w3 ^^^ key.k1, lo0⟩

/-- `BumpKey`. -/
def bumpKey (key : PhiloxKey) : PhiloxKey := ⟨key.k0 + 0x9E3779B9, key.k1 + 0xBB67AE85⟩

/-- The rounds after the first, each behind a bump of the key. -/
def philoxRounds : (rounds : Nat) → PhiloxKey → Philox4x32Block → Philox4x32Block
  | 0, _, ctr => ctr
  | rounds + 1, key, ctr =>
      let key := bumpKey key
      philoxRounds rounds key (philox4x32Round ctr key)

/-- `Philox4x32_10`: ten rounds, the first with the key as it is. -/
def philox4x32_10 (key : PhiloxKey) (ctr : Philox4x32Block) : Philox4x32Block :=
  philoxRounds 9 key (philox4x32Round ctr key)

/-- `PhiloxUniformDouble`: the top 53 bits of two words, scaled. -/
def philoxUniformDouble (seed step : BitVec 64) (draw : BitVec 32) : F32 :=
  let key : PhiloxKey := ⟨seed.setWidth 32, (seed >>> 32).setWidth 32⟩
  let ctr : Philox4x32Block := ⟨step.setWidth 32, (step >>> 32).setWidth 32, draw, 0⟩
  let out := philox4x32_10 key ctr
  let bits := out.w1.setWidth 64 <<< 32 ||| out.w0.setWidth 64
  .finite ((bits >>> 11).toNat * (1 / 9007199254740992))

/-- The known answer of the reference generator for a zero key and a zero counter. -/
example : philox4x32_10 ⟨0, 0⟩ ⟨0, 0, 0, 0⟩
    = ⟨0x6627e8d5, 0xe169c58d, 0xbc57ac4c, 0x9b00dbd8⟩ := by decide

end InferenceEngine
