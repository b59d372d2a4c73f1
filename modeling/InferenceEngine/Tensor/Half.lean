/-
The conversions of half precision words: `tensor/half.h`.

A `float` is its bit pattern.  A shift by the width of `std::uint32_t` or more is undefined, and is
a fault here; so is a sum or a difference that leaves the type, where the code would go on with
the wrapped value.  What is shifted out on the left is lost, as it is there.
-/
import Mathlib.Algebra.Group.Nat.Defs
import Mathlib.Data.Nat.Log

namespace InferenceEngine

/-- What an operation on `std::uint32_t` is not to do in a conversion. -/
inductive WordFault where
  /-- a shift by 32 or more -/
  | shiftAmount
  /-- a result that leaves the type -/
  | wrapped
deriving DecidableEq, Repr

/-- A computation on words that may leave their range. -/
abbrev Words (α : Type) := Except WordFault α

namespace Words

/-- `a + b` -/
def add (a b : Nat) : Words Nat := if a + b < 2 ^ 32 then .ok (a + b) else .error .wrapped

/-- `a - b` -/
def sub (a b : Nat) : Words Nat := if b ≤ a then .ok (a - b) else .error .wrapped

/-- `a << k` -/
def shiftLeft (a k : Nat) : Words Nat :=
  if k < 32 then .ok (a <<< k % 2 ^ 32) else .error .shiftAmount

/-- `a >> k` -/
def shiftRight (a k : Nat) : Words Nat := if k < 32 then .ok (a >>> k) else .error .shiftAmount

/-- `std::countl_zero` of a `std::uint32_t`. -/
def countlZero (a : Nat) : Nat := if a = 0 then 32 else 31 - Nat.log 2 a

end Words

open Words

/-- `Fp32ToFp16Bits`. -/
def fp32ToFp16Bits (value : UInt32) : Words UInt16 := do
  let bits := value.toNat
  let sign := (← shiftRight bits 16) &&& 0x8000
  let abs := bits &&& 0x7FFFFFFF
  if abs > 0x7F800000 then do
    let payload := (← shiftRight abs 13) &&& 0x03FF
    let payload := if payload = 0 then 0x0200 else payload
    pure (.ofNat (sign ||| 0x7C00 ||| payload))
  else if abs ≥ 0x477FF000 then pure (.ofNat (sign ||| 0x7C00))
  else if abs ≥ 0x38800000 then do
    let rounded ← add (← add abs 0x00000FFF) ((← shiftRight abs 13) &&& 1)
    let rebiased ← sub (← shiftRight rounded 13) (← shiftLeft 112 10)
    pure (.ofNat (sign ||| rebiased))
  else do
    let exponent ← shiftRight abs 23
    if exponent < 102 then pure (.ofNat sign)
    else do
      let mantissa := (abs &&& 0x007FFFFF) ||| 0x00800000
      let shift ← sub 126 exponent
      let half ← shiftLeft 1 (← sub shift 1)
      let rounded ← add (← add mantissa (← sub half 1)) ((← shiftRight mantissa shift) &&& 1)
      pure (.ofNat (sign ||| (← shiftRight rounded shift)))

/-- `Fp16BitsToFp32`. -/
def fp16BitsToFp32 (halfBits : UInt16) : Words UInt32 := do
  let half := halfBits.toNat
  let sign ← shiftLeft (half &&& 0x8000) 16
  let exponent := (← shiftRight half 10) &&& 0x1F
  let mantissa := half &&& 0x03FF
  if exponent = 0x1F then do
    pure (.ofNat (sign ||| 0x7F800000 ||| (← shiftLeft mantissa 13)))
  else if exponent = 0 then
    if mantissa = 0 then pure (.ofNat sign)
    else do
      -- the place of the leading bit
      let n ← sub 31 (countlZero mantissa)
      let exp32 ← add 103 n
      let man32 := (← shiftLeft mantissa (← sub 23 n)) &&& 0x007FFFFF
      pure (.ofNat (sign ||| (← shiftLeft exp32 23) ||| man32))
  else do
    let exp32 ← add exponent 112
    pure (.ofNat (sign ||| (← shiftLeft exp32 23) ||| (← shiftLeft mantissa 13)))

/-- `Fp32ToBf16Bits`. -/
def fp32ToBf16Bits (value : UInt32) : Words UInt16 := do
  let bits := value.toNat
  if bits &&& 0x7FFFFFFF > 0x7F800000 then do
    let result := (← shiftRight bits 16) % 2 ^ 16
    pure (.ofNat (if result &&& 0x007F = 0 then result ||| 0x0040 else result))
  else do
    let rounded ← add (← add bits 0x7FFF) ((← shiftRight bits 16) &&& 1)
    pure (.ofNat (← shiftRight rounded 16))

/-- `Bf16BitsToFp32`. -/
def bf16BitsToFp32 (bf16Bits : UInt16) : Words UInt32 := do
  pure (.ofNat (← shiftLeft bf16Bits.toNat 16))

/-- The classes over the conversions. -/
inductive HalfType where
  | float16
  | bfloat16
deriving DecidableEq, Repr

namespace HalfType

/-- The constructor from a `float`. -/
def narrow : HalfType → UInt32 → Words UInt16
  | .float16 => fp32ToFp16Bits
  | .bfloat16 => fp32ToBf16Bits

/-- `operator float()`. -/
def widen : HalfType → UInt16 → Words UInt32
  | .float16 => fp16BitsToFp32
  | .bfloat16 => bf16BitsToFp32

end HalfType

end InferenceEngine
