/-
`arange` of `tensor/ops.cpp`.

The elements of the tensor are kept beside its view, in order.  Signed arithmetic that leaves
`std::int64_t` is a fault, and so is a sum that wraps in `std::uint64_t`; a cast to it wraps on
purpose.  What the code computes in floating point is a parameter.
-/
import InferenceEngine.Tensor.View

namespace InferenceEngine

/-- `is_floating_point`. -/
def DataType.isFloatingPoint (dtype : DataType) : Bool :=
  dtype = .float32 || dtype = .float16 || dtype = .bfloat16 || dtype = .fp8E4M3

/-- `__builtin_sub_overflow` at 64 bits. -/
def subOverflow (a b : Int) : Option Int :=
  if -(2 ^ 63) ≤ a - b ∧ a - b < 2 ^ 63 then some (a - b) else none

/-- `static_cast<std::uint64_t>`. -/
def toUint64 (v : Int) : Nat := (v % 2 ^ 64).toNat

/-- `UnsignedMagnitude`. -/
def unsignedMagnitude (v : Int) : Checked Nat :=
  let u := toUint64 v
  if v < 0 then
    let complement : Nat := 2 ^ 64 - 1 - u
    uint64 (complement + 1)
  else pure u

/-- `FitsIntegerDtype`. -/
def fitsIntegerDtype (dtype : DataType) (v : Int) : Checked Bool :=
  match dtype with
  | .int8 => pure (-(2 ^ 7) ≤ v ∧ v < 2 ^ 7)
  | .uint8 => pure (0 ≤ v ∧ v < 2 ^ 8)
  | .int32 => pure (-(2 ^ 31) ≤ v ∧ v < 2 ^ 31)
  | .int64 => pure true
  | .bool => pure (v = 0 ∨ v = 1)
  | dtype => throw (.checkFailed
      s!"FitsIntegerDtype: {dtype.toString} is not an integer dtype")

/-- `static_cast<T>` of a `std::int64_t`, where `DispatchDtype` finds an integer `T`; a bool is
zero or one. -/
def castInteger (dtype : DataType) (v : Int) : Checked Int :=
  match dtype with
  | .int8 => pure (Int.bmod v (2 ^ 8))
  | .uint8 => pure (v % 2 ^ 8)
  | .int32 => pure (toInt32 v)
  | .int64 => pure v
  | .bool => pure (if v = 0 then 0 else 1)
  | dtype => throw (.checkFailed s!"no host type for dtype {dtype.toString}")

/-- An element of a tensor. -/
inductive Element (β : Type) where
  | integer (value : Int)
  | floating (value : β)
deriving DecidableEq, Repr

namespace Arange

variable {β : Type}

/-- The count of elements, where `span` leads from `start` to `stop`. -/
def elementCount (start stop step span : Int) : Checked (StatusOr Int) :=
  if (decide (step > 0) = decide (span > 0)) ∧ span ≠ 0 then do
    let uspan ← unsignedMagnitude span
    let ustep ← unsignedMagnitude step
    -- `step` is not zero, so `ustep` is not
    let quotient := uspan / ustep
    let ucount ← uint64 (quotient + (if uspan % ustep ≠ 0 then 1 else 0 : Nat))
    if ucount > 2 ^ 63 - 1 then
      pure (.error (invalidArgumentError
        (s!"arange: element count {ucount} overflows int64 for start={start}, end={stop}, " ++
         s!"step={step}")))
    else pure (.ok (Int.bmod ucount (2 ^ 64)))
  else pure (.ok 0)

/-- A turn of the loop: `narrow dtype start i step` is the element in a floating point dtype. -/
def element (narrow : DataType → Int → Int → Int → β) (dtype : DataType) (start step : Int)
    (i : Nat) : Checked (Element β) :=
  if dtype.isFloatingPoint then pure (.floating (narrow dtype start i step))
  else do
    let offset ← int64 (i * step)
    let sum ← int64 (start + offset)
    let value ← castInteger dtype sum
    pure (.integer value)

/-- Whether both ends are representable. -/
def endsFit (dtype : DataType) (start last : Int) : Checked Bool := do
  if dtype.isFloatingPoint then pure true
  else if ← fitsIntegerDtype dtype start then fitsIntegerDtype dtype last
  else pure false

/-- From `last` on: the elements of a tensor that has some. -/
def fill (narrow : DataType → Int → Int → Int → β) (start step : Int) (dtype : DataType)
    (tensor : TensorView) (count : Int) : Checked (StatusOr (TensorView × List (Element β))) := do
  let before ← int64 (count - 1)
  let offset ← int64 (before * step)
  let last ← int64 (start + offset)
  if !(← endsFit dtype start last) then
    pure (.error (invalidArgumentError
      s!"arange: values [{start}, {last}] are not representable in {dtype.toString}"))
  else do
    let elements ← (List.range count.toNat).mapM (element narrow dtype start step)
    pure (.ok (tensor, elements))

/-- From the count on: the tensor and its elements. -/
def create (narrow : DataType → Int → Int → Int → β) (host : HostMemory) (start step : Int)
    (dtype : DataType) (device : Device) (allocator : Option Allocator) (count : Int) :
    Checked (StatusOr (TensorView × List (Element β))) := do
  let shape ← Shape.literal [count]
  match ← TensorView.empty host shape dtype device allocator with
  | .error status => pure (.error status)
  | .ok tensor =>
      if count = 0 then pure (.ok (tensor, []))
      else fill narrow start step dtype tensor count

end Arange

/-- `ops::arange`; the tensor comes with its elements. -/
def arange {β : Type} (narrow : DataType → Int → Int → Int → β) (host : HostMemory)
    (start stop step : Int) (dtype : DataType) (device : Device) (allocator : Option Allocator) :
    Checked (StatusOr (TensorView × List (Element β))) :=
  if step = 0 then pure (.error (invalidArgumentError "arange: step must be non-zero"))
  else
    match subOverflow stop start with
    | none => pure (.error (invalidArgumentError
        s!"arange: end - start overflows int64 for start={start}, end={stop}"))
    | some span => do
        match ← Arange.elementCount start stop step span with
        | .error status => pure (.error status)
        | .ok count => Arange.create narrow host start step dtype device allocator count

end InferenceEngine
