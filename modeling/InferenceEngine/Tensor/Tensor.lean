/-
Element types (`tensor/dtype.h`), and tensors, as far as the key/value cache reads them.

A tensor here is its dimensions, its element type, whether it is contiguous, and its
elements by flat offset.  Strides, buffers and devices are not modelled: the cache refuses
whatever is not contiguous before it looks at an element.  A handle that holds no tensor
cannot be built, so `CHECK(k.defined())` has nothing to fail on.
-/
import InferenceEngine.Core.Status
import InferenceEngine.Lib.FlatMemory

namespace InferenceEngine

/-- `tensor::DataType`. -/
inductive DataType where
  | float32
  | float16
  | bfloat16
  | int8
  | uint8
  | int32
  | int64
  | bool
  | fp8E4M3
  | int4
deriving DecidableEq, Repr

/-- `tensor::to_string`. -/
def DataType.toString : DataType → String
  | .float32 => "float32"
  | .float16 => "float16"
  | .bfloat16 => "bfloat16"
  | .int8 => "int8"
  | .uint8 => "uint8"
  | .int32 => "int32"
  | .int64 => "int64"
  | .bool => "bool"
  | .fp8E4M3 => "fp8_e4m3"
  | .int4 => "int4"

/-- `is_sub_byte`. -/
def DataType.isSubByte (dtype : DataType) : Bool := dtype = .int4

/-- `itemsize_bits`. -/
def DataType.itemsizeBits : DataType → Nat
  | .int4 => 4
  | .int8 | .uint8 | .bool | .fp8E4M3 => 8
  | .float16 | .bfloat16 => 16
  | .float32 | .int32 => 32
  | .int64 => 64

/-- `itemsize`. -/
def DataType.itemsize (dtype : DataType) : Checked Nat := do
  check (!dtype.isSubByte) "itemsize() is undefined for sub-byte dtypes; use itemsize_bits()"
  pure (dtype.itemsizeBits / 8)

/-- `tensor::Tensor`; a shape's dimensions are never negative. -/
structure Tensor (α : Type) where
  dims : List Nat
  dtype : DataType
  contiguous : Bool
  data : Int → α

namespace Tensor

variable {α : Type}

/-- `shape().rank()`. -/
def rank (t : Tensor α) : Nat := t.dims.length

/-- `shape().dim(i)`. -/
def dim (t : Tensor α) (i : Nat) : Nat := t.dims.getD i 0

/-- `numel()`. -/
def numel (t : Tensor α) : Nat := t.dims.prod

/-- The elements, in memory order. -/
def values (t : Tensor α) : List α :=
  (FlatMemory.indices t.numel).map t.data

end Tensor

/-- `fmt` of a shape, as in `[2, 3, 4]`. -/
def formatDims (dims : List Nat) : String :=
  "[" ++ ", ".intercalate (dims.map Nat.repr) ++ "]"

end InferenceEngine
