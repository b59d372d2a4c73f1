/-
The stored elements that kernels read, and the arithmetic they do on them.

Weights and tables are single precision numbers or the bit patterns of half precision ones.
Nothing is assumed of the arithmetic: a kernel that agrees with another one under this model
does the same operations on the same values in the same order.
-/
import InferenceEngine.Core.Status
import InferenceEngine.Tensor.Tensor

namespace InferenceEngine

/-- Single precision arithmetic and the conversions of `tensor/half.h`. -/
structure Arithmetic (β : Type) where
  zero : β
  add : β → β → β
  mul : β → β → β
  fp16ToFp32 : UInt16 → β
  bf16ToFp32 : UInt16 → β

/-- `IsSupportedFloat`. -/
def DataType.isSupportedFloat (dtype : DataType) : Bool :=
  dtype = .float32 || dtype = .float16 || dtype = .bfloat16

/-- What a `const void*` points to, with the dtype it is stored in. -/
inductive Elements (β : Type) where
  | f32 (data : List β)
  | f16 (data : List UInt16)
  | bf16 (data : List UInt16)
  | other (dtype : DataType) (unsupported : dtype.isSupportedFloat = false)

namespace Elements

variable {β : Type}

/-- The dtype of the elements. -/
def dtype : Elements β → DataType
  | f32 _ => .float32
  | f16 _ => .float16
  | bf16 _ => .bfloat16
  | other dtype _ => dtype

/-- There are `n` numbers. -/
def Holds (n : Nat) : Elements β → Prop
  | f32 data => data.length = n
  | f16 data => data.length = n
  | bf16 data => data.length = n
  | other _ _ => False

/-- The numbers, converted to single precision: `tensor::ops::cast`. -/
def widened (arith : Arithmetic β) : Elements β → List β
  | f32 data => data
  | f16 data => data.map arith.fp16ToFp32
  | bf16 data => data.map arith.bf16ToFp32
  | other _ _ => []

end Elements

/-- A tensor that a kernel reads; one that is not contiguous is refused before its elements are
looked at. -/
structure StoredTensor (β : Type) where
  dims : List Nat
  contiguous : Bool
  storage : Elements β
  sized : contiguous = true → storage.dtype.isSupportedFloat = true → storage.Holds dims.prod

namespace StoredTensor

variable {β : Type}

/-- `shape().rank()`. -/
def rank (t : StoredTensor β) : Nat := t.dims.length

/-- `shape().dim(i)`. -/
def dim (t : StoredTensor β) (i : Nat) : Nat := t.dims.getD i 0

/-- `dtype()`. -/
def dtype (t : StoredTensor β) : DataType := t.storage.dtype

/-- `data_ptr<float>()`. -/
def floats (t : StoredTensor β) : Checked (List β) :=
  match t.storage with
  | .f32 data => pure data
  | _ => throw (.checkFailed
      s!"data_ptr<T>(): T is float32 but dtype() is {t.dtype.toString}")

/-- A tensor of `rows` rows, one after the other. -/
def matrix (rows cols : Nat) (e : Elements β) (h : e.Holds (rows * cols)) : StoredTensor β :=
  ⟨[rows, cols], true, e, fun _ _ => by simpa using h⟩

/-- A tensor of one dimension. -/
def vector (n : Nat) (e : Elements β) (h : e.Holds n) : StoredTensor β :=
  ⟨[n], true, e, fun _ _ => by simpa using h⟩

end StoredTensor

end InferenceEngine
