/-
Tensors and their views: `tensor/tensor.h`, `tensor.cpp`, and `copy` of `ops.cpp`.

A handle without storage cannot be built, so `CHECK(defined())` has nothing to fail on, and
`to` is left out.  Byte offsets are `size_t` and wrap; strides and element offsets are
`std::int64_t`, whose overflow is a fault.  Memory is one flat map from addresses to bytes.
-/
import InferenceEngine.Lib.FlatMemory
import InferenceEngine.Memory.Buffer
import InferenceEngine.Tensor.Shape

namespace InferenceEngine

open FlatMemory

/-- `tensor::Tensor` over its storage. -/
structure TensorView where
  buffer : Buffer
  byteOffset : Nat
  shape : Shape
  strides : List Nat
  dtype : DataType
  device : Device
deriving DecidableEq, Repr

/-- `IsReservedDataType`. -/
def isReservedDataType (dtype : DataType) : Bool := dtype = .int4 || dtype = .fp8E4M3

namespace TensorView

/-- `kEmptyAlignment`. -/
def emptyAlignment : Nat := 64

/-- `Tensor::empty`; no allocator given is the default one. -/
def empty (host : HostMemory) (shape : Shape) (dtype : DataType) (device : Device)
    (allocator : Option Allocator) : Checked (StatusOr TensorView) :=
  if isReservedDataType dtype then
    pure (.error (unimplementedError
      s!"dtype {dtype.toString} is reserved and not allocatable until its milestone"))
  else if device.isCuda then
    pure (.error (unimplementedError
      s!"device {device.toString} is not supported: the engine has no GPU backend (ADR-004)"))
  else do
    let allocator := allocator.getD (defaultCpuAllocator host)
    check (allocator.device = device)
      (s!"allocator device {allocator.device.toString} does not match requested device " ++
       s!"{device.toString}")
    let size ← dtype.itemsize
    match mulOverflow shape.numel size with
    | none => pure (.error (invalidArgumentError
        s!"allocation size overflows int64_t: {shape.numel} elements of {dtype.toString}"))
    | some bytes =>
        match ← allocator.allocate bytes.toNat emptyAlignment with
        | .error status => pure (.error status)
        | .ok buffer => do
            let strides ← rowMajorStrides shape
            pure (.ok ⟨buffer, 0, shape, strides, dtype, device⟩)

/-- `Tensor::from_buffer`. -/
def fromBuffer (buffer : Buffer) (byteOffset : Nat) (shape : Shape) (dtype : DataType) :
    Checked (StatusOr TensorView) :=
  if isReservedDataType dtype then
    pure (.error (unimplementedError
      s!"dtype {dtype.toString} is reserved and not viewable until its milestone"))
  else do
    let size ← dtype.itemsize
    match mulOverflowUnsigned shape.numel size with
    | none => pure (.error (invalidArgumentError
        s!"from_buffer: view size overflows uint64_t: {shape.numel} elements of {dtype.toString}"))
    | some viewBytes =>
        if (addOverflowUnsigned byteOffset viewBytes).all (buffer.sizeBytes < ·) then
          pure (.error (invalidArgumentError
            (s!"from_buffer: view of {viewBytes} bytes at offset {byteOffset} exceeds buffer " ++
             s!"size {buffer.sizeBytes}")))
        else do
          let strides ← rowMajorStrides shape
          pure (.ok ⟨buffer, byteOffset, shape, strides, dtype, buffer.device⟩)

/-- `numel()`. -/
def numel (t : TensorView) : Nat := t.shape.numel

/-- `is_contiguous()`. -/
def isContiguous (t : TensorView) : Checked Bool := InferenceEngine.isContiguous t.shape t.strides

/-- `Tensor::slice`. -/
def slice (t : TensorView) (dim start stop : Int) : Checked (StatusOr TensorView) :=
  if dim < 0 ∨ dim ≥ t.shape.rank then
    pure (.error (invalidArgumentError
      s!"slice dim {dim} out of range for rank-{t.shape.rank} shape {formatDims t.shape.dims}"))
  else do
    let size ← readAt t.shape.dims dim
    if start < 0 ∨ start > stop ∨ stop > size then
      pure (.error (invalidArgumentError
        s!"slice range [{start}, {stop}) invalid for dim {dim} of size {size}"))
    else
      let dims := (t.shape.dims.map fun d : Nat => (d : Int)).set dim.toNat (stop - start)
      match Shape.fromDims dims with
      | .error status => pure (.error status)
      | .ok newShape => do
          let stride ← readAt t.strides dim
          let elements ← int64Nat (start.toNat * stride)
          let itemsize ← t.dtype.itemsize
          let byteOffset := addSize t.byteOffset (mulSize elements itemsize)
          pure (.ok { t with byteOffset := byteOffset, shape := newShape })

/-- `Tensor::reshape`. -/
def reshape (t : TensorView) (newShape : Shape) : Checked (StatusOr TensorView) :=
  if newShape.numel ≠ t.shape.numel then
    pure (.error (invalidArgumentError
      (s!"reshape to {formatDims newShape.dims} ({newShape.numel} elements) from " ++
       s!"{formatDims t.shape.dims} ({t.shape.numel} elements): element counts must match")))
  else do
    if ← t.isContiguous then
      let strides ← rowMajorStrides newShape
      pure (.ok { t with shape := newShape, strides := strides })
    else
      pure (.error (invalidArgumentError
        (s!"reshape requires a contiguous tensor (shape {formatDims t.shape.dims}, strides " ++
         s!"{formatDims t.strides}); make a contiguous copy first")))

/-- `Tensor::view_as_dtype`. -/
def viewAsDtype (t : TensorView) (newDtype : DataType) : Checked (StatusOr TensorView) :=
  if isReservedDataType newDtype then
    pure (.error (unimplementedError
      s!"dtype {newDtype.toString} is reserved and not viewable until its milestone"))
  else if newDtype.itemsizeBits ≠ t.dtype.itemsizeBits then
    pure (.error (invalidArgumentError
      (s!"view_as_dtype requires equal element sizes: {t.dtype.toString} is " ++
       s!"{t.dtype.itemsizeBits} bits, {newDtype.toString} is {newDtype.itemsizeBits} bits")))
  else pure (.ok { t with dtype := newDtype })

/-- `data()`. -/
def data (t : TensorView) : Nat :=
  if t.buffer.data = 0 then 0 else t.buffer.data + t.byteOffset

end TensorView

/-! ### Copying

One block if both sides are contiguous, and otherwise element by element, in the order of the
indices. -/

/-- The bytes of the process. -/
abbrev Memory := Int → UInt8

/-- The loop of `ElementOffset`, from `offset` on. -/
def elementOffsetFrom (offset : Nat) : List Nat → List Nat → Checked Nat
  | [], _ => pure offset
  | _ :: _, [] => .error .outOfBounds
  | i :: index, stride :: strides => do
      let step ← int64Nat (i * stride)
      let offset ← int64Nat (offset + step)
      elementOffsetFrom offset index strides

/-- `ElementOffset`. -/
def elementOffset (index strides : List Nat) : Checked Nat := elementOffsetFrom 0 index strides

/-- The loop of `ForEachIndex` with `n` rounds to go.  The inner loop counts the index up
from its last dim. -/
def forEachIndexFrom {σ : Type} (dims : List Nat) (visit : List Nat → σ → Checked σ) :
    Nat → List Nat → σ → Checked σ
  | 0, _, s => pure s
  | n + 1, index, s => do
      let s ← visit index s
      forEachIndexFrom dims visit n (MixedRadix.step dims index).1 s

/-- `ForEachIndex`. -/
def forEachIndex {σ : Type} (shape : Shape) (visit : List Nat → σ → Checked σ) (s : σ) :
    Checked σ :=
  forEachIndexFrom shape.dims visit shape.numel (MixedRadix.zeros shape.dims) s

namespace TensorView

/-- The block path of `copy`. -/
def copyBlock (dst src : TensorView) (size : Nat) (mem : Memory) : Checked Memory :=
  if dst.data ≠ src.data then
    pure (memcpy mem dst.data mem src.data (mulSize dst.numel size))
  else pure mem

/-- The element path of `copy`. -/
def copyElements (dst src : TensorView) (size : Nat) (mem : Memory) : Checked Memory :=
  forEachIndex dst.shape (fun index mem => do
    let dstOffset ← elementOffset index dst.strides
    let srcOffset ← elementOffset index src.strides
    pure (memcpy mem (dst.data + dstOffset * size : Nat) mem
      (src.data + srcOffset * size : Nat) size)) mem

/-- `dst.is_contiguous() && src.is_contiguous()`. -/
def bothContiguous (dst src : TensorView) : Checked Bool := do
  if ← dst.isContiguous then src.isContiguous else pure false

/-- `ops::copy`; a refused copy writes nothing. -/
def copy (dst src : TensorView) (mem : Memory) : Checked (StatusOr Memory) := do
  check (!dst.device.isCuda && !src.device.isCuda)
    s!"copy requires CPU tensors; devices are {dst.device.toString} and {src.device.toString}"
  if dst.dtype ≠ src.dtype then
    pure (.error (invalidArgumentError
      (s!"copy: dtype mismatch: {dst.dtype.toString} vs {src.dtype.toString} (dtype conversion " ++
       "is cast)")))
  else if dst.shape ≠ src.shape then
    pure (.error (invalidArgumentError
      s!"copy: shape mismatch: {formatDims dst.shape.dims} vs {formatDims src.shape.dims}"))
  else if dst.numel = 0 then pure (.ok mem)
  else if ← bothContiguous dst src then
    let size ← dst.dtype.itemsize
    let mem ← copyBlock dst src size mem
    pure (.ok mem)
  else
    check (!isReservedDataType dst.dtype) s!"no host type for dtype {dst.dtype.toString}"
    let size ← dst.dtype.itemsize
    let mem ← copyElements dst src size mem
    pure (.ok mem)

end TensorView

end InferenceEngine
