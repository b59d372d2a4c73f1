/-
The cache interface: `kvcache/kv_cache.h`, and the check both caches put in front of an
append.

`RequireAppendBlock` exists twice in the code, in `paged_cache.cpp` and `simple_cache.cpp`,
with the same tests and with messages that differ in the name of the class.  It is one
definition here, with the name as a parameter.
-/
import InferenceEngine.Core.Status
import InferenceEngine.Tensor.Tensor

namespace InferenceEngine

/-- `kvcache::CacheGeometry`. -/
structure CacheGeometry where
  numLayers : Int
  numKvHeads : Int
  headDim : Int
  dtype : DataType
deriving DecidableEq, Repr

/-- `kvcache::KvView`: one layer's keys and values, head-major. -/
structure KvView (α : Type) where
  k : Tensor α
  v : Tensor α

variable {α : Type}

/-- `RequireAppendBlock` of the class `cls`. -/
def requireAppendBlock (cls : String) (t : Tensor α) (geom : CacheGeometry) (role : String) :
    StatusOr Unit :=
  if t.rank ≠ 3 then
    .error (invalidArgumentError
      (s!"{cls}::append: {role} must be rank-3 [T, {geom.numKvHeads}, {geom.headDim}], got " ++
       s!"rank-{t.rank}"))
  else if !t.contiguous then
    .error (invalidArgumentError s!"{cls}::append: {role} must be contiguous")
  else if t.dtype ≠ .float32 then
    .error (invalidArgumentError s!"{cls}::append: {role} must be f32, got {t.dtype.toString}")
  else if t.dim 0 < 1 ∨ (t.dim 1 : Int) ≠ geom.numKvHeads ∨ (t.dim 2 : Int) ≠ geom.headDim then
    .error (invalidArgumentError
      (s!"{cls}::append: {role} must be [T>=1, {geom.numKvHeads}, {geom.headDim}], got " ++
       s!"{formatDims t.dims}"))
  else .ok ()

/-- Everything `append` of the class `cls` checks before it touches its state. -/
def validateAppend (cls : String) (geom : CacheGeometry) (layer : Int) (k v : Tensor α) :
    StatusOr Unit := do
  if !(0 ≤ layer && layer < geom.numLayers) then
    throw (invalidArgumentError
      s!"{cls}::append: layer {layer} out of range [0, {geom.numLayers})")
  requireAppendBlock cls k geom "k"
  requireAppendBlock cls v geom "v"
  if k.dim 0 ≠ v.dim 0 then
    throw (invalidArgumentError
      s!"{cls}::append: k T ({k.dim 0}) and v T ({v.dim 0}) must match")

/-- What `view(layer)` of the class `cls` checks. -/
def validateViewLayer (cls : String) (geom : CacheGeometry) (layer : Int) : StatusOr Unit :=
  if !(0 ≤ layer && layer < geom.numLayers) then
    .error (invalidArgumentError
      s!"{cls}: layer {layer} out of range [0, {geom.numLayers})")
  else .ok ()

/-- A fresh contiguous f32 tensor `[Hkv, length, d]` over a buffer. -/
def headMajor (geom : CacheGeometry) (length : Nat) (data : Int → α) : Tensor α :=
  ⟨[geom.numKvHeads.toNat, length, geom.headDim.toNat], .float32, true, data⟩

end InferenceEngine
