/-
The optimized linear layer and embedding: `model/packed_linear.cpp` and `optimized_embedding.cpp`.

What a fresh tensor holds is not said, and allocating one succeeds.  Tensors that a layer fills are
given by their dimensions and dtype; what is stored into them is what `forward` returns.  The
source of an embedding is the model's own table or, where the head is tied to the embedding, the
packed weight of the head.
-/
import InferenceEngine.Kernels.Embedding
import InferenceEngine.Kernels.Gemm

namespace InferenceEngine

open Stores

variable {β : Type}

/-- What the memory of `Tensor::empty` happens to hold. -/
structure Uninitialized (β : Type) where
  floats : Nat → List β
  bits : Nat → List UInt16
  length_floats : ∀ n, (floats n).length = n
  length_bits : ∀ n, (bits n).length = n

/-- `Tensor::empty` with the dtype of another tensor. -/
def Uninitialized.like (fresh : Uninitialized β) (n : Nat) : Elements β → Elements β
  | .f32 _ => .f32 (fresh.floats n)
  | .f16 _ => .f16 (fresh.bits n)
  | .bf16 _ => .bf16 (fresh.bits n)
  | .other dtype unsupported => .other dtype unsupported

/-- `PackInto`: what `packed` holds afterwards. -/
def packInto (arith : Arithmetic β) (schedule : Schedule) (weight : Elements β)
    (outFeatures inFeatures : Nat) (packed : Elements β) : Checked (Elements β) :=
  match weight, packed with
  | .bf16 w, .bf16 wp => do
      let wp ← Kernels.packWeightPanels schedule 0 w outFeatures inFeatures wp
      pure (.bf16 wp)
  | .f16 w, .f16 wp => do
      let wp ← Kernels.packWeightPanels schedule 0 w outFeatures inFeatures wp
      pure (.f16 wp)
  | .f32 w, .f32 wp => do
      let wp ← Kernels.packWeightPanels schedule arith.zero w outFeatures inFeatures wp
      pure (.f32 wp)
  | _, _ => throw (.checkFailed "PackedLinear: unsupported weight dtype reached PackInto")

/-- `PackedLinear`. -/
structure PackedLinear (β : Type) where
  packed : Elements β
  bias : Option (List β)
  inFeatures : Nat
  outFeatures : Nat

namespace PackedLinear

/-- The checks of `Create`. -/
def validate (weight : StoredTensor β) (bias : Option (StoredTensor β)) : StatusOr Unit := do
  if weight.rank ≠ 2 then
    throw (invalidArgumentError
      s!"PackedLinear: weight must be rank-2 [out, in], got rank-{weight.rank}")
  if weight.contiguous = false then
    throw (invalidArgumentError "PackedLinear: weight must be contiguous")
  if weight.dtype.isSupportedFloat = false then
    throw (invalidArgumentError
      s!"PackedLinear: weight dtype must be f32/f16/bf16, got {weight.dtype.toString}")
  match bias with
  | none => pure ()
  | some bias =>
      if bias.rank ≠ 1 then
        throw (invalidArgumentError
          s!"PackedLinear: bias must be rank-1 [out], got rank-{bias.rank}")
      if bias.contiguous = false then
        throw (invalidArgumentError "PackedLinear: bias must be contiguous")
      if bias.dtype.isSupportedFloat = false then
        throw (invalidArgumentError
          s!"PackedLinear: bias dtype must be f32/f16/bf16, got {bias.dtype.toString}")
      if bias.dim 0 ≠ weight.dim 0 then
        throw (invalidArgumentError
          s!"PackedLinear: bias length {bias.dim 0} must equal out_features {weight.dim 0}")

/-- `PackedLinear::Create`. -/
def create (arith : Arithmetic β) (schedule : Schedule) (fresh : Uninitialized β)
    (weight : StoredTensor β) (bias : Option (StoredTensor β)) :
    Checked (StatusOr (PackedLinear β)) :=
  match validate weight bias with
  | .error status => pure (.error status)
  | .ok () => do
      let outFeatures := weight.dim 0
      let inFeatures := weight.dim 1
      let biasF32 := bias.map fun b => b.storage.widened arith
      let packed := fresh.like (Kernels.packedWeightElements outFeatures inFeatures) weight.storage
      let packed ← packInto arith schedule weight.storage outFeatures inFeatures packed
      pure (.ok ⟨packed, biasF32, inFeatures, outFeatures⟩)

/-- The checks of `forward`. -/
def requireForward (self : PackedLinear β) (x y : StoredTensor β) : StatusOr Unit := do
  if x.dtype ≠ .float32 then
    throw (invalidArgumentError
      s!"PackedLinear::forward: x must be fp32, got {x.dtype.toString}")
  if x.rank ≠ 2 ∨ x.dim 1 ≠ self.inFeatures then
    throw (invalidArgumentError
      s!"PackedLinear::forward: x must be [T, {self.inFeatures}], got {formatDims x.dims}")
  if x.contiguous = false then
    throw (invalidArgumentError "PackedLinear::forward: x must be contiguous")
  if y.dtype ≠ .float32 then
    throw (invalidArgumentError
      s!"PackedLinear::forward: y must be fp32, got {y.dtype.toString}")
  if y.rank ≠ 2 ∨ y.dim 0 ≠ x.dim 0 ∨ y.dim 1 ≠ self.outFeatures then
    throw (invalidArgumentError
      (s!"PackedLinear::forward: y must be caller-allocated [{x.dim 0}, {self.outFeatures}], " ++
        s!"got {formatDims y.dims}"))
  if y.contiguous = false then
    throw (invalidArgumentError "PackedLinear::forward: y must be contiguous")

/-- `PackedLinear::forward`: the stores into `y`. -/
def forward (self : PackedLinear β) (arith : Arithmetic β) (schedule : Schedule)
    (x y : StoredTensor β) : Checked (StatusOr (List (Nat × β))) :=
  match self.requireForward x y with
  | .error status => pure (.error status)
  | .ok () => do
      let xData ← x.floats
      let log ← Kernels.packedGemm arith schedule xData (x.dim 0) self.inFeatures self.packed
        self.outFeatures self.bias
      pure (.ok log)

end PackedLinear

/-- `OptimizedEmbedding`; the dtype comes with the source. -/
structure OptimizedEmbedding (β : Type) where
  source : Elements β
  packed : Bool
  vocabSize : Nat
  hiddenSize : Nat

namespace OptimizedEmbedding

/-- `FromTable`. -/
def fromTable (table : StoredTensor β) : StatusOr (OptimizedEmbedding β) := do
  if table.rank ≠ 2 then
    throw (invalidArgumentError
      s!"OptimizedEmbedding: weight must be rank-2 [V, E], got rank-{table.rank}")
  if table.contiguous = false then
    throw (invalidArgumentError "OptimizedEmbedding: weight must be contiguous")
  if table.dtype.isSupportedFloat = false then
    throw (invalidArgumentError
      s!"OptimizedEmbedding: weight dtype must be f32/f16/bf16, got {table.dtype.toString}")
  pure ⟨table.storage, false, table.dim 0, table.dim 1⟩

/-- `FromPackedLinear`. -/
def fromPackedLinear (lmHead : PackedLinear β) : OptimizedEmbedding β :=
  ⟨lmHead.packed, true, lmHead.outFeatures, lmHead.inFeatures⟩

/-- The scan of `forward` over the ids, from the `t`-th on. -/
def scanIds (vocabSize : Nat) : (t : Nat) → List Int → StatusOr Unit
  | _, [] => .ok ()
  | t, id :: rest =>
      if id < 0 ∨ (vocabSize : Int) ≤ id then
        .error (invalidArgumentError
          (s!"OptimizedEmbedding::forward: ids[{t}] = {id} is out of range for vocab " ++
            s!"size {vocabSize}"))
      else scanIds vocabSize (t + 1) rest

/-- The checks of `forward`. -/
def requireForward (self : OptimizedEmbedding β) (ids : List Int) (y : StoredTensor β) :
    StatusOr Unit := do
  let rows := ids.length
  if rows < 1 then
    throw (invalidArgumentError s!"OptimizedEmbedding::forward: need T>=1 ids, got {rows}")
  if y.dtype ≠ .float32 then
    throw (invalidArgumentError
      s!"OptimizedEmbedding::forward: y must be fp32, got {y.dtype.toString}")
  if y.rank ≠ 2 ∨ y.dim 0 ≠ rows ∨ y.dim 1 ≠ self.hiddenSize then
    throw (invalidArgumentError
      (s!"OptimizedEmbedding::forward: y must be caller-allocated [{rows}, {self.hiddenSize}], " ++
        s!"got {formatDims y.dims}"))
  if y.contiguous = false then
    throw (invalidArgumentError "OptimizedEmbedding::forward: y must be contiguous")
  scanIds self.vocabSize 0 ids

/-- `forward`: the stores into `y`. -/
def forward (self : OptimizedEmbedding β) (arith : Arithmetic β) (schedule : Schedule)
    (ids : List Int) (y : StoredTensor β) : Checked (StatusOr (List (Nat × β))) :=
  match self.requireForward ids y with
  | .error status => pure (.error status)
  | .ok () => do
      let log ←
        if self.packed then
          Kernels.embeddingLookupPackedF32 arith schedule self.source self.hiddenSize ids ids.length
        else
          Kernels.embeddingLookupF32 arith schedule self.source self.hiddenSize ids ids.length
      pure (.ok log)

end OptimizedEmbedding

end InferenceEngine
