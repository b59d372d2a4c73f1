/-
The arithmetic of a model, row by row: the kernels that `optimized_model.cpp` and
`reference_model.cpp` call.

Every kernel of a forward except attention computes a row of its output from the same row of
its inputs: a norm, a linear layer, RoPE at the row's position, an elementwise operation, a row
of the embedding.  Attention computes a row from its query and from the keys and values before
it.  The kernels are those functions, and nothing else is assumed of them; what is modelled
below is which row reads what.  `parallel_for` gives each row of an output to one worker, so
the rows are written in order here.
-/
import InferenceEngine.KvCache.KvLog
import InferenceEngine.KvCache.CacheInterface

namespace InferenceEngine

variable {α : Type}

/-- `model::ModelConfig`, as far as a forward reads it. -/
structure ModelConfig where
  hiddenSize : Nat
  intermediateSize : Nat
  numLayers : Nat
  numHeads : Nat
  numKvHeads : Nat
  headDim : Nat
  vocabSize : Nat
  maxPositionEmbeddings : Nat
deriving DecidableEq, Repr

namespace ModelConfig

/-- `H * d` -/
def qRows (c : ModelConfig) : Nat := c.numHeads * c.headDim

/-- `Hkv * d` -/
def kvRows (c : ModelConfig) : Nat := c.numKvHeads * c.headDim

/-- `geometry_` -/
def geometry (c : ModelConfig) : CacheGeometry :=
  ⟨c.numLayers, c.numKvHeads, c.headDim, .float32⟩

end ModelConfig

/-- A row of `n` elements. -/
abbrev Row (α : Type) (n : Nat) := Fin n → α

/-- One element of a row; there is none past its end. -/
def Row.get [Zero α] {n : Nat} (r : Row α n) (i : Nat) : α :=
  if h : i < n then r ⟨i, h⟩ else 0

/-- A row-major buffer `[rows, n]`, by its rows. -/
abbrev Slot (α : Type) (n : Nat) := Nat → Row α n

/-- A buffer after a kernel has written `count` rows of it, from row `first` on. -/
def Slot.write {n : Nat} (slot : Slot α n) (first count : Nat) (f : Nat → Row α n) : Slot α n :=
  fun i => if first ≤ i ∧ i < first + count then f (i - first) else slot i

/-- The kernels of a model with its weights. -/
structure RowKernels (α : Type) (c : ModelConfig) where
  embed : Int → Row α c.hiddenSize
  attnNorm : Nat → Row α c.hiddenSize → Row α c.hiddenSize
  qProj : Nat → Row α c.hiddenSize → Row α c.qRows
  kProj : Nat → Row α c.hiddenSize → Row α c.kvRows
  vProj : Nat → Row α c.hiddenSize → Row α c.kvRows
  ropeQ : Int → Row α c.qRows → Row α c.qRows
  ropeK : Int → Row α c.kvRows → Row α c.kvRows
  /-- a query over the keys and values up to its own position -/
  attend : Row α c.qRows → List (TokenRow α) → Row α c.qRows
  oProj : Nat → Row α c.qRows → Row α c.hiddenSize
  add : Row α c.hiddenSize → Row α c.hiddenSize → Row α c.hiddenSize
  mlpNorm : Nat → Row α c.hiddenSize → Row α c.hiddenSize
  gateProj : Nat → Row α c.hiddenSize → Row α c.intermediateSize
  upProj : Nat → Row α c.hiddenSize → Row α c.intermediateSize
  siluMul : Row α c.intermediateSize → Row α c.intermediateSize → Row α c.intermediateSize
  downProj : Nat → Row α c.intermediateSize → Row α c.hiddenSize
  finalNorm : Row α c.hiddenSize → Row α c.hiddenSize
  lmHead : Row α c.hiddenSize → Row α c.vocabSize

section

variable [Zero α] (c : ModelConfig)

/-- Rows `t0, ..., t0 + t - 1` of a key or value buffer as the tensor `[t, Hkv, d]`: a `slice`
and a `reshape`. -/
def tokenBlock (slot : Slot α c.kvRows) (t0 t : Nat) : Tensor α where
  dims := [t, c.numKvHeads, c.headDim]
  dtype := .float32
  contiguous := true
  data := fun i =>
    if 0 ≤ i ∧ i.toNat < t * c.kvRows then
      (slot (t0 + i.toNat / c.kvRows)).get (i.toNat % c.kvRows)
    else 0

/-! ### What attention reads

A row of keys or values by head and position, however it is stored. -/

/-- The rows of a head-major pair `[Hkv, L, d]`. -/
def viewRows (k v : Int → α) (lDim : Nat) : List (TokenRow α) :=
  (List.range lDim).map fun pos : Nat =>
    { k := clip c.geometry fun h e => k ((h * lDim + pos) * c.headDim + e)
      v := clip c.geometry fun h e => v ((h * lDim + pos) * c.headDim + e) }

/-- The rows of a sequence in paged slabs, read through its block table. -/
def pagedRows (kSlab vSlab : Int → α) (blockTable : List Int) (length blockSize : Nat)
    (blockStride : Int) : List (TokenRow α) :=
  (List.range length).map fun pos : Nat =>
    let base := blockTable.getD (pos / blockSize) 0 * blockStride
    let row := ((pos % blockSize : Nat) : Int) * c.headDim
    { k := clip c.geometry fun h e => kSlab (base + h * (blockSize * c.headDim) + row + e)
      v := clip c.geometry fun h e => vSlab (base + h * (blockSize * c.headDim) + row + e) }

end

/-! ### The attention entry points

Which rows of keys and values each of them gives to the kernel, and for which row of the output. -/

namespace RowKernels

variable [Zero α] {c : ModelConfig} (K : RowKernels α c)

/-- Query `t` of the `tDim` that start at row `first`: it sits at position `lDim - tDim + t` and
attends to everything up to it. -/
def prefillRow (q : Slot α c.qRows) (first : Nat) (k v : Int → α) (tDim lDim t : Nat) :
    Row α c.qRows :=
  K.attend (q (first + t)) ((viewRows c k v lDim).take (lDim - tDim + t + 1))

/-- `PrefillAttentionF32`, and `cpu::attention` of the reference. -/
def prefillAttention (q : Slot α c.qRows) (k v : Int → α) (tDim lDim : Nat)
    (out : Slot α c.qRows) : Slot α c.qRows :=
  out.write 0 tDim (K.prefillRow q 0 k v tDim lDim)

/-- `DecodeAttentionF32`. -/
def decodeAttention (q : Slot α c.qRows) (k v : Int → α) (lDim : Nat) (out : Slot α c.qRows) :
    Slot α c.qRows :=
  out.write 0 1 fun _ => K.attend (q 0) (viewRows c k v lDim)

/-- `PrefillAttentionVarlenF32`. -/
def prefillAttentionVarlen (q : Slot α c.qRows) (cu : Nat → Nat) (numSeqs : Nat)
    (kSeqs vSeqs : List (Int → α)) (lDims : List Nat) (out : Slot α c.qRows) : Slot α c.qRows :=
  (List.range numSeqs).foldl (fun out b =>
    let tDim := cu (b + 1) - cu b
    out.write (cu b) tDim
      (K.prefillRow q (cu b) (kSeqs.getD b fun _ => 0) (vSeqs.getD b fun _ => 0) tDim
        (lDims.getD b 0))) out

/-- `PagedDecodeAttentionF32`. -/
def pagedDecodeAttention (q : Slot α c.qRows) (view : PagedKvView α) (out : Slot α c.qRows) :
    Slot α c.qRows :=
  out.write 0 1 fun _ =>
    K.attend (q 0) (pagedRows c view.kSlab view.vSlab view.blockTable view.length
      view.blockSize view.blockStride)

/-- `PagedDecodeAttentionBatchedF32`. -/
def pagedDecodeAttentionBatched (q : Slot α c.qRows) (kSlab vSlab : Int → α)
    (blockTables : List (List Int)) (lengths : List Nat) (numSeqs blockSize : Nat)
    (blockStride : Int) (out : Slot α c.qRows) : Slot α c.qRows :=
  (List.range numSeqs).foldl (fun out b =>
    out.write b 1 fun _ =>
      K.attend (q b) (pagedRows c kSlab vSlab (blockTables.getD b []) (lengths.getD b 0)
        blockSize blockStride)) out

end RowKernels

end InferenceEngine
