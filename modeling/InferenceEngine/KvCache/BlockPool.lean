/-
The block pool: `kvcache/block_pool.h` and `block_pool.cpp`.

A pool is bookkeeping over slabs: a free list used as a stack, a reference count for each
block, three counters, and for each layer one slab of keys and one of values.  The mutex is
not modelled: every operation below runs inside one critical section of the code.

The head of `freeList` is the back of the vector `free_list_`, the end the code pushes to
and pops from.  Block ids are kept as integers, because the constructor casts them to 32
bits and a cast id can be negative.

A reference count is an `int32_t`.  `Release` checks that it is positive, so it is never
negative and is a natural number here; `Share` is where it can leave its type.
-/
import InferenceEngine.Core.Integer
import InferenceEngine.KvCache.KvCache
import InferenceEngine.Tensor.Tensor
import Mathlib.Logic.Function.Basic

namespace InferenceEngine

open FlatMemory

/-- `kvcache::BlockPool`. -/
structure BlockPool (α : Type) where
  geom : CacheGeometry
  blockSize : Nat
  numBlocks : Nat
  kSlabs : Int → Int → α
  vSlabs : Int → Int → α
  refcounts : Int → Nat
  freeList : List Int
  used : Nat
  peakUsed : Nat
  exhaustions : Nat

namespace BlockPool

variable {α : Type}

/-- `IsValidBlockSize`. -/
def isValidBlockSize (blockSize : Int) : Bool :=
  blockSize = 8 || blockSize = 16 || blockSize = 32 || blockSize = 64

/-- `ValidateGeometry`. -/
def validateGeometry (geom : CacheGeometry) : StatusOr Unit :=
  if geom.numLayers < 1 ∨ geom.numKvHeads < 1 ∨ geom.headDim < 1 then
    .error (invalidArgumentError
      (s!"BlockPool: geometry must be positive, got num_layers={geom.numLayers}, " ++
       s!"num_kv_heads={geom.numKvHeads}, head_dim={geom.headDim}"))
  else if geom.dtype ≠ .float32 then
    .error (unimplementedError
      (s!"BlockPool: v0 stores fp32 K/V; dtype {geom.dtype.toString} arrives with M13's INT8 KV " ++
       "cache"))
  else .ok ()

/-- The constructor: descending pushes, so that block 0 is the first to be handed out. -/
def new [Zero α] (geom : CacheGeometry) (blockSize numBlocks : Nat) : BlockPool α where
  geom := geom
  blockSize := blockSize
  numBlocks := numBlocks
  kSlabs := fun _ _ => 0
  vSlabs := fun _ _ => 0
  refcounts := fun _ => 0
  freeList := (List.range numBlocks).map fun b : Nat => toInt32 b
  used := 0
  peakUsed := 0
  exhaustions := 0

/-- `BlockPool::Create`.  The slabs are taken to be allocated. -/
def create [Zero α] (geom : CacheGeometry) (blockSize numBlocks : Int) :
    StatusOr (BlockPool α) := do
  validateGeometry geom
  if !isValidBlockSize blockSize then
    throw (invalidArgumentError
      (s!"BlockPool::Create: block_size must be one of \x7b8, 16, 32, 64\x7d (paged-kv-cache.md " ++
       s!"§4), got {blockSize}"))
  if numBlocks < 1 then
    throw (invalidArgumentError
      s!"BlockPool::Create: num_blocks must be >= 1, got {numBlocks}")
  let slabElems := [geom.numKvHeads, blockSize, geom.headDim].foldlM mulOverflow numBlocks
  match slabElems with
  | none => throw (invalidArgumentError
      (s!"BlockPool::Create: slab element count overflows int64 (num_blocks={numBlocks}, " ++
       s!"num_kv_heads={geom.numKvHeads}, block_size={blockSize}, head_dim={geom.headDim})"))
  | some elems =>
    match mulOverflow elems 4 with
    | none => throw (invalidArgumentError
        "BlockPool::Create: slab byte size overflows int64")
    | some _ => pure (new geom blockSize.toNat numBlocks.toNat)

/-- `block_in_range`. -/
def blockInRange (p : BlockPool α) (block : Int) : Bool :=
  0 ≤ block && block < p.numBlocks

/-- `refcount_[block] = n`. -/
def setRefcount (p : BlockPool α) (block : Int) (n : Nat) : BlockPool α :=
  { p with refcounts := Function.update p.refcounts block n }

/-- `BlockPool::Allocate`.  The write to `refcount_` is unchecked in the code: a block
outside the vector is undefined behaviour. -/
def allocate (p : BlockPool α) : Checked (StatusOr Int × BlockPool α) :=
  match p.freeList with
  | [] => .ok (.error (resourceExhaustedError
      s!"BlockPool::Allocate: no free blocks ({p.used} of {p.numBlocks} in use)"),
      { p with exhaustions := p.exhaustions + 1 })
  | block :: rest =>
      if p.blockInRange block then
        .ok (.ok block,
          { p.setRefcount block 1 with
            freeList := rest
            used := p.used + 1
            peakUsed := max p.peakUsed (p.used + 1) })
      else .error .outOfBounds

/-- `BlockPool::Share`. -/
def share (p : BlockPool α) (block : Int) : Checked (BlockPool α) := do
  check (p.blockInRange block)
    s!"BlockPool::Share: block {block} out of range [0, {p.numBlocks})"
  check (0 < p.refcounts block)
    (s!"BlockPool::Share: block {block} is free (refcount 0) — sharing what nobody owns is a " ++
     "programmer error")
  let rc ← int32Nat (p.refcounts block + 1)
  pure (p.setRefcount block rc)

/-- `BlockPool::Release`. -/
def release (p : BlockPool α) (block : Int) : Checked (BlockPool α) := do
  check (p.blockInRange block)
    s!"BlockPool::Release: block {block} out of range [0, {p.numBlocks})"
  check (0 < p.refcounts block)
    (s!"BlockPool::Release: block {block} is already free (refcount 0) — double free is a " ++
     "programmer error")
  let p := p.setRefcount block (p.refcounts block - 1)
  if p.refcounts block = 0 then
    pure { p with freeList := block :: p.freeList, used := p.used - 1 }
  else pure p

/-- `free_blocks`. -/
def freeBlocks (p : BlockPool α) : Int := p.numBlocks - p.used

/-- `blocks_needed`: the block boundaries that `addTokens` more tokens cross. -/
def blocksNeeded (p : BlockPool α) (curTokens addTokens : Int) : Checked Int := do
  check (0 ≤ curTokens && 0 ≤ addTokens)
    s!"BlockPool::blocks_needed: cur_tokens ({curTokens}) and add_tokens ({addTokens}) must be >= 0"
  let bs : Int := p.blockSize
  let before := (curTokens + bs - 1).tdiv bs
  let after := (curTokens + addTokens + bs - 1).tdiv bs
  pure (after - before)

/-- `k_slab(layer)`. -/
def kSlab (p : BlockPool α) (layer : Int) : Checked (Int → α) := do
  check (0 ≤ layer && layer < p.geom.numLayers)
    s!"BlockPool::k_slab: layer {layer} out of range [0, {p.geom.numLayers})"
  pure (p.kSlabs layer)

/-- `v_slab(layer)`. -/
def vSlab (p : BlockPool α) (layer : Int) : Checked (Int → α) := do
  check (0 ≤ layer && layer < p.geom.numLayers)
    s!"BlockPool::v_slab: layer {layer} out of range [0, {p.geom.numLayers})"
  pure (p.vSlabs layer)

/-- The slabs of one layer after a kernel wrote through the two pointers. -/
def writeSlabs (p : BlockPool α) (layer : Int) (k v : Int → α) : BlockPool α :=
  { p with
    kSlabs := Function.update p.kSlabs layer k
    vSlabs := Function.update p.vSlabs layer v }

/-! ### Sizes at 64 bits

The capacity arithmetic: `BytesPerBlock`, `NumBlocksForBudget`, and the products the constructor,
`Create` and `total_bytes` form.  `none` stands where a product, an intermediate one included, does
not fit: `BytesPerBlock` and `Create` test for that, the others do not. -/

/-- A product at 64 bits, from the left. -/
def product (first : Int) (factors : List Int) : Option Int :=
  factors.foldlM mulOverflow first

/-- `BytesPerBlock`. -/
def bytesPerBlock (geom : CacheGeometry) (blockSize : Int) : Checked (StatusOr Int) :=
  match validateGeometry geom with
  | .error status => pure (.error status)
  | .ok _ =>
    if !isValidBlockSize blockSize then
      pure (.error (invalidArgumentError
        (s!"BlockPool: block_size must be one of \x7b8, 16, 32, 64\x7d (power of two dividing " ++
         s!"kAttnKb=64, paged-kv-cache.md §4), got {blockSize}")))
    else do
      let size ← geom.dtype.itemsize
      match product 2 [geom.numLayers, geom.numKvHeads, blockSize, geom.headDim, size] with
      | none => pure (.error (invalidArgumentError
          (s!"BlockPool: bytes-per-block overflows int64 (num_layers={geom.numLayers}, " ++
           s!"num_kv_heads={geom.numKvHeads}, block_size={blockSize}, " ++
           s!"head_dim={geom.headDim})")))
      | some elems => pure (.ok elems)

/-- `NumBlocksForBudget`. -/
def numBlocksForBudget (geom : CacheGeometry) (blockSize kvBudgetBytes : Int) :
    Checked (StatusOr Int) :=
  if kvBudgetBytes ≤ 0 then
    pure (.error (invalidArgumentError
      s!"BlockPool: kv_budget_bytes must be positive, got {kvBudgetBytes}"))
  else do
    match ← bytesPerBlock geom blockSize with
    | .error status => pure (.error status)
    | .ok bytesPerBlock =>
      let numBlocks := kvBudgetBytes.tdiv bytesPerBlock
      if numBlocks < 1 then
        pure (.error (resourceExhaustedError
          (s!"BlockPool: KV budget {kvBudgetBytes} bytes is below one block ({bytesPerBlock} " ++
           "bytes/block) — the model does not fit the budget")))
      else pure (.ok numBlocks)

/-- `slab_elems` of `Create`. -/
def slabElems64 (p : BlockPool α) : Option Int :=
  product p.numBlocks [p.geom.numKvHeads, p.blockSize, p.geom.headDim]

/-- `slab_bytes()`. -/
def slabBytes64 (p : BlockPool α) : Option Int :=
  p.slabElems64.bind fun elems => mulOverflow elems 4

/-- `block_stride()`. -/
def blockStride64 (p : BlockPool α) : Option Int :=
  product p.geom.numKvHeads [p.blockSize, p.geom.headDim]

/-- `head_stride()`. -/
def headStride64 (p : BlockPool α) : Option Int := product p.blockSize [p.geom.headDim]

/-- `row_stride()`. -/
def rowStride (p : BlockPool α) : Int := p.geom.headDim

/-- `total_bytes()`. -/
def totalBytes64 (p : BlockPool α) : Option Int :=
  p.slabBytes64.bind fun bytes => product bytes [2, p.geom.numLayers]

/-- `pool_.num_blocks() * pool_.block_size()`, the token capacity the engine compares
against. -/
def tokenCapacity64 (p : BlockPool α) : Option Int := mulOverflow p.numBlocks p.blockSize

end BlockPool

end InferenceEngine
