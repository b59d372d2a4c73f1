/-
The paged cache of one sequence: `kvcache/paged_cache.h`, `paged_cache.cpp` and
`paged_gather.cpp`.

Layer 0 of a forward grows the block table and computes the slots of the new tokens, and
the layers after it reuse those slots.  `nextLayer` is the layer the protocol expects, 0
between forwards.
-/
import InferenceEngine.KvCache.BlockTable
import InferenceEngine.Kernels.KvCopy

namespace InferenceEngine

/-- `kvcache::PagedKvCache`, without its pool pointer. -/
structure PagedKvCache where
  table : BlockTable
  pendingSlots : List Int
  nextLayer : Int
deriving DecidableEq, Repr

/-- `GatherLayerKV`.  The output buffers are fresh and hold `freshK` and `freshV`. -/
def gatherLayerKV {α : Type} (p : BlockPool α) (t : BlockTable) (layer length : Int)
    (freshK freshV : Int → α) : Checked (StatusOr (KvView α)) := do
  match validateViewLayer "GatherLayerKV" p.geom layer with
  | .error status => return .error status
  | .ok _ =>
    if length < 0 ∨ (t.numTokens : Int) < length then
      return .error (invalidArgumentError
        s!"GatherLayerKV: length {length} out of range [0, {t.numTokens}]")
    let hkv := p.geom.numKvHeads
    let d := p.geom.headDim
    let kSlab ← p.kSlab layer
    let vSlab ← p.vSlab layer
    return .ok
      { k := headMajor p.geom length.toNat
          (kvGather kSlab t.blocks p.blockSize length hkv d freshK)
        v := headMajor p.geom length.toNat
          (kvGather vSlab t.blocks p.blockSize length hkv d freshV) }

namespace PagedKvCache

variable {α : Type}

/-- A cache as constructed. -/
def new : PagedKvCache := ⟨.empty, [], 0⟩

/-- `length()`. -/
def length (c : PagedKvCache) : Nat := c.table.numTokens

/-- The length committed before the forward in progress. -/
def base (c : PagedKvCache) : Nat :=
  if c.nextLayer = 0 then c.table.numTokens else c.table.numTokens - c.pendingSlots.length

/-- `capacity()`: the slots owned and the slots free now. -/
def capacity (c : PagedKvCache) (p : BlockPool α) : Int :=
  (c.table.blocks.length : Int) * p.blockSize + p.freeBlocks * p.blockSize

/-- The slots this append writes: layer 0 grows the table, later layers reuse its slots. -/
def openLayer (c : PagedKvCache) (layer : Int) (tDim : Nat) (p : BlockPool α) :
    Checked (StatusOr Unit × PagedKvCache × BlockPool α) := do
  if layer = 0 then
    let (grown, table, p) ← c.table.appendTokens tDim p
    match grown with
    | .error status => return (.error status, { c with table := table, pendingSlots := [] }, p)
    | .ok slots => return (.ok (), { c with table := table, pendingSlots := slots }, p)
  else if tDim ≠ c.pendingSlots.length then
    return (.error (invalidArgumentError
      (s!"PagedKvCache::append: layer {layer} T ({tDim}) must match this forward's token batch " ++
       s!"({c.pendingSlots.length} from layer 0)")), c, p)
  else return (.ok (), c, p)

/-- `PagedKvCache::append`. -/
def append (c : PagedKvCache) (layer : Int) (k v : Tensor α) (p : BlockPool α) :
    Checked (StatusOr Unit × PagedKvCache × BlockPool α) := do
  match validateAppend "PagedKvCache" p.geom layer k v with
  | .error status => return (.error status, c, p)
  | .ok _ =>
    let tDim := k.dim 0
    if layer ≠ c.nextLayer then
      return (.error (invalidArgumentError
        (s!"PagedKvCache::append: expected layer {c.nextLayer} next (append in layer order, " ++
         s!"once per layer per forward), got {layer}")), c, p)
    let (opened, c, p) ← c.openLayer layer tDim p
    match opened with
    | .error status => return (.error status, c, p)
    | .ok _ =>
      let hkv := p.geom.numKvHeads
      let d := p.geom.headDim
      let kSlab ← p.kSlab layer
      let vSlab ← p.vSlab layer
      let p := p.writeSlabs layer
        (scatterRange k.data c.pendingSlots tDim hkv d p.blockSize kSlab)
        (scatterRange v.data c.pendingSlots tDim hkv d p.blockSize vSlab)
      return (.ok (), { c with nextLayer := (layer + 1).tmod p.geom.numLayers }, p)

/-- The tokens of a layer that `view` exposes: a layer that has not yet written this forward's
tokens shows only those committed before it. -/
def visible (c : PagedKvCache) (layer : Int) : Int :=
  if c.nextLayer = 0 ∨ layer < c.nextLayer then c.table.numTokens
  else (c.table.numTokens : Int) - c.pendingSlots.length

/-- `PagedKvCache::view`. -/
def view (c : PagedKvCache) (layer : Int) (p : BlockPool α) (freshK freshV : Int → α) :
    Checked (StatusOr (KvView α)) :=
  match validateViewLayer "PagedKvCache::view" p.geom layer with
  | .error status => .ok (.error status)
  | .ok _ => gatherLayerKV p c.table layer (c.visible layer) freshK freshV

/-- `PagedKvCache::truncate`. -/
def truncate (c : PagedKvCache) (newLength : Int) (p : BlockPool α) :
    Checked (StatusOr Unit × PagedKvCache × BlockPool α) := do
  let (truncated, table, p) ← c.table.truncate newLength p
  match truncated with
  | .error status => return (.error status, { c with table := table }, p)
  | .ok _ => return (.ok (), ⟨table, [], 0⟩, p)

/-- `~PagedKvCache`: the table gives its blocks back. -/
def destroy (c : PagedKvCache) (p : BlockPool α) : Checked (BlockPool α) := do
  let (_, p) ← c.table.freeAll p
  pure p

end PagedKvCache

end InferenceEngine
