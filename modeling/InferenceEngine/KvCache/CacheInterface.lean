/-
The caches behind one interface: the class `KvCache` of `kvcache/kv_cache.h` and the paged
view that only one of its two implementations has.

A paged cache works on the pool it was built over, so every operation takes the pool and gives
it back.  A contiguous cache passes it through.
-/
import InferenceEngine.KvCache.PagedKvCache
import InferenceEngine.KvCache.SimpleKvCache

namespace InferenceEngine

variable {α : Type}

/-- `block_stride()`: how far apart two blocks of a slab are. -/
def BlockPool.blockStride (p : BlockPool α) : Int :=
  p.geom.numKvHeads * p.blockSize * p.geom.headDim

/-- `kvcache::PagedKvView`: one layer's slabs and the table to read them through. -/
structure PagedKvView (α : Type) where
  kSlab : Int → α
  vSlab : Int → α
  blockTable : List Int
  numBlocks : Nat
  blockSize : Nat
  length : Nat
  blockStride : Int

/-- `PagedKvCache::paged_view`. -/
def PagedKvCache.pagedView (c : PagedKvCache) (layer : Int) (p : BlockPool α) :
    Checked (StatusOr (PagedKvView α)) := do
  match validateViewLayer "PagedKvCache::paged_view" p.geom layer with
  | .error status => return .error status
  | .ok _ =>
    let kSlab ← p.kSlab layer
    let vSlab ← p.vSlab layer
    return .ok
      { kSlab := kSlab
        vSlab := vSlab
        blockTable := c.table.blocks
        numBlocks := c.table.blocks.length
        blockSize := p.blockSize
        length := c.table.numTokens
        blockStride := p.blockStride }

/-- `kvcache::KvCache`. -/
inductive KvCache (α : Type) where
  | paged (c : PagedKvCache)
  | simple (c : SimpleKvCache α)

namespace KvCache

/-- `geometry()`. -/
def geometry (p : BlockPool α) : KvCache α → CacheGeometry
  | .paged _ => p.geom
  | .simple c => c.geom

/-- `length()`. -/
def length : KvCache α → Nat
  | .paged c => c.length
  | .simple c => c.length

/-- `capacity()`. -/
def capacity (p : BlockPool α) : KvCache α → Int
  | .paged c => c.capacity p
  | .simple c => c.capacity

/-- `append`. -/
def append (layer : Int) (k v : Tensor α) (p : BlockPool α) :
    KvCache α → Checked (StatusOr Unit × KvCache α × BlockPool α)
  | .paged c => do
      let (appended, c, p) ← c.append layer k v p
      pure (appended, .paged c, p)
  | .simple c =>
      let (appended, c) := c.append layer k v
      pure (appended, .simple c, p)

/-- What `view` of either class checks before it allocates. -/
def validateView (layer : Int) (p : BlockPool α) : KvCache α → StatusOr Unit
  | .paged _ => validateViewLayer "PagedKvCache::view" p.geom layer
  | .simple c => validateViewLayer "SimpleKvCache::view" c.geom layer

/-- `view`, into the two buffers it has allocated. -/
def view [Zero α] (layer : Int) (p : BlockPool α) (freshK freshV : Int → α) :
    KvCache α → Checked (StatusOr (KvView α))
  | .paged c => c.view layer p freshK freshV
  | .simple c => .ok (c.view layer)

/-- `paged_view`, which the interface itself answers with `Unimplemented`. -/
def pagedView (layer : Int) (p : BlockPool α) : KvCache α → Checked (StatusOr (PagedKvView α))
  | .paged c => c.pagedView layer p
  | .simple _ => .ok (.error (unimplementedError "paged_view: cache is not paged"))

end KvCache

end InferenceEngine
