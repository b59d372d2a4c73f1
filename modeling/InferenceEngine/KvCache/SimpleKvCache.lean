/-
The contiguous cache: `kvcache/simple_cache.h` and `simple_cache.cpp`.

Each store is one buffer `[num_layers, Hkv, capacity, d]`, and `fill` is how far each layer
has been written.
-/
import InferenceEngine.KvCache.KvCache

namespace InferenceEngine

open FlatMemory

/-- `kvcache::SimpleKvCache`. -/
structure SimpleKvCache (α : Type) where
  geom : CacheGeometry
  capacity : Int
  kStore : Int → α
  vStore : Int → α
  fill : List Nat

namespace SimpleKvCache

variable {α : Type}

/-- `SimpleKvCache::Create`.  The stores are taken to be allocated. -/
def create [Zero α] (geom : CacheGeometry) (capacity : Int) : StatusOr (SimpleKvCache α) :=
  if geom.numLayers < 1 ∨ geom.numKvHeads < 1 ∨ geom.headDim < 1 then
    .error (invalidArgumentError
      (s!"SimpleKvCache::Create: geometry must be positive, got num_layers={geom.numLayers}, " ++
       s!"num_kv_heads={geom.numKvHeads}, head_dim={geom.headDim}"))
  else if capacity < 1 then
    .error (invalidArgumentError
      s!"SimpleKvCache::Create: capacity must be >= 1, got {capacity}")
  else if geom.dtype ≠ .float32 then
    .error (unimplementedError
      (s!"SimpleKvCache::Create: v0 stores fp32 K/V; dtype {geom.dtype.toString} arrives with " ++
       "M13's INT8 KV cache"))
  else
    .ok
      { geom := geom
        capacity := capacity
        kStore := fun _ => 0
        vStore := fun _ => 0
        fill := List.replicate geom.numLayers.toNat 0 }

/-- `length()`: the least fill of any layer. -/
def length (c : SimpleKvCache α) : Nat := c.fill.min?.getD 0

/-- `fill_[layer]`. -/
def layerFill (c : SimpleKvCache α) (layer : Int) : Nat := c.fill.getD layer.toNat 0

/-- The transposing copy of `append`: `src[t, h, e]` to `store[layer, h, old + t, e]`. -/
def scatter (c : SimpleKvCache α) (layer : Int) (tDim old : Nat) (src : Int → α)
    (store : Int → α) : Int → α :=
  let hkv := c.geom.numKvHeads
  let d := c.geom.headDim
  let layerBase := layer * hkv
  (indices tDim).foldl (fun store t =>
    (indices hkv).foldl (fun store h =>
      copyLoop store (((layerBase + h) * c.capacity + (old + t)) * d) src ((t * hkv + h) * d) d)
      store) store

/-- `SimpleKvCache::append`. -/
def append (c : SimpleKvCache α) (layer : Int) (k v : Tensor α) :
    StatusOr Unit × SimpleKvCache α :=
  match validateAppend "SimpleKvCache" c.geom layer k v with
  | .error status => (.error status, c)
  | .ok _ =>
    let tDim := k.dim 0
    let old := c.layerFill layer
    let next := old + tDim
    if c.capacity < next then
      (.error (resourceExhaustedError
        (s!"SimpleKvCache::append: layer {layer} fill {old} + {tDim} exceeds capacity " ++
         s!"{c.capacity}")), c)
    else
      (.ok (),
        { c with
          kStore := c.scatter layer tDim old k.data c.kStore
          vStore := c.scatter layer tDim old v.data c.vStore
          fill := c.fill.set layer.toNat next })

/-- The gathering copy of `view` into a zero-filled tensor. -/
def gather [Zero α] (c : SimpleKvCache α) (layer : Int) (fill : Nat) (store : Int → α) :
    Int → α :=
  let hkv := c.geom.numKvHeads
  let d := c.geom.headDim
  let layerBase := layer * hkv
  (indices hkv).foldl (fun out h =>
    copyLoop out (h * fill * d) store ((layerBase + h) * c.capacity * d) (fill * d)) (fun _ => 0)

/-- `SimpleKvCache::view`. -/
def view [Zero α] (c : SimpleKvCache α) (layer : Int) : StatusOr (KvView α) :=
  match validateViewLayer "SimpleKvCache::view" c.geom layer with
  | .error status => .error status
  | .ok _ =>
    let fill := c.layerFill layer
    .ok
      { k := headMajor c.geom fill (c.gather layer fill c.kStore)
        v := headMajor c.geom fill (c.gather layer fill c.vStore) }

/-- `SimpleKvCache::truncate`. -/
def truncate (c : SimpleKvCache α) (newLength : Int) : StatusOr Unit × SimpleKvCache α :=
  if newLength < 0 ∨ (c.length : Int) < newLength then
    (.error (invalidArgumentError
      s!"SimpleKvCache::truncate: new_length {newLength} out of range [0, {c.length}]"), c)
  else (.ok (), { c with fill := c.fill.map fun _ => newLength.toNat })

end SimpleKvCache

end InferenceEngine
