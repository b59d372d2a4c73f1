/-
What a cache holds, without saying where.

The abstract cache is a log: for each layer, the rows of keys and values appended to it, in
order.  An append extends one layer, a truncation cuts them all.  Both implementations are
read as such a log below, and a view is correct when its tensors are the log of its layer in
head-major order.
-/
import InferenceEngine.KvCache.PagedKvCache
import InferenceEngine.KvCache.SimpleKvCache

namespace InferenceEngine

open FlatMemory

variable {α : Type}

/-- The keys and values of one token in one layer, by head and coordinate. -/
structure TokenRow (α : Type) where
  k : Int → Int → α
  v : Int → Int → α

/-- A row has `Hkv * d` elements; outside them it is zero, so that equal rows are equal. -/
def clip [Zero α] (geom : CacheGeometry) (f : Int → Int → α) : Int → Int → α :=
  fun h e => if (0 ≤ h ∧ h < geom.numKvHeads) ∧ 0 ≤ e ∧ e < geom.headDim then f h e else 0

/-- The abstract cache. -/
@[ext]
structure KvLog (α : Type) where
  rows : Int → List (TokenRow α)

namespace KvLog

/-- Some rows at the end of a layer. -/
def append (g : KvLog α) (layer : Int) (new : List (TokenRow α)) : KvLog α :=
  ⟨fun l => if l = layer then g.rows l ++ new else g.rows l⟩

/-- The first `n` rows of every layer. -/
def truncate (g : KvLog α) (n : Nat) : KvLog α := ⟨fun l => (g.rows l).take n⟩

theorem append_rows (g : KvLog α) (layer : Int) (new : List (TokenRow α)) (l : Int) :
    (g.append layer new).rows l = if l = layer then g.rows l ++ new else g.rows l := rfl

theorem truncate_rows (g : KvLog α) (n : Nat) (l : Int) :
    (g.truncate n).rows l = (g.rows l).take n := rfl

end KvLog

/-- The rows of a token-major block `[T, Hkv, d]`. -/
def appendRows [Zero α] (geom : CacheGeometry) (k v : Tensor α) : List (TokenRow α) :=
  (List.range (k.dim 0)).map fun t : Nat =>
    { k := clip geom fun h e => k.data ((t * geom.numKvHeads + h) * geom.headDim + e)
      v := clip geom fun h e => v.data ((t * geom.numKvHeads + h) * geom.headDim + e) }

/-- `t` is the head-major tensor of one operand of a log. -/
structure IsHeadMajor (geom : CacheGeometry) (rows : List (Int → Int → α)) (t : Tensor α) :
    Prop where
  dims : t.dims = [geom.numKvHeads.toNat, rows.length, geom.headDim.toNat]
  dtype : t.dtype = .float32
  contiguous : t.contiguous = true
  data : ∀ h, 0 ≤ h ∧ h < geom.numKvHeads → ∀ e, 0 ≤ e ∧ e < geom.headDim →
    ∀ (pos : Nat) (hpos : pos < rows.length),
      t.data ((h * rows.length + pos) * geom.headDim + e) = rows[pos] h e

/-- `view` shows exactly `rows`. -/
structure IsView (geom : CacheGeometry) (rows : List (TokenRow α)) (view : KvView α) : Prop where
  k : IsHeadMajor geom (rows.map TokenRow.k) view.k
  v : IsHeadMajor geom (rows.map TokenRow.v) view.v

/-! ### The two caches as logs

A log is the rows each layer shows and the number of tokens committed.  What is in the slots
beyond is not part of it. -/

variable [Zero α]

/-- The row stored at a flat slot of one layer. -/
def BlockPool.rowAt (p : BlockPool α) (layer slot : Int) : TokenRow α where
  k := clip p.geom fun h e =>
    p.kSlabs layer (cell p.geom.numKvHeads p.geom.headDim p.blockSize slot h e)
  v := clip p.geom fun h e =>
    p.vSlabs layer (cell p.geom.numKvHeads p.geom.headDim p.blockSize slot h e)

/-- What a paged cache holds. -/
def PagedKvCache.log (c : PagedKvCache) (p : BlockPool α) : KvLog α where
  rows := fun layer =>
    if 0 ≤ layer ∧ layer < p.geom.numLayers then
      (List.range (c.visible layer).toNat).map fun pos =>
        p.rowAt layer (BlockTable.slotAt c.table.blocks p.blockSize pos)
    else []

/-- The row stored at a position of one layer. -/
def SimpleKvCache.rowAt (c : SimpleKvCache α) (layer : Int) (pos : Nat) : TokenRow α where
  k := clip c.geom fun h e =>
    c.kStore (((layer * c.geom.numKvHeads + h) * c.capacity + pos) * c.geom.headDim + e)
  v := clip c.geom fun h e =>
    c.vStore (((layer * c.geom.numKvHeads + h) * c.capacity + pos) * c.geom.headDim + e)

/-- What a contiguous cache holds. -/
def SimpleKvCache.log (c : SimpleKvCache α) : KvLog α where
  rows := fun layer =>
    if 0 ≤ layer ∧ layer < c.geom.numLayers then
      (List.range (c.layerFill layer)).map fun pos => c.rowAt layer pos
    else []

end InferenceEngine
