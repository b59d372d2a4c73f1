/-
Paged caches over one pool, each beside a contiguous cache of its own.

Every call is made on both caches of a pair, so that what they answer can be compared.  The
callers keep to the contract of `kv_cache.h`: a forward appends its layers in order, each
with the tokens of layer 0, and a truncation does not reach into the forward in progress.
A cache that has been moved from is only ever destroyed, so a move renames its pair.
-/
import InferenceEngine.KvCache.PagedKvCache
import InferenceEngine.KvCache.SimpleKvCache
import InferenceEngine.Lib.IdMap
import InferenceEngine.Lib.Transition

namespace InferenceEngine

/-- A paged cache and the contiguous cache driven by the same calls. -/
structure CachePair (α : Type) where
  paged : PagedKvCache
  simple : SimpleKvCache α

/-- One pool and the pairs over it. -/
structure PairedCaches (α : Type) where
  pool : BlockPool α
  caches : IdMap (CachePair α)

/-- One call, made on both caches of a pair. -/
inductive CacheCall (α : Type) where
  | construct (id : Nat) (capacity : Int)
  | append (id : Nat) (layer : Int) (k v : Tensor α)
  | truncate (id : Nat) (newLength : Int)
  | move (source target : Nat)
  | destroy (id : Nat)

namespace PairedCaches

variable {α : Type} [Zero α]

/-- The pair with an id; a dangling one is a null pointer. -/
def pair (s : PairedCaches α) (id : Nat) : Checked (CachePair α) :=
  match s.caches.lookup id with
  | some c => .ok c
  | none => .error .nullDereference

/-- One call: the answer of the paged cache, that of the contiguous one, and the state. -/
def run (s : PairedCaches α) :
    CacheCall α → Checked (StatusOr Unit × StatusOr Unit × PairedCaches α)
  | .construct id capacity =>
      match SimpleKvCache.create s.pool.geom capacity with
      | .error status => pure (.ok (), .error status, s)
      | .ok simple =>
          pure (.ok (), .ok (), { s with caches := s.caches.insert id ⟨.new, simple⟩ })
  | .append id layer k v => do
      let c ← s.pair id
      let (r, paged, pool) ← c.paged.append layer k v s.pool
      let (r', simple) := c.simple.append layer k v
      pure (r, r', { pool := pool, caches := s.caches.insert id ⟨paged, simple⟩ })
  | .truncate id newLength => do
      let c ← s.pair id
      let (r, paged, pool) ← c.paged.truncate newLength s.pool
      let (r', simple) := c.simple.truncate newLength
      pure (r, r', { pool := pool, caches := s.caches.insert id ⟨paged, simple⟩ })
  | .move source target => do
      let c ← s.pair source
      pure (.ok (), .ok (), { s with caches := (s.caches.erase source).insert target c })
  | .destroy id => do
      let c ← s.pair id
      let pool ← c.paged.destroy s.pool
      pure (.ok (), .ok (), { pool := pool, caches := s.caches.erase id })

/-- What the callers keep to. -/
def Legal (s : PairedCaches α) : CacheCall α → Prop
  | .construct id capacity =>
      id ∉ s.caches ∧ ∃ simple, SimpleKvCache.create (α := α) s.pool.geom capacity = .ok simple
  | .append id layer k v => ∃ c, s.caches.lookup id = some c ∧
      (validateAppend "PagedKvCache" s.pool.geom layer k v = .ok () →
        layer = c.paged.nextLayer ∧ (layer ≠ 0 → k.dim 0 = c.paged.pendingSlots.length))
  | .truncate id newLength => ∃ c, s.caches.lookup id = some c ∧
      (newLength ≤ c.paged.base ∨ (c.paged.length : Int) < newLength)
  | .move source target => source ∈ s.caches ∧ target ∉ s.caches
  | .destroy id => id ∈ s.caches

instance (s : PairedCaches α) : DecidablePred s.Legal
  | .construct id capacity => by
      refine decidable_of_iff
        (id ∉ s.caches ∧ (SimpleKvCache.create (α := α) s.pool.geom capacity).toOption.isSome)
        (and_congr_right fun _ => ?_)
      cases SimpleKvCache.create (α := α) s.pool.geom capacity <;> simp [Except.toOption]
  | .append id layer k v =>
      inferInstanceAs (Decidable (∃ c, c ∈ s.caches.lookup id ∧
        (validateAppend "PagedKvCache" s.pool.geom layer k v = .ok () →
          layer = c.paged.nextLayer ∧ (layer ≠ 0 → k.dim 0 = c.paged.pendingSlots.length))))
  | .truncate id newLength =>
      inferInstanceAs (Decidable (∃ c, c ∈ s.caches.lookup id ∧
        (newLength ≤ c.paged.base ∨ (c.paged.length : Int) < newLength)))
  | .move source target =>
      inferInstanceAs (Decidable (source ∈ s.caches ∧ target ∉ s.caches))
  | .destroy id => inferInstanceAs (Decidable (id ∈ s.caches))

/-- Every contiguous cache has room for what its paged cache holds. -/
def Fits (s : PairedCaches α) : Prop :=
  ∀ id c, s.caches.lookup id = some c → (c.paged.length : Int) ≤ c.simple.capacity

instance (s : PairedCaches α) : Decidable s.Fits :=
  decidable_of_iff
    (∀ e ∈ s.caches.entries, (e.2.paged.length : Int) ≤ e.2.simple.capacity)
    ⟨fun h id c hc => h ⟨id, c⟩ (IdMap.lookup_eq_some_iff.mp hc),
      fun h e he => h e.1 e.2 (IdMap.lookup_eq_some_iff.mpr he)⟩

/-- The state after a call the system admits. -/
def next (s : PairedCaches α) (call : CacheCall α) : Option (PairedCaches α) := do
  guard (s.Legal call)
  let (r, _, s') ← (s.run call).toOption
  guard (r.code ≠ .resourceExhausted ∧ s'.Fits)
  return s'

/-- Every interleaving of legal calls during which no append finds the pool exhausted. -/
def system (geom : CacheGeometry) (blockSize numBlocks : Int) :
    Transition (PairedCaches α) (CacheCall α) where
  init := fun s => BlockPool.create geom blockSize numBlocks = .ok s.pool ∧ s.caches = ∅
  step := fun s call s' => s.Legal call ∧ s'.Fits ∧
    ∃ r r', s.run call = .ok (r, r', s') ∧ r.code ≠ .resourceExhausted

end PairedCaches

/-- Two answers of `view` a caller cannot tell apart. -/
structure SameView {α : Type} (r r' : StatusOr (KvView α)) : Prop where
  code : r.code = r'.code
  k : ∀ a b, r = .ok a → r' = .ok b → a.k.dims = b.k.dims ∧ a.k.values = b.k.values
  v : ∀ a b, r = .ok a → r' = .ok b → a.v.dims = b.v.dims ∧ a.v.values = b.v.values

end InferenceEngine
