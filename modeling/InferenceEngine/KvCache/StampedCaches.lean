/-
Paged caches over one pool, with the history of every slot.

The history is a ghost: no call reads it.  It says for each slot of each layer which cache
wrote it, at which position and with which keys and values, since the block that holds it was
last allocated.  The
contiguous cache beside each paged one makes the appends that the paged one accepted, which
is the state `SimpleKvCache` has to be in for the two `truncate` to be compared.
-/
import InferenceEngine.KvCache.KvLog
import InferenceEngine.KvCache.PairedCaches

namespace InferenceEngine

/-- Who wrote a slot: the id of the cache, the position, and the keys and values it was given. -/
structure Stamp (α : Type) where
  id : Nat
  pos : Nat
  row : TokenRow α

/-- The pairs over one pool, and what was last written to each slot of each layer. -/
structure StampedCaches (α : Type) where
  pairs : PairedCaches α
  stamps : Int → Int → Option (Stamp α)

/-- One call on a paged cache, and the life of the caches. -/
inductive StampedCall (α : Type) where
  | construct (id : Nat) (capacity : Int)
  | append (id : Nat) (layer : Int) (k v : Tensor α)
  | truncate (id : Nat) (newLength : Int)
  | destroy (id : Nat)

namespace StampedCaches

variable {α : Type} [Zero α]

/-- The history after the append of `layer` that took the cache `id` from `c` to `c'`: blocks
allocated to it have no history, and the slots of this forward are written at its positions,
each with its token's row of the appended tensors. -/
def record (stamps : Int → Int → Option (Stamp α)) (geom : CacheGeometry) (blockSize id : Nat)
    (layer : Int) (k v : Tensor α) (c c' : PagedKvCache) : Int → Int → Option (Stamp α) :=
  fun l slot =>
    if l = layer ∧ slot ∈ c'.pendingSlots then
      let t := c'.pendingSlots.idxOf slot
      (appendRows geom k v)[t]?.map fun row => ⟨id, c.base + t, row⟩
    else if slot.tdiv blockSize ∈ c'.table.blocks.drop c.table.blocks.length then none
    else stamps l slot

/-- One call: the answer of the paged cache, and the state. -/
def run (s : StampedCaches α) : StampedCall α → Checked (StatusOr Unit × StampedCaches α)
  | .construct id capacity => do
      let (r, _, pairs) ← s.pairs.run (.construct id capacity)
      pure (r, { s with pairs := pairs })
  | .append id layer k v => do
      let c ← s.pairs.pair id
      let (r, paged, pool) ← c.paged.append layer k v s.pairs.pool
      match r with
      | .error _ =>
          pure (r, { s with
            pairs := { pool := pool, caches := s.pairs.caches.insert id ⟨paged, c.simple⟩ } })
      | .ok _ =>
          let simple := (c.simple.append layer k v).2
          pure (r,
            { pairs := { pool := pool, caches := s.pairs.caches.insert id ⟨paged, simple⟩ }
              stamps := record s.stamps s.pairs.pool.geom s.pairs.pool.blockSize id layer k v
                c.paged paged })
  | .truncate id newLength => do
      let (r, _, pairs) ← s.pairs.run (.truncate id newLength)
      pure (r, { s with pairs := pairs })
  | .destroy id => do
      let (r, _, pairs) ← s.pairs.run (.destroy id)
      pure (r, { s with pairs := pairs })

/-- A call on a cache that is alive, and nothing more. -/
def Legal (s : StampedCaches α) : StampedCall α → Prop
  | .construct id capacity => s.pairs.Legal (.construct id capacity)
  | .append id _ _ _ => id ∈ s.pairs.caches
  | .truncate id _ => id ∈ s.pairs.caches
  | .destroy id => id ∈ s.pairs.caches

/-- Every interleaving of calls on the caches. -/
def system (geom : CacheGeometry) (blockSize numBlocks : Int) :
    Transition (StampedCaches α) (StampedCall α) where
  init := fun s => BlockPool.create geom blockSize numBlocks = .ok s.pairs.pool ∧
    s.pairs.caches = ∅ ∧ s.stamps = fun _ _ => none
  step := fun s call s' => s.Legal call ∧ s'.pairs.Fits ∧ ∃ r, s.run call = .ok (r, s')

/-- What a view returns is what was written to its slots: every one of them was written by this
cache, at this layer and position, and the view holds the keys and values written there. -/
def ViewsWritten (s : StampedCaches α) : Prop :=
  ∀ id c, s.pairs.caches.lookup id = some c → ∀ layer freshK freshV view,
    c.paged.view layer s.pairs.pool freshK freshV = .ok (.ok view) →
      ∃ rows, IsView s.pairs.pool.geom rows view ∧ ∀ (pos : Nat) (hpos : pos < rows.length),
        ∃ slot, c.paged.table.slot s.pairs.pool.blockSize pos = .ok slot ∧
          s.stamps layer slot = some ⟨id, pos, rows[pos]⟩

/-- The two caches of a pair accept the same truncation. -/
def TruncatesAlike (s : StampedCaches α) (c : CachePair α) (newLength : Int) : Prop :=
  (∃ r, c.paged.truncate newLength s.pairs.pool = .ok (.ok (), r)) ↔
    (c.simple.truncate newLength).1 = .ok ()

/-- A truncation that keeps tokens of a forward whose later layers have not written them. -/
def CutsForward (c : PagedKvCache) (newLength : Int) : Prop :=
  (c.base : Int) < newLength ∧ newLength ≤ c.table.numTokens

/-- No truncation keeps tokens of the forward in progress. -/
def Careful (s : StampedCaches α) : StampedCall α → Prop
  | .truncate id newLength =>
      ∀ c, s.pairs.caches.lookup id = some c → ¬CutsForward c.paged newLength
  | _ => True

instance (s : StampedCaches α) : DecidablePred s.Legal
  | .construct id capacity =>
      inferInstanceAs (Decidable (s.pairs.Legal (.construct id capacity)))
  | .append id _ _ _ => inferInstanceAs (Decidable (id ∈ s.pairs.caches))
  | .truncate id _ => inferInstanceAs (Decidable (id ∈ s.pairs.caches))
  | .destroy id => inferInstanceAs (Decidable (id ∈ s.pairs.caches))

instance (s : StampedCaches α) : DecidablePred s.Careful
  | .construct _ _ => isTrue trivial
  | .append _ _ _ _ => isTrue trivial
  | .truncate id newLength =>
      inferInstanceAs (Decidable (∀ c, c ∈ s.pairs.caches.lookup id →
        ¬((c.paged.base : Int) < newLength ∧ newLength ≤ c.paged.table.numTokens)))
  | .destroy _ => isTrue trivial

/-- The state after a call the system admits. -/
def next (s : StampedCaches α) (call : StampedCall α) : Option (StampedCaches α) := do
  guard (s.Legal call)
  let (_, s') ← (s.run call).toOption
  guard s'.pairs.Fits
  return s'

end StampedCaches

end InferenceEngine
