/-
What the engine relies on when it calls a model.

`model.h` promises that a forward appends the tokens it is given, layer after layer, to the
caches it is given; that it answers with one row of logits for each sequence; and that a
forward of one sequence which runs out of room has touched nothing.  A batched forward that
fails may have appended any number of layers to any of its caches.

What the rows are is left to a relation `may`: what a forward of some tokens over a cache
that holds a log may answer, and the log the cache then holds.  A refusal for want of room is
no answer of that kind: it depends on the pool, which has none then.
-/
import InferenceEngine.Engine.Batch
import InferenceEngine.KvCache.KvLog
import InferenceEngine.Proofs.SimpleKvCache
import Mathlib.Algebra.Order.Floor.Div

namespace InferenceEngine

variable {σ α : Type}

/-- One append to one cache. -/
structure LayerAppend (α : Type) where
  layer : Int
  k : Tensor α
  v : Tensor α

/-- What a forward appends to the cache of one member. -/
def appendsTo (member : Nat) : List (ForwardEffect α) → List (LayerAppend α)
  | [] => []
  | .other _ :: rest => appendsTo member rest
  | .append b layer k v :: rest =>
      if b = member then ⟨layer, k, v⟩ :: appendsTo member rest else appendsTo member rest

/-- The first layers, in order, each with the same number of tokens. -/
structure Layered (geom : CacheGeometry) (tokens : Nat) (appends : List (LayerAppend α)) :
    Prop where
  layer : ∀ (i : Nat) a, appends[i]? = some a → a.layer = i
  shape : ∀ a ∈ appends, AppendShape geom a.layer a.k a.v
  tokens : ∀ a ∈ appends, a.k.dim 0 = tokens

/-- A log after some appends. -/
def KvLog.appendAll [Zero α] (geom : CacheGeometry) (g : KvLog α) (appends : List (LayerAppend α)) :
    KvLog α :=
  appends.foldl (fun g a => g.append a.layer (appendRows geom a.k a.v)) g

/-- A sequence as the engine hands it to a model: some tokens, at the positions that follow the
committed ones. -/
structure ForwardSeq.Formed (s : ForwardSeq) : Prop where
  tokens : s.tokenIds ≠ []
  positions : s.positions = positionsFrom s.cache.length s.tokenIds.length
  committed : s.cache.nextLayer = 0

/-- With the free blocks of the pool, a sequence has the blocks that its tokens need. -/
def ForwardSeq.HasRoom (s : ForwardSeq) (pool : BlockPool α) : Prop :=
  (s.cache.length + s.tokenIds.length) ⌈/⌉ pool.blockSize
    ≤ s.cache.table.blocks.length + pool.freeList.length

/-- The answers a model may give: a row, and the log of the cache after it, or an error. -/
abbrev Answers (α : Type) := KvLog α → List Int → StatusOr (List F32 × KvLog α) → Prop

/-- A model that answers with as many rows as it was asked for: `[B, V]`. -/
structure Model.Shaped (m : Model σ α) : Prop where
  vocab_pos : 0 < m.vocabSize
  dims : ∀ state request pool logits, (m.forward state request pool).1.logits = .ok logits →
    logits.dims = [request.seqs.length, m.vocabSize.toNat]

/-- A model that keeps what `model.h` promises, on the requests the engine makes. -/
structure Model.Contract [Zero α] (m : Model σ α) (may : Answers α) : Prop where
  shaped : m.Shaped
  /-- nobody else uses the pool while a forward runs -/
  undisturbed : ∀ state request pool use, .other use ∉ (m.forward state request pool).1.effects
  layered : ∀ state (request : ForwardRequest) pool, (∀ s ∈ request.seqs, s.Formed) →
    ∀ (b : Nat) s, request.seqs[b]? = some s →
    Layered m.geometry s.tokenIds.length (appendsTo b (m.forward state request pool).1.effects)
  answers : ∀ state (request : ForwardRequest) pool logits, (∀ s ∈ request.seqs, s.Formed) →
    (m.forward state request pool).1.logits = .ok logits →
    ∀ (b : Nat) s, request.seqs[b]? = some s →
      ((appendsTo b (m.forward state request pool).1.effects).length : Int)
          = m.geometry.numLayers ∧
        may (s.cache.log pool) s.tokenIds (.ok
          (BatchedSampler.row logits.values m.vocabSize.toNat b,
            (s.cache.log pool).appendAll m.geometry
              (appendsTo b (m.forward state request pool).1.effects)))
  refuses : ∀ state (s : ForwardSeq) pool status, s.Formed →
    (m.forward state ⟨false, [s]⟩ pool).1.logits = .error status →
      (may (s.cache.log pool) s.tokenIds (.error status) ∨
        status.code = .resourceExhausted ∧ ¬s.HasRoom pool) ∧
        (status.code = .resourceExhausted →
          appendsTo 0 (m.forward state ⟨false, [s]⟩ pool).1.effects = [])

end InferenceEngine
