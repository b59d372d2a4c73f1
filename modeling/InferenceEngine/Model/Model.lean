/-
The model the engine calls: `model/model.h`, for requests in `LogitsMode::kLast`.

A model is what the engine can see of it.  It is handed the tokens of some sequences with
their caches; it appends to those caches, layer by layer, and answers with logits or with an
error.  It can reach no other cache.  Other users of the block pool may run while a forward
does, so a forward is a list of effects, some of them theirs.  An append that fails ends the
forward with its status.
-/
import InferenceEngine.KvCache.PagedKvCache
import InferenceEngine.Sampling.Params

namespace InferenceEngine

/-- One sequence's part of a forward. -/
structure ForwardSeq where
  tokenIds : List Int
  positions : List Int
  cache : PagedKvCache
deriving DecidableEq, Repr

/-- `model::ForwardRequest`; `batched` when the sequences are carried by `caches`, and not when
the one sequence is carried by `cache`.  The flat token arrays and their prefix sums are kept
by sequence. -/
structure ForwardRequest where
  batched : Bool
  seqs : List ForwardSeq
deriving DecidableEq, Repr

/-- What another user of the pool does. -/
inductive PoolUse where
  | allocate
  /-- release the `i`-th of the blocks it holds -/
  | release (i : Nat)
deriving DecidableEq, Repr

/-- One thing that happens during a forward. -/
inductive ForwardEffect (α : Type) where
  /-- `caches[member]->append(layer, k, v)` -/
  | append (member : Nat) (layer : Int) (k v : Tensor α)
  | other (use : PoolUse)

/-- One forward: what happens, and what is answered if every append succeeds. -/
structure ForwardRun (α : Type) where
  effects : List (ForwardEffect α)
  logits : StatusOr (Tensor F32)

/-- `model::Model`, with state `σ` of its own. -/
structure Model (σ α : Type) where
  /-- `cache_geometry()` -/
  geometry : CacheGeometry
  /-- `config().vocab_size` -/
  vocabSize : Int
  /-- `config().max_position_embeddings` -/
  maxPositionEmbeddings : Int
  /-- `forward` -/
  forward : σ → ForwardRequest → BlockPool α → ForwardRun α × σ

/-- A pool and the blocks its other users hold. -/
structure SharedPool (α : Type) where
  pool : BlockPool α
  others : List Int

namespace SharedPool

variable {α : Type}

/-- One use of the pool by somebody else. -/
def use (s : SharedPool α) : PoolUse → Checked (SharedPool α)
  | .allocate => do
      let (block, pool) ← s.pool.allocate
      match block with
      | .error _ => pure { s with pool := pool }
      | .ok block => pure ⟨pool, block :: s.others⟩
  | .release i =>
      match s.others[i]? with
      | none => pure s
      | some block => do
          let pool ← s.pool.release block
          pure ⟨pool, s.others.eraseIdx i⟩

end SharedPool

section

variable {α : Type}

/-- The effects in order, up to the first append that fails. -/
def runEffects : List (ForwardEffect α) → List PagedKvCache → SharedPool α →
    Checked (StatusOr Unit × List PagedKvCache × SharedPool α)
  | [], caches, s => pure (.ok (), caches, s)
  | .other use :: rest, caches, s => do
      let s ← s.use use
      runEffects rest caches s
  | .append member layer k v :: rest, caches, s =>
      match caches[member]? with
      | none => runEffects rest caches s
      | some c => do
          let (appended, c, pool) ← c.append layer k v s.pool
          let caches := caches.set member c
          let s := { s with pool := pool }
          match appended with
          | .error status => pure (.error status, caches, s)
          | .ok _ => runEffects rest caches s

end

namespace Model

variable {σ α : Type}

/-- What a call of `forward` leaves behind. -/
structure Called (σ α : Type) where
  logits : StatusOr (Tensor F32)
  caches : List PagedKvCache
  shared : SharedPool α
  state : σ

/-- `model.forward(request)`. -/
def call (m : Model σ α) (state : σ) (request : ForwardRequest) (shared : SharedPool α) :
    Checked (Called σ α) := do
  let (run, state) := m.forward state request shared.pool
  let (ran, caches, shared) ← runEffects run.effects (request.seqs.map (·.cache)) shared
  match ran with
  | .error status => pure ⟨.error status, caches, shared, state⟩
  | .ok _ => pure ⟨run.logits, caches, shared, state⟩

end Model

/-- `LastRow`: the final row of the logits.  A vocabulary of zero divides by zero. -/
def lastRow (logits : Tensor F32) : Checked (List F32) :=
  match logits.dims.getLast? with
  | none => .error .outOfBounds
  | some vocab =>
      if vocab = 0 then .error .outOfBounds
      else
        let rows := logits.numel / vocab
        .ok ((logits.values.drop ((rows - 1) * vocab)).take vocab)

end InferenceEngine
