/-
What a forward is asked, and what it checks before it starts: `ForwardRequest` of
`model/model.h`, and the checks in front of `OptimizedModel::forward`,
`OptimizedModel::ForwardBatched` and their two namesakes of `ReferenceModel`.

Both classes check the same things in the same order, and their messages differ in the name of
the class, which is a parameter here.
-/
import InferenceEngine.Model.ForwardState

namespace InferenceEngine.Backend

variable {α : Type} {c : ModelConfig} {n : Nat}

/-- `model::LogitsMode`. -/
inductive LogitsMode where
  | last
  | all
deriving DecidableEq, Repr

/-- `model::ForwardRequest`.  A pointer is the index of a cache, or null. -/
structure ForwardRequest (n : Nat) where
  tokenIds : List Int
  positions : List Int
  cache : Option (Fin n)
  logitsMode : LogitsMode
  cuSeqlens : List Int
  caches : List (Option (Fin n))
deriving DecidableEq, Repr

namespace ForwardRequest

/-- `token_ids[t]` -/
def tokenId (request : ForwardRequest n) (t : Nat) : Int := request.tokenIds.getD t 0

/-- `positions[t]` -/
def position (request : ForwardRequest n) (t : Nat) : Int := request.positions.getD t 0

/-- `cu_seqlens[b]`, once it is known not to be negative. -/
def cu (request : ForwardRequest n) (b : Nat) : Nat := (request.cuSeqlens.getD b 0).toNat

/-- `T_b` -/
def seqLen (request : ForwardRequest n) (b : Nat) : Nat := request.cu (b + 1) - request.cu b

/-- `caches[b]` -/
def cacheAt (request : ForwardRequest n) (b : Nat) : Option (Fin n) :=
  request.caches.getD b none

/-- `B` -/
def numSeqs (request : ForwardRequest n) : Nat := request.caches.length

/-- Whether the ragged fields are used. -/
def isBatched (request : ForwardRequest n) : Bool :=
  !request.cuSeqlens.isEmpty || !request.caches.isEmpty

/-- Sequence `b` as a request of its own. -/
def member (request : ForwardRequest n) (b : Nat) : ForwardRequest n where
  tokenIds := (request.tokenIds.drop (request.cu b)).take (request.seqLen b)
  positions := (request.positions.drop (request.cu b)).take (request.seqLen b)
  cache := request.cacheAt b
  logitsMode := request.logitsMode
  cuSeqlens := []
  caches := []

end ForwardRequest

/-- `if (bad) return error;` -/
def rejectIf (bad : Prop) [Decidable bad] (status : Status) : StatusOr Unit :=
  if bad then .error status else .ok ()

section

variable (cls : String) (request : ForwardRequest n)

/-- The check of `token_ids[t]`. -/
def checkTokenId (c : ModelConfig) (t : Nat) : StatusOr Unit :=
  rejectIf (request.tokenId t < 0 ∨ (c.vocabSize : Int) ≤ request.tokenId t)
    (invalidArgumentError
      s!"{cls}::forward: token_ids[{t}] = {request.tokenId t} out of range [0, {c.vocabSize})")

/-- The check of `positions[t]`. -/
def checkPosition (c : ModelConfig) (t : Nat) : StatusOr Unit :=
  rejectIf (request.position t < 0 ∨ (c.maxPositionEmbeddings : Int) ≤ request.position t)
    (invalidArgumentError
      (s!"{cls}::forward: positions[{t}] = {request.position t} out of range [0, " ++
       s!"{c.maxPositionEmbeddings})"))

/-- What `forward` of the class `cls` checks of the cache of a single sequence. -/
def validateCache (s : ForwardState α c n) (i : Fin n) (tDim : Nat) : StatusOr Unit := do
  let geom := (s.caches i).geometry s.pool
  rejectIf (geom ≠ c.geometry) (invalidArgumentError
    (s!"{cls}::forward: cache geometry (layers={geom.numLayers}, kv_heads={geom.numKvHeads}, " ++
     s!"head_dim={geom.headDim}) does not match the model's (layers={c.numLayers}, " ++
     s!"kv_heads={c.numKvHeads}, head_dim={c.headDim})"))
  let pLen := (s.caches i).length
  rejectIf ((s.caches i).capacity s.pool < (pLen + tDim : Nat)) (resourceExhaustedError
    (s!"{cls}::forward: cache length {pLen} + {tDim} new tokens exceeds capacity " ++
     s!"{(s.caches i).capacity s.pool}"))

/-- The checks in front of a forward of one sequence: its length and its cache. -/
def validate (s : ForwardState α c n) : StatusOr (Nat × Fin n) := do
  let tDim := request.tokenIds.length
  rejectIf (tDim < 1) (invalidArgumentError
    s!"{cls}::forward: token_ids must be non-empty (T >= 1)")
  rejectIf (request.positions.length ≠ tDim) (invalidArgumentError
    (s!"{cls}::forward: positions length {request.positions.length} must equal token_ids length " ++
     s!"{tDim}"))
  (List.range tDim).forM (checkTokenId cls request c)
  (List.range tDim).forM (checkPosition cls request c)
  match request.cache with
  | none => .error (invalidArgumentError s!"{cls}::forward: cache must be non-null")
  | some i => do
      validateCache cls s i tDim
      pure (tDim, i)

/-- What `ValidateBatched` of the class `cls` checks of the cache of sequence `b`. -/
def validateMember (s : ForwardState α c n) (b : Nat) : StatusOr Unit :=
  match request.cacheAt b with
  | none => .error (invalidArgumentError s!"{cls}::forward: caches[{b}] is null")
  | some i => do
      rejectIf ((s.caches i).geometry s.pool ≠ c.geometry) (invalidArgumentError
        s!"{cls}::forward: caches[{b}] geometry does not match the model's")
      let tB := request.cuSeqlens.getD (b + 1) 0 - request.cuSeqlens.getD b 0
      rejectIf ((s.caches i).capacity s.pool < (s.caches i).length + tB) (resourceExhaustedError
        (s!"{cls}::forward: caches[{b}] length {(s.caches i).length} + {tB} new tokens exceeds " ++
         s!"capacity {(s.caches i).capacity s.pool}"))

/-- `ValidateBatched`: the tokens of the whole batch. -/
def validateBatched (s : ForwardState α c n) : StatusOr Nat := do
  let numSeqs := request.numSeqs
  let cu := fun b : Nat => request.cuSeqlens.getD b 0
  rejectIf (numSeqs = 0 ∨ request.cuSeqlens.length = 0) (invalidArgumentError
    s!"{cls}::forward: a batched forward needs non-empty caches and cu_seqlens")
  rejectIf (request.cuSeqlens.length ≠ numSeqs + 1) (invalidArgumentError
    (s!"{cls}::forward: cu_seqlens length {request.cuSeqlens.length} must be caches length + 1 " ++
     s!"= {numSeqs + 1}"))
  rejectIf (cu 0 ≠ 0) (invalidArgumentError
    s!"{cls}::forward: cu_seqlens[0] must be 0, got {cu 0}")
  (List.range numSeqs).forM fun b =>
    rejectIf (cu (b + 1) ≤ cu b) (invalidArgumentError
      (s!"{cls}::forward: cu_seqlens must be strictly increasing (each sequence has >= 1 " ++
       s!"token); violated at {b}"))
  let tDim := cu numSeqs
  rejectIf ((request.tokenIds.length : Int) ≠ tDim ∨ (request.positions.length : Int) ≠ tDim)
    (invalidArgumentError
      s!"{cls}::forward: token_ids/positions length must equal cu_seqlens.back() = {tDim}")
  (List.range tDim.toNat).forM fun t => do
    checkTokenId cls request c t
    checkPosition cls request c t
  (List.range numSeqs).forM (validateMember cls request s)
  pure tDim.toNat

end

end InferenceEngine.Backend
