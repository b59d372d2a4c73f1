/-
Batch assembly: `engine/batch.h` and `batch.cpp`.

The token and position arrays are kept by sequence, so the prefix sums that cut the flat
arrays of the code are not needed.
-/
import InferenceEngine.Model.Model
import InferenceEngine.Sampling.Sampler

namespace InferenceEngine

/-- `engine::BatchSeqInput`; the cache and the sampler are pointers in the code. -/
structure BatchSeqInput where
  tokenIds : List Int
  cache : Option PagedKvCache
  sampler : Option Sampler
  context : SampleContext
deriving DecidableEq, Repr

/-- `engine::BatchInputs`. -/
structure BatchInputs where
  seqs : List ForwardSeq
  sampleRows : List BatchRow
deriving DecidableEq, Repr

/-- The absolute positions of `count` tokens that follow `base` committed ones. -/
def positionsFrom (base count : Nat) : List Int :=
  (List.range count).map fun t : Nat => toInt32 (base + t)

namespace BatchInputs

/-- `MakeForwardRequest`. -/
def makeForwardRequest (inputs : BatchInputs) : ForwardRequest := ⟨true, inputs.seqs⟩

end BatchInputs

namespace BatchAssembler

/-- The turn of `Flatten` for sequence `b`. -/
def flattenOne (decode : Bool) (b : Nat) (s : BatchSeqInput) : StatusOr ForwardSeq :=
  match s.cache with
  | none => .error (invalidArgumentError s!"BatchAssembler: sequence {b} has a null cache")
  | some cache =>
    if s.sampler.isNone then
      .error (invalidArgumentError s!"BatchAssembler: sequence {b} has a null sampler")
    else if s.tokenIds.length < 1 then
      .error (invalidArgumentError s!"BatchAssembler: sequence {b} has empty token_ids")
    else if decode && s.tokenIds.length ≠ 1 then
      .error (invalidArgumentError
        (s!"BatchAssembler: decode sequence {b} must contribute exactly one token (got " ++
         s!"{s.tokenIds.length})"))
    else .ok ⟨s.tokenIds, positionsFrom cache.length s.tokenIds.length, cache⟩

/-- `BatchAssembler::Flatten`. -/
def flatten (decode : Bool) (seqs : List BatchSeqInput) : StatusOr BatchInputs := do
  let staged ← (seqs.mapIdx fun b s => (b, s)).mapM fun bs => flattenOne decode bs.1 bs.2
  pure ⟨staged, seqs.map fun s => ⟨s.sampler, s.context⟩⟩

end BatchAssembler

end InferenceEngine
