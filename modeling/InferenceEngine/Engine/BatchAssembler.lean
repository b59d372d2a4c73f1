/-
The staging of a batch: `BatchAssembler` of `engine/batch.h` and `batch.cpp`, with the vectors
it fills.

The assembler is reused: its five vectors hold what the call before left in them.  `Flatten`
empties them, fills them one sequence after the other, and checks each sequence when it comes
to it.  It has no rollback.  A cache is known by a pointer `κ` and by what `length()` says of
it.
-/
import InferenceEngine.Engine.Batch
import InferenceEngine.Lib.Fallible

namespace InferenceEngine.BatchAssembler

/-- `engine::BatchSeqInput`, for any class of caches. -/
structure SeqInput (κ : Type) where
  tokenIds : List Int
  cache : Option κ
  sampler : Option Sampler
  context : SampleContext
deriving DecidableEq, Repr

/-- `engine::BatchInputs`, as the code keeps it. -/
structure Staging (κ : Type) where
  tokenIds : List Int
  positions : List Int
  cuSeqlens : List Int
  caches : List κ
  sampleRows : List BatchRow
deriving DecidableEq, Repr

/-- The result of an operation on `std::int32_t`. -/
def int32 (x : Int) : Checked Int :=
  if -(2 ^ 31) ≤ x ∧ x < 2 ^ 31 then .ok x else .error .signedOverflow

/-- A sequence of the engine, whose caches are paged. -/
def SeqInput.ofSeq (s : BatchSeqInput) : SeqInput PagedKvCache :=
  ⟨s.tokenIds, s.cache, s.sampler, s.context⟩

variable {κ : Type}

namespace Staging

/-- `clear()` on each of the vectors. -/
def cleared : Staging κ := ⟨[], [], [], [], []⟩

/-- The inner loop of `Flatten`: the tokens of a sequence and their positions. -/
def pushTokens (base : Nat) (tokens : List Int) (staged : Staging κ) : Staging κ :=
  { staged with
    tokenIds := staged.tokenIds ++ tokens
    positions := staged.positions ++ positionsFrom base tokens.length }

/-- `cu_seqlens_.push_back(running)`. -/
def pushCuSeqlen (running : Int) (staged : Staging κ) : Staging κ :=
  { staged with cuSeqlens := staged.cuSeqlens ++ [running] }

/-- `caches_` and `rows_` grow by one sequence. -/
def pushRow (cache : κ) (row : BatchRow) (staged : Staging κ) : Staging κ :=
  { staged with
    caches := staged.caches ++ [cache]
    sampleRows := staged.sampleRows ++ [row] }

end Staging

/-- What `Flatten` checks of sequence `b`. -/
def validate (decode : Bool) (b : Nat) (s : SeqInput κ) : StatusOr κ :=
  match s.cache with
  | none => .error (invalidArgumentError s!"BatchAssembler: sequence {b} has a null cache")
  | some cache =>
    if s.sampler.isNone then
      .error (invalidArgumentError s!"BatchAssembler: sequence {b} has a null sampler")
    else if s.tokenIds.length < 1 then
      .error (invalidArgumentError s!"BatchAssembler: sequence {b} has empty token_ids")
    else if decode && s.tokenIds.length ≠ 1 then
      .error (invalidArgumentError
        (s!"BatchAssembler: decode sequence {b} must contribute exactly one token (got " ++
         s!"{s.tokenIds.length})"))
    else .ok cache

section

variable (length : κ → Nat) (decode : Bool)

/-- The turn of `Flatten` for sequence `b`; `running` is the number of tokens so far. -/
def stageOne (running : Int) (sb : SeqInput κ × Nat) :
    Fallible Fault Status (Staging κ) Int := do
  let cache ← Fallible.ofExcept (validate decode sb.2 sb.1)
  Fallible.modify (Staging.pushTokens (length cache) sb.1.tokenIds)
  let running ← Fallible.ofChecked (int32 (running + toInt32 sb.1.tokenIds.length))
  Fallible.modify (Staging.pushCuSeqlen running)
  Fallible.modify (Staging.pushRow cache ⟨sb.1.sampler, sb.1.context⟩)
  pure running

/-- `BatchAssembler::Flatten`, on the staging of the assembler. -/
def stageAll (seqs : List (SeqInput κ)) : Fallible Fault Status (Staging κ) Unit := do
  Fallible.modify fun _ => Staging.cleared
  Fallible.modify (Staging.pushCuSeqlen 0)
  let _ ← Fallible.fold (stageOne length decode) seqs.zipIdx 0
  pure ()

end

/-- `AssemblePrefill`. -/
def assemblePrefill (length : κ → Nat) (seqs : List (SeqInput κ)) :
    Fallible Fault Status (Staging κ) Unit :=
  stageAll length false seqs

/-- `AssembleDecode`. -/
def assembleDecode (length : κ → Nat) (seqs : List (SeqInput κ)) :
    Fallible Fault Status (Staging κ) Unit :=
  stageAll length true seqs

end InferenceEngine.BatchAssembler
