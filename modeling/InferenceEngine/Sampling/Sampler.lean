/-
The samplers: `sampling/sampler.h`, `logprobs.h` and `batched_sampler.cpp`.

What a sampler does with one row of logits, `detail::SampleRow`, is a parameter of everything
below: a function of the row, the token history, the parameters, the seed and whether
log-probabilities are wanted.  The scratch buffers it is handed carry nothing from one call
to the next, and `parallel_for` over disjoint rows is a loop.
-/
import InferenceEngine.Sampling.Params

namespace InferenceEngine

/-- `sampling::TokenLogprob`. -/
structure TokenLogprob where
  id : Int
  logprob : F32
deriving DecidableEq, Repr

/-- `sampling::StepLogprobs`. -/
structure StepLogprobs where
  chosenLogprob : F32
  top : List TokenLogprob
deriving DecidableEq, Repr

/-- `sampling::SampleResult`. -/
structure SampleResult where
  token : Int := 0
  logprobs : Option StepLogprobs := none
deriving DecidableEq, Repr

/-- `sampling::SampleContext`. -/
structure SampleContext where
  promptIds : List Int
  generatedIds : List Int
deriving DecidableEq, Repr

/-- The type of `detail::SampleRow`. -/
abbrev SampleRow :=
  List F32 → SampleContext → SamplingParams → Nat → Bool → StatusOr SampleResult

/-- `sampling::Sampler`. -/
structure Sampler where
  params : SamplingParams
  seed : Nat
deriving DecidableEq, Repr

namespace Sampler

/-- `ResolveSeed`, with `drawn` for what the random device and the clock give. -/
def resolveSeed (params : SamplingParams) (drawn : Nat) : Nat := params.seed.getD drawn

/-- `Sampler::Create`. -/
def create (params : SamplingParams) (drawn : Nat) : StatusOr Sampler := do
  validateSamplingParams params
  pure ⟨params, resolveSeed params drawn⟩

/-- `Sampler::SampleWithLogprobs`. -/
def sampleWithLogprobs (sampleRow : SampleRow) (s : Sampler) (logits : List F32)
    (context : SampleContext) : StatusOr SampleResult :=
  sampleRow logits context s.params s.seed (0 < s.params.logprobs)

end Sampler

/-- `sampling::BatchRow`; the sampler is a pointer in the code. -/
structure BatchRow where
  sampler : Option Sampler
  context : SampleContext
deriving DecidableEq, Repr

namespace BatchedSampler

/-- Row `b` of a `[B, V]` block. -/
def row (logits : List F32) (vocab b : Nat) : List F32 := (logits.drop (b * vocab)).take vocab

/-- The outcome of one row. -/
def sampleOne (sampleRow : SampleRow) (logits : List F32) (vocab b : Nat) (r : BatchRow) :
    StatusOr SampleResult :=
  match r.sampler with
  | none => .error (invalidArgumentError s!"rows[{b}].sampler is null")
  | some sampler => sampler.sampleWithLogprobs sampleRow (row logits vocab b) r.context

/-- `BatchedSampler::Sample`: the status of the call, `out` and `row_status`. -/
def sample (sampleRow : SampleRow) (logits : List F32) (vocab : Int) (rows : List BatchRow)
    (out : List SampleResult) (rowStatus : List (StatusOr Unit)) :
    StatusOr Unit × List SampleResult × List (StatusOr Unit) :=
  if vocab ≤ 0 then
    (.error (invalidArgumentError s!"vocab must be > 0 (got {vocab})"), out, rowStatus)
  else if out.length ≠ rows.length then
    (.error (invalidArgumentError
      s!"out size {out.length} must equal rows size {rows.length}"), out, rowStatus)
  else if rowStatus.length ≠ rows.length then
    (.error (invalidArgumentError
      s!"row_status size {rowStatus.length} must equal rows size {rows.length}"), out, rowStatus)
  else if (logits.length : Int) ≠ rows.length * vocab then
    (.error (invalidArgumentError
      s!"logits size {logits.length} must equal batch {rows.length} * vocab {vocab}"), out,
      rowStatus)
  else
    match rows.findIdx? (fun r => r.sampler.isNone) with
    | some b => (.error (invalidArgumentError s!"rows[{b}].sampler is null"), out, rowStatus)
    | none =>
        let results := rows.mapIdx fun b r => sampleOne sampleRow logits vocab.toNat b r
        (.ok (),
          List.zipWith (fun result old => match result with
            | .ok r => r
            | .error _ => old) results out,
          results.map fun result => result.map fun _ => ())

end BatchedSampler

end InferenceEngine
