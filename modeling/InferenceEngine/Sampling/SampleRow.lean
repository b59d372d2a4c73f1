/-
One row: `detail::SampleRow` of `sampling/sampler.cpp` and its two branches.
-/
import InferenceEngine.Sampling.Stages

namespace InferenceEngine

variable (m : FloatModel)

/-- `PenaltiesActive`. -/
def penaltiesActive (params : SamplingParams) : Bool :=
  params.repetitionPenalty ≠ .finite 1 || params.presencePenalty ≠ .finite 0 ||
    params.frequencyPenalty ≠ .finite 0

/-- The loop of `ArgmaxRow`. -/
def argmaxLoop : (rest : List F32) → (v : Nat) → (best : Nat) → (bestVal : F32) → Nat × F32
  | [], _, best, bestVal => (best, bestVal)
  | x :: rest, v, best, bestVal =>
      if bestVal.lt x then argmaxLoop rest (v + 1) v x else argmaxLoop rest (v + 1) best bestVal

/-- `ArgmaxRow`. -/
def argmaxRow (logits : List F32) : StatusOr Int :=
  match logits with
  | [] => .error (invalidArgumentError "logits row must be non-empty")
  | x :: rest =>
      let (best, bestVal) := argmaxLoop rest 1 0 x
      if bestVal.isNan then .error (internalError "argmax over non-finite logits (max is NaN)")
      else .ok (toInt32 best)

/-- The row behind stage 1. -/
def penalizedRow (logits : List F32) (context : SampleContext) (params : SamplingParams) :
    StatusOr (List F32) :=
  applyPenalties m logits context.promptIds context.generatedIds params.repetitionPenalty
    params.presencePenalty params.frequencyPenalty

/-- `SampleGreedy`. -/
def sampleGreedy (logits : List F32) (context : SampleContext) (params : SamplingParams)
    (wantLogprobs : Bool) : Checked (StatusOr SampleResult) :=
  let penalties := penaltiesActive params
  if !penalties && !wantLogprobs then
    pure ((argmaxRow logits).map fun token => ⟨token, none⟩)
  else if logits = [] then
    pure (.error (invalidArgumentError "logits row must be non-empty"))
  else
    match (if penalties then penalizedRow m logits context params else .ok logits) with
    | .error status => pure (.error status)
    | .ok row =>
        match argmaxRow row with
        | .error status => pure (.error status)
        | .ok token =>
            if wantLogprobs then
              match checkFinite row with
              | .error status => pure (.error status)
              | .ok () => do
                  let logprobs ← extractLogprobs m (logSoftmax m row) token params.logprobs
                  pure (.ok ⟨token, some logprobs⟩)
            else pure (.ok ⟨token, none⟩)

/-- The draw of `SampleStochastic` from the penalized and scaled row. -/
def drawToken (work : List F32) (params : SamplingParams) (seed step : BitVec 64)
    (wantLogprobs : Bool) : Checked SampleResult := do
  let lp := logSoftmax m work
  let probs ← applyTopP m (softmax m (applyTopK work params.topK)) params.topP
  let u := philoxUniformDouble seed step 0
  let token := selectByCdf m probs u
  if wantLogprobs then
    let logprobs ← extractLogprobs m lp token params.logprobs
    pure ⟨token, some logprobs⟩
  else pure ⟨token, none⟩

/-- `SampleStochastic`. -/
def sampleStochastic (logits : List F32) (context : SampleContext) (params : SamplingParams)
    (seed step : BitVec 64) (wantLogprobs : Bool) : Checked (StatusOr SampleResult) :=
  if logits = [] then pure (.error (invalidArgumentError "logits row must be non-empty"))
  else
    match checkFinite logits with
    | .error status => pure (.error status)
    | .ok () =>
        match penalizedRow m logits context params with
        | .error status => pure (.error status)
        | .ok work => do
            let work := applyTemperature m work params.temperature
            let result ← drawToken m work params seed step wantLogprobs
            pure (.ok result)

/-- `SampleRow`. -/
def sampleRow (logits : List F32) (context : SampleContext) (params : SamplingParams)
    (seed : BitVec 64) (wantLogprobs : Bool) : Checked (StatusOr SampleResult) :=
  if params.temperature = .finite 0 then sampleGreedy m logits context params wantLogprobs
  else
    let step := BitVec.ofNat 64 context.generatedIds.length
    sampleStochastic m logits context params seed step wantLogprobs

namespace FloatModel

/-- `Sampler::SampleWithLogprobsImpl`. -/
def sampleWithLogprobsImpl (s : Sampler) (logits : List F32) (context : SampleContext)
    (wantLogprobs : Bool) : Checked (StatusOr SampleResult) :=
  sampleRow m logits context s.params (BitVec.ofNat 64 s.seed) wantLogprobs

/-- `Sampler::Sample`. -/
def sample (s : Sampler) (logits : List F32) (context : SampleContext) :
    Checked (StatusOr Int) := do
  let result ← sampleWithLogprobsImpl m s logits context false
  pure (result.map SampleResult.token)

/-- `Sampler::SampleWithLogprobs`. -/
def sampleWithLogprobs (s : Sampler) (logits : List F32) (context : SampleContext) :
    Checked (StatusOr SampleResult) :=
  sampleWithLogprobsImpl m s logits context (0 < s.params.logprobs)

end FloatModel

end InferenceEngine
