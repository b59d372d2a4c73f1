/-
Generation of one sequence: `engine/generator.h` and `generator.cpp`.

The cache is a paged one over a pool of its own choosing.  The loop ends when the stop
checker says so; the model bounds it by `max_tokens`, which the checker never passes.  The
callback is the list of events it was called with, and it is part of the answer also when
the run ends with an error.
-/
import InferenceEngine.Engine.Batch
import InferenceEngine.Engine.Stop

namespace InferenceEngine

/-- `engine::GenerateOptions`. -/
structure GenerateOptions where
  sampling : SamplingParams
  eosIds : List Int
  tokenizer : Option Tokenizer
  skipSpecialTokens : Bool

/-- `engine::TokenEvent`. -/
structure TokenEvent where
  id : Int
  text : Text
  logprobs : Option StepLogprobs
deriving DecidableEq, Repr

/-- `engine::GenerateResult`. -/
structure GenerateResult where
  tokens : List Int := []
  finishReason : FinishReason := .length
  stopTrigger : StopTrigger := .none
  matchedStop : Text := []
  text : Text := []
  logprobs : List StepLogprobs := []
deriving DecidableEq, Repr

/-- `x` modulo 2^64, as a signed 64-bit integer. -/
def wrapInt64 (x : Int) : Int := Int.bmod x (2 ^ 64)

namespace Generate

variable {σ α : Type}

/-- `reserve(n)` of a vector whose elements take `size` bytes; the memory is taken to be
there. -/
def reserve (n : Int) (size : Int) : Checked Unit :=
  if (2 ^ 63 - 1) / size < n then throw .lengthError else pure ()

/-- What the run of one `Generate` call works on. -/
structure Loop (σ α : Type) where
  state : σ
  shared : SharedPool α
  cache : PagedKvCache
  checker : StopChecker
  result : GenerateResult
  finished : Bool
  events : List TokenEvent

/-- `consume`: sample, append, check the stop conditions, call back. -/
def consume (sampleRow : SampleRow) (sampler : Sampler) (promptIds : List Int)
    (logits : List F32) (g : Loop σ α) : StatusOr Unit × Loop σ α :=
  match sampler.sampleWithLogprobs sampleRow logits ⟨promptIds, g.result.tokens⟩ with
  | .error status => (.error status, g)
  | .ok next =>
    let result := { g.result with
      tokens := g.result.tokens ++ [next.token]
      logprobs := g.result.logprobs ++ next.logprobs.toList }
    let (step, checker) := g.checker.observe next.token result.tokens.length
    match step with
    | .error status => (.error status, { g with result := result, checker := checker })
    | .ok step =>
      if step.finished then
        let (rest, checker) := checker.finish
        let delta := step.textDelta ++ rest
        (.ok (), { g with
          checker := checker
          finished := true
          result := { result with
            finishReason := step.finishReason
            stopTrigger := step.trigger
            matchedStop := step.matchedStop
            text := result.text ++ delta }
          events := g.events ++ [⟨next.token, delta, next.logprobs⟩] })
      else
        (.ok (), { g with
          checker := checker
          result := { result with text := result.text ++ step.textDelta }
          events := g.events ++ [⟨next.token, step.textDelta, next.logprobs⟩] })

/-- One forward of the sequence alone, and `consume` on its last row. -/
def forward (model : Model σ α) (sampleRow : SampleRow) (sampler : Sampler)
    (promptIds tokenIds : List Int) (g : Loop σ α) : Checked (StatusOr Unit × Loop σ α) := do
  let positions := positionsFrom g.cache.length tokenIds.length
  let called ← model.call g.state ⟨false, [⟨tokenIds, positions, g.cache⟩]⟩ g.shared
  match called.caches with
  | [cache] =>
    let g := { g with state := called.state, shared := called.shared, cache := cache }
    match called.logits with
    | .error status => pure (.error status, g)
    | .ok logits =>
      let row ← lastRow logits
      pure (consume sampleRow sampler promptIds row g)
  | _ => throw .outOfBounds

/-- The decode loop. -/
def decode (model : Model σ α) (sampleRow : SampleRow) (sampler : Sampler)
    (promptIds : List Int) : (fuel : Nat) → Loop σ α → Checked (StatusOr Unit × Loop σ α)
  | 0, g => if g.finished then pure (.ok (), g) else throw .outOfFuel
  | fuel + 1, g => do
      if g.finished then return (.ok (), g)
      match g.result.tokens.getLast? with
      | none => throw .outOfBounds
      | some token =>
        let (decoded, g) ← forward model sampleRow sampler promptIds [token] g
        match decoded with
        | .error status => return (.error status, g)
        | .ok _ => decode model sampleRow sampler promptIds fuel g

end Generate

/-- `Generate`: the answer, and the events delivered on the way to it. -/
def generate {σ α : Type} (model : Model σ α) (sampleRow : SampleRow) (state : σ)
    (shared : SharedPool α) (cache : PagedKvCache) (promptIds : List Int)
    (options : GenerateOptions) (drawnSeed : Nat) :
    Checked (StatusOr GenerateResult × List TokenEvent) := do
  if promptIds.isEmpty then
    return (.error (invalidArgumentError "prompt_ids must be non-empty"), [])
  match Sampler.create options.sampling drawnSeed with
  | .error status => return (.error status, [])
  | .ok sampler =>
  match StopChecker.create options.sampling options.eosIds options.tokenizer
      options.skipSpecialTokens with
  | .error status => return (.error status, [])
  | .ok checker =>
    let maxTokens := sampler.params.maxTokens
    let promptLen : Int := promptIds.length
    let start : Int := cache.length
    let peak := wrapInt64 (start + promptLen + (maxTokens - 1))
    if cache.capacity shared.pool < peak then
      return (.error (resourceExhaustedError
        (s!"cache capacity {cache.capacity shared.pool} too small for prompt {promptLen} + " ++
         s!"{maxTokens} new tokens from length {start} (needs {peak})")), [])
    Generate.reserve maxTokens 4
    if 0 < sampler.params.logprobs then Generate.reserve maxTokens 32
    let g : Generate.Loop σ α := ⟨state, shared, cache, checker, {}, false, []⟩
    let (prefilled, g) ← Generate.forward model sampleRow sampler promptIds promptIds g
    match prefilled with
    | .error status => return (.error status, g.events)
    | .ok _ =>
      let (decoded, g) ← Generate.decode model sampleRow sampler promptIds maxTokens.toNat g
      match decoded with
      | .error status => return (.error status, g.events)
      | .ok _ => return (.ok g.result, g.events)

end InferenceEngine
