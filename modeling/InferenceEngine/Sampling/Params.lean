/-
Sampling parameters: `sampling/params.h` and `params.cpp`.

A float is not a number, an infinity or a rational; `params.cpp` only compares them, and a
comparison with a value that is not a number is false.
-/
import InferenceEngine.Core.Status
import Mathlib.Data.Rat.Init
import Mathlib.Algebra.Order.Ring.Unbundled.Rat

namespace InferenceEngine

/-- A 32-bit float, as the code compares it. -/
inductive F32 where
  | nan
  | infinity (negative : Bool)
  | finite (value : Rat)
deriving DecidableEq, Repr

namespace F32

/-- `std::isfinite`. -/
def isFinite : F32 → Bool
  | .finite _ => true
  | _ => false

/-- `a < b`. -/
def lt : F32 → F32 → Bool
  | .finite a, .finite b => a < b
  | .finite _, .infinity negative => !negative
  | .infinity negative, .finite _ => negative
  | .infinity true, .infinity false => true
  | _, _ => false

/-- `a <= b`. -/
def le : F32 → F32 → Bool
  | .finite a, .finite b => a ≤ b
  | .finite _, .infinity negative => !negative
  | .infinity negative, .finite _ => negative
  | .infinity a, .infinity b => a || !b
  | _, _ => false

end F32

/-- `kMaxLogprobs`. -/
def maxLogprobs : Int := 20

/-- `sampling::SamplingParams`. -/
structure SamplingParams where
  temperature : F32 := .finite 1
  topK : Int := 0
  topP : F32 := .finite 1
  repetitionPenalty : F32 := .finite 1
  presencePenalty : F32 := .finite 0
  frequencyPenalty : F32 := .finite 0
  seed : Option Nat := none
  maxTokens : Int := 0
  stopTokenIds : List Int := []
  stopStrings : List (List UInt8) := []
  logprobs : Int := 0
deriving DecidableEq, Repr

/-- The text of a float in a message. -/
def F32.toString : F32 → String
  | .nan => "nan"
  | .infinity negative => if negative then "-inf" else "inf"
  | .finite value => s!"{value}"

/-- `ValidateSamplingParams`. -/
def validateSamplingParams (params : SamplingParams) : StatusOr Unit := do
  if !params.temperature.isFinite || params.temperature.lt (.finite 0) then
    throw (invalidArgumentError
      s!"temperature must be finite and >= 0, got {params.temperature.toString}")
  if params.topK < 0 then
    throw (invalidArgumentError s!"top_k must be >= 0, got {params.topK}")
  if !params.topP.isFinite || params.topP.le (.finite 0) || F32.lt (.finite 1) params.topP then
    throw (invalidArgumentError
      s!"top_p must be finite and in (0, 1], got {params.topP.toString}")
  if !params.repetitionPenalty.isFinite || params.repetitionPenalty.le (.finite 0) then
    throw (invalidArgumentError
      s!"repetition_penalty must be finite and > 0, got {params.repetitionPenalty.toString}")
  if !params.presencePenalty.isFinite || params.presencePenalty.lt (.finite (-2)) ||
      F32.lt (.finite 2) params.presencePenalty then
    throw (invalidArgumentError
      s!"presence_penalty must be finite and in [-2, 2], got {params.presencePenalty.toString}")
  if !params.frequencyPenalty.isFinite || params.frequencyPenalty.lt (.finite (-2)) ||
      F32.lt (.finite 2) params.frequencyPenalty then
    throw (invalidArgumentError
      s!"frequency_penalty must be finite and in [-2, 2], got {params.frequencyPenalty.toString}")
  if params.maxTokens ≤ 0 then
    throw (invalidArgumentError s!"max_tokens must be > 0, got {params.maxTokens}")
  match params.stopTokenIds.findIdx? (· < 0) with
  | some i => throw (invalidArgumentError
      s!"stop_token_ids[{i}] must be >= 0, got {params.stopTokenIds.getD i 0}")
  | none => pure ()
  match params.stopStrings.findIdx? List.isEmpty with
  | some i => throw (invalidArgumentError s!"stop_strings[{i}] must not be empty")
  | none => pure ()
  if params.logprobs < 0 ∨ maxLogprobs < params.logprobs then
    throw (invalidArgumentError
      s!"logprobs must be in [0, {maxLogprobs}], got {params.logprobs}")

end InferenceEngine
