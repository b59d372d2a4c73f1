/-
Requests and sequences: `runtime/request.h` and `sequence.cpp`.
-/
import InferenceEngine.Engine.Stop
import InferenceEngine.KvCache.PagedKvCache
import InferenceEngine.Sampling.Sampler

namespace InferenceEngine

/-- `runtime::Request`. -/
structure Request where
  id : Nat := 0
  promptIds : List Int
  params : SamplingParams
  eosIds : List Int
  tokenizer : Option Tokenizer
  skipSpecialTokens : Bool := true
  arrivalIndex : Nat := 0

/-- `runtime::SeqState`. -/
inductive SeqState where
  | waiting
  | running
  | preempted
  | finished
  | cancelled
  | failed
deriving DecidableEq, Repr

/-- `SeqStateName`. -/
def SeqState.name : SeqState → String
  | .waiting => "waiting"
  | .running => "running"
  | .preempted => "preempted"
  | .finished => "finished"
  | .cancelled => "cancelled"
  | .failed => "failed"

/-- `IsLegalTransition`. -/
def isLegalTransition : SeqState → SeqState → Bool
  | .waiting, next => next = .running || next = .cancelled
  | .running, next =>
      next = .running || next = .finished || next = .preempted || next = .cancelled ||
        next = .failed
  | .preempted, next => next = .running || next = .cancelled
  | .finished, _ | .cancelled, _ | .failed, _ => false

/-- `runtime::FinishInfo`. -/
structure FinishInfo where
  terminal : SeqState := .finished
  finishReason : FinishReason := .length
  stopTrigger : StopTrigger := .none
  matchedStop : Text := []
  error : Status := okStatus
deriving DecidableEq, Repr

/-- `runtime::Sequence`; its request is beside it in the entry that owns both, and its channel
is the one with the request's id. -/
structure Sequence where
  state : SeqState
  generatedIds : List Int
  cache : Option PagedKvCache
  sampler : Sampler
  stop : StopChecker
  numComputedTokens : Int
  finishReason : FinishReason
  stopTrigger : StopTrigger
  matchedStop : Text
  error : Status

namespace Sequence

/-- `Sequence::Create`. -/
def create (request : Request) (drawnSeed : Nat) : StatusOr Sequence := do
  let sampler ← Sampler.create request.params drawnSeed
  let stop ← StopChecker.create request.params request.eosIds request.tokenizer
    request.skipSpecialTokens
  pure
    { state := .waiting
      generatedIds := []
      cache := some PagedKvCache.new
      sampler := sampler
      stop := stop
      numComputedTokens := 0
      finishReason := .length
      stopTrigger := .none
      matchedStop := []
      error := okStatus }

/-- `Sequence::Transition`. -/
def transition (s : Sequence) (next : SeqState) : Checked Sequence := do
  check (isLegalTransition s.state next)
    s!"illegal transition: {s.state.name} -> {next.name}"
  pure { s with state := next }

/-- `is_terminal`. -/
def isTerminal (s : Sequence) : Bool :=
  s.state = .finished || s.state = .cancelled || s.state = .failed

/-- `num_generated`. -/
def numGenerated (s : Sequence) : Nat := s.generatedIds.length

/-- `AppendGenerated`. -/
def appendGenerated (s : Sequence) (id : Int) : Sequence :=
  { s with
    generatedIds := s.generatedIds ++ [id]
    numComputedTokens := s.numComputedTokens + 1 }

/-- `EnsureCache`. -/
def ensureCache (s : Sequence) : Sequence :=
  match s.cache with
  | some _ => s
  | none => { s with cache := some PagedKvCache.new }

/-- `set_finish`. -/
def setFinish (s : Sequence) (reason : FinishReason) (trigger : StopTrigger)
    (matchedStop : Text) : Sequence :=
  { s with finishReason := reason, stopTrigger := trigger, matchedStop := matchedStop }

/-- `set_error`. -/
def setError (s : Sequence) (error : Status) : Sequence := { s with error := error }

/-- `MakeFinishInfo`. -/
def makeFinishInfo (s : Sequence) : Checked FinishInfo := do
  check s.isTerminal s!"MakeFinishInfo in non-terminal state {s.state.name}"
  pure
    { terminal := s.state
      finishReason := s.finishReason
      stopTrigger := s.stopTrigger
      matchedStop := s.matchedStop
      error := s.error }

end Sequence

end InferenceEngine
