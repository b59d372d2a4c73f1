/-
What a pass makes of one sequence.

The engine handles the members of a pass one by one, through maps, lists and a shared pool.
For a single member all of that comes to little: the model answers it with a row of logits
or refuses it with a status, and the rest is a function of the sequence.  These functions
leave the cache alone; a sequence may also be evicted, after its turn or instead of it.

And what the engine is for, without engine, cache or pool: a function from tokens to rows of
logits answers the prompt and everything generated so far, and the answer is sampled and checked.
A request that shares its engine with others is to be delivered just this.
-/
import InferenceEngine.Model.Contract
import InferenceEngine.Runtime.Channel

namespace InferenceEngine

namespace Sequence

/-- A sequence that an error has ended. -/
def failed (s : Sequence) (status : Status) : Sequence :=
  { s with error := status, state := .failed }

/-- A sequence that has given its cache back. -/
def evicted (s : Sequence) : Sequence :=
  { s with cache := none, numComputedTokens := 0, state := .preempted }

/-- A sequence that is delivered a token, and the item its channel gets. -/
def deliver (s : Sequence) (next : SampleResult) : Sequence × Option OutputItem :=
  let s := s.appendGenerated next.token
  let (step, stop) := s.stop.observe next.token s.numGenerated
  let s := { s with stop := stop }
  match step with
  | .error status => (s.failed status, none)
  | .ok step =>
    if step.finished then
      let (rest, stop) := s.stop.finish
      let s := ({ s with stop := stop }).setFinish step.finishReason step.trigger step.matchedStop
      ({ s with state := .finished }, some ⟨next.token, step.textDelta ++ rest, next.logprobs⟩)
    else (s, some ⟨next.token, step.textDelta, next.logprobs⟩)

/-- A sequence that is answered with a row of logits. -/
def answer (sampleRow : SampleRow) (promptIds : List Int) (s : Sequence) (row : List F32) :
    Sequence × Option OutputItem :=
  match s.sampler.sampleWithLogprobs sampleRow row ⟨promptIds, s.generatedIds⟩ with
  | .error status => (s.failed status, none)
  | .ok next => s.deliver next

end Sequence

/-- What the turn of a sequence came to. -/
inductive Turn where
  /-- it has not had its turn -/
  | waits
  | answered (row : List F32)
  | refused (status : Status)

/-- A sequence after its turn, and what it pushed. -/
def Sequence.turn (sampleRow : SampleRow) (promptIds : List Int) (s : Sequence) :
    Turn → Sequence × Option OutputItem
  | .waits => (s, none)
  | .answered row => s.answer sampleRow promptIds row
  | .refused status => (s.failed status, none)

/-! ### A request that is served alone

Turn after turn, without a pool: the sequence is given what its model answers to all of its
tokens. -/

/-- What a model makes of some tokens: the row of logits that follows them, or a fault. -/
abbrev Outcome := List Int → StatusOr (List F32)

namespace Sequence

/-- A sequence without what belongs to its place in an engine. -/
def core (s : Sequence) : Sequence :=
  { s with state := .running, cache := none, numComputedTokens := 0 }

/-- What a sequence gets next, alone. -/
def nextTurn (outcome : Outcome) (promptIds : List Int) (s : Sequence) : Turn :=
  match outcome (promptIds ++ s.generatedIds) with
  | .ok row => .answered row
  | .error status => .refused status

end Sequence

/-- The first `k` turns of a sequence that is served alone: what it is then, and what its channel
has been given.  A sequence that has ended has no more turns. -/
def solo (outcome : Outcome) (sampleRow : SampleRow) (promptIds : List Int) (start : Sequence) :
    Nat → Sequence × List OutputItem
  | 0 => (start.core, [])
  | k + 1 =>
      let (s, items) := solo outcome sampleRow promptIds start k
      if s.isTerminal then (s, items)
      else
        let (s, item) := s.turn sampleRow promptIds (s.nextTurn outcome promptIds)
        (s, items ++ item.toList)

/-- A model whose answer to a sequence is a function of the tokens of that sequence: of those its
cache holds, which `holds` reads off a log, and of those it is fed. -/
def rowLocal {α : Type} [Zero α] (outcome : Outcome) (holds : KvLog α → List Int → Prop) :
    Answers α :=
  fun g tokens answer => ∀ history, holds g history → match answer with
    | .ok (row, g') => outcome (history ++ tokens) = .ok row ∧ holds g' (history ++ tokens)
    | .error status => outcome (history ++ tokens) = .error status

end InferenceEngine
