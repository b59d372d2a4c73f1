/-
Stop conditions: `engine/stop.h` and `stop.cpp`.
-/
import InferenceEngine.Sampling.Params
import InferenceEngine.Tokenizer.Detokenize

namespace InferenceEngine

/-- `engine::FinishReason`. -/
inductive FinishReason where
  | stop
  | length
deriving DecidableEq, Repr

/-- `engine::StopTrigger`. -/
inductive StopTrigger where
  | none
  | eosId
  | stopTokenId
  | stopString
  | maxTokens
deriving DecidableEq, Repr

/-! ### Stop strings

The matcher holds back the longest tail of the text that begins some stop string, and emits what
stands in front of it.  What is held back is bounded by the longest stop string. -/

/-- `engine::StopStringMatcher`. -/
structure StopStringMatcher where
  stops : List Text
  held : Text
  matched : Bool
deriving DecidableEq, Repr

/-- `text.find(stop)`. -/
def findText (stop : Text) : Text → Option Nat
  | [] => if stop.isEmpty then some 0 else none
  | c :: text =>
      if stop.isPrefixOf (c :: text) then some 0 else (findText stop text).map (· + 1)

/-- The loop of `LongestPrefixOverlap`, from `len` downwards. -/
def overlapFrom (text stop : Text) : (len : Nat) → Nat
  | 0 => 0
  | len + 1 =>
      if text.drop (text.length - (len + 1)) = stop.take (len + 1) then len + 1
      else overlapFrom text stop len

/-- `LongestPrefixOverlap`; `stop` is not empty. -/
def longestPrefixOverlap (text stop : Text) : Nat :=
  overlapFrom text stop (min text.length (stop.length - 1))

namespace StopStringMatcher

/-- A matcher that has seen nothing. -/
def new (stops : List Text) : StopStringMatcher := ⟨stops, [], false⟩

/-- `FeedResult`. -/
structure FeedResult where
  emit : Text
  found : Option Text
deriving DecidableEq, Repr

/-- The earliest occurrence of any stop string, the first listed on ties. -/
def earliest (stops : List Text) (held : Text) : Option (Nat × Text) :=
  stops.foldl (fun best stop =>
    match findText stop held with
    | none => best
    | some pos =>
        match best with
        | none => some (pos, stop)
        | some (bestPos, bestStop) =>
            if pos < bestPos then some (pos, stop) else some (bestPos, bestStop)) none

/-- `StopStringMatcher::Feed`. -/
def feed (m : StopStringMatcher) (chunk : Text) : FeedResult × StopStringMatcher :=
  if m.matched || m.stops.isEmpty then (⟨chunk, none⟩, m)
  else
    let held := m.held ++ chunk
    match earliest m.stops held with
    | some (pos, stop) => (⟨held.take pos, some stop⟩, { m with held := [], matched := true })
    | none =>
        let hold := m.stops.foldl (fun hold stop => max hold (longestPrefixOverlap held stop)) 0
        let emitLen := held.length - hold
        (⟨held.take emitLen, none⟩, { m with held := held.drop emitLen })

/-- `StopStringMatcher::Flush`. -/
def flush (m : StopStringMatcher) : Text × StopStringMatcher :=
  (m.held, { m with held := [] })

/-- A text fed chunk by chunk, up to the first match, and flushed if there is none: everything
that is emitted, and the stop string that matched. -/
def feedAll (m : StopStringMatcher) : List Text → Text × Option Text
  | [] => (m.flush.1, none)
  | chunk :: chunks =>
      let (result, m) := m.feed chunk
      match result.found with
      | some stop => (result.emit, some stop)
      | none =>
          let (rest, found) := m.feedAll chunks
          (result.emit ++ rest, found)

/-- Some calls of `Feed`, up to the first that reports a match: the chunks fed, everything that was
emitted, the stop string that matched, and the matcher. -/
structure FeedRun where
  fed : Text
  emitted : Text
  found : Option Text
  matcher : StopStringMatcher
deriving DecidableEq, Repr

/-- The chunks one after the other, until one completes a match. -/
def feedUntil (m : StopStringMatcher) : List Text → FeedRun
  | [] => ⟨[], [], none, m⟩
  | chunk :: chunks =>
      let (result, m) := m.feed chunk
      match result.found with
      | some stop => ⟨chunk, result.emit, some stop, m⟩
      | none =>
          let run := m.feedUntil chunks
          { run with fed := chunk ++ run.fed, emitted := result.emit ++ run.emitted }

end StopStringMatcher

/-- A text trimmed at the earliest occurrence of any stop string. -/
def trimAtStop (stops : List Text) (text : Text) : Text × Option Text :=
  match StopStringMatcher.earliest stops text with
  | some (pos, stop) => (text.take pos, some stop)
  | none => (text, none)

/-- The chunks do not matter: however a text is cut, it is trimmed at the earliest occurrence of
any stop string in the whole of it. -/
structure ChunkingInvariant (stops : List Text) : Prop where
  same : ∀ chunks chunks' : List Text, chunks.flatten = chunks'.flatten →
    (StopStringMatcher.new stops).feedAll chunks = (StopStringMatcher.new stops).feedAll chunks'
  trimmed : ∀ chunks : List Text,
    (StopStringMatcher.new stops).feedAll chunks = trimAtStop stops chunks.flatten

/-! ### The checker

The reasons to stop are asked in the order of the source: the ids first, then the text, then the
length.  Text is emitted only as far as no later token can change it. -/

/-- `engine::StopChecker`. -/
structure StopChecker where
  eosIds : List Int
  stopTokenIds : List Int
  maxTokens : Int
  detok : Option DetokenizerStream
  matcher : StopStringMatcher
  trigger : StopTrigger

namespace StopChecker

/-- `StopChecker::Create`. -/
def create (params : SamplingParams) (eosIds : List Int) (tokenizer : Option Tokenizer)
    (skipSpecialTokens : Bool) : StatusOr StopChecker :=
  if !params.stopStrings.isEmpty && tokenizer.isNone then
    .error (invalidArgumentError
      "stop_strings require a tokenizer to match on the detokenized stream")
  else
    .ok ⟨eosIds, params.stopTokenIds, params.maxTokens,
      tokenizer.map fun t => DetokenizerStream.new t skipSpecialTokens,
      StopStringMatcher.new params.stopStrings, .none⟩

/-- `StopChecker::StepResult`. -/
structure StepResult where
  textDelta : Text := []
  finished : Bool := false
  finishReason : FinishReason := .length
  trigger : StopTrigger := .none
  matchedStop : Text := []
deriving DecidableEq, Repr

/-- The text of one id; none without a tokenizer. -/
def detokenize (c : StopChecker) (id : Int) : StatusOr Text × StopChecker :=
  match c.detok with
  | none => (.ok [], c)
  | some d =>
      let (piece, d) := d.push id
      (piece, { c with detok := some d })

/-- The id-based stop, by priority. -/
def idTrigger (c : StopChecker) (id : Int) : StopTrigger :=
  if id ∈ c.eosIds then .eosId else if id ∈ c.stopTokenIds then .stopTokenId else .none

/-- The last priority of `Observe`, `max_tokens`. -/
def observeLength (c : StopChecker) (delta : Text) (producedCount : Int) :
    StepResult × StopChecker :=
  if c.maxTokens ≤ producedCount then
    ({ textDelta := delta, finished := true, finishReason := .length, trigger := .maxTokens },
      { c with trigger := .maxTokens })
  else ({ textDelta := delta }, c)

/-- `StopChecker::Observe`. -/
def observe (c : StopChecker) (id : Int) (producedCount : Int) :
    StatusOr StepResult × StopChecker :=
  let (piece, c) := c.detokenize id
  match piece with
  | .error status => (.error status, c)
  | .ok delta =>
    let idTrigger := c.idTrigger id
    if idTrigger ≠ .none then
      let (held, matcher) := c.matcher.flush
      (.ok { textDelta := held ++ delta, finished := true, finishReason := .stop,
             trigger := idTrigger },
        { c with matcher := matcher, trigger := idTrigger })
    else if c.matcher.stops ≠ [] then
      let (fed, matcher) := c.matcher.feed delta
      let c := { c with matcher := matcher }
      match fed.found with
      | some stop =>
          (.ok { textDelta := fed.emit, finished := true, finishReason := .stop,
                 trigger := .stopString, matchedStop := stop },
            { c with trigger := .stopString })
      | none =>
          let (result, c) := c.observeLength fed.emit producedCount
          (.ok result, c)
    else
      let (result, c) := c.observeLength delta producedCount
      (.ok result, c)

/-- `StopChecker::Finish`. -/
def finish (c : StopChecker) : Text × StopChecker :=
  if c.trigger = .stopString then ([], c)
  else
    let (out, matcher) := c.matcher.flush
    let c := { c with matcher := matcher }
    match c.detok with
    | none => (out, c)
    | some d =>
        let (rest, d) := d.finish
        (out ++ rest, { c with detok := some d })

/-- What a checker made of some ids: the deltas and what `Finish` released, the ids it was shown,
and the result that ended it, if any did. -/
structure Streamed where
  text : Text
  observed : List Int
  last : Option StepResult
deriving DecidableEq, Repr

/-- The ids are observed, with `count` before them, until a result is `finished`; then the
stream is finished. -/
def stream (c : StopChecker) (count : Nat) : List Int → StatusOr Streamed
  | [] => .ok ⟨c.finish.1, [], none⟩
  | id :: ids =>
      let (result, c) := c.observe id (count + 1 : Nat)
      match result with
      | .error status => .error status
      | .ok step =>
          if step.finished then .ok ⟨step.textDelta ++ c.finish.1, [id], some step⟩
          else do
            let rest ← c.stream (count + 1) ids
            pure ⟨step.textDelta ++ rest.text, id :: rest.observed, rest.last⟩

end StopChecker

end InferenceEngine
