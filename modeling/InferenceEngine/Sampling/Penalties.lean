/-
`ApplyPenalties` of `sampling/stages.cpp` on a row in place.

The row is changed where it lies, so a refused call leaves a row behind as well.  The two hash
containers hand out their elements in an order of their own, which may differ from loop to loop;
the increment of a counter is open, since the code counts in an `int32`.
-/
import InferenceEngine.Sampling.Exact

namespace InferenceEngine

/-- The order in which a hash container hands out its elements: each of them once. -/
structure IterationOrder (κ : Type) where
  arrange : List κ → List κ
  perm : ∀ keys, (arrange keys).Perm keys

/-- The orders of the three loops of `ApplyPenalties`. -/
structure PenaltyOrders where
  repetition : IterationOrder Int
  frequency : IterationOrder (Int × Int)
  presence : IterationOrder (Int × Int)

/-- The loop over the generated ids, with `next` for `++counts[id]`. -/
def collectGeneratedWith (next : Int → Int) (vocab : Nat) :
    (ids : List Int) → TokenHistory → StatusOr TokenHistory
  | [], history => .ok history
  | id :: ids, history => do
      validateTokenId vocab id "generated"
      collectGeneratedWith next vocab ids
        ⟨history.counts.insert id (next ((history.counts.lookup id).getD 0)),
          history.seen.insert id⟩

/-- `++count` on an `int32`. -/
def nextInt32 (count : Int) : Int := toInt32 (count + 1)

/-- `ApplyPenalties`: its status, and the row it leaves. -/
def applyPenaltiesInPlace (m : FloatModel) (next : Int → Int) (orders : PenaltyOrders)
    (logits : List F32) (promptIds generatedIds : List Int)
    (repetitionPenalty presencePenalty frequencyPenalty : F32) : StatusOr Unit × List F32 :=
  let repetition := repetitionPenalty ≠ .finite 1
  let presence := presencePenalty ≠ .finite 0
  let frequency := frequencyPenalty ≠ .finite 0
  if ¬repetition ∧ ¬presence ∧ ¬frequency then (.ok (), logits)
  else
    match collectGeneratedWith next logits.length generatedIds ⟨∅, []⟩ with
    | .error status => (.error status, logits)
    | .ok history =>
        match collectPrompt logits.length promptIds history with
        | .error status => (.error status, logits)
        | .ok history =>
            let logits :=
              if repetition then
                applyRepetition m repetitionPenalty (orders.repetition.arrange history.seen) logits
              else logits
            let logits :=
              if frequency then
                applyFrequency m frequencyPenalty (orders.frequency.arrange history.entries) logits
              else logits
            let logits :=
              if presence then
                applyPresence m presencePenalty (orders.presence.arrange history.entries) logits
              else logits
            (.ok (), logits)

/-- What a logit becomes in exact arithmetic: of its token only matters whether it occurs at all,
and how often it was generated. -/
def penalizedLogit (r p f : Rat) (seen : Bool) (count : Nat) (x : F32) : F32 :=
  let x :=
    if seen then
      if x.lt (.finite 0) then x.mul .finite (.finite r) else x.div .finite (.finite r)
    else x
  (x.sub .finite (.finite (f * count))).sub .finite (.finite (if 0 < count then p else 0))

end InferenceEngine
