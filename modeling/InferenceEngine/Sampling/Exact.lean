/-
Sampling in exact arithmetic, and the nucleus as a set of tokens.

`exactFloats` rounds nothing and leaves the exponential open.  `ApplyTopP` stands here with the
buffer its caller hands it, next to what it is for: the shortest run of the most probable tokens
of the whole vocabulary whose mass reaches `top_p`.
-/
import InferenceEngine.Sampling.SampleRow
import InferenceEngine.Lib.WeightedChoice

namespace InferenceEngine

/-- Arithmetic without rounding, with `e` for the exponential. -/
def exactFloats (e : Rat → Rat) (log : F32 → F32) : FloatModel where
  single := .finite
  double := .finite
  exp x :=
    match x with
    | .finite x => .finite (e x)
    | .infinity true => .finite 0
    | x => x
  log := log

section

variable (m : FloatModel)

/-- The loop of `ApplyTopP` that fills `order`, from the index `v`. -/
def pushPositive : (rest : List F32) → (v : Nat) → (order : List Int) → List Int
  | [], _, order => order
  | p :: rest, v, order =>
      pushPositive rest (v + 1) (if F32.lt (.finite 0) p then order ++ [toInt32 v] else order)

/-- `ApplyTopP` with the buffer `order` it is handed, and what it leaves in the buffer. -/
def applyTopPInto (probs : List F32) (topP : F32) (order : List Int) :
    Checked (List F32 × List Int) :=
  if F32.le (.finite 1) topP then .ok (probs, order)
  else do
    let order := []  -- `order.clear()`
    let order := pushPositive probs 0 order
    let order ← readOrder probs order
    let order := sortOrder order
    let kept := nucleusSize m topP order (.finite 0)
    pure (zeroProbs (order.drop kept) probs, order.map Prod.fst)

/-- The draw of `SampleStochastic` for the uniform number `u`. -/
def drawAt (work : List F32) (params : SamplingParams) (u : F32) : Checked Int := do
  let probs ← applyTopP m (softmax m (applyTopK work params.topK)) params.topP
  pure (selectByCdf m probs u)

end

/-- Parameters whose numbers are in the ranges of the stages, with the temperature `t` and the
threshold `q` of top-p. -/
structure ExactSettings (params : SamplingParams) (t q : Rat) : Prop where
  temperature : params.temperature = .finite t
  temperature_pos : 0 < t
  repetition : ∃ r, params.repetitionPenalty = .finite r ∧ 0 < r
  presence : ∃ p, params.presencePenalty = .finite p
  frequency : ∃ f, params.frequencyPenalty = .finite f
  topP : params.topP = .finite q
  topP_pos : 0 < q
  topP_le : q ≤ 1

/-! ### The reference

What the stages are to compute, without buffers: by sorting, filtering and adding up. -/

/-- The probability of a token. -/
def probOf (probs : List Rat) (v : Nat) : Rat := probs.getD v 0

/-- `a` does not come after `b`: by descending probability, then by ascending id. -/
def rankLe (probs : List Rat) (a b : Nat) : Bool :=
  decide (probOf probs b < probOf probs a) || (probOf probs a == probOf probs b && decide (a ≤ b))

/-- All tokens by descending probability, then by ascending id. -/
def fullOrder (probs : List Rat) : List Nat :=
  (List.range probs.length).mergeSort (rankLe probs)

/-- The shortest run of the most probable tokens whose mass reaches `topP`, or all of them. -/
def nucleusIds (probs : List Rat) (topP : Rat) : List Nat :=
  (fullOrder probs).take
    (WeightedPrefix.shortestPrefix (probOf probs) topP (fullOrder probs))

/-- The probabilities with all tokens outside the nucleus zeroed. -/
def topPReference (probs : List Rat) (topP : Rat) : List Rat :=
  probs.mapIdx fun v p => if v ∈ nucleusIds probs topP then p else 0

/-- The `k`-th largest entry of a row. -/
def kthLargest (row : List F32) (k : Nat) : F32 :=
  (row.mergeSort fun a b => b.le a).getD (k - 1) .nan

/-- Whether top-k leaves the logit `x` of the row `work` alone. -/
def keptByTopK (work : List F32) (k : Int) (x : F32) : Bool :=
  k ≤ 0 || work.length ≤ k || (kthLargest work k.toNat).le x

/-- The weights of the tokens that pass top-k, relative to the logit `top`. -/
def survivorWeights (e : Rat → Rat) (top : Rat) (work : List F32) (k : Int) : List Rat :=
  work.map fun x =>
    match x with
    | .finite y => if keptByTopK work k x then e (y - top) else 0
    | _ => 0

/-- Their probabilities. -/
def survivorProbs (e : Rat → Rat) (top : Rat) (work : List F32) (k : Int) : List Rat :=
  let weights := survivorWeights e top work k
  weights.map fun w => w / weights.sum

end InferenceEngine
