/-
The sampling stages: `sampling/stages.cpp`.

A row of logits holds floats, a row of probabilities doubles; the arithmetic of both is that
of a `FloatModel`.  A token id is an `int32`, so the index of a row goes through `toInt32`
wherever the code narrows it.  The scratch buffers of the code are overwritten before they
are read, and the iteration order of its hash maps does not matter: the ids in them are
distinct, and the work on one logit does not depend on the others.
-/
import InferenceEngine.Sampling.Philox
import InferenceEngine.Sampling.Sampler
import Mathlib.Data.List.AList

namespace InferenceEngine

/-! ### Logits

The stages that work on logits change them in place, in the order of the source. -/

/-- The loop of `CheckFinite`, from the logit at `v`. -/
def checkFiniteLoop : (rest : List F32) → (v : Nat) → (anyFinite : Bool) → StatusOr Unit
  | [], _, anyFinite =>
      if anyFinite then .ok ()
      else .error (internalError "every logit is -inf; no token can be sampled")
  | x :: rest, v, anyFinite =>
      if x.isNan then .error (internalError s!"logits[{v}] is NaN (upstream numerics bug)")
      else if x = .infinity false then
        .error (internalError s!"logits[{v}] is +inf (upstream numerics bug)")
      else checkFiniteLoop rest (v + 1) (anyFinite || x.isFinite)

/-- `CheckFinite`. -/
def checkFinite (logits : List F32) : StatusOr Unit := checkFiniteLoop logits 0 false

/-- The history `ApplyPenalties` collects: `counts` and `seen`. -/
structure TokenHistory where
  counts : AList (fun _ : Int => Int)
  seen : List Int

/-- The lambda `validate`. -/
def validateTokenId (vocab : Nat) (id : Int) (source : String) : StatusOr Unit :=
  if id < 0 ∨ vocab ≤ id then
    .error (invalidArgumentError s!"{source} token id {id} out of range for vocab size {vocab}")
  else .ok ()

/-- The loop over the generated ids. -/
def collectGenerated (vocab : Nat) : (ids : List Int) → TokenHistory → StatusOr TokenHistory
  | [], history => .ok history
  | id :: ids, history => do
      validateTokenId vocab id "generated"
      collectGenerated vocab ids
        ⟨history.counts.insert id (toInt32 ((history.counts.lookup id).getD 0 + 1)),
          history.seen.insert id⟩

/-- The loop over the prompt ids. -/
def collectPrompt (vocab : Nat) : (ids : List Int) → TokenHistory → StatusOr TokenHistory
  | [], history => .ok history
  | id :: ids, history => do
      validateTokenId vocab id "prompt"
      collectPrompt vocab ids { history with seen := history.seen.insert id }

/-- A loop over a history that changes the logit of each of its ids. -/
def updateLogits {κ : Type} (tokenId : κ → Int) (f : κ → F32 → F32) :
    (keys : List κ) → (logits : List F32) → List F32
  | [], logits => logits
  | key :: keys, logits =>
      updateLogits tokenId f keys (logits.modify (tokenId key).toNat (f key))

section

variable (m : FloatModel)

/-- What the repetition penalty makes of the logit of a seen token. -/
def repeatedLogit (penalty x : F32) : F32 :=
  if x.lt (.finite 0) then x.mul m.single penalty else x.div m.single penalty

/-- The loop over `seen`. -/
def applyRepetition (penalty : F32) (seen : List Int) (logits : List F32) : List F32 :=
  updateLogits id (fun _ => repeatedLogit m penalty) seen logits

/-- The loop over `counts` of the frequency penalty. -/
def applyFrequency (penalty : F32) (counts : List (Int × Int)) (logits : List F32) : List F32 :=
  updateLogits Prod.fst
    (fun (entry : Int × Int) x => x.sub m.single (penalty.mul m.single (m.single entry.2)))
    counts logits

/-- The loop over `counts` of the presence penalty. -/
def applyPresence (penalty : F32) (counts : List (Int × Int)) (logits : List F32) : List F32 :=
  updateLogits Prod.fst (fun _ x => x.sub m.single penalty) counts logits

/-- The entries of `counts`. -/
def TokenHistory.entries (history : TokenHistory) : List (Int × Int) :=
  history.counts.entries.map fun entry => (entry.1, entry.2)

/-- `ApplyPenalties`. -/
def applyPenalties (logits : List F32) (promptIds generatedIds : List Int)
    (repetitionPenalty presencePenalty frequencyPenalty : F32) : StatusOr (List F32) :=
  let repetition := repetitionPenalty ≠ .finite 1
  let presence := presencePenalty ≠ .finite 0
  let frequency := frequencyPenalty ≠ .finite 0
  if ¬repetition ∧ ¬presence ∧ ¬frequency then .ok logits
  else do
    let history ← collectGenerated logits.length generatedIds ⟨∅, []⟩
    let history ← collectPrompt logits.length promptIds history
    let logits :=
      if repetition then applyRepetition m repetitionPenalty history.seen logits else logits
    let logits :=
      if frequency then applyFrequency m frequencyPenalty history.entries logits else logits
    let logits :=
      if presence then applyPresence m presencePenalty history.entries logits else logits
    pure logits

/-- `ApplyTemperature`. -/
def applyTemperature (logits : List F32) (temperature : F32) : List F32 :=
  logits.map fun x => x.div m.single temperature

/-- `ApplyTopK`; `std::nth_element` puts at `k - 1` what a sort would put there. -/
def applyTopK (logits : List F32) (k : Int) : List F32 :=
  if k ≤ 0 ∨ logits.length ≤ k then logits
  else
    let threshold := (logits.mergeSort fun a b => !a.lt b).getD (k - 1).toNat .nan
    logits.map fun x => if x.lt threshold then .infinity true else x

/-! ### Probabilities

Sums are doubles and are taken in ascending order of the ids.  A comparison with no number is
false, which decides what is sorted where. -/

/-- `max_logit`. -/
def maxLogit (logits : List F32) : F32 := logits.foldl F32.max (.infinity true)

/-- `exp_scratch` after the kernel. -/
def expShifted (logits : List F32) : List F32 :=
  logits.map fun x => m.exp (x.sub m.single (maxLogit logits))

/-- A sum of doubles in ascending order. -/
def sumDoubles (values : List F32) : F32 := values.foldl (F32.add m.double) (.finite 0)

/-- `Softmax`. -/
def softmax (logits : List F32) : List F32 :=
  let weights := expShifted m logits
  let inv := F32.div m.double (.finite 1) (sumDoubles m weights)
  weights.map fun p => p.mul m.double inv

/-- `a` goes before `b`: the larger value first, the smaller id among equal ones. -/
def beforeById (a b : Int × F32) : Bool :=
  if a.2 ≠ b.2 then b.2.lt a.2 else a.1 < b.1

/-- The ids of `order`, each with the value the comparisons read at it.  Sorting compares
every id, so a read outside the row faults here. -/
def readOrder (values : List F32) : (order : List Int) → Checked (List (Int × F32))
  | [] => .ok []
  | id :: order => do
      let value ← readAt values id
      let rest ← readOrder values order
      pure ((id, value) :: rest)

/-- The sort of an order by value. -/
def sortOrder (order : List (Int × F32)) : List (Int × F32) :=
  order.mergeSort fun a b => !beforeById b a

/-- The walk of `ApplyTopP`: how many of the sorted tokens are kept. -/
def nucleusSize (threshold : F32) : (order : List (Int × F32)) → (cumulative : F32) → Nat
  | [], _ => 0
  | (_, p) :: order, cumulative =>
      let cumulative := cumulative.add m.double p
      if threshold.le cumulative then 1 else nucleusSize threshold order cumulative + 1

/-- The ids with a positive probability, in ascending order of their indices. -/
def positiveIds (probs : List F32) : List Int :=
  ((List.range probs.length).filter fun v => F32.lt (.finite 0) (probs.getD v .nan)).map
    fun v : Nat => toInt32 v

/-- The zeroing of the tokens behind the nucleus. -/
def zeroProbs : (order : List (Int × F32)) → (probs : List F32) → List F32
  | [], probs => probs
  | (id, _) :: order, probs => zeroProbs order (probs.set id.toNat (.finite 0))

/-- `ApplyTopP`. -/
def applyTopP (probs : List F32) (topP : F32) : Checked (List F32) :=
  if F32.le (.finite 1) topP then .ok probs
  else do
    let order ← readOrder probs (positiveIds probs)
    let order := sortOrder order
    let kept := nucleusSize m topP order (.finite 0)
    pure (zeroProbs (order.drop kept) probs)

/-- The first loop of `SelectByCdf`: the last id with a positive probability. -/
def lastPositive : (rest : List F32) → (v : Nat) → (last : Int) → Int
  | [], _, last => last
  | p :: rest, v, last =>
      lastPositive rest (v + 1) (if F32.lt (.finite 0) p then toInt32 v else last)

/-- The second loop of `SelectByCdf`. -/
def cdfLoop (target : F32) (fallback : Int) : (rest : List F32) → (v : Nat) →
    (cumulative : F32) → Int
  | [], _, _ => fallback
  | p :: rest, v, cumulative =>
      let cumulative := cumulative.add m.double p
      if target.lt cumulative ∧ F32.lt (.finite 0) p then toInt32 v
      else cdfLoop target fallback rest (v + 1) cumulative

/-- `SelectByCdf`. -/
def selectByCdf (probs : List F32) (u : F32) : Int :=
  cdfLoop m (u.mul m.double (sumDoubles m probs)) (lastPositive probs 0 (-1)) probs 0 (.finite 0)

/-! ### Log-probabilities

They are computed from the logits, as they are given, and not from what was drawn from. -/

/-- `LogSoftmax`. -/
def logSoftmax (logits : List F32) : List F32 :=
  let logZ := m.log (sumDoubles m (expShifted m logits))
  logits.map fun x =>
    if x.isFinite then (x.sub m.double (maxLogit logits)).sub m.double logZ else .infinity true

/-- `ExtractLogprobs`. -/
def extractLogprobs (lp : List F32) (chosen topN : Int) : Checked StepLogprobs := do
  let chosenLogprob ← readAt lp chosen
  let n := Nat.min topN.toNat lp.length
  if n = 0 then pure ⟨chosenLogprob.convert m.single, []⟩
  else
    let order ← readOrder lp ((List.range lp.length).map fun v : Nat => toInt32 v)
    let first := (sortOrder order).take n
    pure ⟨chosenLogprob.convert m.single,
      (first.takeWhile fun entry => entry.2.isFinite).map fun entry =>
        ⟨entry.1, entry.2.convert m.single⟩⟩

end

end InferenceEngine
