/-
The batched sampler with the buffers it keeps: `sampling/batched_sampler.cpp`.

A slot of scratch serves row after row and call after call, and nothing empties it in between.
The stages stand here in the form the code has them, with the buffers they are handed; what a
buffer holds at the start is whatever the last row left in it.  The rows of a call run in the
order in which the chunks of the region do.
-/
import InferenceEngine.Core.Integer
import InferenceEngine.Parallel.Schedule
import InferenceEngine.Sampling.Exact

namespace InferenceEngine

/-- `detail::RowScratch`. -/
structure RowScratch where
  logits : List F32 := []
  probs : List F32 := []
  lp : List F32 := []
  expScratch : List F32 := []
  topPOrder : List Int := []
deriving DecidableEq, Repr

section

variable {α β : Type}

/-- `buffer.assign(n, value)`. -/
def assigned (_buffer : List β) (n : Nat) (value : β) : List β := List.replicate n value

/-- A loop over a row that writes, at the index of an element, what `f` makes of it. -/
def writeLoop (f : α → Option β) : (rest : List α) → (v : Nat) → (buffer : List β) → List β
  | [], _, buffer => buffer
  | x :: rest, v, buffer =>
      match f x with
      | some y => writeLoop f rest (v + 1) (buffer.set v y)
      | none => writeLoop f rest (v + 1) buffer

end

variable (m : FloatModel)

/-! ### The stages and their buffers

Each stage writes into scratch that earlier rows have used.  What it leaves there is part of the
model, so that it can be shown not to matter. -/

/-- `Softmax`: what it leaves in `probs` and in `exp_scratch`. -/
def softmaxInto (logits probs expScratch : List F32) : List F32 × List F32 :=
  let probs := assigned probs logits.length (.finite 0)
  let expScratch := assigned expScratch logits.length (.finite 0)
  let top := maxLogit logits
  let expScratch := writeLoop (fun x => some (x.sub m.single top)) logits 0 expScratch
  let expScratch := expScratch.map m.exp  -- `ExpF32`, in place
  let probs := writeLoop some expScratch 0 probs
  let inv := F32.div m.double (.finite 1) (sumDoubles m expScratch)
  (probs.map fun p => p.mul m.double inv, expScratch)

/-- `LogSoftmax`: what it leaves in `lp` and in `exp_scratch`. -/
def logSoftmaxInto (logits lp expScratch : List F32) : List F32 × List F32 :=
  let lp := assigned lp logits.length (.infinity true)
  let expScratch := assigned expScratch logits.length (.finite 0)
  let top := maxLogit logits
  let expScratch := writeLoop (fun x => some (x.sub m.single top)) logits 0 expScratch
  let expScratch := expScratch.map m.exp
  let logZ := m.log (sumDoubles m expScratch)
  let lp := writeLoop
    (fun x => if x.isFinite then some ((x.sub m.double top).sub m.double logZ) else none)
    logits 0 lp
  (lp, expScratch)

/-- The row that `SampleGreedy` reads: the caller's, or a penalized copy in the scratch. -/
def greedyRow (logits : List F32) (context : SampleContext) (params : SamplingParams)
    (scratch : RowScratch) : StatusOr (List F32) × RowScratch :=
  if penaltiesActive params then
    let scratch := { scratch with logits := logits }
    match penalizedRow m scratch.logits context params with
    | .error status => (.error status, scratch)
    | .ok row => (.ok row, { scratch with logits := row })
  else (.ok logits, scratch)

/-- `SampleGreedy`. -/
def sampleGreedyInto (logits : List F32) (context : SampleContext) (params : SamplingParams)
    (wantLogprobs : Bool) (scratch : RowScratch) :
    Checked (StatusOr SampleResult × RowScratch) :=
  if !penaltiesActive params && !wantLogprobs then
    pure ((argmaxRow logits).map fun token => ⟨token, none⟩, scratch)
  else if logits = [] then
    pure (.error (invalidArgumentError "logits row must be non-empty"), scratch)
  else
    match greedyRow m logits context params scratch with
    | (.error status, scratch) => pure (.error status, scratch)
    | (.ok row, scratch) =>
        match argmaxRow row with
        | .error status => pure (.error status, scratch)
        | .ok token =>
            if wantLogprobs then
              match checkFinite row with
              | .error status => pure (.error status, scratch)
              | .ok () => do
                  let (lp, expScratch) := logSoftmaxInto m row scratch.lp scratch.expScratch
                  let scratch := { scratch with lp := lp, expScratch := expScratch }
                  let logprobs ← extractLogprobs m scratch.lp token params.logprobs
                  pure (.ok ⟨token, some logprobs⟩, scratch)
            else pure (.ok ⟨token, none⟩, scratch)

/-- `SampleStochastic` from the scaled row in the scratch on. -/
def drawTokenInto (params : SamplingParams) (seed step : BitVec 64) (wantLogprobs : Bool)
    (scratch : RowScratch) : Checked (SampleResult × RowScratch) := do
  let scratch :=
    if wantLogprobs then
      let (lp, expScratch) := logSoftmaxInto m scratch.logits scratch.lp scratch.expScratch
      { scratch with lp := lp, expScratch := expScratch }
    else scratch
  let scratch := { scratch with logits := applyTopK scratch.logits params.topK }
  let (probs, expScratch) := softmaxInto m scratch.logits scratch.probs scratch.expScratch
  let scratch := { scratch with probs := probs, expScratch := expScratch }
  let (probs, order) ← applyTopPInto m scratch.probs params.topP scratch.topPOrder
  let scratch := { scratch with probs := probs, topPOrder := order }
  let u := philoxUniformDouble seed step 0
  let token := selectByCdf m scratch.probs u
  if wantLogprobs then
    let logprobs ← extractLogprobs m scratch.lp token params.logprobs
    pure (⟨token, some logprobs⟩, scratch)
  else pure (⟨token, none⟩, scratch)

/-- `SampleStochastic`. -/
def sampleStochasticInto (logits : List F32) (context : SampleContext) (params : SamplingParams)
    (seed step : BitVec 64) (wantLogprobs : Bool) (scratch : RowScratch) :
    Checked (StatusOr SampleResult × RowScratch) :=
  if logits = [] then
    pure (.error (invalidArgumentError "logits row must be non-empty"), scratch)
  else
    match checkFinite logits with
    | .error status => pure (.error status, scratch)
    | .ok () =>
        let scratch := { scratch with logits := logits }
        match penalizedRow m scratch.logits context params with
        | .error status => pure (.error status, scratch)
        | .ok work => do
            let work := applyTemperature m work params.temperature
            let scratch := { scratch with logits := work }
            let (result, scratch) ← drawTokenInto m params seed step wantLogprobs scratch
            pure (.ok result, scratch)

/-- `detail::SampleRow` with the scratch it is handed, and what it leaves there. -/
def sampleRowInto (logits : List F32) (context : SampleContext) (params : SamplingParams)
    (seed : BitVec 64) (wantLogprobs : Bool) (scratch : RowScratch) :
    Checked (StatusOr SampleResult × RowScratch) :=
  if params.temperature = .finite 0 then
    sampleGreedyInto m logits context params wantLogprobs scratch
  else
    let step := BitVec.ofNat 64 context.generatedIds.length
    sampleStochasticInto m logits context params seed step wantLogprobs scratch

/-! ### A call

The rows are cut into sub-ranges.  A row brings its own sampler and is given its own scratch. -/

/-- The arguments of a call of `BatchedSampler::Sample`, with what the two result spans hold,
and the sub-ranges of rows that its region runs, in the order in which it runs them. -/
structure BatchCall where
  logits : List F32
  vocab : Int
  rows : List BatchRow
  out : List SampleResult
  rowStatus : List (StatusOr Unit)
  chunks : List (Int × Int)
  /-- the `[B, V]` block has a size -/
  block_fits : rows.length * vocab.toNat < 2 ^ 64
  partition : Parallel.Partition rows.length chunks

/-- What the rows of a call write. -/
structure BatchSlots where
  scratch : List RowScratch
  out : List SampleResult
  rowStatus : List (StatusOr Unit)

namespace BatchCall

variable (call : BatchCall)

/-- What `BatchedSampler::Sample` checks before the region. -/
def validate : StatusOr Unit :=
  if call.vocab ≤ 0 then
    .error (invalidArgumentError s!"vocab must be > 0 (got {call.vocab})")
  else if call.out.length ≠ call.rows.length then
    .error (invalidArgumentError
      s!"out size {call.out.length} must equal rows size {call.rows.length}")
  else if call.rowStatus.length ≠ call.rows.length then
    .error (invalidArgumentError
      s!"row_status size {call.rowStatus.length} must equal rows size {call.rows.length}")
  else if call.logits.length ≠ mulSize call.rows.length call.vocab.toNat then
    .error (invalidArgumentError
      s!"logits size {call.logits.length} must equal batch {call.rows.length} * vocab {call.vocab}")
  else
    match call.rows.findIdx? (fun r => r.sampler.isNone) with
    | some b => .error (invalidArgumentError s!"rows[{b}].sampler is null")
    | none => .ok ()

/-- The logits of row `b`; a `subspan` that is not inside the span is undefined. -/
def rowLogits (b : Nat) : Checked (List F32) :=
  if b * call.vocab.toNat + call.vocab.toNat ≤ call.logits.length then
    .ok (BatchedSampler.row call.logits call.vocab.toNat b)
  else .error .outOfBounds

/-- The body of the region for row `b`. -/
def runRow (slots : BatchSlots) (b : Nat) : Checked BatchSlots := do
  let row ← readAt call.rows b
  let rowLogits ← call.rowLogits b
  match row.sampler with
  | none => .error .nullDereference
  | some sampler =>
      let wantLogprobs := 0 < sampler.params.logprobs
      let scratch ← readAt slots.scratch b
      let (result, scratch) ← sampleRowInto m rowLogits row.context sampler.params
        (BitVec.ofNat 64 sampler.seed) wantLogprobs scratch
      let scratches ← writeAt slots.scratch b scratch
      match result with
      | .ok result => do
          let out ← writeAt slots.out b result
          let rowStatus ← writeAt slots.rowStatus b (.ok ())
          pure ⟨scratches, out, rowStatus⟩
      | .error status => do
          let rowStatus ← writeAt slots.rowStatus b (.error status)
          pure ⟨scratches, slots.out, rowStatus⟩

end BatchCall

namespace BatchedSampler

/-- `scratch_` grown to the size of the batch; it never shrinks. -/
def grown (scratch : List RowScratch) (batch : Nat) : List RowScratch :=
  scratch ++ List.replicate (batch - scratch.length) ({ } : RowScratch)

/-- `BatchedSampler::Sample` on the scratch that the calls before it left. -/
def sampleInto (scratch : List RowScratch) (call : BatchCall) :
    Checked (StatusOr Unit × BatchSlots) :=
  match call.validate with
  | .error status => pure (.error status, ⟨scratch, call.out, call.rowStatus⟩)
  | .ok () =>
      if call.rows = [] then pure (.ok (), ⟨scratch, call.out, call.rowStatus⟩)
      else do
        let slots ← (Parallel.units call.chunks).foldlM (call.runRow m)
          ⟨grown scratch call.rows.length, call.out, call.rowStatus⟩
        pure (.ok (), slots)

/-- Calls one after the other on one sampler: what each of them leaves. -/
def sampleCalls : (calls : List BatchCall) → (scratch : List RowScratch) →
    Checked (List (StatusOr Unit × BatchSlots))
  | [], _ => pure []
  | call :: calls, scratch => do
      let (status, slots) ← sampleInto m scratch call
      let rest ← sampleCalls calls slots.scratch
      pure ((status, slots) :: rest)

end BatchedSampler

/-! ### What a call is to leave

The slots of a row are compared with what the row alone would give. -/

namespace BatchCall

variable (call : BatchCall)

/-- What the row's own sampler makes of its logits, with nobody else around. -/
def own (b : Nat) (row : BatchRow) (sampler : Sampler) : Checked (StatusOr SampleResult) :=
  m.sampleWithLogprobs sampler (BatchedSampler.row call.logits call.vocab.toNat b) row.context

/-- The slots of row `b` show its own result, or its own error beside what `out` held. -/
structure RowSeparate (slots : BatchSlots) (b : Nat) (row : BatchRow) : Prop where
  shown : ∃ sampler result, row.sampler = some sampler ∧ call.own m b row sampler = .ok result ∧
    slots.rowStatus[b]? = some (result.map fun _ => ()) ∧
    slots.out[b]? = match result with
      | .ok result => some result
      | .error _ => call.out[b]?

/-- A rejected call changes nothing; an accepted one leaves in the slots of each row what the
row alone would give. -/
structure Separate (outcome : StatusOr Unit × BatchSlots) : Prop where
  status : outcome.1 = call.validate
  sizes : outcome.2.out.length = call.out.length ∧
    outcome.2.rowStatus.length = call.rowStatus.length
  rejected : ∀ status, call.validate = .error status →
    outcome.2.out = call.out ∧ outcome.2.rowStatus = call.rowStatus
  accepted : call.validate = .ok () → ∀ b row, call.rows[b]? = some row →
    call.RowSeparate m outcome.2 b row

/-- The rows of the call that get to their samplers return from them. -/
def RowsReturn : Prop :=
  call.validate = .ok () → ∀ b row sampler, call.rows[b]? = some row →
    row.sampler = some sampler → ∃ result, call.own m b row sampler = .ok result

end BatchCall

end InferenceEngine
