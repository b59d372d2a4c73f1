/-
The engine: `runtime/engine.h` and `engine.cpp`.

The command queue is what the clients and the engine thread share under `cmd_mu_`; everything
else belongs to the engine thread.  A pointer to an entry is the id of its request.  What the
thread does to the output channels is kept as a log, `outbox`, in the order in which it does
it: the thread never reads a channel, except that a push checks that its channel is open.
-/
import InferenceEngine.Engine.Generate
import InferenceEngine.Lib.IdMap
import InferenceEngine.Lib.Transition
import InferenceEngine.Runtime.Channel
import InferenceEngine.Scheduler.Scheduler

namespace InferenceEngine

/-- What the engine calls: the model, the sampler of one row, and the order in which the hash
map of requests enumerates its keys.  The sampler is one that returns: `SampleRow` itself reads
out of bounds where no candidate is left, at a temperature of `2 ^ -126` say. -/
structure Services (σ α : Type) where
  model : Model σ α
  sampleRow : SampleRow
  order : List Nat → List Nat
  order_perm : ∀ ids, (order ids).Perm ids

/-- `runtime::EngineConfig`. -/
structure EngineConfig where
  maxNumSeqs : Int
  maxNumBatchedTokens : Int
  maxModelLen : Int
deriving DecidableEq, Repr

/-- `Engine::Entry`. -/
structure Entry where
  request : Request
  seq : Sequence
  cancelRequested : Bool

/-- `SubmitCmd` and `CancelCmd`. -/
inductive Command where
  | submit (entry : Entry)
  | cancel (id : Nat)

/-- The submission queue, guarded by `cmd_mu_`. -/
structure CommandQueue where
  commands : List Command
  nextId : Nat
  nextArrival : Nat
  stopRequested : Bool

/-- The state of the engine thread. -/
structure EngineLoop (σ α : Type) where
  config : EngineConfig
  maxModelLen : Int
  state : σ
  shared : SharedPool α
  requests : IdMap Entry
  waiting : List Nat
  running : List Nat
  preemptionCount : Nat
  outbox : List ChannelOp

/-- `runtime::Engine`. -/
structure Engine (σ α : Type) where
  queue : CommandQueue
  loop : EngineLoop σ α

namespace EngineLoop

variable {σ α : Type}

/-- `requests_.at(id)`. -/
def entry (e : EngineLoop σ α) (id : Nat) : Checked Entry :=
  match e.requests.lookup id with
  | some entry => .ok entry
  | none => .error .missingKey

/-- The entry of a request with another sequence. -/
def setSeq (e : EngineLoop σ α) (id : Nat) (entry : Entry) (seq : Sequence) : EngineLoop σ α :=
  { e with requests := e.requests.insert id { entry with seq := seq } }

/-- Whether the channel of a request has been closed. -/
def closed (e : EngineLoop σ α) (id : Nat) : Bool :=
  e.outbox.any fun op => op.isClose && op.id = id

/-- `channel()->Push`. -/
def push (e : EngineLoop σ α) (id : Nat) (item : OutputItem) : Checked (EngineLoop σ α) := do
  check (!e.closed id) "Push on a closed OutputChannel"
  pure { e with outbox := e.outbox ++ [.push id item] }

/-- `channel()->Close`. -/
def close (e : EngineLoop σ α) (id : Nat) (info : FinishInfo) : EngineLoop σ α :=
  { e with outbox := e.outbox ++ [.close id info] }

/-- `cache_.reset()`: the destructor gives the blocks back. -/
def releaseCache (e : EngineLoop σ α) (cache : Option PagedKvCache) :
    Checked (EngineLoop σ α) :=
  match cache with
  | none => pure e
  | some c => do
      let pool ← c.destroy e.shared.pool
      pure { e with shared := { e.shared with pool := pool } }

/-- `requests_.erase(id)`: the sequence's cache is destroyed with it. -/
def eraseRequest (e : EngineLoop σ α) (id : Nat) : Checked (EngineLoop σ α) :=
  match e.requests.lookup id with
  | none => pure e
  | some entry => do
      let e ← e.releaseCache entry.seq.cache
      pure { e with requests := e.requests.erase id }

/-- `seq.Transition(next)` on the sequence of a request. -/
def transition (e : EngineLoop σ α) (id : Nat) (next : SeqState) : Checked (EngineLoop σ α) := do
  let entry ← e.entry id
  let seq ← entry.seq.transition next
  pure (e.setSeq id entry seq)

/-- `set_error` and the transition to `kFailed`. -/
def fail (e : EngineLoop σ α) (id : Nat) (error : Status) : Checked (EngineLoop σ α) := do
  let entry ← e.entry id
  let seq ← (entry.seq.setError error).transition .failed
  pure (e.setSeq id entry seq)

/-! ### Steps 1 and 2

The commands are drained before anything else, so a cancel is honoured in the step that drains
it. -/

/-- One turn of `DrainCommands`. -/
def drainCommand (e : EngineLoop σ α) : Command → EngineLoop σ α
  | .submit entry =>
      let id := entry.request.id
      { e with
        waiting := e.waiting ++ [id]
        requests := if id ∈ e.requests then e.requests else e.requests.insert id entry }
  | .cancel id =>
      match e.requests.lookup id with
      | none => e
      | some entry =>
          { e with requests := e.requests.insert id { entry with cancelRequested := true } }

/-- `DrainCommands`, once the queue has been swapped out. -/
def drainCommands (e : EngineLoop σ α) (commands : List Command) : EngineLoop σ α :=
  commands.foldl drainCommand e

/-- `CloseCancelled`. -/
def closeCancelled (e : EngineLoop σ α) (id : Nat) : Checked (EngineLoop σ α) := do
  let e ← e.transition id .cancelled
  pure (e.close id { terminal := .cancelled })

/-- The turn of `RetireCancelled` that closes. -/
def cancelOne (er : EngineLoop σ α × List Nat) (id : Nat) :
    Checked (EngineLoop σ α × List Nat) := do
  let entry ← er.1.entry id
  if entry.cancelRequested && !entry.seq.isTerminal then
    let e ← er.1.closeCancelled id
    pure (e, er.2 ++ [id])
  else pure er

/-- A retired request leaves the lists and the map. -/
def retire (e : EngineLoop σ α) (id : Nat) : Checked (EngineLoop σ α) :=
  { e with
    waiting := e.waiting.filter (· ≠ id)
    running := e.running.filter (· ≠ id) }.eraseRequest id

/-- `RetireCancelled`. -/
def retireCancelled (S : Services σ α) (e : EngineLoop σ α) : Checked (EngineLoop σ α) := do
  let (e, retired) ← (S.order e.requests.keys).foldlM cancelOne (e, [])
  retired.foldlM retire e

/-! ### Steps 3 to 5: scheduling, preemption, admission

The scheduler works on descriptors and changes nothing.  Its plan is carried out here: the
victims go to the front of the queue, and the admitted are given caches. -/

/-- The descriptor of a waiting sequence. -/
def waitingDesc (e : EngineLoop σ α) (id : Nat) : Checked SeqDesc := do
  let entry ← e.entry id
  pure
    { id := id
      arrivalIndex := entry.request.arrivalIndex
      numComputedTokens := 0
      numPromptTokens := entry.request.promptIds.length + entry.seq.numGenerated
      blocksHeld := 0 }

/-- The descriptor of a running sequence. -/
def runningDesc (e : EngineLoop σ α) (id : Nat) : Checked SeqDesc := do
  let entry ← e.entry id
  match entry.seq.cache with
  | none => throw .nullDereference
  | some cache =>
      pure
        { id := id
          arrivalIndex := entry.request.arrivalIndex
          numComputedTokens := cache.length
          numPromptTokens := 0
          blocksHeld := cache.table.blocks.length }

/-- `ScheduleStep`.  The planner counts without bound here: what it adds up are blocks of the pool
and tokens of the live requests. -/
def scheduleStep (e : EngineLoop σ α) : Checked SchedulerOutput := do
  let waiting ← e.waiting.mapM e.waitingDesc
  let running ← e.running.mapM e.runningDesc
  Scheduler.schedule .ok
    { waiting := waiting
      running := running
      pool :=
        { freeBlocks := e.shared.pool.freeBlocks
          totalBlocks := e.shared.pool.numBlocks
          blockSize := e.shared.pool.blockSize }
      config :=
        { maxNumSeqs := e.config.maxNumSeqs
          maxNumBatchedTokens := e.config.maxNumBatchedTokens } }

/-- `PreemptSequence`. -/
def preemptSequence (e : EngineLoop σ α) (id : Nat) : Checked (EngineLoop σ α) := do
  let entry ← e.entry id
  let e ← e.releaseCache entry.seq.cache
  let seq ← ({ entry.seq with cache := none, numComputedTokens := 0 }).transition .preempted
  let e := e.setSeq id entry seq
  pure
    { e with
      running := e.running.filter (· ≠ id)
      waiting := id :: e.waiting
      preemptionCount := e.preemptionCount + 1 }

/-- One turn of the admission loop of `Step`. -/
def admitOne (e : EngineLoop σ α) (p : Prefill) : Checked (EngineLoop σ α) := do
  let entry ← e.entry p.id
  let seq ← entry.seq.ensureCache.transition .running
  let e := e.setSeq p.id entry seq
  pure
    { e with
      waiting := e.waiting.filter (· ≠ p.id)
      running := e.running ++ [p.id] }

/-- The decode members that are still running. -/
def decodeMembers (e : EngineLoop σ α) (decode : List Nat) : Checked (List Nat) :=
  decode.filterM fun id => do
    let entry ← e.entry id
    pure (entry.seq.state = .running)

/-! ### Steps 5 and 6: the batched passes

A pass is one forward for all of its members.  When that fails every member is served alone, and
only then can a member fail for itself. -/

/-- The assembler's input for one member of a pass. -/
def buildPassInput (e : EngineLoop σ α) (prefill : Bool) (id : Nat) : Checked BatchSeqInput := do
  let entry ← e.entry id
  let seq := entry.seq
  let context : SampleContext := ⟨entry.request.promptIds, seq.generatedIds⟩
  if prefill then
    pure ⟨entry.request.promptIds ++ seq.generatedIds, seq.cache, some seq.sampler, context⟩
  else
    match seq.generatedIds.getLast? with
    | none => throw .outOfBounds
    | some token => pure ⟨[token], seq.cache, some seq.sampler, context⟩

/-- `cache()->length()` of a member. -/
def cacheLength (e : EngineLoop σ α) (id : Nat) : Checked Nat := do
  let entry ← e.entry id
  match entry.seq.cache with
  | none => throw .nullDereference
  | some cache => pure cache.length

/-- The sequence of a request with another cache. -/
def setCache (e : EngineLoop σ α) (id : Nat) (cache : PagedKvCache) : EngineLoop σ α :=
  match e.requests.lookup id with
  | none => e
  | some entry => e.setSeq id entry { entry.seq with cache := some cache }

/-- `model_.forward` for some members: it works on their caches in place. -/
def forward (S : Services σ α) (e : EngineLoop σ α) (members : List Nat)
    (request : ForwardRequest) : Checked (StatusOr (Tensor F32) × EngineLoop σ α) := do
  let called ← S.model.call e.state request e.shared
  let e := { e with state := called.state, shared := called.shared }
  pure (called.logits, (members.zip called.caches).foldl (fun e mc => e.setCache mc.1 mc.2) e)

/-- `DeliverSampled`. -/
def deliverSampled (e : EngineLoop σ α) (id : Nat) (next : SampleResult) :
    Checked (EngineLoop σ α) := do
  let entry ← e.entry id
  let seq := entry.seq.appendGenerated next.token
  let (step, stop) := seq.stop.observe next.token seq.numGenerated
  let seq := { seq with stop := stop }
  match step with
  | .error status => do
      let seq ← (seq.setError status).transition .failed
      pure (e.setSeq id entry seq)
  | .ok step =>
    if step.finished then
      let (rest, stop) := seq.stop.finish
      let seq := ({ seq with stop := stop }).setFinish step.finishReason step.trigger
        step.matchedStop
      let e ← e.push id ⟨next.token, step.textDelta ++ rest, next.logprobs⟩
      let seq ← seq.transition .finished
      pure (e.setSeq id entry seq)
    else
      let e ← e.push id ⟨next.token, step.textDelta, next.logprobs⟩
      pure (e.setSeq id entry seq)

/-- `ExecuteAndDeliver`. -/
def executeAndDeliver (S : Services σ α) (e : EngineLoop σ α) (prefill : Bool) (id : Nat) :
    Checked (Bool × EngineLoop σ α) := do
  let entry ← e.entry id
  match entry.seq.cache with
  | none => throw .nullDereference
  | some cache =>
    let generated := entry.seq.generatedIds
    let (tokenIds, positions) ←
      if prefill then
        let tokenIds := entry.request.promptIds ++ generated
        pure (tokenIds, positionsFrom 0 tokenIds.length)
      else
        match generated.getLast? with
        | none => throw .outOfBounds
        | some token => pure ([token], positionsFrom cache.length 1)
    let (logits, e) ← e.forward S [id] ⟨false, [⟨tokenIds, positions, cache⟩]⟩
    match logits with
    | .error status =>
        if !prefill && status.code = .resourceExhausted then pure (false, e)
        else do
          let e ← e.fail id status
          pure (true, e)
    | .ok logits => do
        let row ← lastRow logits
        match entry.seq.sampler.sampleWithLogprobs S.sampleRow row
            ⟨entry.request.promptIds, generated⟩ with
        | .error status => do
            let e ← e.fail id status
            pure (true, e)
        | .ok next => do
            let e ← e.deliverSampled id next
            pure (true, e)

/-- The scan of `PickPreemptionVictim`: the best victim so far, 0 for none. -/
def scanVictim (e : EngineLoop σ α) (exclude : Nat) (best : Nat × Nat) (id : Nat) :
    Checked (Nat × Nat) := do
  if id = exclude then return best
  let entry ← e.entry id
  if entry.seq.state ≠ .running then return best
  let arrival := entry.request.arrivalIndex
  if best.1 = 0 ∨ best.2 < arrival then return (id, arrival)
  return best

/-- `PickPreemptionVictim`. -/
def pickPreemptionVictim (e : EngineLoop σ α) (exclude : Nat) : Checked Nat := do
  let best ← e.running.foldlM (e.scanVictim exclude) (0, 0)
  pure best.1

/-- The message of a decode that nothing can be evicted for. -/
def noVictimError : Status :=
  resourceExhaustedError
    ("decode append could not allocate a block and no younger sequence could be preempted to " ++
      "free one")

/-- The retry loop of `RecoverForwardFailure`.  Every turn but the last evicts one running
sequence, so their number bounds the turns. -/
def recoverMember (S : Services σ α) (prefill : Bool) (id : Nat) :
    (fuel : Nat) → EngineLoop σ α → Checked (EngineLoop σ α)
  | 0, _ => throw .outOfFuel
  | fuel + 1, e => do
      let (advanced, e) ← e.executeAndDeliver S prefill id
      if advanced then return e
      let victim ← e.pickPreemptionVictim id
      if victim = 0 then e.fail id noVictimError
      else do
        let e ← e.preemptSequence victim
        recoverMember S prefill id fuel e

/-- `PreForwardLength`. -/
def preForwardLength (pass : List Nat) (preLen : List Nat) (id : Nat) : Nat :=
  match pass.idxOf? id with
  | some b => preLen.getD b 0
  | none => 0

/-- The turn of `RecoverForwardFailure` for one member. -/
def recoverOne (S : Services σ α) (prefill : Bool) (pass preLen : List Nat)
    (e : EngineLoop σ α) (id : Nat) : Checked (EngineLoop σ α) := do
  let entry ← e.entry id
  if entry.seq.state ≠ .running then return e
  match entry.seq.cache with
  | none => throw .nullDereference
  | some cache =>
    let (_, cache, pool) ← cache.truncate (preForwardLength pass preLen id) e.shared.pool
    let e := { e with shared := { e.shared with pool := pool } }.setCache id cache
    recoverMember S prefill id e.running.length e

/-- `RecoverForwardFailure`. -/
def recoverForwardFailure (S : Services σ α) (prefill : Bool) (pass preLen : List Nat)
    (e : EngineLoop σ α) : Checked (EngineLoop σ α) :=
  pass.foldlM (recoverOne S prefill pass preLen) e

/-- The delivery of one row. -/
def deliverRow (e : EngineLoop σ α) (row : Nat × SampleResult × StatusOr Unit) :
    Checked (EngineLoop σ α) :=
  match row.2.2 with
  | .ok _ => e.deliverSampled row.1 row.2.1
  | .error status => e.fail row.1 status

/-- `RunBatchPass`. -/
def runBatchPass (S : Services σ α) (prefill : Bool) (pass : List Nat) (e : EngineLoop σ α) :
    Checked (EngineLoop σ α) := do
  if pass.isEmpty then return e
  let seqs ← pass.mapM (e.buildPassInput prefill)
  match BatchAssembler.flatten (!prefill) seqs with
  | .error status => throw (.checkFailed s!"batch assembly failed: {status.message}")
  | .ok inputs =>
    let preLen ← pass.mapM e.cacheLength
    let (logits, e) ← e.forward S pass inputs.makeForwardRequest
    match logits with
    | .error _ => recoverForwardFailure S prefill pass preLen e
    | .ok logits =>
      let numSeqs := pass.length
      let vocab := S.model.vocabSize
      check ((logits.numel : Int) = numSeqs * vocab)
        s!"batched kLast forward returned {logits.numel} logits, expected {numSeqs}x{vocab}"
      let (sampled, results, rowStatus) := BatchedSampler.sample S.sampleRow logits.values vocab
        inputs.sampleRows (List.replicate numSeqs {}) (List.replicate numSeqs (.ok ()))
      match sampled with
      | .error status =>
          throw (.checkFailed s!"batched sampler rejected engine-built inputs: {status.message}")
      | .ok _ => (pass.zip (results.zip rowStatus)).foldlM deliverRow e

/-! ### Step 7, and one whole step

What has ended in the passes is closed and erased. -/

/-- The turn of `RetireTerminal` that closes. -/
def closeTerminal (er : EngineLoop σ α × List Nat) (id : Nat) :
    Checked (EngineLoop σ α × List Nat) := do
  let entry ← er.1.entry id
  if entry.seq.isTerminal then
    let info ← entry.seq.makeFinishInfo
    pure (er.1.close id info, er.2 ++ [id])
  else pure er

/-- A terminal request leaves the running list and the map. -/
def retireRunning (e : EngineLoop σ α) (id : Nat) : Checked (EngineLoop σ α) :=
  { e with running := e.running.filter (· ≠ id) }.eraseRequest id

/-- `RetireTerminal`. -/
def retireTerminal (e : EngineLoop σ α) : Checked (EngineLoop σ α) := do
  let (e, retired) ← e.running.foldlM closeTerminal (e, [])
  retired.foldlM retireRunning e

/-- A step up to its prefill pass: the plan, and the state in which the pass is built. -/
def beforePasses (e : EngineLoop σ α) : Checked (SchedulerOutput × EngineLoop σ α) := do
  let out ← e.scheduleStep
  let e ← out.preempt.foldlM preemptSequence e
  let e ← out.prefill.foldlM admitOne e
  pure (out, e)

/-- The part of `Step` that follows `RetireCancelled`, when there is something to do. -/
def execute (S : Services σ α) (e : EngineLoop σ α) : Checked (EngineLoop σ α) := do
  let (out, e) ← e.beforePasses
  let e ← runBatchPass S true (out.prefill.map (·.id)) e
  let pass ← e.decodeMembers out.decode
  let e ← runBatchPass S false pass e
  e.retireTerminal

/-- `Step`, once the queue has been swapped out: whether there may be more work. -/
def step (S : Services σ α) (commands : List Command) (e : EngineLoop σ α) :
    Checked (Bool × EngineLoop σ α) := do
  let e ← retireCancelled S (e.drainCommands commands)
  if e.waiting.isEmpty && e.running.isEmpty then return (false, e)
  let e ← execute S e
  return (true, e)

/-! ### Shutdown

Everybody who has been given a handle is answered: the commands that were never drained first,
and then the live requests. -/

/-- The turn of `Shutdown` for a command that was never drained. -/
def shutdownCommand (e : EngineLoop σ α) : Command → Checked (EngineLoop σ α)
  | .submit entry => do
      let _ ← entry.seq.transition .cancelled
      let e := e.close entry.request.id { terminal := .cancelled }
      e.releaseCache entry.seq.cache
  | .cancel _ => pure e

/-- The turn of `Shutdown` for a live request. -/
def shutdownRequest (e : EngineLoop σ α) (id : Nat) : Checked (EngineLoop σ α) := do
  let entry ← e.entry id
  if entry.seq.isTerminal then return e
  e.closeCancelled id

/-- `Shutdown`, with the commands left in the queue. -/
def shutdown (S : Services σ α) (commands : List Command) (e : EngineLoop σ α) :
    Checked (EngineLoop σ α) := do
  let e ← commands.foldlM shutdownCommand e
  let e ← (S.order e.requests.keys).foldlM shutdownRequest e
  let e ← (S.order e.requests.keys).foldlM eraseRequest e
  pure { e with waiting := [], running := [] }

end EngineLoop

namespace Engine

variable {σ α : Type}

/-- `Engine::Create`. -/
def create (S : Services σ α) (state : σ) (pool : BlockPool α) (config : EngineConfig) :
    StatusOr (Engine σ α) := do
  if config.maxNumSeqs ≤ 0 then
    throw (invalidArgumentError s!"max_num_seqs must be > 0 (got {config.maxNumSeqs})")
  if config.maxNumBatchedTokens ≤ 0 then
    throw (invalidArgumentError
      s!"max_num_batched_tokens must be > 0 (got {config.maxNumBatchedTokens})")
  if config.maxModelLen < 0 then
    throw (invalidArgumentError s!"max_model_len must be >= 0 (got {config.maxModelLen})")
  if pool.geom ≠ S.model.geometry then
    throw (invalidArgumentError
      (s!"block pool geometry (L={pool.geom.numLayers}, Hkv={pool.geom.numKvHeads}, " ++
       s!"d={pool.geom.headDim}) does not match model (L={S.model.geometry.numLayers}, " ++
       s!"Hkv={S.model.geometry.numKvHeads}, d={S.model.geometry.headDim})"))
  let poolCapacity := wrapInt64 ((pool.numBlocks : Int) * pool.blockSize)
  if 0 < config.maxModelLen ∧ poolCapacity < config.maxModelLen then
    throw (invalidArgumentError
      (s!"max_model_len {config.maxModelLen} exceeds the block pool's token capacity " ++
       s!"{poolCapacity} (num_blocks {pool.numBlocks} x block_size {pool.blockSize}); the " ++
       "pool cannot hold one max-length sequence, so preemption cannot guarantee progress"))
  let maxModelLen :=
    if config.maxModelLen = 0 then S.model.maxPositionEmbeddings else config.maxModelLen
  pure
    { queue := { commands := [], nextId := 1, nextArrival := 0, stopRequested := false }
      loop :=
        { config := config
          maxModelLen := maxModelLen
          state := state
          shared := ⟨pool, []⟩
          requests := ∅
          waiting := []
          running := []
          preemptionCount := 0
          outbox := [] } }

/-- Everything `Submit` checks before it takes the lock. -/
def validateSubmit (e : EngineLoop σ α) (request : Request) (drawnSeed : Nat) :
    StatusOr Sequence := do
  if request.promptIds.isEmpty then
    throw (invalidArgumentError "prompt_ids must be non-empty")
  let promptLen : Int := request.promptIds.length
  let maxTokens := request.params.maxTokens
  let generated := if 0 < maxTokens then maxTokens - 1 else 0
  let peak := wrapInt64 (promptLen + generated)
  if e.config.maxNumBatchedTokens < peak then
    throw (invalidArgumentError
      (s!"peak length {peak} (prompt {promptLen} + up to {generated} generated) exceeds " ++
       s!"max_num_batched_tokens {e.config.maxNumBatchedTokens}; a preempted sequence could " ++
       "not resume (chunked prefill is not implemented until M12-T06)"))
  if 0 < e.maxModelLen ∧ e.maxModelLen < peak then
    throw (resourceExhaustedError
      (s!"prompt {promptLen} + {maxTokens} new tokens exceeds max_model_len {e.maxModelLen} " ++
       s!"(peak {peak})"))
  let poolCapacity := wrapInt64 ((e.shared.pool.numBlocks : Int) * e.shared.pool.blockSize)
  if poolCapacity < peak then
    throw (resourceExhaustedError
      (s!"prompt {promptLen} + {maxTokens} new tokens exceeds pool token capacity " ++
       s!"{poolCapacity} (peak {peak})"))
  Sequence.create request drawnSeed

/-- `Submit`: the id of the handle. -/
def submit (e : Engine σ α) (request : Request) (drawnSeed : Nat) :
    StatusOr Nat × Engine σ α :=
  match validateSubmit e.loop request drawnSeed with
  | .error status => (.error status, e)
  | .ok seq =>
    if e.queue.stopRequested then (.error (failedPreconditionError "engine is stopped"), e)
    else
      let id := e.queue.nextId
      let request := { request with id := id, arrivalIndex := e.queue.nextArrival }
      (.ok id,
        { e with queue :=
          { e.queue with
            commands := e.queue.commands ++ [.submit ⟨request, seq, false⟩]
            nextId := id + 1
            nextArrival := e.queue.nextArrival + 1 } })

/-- `Cancel`. -/
def cancel (e : Engine σ α) (id : Nat) : Engine σ α :=
  { e with queue := { e.queue with commands := e.queue.commands ++ [.cancel id] } }

/-- `Step`. -/
def step (S : Services σ α) (e : Engine σ α) : Checked (Bool × Engine σ α) := do
  let (more, loop) ← EngineLoop.step S e.queue.commands e.loop
  pure (more, { queue := { e.queue with commands := [] }, loop := loop })

/-- `Stop`, from the thread that steps the engine. -/
def stop (S : Services σ α) (e : Engine σ α) : Checked (Engine σ α) := do
  let loop ← EngineLoop.shutdown S e.queue.commands e.loop
  pure { queue := { e.queue with commands := [], stopRequested := true }, loop := loop }

end Engine

end InferenceEngine
