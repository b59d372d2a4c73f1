/-
The scheduling policy: `scheduler/scheduler.h` and `scheduler.cpp`.

A step is planned in three passes: every running sequence decodes one token, the latest
arrivals among them are preempted until the rest fit the free blocks, and waiting sequences
are admitted in order until one does not fit.

Blocks and tokens are counted in `std::int64_t`.  What the result of an addition or a subtraction
comes to is a parameter, `sum`: with `int64` the planner is the code's, where leaving the type is
undefined, and with `Except.ok` it counts without bound.
-/
import InferenceEngine.Core.Status

namespace InferenceEngine

/-- `scheduler::PoolSnapshot`. -/
structure PoolSnapshot where
  freeBlocks : Int
  totalBlocks : Int
  blockSize : Int
deriving DecidableEq, Repr

/-- `scheduler::SeqDesc`. -/
structure SeqDesc where
  id : Nat
  arrivalIndex : Nat
  numComputedTokens : Int
  numPromptTokens : Int
  blocksHeld : Int
deriving DecidableEq, Repr

/-- `scheduler::SchedulerConfig`. -/
structure SchedulerConfig where
  maxNumSeqs : Int
  maxNumBatchedTokens : Int
deriving DecidableEq, Repr

/-- `scheduler::ScheduleInputs`. -/
structure ScheduleInputs where
  waiting : List SeqDesc
  running : List SeqDesc
  pool : PoolSnapshot
  config : SchedulerConfig
deriving DecidableEq, Repr

/-- `SchedulerOutput::Prefill`. -/
structure Prefill where
  id : Nat
  numTokens : Int
deriving DecidableEq, Repr

/-- `scheduler::SchedulerOutput`. -/
structure SchedulerOutput where
  prefill : List Prefill
  decode : List Nat
  preempt : List Nat
deriving DecidableEq, Repr

namespace Scheduler

variable (sum : Int → Checked Int)

/-- `BlocksNeeded`. -/
def blocksNeeded (curTokens addTokens bs : Int) : Checked Int := do
  let before ← sum (curTokens + bs)
  let before ← sum (before - 1)
  let after ← sum (curTokens + addTokens)
  let after ← sum (after + bs)
  let after ← sum (after - 1)
  sum (after.tdiv bs - before.tdiv bs)

/-- The lambda `decode_need`. -/
def decodeNeed (bs : Int) (s : SeqDesc) : Checked Int := do
  check (0 ≤ s.numComputedTokens)
    s!"Scheduler: num_computed_tokens must be >= 0 (got {s.numComputedTokens})"
  check (0 ≤ s.blocksHeld) s!"Scheduler: blocks_held must be >= 0 (got {s.blocksHeld})"
  blocksNeeded sum s.numComputedTokens 1 bs

/-- The scan for the latest arrival, the last one on ties: `victim` is the best of the first
elements, and `i` the index of the next. -/
def latestFrom (victim : Nat) (best : Nat) (i : Nat) : List SeqDesc → Nat
  | [] => victim
  | s :: rest =>
      if best ≤ s.arrivalIndex then latestFrom i s.arrivalIndex (i + 1) rest
      else latestFrom victim best (i + 1) rest

/-- The index of the victim in a decode set. -/
def latest : List SeqDesc → Nat
  | [] => 0
  | s :: rest => latestFrom 0 s.arrivalIndex 1 rest

/-- The state of the preemption loop. -/
structure Decoding where
  decoding : List SeqDesc
  demand : Int
  freeBlocks : Int
  preempt : List Nat
deriving DecidableEq, Repr

/-- Pass 1: the blocks the decode set needs. -/
def demandOf (bs : Int) (decoding : List SeqDesc) : Checked Int :=
  decoding.foldlM (fun demand s => do
    let need ← decodeNeed sum bs s
    sum (demand + need)) 0

/-- Pass 2.  Every turn drops one sequence, so the size of the decode set bounds the turns. -/
def preemptToFit (bs : Int) : (fuel : Nat) → Decoding → Checked Decoding
  | 0, d => pure d
  | fuel + 1, d =>
      if d.demand > d.freeBlocks && !d.decoding.isEmpty then
        let victim := latest d.decoding
        match d.decoding[victim]? with
        | none => throw .outOfBounds
        | some v => do
            let need ← decodeNeed sum bs v
            let demand ← sum (d.demand - need)
            let freeBlocks ← sum (d.freeBlocks + v.blocksHeld)
            preemptToFit bs fuel
              { decoding := d.decoding.eraseIdx victim
                demand := demand
                freeBlocks := freeBlocks
                preempt := d.preempt ++ [v.id] }
      else pure d

/-- Pass 3: admission in order, up to the first sequence that fails a check. -/
def admitFrom (config : SchedulerConfig) (bs : Int) (numScheduled tokensSoFar freeBlocks : Int) :
    List SeqDesc → Checked (List Prefill)
  | [] => pure []
  | s :: rest => do
      check (0 ≤ s.numPromptTokens)
        s!"Scheduler: num_prompt_tokens must be >= 0 (got {s.numPromptTokens})"
      if numScheduled ≥ config.maxNumSeqs then return []
      let tokensSoFar ← sum (tokensSoFar + s.numPromptTokens)
      if tokensSoFar > config.maxNumBatchedTokens then return []
      let need ← blocksNeeded sum 0 s.numPromptTokens bs
      if need > freeBlocks then return []
      let freeBlocks ← sum (freeBlocks - need)
      let numScheduled ← sum (numScheduled + 1)
      let admitted ← admitFrom config bs numScheduled tokensSoFar freeBlocks rest
      return ⟨s.id, s.numPromptTokens⟩ :: admitted

/-- `Scheduler::Schedule`. -/
def schedule (inputs : ScheduleInputs) : Checked SchedulerOutput := do
  let bs := inputs.pool.blockSize
  check (0 < bs) s!"Scheduler: block_size must be > 0 (got {bs})"
  check (0 < inputs.config.maxNumSeqs)
    s!"Scheduler: max_num_seqs must be > 0 (got {inputs.config.maxNumSeqs})"
  check (0 < inputs.config.maxNumBatchedTokens)
    s!"Scheduler: max_num_batched_tokens must be > 0 (got {inputs.config.maxNumBatchedTokens})"
  check (0 ≤ inputs.pool.freeBlocks)
    s!"Scheduler: free_blocks must be >= 0 (got {inputs.pool.freeBlocks})"
  let demand ← demandOf sum bs inputs.running
  let d ← preemptToFit sum bs inputs.running.length
    { decoding := inputs.running, demand := demand, freeBlocks := inputs.pool.freeBlocks,
      preempt := [] }
  let freeBlocks ← sum (d.freeBlocks - d.demand)
  let prefill ← admitFrom sum inputs.config bs d.decoding.length 0 freeBlocks inputs.waiting
  pure ⟨prefill, d.decoding.map (·.id), d.preempt⟩

end Scheduler

end InferenceEngine
