/-
The barrier of the thread pool: `parallel/thread_pool.cpp`.

Every section that holds `mutex_` is one step, and so is the execution of one chunk.  A wait on
a condition variable may wake up at any time, so a waiting thread is one that may look at its
predicate again whenever it likes, and notifying it changes nothing.  The destructor may not
run while a `Run` does, and no `Run` begins after it.  A function is known by its address,
which calls may share.  `regions` and `log` are read by no step.

A worker's chunk cursor is an integer here.  The code's is an `int64_t`, which it can only
leave after some `2^63 / num_threads` chunks of one region; `Parallel/ParallelFor` checks the
same cursor for overflow, for the regions `parallel_for` makes.
-/
import InferenceEngine.Core.Status
import InferenceEngine.Lib.IdMap
import InferenceEngine.Lib.Transition

namespace InferenceEngine

/-- What a call of `Run` is given. -/
structure Region where
  chunkFn : Nat
  numChunks : Int
deriving DecidableEq, Repr

/-- Where a caller is in `Run`. -/
inductive CallerPhase where
  /-- before it holds `run_mutex_` -/
  | entered (region : Region)
  /-- before it publishes its region -/
  | holding (region : Region)
  /-- until the last worker is done -/
  | awaiting
  /-- before it releases `run_mutex_` -/
  | releasing
deriving DecidableEq, Repr

/-- Where a worker is in `WorkerLoop`. -/
inductive WorkerPhase where
  | waiting
  /-- its copies of the region's function and size, the next chunk, and which region it is -/
  | running (chunkFn : Option Nat) (numChunks chunk : Int) (region : Nat)
  | exited
deriving DecidableEq, Repr

/-- A worker: where it is, and the last region it has seen. -/
structure Worker where
  phase : WorkerPhase
  seenGeneration : UInt64
deriving DecidableEq, Repr

/-- What has happened, with regions numbered as they were published. -/
inductive PoolEvent where
  | picked (worker region : Nat)
  | executed (worker region : Nat) (chunkFn : Option Nat) (chunk : Int)
  | returned (region : Nat)
deriving DecidableEq, Repr

/-- A pool and the threads that use it. -/
structure PoolState where
  runMutex : Option Nat
  regionGeneration : UInt64
  regionNumChunks : Int
  regionChunkFn : Option Nat
  workersRemaining : Int
  stopping : Bool
  callers : IdMap CallerPhase
  workers : Nat → Worker
  regions : List Region
  log : List PoolEvent

/-- One atomic step. -/
inductive PoolStep where
  | enter (caller : Nat) (region : Region)
  | lockRun (caller : Nat)
  | publish (caller : Nat)
  | awaitDone (caller : Nat)
  | unlockRun (caller : Nat)
  | wake (worker : Nat)
  | chunk (worker : Nat)
  | finish (worker : Nat)
  | stop
deriving DecidableEq, Repr

namespace PoolState

/-- A pool whose workers have just been spawned. -/
def new : PoolState where
  runMutex := none
  regionGeneration := 0
  regionNumChunks := 0
  regionChunkFn := none
  workersRemaining := 0
  stopping := false
  callers := ∅
  workers := fun _ => ⟨.waiting, 0⟩
  regions := []
  log := []

/-- A caller at another place. -/
def setCaller (s : PoolState) (caller : Nat) (phase : CallerPhase) : PoolState :=
  { s with callers := s.callers.insert caller phase }

/-- A worker at another place. -/
def setWorker (s : PoolState) (worker : Nat) (w : Worker) : PoolState :=
  { s with workers := Function.update s.workers worker w }

/-! ### `Run`

One caller at a time: it publishes its region, waits until the last worker has reported, and
lets the next one in. -/

/-- The call; it is checked that there is a chunk. -/
def enter (s : PoolState) (caller : Nat) (region : Region) : Option PoolState :=
  if 1 ≤ region.numChunks ∧ caller ∉ s.callers ∧ s.stopping = false then
    some (s.setCaller caller (.entered region))
  else none

/-- `run_mutex_` is taken. -/
def lockRun (s : PoolState) (caller : Nat) : Option PoolState :=
  match s.callers.lookup caller, s.runMutex with
  | some (.entered region), none =>
      some { s.setCaller caller (.holding region) with runMutex := some caller }
  | _, _ => none

/-- The first section: the region is published. -/
def publish (numThreads : Nat) (s : PoolState) (caller : Nat) : Option PoolState :=
  match s.callers.lookup caller with
  | some (.holding region) =>
      some { s.setCaller caller .awaiting with
        regionNumChunks := region.numChunks
        regionChunkFn := some region.chunkFn
        workersRemaining := numThreads
        regionGeneration := s.regionGeneration + 1
        regions := s.regions ++ [region] }
  | _ => none

/-- The second section, each time the caller looks. -/
def awaitDone (s : PoolState) (caller : Nat) : Option PoolState :=
  match s.callers.lookup caller with
  | some .awaiting =>
      if s.workersRemaining = 0 then
        some { s.setCaller caller .releasing with regionChunkFn := none }
      else some s
  | _ => none

/-- `run_mutex_` is released and `Run` returns. -/
def unlockRun (s : PoolState) (caller : Nat) : Option PoolState :=
  match s.callers.lookup caller with
  | some .releasing =>
      some { s with
        callers := s.callers.erase caller
        runMutex := none
        log := s.log ++ [.returned (s.regions.length - 1)] }
  | _ => none

/-! ### `WorkerLoop`

A worker waits for a generation it has not seen, runs every chunk of its residue, and reports
that it is done. -/

/-- The first section, each time the worker looks. -/
def wake (s : PoolState) (worker : Nat) : Option PoolState :=
  match (s.workers worker).phase with
  | .waiting =>
      if s.stopping then some (s.setWorker worker { s.workers worker with phase := .exited })
      else if s.regionGeneration ≠ (s.workers worker).seenGeneration then
        some { s.setWorker worker
            ⟨.running s.regionChunkFn s.regionNumChunks worker (s.regions.length - 1),
              s.regionGeneration⟩ with
          log := s.log ++ [.picked worker (s.regions.length - 1)] }
      else some s
  | _ => none

/-- One chunk. -/
def chunk (numThreads : Nat) (s : PoolState) (worker : Nat) : Option PoolState :=
  match (s.workers worker).phase with
  | .running chunkFn numChunks chunk region =>
      if chunk < numChunks then
        some { s.setWorker worker { s.workers worker with
            phase := .running chunkFn numChunks (chunk + numThreads) region } with
          log := s.log ++ [.executed worker region chunkFn chunk] }
      else none
  | _ => none

/-- The second section, after the last chunk. -/
def finish (s : PoolState) (worker : Nat) : Option PoolState :=
  match (s.workers worker).phase with
  | .running _ numChunks chunk _ =>
      if chunk < numChunks then none
      else
        some { s.setWorker worker { s.workers worker with phase := .waiting } with
          workersRemaining := s.workersRemaining - 1 }
  | _ => none

/-- The first section of the destructor. -/
def stop (s : PoolState) : Option PoolState :=
  if s.callers.keys = [] then some { s with stopping := true } else none

/-- One step of a pool with `numThreads` workers, if it is enabled. -/
def step (numThreads : Nat) (s : PoolState) : PoolStep → Option PoolState
  | .enter caller region => s.enter caller region
  | .lockRun caller => s.lockRun caller
  | .publish caller => s.publish numThreads caller
  | .awaitDone caller => s.awaitDone caller
  | .unlockRun caller => s.unlockRun caller
  | .wake worker => if worker < numThreads then s.wake worker else none
  | .chunk worker => if worker < numThreads then s.chunk numThreads worker else none
  | .finish worker => if worker < numThreads then s.finish worker else none
  | .stop => s.stop

end PoolState

/-- Every interleaving of the workers with any number of callers. -/
def barrierSystem (numThreads : Nat) : Transition PoolState PoolStep where
  init := fun s => s = .new
  step := fun s l s' => s.step numThreads l = some s'

/-! ### What the barrier promises

Nobody sees two regions at once: when `Run` returns, every chunk of its region has been run once
and no worker is still in it. -/

/-- The chunks of a region in a log. -/
def chunksOf (region : Nat) (log : List PoolEvent) : List Int :=
  log.filterMap fun
    | .executed _ r _ chunk => if r = region then some chunk else none
    | _ => none

/-- The regions a worker has picked up. -/
def picksOf (worker : Nat) (log : List PoolEvent) : List Nat :=
  log.filterMap fun
    | .picked w region => if w = worker then some region else none
    | _ => none

/-- The barrier holds so far. -/
structure PoolState.Barrier (numThreads : Nat) (s : PoolState) : Prop where
  /-- no chunk is executed twice -/
  once : ∀ region, (chunksOf region s.log).Nodup
  /-- every chunk is one of its region and is executed with its region's function -/
  own : ∀ worker r chunkFn chunk, .executed worker r chunkFn chunk ∈ s.log →
    ∃ region, s.regions[r]? = some region ∧ chunkFn = some region.chunkFn ∧
      0 ≤ chunk ∧ chunk < region.numChunks
  /-- `Run` returns when all chunks have been executed, and none is executed later -/
  returned : ∀ before r after, s.log = before ++ .returned r :: after →
    ∃ region, s.regions[r]? = some region ∧
      (∀ chunk, chunk ∈ chunksOf r before ↔ 0 ≤ chunk ∧ chunk < region.numChunks) ∧
      chunksOf r after = [] ∧ ∀ worker < numThreads, picksOf worker before = List.range (r + 1)
  /-- no worker skips a region or picks one up twice -/
  picks : ∀ worker, ∃ n, picksOf worker s.log = List.range n
  remaining : 0 ≤ s.workersRemaining

end InferenceEngine
