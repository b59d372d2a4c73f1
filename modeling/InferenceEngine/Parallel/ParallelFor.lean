/-
Parallel loops and reductions: `parallel/parallel_for.h` and `parallel_for.cpp`.

A pool is the number of its workers and the order in which the chunks of their walks happen to
run.  A region returns once they all have, and every chunk of a reduction writes its own slot.
Bodies are functions: what a loop is judged by is the list of the sub-ranges it passes to its
body, in the order in which they run.
-/
import InferenceEngine.Core.Status
import InferenceEngine.Lib.CombineTree
import InferenceEngine.Lib.FlatMemory
import Mathlib.Algebra.Order.Floor.Div

namespace InferenceEngine

open FlatMemory

/-- `parallel::ThreadPool`; the constructor checks that it has a worker. -/
structure ThreadPool where
  numThreads : Nat
  numThreads_pos : 1 ≤ numThreads
  /-- in which order the chunks of some walks run -/
  interleave : List (List Int) → List Int
  interleave_perm : ∀ walks, (interleave walks).Perm walks.flatten

namespace Parallel

/-- `detail::CeilDiv`. -/
def ceilDiv (n d : Int) : Checked Int := int64 (n.tdiv d + if n.tmod d ≠ 0 then 1 else 0)

/-- The loop of `WorkerLoop` over the chunks of one worker.  Every turn but the last runs a chunk,
so the number of chunks bounds the turns. -/
def workerWalk (numThreads numChunks : Int) : (fuel : Nat) → (chunk : Int) → Checked (List Int)
  | 0, _ => throw .outOfFuel
  | fuel + 1, chunk =>
      if chunk < numChunks then do
        let next ← int64 (chunk + numThreads)
        let rest ← workerWalk numThreads numChunks fuel next
        pure (chunk :: rest)
      else pure []

end Parallel

namespace ThreadPool

/-- The walks of all workers. -/
def walks (pool : ThreadPool) (numChunks : Int) : Checked (List (List Int)) :=
  (List.range pool.numThreads).mapM fun w : Nat =>
    Parallel.workerWalk pool.numThreads numChunks (numChunks.toNat + 1) w

/-- `ThreadPool::Run`: the chunks, in the order in which they run. -/
def run (pool : ThreadPool) (insideParallelRegion : Bool) (numChunks : Int) :
    Checked (List Int) := do
  check (1 ≤ numChunks) s!"Run requires num_chunks >= 1 (got {numChunks})"
  check (!insideParallelRegion)
    "ThreadPool::Run must not be called from inside a parallel region"
  let walks ← pool.walks numChunks
  pure (pool.interleave walks)

end ThreadPool

namespace Parallel

/-- The sub-range of a chunk. -/
def chunkRange (n grain chunk : Int) : Checked (Int × Int) := do
  let first ← int64 (chunk * grain)
  let last ← int64 (first + grain)
  pure (first, min last n)

/-- `parallel_for`: the sub-ranges passed to the body. -/
def parallelFor (pool : ThreadPool) (insideParallelRegion : Bool) (n grain : Int) :
    Checked (List (Int × Int)) := do
  check (0 ≤ n) s!"parallel_for: n must be >= 0 (got {n})"
  check (1 ≤ grain) s!"parallel_for: grain must be >= 1 (got {grain})"
  check (!insideParallelRegion) "parallel regions must not nest"
  if n = 0 then return []
  let numChunks ← ceilDiv n grain
  if numChunks ≤ 1 then return [(0, n)]
  let order ← pool.run insideParallelRegion numChunks
  order.mapM (chunkRange n grain)

variable {β : Type}

/-- One pass of the fold over the slots. -/
def foldPass (combine : β → β → β) (half : Int) (slots : List β) : Checked (List β) :=
  (indices half).foldlM (fun slots i => do
    let low ← readAt slots i
    let j ← int64 (i + half)
    let high ← readAt slots j
    writeAt slots i (combine low high)) slots

/-- The fold of `parallel_reduce`.  Every turn but the last leaves fewer slots, so their number
bounds the turns. -/
def foldSlots (combine : β → β → β) : (fuel : Nat) → (count : Int) → List β → Checked β
  | 0, _, _ => throw .outOfFuel
  | fuel + 1, count, slots =>
      if 1 < count then do
        let half := count.tdiv 2
        let slots ← foldPass combine half slots
        if count.tmod 2 = 1 then do
          let odd ← readAt slots (count - 1)
          let slots ← writeAt slots half odd
          foldSlots combine fuel (half + count.tmod 2) slots
        else foldSlots combine fuel (half + count.tmod 2) slots
      else readAt slots 0

/-- What a reduction returns, and the sub-ranges it passed to `part`. -/
structure Reduced (β : Type) where
  value : β
  calls : List (Int × Int)

/-- The body that `parallel_reduce` runs for a chunk. -/
def reduceChunk (n grain : Int) (part : Int → Int → β) (r : List β × List (Int × Int))
    (chunk : Int) : Checked (List β × List (Int × Int)) := do
  let range ← chunkRange n grain chunk
  let slots ← writeAt r.1 chunk (part range.1 range.2)
  pure (slots, r.2 ++ [range])

/-- `parallel_reduce`. -/
def parallelReduce [Inhabited β] (pool : ThreadPool) (insideParallelRegion : Bool) (n grain : Int)
    (identity : β) (part : Int → Int → β) (combine : β → β → β) : Checked (Reduced β) := do
  check (0 ≤ n) s!"parallel_reduce: n must be >= 0 (got {n})"
  check (1 ≤ grain) s!"parallel_reduce: grain must be >= 1 (got {grain})"
  check (!insideParallelRegion) "parallel regions must not nest"
  if n = 0 then return ⟨identity, []⟩
  let numChunks ← ceilDiv n grain
  if numChunks ≤ 1 then return ⟨part 0 n, [(0, n)]⟩
  let order ← pool.run insideParallelRegion numChunks
  let (slots, calls) ← order.foldlM (reduceChunk n grain part)
    (List.replicate numChunks.toNat default, [])
  let value ← foldSlots combine numChunks.toNat numChunks slots
  pure ⟨value, calls⟩

/-! ### What a region is to do

Together the sub-ranges that are run are the range, each part of it once, and a reduction
combines them in an order that the pool has no say in. -/

/-- The number of chunks. -/
def numChunks (n grain : Int) : Nat := n.toNat ⌈/⌉ grain.toNat

/-- The sub-range of a chunk, without a look at the size of the numbers. -/
def subRange (n grain : Int) (chunk : Nat) : Int × Int :=
  (chunk * grain, min (chunk * grain + grain) n)

/-- The sub-ranges of all chunks, which depend on `n` and `grain` alone. -/
def subRanges (n grain : Int) : List (Int × Int) :=
  (List.range (numChunks n grain)).map (subRange n grain)

/-- Sub-ranges that divide `[0, n)` up. -/
structure Partition (n : Int) (calls : List (Int × Int)) : Prop where
  nonempty : ∀ r ∈ calls, r.1 < r.2
  disjoint : calls.Pairwise fun r r' => r.2 ≤ r'.1 ∨ r'.2 ≤ r.1
  cover : ∀ i, (0 ≤ i ∧ i < n) ↔ ∃ r ∈ calls, r.1 ≤ i ∧ i < r.2

/-- What is promised of regions over `n` elements in grains of `grain`, whatever the pool. -/
structure Exact (n grain : Int) : Prop where
  loop : ∀ pool : ThreadPool, n + max grain pool.numThreads < 2 ^ 63 →
    (parallelFor pool false n grain).Returns fun calls =>
      Partition n calls ∧ calls.Perm (subRanges n grain)
  walks : ∀ pool : ThreadPool, n + max grain pool.numThreads < 2 ^ 63 →
    (pool.walks (numChunks n grain)).Returns fun walks =>
      walks.flatten.Perm (indices (numChunks n grain))
  empty : n = 0 → ∀ {β : Type} [Inhabited β] (pool : ThreadPool) (identity : β)
    (part : Int → Int → β) (combine : β → β → β),
    parallelReduce pool false n grain identity part combine = .ok ⟨identity, []⟩
  reduce : 0 < n → ∃ tree : CombineTree Nat, tree.leaves.Perm (List.range (numChunks n grain)) ∧
    ∀ {β : Type} [Inhabited β] (pool : ThreadPool) (identity : β) (part : Int → Int → β)
      (combine : β → β → β), n + max grain pool.numThreads < 2 ^ 63 →
      (parallelReduce pool false n grain identity part combine).Returns fun r =>
        r.value = tree.eval combine (fun c => part (subRange n grain c).1 (subRange n grain c).2) ∧
        Partition n r.calls ∧ r.calls.Perm (subRanges n grain) ∧
        ((∀ a b c, combine (combine a b) c = combine a (combine b c)) →
          (∀ a b, combine a b = combine b a) →
          CombineTree.foldValues combine
            (fun c => part (subRange n grain c).1 (subRange n grain c).2)
            (List.range (numChunks n grain)) = some r.value)

end Parallel

end InferenceEngine
