/-
What a forward asks for.

Whether a forward fails is decided by counters: of each cache, how many tokens it holds and
which layer it expects; of the pool, how many blocks are free; and the answers of the allocator.
The rows play no part.  So a request is a list of demands, in the order in which the code comes
to them, and the demands can be tried on the counters alone.
-/
import InferenceEngine.Lib.Metering
import InferenceEngine.Model.ReferenceModel
import Mathlib.Algebra.Order.Floor.Div

namespace InferenceEngine

/-- What decides about an append to a cache. -/
inductive CacheCounters where
  | paged (tokens pending : Nat) (nextLayer : Int)
  | simple (fill : List Nat) (capacity : Int)
deriving DecidableEq, Repr

namespace CacheCounters

def isPaged : CacheCounters → Bool
  | .paged _ _ _ => true
  | .simple _ _ => false

def length : CacheCounters → Nat
  | .paged tokens _ _ => tokens
  | .simple fill _ => fill.min?.getD 0

/-- The tokens a cache can hold, over a pool of `free` free blocks. -/
def capacity (bs free : Nat) : CacheCounters → Int
  | .paged tokens _ _ => ((tokens ⌈/⌉ bs + free : Nat) : Int) * bs
  | .simple _ capacity => capacity

/-- The blocks that `t` more tokens need. -/
def demand (bs t : Nat) : CacheCounters → Nat
  | .paged tokens _ _ => (tokens + t) ⌈/⌉ bs - tokens ⌈/⌉ bs
  | .simple _ _ => 0

/-- An append of `t` tokens to a layer, over a pool of `free` free blocks. -/
def append (numLayers bs free layer t : Nat) : CacheCounters → Option (CacheCounters × Nat)
  | .paged tokens pending nextLayer =>
      let next := ((layer : Int) + 1).tmod numLayers
      if (layer : Int) ≠ nextLayer then none
      else if layer = 0 then
        let blocks := (tokens + t) ⌈/⌉ bs - tokens ⌈/⌉ bs
        if blocks ≤ free then some (.paged (tokens + t) t next, free - blocks) else none
      else if t = pending then some (.paged tokens pending next, free)
      else none
  | .simple fill capacity =>
      let next := fill.getD layer 0 + t
      if (next : Int) ≤ capacity then some (.simple (fill.set layer next) capacity, free)
      else none

end CacheCounters

/-- The counters of a cache. -/
def KvCache.counters {α : Type} : KvCache α → CacheCounters
  | .paged c => .paged c.table.numTokens c.pendingSlots.length c.nextLayer
  | .simple c => .simple c.fill c.capacity

namespace Backend

variable {α : Type} {c : ModelConfig} {n : Nat}

/-- The counters of a state. -/
structure ForwardCounters (n : Nat) where
  free : Nat
  caches : Fin n → CacheCounters
  allocations : Nat

def ForwardState.counters (s : ForwardState α c n) : ForwardCounters n where
  free := s.pool.freeList.length
  caches := fun i => (s.caches i).counters
  allocations := s.allocations

/-- One thing a forward asks for. -/
inductive Demand (n : Nat) where
  /-- a buffer -/
  | allocate
  /-- room in a cache for `t` tokens of a layer -/
  | append (i : Fin n) (layer t : Nat)
  /-- a paged view of a cache -/
  | pagedView (i : Fin n)
  /-- a capacity of `t` more tokens, checked but not taken -/
  | capacity (i : Fin n) (t : Nat)
deriving DecidableEq, Repr

/-- How the counters answer a demand.  An append changes a cache, and nothing else does. -/
def meter (refuses : Nat → Option Status) (numLayers bs : Nat) :
    Meter (Demand n) (ForwardCounters n) where
  grant := fun d m =>
    match d with
    | .allocate =>
        if (refuses m.allocations).isNone then some { m with allocations := m.allocations + 1 }
        else none
    | .append i layer t =>
        match (m.caches i).append numLayers bs m.free layer t with
        | none => none
        | some (cache, free) =>
            some { m with free := free, caches := Function.update m.caches i cache }
    | .pagedView i => if (m.caches i).isPaged then some m else none
    | .capacity i t =>
        if ((m.caches i).length + t : Nat) ≤ (m.caches i).capacity bs m.free then some m else none
  changes := fun d =>
    match d with
    | .append _ _ _ => true
    | _ => false

/-! ### The demands of a request

What a forward asks of the allocator and of its caches, in order, read off the request before
the forward runs. -/

namespace ForwardRequest

variable (request : ForwardRequest n)

/-- The caches a request names. -/
def named : List (Fin n) :=
  if request.isBatched then request.caches.filterMap id else request.cache.toList

/-- The sequences of a batch: the cache of each and its tokens. -/
def members : List (Fin n × Nat) :=
  (List.range request.numSeqs).filterMap fun b =>
    (request.cacheAt b).map fun i => (i, request.seqLen b)

end ForwardRequest

namespace OptimizedModel

variable (paged : Fin n → Bool)

/-- The ten slots of a workspace that has to grow. -/
def workspaceDemands (capacity t : Nat) : List (Demand n) :=
  if t ≤ capacity then [] else List.replicate 10 .allocate

/-- One layer of a single sequence. -/
def singleDemands (i : Fin n) (t layer : Nat) : List (Demand n) :=
  .append i layer t :: if t = 1 ∧ paged i = true then [] else [.allocate, .allocate]

/-- One layer of a batch of `t` tokens: every append comes before the first view. -/
def batchDemands (members : List (Fin n × Nat)) (t layer : Nat) : List (Demand n) :=
  (members.map fun member => .append member.1 layer member.2) ++
    if t = members.length ∧ (members.head?.any fun member => paged member.1) = true then
      members.map fun member => .pagedView member.1
    else members.flatMap fun _ => [.allocate, .allocate]

/-- A forward that its checks let pass. -/
def demands (request : ForwardRequest n) (numLayers capacity : Nat) : List (Demand n) :=
  if request.isBatched then
    let t := request.cu request.numSeqs
    workspaceDemands capacity t ++
      (List.range numLayers).flatMap (batchDemands paged request.members t) ++ [.allocate]
  else
    let t := request.tokenIds.length
    workspaceDemands capacity t ++
      request.cache.toList.flatMap (fun i =>
        (List.range numLayers).flatMap (singleDemands paged i t)) ++ [.allocate]

end OptimizedModel

namespace ReferenceModel

/-- One layer: six buffers in front of the append, two for the view, and four behind it. -/
def layerDemands (i : Fin n) (t layer : Nat) : List (Demand n) :=
  List.replicate 6 .allocate ++ [.append i layer t] ++ List.replicate 6 .allocate

/-- One sequence, once it is validated. -/
def singleDemands (numLayers : Nat) (i : Fin n) (t : Nat) : List (Demand n) :=
  [.allocate] ++ (List.range numLayers).flatMap (layerDemands i t) ++ [.allocate, .allocate]

/-- A forward that its checks let pass.  In a batch, each sequence's capacity is checked again
when its turn comes. -/
def demands (request : ForwardRequest n) (numLayers : Nat) : List (Demand n) :=
  if request.isBatched then
    .allocate :: request.members.flatMap fun member =>
      .capacity member.1 member.2 :: singleDemands numLayers member.1 member.2
  else
    request.cache.toList.flatMap fun i => singleDemands numLayers i request.tokenIds.length

end ReferenceModel

/-- What `backend.forward` asks for in the state `s`, once its checks have passed. -/
def demands (backend : Backend) (request : ForwardRequest n) (s : ForwardState α c n) :
    List (Demand n) :=
  match backend with
  | .reference => ReferenceModel.demands request c.numLayers
  | .optimized =>
      OptimizedModel.demands (fun i => (s.caches i).counters.isPaged) request c.numLayers
        s.workspace.capacity

/-- Whether the checks in front of a forward refuse it. -/
def rejects (backend : Backend) (request : ForwardRequest n) (s : ForwardState α c n) : Prop :=
  let cls :=
    match backend with
    | .reference => "ReferenceModel"
    | .optimized => "OptimizedModel"
  if request.isBatched then ∃ status, validateBatched cls request s = .error status
  else ∃ status, validate cls request s = .error status

end Backend

end InferenceEngine
