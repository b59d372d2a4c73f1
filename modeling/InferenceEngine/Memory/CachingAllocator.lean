/-
The caching allocator: `memory/caching_allocator.h` and `caching_allocator.cpp`.

An address is a number, and zero is the null pointer.  What the pool asks of its upstream is
kept as a log: the answers to its requests come from outside, and the blocks it gives back
are the destroyed upstream buffers.  Every operation runs inside one critical section.  The
hash maps are maps; the head of a free list is the back of its vector.  Sizes are
`size_t`: the counters wrap at 2^64.
-/
import InferenceEngine.Core.Integer
import InferenceEngine.Lib.IdMap
import InferenceEngine.Lib.Transition
import Mathlib.Algebra.BigOperators.Group.Multiset.Basic
import Mathlib.Data.Nat.Log

namespace InferenceEngine

/-- A buffer of the upstream: `data()` and the bytes that were asked for. -/
structure Block where
  data : Nat
  bytes : Nat
deriving DecidableEq, Repr

/-- A buffer the pool hands out; the one of size zero has no block and its deleter does
nothing. -/
structure PoolBuffer where
  data : Nat
  sizeBytes : Nat
deriving DecidableEq, Repr

/-- What the pool asks of its upstream. -/
inductive UpstreamCall where
  | allocate (bytes alignment : Nat) (answer : StatusOr Block)
  /-- an upstream buffer is destroyed -/
  | free (block : Block)

/-- `IsPowerOfTwo`. -/
def isPowerOfTwo (value : Nat) : Bool := value ≠ 0 && value &&& (value - 1) = 0

/-- `kMinClassBytes`. -/
def minClassBytes : Nat := 512

/-- `kLargeStepBytes`. -/
def largeStepBytes : Nat := 2 ^ 20

/-- `SizeClass`. -/
def sizeClass (bytes : Nat) : Nat :=
  if bytes ≤ minClassBytes then minClassBytes
  -- `std::bit_ceil`
  else if bytes ≤ largeStepBytes then 2 ^ Nat.clog 2 bytes
  else if (2 ^ 64 - 1) - (largeStepBytes - 1) < bytes then bytes
  else (addSize bytes (largeStepBytes - 1) / largeStepBytes * largeStepBytes) % 2 ^ 64

/-- `IsExhausted`. -/
def isExhausted (status : Status) : Bool :=
  status.code = .resourceExhausted || status.code = .outOfMemory

namespace CachingAllocator

/-- `LiveBlock`. -/
structure LiveBlock where
  storage : Block
  classBytes : Nat
deriving DecidableEq, Repr

/-- `CachingAllocator::Stats`. -/
structure Stats where
  bytesAllocated : Nat := 0
  bytesReserved : Nat := 0
  hitCount : Nat := 0
  missCount : Nat := 0
deriving DecidableEq, Repr

end CachingAllocator

open CachingAllocator in
/-- `memory::CachingAllocator`. -/
structure CachingAllocator where
  live : IdMap LiveBlock
  freeLists : IdMap (List Block)
  stats : Stats

namespace CachingAllocator

/-- `kMaxAlignment`. -/
def maxAlignment : Nat := 256

/-- The constructor. -/
def new : CachingAllocator := ⟨∅, ∅, {}⟩

/-- `ReleaseCachedLocked`: the victims and the bytes they amount to. -/
def releaseCachedLocked (a : CachingAllocator) : List Block × Nat × CachingAllocator :=
  let released := a.freeLists.entries.foldl
    (fun released e => addSize released (e.1 * e.2.length % 2 ^ 64)) 0
  (a.freeLists.entries.flatMap (·.2), released,
    { a with
      freeLists := ∅
      stats := { a.stats with bytesReserved := subSize a.stats.bytesReserved released } })

/-- The end of `Allocate`: the storage becomes live.  Were its address live already,
`emplace` would drop it. -/
def handOut (a : CachingAllocator) (storage : Block) (classBytes bytes : Nat) :
    PoolBuffer × List UpstreamCall × CachingAllocator :=
  let a := { a with
    stats := { a.stats with bytesAllocated := addSize a.stats.bytesAllocated classBytes } }
  if storage.data ∈ a.live then (⟨storage.data, bytes⟩, [.free storage], a)
  else (⟨storage.data, bytes⟩, [],
    { a with live := a.live.insert storage.data ⟨storage, classBytes⟩ })

/-- The storage of a miss: the upstream is asked, and when it is exhausted it is asked again
once the cache has been given back.  `first` and `second` are its answers. -/
def fetch (a : CachingAllocator) (classBytes : Nat) (first second : StatusOr Block) :
    StatusOr Block × List UpstreamCall × CachingAllocator :=
  let asked : UpstreamCall := .allocate classBytes maxAlignment first
  match first with
  | .ok storage => (.ok storage, [asked], a)
  | .error status =>
    if isExhausted status then
      let (victims, _, a) := a.releaseCachedLocked
      (second, [asked] ++ victims.map .free ++ [.allocate classBytes maxAlignment second], a)
    else (.error status, [asked], a)

/-- `Allocate`, and what it asked of the upstream. -/
def allocate (a : CachingAllocator) (bytes alignment : Nat) (first second : StatusOr Block) :
    Checked (StatusOr PoolBuffer × List UpstreamCall × CachingAllocator) := do
  check (isPowerOfTwo alignment) s!"alignment must be a power of two, got {alignment}"
  check (alignment ≤ maxAlignment)
    s!"alignment {alignment} exceeds the pool's fixed {maxAlignment}-byte upstream alignment"
  if bytes = 0 then return (.ok ⟨0, 0⟩, [], a)
  let classBytes := sizeClass bytes
  match a.freeLists.lookup classBytes with
  | some (storage :: rest) =>
    let a := { a with
      freeLists := a.freeLists.insert classBytes rest
      stats := { a.stats with hitCount := addSize a.stats.hitCount 1 } }
    let (buffer, calls, a) := a.handOut storage classBytes bytes
    return (.ok buffer, calls, a)
  | _ =>
    let a := { a with stats := { a.stats with missCount := addSize a.stats.missCount 1 } }
    let (fetched, calls, a) := a.fetch classBytes first second
    match fetched with
    | .error status => return (.error status, calls, a)
    | .ok storage =>
      let a := { a with
        stats := { a.stats with bytesReserved := addSize a.stats.bytesReserved classBytes } }
      let (buffer, dropped, a) := a.handOut storage classBytes bytes
      return (.ok buffer, calls ++ dropped, a)

/-- `release_cached`. -/
def releaseCached (a : CachingAllocator) : Nat × List UpstreamCall × CachingAllocator :=
  let (victims, released, a) := a.releaseCachedLocked
  (released, victims.map .free, a)

/-- `Return`. -/
def returnBlock (a : CachingAllocator) (data : Nat) : Checked CachingAllocator :=
  match a.live.lookup data with
  | none => throw (.checkFailed s!"CachingAllocator: {data} is not a live block")
  | some block => pure
      { a with
        live := a.live.erase data
        freeLists := a.freeLists.insert block.classBytes
          (block.storage :: (a.freeLists.lookup block.classBytes).getD [])
        stats := { a.stats with
          bytesAllocated := subSize a.stats.bytesAllocated block.classBytes } }

/-- A buffer is destroyed: its deleter runs. -/
def destroyBuffer (a : CachingAllocator) (buffer : PoolBuffer) : Checked CachingAllocator :=
  if buffer.sizeBytes = 0 then pure a else a.returnBlock buffer.data

/-- The destructor: every cached block is given back. -/
def destroy (a : CachingAllocator) : Checked (List UpstreamCall) := do
  check a.live.entries.isEmpty
    (s!"CachingAllocator destroyed with {a.live.entries.length} live Buffer(s) holding " ++
     s!"{a.stats.bytesAllocated} bytes")
  pure ((a.freeLists.entries.flatMap (·.2)).map .free)

end CachingAllocator

/-! ### The pool, its upstream and its callers

The upstream is not part of the code: what it answers comes with each event, under the promise
that a block it hands out is apart from those still outstanding. -/

/-- Two blocks that share no byte. -/
def Block.Apart (b c : Block) : Prop := b.data + b.bytes ≤ c.data ∨ c.data + c.bytes ≤ b.data

/-- The pool, the buffers its callers hold, and the blocks the upstream has handed out and not
got back. -/
structure CachingWorld where
  pool : CachingAllocator
  held : List PoolBuffer
  outstanding : Multiset Block

/-- What the upstream promises of a block: it is as large and as aligned as asked for, it is
apart from every block still outstanding, and the address space holds them all. -/
structure Fresh (outstanding : Multiset Block) (bytes alignment : Nat) (b : Block) : Prop where
  bytes_eq : b.bytes = bytes
  data_pos : 0 < b.data
  aligned : alignment ∣ b.data
  apart : ∀ c ∈ outstanding, b.Apart c
  total : b.bytes + (outstanding.map (·.bytes)).sum < 2 ^ 64

/-- The blocks outstanding after a call. -/
def UpstreamCall.settle (outstanding : Multiset Block) : UpstreamCall → Multiset Block
  | .allocate _ _ (.ok b) => b ::ₘ outstanding
  | .allocate _ _ (.error _) => outstanding
  | .free b => outstanding.erase b

/-- The upstream keeps its promise at one call. -/
def UpstreamCall.Honest (outstanding : Multiset Block) : UpstreamCall → Prop
  | .allocate bytes alignment (.ok b) => Fresh outstanding bytes alignment b
  | _ => True

/-- The upstream keeps its promise at every call of a log. -/
def HonestLog : Multiset Block → List UpstreamCall → Prop
  | _, [] => True
  | outstanding, call :: calls =>
      call.Honest outstanding ∧ HonestLog (call.settle outstanding) calls

/-- What can happen to the pool; an allocation comes with the answers of the upstream. -/
inductive CachingEvent where
  | allocate (bytes alignment : Nat) (first second : StatusOr Block)
  | drop (i : Nat)
  | releaseCached

/-- One event. -/
inductive CachingWorld.Step : CachingWorld → CachingEvent → CachingWorld → Prop
  | allocate {w : CachingWorld} {bytes alignment : Nat} {first second : StatusOr Block}
      {answer : StatusOr PoolBuffer} {calls : List UpstreamCall} {pool : CachingAllocator}
      (size : bytes < 2 ^ 64)
      (run : w.pool.allocate bytes alignment first second = .ok (answer, calls, pool))
      (honest : HonestLog w.outstanding calls) :
      Step w (.allocate bytes alignment first second)
        ⟨pool, answer.toOption.toList ++ w.held, calls.foldl UpstreamCall.settle w.outstanding⟩
  | drop {w : CachingWorld} {i : Nat} {buffer : PoolBuffer} {pool : CachingAllocator}
      (holds : w.held[i]? = some buffer) (run : w.pool.destroyBuffer buffer = .ok pool) :
      Step w (.drop i) ⟨pool, w.held.eraseIdx i, w.outstanding⟩
  | releaseCached {w : CachingWorld} :
      Step w .releaseCached
        ⟨w.pool.releaseCached.2.2, w.held,
          w.pool.releaseCached.2.1.foldl UpstreamCall.settle w.outstanding⟩

/-- Every order of events. -/
def cachingWorld : Transition CachingWorld CachingEvent where
  init := fun w => w = ⟨.new, [], 0⟩
  step := CachingWorld.Step

end InferenceEngine
