/-
A pool and everything that holds blocks of it.

The users of one `BlockPool` are any number of block tables, by id, and code that calls
`Allocate`, `Share` and `Release` itself, whose references are the multiset `refs`.  One
step is one call.  A call is legal when the code's own contract allows it: blocks are
shared only while somebody owns them, a reference is released by who holds it, and a table
is used while it exists.

Who holds the blocks when all anyone does is allocate and release is a smaller system.
-/
import InferenceEngine.KvCache.BlockPool
import InferenceEngine.KvCache.BlockTable
import InferenceEngine.Lib.IdMap
import InferenceEngine.Lib.Transition
import Mathlib.Algebra.Order.Group.Multiset

namespace InferenceEngine

/-- A pool, its tables by id, and the references held outside tables. -/
structure PoolSystem (α : Type) where
  pool : BlockPool α
  tables : IdMap BlockTable
  refs : Multiset Int

/-- One call on the pool or on a table. -/
inductive PoolCall where
  | allocate
  | share (block : Int)
  | release (block : Int)
  | construct (id : Nat)
  | appendTokens (id : Nat) (count : Int)
  | truncate (id : Nat) (newLen : Int)
  | freeAll (id : Nat)
  | move (source target : Nat)
  | destroy (id : Nat)

namespace PoolSystem

variable {α : Type}

/-- What the contracts of `block_pool.h` and `block_table.h` allow. -/
def Legal (s : PoolSystem α) : PoolCall → Prop
  | .allocate => True
  | .share block => 0 ≤ block ∧ block < s.pool.numBlocks ∧ 0 < s.pool.refcounts block
  | .release block => block ∈ s.refs
  | .construct id => id ∉ s.tables
  | .appendTokens id _ => id ∈ s.tables
  | .truncate id _ => id ∈ s.tables
  | .freeAll id => id ∈ s.tables
  | .move source target => source ∈ s.tables ∧ target ∉ s.tables
  | .destroy id => id ∈ s.tables

instance (s : PoolSystem α) : DecidablePred s.Legal
  | .allocate => isTrue trivial
  | .share block =>
      inferInstanceAs (Decidable (0 ≤ block ∧ block < s.pool.numBlocks ∧
        0 < s.pool.refcounts block))
  | .release block => inferInstanceAs (Decidable (block ∈ s.refs))
  | .construct id => inferInstanceAs (Decidable (id ∉ s.tables))
  | .appendTokens id _ => inferInstanceAs (Decidable (id ∈ s.tables))
  | .truncate id _ => inferInstanceAs (Decidable (id ∈ s.tables))
  | .freeAll id => inferInstanceAs (Decidable (id ∈ s.tables))
  | .move source target => inferInstanceAs (Decidable (source ∈ s.tables ∧ target ∉ s.tables))
  | .destroy id => inferInstanceAs (Decidable (id ∈ s.tables))

/-- The table with an id; a dangling one is a null pointer. -/
def table (s : PoolSystem α) (id : Nat) : Checked BlockTable :=
  match s.tables.lookup id with
  | some t => .ok t
  | none => .error .nullDereference

/-- One call. -/
def run (s : PoolSystem α) : PoolCall → Checked (PoolSystem α)
  | .allocate => do
      let (block, pool) ← s.pool.allocate
      match block with
      | .ok block => pure { s with pool := pool, refs := block ::ₘ s.refs }
      | .error _ => pure { s with pool := pool }
  | .share block => do
      let pool ← s.pool.share block
      pure { s with pool := pool, refs := block ::ₘ s.refs }
  | .release block => do
      let pool ← s.pool.release block
      pure { s with pool := pool, refs := s.refs.erase block }
  | .construct id => pure { s with tables := s.tables.insert id .empty }
  | .appendTokens id count => do
      let t ← s.table id
      let (_, t, pool) ← t.appendTokens count s.pool
      pure { s with pool := pool, tables := s.tables.insert id t }
  | .truncate id newLen => do
      let t ← s.table id
      let (_, t, pool) ← t.truncate newLen s.pool
      pure { s with pool := pool, tables := s.tables.insert id t }
  | .freeAll id => do
      let t ← s.table id
      let (t, pool) ← t.freeAll s.pool
      pure { s with pool := pool, tables := s.tables.insert id t }
  | .move source target => do
      let t ← s.table source
      pure { s with tables := (s.tables.insert source .empty).insert target t }
  | .destroy id => do
      let t ← s.table id
      let (_, pool) ← t.freeAll s.pool
      pure { s with pool := pool, tables := s.tables.erase id }

/-- Every interleaving of legal calls on a new pool. -/
def system [Zero α] (geom : CacheGeometry) (blockSize numBlocks : Int) :
    Transition (PoolSystem α) PoolCall where
  init := fun s => BlockPool.create geom blockSize numBlocks = .ok s.pool ∧
    s.tables = ∅ ∧ s.refs = 0
  step := fun s call s' => s.Legal call ∧ s.run call = .ok s'

/-- The state after a legal call that returns. -/
def next (s : PoolSystem α) (call : PoolCall) : Option (PoolSystem α) :=
  if s.Legal call then (s.run call).toOption else none

/-- The live references to blocks, tables' and others'. -/
def owners (s : PoolSystem α) : Multiset Int :=
  s.tables.total (fun _ t => (t.blocks : Multiset Int)) + s.refs

/-- No reference count leaves its type: a block that is shared has room for one more owner. -/
def CountFits (s : PoolSystem α) : PoolCall → Prop
  | .share block => s.owners.count block + 1 < 2 ^ 31
  | _ => True

end PoolSystem

/-- A pool, the ids that have an owner, and all ids that were ever handed out. -/
structure BlockHandles (α : Type) where
  pool : BlockPool α
  held : List Int
  issued : List Int

/-- `Allocate` or `Release`. -/
inductive HandleCall where
  | allocate
  | release (block : Int)

namespace BlockHandles

variable {α : Type}

/-- An owner gives back what it has. -/
def Legal (s : BlockHandles α) : HandleCall → Prop
  | .allocate => True
  | .release block => block ∈ s.held

/-- One call on a pool and its handles. -/
def run (s : BlockHandles α) : HandleCall → Checked (BlockHandles α)
  | .allocate => do
      let (block, pool) ← s.pool.allocate
      match block with
      | .ok block => pure ⟨pool, block :: s.held, block :: s.issued⟩
      | .error _ => pure { s with pool := pool }
  | .release block => do
      let pool ← s.pool.release block
      pure { s with pool := pool, held := s.held.erase block }

/-- Every run of allocations and releases on a pool. -/
def system (pool : BlockPool α) : Transition (BlockHandles α) HandleCall where
  init := fun s => s = ⟨pool, [], []⟩
  step := fun s call s' => s.Legal call ∧ s.run call = .ok s'

end BlockHandles

namespace BlockPool

variable {α : Type}

/-- The ids of a pool fit their type. -/
structure IdsFit (p : BlockPool α) : Prop where
  distinct : p.freeList.Nodup
  in_range : ∀ b ∈ p.freeList, 0 ≤ b ∧ b < p.numBlocks
  /-- no index is out of bounds and no CHECK fires, in any run -/
  returns : ∀ s, (BlockHandles.system p).Reachable s → ∀ call, s.Legal call →
    ∃ s', s.run call = .ok s'
  /-- the range CHECK of `Release` would not fire on any id that was ever handed out -/
  issued_in_range : ∀ s, (BlockHandles.system p).Reachable s → ∀ b ∈ s.issued,
    s.pool.blockInRange b = true
  /-- no id has two owners -/
  owners_differ : ∀ s, (BlockHandles.system p).Reachable s → s.held.Nodup

end BlockPool

end InferenceEngine
