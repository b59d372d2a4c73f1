/-
The block table of one sequence: `kvcache/block_table.h` and `block_table.cpp`.

The code's table keeps a pointer to its pool.  Here the pool is passed to each operation
and returned by it, so a table is its block ids and its token count.
-/
import InferenceEngine.KvCache.BlockPool

namespace InferenceEngine

/-- `kvcache::BlockTable`. -/
structure BlockTable where
  blocks : List Int
  numTokens : Nat
deriving DecidableEq, Repr

namespace BlockTable

variable {α : Type}

/-- A table as constructed, and as a move leaves its source. -/
def empty : BlockTable := ⟨[], 0⟩

/-- `Release` of each block in turn. -/
def releaseAll (blocks : List Int) (p : BlockPool α) : Checked (BlockPool α) :=
  blocks.foldlM (fun p block => p.release block) p

/-- The allocation loop of `AppendTokens`, with `i` blocks still to take: the new blocks,
or `none` once the pool has run dry and the blocks already taken are back. -/
def allocateFresh : (i : Nat) → (fresh : List Int) → BlockPool α →
    Checked (Option (List Int) × BlockPool α)
  | 0, fresh, p => .ok (some fresh, p)
  | i + 1, fresh, p => do
      let (block, p) ← p.allocate
      match block with
      | .error _ =>
          let p ← releaseAll fresh p
          pure (none, p)
      | .ok block => allocateFresh i (fresh ++ [block]) p

/-- The flat slot of a position, `blocks_[pos / bs] * bs + pos % bs`. -/
def slotOf (blocks : List Int) (bs pos : Nat) : Checked Int := do
  let block ← readAt blocks ((pos / bs : Nat) : Int)
  pure (block * bs + ((pos % bs : Nat) : Int))

/-- The same slot, without the access check. -/
def slotAt (blocks : List Int) (bs pos : Nat) : Int :=
  blocks.getD (pos / bs) 0 * bs + ((pos % bs : Nat) : Int)

/-- `BlockTable::AppendTokens`: the slots of the new positions. -/
def appendTokens (t : BlockTable) (count : Int) (p : BlockPool α) :
    Checked (StatusOr (List Int) × BlockTable × BlockPool α) := do
  if count ≤ 0 then
    return (.error (invalidArgumentError
      s!"BlockTable::AppendTokens: count must be positive, got {count}"), t, p)
  let need ← p.blocksNeeded t.numTokens count
  let (fresh, p) ← allocateFresh need.toNat [] p
  match fresh with
  | none =>
      return (.error (resourceExhaustedError
        (s!"BlockTable::AppendTokens: pool exhausted growing {t.numTokens} tokens by {count} " ++
         s!"(needed {need} new blocks, {p.freeBlocks} free)")), t, p)
  | some fresh =>
      let blocks := t.blocks ++ fresh
      let slotMapping ← (List.range count.toNat).mapM
        fun i => slotOf blocks p.blockSize (t.numTokens + i)
      return (.ok slotMapping, ⟨blocks, t.numTokens + count.toNat⟩, p)

/-- `n` turns of the loop of `Truncate`: release the last block and pop it. -/
def popBlocks : (n : Nat) → List Int → BlockPool α → Checked (List Int × BlockPool α)
  | 0, blocks, p => .ok (blocks, p)
  | n + 1, blocks, p =>
      match blocks.getLast? with
      | none => .error .outOfBounds
      | some block => do
          let p ← p.release block
          popBlocks n blocks.dropLast p

/-- `BlockTable::Truncate`.  The loop runs while there are more than `keep` blocks. -/
def truncate (t : BlockTable) (newLen : Int) (p : BlockPool α) :
    Checked (StatusOr Unit × BlockTable × BlockPool α) := do
  if newLen < 0 ∨ (t.numTokens : Int) < newLen then
    return (.error (invalidArgumentError
      s!"BlockTable::Truncate: new_len {newLen} out of range [0, {t.numTokens}]"), t, p)
  let keep := (newLen + p.blockSize - 1).tdiv p.blockSize
  let (blocks, p) ← popBlocks (t.blocks.length - keep.toNat) t.blocks p
  return (.ok (), ⟨blocks, newLen.toNat⟩, p)

/-- `BlockTable::FreeAll`, which the destructor calls. -/
def freeAll (t : BlockTable) (p : BlockPool α) : Checked (BlockTable × BlockPool α) := do
  let p ← releaseAll t.blocks p
  pure (empty, p)

/-- `BlockTable::slot`. -/
def slot (t : BlockTable) (bs : Nat) (pos : Int) : Checked Int := do
  check (0 ≤ pos && pos < t.numTokens)
    s!"BlockTable::slot: pos {pos} out of range [0, {t.numTokens})"
  slotOf t.blocks bs pos.toNat

end BlockTable

end InferenceEngine
