/-
The copies between a sequence's tensors and the pool's slabs: `kernels/kv_scatter.cpp` and
`kernels/kv_gather.cpp`.

Both kernels copy keys and values with one loop; the two copies touch different buffers, so
the model runs the loop of one operand and applies it twice.  `parallel_for` hands
disjoint parts of the index range to its workers and every unit writes its own part of the
destination, so the range is walked in order here.
-/
import InferenceEngine.Lib.FlatMemory

namespace InferenceEngine

open FlatMemory

variable {α : Type}

/-- `ScatterRange` of one operand over all tokens. -/
def scatterRange (src : Int → α) (slotMapping : List Int) (tDim kvHeads d blockSize : Int)
    (slab : Int → α) : Int → α :=
  let headStride := blockSize * d
  (indices tDim).foldl (fun slab t =>
    let slot := slotMapping.getD t.toNat 0
    let block := slot.tdiv blockSize
    let p := slot.tmod blockSize
    let dstBase := block * kvHeads * headStride + p * d
    let srcBase := t * kvHeads * d
    (indices kvHeads).foldl (fun slab h =>
      memcpy slab (dstBase + h * headStride) src (srcBase + h * d) d) slab) slab

/-- `GatherRange` of one operand over all (head, block) units. -/
def gatherRange (slab : Int → α) (blockTable : List Int) (blockSize length kvHeads d : Int)
    (out : Int → α) : Int → α :=
  let blockStride := kvHeads * blockSize * d
  let headStride := blockSize * d
  let numBlocks := (length + blockSize - 1).tdiv blockSize
  (indices (kvHeads * numBlocks)).foldl (fun out u =>
    let h := u.tdiv numBlocks
    let b := u.tmod numBlocks
    let base := b * blockSize
    let rows := min blockSize (length - base)
    let phys := blockTable.getD b.toNat 0
    memcpy out (h * length * d + base * d) slab (phys * blockStride + h * headStride) (rows * d))
    out

/-- `KvGatherF32` of one operand. -/
def kvGather (slab : Int → α) (blockTable : List Int) (blockSize length kvHeads d : Int)
    (out : Int → α) : Int → α :=
  if length = 0 then out else gatherRange slab blockTable blockSize length kvHeads d out

/-- The offset in a slab of element `(h, e)` of the token at a flat slot, which is where both
kernels find it. -/
def cell (kvHeads d bs slot h e : Int) : Int :=
  slot.tdiv bs * kvHeads * (bs * d) + slot.tmod bs * d + h * (bs * d) + e

end InferenceEngine
