/-
The attention entry points: `kernels/attention.cpp` and `kernels/paged_attention.cpp`.

A variant is what `Select` finds in a kernel table: a function that is handed the arguments of
one call and a range of its units.  It changes a state of which the entry points know nothing.
`parallel_for` is modelled by running the body on one sub-range after the other.  The sequence
offsets are natural numbers here, and so are the lengths that are taken from them.
-/
import InferenceEngine.Kernels.Attention
import InferenceEngine.Parallel.Schedule

namespace InferenceEngine

open Stores

/-- `parallel_for` with a body that changes a state. -/
def Parallel.regionM {σ : Type} (schedule : Schedule) (n grain : Nat)
    (body : (unitBegin unitEnd : Nat) → σ → Checked σ) (s : σ) : Checked σ :=
  (schedule.cut n grain).foldlM (fun s r => body r.1.toNat r.2.toNat s) s

namespace Attention

open Parallel

variable {β σ : Type}

/-- The grain of the loops over units of prefill. -/
def kAttnQGrain : Nat := 1

/-- The grain of the loops over kv heads. -/
def kAttnHeadGrain : Nat := 1

/-- `PrefillUnitsFn`, `DecodeUnitsFn` and `PagedDecodeUnitsFn`. -/
abbrev UnitsFn (α σ : Type) := α → (unitBegin unitEnd : Nat) → σ → Checked σ

/-! ### `kernels/attention.cpp`

The entry points pack their arguments and hand the units to a parallel loop.  The ragged one
finds the sequence of a unit by the prefix sums. -/

/-- `PrefillVarlenArgs`. -/
structure PrefillVarlenArgs (β : Type) where
  q : ConstFloats β
  cuSeqlens : List Nat
  kSeqs : List (ConstFloats β)
  vSeqs : List (ConstFloats β)
  lDims : List Nat
  out : Int
  numSeqs : Nat
  heads : Nat
  d : Nat
  group : Nat
  scale : β

/-- The arguments that `PrefillVarlenUnits` makes up for sequence `b`. -/
def PrefillVarlenArgs.sequence (a : PrefillVarlenArgs β) (t0 tDim lDim : Nat)
    (k v : ConstFloats β) : PrefillArgs β where
  q := a.q.advance (t0 * a.heads * a.d : Nat)
  k := k
  v := v
  out := a.out + (t0 * a.heads * a.d : Nat)
  tDim := tDim
  heads := a.heads
  d := a.d
  lDim := lDim
  group := a.group
  past := (lDim : Int) - tDim
  numQblocks := (tDim + kAttnQb - 1) / kAttnQb
  scale := a.scale

/-- The body of the loop of `PrefillVarlenUnits`; the first component is `seq_unit_base`. -/
def prefillVarlenTurn (a : PrefillVarlenArgs β) (fn : UnitsFn (PrefillArgs β) σ)
    (unitBegin unitEnd : Nat) (s : Nat × σ) (b : Nat) : Checked (Nat × σ) := do
  let seqUnitBase := s.1
  let t0 ← readAt a.cuSeqlens b
  let t1 ← readAt a.cuSeqlens (b + 1 : Nat)
  let tDim := t1 - t0
  let nqb := (tDim + kAttnQb - 1) / kAttnQb
  let seqUnitEnd := seqUnitBase + a.heads * nqb
  let lo := max unitBegin seqUnitBase
  let hi := min unitEnd seqUnitEnd
  if lo < hi then do
    let lDim ← readAt a.lDims b
    let k ← readAt a.kSeqs b
    let v ← readAt a.vSeqs b
    let s ← fn (a.sequence t0 tDim lDim k v) (lo - seqUnitBase) (hi - seqUnitBase) s.2
    pure (seqUnitEnd, s)
  else pure (seqUnitEnd, s.2)

/-- `PrefillVarlenUnits`. -/
def prefillVarlenUnits (a : PrefillVarlenArgs β) (fn : UnitsFn (PrefillArgs β) σ)
    (unitBegin unitEnd : Nat) (s : σ) : Checked σ := do
  let s ← (List.range a.numSeqs).foldlM (prefillVarlenTurn a fn unitBegin unitEnd) (0, s)
  pure s.2

/-- The arguments of `PrefillAttentionF32`. -/
def prefillArgs (q k v : ConstFloats β) (out : Int) (tDim heads kvHeads d lDim : Nat)
    (scale : β) : PrefillArgs β where
  q := q
  k := k
  v := v
  out := out
  tDim := tDim
  heads := heads
  d := d
  lDim := lDim
  group := heads / kvHeads
  past := (lDim : Int) - tDim
  numQblocks := (tDim + kAttnQb - 1) / kAttnQb
  scale := scale

/-- `PrefillAttentionF32`. -/
def prefillAttentionF32 (fn : UnitsFn (PrefillArgs β) σ) (schedule : Schedule)
    (q k v : ConstFloats β) (out : Int) (tDim heads kvHeads d lDim : Nat) (scale : β) (s : σ) :
    Checked σ :=
  let args := prefillArgs q k v out tDim heads kvHeads d lDim scale
  regionM schedule (heads * args.numQblocks) kAttnQGrain (fn args) s

/-- `PrefillAttentionVarlenF32`. -/
def prefillAttentionVarlenF32 (fn : UnitsFn (PrefillArgs β) σ) (schedule : Schedule)
    (q : ConstFloats β) (cuSeqlens : List Nat) (numSeqs : Nat) (kSeqs vSeqs : List (ConstFloats β))
    (lDims : List Nat) (out : Int) (heads kvHeads d : Nat) (scale : β) (s : σ) : Checked σ := do
  let totalUnits ← (List.range numSeqs).foldlM (fun (total b : Nat) => do
    let t0 ← readAt cuSeqlens b
    let t1 ← readAt cuSeqlens (b + 1 : Nat)
    let tDim := t1 - t0
    let nqb := (tDim + kAttnQb - 1) / kAttnQb
    pure (total + heads * nqb)) 0
  let args : PrefillVarlenArgs β :=
    ⟨q, cuSeqlens, kSeqs, vSeqs, lDims, out, numSeqs, heads, d, heads / kvHeads, scale⟩
  regionM schedule totalUnits kAttnQGrain (prefillVarlenUnits args fn) s

/-! ### `kernels/paged_attention.cpp`

In a batch each sequence has as many units as there are kv heads, so a division finds the
sequence. -/

/-- `PagedDecodeBatchedArgs`. -/
structure PagedDecodeBatchedArgs (β : Type) where
  q : ConstFloats β
  kSlab : ConstFloats β
  vSlab : ConstFloats β
  blockTables : List (List Int)
  lengths : List Nat
  out : Int
  numSeqs : Nat
  heads : Nat
  kvHeads : Nat
  d : Nat
  group : Nat
  blockSize : Nat
  blockStride : Int
  scale : β

/-- `PagedDecodeBatchedUnits`. -/
def pagedDecodeBatchedUnits (a : PagedDecodeBatchedArgs β) (fn : UnitsFn (PagedDecodeArgs β) σ)
    (unitBegin unitEnd : Nat) (s : σ) : Checked σ :=
  let row := a.heads * a.d
  (span unitBegin unitEnd).foldlM (fun s u => do
    let b := u / a.kvHeads
    let hk := u % a.kvHeads
    let blockTable ← readAt a.blockTables b
    let length ← readAt a.lengths b
    let sa : PagedDecodeArgs β :=
      { q := a.q.advance (b * row : Nat)
        kSlab := a.kSlab
        vSlab := a.vSlab
        blockTable := blockTable
        out := a.out + (b * row : Nat)
        d := a.d
        length := length
        group := a.group
        blockSize := a.blockSize
        blockStride := a.blockStride
        scale := a.scale }
    fn sa hk (hk + 1) s) s

/-- `PagedDecodeAttentionF32`; the bound `num_blocks` is not used. -/
def pagedDecodeAttentionF32 (fn : UnitsFn (PagedDecodeArgs β) σ) (schedule : Schedule)
    (q kSlab vSlab : ConstFloats β) (blockTable : List Int) (length heads kvHeads d : Nat)
    (blockSize : Nat) (blockStride : Int) (scale : β) (out : Int) (s : σ) : Checked σ := do
  check (0 < blockSize && kAttnKb % blockSize = 0)
    (s!"PagedDecodeAttentionF32: block_size {blockSize} must be a positive divisor of " ++
      s!"kAttnKb {kAttnKb}")
  let args : PagedDecodeArgs β :=
    ⟨q, kSlab, vSlab, blockTable, out, d, length, heads / kvHeads, blockSize, blockStride, scale⟩
  regionM schedule kvHeads kAttnHeadGrain (fn args) s

/-- `PagedDecodeAttentionBatchedF32`. -/
def pagedDecodeAttentionBatchedF32 (fn : UnitsFn (PagedDecodeArgs β) σ) (schedule : Schedule)
    (q kSlab vSlab : ConstFloats β) (blockTables : List (List Int)) (lengths : List Nat)
    (numSeqs heads kvHeads d blockSize : Nat) (blockStride : Int) (scale : β) (out : Int)
    (s : σ) : Checked σ := do
  if numSeqs = 0 then pure s
  else do
    check (0 < blockSize && kAttnKb % blockSize = 0)
      (s!"PagedDecodeAttentionBatchedF32: block_size {blockSize} must be a positive " ++
        s!"divisor of kAttnKb {kAttnKb}")
    let args : PagedDecodeBatchedArgs β :=
      ⟨q, kSlab, vSlab, blockTables, lengths, out, numSeqs, heads, kvHeads, d, heads / kvHeads,
        blockSize, blockStride, scale⟩
    regionM schedule (numSeqs * kvHeads) kAttnHeadGrain (pagedDecodeBatchedUnits args fn) s

end Attention

end InferenceEngine
