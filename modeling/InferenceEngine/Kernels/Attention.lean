/-
Attention with a running maximum: `kernels/internal/attention_common.h`,
`kernels/internal/paged_attention_common.h` and the scalar primitives of
`kernels/scalar/attention.cpp`.

Queries, keys and values are only read, the output is read and written in place; an access to
a cell that an array does not have is a fault.  The arrays on the stack are lists of the size
the source gives them, and hold nothing until they are written.  For every row of the output
there is a journal of the calls made on it and of the keys, values and entries of the block
table that were read for it.  Nothing in the kernels looks at a journal.
-/
import InferenceEngine.Core.Status
import InferenceEngine.Lib.Stores

namespace InferenceEngine

open Stores

namespace Attention

variable {β : Type}

/-- The queries of a unit of prefill. -/
def kAttnQb : Nat := 32

/-- The keys of a block. -/
def kAttnKb : Nat := 64

/-- The heads of a slice of a group. -/
def kAttnDecodeGroupChunk : Nat := 8

/-- A `const float*`: an array and an offset in it. -/
structure ConstFloats (β : Type) where
  cells : Int → Option β
  offset : Int

namespace ConstFloats

/-- `p + n` -/
def advance (p : ConstFloats β) (n : Int) : ConstFloats β := { p with offset := p.offset + n }

/-- `p[i]` -/
def read (p : ConstFloats β) (i : Int) : Checked β :=
  match p.cells (p.offset + i) with
  | some x => .ok x
  | none => .error .outOfBounds

/-- `p[0], ..., p[d - 1]` -/
def row (p : ConstFloats β) (d : Nat) : Checked (List β) :=
  (List.range d).mapM fun e : Nat => p.read e

end ConstFloats

/-- Single precision arithmetic: the operators, `std::exp` and `ExpF32Scalar`. -/
structure Floats (β : Type) where
  zero : β
  one : β
  negInf : β
  add : β → β → β
  sub : β → β → β
  mul : β → β → β
  div : β → β → β
  exp : β → β
  expF32Scalar : β → β

/-- The `Ops` policy; `score` is what `DotScoreRow` writes for one key. -/
structure Ops (β : Type) extends Floats β where
  score : (q k : List β) → (scale : β) → β
  expRowSum : (scores : List β) → (mNew : β) → List β × β
  scaleRow : (out : List β) → (s : β) → List β
  axpyRow : (out : List β) → (s : β) → (x : List β) → List β
  expRowSum_length : ∀ scores mNew, (expRowSum scores mNew).1.length = scores.length
  scaleRow_length : ∀ out s, (scaleRow out s).length = out.length
  axpyRow_length : ∀ out s x, x.length = out.length → (axpyRow out s x).length = out.length

/-- `ScalarOps`. -/
def scalarOps (F : Floats β) : Ops β where
  toFloats := F
  score q k scale :=
    F.mul ((q.zip k).foldl (fun dot p => F.add dot (F.mul p.1 p.2)) F.zero) scale
  expRowSum scores mNew :=
    let es := scores.map fun s => F.expF32Scalar (F.sub s mNew)
    (es, es.foldl F.add F.zero)
  scaleRow out s := out.map fun o => F.mul o s
  axpyRow out s x := List.zipWith (fun o xe => F.add o (F.mul s xe)) out x
  expRowSum_length _ _ := List.length_map ..
  scaleRow_length _ _ := List.length_map ..
  axpyRow_length out s x h := by simp [h]

/-! ### What the kernels work on

The arithmetic and the vector operations are parameters.  Each call on a row of the output is
entered in a journal, with its operands, so that two kernels may be compared call by call. -/

/-- A call on a row of the output, with the values it was made on. -/
inductive Call (β : Type) where
  | clear
  | expRowSum (scores : List β) (mNew : β)
  | scaleRow (out : List β) (s : β)
  | axpyRow (out : List β) (s : β) (x : List β)
deriving DecidableEq

/-- What was done for a row of the output: the calls, the offsets of the keys and values, and
the positions of the block table. -/
structure Journal (β : Type) where
  calls : List (Call β) := []
  keys : List Int := []
  values : List Int := []
  table : List Int := []

/-- One journal after another. -/
def Journal.append (j j' : Journal β) : Journal β :=
  ⟨j.calls ++ j'.calls, j.keys ++ j'.keys, j.values ++ j'.values, j.table ++ j'.table⟩

/-- The output and the journals of its rows, by the offset at which a row begins. -/
structure Work (β : Type) where
  out : Int → Option β
  journal : Int → Journal β

namespace Work

/-- Nothing has been done yet. -/
def start (out : Int → Option β) : Work β := ⟨out, fun _ => {}⟩

/-- An entry in the journal of a row. -/
def note (w : Work β) (outVec : Int) (j : Journal β) : Work β :=
  { w with journal := fun p => if p = outVec then (w.journal p).append j else w.journal p }

/-- `out_vec[0], ..., out_vec[d - 1]` -/
def readRow (w : Work β) (outVec : Int) (d : Nat) : Checked (List β) :=
  (ConstFloats.mk w.out outVec).row d

/-- The same cells as they are written. -/
def writeRow (w : Work β) (outVec : Int) (row : List β) : Checked (Work β) :=
  if (List.range row.length).all fun e : Nat => (w.out (outVec + e)).isSome then
    .ok { w with
      out := fun i =>
        if outVec ≤ i ∧ i < outVec + row.length then row[(i - outVec).toNat]? else w.out i }
  else .error .outOfBounds

end Work

/-- An array on the stack. -/
abbrev Stack (β : Type) := List (Option β)

namespace Stack

/-- An entry that has not been written cannot be read either. -/
def read (s : Stack β) (i : Nat) : Checked β := do
  match ← readAt s i with
  | some x => pure x
  | none => throw .outOfBounds

/-- `s[i] = x` -/
def write (s : Stack β) (i : Nat) (x : β) : Checked (Stack β) := writeAt s i (some x)

/-- `s[first], ..., s[first + n - 1]` -/
def readSpan (s : Stack β) (first n : Nat) : Checked (List β) :=
  (List.range n).mapM fun j => s.read (first + j)

/-- The numbers are written from `s[first]` on. -/
def writeSpan (s : Stack β) (first : Nat) (xs : List β) : Checked (Stack β) :=
  if first + xs.length ≤ s.length then
    .ok (s.take first ++ xs.map some ++ s.drop (first + xs.length))
  else .error .outOfBounds

end Stack

/-- `run_max` and `run_den` of a query. -/
structure Run (β : Type) where
  max : β
  den : β

/-- What the recurrence of one query changes. -/
structure QueryState (β : Type) where
  run : Run β
  scores : Stack β
  work : Work β

/-! ### The primitives, applied

A primitive reads its operands before it writes, and an operand that is not there is a fault. -/

section

variable (ops : Ops β)

/-- `out_vec[e] = 0.0F` for every `e`. -/
def clearRow (outVec : Int) (d : Nat) (w : Work β) : Checked (Work β) := do
  let w ← w.writeRow outVec (List.replicate d ops.zero)
  pure (w.note outVec { calls := [.clear] })

/-- `Ops::ExpRowSum`. -/
def expRowSum (outVec : Int) (scores : Stack β) (n : Nat) (mNew : β) (w : Work β) :
    Checked (β × Stack β × Work β) := do
  let vals ← scores.readSpan 0 n
  let (es, sum) := ops.expRowSum vals mNew
  let scores ← scores.writeSpan 0 es
  pure (sum, scores, w.note outVec { calls := [.expRowSum vals mNew] })

/-- `Ops::ScaleRow`. -/
def scaleRow (outVec : Int) (s : β) (d : Nat) (w : Work β) : Checked (Work β) := do
  let row ← w.readRow outVec d
  let w ← w.writeRow outVec (ops.scaleRow row s)
  pure (w.note outVec { calls := [.scaleRow row s] })

/-- `Ops::AxpyRow`. -/
def axpyRow (outVec : Int) (s : β) (x : ConstFloats β) (d : Nat) (w : Work β) :
    Checked (Work β) := do
  let row ← w.readRow outVec d
  let xs ← x.row d
  let w ← w.writeRow outVec (ops.axpyRow row s xs)
  pure (w.note outVec { calls := [.axpyRow row s xs], values := [x.offset] })

end

section

variable [LT β] [DecidableLT β] (ops : Ops β)

/-- `a > b ? a : b` -/
def larger (a b : β) : β := if b < a then a else b

/-- The maximum that `DotScoreRow` returns. -/
def rowMax (scores : List β) : β := scores.foldl (fun m s => larger s m) ops.negInf

/-- `Ops::DotScoreRow` into `scores + at`. -/
def dotScoreRow (outVec : Int) (q kBlock : ConstFloats β) (n d : Nat) (scale : β)
    (scores : Stack β) (first : Nat) (w : Work β) : Checked (β × Stack β × Work β) := do
  let vals ← (List.range n).mapM fun j : Nat => do
    let q ← q.row d
    let k ← (kBlock.advance (j * d : Nat)).row d
    pure (ops.score q k scale)
  let scores ← scores.writeSpan first vals
  let keys := (List.range n).map fun j : Nat => kBlock.offset + (j * d : Nat)
  pure (rowMax ops vals, scores, w.note outVec { keys := keys })

/-- From the maximum of a block to the rescaled accumulator, which is the same in all three
recurrences. -/
def rescale (outVec : Int) (d nValid : Nat) (blockMax : β) (s : QueryState β) :
    Checked (QueryState β) := do
  let mNew := larger blockMax s.run.max
  let alpha := ops.expF32Scalar (ops.sub s.run.max mNew)
  let (rowSum, scores, w) ← expRowSum ops outVec s.scores nValid mNew s.work
  let runDen := ops.add (ops.mul s.run.den alpha) rowSum
  let w ← scaleRow ops outVec alpha d w
  pure ⟨⟨mNew, runDen⟩, scores, w⟩

/-- One block of contiguous keys for one query: the body that `PrefillUnitsImpl` and
`DecodeGroupSlice` share. -/
def contiguousBlock (outVec : Int) (qVec kBlock vBlock : ConstFloats β) (nValid d : Nat)
    (scale : β) (s : QueryState β) : Checked (QueryState β) := do
  let (blockMax, scores, w) ←
    dotScoreRow ops outVec qVec kBlock nValid d scale s.scores 0 s.work
  let s ← rescale ops outVec d nValid blockMax ⟨s.run, scores, w⟩
  let w ← (List.range nValid).foldlM (fun w j => do
    let p ← s.scores.read j
    axpyRow ops outVec p (vBlock.advance (j * d : Nat)) d w) s.work
  pure { s with work := w }

end

/-! ### Prefill

A unit is a block of 32 queries of one head.  Its queries share the walk over the blocks of 64
keys, and each of them stops at its own causal boundary. -/

/-- `PrefillArgs`; `out` is an offset in the output. -/
structure PrefillArgs (β : Type) where
  q : ConstFloats β
  k : ConstFloats β
  v : ConstFloats β
  out : Int
  tDim : Nat
  heads : Nat
  d : Nat
  lDim : Nat
  group : Nat
  past : Int
  numQblocks : Nat
  scale : β

section

variable [LT β] [DecidableLT β] (ops : Ops β)

/-- `kb_len` and `n_valid`. -/
def nValid (limit : Int) (lDim kb : Nat) : Nat :=
  let kbLen := min (kAttnKb : Int) (lDim - kb)
  (min (limit - kb + 1) kbLen).toNat

/-- The body of the loop over the queries `t` of a unit. -/
def prefillQuery (a : PrefillArgs β) (h : Nat) (kHead vHead : ConstFloats β)
    (s : Stack β × Work β) (t : Nat) : Checked (Stack β × Work β) := do
  let qVec := a.q.advance ((t * a.heads + h) * a.d : Nat)
  let outVec := a.out + ((t * a.heads + h) * a.d : Nat)
  let w ← clearRow ops outVec a.d s.2
  let limit := a.past + t
  let s ← (strided (limit + 1).toNat kAttnKb).foldlM (fun s kb =>
    contiguousBlock ops outVec qVec (kHead.advance (kb * a.d : Nat))
      (vHead.advance (kb * a.d : Nat)) (nValid limit a.lDim kb) a.d a.scale s)
    (⟨⟨ops.negInf, ops.zero⟩, s.1, w⟩ : QueryState β)
  let w ← scaleRow ops outVec (ops.div ops.one s.run.den) a.d s.work
  pure (s.scores, w)

/-- The body of the loop over units. -/
def prefillUnit (a : PrefillArgs β) (s : Stack β × Work β) (unit : Nat) :
    Checked (Stack β × Work β) :=
  let h := unit / a.numQblocks
  let qb := unit % a.numQblocks
  let hk := h / a.group
  let q0 := qb * kAttnQb
  let q1 := min (q0 + kAttnQb) a.tDim
  let kHead := a.k.advance (hk * a.lDim * a.d : Nat)
  let vHead := a.v.advance (hk * a.lDim * a.d : Nat)
  (span q0 q1).foldlM (prefillQuery ops a h kHead vHead) s

/-- `PrefillUnitsImpl`. -/
def prefillUnitsImpl (a : PrefillArgs β) (unitBegin unitEnd : Nat) (w : Work β) :
    Checked (Work β) := do
  let s ← (span unitBegin unitEnd).foldlM (prefillUnit ops a)
    (List.replicate kAttnKb none, w)
  pure s.2

end

/-! ### Decode

A unit is a kv head.  The queries of its group go through the keys in slices of at most eight. -/

/-- `DecodeArgs`. -/
structure DecodeArgs (β : Type) where
  q : ConstFloats β
  k : ConstFloats β
  v : ConstFloats β
  out : Int
  d : Nat
  lDim : Nat
  group : Nat
  scale : β

/-- The scratch of a group slice and what it works on. -/
structure SliceState (β : Type) where
  scores : Stack β
  runMax : Stack β
  runDen : Stack β
  work : Work β

/-- `scores`, `run_max` and `run_den` as they are declared. -/
def SliceState.declared (w : Work β) : SliceState β where
  scores := List.replicate kAttnKb none
  runMax := List.replicate kAttnDecodeGroupChunk none
  runDen := List.replicate kAttnDecodeGroupChunk none
  work := w

section

variable (ops : Ops β)

/-- The loop that sets up the queries of a slice. -/
def beginSlice (out : Int) (d hq0 gn : Nat) (s : SliceState β) : Checked (SliceState β) :=
  (List.range gn).foldlM (fun s gi => do
    let outVec := out + ((hq0 + gi) * d : Nat)
    let w ← clearRow ops outVec d s.work
    let runMax ← s.runMax.write gi ops.negInf
    let runDen ← s.runDen.write gi ops.zero
    pure { s with runMax := runMax, runDen := runDen, work := w }) s

/-- The loop that divides by the denominators. -/
def endSlice (out : Int) (d hq0 gn : Nat) (s : SliceState β) : Checked (SliceState β) :=
  (List.range gn).foldlM (fun s gi => do
    let outVec := out + ((hq0 + gi) * d : Nat)
    let den ← s.runDen.read gi
    let w ← scaleRow ops outVec (ops.div ops.one den) d s.work
    pure { s with work := w }) s

/-- The turn of query `gi` of a slice, with its entries of `run_max` and `run_den`. -/
def sliceTurn (gi : Nat) (turn : QueryState β → Checked (QueryState β)) (s : SliceState β) :
    Checked (SliceState β) := do
  let max ← s.runMax.read gi
  let den ← s.runDen.read gi
  let q ← turn ⟨⟨max, den⟩, s.scores, s.work⟩
  let runDen ← s.runDen.write gi q.run.den
  let runMax ← s.runMax.write gi q.run.max
  pure ⟨q.scores, runMax, runDen, q.work⟩

variable [LT β] [DecidableLT β]

/-- `DecodeGroupSlice`. -/
def decodeGroupSlice (a : DecodeArgs β) (kHead vHead : ConstFloats β) (hq0 gn : Nat)
    (limit : Int) (s : SliceState β) : Checked (SliceState β) := do
  let s ← beginSlice ops a.out a.d hq0 gn s
  let s ← (strided (limit + 1).toNat kAttnKb).foldlM (fun s kb =>
    (List.range gn).foldlM (fun s gi =>
      let qVec := a.q.advance ((hq0 + gi) * a.d : Nat)
      let outVec := a.out + ((hq0 + gi) * a.d : Nat)
      sliceTurn gi (contiguousBlock ops outVec qVec (kHead.advance (kb * a.d : Nat))
        (vHead.advance (kb * a.d : Nat)) (nValid limit a.lDim kb) a.d a.scale) s) s) s
  endSlice ops a.out a.d hq0 gn s

/-- The loop over the slices of a group, which is the same in both decode kernels. -/
def groupSlices (group : Nat) (slice : (g0 gn : Nat) → SliceState β → Checked (SliceState β))
    (s : SliceState β) : Checked (SliceState β) :=
  (strided group kAttnDecodeGroupChunk).foldlM (fun s g0 =>
    let gn := min kAttnDecodeGroupChunk (group - g0)
    slice g0 gn s) s

/-- `DecodeUnitsImpl`. -/
def decodeUnitsImpl (a : DecodeArgs β) (unitBegin unitEnd : Nat) (w : Work β) :
    Checked (Work β) := do
  let limit := (a.lDim : Int) - 1
  let s ← (span unitBegin unitEnd).foldlM (fun s hk =>
    let kHead := a.k.advance (hk * a.lDim * a.d : Nat)
    let vHead := a.v.advance (hk * a.lDim * a.d : Nat)
    let hqBase := hk * a.group
    groupSlices a.group (fun g0 gn =>
      decodeGroupSlice ops a kHead vHead (hqBase + g0) gn limit) s) (SliceState.declared w)
  pure s.work

end

/-! ### Paged decode

The same with the keys of a unit found block by block through the table. -/

/-- `PagedDecodeArgs`. -/
structure PagedDecodeArgs (β : Type) where
  q : ConstFloats β
  kSlab : ConstFloats β
  vSlab : ConstFloats β
  blockTable : List Int
  out : Int
  d : Nat
  length : Nat
  group : Nat
  blockSize : Nat
  blockStride : Int
  scale : β

/-- `slab + (phys * a.block_stride) + head_off` for the logical block `lb`. -/
def tile (a : PagedDecodeArgs β) (slab : ConstFloats β) (headOff : Nat) (outVec : Int) (lb : Nat)
    (w : Work β) : Checked (ConstFloats β × Work β) := do
  let phys ← readAt a.blockTable lb
  pure (slab.advance (phys * a.blockStride + headOff), w.note outVec { table := [(lb : Int)] })

section

variable [LT β] [DecidableLT β] (ops : Ops β)

/-- One unit of keys for one query, read through the block table. -/
def pagedBlock (a : PagedDecodeArgs β) (headOff : Nat) (outVec : Int) (qVec : ConstFloats β)
    (lb0 nValid : Nat) (s : QueryState β) : Checked (QueryState β) := do
  let bs := a.blockSize
  let (blockMax, scores, w) ← (List.range (blocks nValid bs)).foldlM
    (fun (blockMax, scores, w) b => do
      let (kTile, w) ← tile a a.kSlab headOff outVec (lb0 + b) w
      let nB := min bs (nValid - b * bs)
      let (bmax, scores, w) ←
        dotScoreRow ops outVec qVec kTile nB a.d a.scale scores (b * bs) w
      pure (larger bmax blockMax, scores, w)) (ops.negInf, s.scores, s.work)
  let s ← rescale ops outVec a.d nValid blockMax ⟨s.run, scores, w⟩
  let w ← (List.range (blocks nValid bs)).foldlM (fun w b => do
    let (vTile, w) ← tile a a.vSlab headOff outVec (lb0 + b) w
    let nB := min bs (nValid - b * bs)
    (List.range nB).foldlM (fun w p => do
      let e ← s.scores.read (b * bs + p)
      axpyRow ops outVec e (vTile.advance (p * a.d : Nat)) a.d w) w) s.work
  pure { s with work := w }

/-- `PagedDecodeGroupSlice`. -/
def pagedDecodeGroupSlice (a : PagedDecodeArgs β) (headOff hq0 gn : Nat) (limit : Int)
    (s : SliceState β) : Checked (SliceState β) := do
  let s ← beginSlice ops a.out a.d hq0 gn s
  let s ← (strided (limit + 1).toNat kAttnKb).foldlM (fun s kb =>
    (List.range gn).foldlM (fun s gi =>
      let qVec := a.q.advance ((hq0 + gi) * a.d : Nat)
      let outVec := a.out + ((hq0 + gi) * a.d : Nat)
      let lb0 := kb / a.blockSize
      sliceTurn gi (pagedBlock ops a headOff outVec qVec lb0 (nValid limit a.length kb)) s) s) s
  endSlice ops a.out a.d hq0 gn s

/-- `PagedDecodeUnitsImpl`. -/
def pagedDecodeUnitsImpl (a : PagedDecodeArgs β) (unitBegin unitEnd : Nat) (w : Work β) :
    Checked (Work β) := do
  let limit := (a.length : Int) - 1
  let headSpan := a.blockSize * a.d
  let s ← (span unitBegin unitEnd).foldlM (fun s hk =>
    let headOff := hk * headSpan
    let hqBase := hk * a.group
    groupSlices a.group (fun g0 gn =>
      pagedDecodeGroupSlice ops a headOff (hqBase + g0) gn limit) s) (SliceState.declared w)
  pure s.work

end

end Attention

end InferenceEngine
