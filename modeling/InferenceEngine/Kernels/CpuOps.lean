/-
The reference operations that work row by row: `cpu/detail.h`, `cpu/softmax.cpp`, `cpu/rope.cpp`,
`cpu/activation.cpp` and `cpu/attention.cpp`.

The elements of all tensors are cells of one memory, so that an output may be an input as well.
`parallel_for` is modelled by running the body on one sub-range after the other.  The scores of
attention lie where `tensor::ops::zeros` puts them, and are left there.
-/
import InferenceEngine.Kernels.AttentionEntries
import InferenceEngine.Lib.Cells
import InferenceEngine.Tensor.Tensor

namespace InferenceEngine

open Stores Parallel Cells
open Attention (Floats)

/-- A tensor by its shape, its dtype and the address of its elements. -/
structure PlacedTensor where
  dims : List Nat
  contiguous : Bool
  dtype : DataType
  data : Int
deriving DecidableEq, Repr

namespace PlacedTensor

/-- `shape().rank()`. -/
def rank (t : PlacedTensor) : Nat := t.dims.length

/-- `shape().dim(i)`. -/
def dim (t : PlacedTensor) (i : Nat) : Nat := t.dims.getD i 0

/-- `shape()` in a message. -/
def shape (t : PlacedTensor) : String := "[" ++ ", ".intercalate (t.dims.map toString) ++ "]"

end PlacedTensor

variable {β : Type}

/-- `*p` for a `const float*`. -/
def loadFloat (m : Memory β) (p : Int) : Checked β := load .outOfBounds m p

/-- `*p = x` for a `float*`. -/
def storeFloat (m : Memory β) (p : Int) (x : β) : Checked (Memory β) := store .outOfBounds m p x

/-- `std::max` -/
def stdMax [LT β] [DecidableLT β] (a b : β) : β := if a < b then b else a

namespace Cpu

/-- The grain of the loops over rows. -/
def kRowGrain : Nat := 1

/-- The grain of the loops over tokens. -/
def kTokenGrain : Nat := 1

/-! ### `cpu/detail.h`

What every operation of the backend asks of its tensors first. -/

/-- `RequireContiguousRank`. -/
def requireContiguousRank (t : PlacedTensor) (rank : Nat) (op role : String) : StatusOr Unit :=
  if t.rank ≠ rank then
    .error (invalidArgumentError s!"{op}: {role} must be rank-{rank}, got rank-{t.rank}")
  else if t.contiguous = false then
    .error (invalidArgumentError s!"{op}: {role} must be contiguous")
  else .ok ()

/-- `RequireF32`. -/
def requireF32 (t : PlacedTensor) (op role : String) : StatusOr Unit :=
  if t.dtype ≠ .float32 then
    .error (invalidArgumentError s!"{op}: {role} must be f32, got {t.dtype.toString}")
  else .ok ()

/-! ### `cpu/softmax.cpp`

The loops of a row in the order of the source: the largest, the exponentials with their sum, the
quotients. -/

section

variable [LT β] [DecidableLT β]

/-- One row of a softmax that takes its exponentials from `exp`. -/
def softmaxRow (F : Floats β) (exp : β → β) (n : Nat) (x y : Int) (m : Memory β) :
    Checked (Memory β) := do
  let first ← loadFloat m x
  let rowMax ← (span 1 n).foldlM (fun rowMax (j : Nat) => do
    let xj ← loadFloat m (x + j)
    pure (stdMax rowMax xj)) first
  let (m, sum) ← (List.range n).foldlM (fun (s : Memory β × β) (j : Nat) => do
    let xj ← loadFloat s.1 (x + j)
    let e := exp (F.sub xj rowMax)
    let m ← storeFloat s.1 (y + j) e
    pure (m, F.add s.2 e)) (m, F.zero)
  let invSum := F.div F.one sum
  (List.range n).foldlM (fun m (j : Nat) => do
    let yj ← loadFloat m (y + j)
    storeFloat m (y + j) (F.mul yj invSum)) m

/-- The checks of `softmax`. -/
def requireSoftmax (x y : PlacedTensor) : StatusOr Unit := do
  requireContiguousRank x 2 "cpu::softmax" "x"
  requireF32 x "cpu::softmax" "x"
  let rows := x.dim 0
  let nDim := x.dim 1
  if rows < 1 ∨ nDim < 1 then
    throw (invalidArgumentError s!"cpu::softmax: x must be [R>=1, N>=1], got [{rows}, {nDim}]")
  requireContiguousRank y 2 "cpu::softmax" "y"
  requireF32 y "cpu::softmax" "y"
  if y.dim 0 ≠ rows ∨ y.dim 1 ≠ nDim then
    throw (invalidArgumentError
      (s!"cpu::softmax: y must be [{rows}, {nDim}] to match x, " ++
        s!"got [{y.dim 0}, {y.dim 1}]"))

/-- `softmax`. -/
def softmax (F : Floats β) (schedule : Schedule) (x y : PlacedTensor) (m : Memory β) :
    Checked (StatusOr (Memory β)) :=
  match requireSoftmax x y with
  | .error status => pure (.error status)
  | .ok () => do
      let rows := x.dim 0
      let nDim := x.dim 1
      let m ← regionM schedule rows kRowGrain (fun first last m =>
        (span first last).foldlM (fun m r =>
          softmaxRow F F.exp nDim (x.data + (r * nDim : Nat)) (y.data + (r * nDim : Nat)) m) m) m
      pure (.ok m)

end

/-! ### `cpu/rope.cpp`

The two halves of a head are rotated against each other, in place. -/

/-- One pair of a rotation: both halves are read before either is written. -/
def ropePair (F : Floats β) (half : Nat) (cosRow sinRow v : Int) (m : Memory β) (j : Nat) :
    Checked (Memory β) := do
  let c ← loadFloat m (cosRow + j)
  let s ← loadFloat m (sinRow + j)
  let lo ← loadFloat m (v + j)
  let hi ← loadFloat m (v + j + half)
  let m ← storeFloat m (v + j) (F.sub (F.mul lo c) (F.mul hi s))
  storeFloat m (v + j + half) (F.add (F.mul hi c) (F.mul lo s))

/-- The loops over the heads and the pairs of one token. -/
def ropeToken (F : Floats β) (heads d : Nat) (cos sin xTok : Int) (p : Int) (m : Memory β) :
    Checked (Memory β) :=
  let half := d / 2
  let cosRow := cos + p * half
  let sinRow := sin + p * half
  (List.range heads).foldlM (fun m h =>
    let v := xTok + (h * d : Nat)
    (List.range half).foldlM (ropePair F half cosRow sinRow v) m) m

/-- The checks of `rope_apply`. -/
def requireRope (x : PlacedTensor) (positions : List Int) (cos sin : PlacedTensor) :
    StatusOr Unit := do
  requireContiguousRank x 3 "cpu::rope_apply" "x"
  requireF32 x "cpu::rope_apply" "x"
  requireContiguousRank cos 2 "cpu::rope_apply" "cos"
  requireF32 cos "cpu::rope_apply" "cos"
  requireContiguousRank sin 2 "cpu::rope_apply" "sin"
  requireF32 sin "cpu::rope_apply" "sin"
  let tDim := x.dim 0
  let heads := x.dim 1
  let d := x.dim 2
  let nPos := positions.length
  if tDim < 1 ∨ heads < 1 ∨ d < 1 then
    throw (invalidArgumentError
      s!"cpu::rope_apply: x must be [T>=1, Hx>=1, d>=1], got [{tDim}, {heads}, {d}]")
  if d % 2 ≠ 0 then
    throw (invalidArgumentError s!"cpu::rope_apply: head dim d must be even, got {d}")
  let half := d / 2
  let tableRows := cos.dim 0
  if cos.dim 1 ≠ half then
    throw (invalidArgumentError
      s!"cpu::rope_apply: cos must be [P, {half}] (d/2), got [{tableRows}, {cos.dim 1}]")
  if sin.dim 0 ≠ tableRows ∨ sin.dim 1 ≠ half then
    throw (invalidArgumentError
      (s!"cpu::rope_apply: sin must match cos shape [{tableRows}, {half}], " ++
        s!"got [{sin.dim 0}, {sin.dim 1}]"))
  if nPos ≠ tDim then
    throw (invalidArgumentError
      s!"cpu::rope_apply: positions length {nPos} must equal T {tDim}")
  (positions.zipIdx).forM fun (p, t) =>
    if p < 0 ∨ p ≥ tableRows then
      throw (invalidArgumentError
        (s!"cpu::rope_apply: positions[{t}] = {p} is out of range for the " ++
          s!"cos/sin table of length {tableRows}"))
    else pure ()

/-- `rope_apply`. -/
def ropeApply (F : Floats β) (schedule : Schedule) (x : PlacedTensor) (positions : List Int)
    (cos sin : PlacedTensor) (m : Memory β) : Checked (StatusOr (Memory β)) :=
  match requireRope x positions cos sin with
  | .error status => pure (.error status)
  | .ok () => do
      let tDim := x.dim 0
      let heads := x.dim 1
      let d := x.dim 2
      let m ← regionM schedule tDim kTokenGrain (fun first last m =>
        (span first last).foldlM (fun m (t : Nat) => do
          let p ← readAt positions t
          ropeToken F heads d cos.data sin.data (x.data + (t * heads * d : Nat)) p m) m) m
      pure (.ok m)

/-! ### `cpu/activation.cpp`

The operations that go element by element are one loop behind the same checks. -/

/-- `RequireF32Matrix`. -/
def requireF32Matrix (t : PlacedTensor) (rows cols : Nat) (op role : String) : StatusOr Unit := do
  requireContiguousRank t 2 op role
  requireF32 t op role
  if t.dim 0 ≠ rows ∨ t.dim 1 ≠ cols then
    throw (invalidArgumentError
      s!"{op}: {role} must be [{rows}, {cols}], got [{t.dim 0}, {t.dim 1}]")

/-- The checks of a binary operation; `dims` is how the message describes a shape. -/
def requireBinary (a b y : PlacedTensor) (op roleA roleB dims : String) : StatusOr Unit := do
  requireContiguousRank a 2 op roleA
  requireF32 a op roleA
  let rows := a.dim 0
  let cols := a.dim 1
  if rows < 1 ∨ cols < 1 then
    throw (invalidArgumentError s!"{op}: {roleA} must be {dims}, got [{rows}, {cols}]")
  requireF32Matrix b rows cols op roleB
  requireF32Matrix y rows cols op "y"

/-- `y[i] = f(a[i], b[i])`. -/
def binaryElement (f : β → β → β) (a b y : Int) (m : Memory β) (i : Nat) :
    Checked (Memory β) := do
  let ai ← loadFloat m (a + i)
  let bi ← loadFloat m (b + i)
  storeFloat m (y + i) (f ai bi)

/-- The loop of a binary operation behind its checks. -/
def binaryOp (schedule : Schedule) (f : β → β → β) (a b y : PlacedTensor)
    (checks : StatusOr Unit) (m : Memory β) : Checked (StatusOr (Memory β)) :=
  match checks with
  | .error status => pure (.error status)
  | .ok () => do
      let rows := a.dim 0
      let cols := a.dim 1
      let n := rows * cols
      let m ← regionM schedule n (cols * kRowGrain) (fun first last m =>
        (span first last).foldlM (binaryElement f a.data b.data y.data) m) m
      pure (.ok m)

/-- `Silu` with the exponential `exp`. -/
def silu (F : Floats β) (exp : β → β) (neg : β → β) (v : β) : β :=
  F.div v (F.add F.one (exp (neg v)))

/-- `silu_mul`. -/
def siluMul (F : Floats β) (neg : β → β) (schedule : Schedule) (gate up y : PlacedTensor)
    (m : Memory β) : Checked (StatusOr (Memory β)) :=
  binaryOp schedule (fun g u => F.mul (silu F F.exp neg g) u) gate up y
    (requireBinary gate up y "cpu::silu_mul" "gate" "up" "[T>=1, I>=1]") m

/-- `add`. -/
def add (F : Floats β) (schedule : Schedule) (a b y : PlacedTensor) (m : Memory β) :
    Checked (StatusOr (Memory β)) :=
  binaryOp schedule F.add a b y (requireBinary a b y "cpu::add" "a" "b" "[T>=1, E>=1]") m

/-! ### `cpu/attention.cpp`

Three passes over a buffer of scores: the scores under the causal mask, the softmax of each row,
and the weighted sums of the values. -/

/-- `AttnDims`. -/
structure AttnDims where
  tDim : Nat
  heads : Nat
  d : Nat
  lDim : Nat
  group : Nat
  past : Nat
  rows : Nat
deriving DecidableEq, Repr

/-- The dot product of a query and a key. -/
def dotLoop (F : Floats β) (d : Nat) (qVec kVec : Int) (m : Memory β) : Checked β :=
  (List.range d).foldlM (fun dot (e : Nat) => do
    let qe ← loadFloat m (qVec + e)
    let ke ← loadFloat m (kVec + e)
    pure (F.add dot (F.mul qe ke))) F.zero

/-- One row of `ScorePass`. -/
def scoreRow (F : Floats β) (q k scores : Int) (dims : AttnDims) (scale : β) (m : Memory β)
    (row : Nat) : Checked (Memory β) :=
  let h := row / dims.tDim
  let t := row % dims.tDim
  let hk := h / dims.group
  let limit := dims.past + t
  let qVec := q + ((t * dims.heads + h) * dims.d : Nat)
  let scoreRow := scores + (row * dims.lDim : Nat)
  (List.range dims.lDim).foldlM (fun m (s : Nat) =>
    if s > limit then storeFloat m (scoreRow + s) F.negInf
    else do
      let kVec := k + ((hk * dims.lDim + s) * dims.d : Nat)
      let dot ← dotLoop F dims.d qVec kVec m
      storeFloat m (scoreRow + s) (F.mul dot scale)) m

/-- `ScorePass`. -/
def scorePass (F : Floats β) (schedule : Schedule) (q k scores : Int) (dims : AttnDims)
    (scale : β) (m : Memory β) : Checked (Memory β) :=
  regionM schedule dims.rows kRowGrain (fun first last m =>
    (span first last).foldlM (scoreRow F q k scores dims scale) m) m

/-- One row of `ContextPass`. -/
def contextRow (F : Floats β) (scores v out : Int) (dims : AttnDims) (m : Memory β)
    (row : Nat) : Checked (Memory β) :=
  let h := row / dims.tDim
  let t := row % dims.tDim
  let hk := h / dims.group
  let probRow := scores + (row * dims.lDim : Nat)
  let outVec := out + ((t * dims.heads + h) * dims.d : Nat)
  (List.range dims.d).foldlM (fun m (e : Nat) => do
    let acc ← (List.range dims.lDim).foldlM (fun acc (s : Nat) => do
      let p ← loadFloat m (probRow + s)
      let ve ← loadFloat m (v + ((hk * dims.lDim + s) * dims.d : Nat) + e)
      pure (F.add acc (F.mul p ve))) F.zero
    storeFloat m (outVec + e) acc) m

/-- `ContextPass`. -/
def contextPass (F : Floats β) (schedule : Schedule) (scores v out : Int) (dims : AttnDims)
    (m : Memory β) : Checked (Memory β) :=
  regionM schedule dims.rows kRowGrain (fun first last m =>
    (span first last).foldlM (contextRow F scores v out dims) m) m

/-- The checks of `attention`. -/
def requireAttention (q k v out : PlacedTensor) : StatusOr Unit := do
  requireContiguousRank q 3 "cpu::attention" "q"
  requireF32 q "cpu::attention" "q"
  requireContiguousRank k 3 "cpu::attention" "k"
  requireF32 k "cpu::attention" "k"
  requireContiguousRank v 3 "cpu::attention" "v"
  requireF32 v "cpu::attention" "v"
  requireContiguousRank out 3 "cpu::attention" "out"
  requireF32 out "cpu::attention" "out"
  let tDim := q.dim 0
  let heads := q.dim 1
  let d := q.dim 2
  let kvHeads := k.dim 0
  let lDim := k.dim 1
  if tDim < 1 ∨ heads < 1 ∨ d < 1 then
    throw (invalidArgumentError
      s!"cpu::attention: q must be [T>=1, H>=1, d>=1], got [{tDim}, {heads}, {d}]")
  if kvHeads < 1 ∨ lDim < 1 ∨ k.dim 2 ≠ d then
    throw (invalidArgumentError
      s!"cpu::attention: k must be [Hkv>=1, L>=1, {d}] (d matching q), got {k.shape}")
  if v.dim 0 ≠ kvHeads ∨ v.dim 1 ≠ lDim ∨ v.dim 2 ≠ d then
    throw (invalidArgumentError
      s!"cpu::attention: v must match k shape [{kvHeads}, {lDim}, {d}], got {v.shape}")
  if heads % kvHeads ≠ 0 then
    throw (invalidArgumentError
      s!"cpu::attention: H ({heads}) must be a positive multiple of Hkv ({kvHeads})")
  if lDim < tDim then
    throw (invalidArgumentError
      (s!"cpu::attention: cache length L ({lDim}) must be >= T ({tDim}) — L = P + T with " ++
        "P >= 0 cached positions"))
  if out.dim 0 ≠ tDim ∨ out.dim 1 ≠ heads ∨ out.dim 2 ≠ d then
    throw (invalidArgumentError
      s!"cpu::attention: out must be [{tDim}, {heads}, {d}] to match q, got {out.shape}")

/-- `n` cells from `p` on, all `x`. -/
def fillCells (m : Memory β) (p : Int) (n : Nat) (x : β) : Memory β :=
  fun i => if p ≤ i ∧ i < p + n then some x else m i

/-- `dims` of a call. -/
def attnDims (q k : PlacedTensor) : AttnDims where
  tDim := q.dim 0
  heads := q.dim 1
  d := q.dim 2
  lDim := k.dim 1
  group := q.dim 1 / k.dim 0
  past := k.dim 1 - q.dim 0
  rows := q.dim 1 * q.dim 0

/-- `attention`; `zeros` is the address of the scores, or why there is no room for them. -/
def attention [LT β] [DecidableLT β] (F : Floats β) (schedule : Schedule) (zeros : StatusOr Int)
    (q k v : PlacedTensor) (scale : β) (out : PlacedTensor) (m : Memory β) :
    Checked (StatusOr (Memory β)) :=
  match requireAttention q k v out with
  | .error status => pure (.error status)
  | .ok () =>
      let dims := attnDims q k
      match zeros with
      | .error status => pure (.error status)
      | .ok scoreData => do
          let m := fillCells m scoreData (dims.rows * dims.lDim) F.zero
          let scores : PlacedTensor := ⟨[dims.rows, dims.lDim], true, .float32, scoreData⟩
          let m ← scorePass F schedule q.data k.data scoreData dims scale m
          match ← softmax F schedule scores scores m with
          | .error status => pure (.error status)
          | .ok m => do
              let m ← contextPass F schedule scoreData v.data out.data dims m
              pure (.ok m)

end Cpu

end InferenceEngine
