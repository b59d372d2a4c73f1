/-
The reference matrix product: `cpu/gemm.cpp`.

Handles that hold no tensor cannot be built, so the CHECKs on them have nothing to fail on.
-/
import InferenceEngine.Kernels.Elements
import InferenceEngine.Parallel.Schedule

namespace InferenceEngine

open Stores Parallel

namespace Cpu

variable {β : Type}

/-- The rows of a tile. -/
def kTileM : Nat := 64

/-- The columns of a tile. -/
def kTileN : Nat := 64

/-- The depth of a panel. -/
def kTileK : Nat := 256

/-- The grain of the loop over tiles. -/
def kTileGrain : Nat := 1

/-- The inner loop of `GemmTile`, from `k0` to `k1`. -/
def accumulate {W : Type} (arith : Arithmetic β) (widen : W → β) (a : List β) (b : List W)
    (kDim m n : Nat) (acc : β) (k0 k1 : Nat) : Checked β :=
  (span k0 k1).foldlM (fun acc k => do
    let av ← readAt a (m * kDim + k : Nat)
    let bv ← readAt b (n * kDim + k : Nat)
    pure (arith.add acc (arith.mul av (widen bv)))) acc

/-- `GemmTile`; `bias` is null where `kHasBias` is false. -/
def gemmTile {W B : Type} (arith : Arithmetic β) (widenW : W → β) (widenB : B → β) (a : List β)
    (b : List W) (bias : Option (List B)) (nDim kDim m0 m1 n0 n1 : Nat) :
    Checked (List (Nat × β)) :=
  forEach (span m0 m1) fun m =>
    forEach (span n0 n1) fun n => do
      let acc ← (strided kDim kTileK).foldlM (fun acc k0 =>
        let k1 := min (k0 + kTileK) kDim
        accumulate arith widenW a b kDim m n acc k0 k1) arith.zero
      match bias with
      | none => pure [(m * nDim + n, acc)]
      | some bias => do
          let bv ← readAt bias n
          pure [(m * nDim + n, arith.add acc (widenB bv))]

/-- `GemmImpl`. -/
def gemmImpl {W B : Type} (arith : Arithmetic β) (schedule : Schedule) (widenW : W → β)
    (widenB : B → β) (a : List β) (b : List W) (bias : Option (List B)) (mDim nDim kDim : Nat) :
    Checked (List (Nat × β)) :=
  let mTiles := (mDim + kTileM - 1) / kTileM
  let nTiles := (nDim + kTileN - 1) / kTileN
  let numTiles := mTiles * nTiles
  region schedule numTiles kTileGrain fun first last =>
    forEach (span first last) fun tile =>
      let mt := tile / nTiles
      let nt := tile % nTiles
      let m0 := mt * kTileM
      let m1 := min (m0 + kTileM) mDim
      let n0 := nt * kTileN
      let n1 := min (n0 + kTileN) nDim
      gemmTile arith widenW widenB a b bias nDim kDim m0 m1 n0 n1

/-- `DispatchBias`. -/
def dispatchBias {W : Type} (arith : Arithmetic β) (schedule : Schedule) (widenW : W → β)
    (a : List β) (b : List W) (bias : Option (StoredTensor β)) (mDim nDim kDim : Nat) :
    Checked (StatusOr (List (Nat × β))) :=
  match bias with
  | none => do
      let log ← gemmImpl arith schedule widenW (fun v : β => v) a b none mDim nDim kDim
      pure (.ok log)
  | some bias =>
      match bias.storage with
      | .f32 data => do
          let log ← gemmImpl arith schedule widenW (fun v => v) a b (some data) mDim nDim kDim
          pure (.ok log)
      | .f16 data => do
          let log ← gemmImpl arith schedule widenW arith.fp16ToFp32 a b (some data) mDim nDim kDim
          pure (.ok log)
      | .bf16 data => do
          let log ← gemmImpl arith schedule widenW arith.bf16ToFp32 a b (some data) mDim nDim kDim
          pure (.ok log)
      | .other dtype _ => pure (.error (invalidArgumentError
          s!"cpu::gemm: bias dtype must be f32/f16/bf16, got {dtype.toString}"))

/-- `RequireContiguous`. -/
def requireContiguous (t : StoredTensor β) (rank : Nat) (role : String) : StatusOr Unit :=
  if t.rank ≠ rank then
    .error (invalidArgumentError s!"cpu::gemm: {role} must be rank-{rank}, got rank-{t.rank}")
  else if t.contiguous = false then
    .error (invalidArgumentError s!"cpu::gemm: {role} must be contiguous")
  else .ok ()

/-- The checks of `gemm` in front of the dispatch. -/
def requireOperands (a b : StoredTensor β) (bias : Option (StoredTensor β)) (c : StoredTensor β) :
    StatusOr Unit := do
  requireContiguous a 2 "a"
  requireContiguous b 2 "b"
  requireContiguous c 2 "c"
  if a.dtype ≠ .float32 then
    throw (invalidArgumentError
      s!"cpu::gemm: a must be f32 (activations are fp32), got {a.dtype.toString}")
  if c.dtype ≠ .float32 then
    throw (invalidArgumentError s!"cpu::gemm: c must be f32, got {c.dtype.toString}")
  let mDim := a.dim 0
  let kDim := a.dim 1
  let nDim := b.dim 0
  if b.dim 1 ≠ kDim then
    throw (invalidArgumentError
      (s!"cpu::gemm: inner dims disagree — a is [{mDim}, {kDim}], b is [{nDim}, {b.dim 1}] " ++
        "(a.K must equal b.K)"))
  if mDim < 1 ∨ nDim < 1 ∨ kDim < 1 then
    throw (invalidArgumentError
      s!"cpu::gemm: M, N, K must all be >= 1 — got M={mDim}, N={nDim}, K={kDim}")
  if c.dim 0 ≠ mDim ∨ c.dim 1 ≠ nDim then
    throw (invalidArgumentError
      s!"cpu::gemm: c must be [{mDim}, {nDim}] to hold A*B^T, got [{c.dim 0}, {c.dim 1}]")
  match bias with
  | none => pure ()
  | some bias =>
      requireContiguous bias 1 "bias"
      if bias.dim 0 ≠ nDim then
        throw (invalidArgumentError
          s!"cpu::gemm: bias must have length N={nDim}, got {bias.dim 0}")

/-- `gemm`: the stores into `c`. -/
def gemm (arith : Arithmetic β) (schedule : Schedule) (a b : StoredTensor β)
    (bias : Option (StoredTensor β)) (c : StoredTensor β) :
    Checked (StatusOr (List (Nat × β))) :=
  match requireOperands a b bias c with
  | .error status => pure (.error status)
  | .ok () => do
      let mDim := a.dim 0
      let kDim := a.dim 1
      let nDim := b.dim 0
      let aData ← a.floats
      match b.storage with
      | .f32 data => dispatchBias arith schedule (fun v => v) aData data bias mDim nDim kDim
      | .f16 data => dispatchBias arith schedule arith.fp16ToFp32 aData data bias mDim nDim kDim
      | .bf16 data => dispatchBias arith schedule arith.bf16ToFp32 aData data bias mDim nDim kDim
      | .other dtype _ => pure (.error (invalidArgumentError
          s!"cpu::gemm: b (weight) dtype must be f32/f16/bf16, got {dtype.toString}"))

end Cpu

end InferenceEngine
