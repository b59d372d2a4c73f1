/-
The packed matrix product: `kernels/gemm.cpp` with the scalar tile of `kernels/scalar/gemm.cpp`
and the store of `kernels/internal/gemm_common.h`.

Buffers are lists, of which an index outside is a fault; a kernel returns its stores, in the order
in which they happen.  The weight is repacked into panels of `kNr` rows, the last one filled up
with zeros.  Null pointers are left out.
-/
import InferenceEngine.Kernels.Elements
import InferenceEngine.Parallel.Schedule

namespace InferenceEngine

open Stores Parallel

namespace Kernels

variable {β : Type}

/-- The rows of the weight in a panel. -/
def kNr : Nat := 16

/-- `PackedPanels`. -/
def packedPanels (n : Nat) : Nat := (n + kNr - 1) / kNr

/-- `PackedWeightElements`. -/
def packedWeightElements (n k : Nat) : Nat := packedPanels n * k * kNr

/-- The rows of a tile. -/
def kMc : Nat := 64

/-- The panels of a tile. -/
def kNc : Nat := 8

/-- The grain of the loop over tiles. -/
def kGemmTileGrain : Nat := 1

/-- The grain of the loop over panels. -/
def kGemvPanelGrain : Nat := 8

/-- `PackImpl`. -/
def packImpl {T : Type} (schedule : Schedule) (zero : T) (w : List T) (n k : Nat) :
    Checked (List (Nat × T)) := do
  check (1 ≤ n && 1 ≤ k) s!"PackWeightPanels: n,k must be >= 1 (got {n}, {k})"
  let panels := packedPanels n
  region schedule panels 1 fun first last =>
    forEach (span first last) fun p =>
      forEach (List.range k) fun kk =>
        forEach (List.range kNr) fun r => do
          let row := p * kNr + r
          let v ← if row < n then readAt w (row * k + kk : Nat) else pure zero
          pure [((p * k + kk) * kNr + r, v)]

/-- `PackWeightPanels` into `wp`. -/
def packWeightPanels {T : Type} (schedule : Schedule) (zero : T) (w : List T) (n k : Nat)
    (wp : List T) : Checked (List T) := do
  let log ← packImpl schedule zero w n k
  storeAll .outOfBounds wp log

/-- The bias is added to what is stored, where there is one. -/
def addBias (arith : Arithmetic β) (bias : Option (List β)) (col : Nat) (acc : β) : Checked β :=
  match bias with
  | none => pure acc
  | some bias => do
      let b ← readAt bias col
      pure (arith.add acc b)

/-- `StorePanelBlock`. -/
def storePanelBlock (arith : Arithmetic β) (acc : List β) (mr p n : Nat)
    (bias : Option (List β)) (mBase : Nat) : Checked (List (Nat × β)) :=
  let col0 := p * kNr
  let ncols := min kNr (n - col0)
  forEach (List.range mr) fun mm =>
    forEach (List.range ncols) fun r => do
      let a ← readAt acc (mm * kNr + r : Nat)
      let v ← addBias arith bias (col0 + r) a
      pure [((mBase + mm) * n + col0 + r, v)]

/-- One turn of the loop of `GemmTile` over `k`: every lane takes in its product. -/
def accumulate {T : Type} (arith : Arithmetic β) (widen : T → β) (x : List β) (k : Nat)
    (wp : List T) (m p : Nat) (acc : List β) (kk : Nat) : Checked (List β) := do
  let a ← readAt x (m * k + kk : Nat)
  (List.range kNr).mapM fun r : Nat => do
    let old ← readAt acc r
    let w ← readAt wp (p * k * kNr + kk * kNr + r : Nat)
    pure (arith.add old (arith.mul a (widen w)))

/-- `GemmTile`. -/
def gemmTile {T : Type} (arith : Arithmetic β) (widen : T → β) (wp : List T) (x : List β)
    (k n : Nat) (bias : Option (List β)) (m0 m1 p0 p1 : Nat) : Checked (List (Nat × β)) :=
  forEach (span m0 m1) fun m =>
    forEach (span p0 p1) fun p => do
      let acc ← (List.range k).foldlM (accumulate arith widen x k wp m p)
        (List.replicate kNr arith.zero)
      storePanelBlock arith acc 1 p n bias m

/-- `TileRunner::Run`, the weight and its dtype being fixed. -/
abbrev TileRunner (β : Type) :=
  (x : List β) → (k n : Nat) → (bias : Option (List β)) → (m0 m1 p0 p1 : Nat) →
    Checked (List (Nat × β))

/-- `MakeRunner`. -/
def makeRunner (arith : Arithmetic β) : Elements β → Checked (TileRunner β)
  | .bf16 wp => pure (gemmTile arith arith.bf16ToFp32 wp)
  | .f16 wp => pure (gemmTile arith arith.fp16ToFp32 wp)
  | .f32 wp => pure (gemmTile arith (fun v => v) wp)
  | .other dtype _ => throw (.checkFailed
      s!"PackedGemm: weight_dtype must be f32/f16/bf16, got {dtype.toString}")

/-- `PackedGemv`. -/
def packedGemv (arith : Arithmetic β) (schedule : Schedule) (x : List β) (k : Nat)
    (wp : Elements β) (n : Nat) (bias : Option (List β)) : Checked (List (Nat × β)) := do
  check (1 ≤ k && 1 ≤ n) s!"PackedGemv: k,n must be >= 1 (got {k}, {n})"
  let runner ← makeRunner arith wp
  let panels := packedPanels n
  region schedule panels kGemvPanelGrain fun first last => runner x k n bias 0 1 first last

/-- `PackedGemm`. -/
def packedGemm (arith : Arithmetic β) (schedule : Schedule) (x : List β) (m k : Nat)
    (wp : Elements β) (n : Nat) (bias : Option (List β)) : Checked (List (Nat × β)) := do
  check (1 ≤ m && 1 ≤ k && 1 ≤ n) s!"PackedGemm: m,k,n must be >= 1 (got {m}, {k}, {n})"
  if m = 1 then packedGemv arith schedule x k wp n bias
  else do
    let runner ← makeRunner arith wp
    let panels := packedPanels n
    let mBlocks := (m + kMc - 1) / kMc
    let pBlocks := (panels + kNc - 1) / kNc
    let numTiles := mBlocks * pBlocks
    region schedule numTiles kGemmTileGrain fun first last =>
      forEach (span first last) fun tile =>
        let mb := tile / pBlocks
        let pb := tile % pBlocks
        let m0 := mb * kMc
        let m1 := min (m0 + kMc) m
        let p0 := pb * kNc
        let p1 := min (p0 + kNc) panels
        runner x k n bias m0 m1 p0 p1

end Kernels

end InferenceEngine
