/-
The embedding lookups: `kernels/embedding.cpp` with the scalar conversions of
`kernels/scalar/convert.cpp`.

The packed lookup finds row `v` in lane `v % kNr` of panel `v / kNr`, whose elements are `kNr`
apart; half precision ones are gathered into a staging buffer before they are converted.
-/
import InferenceEngine.Kernels.Gemm

namespace InferenceEngine

open Stores Parallel

/-- The number behind an enumerator. -/
def DataType.toInt : DataType → Nat
  | .float32 => 0
  | .float16 => 1
  | .bfloat16 => 2
  | .int8 => 3
  | .uint8 => 4
  | .int32 => 5
  | .int64 => 6
  | .bool => 7
  | .fp8E4M3 => 8
  | .int4 => 9

namespace Kernels

variable {β : Type}

/-- The grain of the loop over rows. -/
def kRowGrain : Nat := 1

/-- The elements that are gathered at a time. -/
def kGatherChunk : Nat := 512

/-- `Bf16ToFp32` and `Fp16ToFp32`, and `memcpy` where nothing is converted: `n` elements from
`src + from_` to `y + at_`. -/
def convertRow {T : Type} (convert : T → β) (src : List T) (from_ : Int) (at_ n : Nat) :
    Checked (List (Nat × β)) :=
  forEach (List.range n) fun i => do
    let v ← readAt src (from_ + i)
    pure [(at_ + i, convert v)]

/-- `HalfWiden` of a dtype that is not a half type. -/
def halfWidenFault (dtype : DataType) : Fault :=
  .checkFailed s!"kernels embedding HalfWiden: dtype {dtype.toInt} is not a half type"

/-- A loop of `GatherRowMajor`. -/
def gatherRows {T : Type} (convert : T → β) (src : List T) (e : Nat) (ids : List Int)
    (first last : Nat) : Checked (List (Nat × β)) :=
  forEach (span first last) fun t => do
    let id ← readAt ids t
    convertRow convert src (id * e) (t * e) e

/-- `GatherRowMajor`. -/
def gatherRowMajor (arith : Arithmetic β) (table : Elements β) (e : Nat) (ids : List Int)
    (first last : Nat) : Checked (List (Nat × β)) :=
  match table with
  | .f32 src => gatherRows (fun v => v) src e ids first last
  | .bf16 src => gatherRows arith.bf16ToFp32 src e ids first last
  | .f16 src => gatherRows arith.fp16ToFp32 src e ids first last
  | .other dtype _ => throw (halfWidenFault dtype)

/-- Where the elements of row `v` begin. -/
def packedColumn (e : Nat) (v : Int) : Int := v.tdiv kNr * e * kNr + v.tmod kNr

/-- The loop of `GatherPacked` that converts nothing. -/
def gatherLane (base : List β) (e : Nat) (ids : List Int) (first last : Nat) :
    Checked (List (Nat × β)) :=
  forEach (span first last) fun t => do
    let v ← readAt ids t
    let col := packedColumn e v
    forEach (List.range e) fun k => do
      let x ← readAt base (col + k * kNr)
      pure [(t * e + k, x)]

/-- The loop of `GatherPacked` that goes through the staging buffer. -/
def gatherStaged (widen : UInt16 → β) (base : List UInt16) (e : Nat) (ids : List Int)
    (first last : Nat) : Checked (List (Nat × β)) :=
  forEach (span first last) fun t => do
    let v ← readAt ids t
    let col := packedColumn e v
    forEach (strided e kGatherChunk) fun off => do
      let len := min kGatherChunk (e - off)
      let buf ← (List.range len).mapM fun j : Nat => readAt base (col + (off + j) * kNr)
      convertRow widen buf 0 (t * e + off) len

/-- `GatherPacked`. -/
def gatherPacked (arith : Arithmetic β) (wp : Elements β) (e : Nat) (ids : List Int)
    (first last : Nat) : Checked (List (Nat × β)) :=
  match wp with
  | .f32 base => gatherLane base e ids first last
  | .bf16 base => gatherStaged arith.bf16ToFp32 base e ids first last
  | .f16 base => gatherStaged arith.fp16ToFp32 base e ids first last
  | .other dtype _ => throw (halfWidenFault dtype)

/-- `EmbeddingLookupF32`. -/
def embeddingLookupF32 (arith : Arithmetic β) (schedule : Schedule) (table : Elements β) (e : Nat)
    (ids : List Int) (t : Nat) : Checked (List (Nat × β)) :=
  region schedule t kRowGrain fun first last => gatherRowMajor arith table e ids first last

/-- `EmbeddingLookupPackedF32`. -/
def embeddingLookupPackedF32 (arith : Arithmetic β) (schedule : Schedule) (wp : Elements β)
    (e : Nat) (ids : List Int) (t : Nat) : Checked (List (Nat × β)) :=
  region schedule t kRowGrain fun first last => gatherPacked arith wp e ids first last

end Kernels

end InferenceEngine
