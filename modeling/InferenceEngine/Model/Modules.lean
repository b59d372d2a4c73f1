/-
Building the modules of a model: the `Create` functions of `model/modules.cpp`,
`packed_linear.cpp`, `optimized_embedding.cpp` and `workspace.cpp`, with what they call of
`tensor/ops.cpp`.

A module takes its tensors from the weights, which are the state.  What is stored into a tensor
is left out, but for the tables of RoPE; where it is stored is not.  The floating point of RoPE
is a parameter.  A handle without storage and a null pointer to a module cannot be built, so the
checks for these are left out.
-/
import InferenceEngine.Kernels.Gemm
import InferenceEngine.Lib.Fallible
import InferenceEngine.Model.Config
import InferenceEngine.Tensor.Arange

namespace InferenceEngine

/-- `shape().dim(i)`. -/
def Shape.dim (shape : Shape) (i : Nat) : Checked Nat :=
  match shape.dims[i]? with
  | some dim => .ok dim
  | none => .error (.checkFailed s!"index {i} out of range for size {shape.rank}")

/-- `data_ptr<T>()`, for the `T` of a dtype. -/
def TensorView.dataPtr (t : TensorView) (dtype : DataType) : Checked Nat := do
  check (dtype = t.dtype)
    s!"data_ptr<T>(): T is {dtype.toString} but dtype() is {t.dtype.toString}"
  pure t.data

namespace Construct

/-- A step of building a model from weights. -/
abbrev Building (α : Type) := Fallible Fault Status (TextMap TensorView) α

/-- `return` with an error. -/
def refuse {α : Type} (status : Status) : Building α := Fallible.ofExcept (.error status)

/-- A computation of the code that may abort, or return an error. -/
def attempt {α : Type} (x : Checked (StatusOr α)) : Building α := do
  let result ← Fallible.ofChecked x
  Fallible.ofExcept result

/-! ### Tensors

The few tensor operations that building a model needs, with the offsets they read at. -/

/-- `ops::zeros` of a dtype that has a zero, on the CPU. -/
def zeros (host : HostMemory) (shape : Shape) (dtype : DataType) : Building TensorView :=
  attempt (TensorView.empty host shape dtype .cpu none)

/-- `IsCastableDtype`. -/
def isCastableDtype (dtype : DataType) : Bool :=
  dtype.isFloatingPoint || dtype = .int8 || dtype = .uint8 || dtype = .int32 || dtype = .int64 ||
    dtype = .int4

/-- The walk of `cast` over the elements: each is read at its offset and written at the next
place. -/
def castWalk (src : TensorView) : Checked (List (Nat × Nat)) :=
  forEachIndex src.shape (fun index moves => do
    let offset ← elementOffset index src.strides
    pure (moves ++ [(offset, moves.length)])) []

/-- `ops::cast` to a floating point dtype, which takes every value. -/
def cast (host : HostMemory) (src : TensorView) (dtype : DataType) : Building TensorView := do
  Fallible.ofChecked (check (src.device = .cpu)
    s!"cast requires a CPU tensor; device is {src.device.toString}")
  let out ← attempt (TensorView.empty host src.shape dtype src.device none)
  if !isCastableDtype src.dtype || !isCastableDtype dtype then
    refuse (invalidArgumentError
      s!"cast: unsupported dtype pair {src.dtype.toString} -> {dtype.toString}")
  else if src.numel = 0 then pure out
  else do
    Fallible.ofChecked (check (!isReservedDataType src.dtype)
      s!"no host type for dtype {src.dtype.toString}")
    let _ ← Fallible.ofChecked (out.dataPtr dtype)
    let _ ← Fallible.ofChecked (castWalk src)
    pure out

/-- What a `Create` asks of the layout of a tensor; its messages begin with `what`, and `dims`
names the dims. -/
def requireLayout (what dims : String) (rank : Nat) (t : TensorView) : Building Unit := do
  if t.shape.rank ≠ rank then
    refuse (invalidArgumentError
      (what ++ s!" must be rank-{rank} " ++ dims ++ s!", got rank-{t.shape.rank}"))
  else do
    let contiguous ← Fallible.ofChecked t.isContiguous
    if !contiguous then refuse (invalidArgumentError (what ++ " must be contiguous"))
    else pure ()

/-- What a `Create` asks of a tensor. -/
def requireTensor (what dims : String) (rank : Nat) (t : TensorView) : Building Unit := do
  requireLayout what dims rank t
  if !t.dtype.isSupportedFloat then
    refuse (invalidArgumentError (what ++ s!" dtype must be f32/f16/bf16, got {t.dtype.toString}"))
  else pure ()

/-! ### Linear layers, norms and the embedding

Each `Create` checks the layout of its weight first and says in its message what it wanted. 
Packing says from where each place of the panels is filled; the places beyond the last row hold
zero. -/

/-- `Linear`, of the one backend or the other. -/
structure Linear where
  weight : TensorView
  bias : Option TensorView
  inFeatures : Nat
  outFeatures : Nat

/-- The checks of a bias, under the name of the class. -/
def requireBias (name : String) (bias : TensorView) (outFeatures : Nat) : Building Unit := do
  requireTensor (name ++ ": bias") "[out]" 1 bias
  let length ← Fallible.ofChecked (bias.shape.dim 0)
  if length ≠ outFeatures then
    refuse (invalidArgumentError
      (name ++ s!": bias length {length} must equal out_features {outFeatures}"))
  else pure ()

/-- `ReferenceLinear::Create`. -/
def ReferenceLinear.create (weight : TensorView) (bias : Option TensorView) : Building Linear := do
  requireTensor "ReferenceLinear: weight" "[out, in]" 2 weight
  let outFeatures ← Fallible.ofChecked (weight.shape.dim 0)
  let inFeatures ← Fallible.ofChecked (weight.shape.dim 1)
  match bias with
  | none => pure ()
  | some bias => requireBias "ReferenceLinear" bias outFeatures
  pure ⟨weight, bias, inFeatures, outFeatures⟩

/-- `PackedPanels`. -/
def packedPanels (n : Nat) : Checked Nat := do
  let sum ← int64Nat (n + Kernels.kNr)
  pure ((sum - 1) / Kernels.kNr)

/-- `PackImpl`: from where in the weight, if from anywhere, each place of the panels is filled. -/
def packImpl (w n k wp : Nat) : Checked (List (List (List (Nat × Option Nat)))) := do
  check (w ≠ 0 && wp ≠ 0) "PackWeightPanels: null pointer"
  check (1 ≤ n && 1 ≤ k) s!"PackWeightPanels: n,k must be >= 1 (got {n}, {k})"
  let panels ← packedPanels n
  (List.range panels).mapM fun p =>
    (List.range k).mapM fun kk => do
      let pk ← int64Nat (p * k)
      let dst ← int64Nat ((pk + kk) * Kernels.kNr)
      (List.range Kernels.kNr).mapM fun r => do
        let row ← int64Nat (p * Kernels.kNr + r)
        if row < n then do
          let rowStart ← int64Nat (row * k)
          pure (dst + r, some (rowStart + kk))
        else pure (dst + r, none)

/-- `PackInto`. -/
def packInto (weight : TensorView) (outFeatures inFeatures : Nat) (packed : TensorView) :
    Checked Unit := do
  check weight.dtype.isSupportedFloat "PackedLinear: unsupported weight dtype reached PackInto"
  let w ← weight.dataPtr weight.dtype
  let wp ← packed.dataPtr weight.dtype
  let _ ← packImpl w outFeatures inFeatures wp
  pure ()

/-- The bias of a packed layer, in fp32. -/
def packedBias (host : HostMemory) (bias : Option TensorView) (outFeatures : Nat) :
    Building (Option TensorView) :=
  match bias with
  | none => pure none
  | some bias => do
      requireBias "PackedLinear" bias outFeatures
      let converted ← cast host bias .float32
      pure (some converted)

/-- `PackedLinear::Create`. -/
def PackedLinear.create (host : HostMemory) (weight : TensorView) (bias : Option TensorView) :
    Building Linear := do
  requireTensor "PackedLinear: weight" "[out, in]" 2 weight
  let outFeatures ← Fallible.ofChecked (weight.shape.dim 0)
  let inFeatures ← Fallible.ofChecked (weight.shape.dim 1)
  let biasF32 ← packedBias host bias outFeatures
  let panels ← Fallible.ofChecked (packedPanels outFeatures)
  let shape ← Fallible.ofChecked (Shape.literal [panels, inFeatures, Kernels.kNr])
  let packed ← attempt (TensorView.empty host shape weight.dtype weight.device none)
  Fallible.ofChecked (packInto weight outFeatures inFeatures packed)
  pure ⟨packed, biasF32, inFeatures, outFeatures⟩

/-- `RmsNorm`. -/
structure RmsNorm where
  weight : TensorView
  eps : F32
  hiddenSize : Nat

/-- `RmsNorm::Create`. -/
def RmsNorm.create (weight : TensorView) (eps : F32) : Building RmsNorm := do
  requireTensor "RmsNorm: weight" "[E]" 1 weight
  let hiddenSize ← Fallible.ofChecked (weight.shape.dim 0)
  pure ⟨weight, eps, hiddenSize⟩

/-- `Embedding`, and `OptimizedEmbedding`. -/
structure Embedding where
  table : TensorView
  packed : Bool
  vocabSize : Nat
  hiddenSize : Nat

/-- The table of an embedding, under the name of the class. -/
def embeddingOf (name : String) (table : TensorView) : Building Embedding := do
  requireTensor (name ++ ": weight") "[V, E]" 2 table
  let vocabSize ← Fallible.ofChecked (table.shape.dim 0)
  let hiddenSize ← Fallible.ofChecked (table.shape.dim 1)
  pure ⟨table, false, vocabSize, hiddenSize⟩

/-- `Embedding::Create`. -/
def Embedding.create (weight : TensorView) : Building Embedding := embeddingOf "Embedding" weight

/-- `OptimizedEmbedding::FromTable`. -/
def OptimizedEmbedding.fromTable (table : TensorView) : Building Embedding :=
  embeddingOf "OptimizedEmbedding" table

/-- `OptimizedEmbedding::FromPackedLinear`. -/
def OptimizedEmbedding.fromPackedLinear (lmHead : Linear) : Embedding :=
  ⟨lmHead.weight, true, lmHead.outFeatures, lmHead.inFeatures⟩

/-! ### RoPE

The tables have one row for a position.  Their shape is a product of config values, and it is
formed as a literal. -/

/-- The floating point of RoPE. -/
structure RopeMath where
  /-- `1 / theta^(2i/d)` -/
  invFreq : (headDim : Int) → (theta : F32) → (i : Nat) → F32
  /-- a frequency divided by the factor -/
  linear : F32 → F32 → F32
  /-- the turn of the `llama3` loop -/
  llama3 : RopeScaling → F32 → F32
  cos : Nat → F32 → F32
  sin : Nat → F32 → F32

/-- `BaseInvFreq`. -/
def baseInvFreq (math : RopeMath) (headDim : Int) (theta : F32) : List F32 :=
  (List.range (headDim.tdiv 2).toNat).map (math.invFreq headDim theta)

/-- `==` of two floats. -/
def floatEq : F32 → F32 → Bool
  | .nan, _ => false
  | _, .nan => false
  | a, b => a = b

/-- `ApplyRopeScaling`. -/
def applyRopeScaling (math : RopeMath) (invFreq : List F32) (scaling : Option RopeScaling) :
    StatusOr (List F32) :=
  match scaling with
  | none => .ok invFreq
  | some s =>
      if s.ropeType = [] ∨ s.ropeType = ascii "default" then .ok invFreq
      else if s.ropeType = ascii "linear" then
        if !F32.lt (.finite 0) s.factor then
          .error (invalidArgumentError
            s!"Rope: linear rope_scaling requires factor > 0, got {s.factor.toString}")
        else .ok (invFreq.map (math.linear s.factor))
      else if s.ropeType = ascii "llama3" then
        if !F32.lt (.finite 0) s.factor then
          .error (invalidArgumentError
            s!"Rope: llama3 rope_scaling requires factor > 0, got {s.factor.toString}")
        else if floatEq s.highFreqFactor s.lowFreqFactor then
          .error (invalidArgumentError
            ("Rope: llama3 rope_scaling requires high_freq_factor != low_freq_factor, both are " ++
              s.lowFreqFactor.toString))
        else if s.originalMaxPositionEmbeddings ≤ 0 then
          .error (invalidArgumentError
            ("Rope: llama3 rope_scaling requires original_max_position_embeddings > 0, got " ++
              s!"{s.originalMaxPositionEmbeddings}"))
        else .ok (invFreq.map (math.llama3 s))
      else .error (unimplementedError
        ("Rope: unsupported rope_type '" ++ s.ropeType.show ++
          "' — supported: default, linear, llama3"))

/-- `Rope`; `table` is what is stored into `cos` and `sin`, and where. -/
structure Rope where
  cos : TensorView
  sin : TensorView
  table : List (Nat × F32 × F32)
  invFreq : List F32
  headDim : Int
  numPositions : Int

/-- The row of a position in the tables. -/
def ropeRow (math : RopeMath) (invFreq : List F32) (half p : Nat) :
    Checked (List (Nat × F32 × F32)) := do
  let row ← int64Nat (p * half)
  (List.range half).mapM fun j : Nat => do
    let freq ← readAt invFreq j
    pure (row + j, math.cos p freq, math.sin p freq)

/-- The loop over the positions. -/
def ropeTable (math : RopeMath) (invFreq : List F32) (half numPositions : Nat) :
    Checked (List (Nat × F32 × F32)) := do
  let rows ← (List.range numPositions).mapM (ropeRow math invFreq half)
  pure rows.flatten

/-- `Rope::Create`. -/
def Rope.create (math : RopeMath) (host : HostMemory) (headDim : Int) (theta : F32)
    (scaling : Option RopeScaling) (numPositions : Int) : Building Rope := do
  if headDim < 2 ∨ headDim.tmod 2 ≠ 0 then
    refuse (invalidArgumentError s!"Rope: head_dim must be even and >= 2, got {headDim}")
  else if !F32.lt (.finite 0) theta || !theta.isFinite then
    refuse (invalidArgumentError s!"Rope: theta must be finite and > 0, got {theta.toString}")
  else if numPositions < 1 then
    refuse (invalidArgumentError s!"Rope: num_positions must be >= 1, got {numPositions}")
  else do
    let invFreq ← Fallible.ofExcept
      (applyRopeScaling math (baseInvFreq math headDim theta) scaling)
    let half := headDim.tdiv 2
    let shape ← Fallible.ofChecked (Shape.literal [numPositions, half])
    let cos ← zeros host shape .float32
    let sin ← zeros host shape .float32
    let _ ← Fallible.ofChecked (cos.dataPtr .float32)
    let _ ← Fallible.ofChecked (sin.dataPtr .float32)
    let table ← Fallible.ofChecked (ropeTable math invFreq half.toNat numPositions.toNat)
    pure ⟨cos, sin, table, invFreq, headDim, numPositions⟩

/-! ### Attention, MLP and layers

A layer is made of parts that are there already; what is left to check is that they fit
together. -/

/-- `Attention`. -/
structure Attention where
  qProj : Linear
  kProj : Linear
  vProj : Linear
  oProj : Linear
  rope : Rope
  numHeads : Int
  numKvHeads : Int
  headDim : Int
  hiddenSize : Nat

/-- The checks of `Attention::Create` on the projections. -/
def requireProjections (q k v o : Linear) (qRows kvRows : Int) : StatusOr Unit := do
  if (q.outFeatures : Int) ≠ qRows then
    throw (invalidArgumentError
      s!"Attention: q_proj out_features {q.outFeatures} must equal num_heads·head_dim {qRows}")
  if (k.outFeatures : Int) ≠ kvRows then
    throw (invalidArgumentError
      s!"Attention: k_proj out_features {k.outFeatures} must equal num_kv_heads·head_dim {kvRows}")
  if (v.outFeatures : Int) ≠ kvRows then
    throw (invalidArgumentError
      s!"Attention: v_proj out_features {v.outFeatures} must equal num_kv_heads·head_dim {kvRows}")
  if k.inFeatures ≠ q.inFeatures ∨ v.inFeatures ≠ q.inFeatures then
    throw (invalidArgumentError
      (s!"Attention: q/k/v_proj must share in_features (hidden size); got q={q.inFeatures} " ++
        s!"k={k.inFeatures} v={v.inFeatures}"))
  if (o.inFeatures : Int) ≠ qRows then
    throw (invalidArgumentError
      s!"Attention: o_proj in_features {o.inFeatures} must equal num_heads·head_dim {qRows}")
  if o.outFeatures ≠ q.inFeatures then
    throw (invalidArgumentError
      s!"Attention: o_proj out_features {o.outFeatures} must equal the hidden size {q.inFeatures}")

/-- `Attention::Create`. -/
def Attention.create (q k v o : Linear) (rope : Rope) (numHeads numKvHeads headDim : Int) :
    Building Attention := do
  if numHeads < 1 ∨ numKvHeads < 1 ∨ headDim < 1 then
    refuse (invalidArgumentError
      ("Attention: num_heads/num_kv_heads/head_dim must be >= 1, got " ++
        s!"{numHeads}/{numKvHeads}/{headDim}"))
  else if numHeads.tmod numKvHeads ≠ 0 then
    refuse (invalidArgumentError
      (s!"Attention: num_heads ({numHeads}) must be a positive multiple of num_kv_heads " ++
        s!"({numKvHeads})"))
  else if rope.headDim ≠ headDim then
    refuse (invalidArgumentError
      s!"Attention: rope head_dim ({rope.headDim}) must equal head_dim ({headDim})")
  else do
    let qRows ← Fallible.ofChecked (int64 (numHeads * headDim))
    let kvRows ← Fallible.ofChecked (int64 (numKvHeads * headDim))
    Fallible.ofExcept (requireProjections q k v o qRows kvRows)
    pure ⟨q, k, v, o, rope, numHeads, numKvHeads, headDim, q.inFeatures⟩

/-- `Mlp`. -/
structure Mlp where
  gate : Linear
  up : Linear
  down : Linear
  hiddenSize : Nat
  intermediateSize : Nat

/-- `Mlp::Create`. -/
def Mlp.create (gate up down : Linear) : StatusOr Mlp := do
  let hidden := gate.inFeatures
  let intermediate := gate.outFeatures
  if up.inFeatures ≠ hidden ∨ up.outFeatures ≠ intermediate then
    throw (invalidArgumentError
      (s!"Mlp: up_proj must be [{intermediate}, {hidden}] (I×E), got out={up.outFeatures} " ++
        s!"in={up.inFeatures}"))
  if down.inFeatures ≠ intermediate ∨ down.outFeatures ≠ hidden then
    throw (invalidArgumentError
      (s!"Mlp: down_proj must be [{hidden}, {intermediate}] (E×I), got out={down.outFeatures} " ++
        s!"in={down.inFeatures}"))
  pure ⟨gate, up, down, hidden, intermediate⟩

/-- `DecoderLayer`. -/
structure DecoderLayer where
  attnNorm : RmsNorm
  attn : Attention
  mlpNorm : RmsNorm
  mlp : Mlp
  hiddenSize : Nat

/-- `DecoderLayer::Create`. -/
def DecoderLayer.create (attnNorm : RmsNorm) (attn : Attention) (mlpNorm : RmsNorm) (mlp : Mlp) :
    StatusOr DecoderLayer := do
  let hidden := attn.hiddenSize
  if attnNorm.hiddenSize ≠ hidden then
    throw (invalidArgumentError
      (s!"DecoderLayer: attn_norm hidden_size {attnNorm.hiddenSize} must equal attention hidden " ++
        s!"size {hidden}"))
  if mlpNorm.hiddenSize ≠ hidden then
    throw (invalidArgumentError
      (s!"DecoderLayer: mlp_norm hidden_size {mlpNorm.hiddenSize} must equal attention hidden " ++
        s!"size {hidden}"))
  if mlp.hiddenSize ≠ hidden then
    throw (invalidArgumentError
      (s!"DecoderLayer: mlp hidden_size {mlp.hiddenSize} must equal attention hidden size " ++
        s!"{hidden}"))
  pure ⟨attnNorm, attn, mlpNorm, mlp, hidden⟩

/-! ### The workspace

Only the widths of its slots are fixed when it is created. -/

/-- `Workspace`, the widths of its slots. -/
structure Workspace where
  hiddenSize : Int
  qRows : Int
  kvRows : Int
  intermediateSize : Int

/-- `Workspace::Create`. -/
def Workspace.create (e numHeads numKvHeads d i : Int) : Checked Workspace := do
  check (0 < e && 0 < numHeads && 0 < numKvHeads && 0 < d && 0 < i)
    (s!"Workspace::Create: dims must be positive (E={e}, H={numHeads}, Hkv={numKvHeads}, " ++
      s!"d={d}, I={i})")
  let qRows ← int64 (numHeads * d)
  let kvRows ← int64 (numKvHeads * d)
  pure ⟨e, qRows, kvRows, i⟩

end Construct

end InferenceEngine
