/-
Building the two models: `ReferenceModel::Create` of `model/reference_model.cpp` and
`OptimizedModel::Create` of `model/optimized_model.cpp`.
-/
import InferenceEngine.KvCache.KvCache
import InferenceEngine.Model.Loader
import InferenceEngine.Model.Modules

namespace InferenceEngine.Construct

/-! ### The weights

A weight is taken out of the loaded ones under its name, so what is left at the end was not
asked for. -/

/-- `TakeWeight`, of a class. -/
def takeWeight (model : String) (name : Text) : Building TensorView := do
  let weights ← Fallible.get
  match weights.lookup name with
  | none => refuse (invalidArgumentError
      (model ++ ": missing required weight '" ++ name.show ++ "'"))
  | some w => do
      Fallible.modify fun weights => weights.erase name
      pure w

/-- `OptionalWeight`. -/
def optionalWeight (name : Text) : Building (Option TensorView) := do
  let weights ← Fallible.get
  pure (weights.lookup name)

/-- The bias that goes with a weight: its name ends in `.bias` instead of `.weight`. -/
def biasOf (name : Text) (hasBias : Bool) : Building (Option TensorView) :=
  if hasBias then optionalWeight (name.take (name.length - 7) ++ ascii ".bias") else pure none

/-- `BuildLinear`. -/
def buildLinear (name : Text) (hasBias : Bool) : Building Linear := do
  let weight ← takeWeight "ReferenceModel" name
  let bias ← biasOf name hasBias
  ReferenceLinear.create weight bias

/-- `BuildPacked`. -/
def buildPacked (host : HostMemory) (name : Text) (hasBias : Bool) : Building Linear := do
  let weight ← takeWeight "OptimizedModel" name
  let bias ← biasOf name hasBias
  PackedLinear.create host weight bias

/-- `BuildNormScale`. -/
def buildNormScale (host : HostMemory) (name : Text) : Building TensorView := do
  let w ← takeWeight "OptimizedModel" name
  requireLayout ("OptimizedModel: norm weight '" ++ name.show ++ "'") "[E]" 1 w
  cast host w .float32

/-- The name of a weight of a layer. -/
def layerWeight (i : Nat) (rest : String) : Text := ascii s!"layers.{i}.{rest}"

/-! ### The reference model

The layers are built from the first to the last, each from its own weights. -/

/-- `ReferenceModel`. -/
structure ReferenceModel where
  config : ParsedConfig
  geometry : CacheGeometry
  embed : Embedding
  layers : List DecoderLayer
  finalNorm : RmsNorm
  lmHead : Linear

variable (math : RopeMath) (host : HostMemory) (config : ParsedConfig)

/-- The geometry of the caches. -/
def cacheGeometry : CacheGeometry :=
  ⟨config.numLayers, config.numKvHeads, config.headDim, .float32⟩

/-- `Rope::Create` as both models call it. -/
def createRope : Building Rope :=
  Rope.create math host config.headDim config.ropeTheta config.ropeScaling
    config.maxPositionEmbeddings

/-- A turn of the loop of `ReferenceModel::Create`. -/
def referenceLayer (layers : List DecoderLayer) (i : Nat) : Building (List DecoderLayer) := do
  let attnNormW ← takeWeight "ReferenceModel" (layerWeight i "attn_norm.weight")
  let attnNorm ← RmsNorm.create attnNormW config.rmsNormEps
  let qProj ← buildLinear (layerWeight i "attn.q_proj.weight") config.attentionBias
  let kProj ← buildLinear (layerWeight i "attn.k_proj.weight") config.attentionBias
  let vProj ← buildLinear (layerWeight i "attn.v_proj.weight") config.attentionBias
  let oProj ← buildLinear (layerWeight i "attn.o_proj.weight") config.attentionBias
  let rope ← createRope math host config
  let attn ← Attention.create qProj kProj vProj oProj rope config.numHeads config.numKvHeads
    config.headDim
  let mlpNormW ← takeWeight "ReferenceModel" (layerWeight i "mlp_norm.weight")
  let mlpNorm ← RmsNorm.create mlpNormW config.rmsNormEps
  let gateProj ← buildLinear (layerWeight i "mlp.gate_proj.weight") false
  let upProj ← buildLinear (layerWeight i "mlp.up_proj.weight") false
  let downProj ← buildLinear (layerWeight i "mlp.down_proj.weight") false
  let mlp ← Fallible.ofExcept (Mlp.create gateProj upProj downProj)
  let layer ← Fallible.ofExcept (DecoderLayer.create attnNorm attn mlpNorm mlp)
  pure (layers ++ [layer])

/-- `ReferenceModel::Create`; the state is `loaded.weights`. -/
def ReferenceModel.create : Building ReferenceModel := do
  let embedWeight ← takeWeight "ReferenceModel" (ascii "embed_tokens.weight")
  let embed ← Embedding.create embedWeight
  let finalNormWeight ← takeWeight "ReferenceModel" (ascii "final_norm.weight")
  let finalNorm ← RmsNorm.create finalNormWeight config.rmsNormEps
  let lmHead ← buildLinear (ascii "lm_head.weight") false
  let layers ← Fallible.fold (referenceLayer math host config)
    (List.range config.numLayers.toNat) []
  pure ⟨config, cacheGeometry config, embed, layers, finalNorm, lmHead⟩

/-! ### The optimized model

Linear layers are packed as they are built.  Where the embedding is tied it reads the packed
head. -/

/-- `NormWeights`. -/
structure NormWeights where
  scale : TensorView
  eps : F32

/-- `OptimizedModel::Layer`. -/
structure Layer where
  attnNorm : NormWeights
  qProj : Linear
  kProj : Linear
  vProj : Linear
  oProj : Linear
  mlpNorm : NormWeights
  gateProj : Linear
  upProj : Linear
  downProj : Linear

/-- `OptimizedModel`. -/
structure OptimizedModel where
  config : ParsedConfig
  geometry : CacheGeometry
  embed : Embedding
  rope : Rope
  layers : List Layer
  finalNorm : NormWeights
  lmHead : Linear
  workspace : Workspace

/-- What the lambda says of the projections, `qOut` and `kvOut` being `H·d` and `Hkv·d`. -/
def requireLayer (layer : Layer) (i : Nat) (qOut kvOut : Int) : StatusOr Unit := do
  let e := layer.qProj.inFeatures
  if (layer.qProj.outFeatures : Int) ≠ qOut then
    throw (invalidArgumentError
      s!"OptimizedModel: layer {i} q_proj out {layer.qProj.outFeatures} != H·d {qOut}")
  if (layer.kProj.outFeatures : Int) ≠ kvOut ∨ (layer.vProj.outFeatures : Int) ≠ kvOut then
    throw (invalidArgumentError s!"OptimizedModel: layer {i} k/v_proj out must be Hkv·d {kvOut}")
  if (layer.oProj.inFeatures : Int) ≠ qOut ∨ layer.oProj.outFeatures ≠ e then
    throw (invalidArgumentError
      s!"OptimizedModel: layer {i} o_proj must map H·d {qOut} → E {e}")
  if layer.gateProj.inFeatures ≠ e ∨ layer.upProj.inFeatures ≠ e then
    throw (invalidArgumentError s!"OptimizedModel: layer {i} gate/up_proj in must be E {e}")
  if layer.gateProj.outFeatures ≠ layer.upProj.outFeatures ∨
      layer.downProj.inFeatures ≠ layer.gateProj.outFeatures ∨ layer.downProj.outFeatures ≠ e then
    throw (invalidArgumentError s!"OptimizedModel: layer {i} MLP intermediate/E shapes disagree")

/-- A turn of the loop of `OptimizedModel::Create`. -/
def optimizedLayer (layers : List Layer) (i : Nat) : Building (List Layer) := do
  let attnScale ← buildNormScale host (layerWeight i "attn_norm.weight")
  let qProj ← buildPacked host (layerWeight i "attn.q_proj.weight") config.attentionBias
  let kProj ← buildPacked host (layerWeight i "attn.k_proj.weight") config.attentionBias
  let vProj ← buildPacked host (layerWeight i "attn.v_proj.weight") config.attentionBias
  let oProj ← buildPacked host (layerWeight i "attn.o_proj.weight") config.attentionBias
  let mlpScale ← buildNormScale host (layerWeight i "mlp_norm.weight")
  let gateProj ← buildPacked host (layerWeight i "mlp.gate_proj.weight") false
  let upProj ← buildPacked host (layerWeight i "mlp.up_proj.weight") false
  let downProj ← buildPacked host (layerWeight i "mlp.down_proj.weight") false
  let layer : Layer := ⟨⟨attnScale, config.rmsNormEps⟩, qProj, kProj, vProj, oProj,
    ⟨mlpScale, config.rmsNormEps⟩, gateProj, upProj, downProj⟩
  let qOut ← Fallible.ofChecked (int64 (config.numHeads * config.headDim))
  let kvOut ← Fallible.ofChecked (int64 (config.numKvHeads * config.headDim))
  Fallible.ofExcept (requireLayer layer i qOut kvOut)
  pure (layers ++ [layer])

/-- The embedding, which shares the packed head where the two are tied. -/
def optimizedEmbed (lmHead : Linear) : Building Embedding := do
  if config.tieWordEmbeddings then do
    Fallible.modify fun weights => weights.erase (ascii "embed_tokens.weight")
    pure (OptimizedEmbedding.fromPackedLinear lmHead)
  else do
    let embedWeight ← takeWeight "OptimizedModel" (ascii "embed_tokens.weight")
    OptimizedEmbedding.fromTable embedWeight

/-- `Workspace::Create` as the model calls it. -/
def createWorkspace : Checked Workspace :=
  Workspace.create config.hiddenSize config.numHeads config.numKvHeads config.headDim
    config.intermediateSize

/-- `OptimizedModel::Create`; the state is `loaded.weights`. -/
def OptimizedModel.create : Building OptimizedModel := do
  let finalNormScale ← buildNormScale host (ascii "final_norm.weight")
  let lmHeadWeight ← takeWeight "OptimizedModel" (ascii "lm_head.weight")
  let lmHead ← PackedLinear.create host lmHeadWeight none
  let embed ← optimizedEmbed config lmHead
  let rope ← createRope math host config
  let layers ← Fallible.fold (optimizedLayer host config) (List.range config.numLayers.toNat) []
  let workspace ← Fallible.ofChecked (createWorkspace config)
  pure ⟨config, cacheGeometry config, embed, rope, layers, ⟨finalNormScale, config.rmsNormEps⟩,
    lmHead, workspace⟩

end InferenceEngine.Construct
