/-
The weight map: `model/weight_map.h` and `weight_map.cpp`.

A table says, for a config, which weights are expected: the name they go by inside, the name the
checkpoint has for them, and their dims.  Building the map walks the table over an inventory of
the tensors of a checkpoint.  The maps of the code are ordered by name; here the order of the
inventory is any.
-/
import InferenceEngine.Tensor.Shape
import InferenceEngine.Tokenizer.Bpe

namespace InferenceEngine

namespace WeightMap

/-- `model::Architecture`. -/
inductive Architecture where
  | llama
  | qwen2
deriving DecidableEq, Repr

/-- `model::ModelConfig`, as far as the weight map reads it. -/
structure Config where
  architecture : Architecture
  hiddenSize : Int
  intermediateSize : Int
  numLayers : Int
  numHeads : Int
  numKvHeads : Int
  headDim : Int
  vocabSize : Int
  tieWordEmbeddings : Bool
  attentionBias : Bool
deriving DecidableEq, Repr

/-- `ExpectedWeight`. -/
structure ExpectedWeight where
  canonical : Text
  source : Text
  dims : List Int
deriving DecidableEq, Repr

/-- A row of the table of a layer: what `add` is called with. -/
structure LayerRow where
  canonical : String
  source : String
  dims : List Int

/-- The lambda `add`. -/
def LayerRow.expected (layer : Nat) (row : LayerRow) : ExpectedWeight :=
  ⟨ascii s!"layers.{layer}.{row.canonical}", ascii s!"model.layers.{layer}.{row.source}", row.dims⟩

/-- The calls of `add`, in their order. -/
def layerRows (config : Config) : List LayerRow :=
  let hidden := config.hiddenSize
  let qRows := config.numHeads * config.headDim
  let kvRows := config.numKvHeads * config.headDim
  [⟨"attn_norm.weight", "input_layernorm.weight", [hidden]⟩,
    ⟨"attn.q_proj.weight", "self_attn.q_proj.weight", [qRows, hidden]⟩,
    ⟨"attn.k_proj.weight", "self_attn.k_proj.weight", [kvRows, hidden]⟩,
    ⟨"attn.v_proj.weight", "self_attn.v_proj.weight", [kvRows, hidden]⟩,
    ⟨"attn.o_proj.weight", "self_attn.o_proj.weight", [hidden, qRows]⟩] ++
  (if config.attentionBias then
    [⟨"attn.q_proj.bias", "self_attn.q_proj.bias", [qRows]⟩,
      ⟨"attn.k_proj.bias", "self_attn.k_proj.bias", [kvRows]⟩,
      ⟨"attn.v_proj.bias", "self_attn.v_proj.bias", [kvRows]⟩] ++
    (if config.architecture = .llama then
      [⟨"attn.o_proj.bias", "self_attn.o_proj.bias", [hidden]⟩]
    else [])
  else []) ++
  [⟨"mlp_norm.weight", "post_attention_layernorm.weight", [hidden]⟩,
    ⟨"mlp.gate_proj.weight", "mlp.gate_proj.weight", [config.intermediateSize, hidden]⟩,
    ⟨"mlp.up_proj.weight", "mlp.up_proj.weight", [config.intermediateSize, hidden]⟩,
    ⟨"mlp.down_proj.weight", "mlp.down_proj.weight", [hidden, config.intermediateSize]⟩]

/-- `AddLayerWeights`. -/
def addLayerWeights (config : Config) (out : List ExpectedWeight) (layer : Nat) :
    List ExpectedWeight :=
  out ++ (layerRows config).map (LayerRow.expected layer)

/-- `ExpectedWeights`. -/
def expectedWeights (config : Config) : List ExpectedWeight :=
  let expected := [⟨ascii "embed_tokens.weight", ascii "model.embed_tokens.weight",
    [config.vocabSize, config.hiddenSize]⟩]
  let expected := (List.range config.numLayers.toNat).foldl (addLayerWeights config) expected
  expected ++
  [⟨ascii "final_norm.weight", ascii "model.norm.weight", [config.hiddenSize]⟩,
    ⟨ascii "lm_head.weight",
      if config.tieWordEmbeddings then ascii "model.embed_tokens.weight"
      else ascii "lm_head.weight",
      [config.vocabSize, config.hiddenSize]⟩]

/-- `IsIgnoredName`. -/
def isIgnoredName (config : Config) (name : Text) : Bool :=
  ((ascii "model.layers.").isPrefixOf name &&
    (ascii ".self_attn.rotary_emb.inv_freq").isSuffixOf name) ||
  (config.tieWordEmbeddings && name = ascii "lm_head.weight")

/-- `WeightMapReport`. -/
structure Report where
  missing : List Text := []
  unexpected : List Text := []
  ignored : List Text := []

end WeightMap

/-- `model::WeightMap`. -/
structure WeightMap where
  canonicalToSource : TextMap Text
  report : WeightMap.Report

namespace WeightMap

/-- The dims of a shape. -/
def shapeDims (shape : Shape) : List Int := shape.dims.map fun dim : Nat => dim

/-- The refusal of a shape. -/
def shapeError (weight : ExpectedWeight) (shape : Shape) : Status :=
  invalidArgumentError
    ("weight \"" ++ weight.canonical.show ++ "\" (checkpoint tensor \"" ++ weight.source.show ++
      "\") has shape " ++ Shape.fromDims.formatInts (shapeDims shape) ++ ", expected " ++
      Shape.fromDims.formatInts weight.dims)

/-- The loop over the expected weights, with the names it has claimed. -/
def claimLoop (inventory : TextMap Shape) : List ExpectedWeight → WeightMap → List Text →
    StatusOr (WeightMap × List Text)
  | [], map, claimed => .ok (map, claimed)
  | weight :: expected, map, claimed =>
      match inventory.lookup weight.source with
      | none =>
          claimLoop inventory expected
            { map with report.missing := map.report.missing ++ [weight.canonical] } claimed
      | some shape =>
          if shapeDims shape ≠ weight.dims then .error (shapeError weight shape)
          else
            claimLoop inventory expected
              { map with canonicalToSource :=
                  (emplace map.canonicalToSource weight.canonical weight.source).1 }
              (claimed.insert weight.source)

/-- The loop over the inventory. -/
def sortLoop (config : Config) (claimed : List Text) : (names : List Text) → Report → Report
  | [], report => report
  | name :: names, report =>
      if name ∈ claimed then sortLoop config claimed names report
      else if isIgnoredName config name then
        sortLoop config claimed names { report with ignored := report.ignored ++ [name] }
      else sortLoop config claimed names { report with unexpected := report.unexpected ++ [name] }

/-- `BuildWeightMap`. -/
def buildWeightMap (config : Config) (inventory : TextMap Shape) : StatusOr WeightMap := do
  let (map, claimed) ← claimLoop inventory (expectedWeights config) ⟨∅, { }⟩ []
  pure { map with report := sortLoop config claimed inventory.keys map.report }

/-- `CheckNoMissingWeights`. -/
def checkNoMissingWeights (report : Report) : StatusOr Unit :=
  if report.missing = [] then .ok ()
  else .error (invalidArgumentError
    (s!"checkpoint is missing {report.missing.length} required weight(s): " ++
      ", ".intercalate (report.missing.map Text.show)))

/-! ### What a weight map is to be

Every tensor of the inventory is claimed, ignored or unknown, and an expected weight is there or
missing.  What the table says of a weight decides which. -/

section

variable (config : Config) (inventory : TextMap Shape) (map : WeightMap)

/-- The tensor is the source of a weight. -/
def Claimed (name : Text) : Prop :=
  ∃ canonical, map.canonicalToSource.lookup canonical = some name

/-- What `BuildWeightMap` answers is a complete and exclusive classification. -/
structure Classifies : Prop where
  /-- a tensor of the inventory is claimed, ignored or unexpected, and only one of these -/
  tensors : ∀ name ∈ inventory,
    (map.Claimed name ∧ name ∉ map.report.ignored ∧ name ∉ map.report.unexpected) ∨
    (¬map.Claimed name ∧ name ∈ map.report.ignored ∧ name ∉ map.report.unexpected) ∨
    (¬map.Claimed name ∧ name ∉ map.report.ignored ∧ name ∈ map.report.unexpected)
  /-- it is claimed where an expected weight has it for its source -/
  claimed : ∀ name ∈ inventory,
    map.Claimed name ↔ ∃ w ∈ expectedWeights config, w.source = name
  /-- of the others, those with an ignored name are ignored -/
  ignored : ∀ name ∈ inventory,
    name ∈ map.report.ignored ↔ ¬map.Claimed name ∧ isIgnoredName config name = true
  /-- the two lists hold tensors of the inventory, each once -/
  lists : (map.report.ignored ++ map.report.unexpected).Nodup ∧
    ∀ name ∈ map.report.ignored ++ map.report.unexpected, name ∈ inventory
  /-- an expected weight is mapped or missing, and not both -/
  weights : ∀ w ∈ expectedWeights config,
    (w.canonical ∈ map.canonicalToSource ∧ w.canonical ∉ map.report.missing) ∨
    (w.canonical ∉ map.canonicalToSource ∧ w.canonical ∈ map.report.missing)
  /-- it is mapped where its source is there -/
  mapped : ∀ w ∈ expectedWeights config, w.canonical ∈ map.canonicalToSource ↔ w.source ∈ inventory
  /-- the missing ones are listed once, and nothing else is -/
  missing : map.report.missing.Nodup ∧
    ∀ name ∈ map.report.missing, ∃ w ∈ expectedWeights config, w.canonical = name
  /-- a mapped source is the expected one, is there, and has the expected shape -/
  sources : ∀ canonical source, map.canonicalToSource.lookup canonical = some source →
    ∃ w ∈ expectedWeights config, w.canonical = canonical ∧ w.source = source ∧
      ∃ shape, inventory.lookup source = some shape ∧ shapeDims shape = w.dims
  /-- two weights share a source only where the head is tied to the embedding -/
  shared : ∀ c c' source, map.canonicalToSource.lookup c = some source →
    map.canonicalToSource.lookup c' = some source → c ≠ c' →
    config.tieWordEmbeddings = true ∧
      (c = ascii "embed_tokens.weight" ∧ c' = ascii "lm_head.weight" ∨
        c = ascii "lm_head.weight" ∧ c' = ascii "embed_tokens.weight")

end

end WeightMap

end InferenceEngine
