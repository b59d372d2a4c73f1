/-
The model's config: `model/config.h` and `config.cpp`.

A document is the value the JSON library makes of it, together with what its numbers read as in
32-bit floats; a number is found by the label of its field.  `int` and `std::int32_t` are the
same here.  The stages fill the config in the order of the code, each from what those before it
have left.
-/
import InferenceEngine.Model.WeightMap
import InferenceEngine.Sampling.Params
import InferenceEngine.Tokenizer.Json

namespace InferenceEngine

/-- `model::RopeScaling`. -/
structure RopeScaling where
  ropeType : Text
  factor : F32 := .finite 1
  lowFreqFactor : F32 := .finite 1
  highFreqFactor : F32 := .finite 4
  originalMaxPositionEmbeddings : Int := 0
deriving DecidableEq

/-- `model::ModelConfig`, all of it. -/
structure ParsedConfig extends WeightMap.Config where
  architectureName : Text
  ropeTheta : F32
  ropeScaling : Option RopeScaling
  rmsNormEps : F32
  maxPositionEmbeddings : Int
  torchDtype : DataType
  eosTokenIds : List Int
deriving DecidableEq

namespace ParsedConfig

/-- A config before anything is read into it. -/
def initial : ParsedConfig where
  architecture := .llama
  hiddenSize := 0
  intermediateSize := 0
  numLayers := 0
  numHeads := 0
  numKvHeads := 0
  headDim := 0
  vocabSize := 0
  tieWordEmbeddings := false
  attentionBias := false
  architectureName := []
  ropeTheta := .finite 10000
  ropeScaling := none
  -- the 32-bit float `1e-6F`
  rmsNormEps := .finite (8796093 / 2 ^ 43)
  maxPositionEmbeddings := 0
  torchDtype := .float32
  eosTokenIds := []

end ParsedConfig

/-- What the numbers of a document read as, by the label of their field. -/
abbrev Numbers := String → F32

/-! ### The accessors

One field at a time.  The messages name the field and what was found in its place. -/

/-- `FloatValue`. -/
def floatValue (numbers : Numbers) (value : Json) (field : String) : StatusOr F32 :=
  match value with
  | .integer _ | .float => .ok (numbers field)
  | _ => .error (wrongType field value "a number")

/-- `RequiredInt`. -/
def requiredInt (obj : Json) (field : String) : StatusOr Int :=
  match obj.find field with
  | none => .error (missingField field)
  | some value => intValue value field

/-- `OptionalInt`: the value, or `out` as it was. -/
def optionalInt (obj : Json) (field : String) (out : Int) : StatusOr Int :=
  match obj.find field with
  | none => .ok out
  | some value => intValue value field

/-- `OptionalFloat`, and a turn of the loop over `float_fields`, where the label is another. -/
def optionalFloat (numbers : Numbers) (obj : Json) (key label : String) (out : F32) :
    StatusOr F32 :=
  match obj.find key with
  | none => .ok out
  | some value => floatValue numbers value label

/-- The narrowing of `AsInt` and `AsInt32`. -/
def narrowInt32 (value : Int) (field : String) : StatusOr Int :=
  if value > 2 ^ 31 - 1 ∨ value < -(2 ^ 31) then
    .error (invalidArgumentError ("field \"" ++ field ++ s!"\" is out of range: {value}"))
  else .ok value

/-- `AsInt`. -/
def asInt (value : Int) (field : String) : StatusOr Int := narrowInt32 value field

/-- `AsInt32`. -/
def asInt32 (value : Int) (field : String) : StatusOr Int := narrowInt32 value field

/-- `CheckPositive`. -/
def checkPositive (value : Int) (field : String) : StatusOr Unit :=
  if value ≤ 0 then
    .error (invalidArgumentError
      ("field \"" ++ field ++ s!"\" must be strictly positive, got {value}"))
  else .ok ()

/-- `CheckPositiveFloat`. -/
def checkPositiveFloat (value : F32) (field : String) : StatusOr Unit :=
  if !F32.lt (.finite 0) value then
    .error (invalidArgumentError
      ("field \"" ++ field ++ s!"\" must be strictly positive, got {value.toString}"))
  else .ok ()

/-! ### The stages

The stages run in the order of the source and each reads what those before it have filled in. 
The first that fails is the answer. -/

/-- `ParseArchitecture`. -/
def parseArchitecture (name : Text) : StatusOr WeightMap.Architecture :=
  if name = ascii "LlamaForCausalLM" then .ok .llama
  else if name = ascii "Qwen2ForCausalLM" then .ok .qwen2
  else .error (unimplementedError ("unsupported architecture \"" ++ name.show ++
    "\"; supported: LlamaForCausalLM, Qwen2ForCausalLM"))

/-- `ParseRopeScaling`. -/
def parseRopeScaling (numbers : Numbers) (obj : Json) : StatusOr RopeScaling :=
  match obj with
  | .object _ =>
      match (obj.find "rope_type").orElse fun _ => obj.find "type" with
      | none => .error (missingField "rope_scaling.rope_type")
      | some value => do
          let ropeType ← stringValue value "rope_scaling.rope_type"
          let factor ← optionalFloat numbers obj "factor" "rope_scaling.factor" (.finite 1)
          let lowFreqFactor ← optionalFloat numbers obj "low_freq_factor"
            "rope_scaling.low_freq_factor" (.finite 1)
          let highFreqFactor ← optionalFloat numbers obj "high_freq_factor"
            "rope_scaling.high_freq_factor" (.finite 4)
          let original ← match obj.find "original_max_position_embeddings" with
            | none => .ok 0
            | some value => intValue value "rope_scaling.original_max_position_embeddings"
          pure ⟨ropeType, factor, lowFreqFactor, highFreqFactor, original⟩
  | _ => .error (wrongType "rope_scaling" obj "an object or null")

/-- `ParseArchitectureField`. -/
def parseArchitectureField (root : Json) (config : ParsedConfig) : StatusOr ParsedConfig :=
  match root.find "architectures" with
  | none => .error (missingField "architectures")
  | some (.array (front :: _)) => do
      let archName ← stringValue front "architectures[0]"
      let architecture ← parseArchitecture archName
      pure { config with architecture := architecture, architectureName := archName }
  | some value => .error (wrongType "architectures" value "a non-empty array")

/-- `ParseRequiredDims`. -/
def parseRequiredDims (root : Json) (config : ParsedConfig) : StatusOr ParsedConfig := do
  let hiddenSize ← requiredInt root "hidden_size"
  let intermediateSize ← requiredInt root "intermediate_size"
  let numLayers ← requiredInt root "num_hidden_layers"
  let numLayers ← asInt numLayers "num_hidden_layers"
  let numHeads ← requiredInt root "num_attention_heads"
  let numHeads ← asInt numHeads "num_attention_heads"
  let vocabSize ← requiredInt root "vocab_size"
  let maxPosition ← requiredInt root "max_position_embeddings"
  pure { config with
    hiddenSize := hiddenSize
    intermediateSize := intermediateSize
    numLayers := numLayers
    numHeads := numHeads
    vocabSize := vocabSize
    maxPositionEmbeddings := maxPosition }

/-- `ParseDefaultedFields`. -/
def parseDefaultedFields (numbers : Numbers) (root : Json) (config : ParsedConfig) :
    StatusOr ParsedConfig := do
  let numKvHeads ← optionalInt root "num_key_value_heads" config.numHeads
  let numKvHeads ← asInt numKvHeads "num_key_value_heads"
  let ropeTheta ← optionalFloat numbers root "rope_theta" "rope_theta" config.ropeTheta
  let rmsNormEps ← optionalFloat numbers root "rms_norm_eps" "rms_norm_eps" config.rmsNormEps
  let tieWordEmbeddings ← optionalBool root "tie_word_embeddings" "tie_word_embeddings"
    config.tieWordEmbeddings
  let attentionBias ← optionalBool root "attention_bias" "attention_bias"
    (config.architecture = .qwen2)
  pure { config with
    numKvHeads := numKvHeads
    ropeTheta := ropeTheta
    rmsNormEps := rmsNormEps
    tieWordEmbeddings := tieWordEmbeddings
    attentionBias := attentionBias }

/-- `kAllDataTypes`. -/
def allDataTypes : List DataType :=
  [.float32, .float16, .bfloat16, .int8, .uint8, .int32, .int64, .bool, .fp8E4M3, .int4]

/-- `tensor::from_string`. -/
def dataTypeFromString (name : Text) : StatusOr DataType :=
  match allDataTypes.find? fun dtype => name = ascii dtype.toString with
  | some dtype => .ok dtype
  | none => .error (invalidArgumentError ("unknown dtype name: \"" ++ name.show ++ "\""))

/-- `ParseTorchDtype`. -/
def parseTorchDtype (root : Json) (config : ParsedConfig) : StatusOr ParsedConfig :=
  match root.find "torch_dtype" with
  | none => .ok config
  | some value => do
      let dtypeName ← stringValue value "torch_dtype"
      match dataTypeFromString dtypeName with
      | .ok dtype => .ok { config with torchDtype := dtype }
      | .error status => .error (invalidArgumentError
          ("field \"torch_dtype\": " ++ status.message))

/-- The lambda `append` of `ParseEosTokenIds`. -/
def appendEosTokenId (config : ParsedConfig) (value : Json) (field : String) :
    StatusOr ParsedConfig := do
  let id ← intValue value field
  let narrowed ← asInt32 id field
  pure { config with eosTokenIds := config.eosTokenIds ++ [narrowed] }

/-- `ParseEosTokenIds`. -/
def parseEosTokenIds (root : Json) (config : ParsedConfig) : StatusOr ParsedConfig :=
  match root.find "eos_token_id" with
  | none => .ok config
  | some .null => .ok config
  | some (.array items) =>
      items.zipIdx.foldlM (fun config item =>
        appendEosTokenId config item.1 s!"eos_token_id[{item.2}]") config
  | some value => appendEosTokenId config value "eos_token_id"

/-- `ParseHeadDim`. -/
def parseHeadDim (root : Json) (config : ParsedConfig) : StatusOr ParsedConfig :=
  match root.find "head_dim" with
  | some value => do
      let headDim ← intValue value "head_dim"
      let headDim ← asInt headDim "head_dim"
      pure { config with headDim := headDim }
  | none =>
      if config.numHeads ≤ 0 then
        .error (invalidArgumentError
          s!"field \"num_attention_heads\" must be strictly positive, got {config.numHeads}")
      else if config.hiddenSize.tmod config.numHeads ≠ 0 then
        .error (invalidArgumentError
          (s!"cannot derive \"head_dim\": \"hidden_size\" ({config.hiddenSize}) is not " ++
           "divisible " ++
            s!"by \"num_attention_heads\" ({config.numHeads})"))
      else do
        let headDim ← asInt (config.hiddenSize.tdiv config.numHeads) "head_dim"
        pure { config with headDim := headDim }

/-- `ParseRopeScalingField`. -/
def parseRopeScalingField (numbers : Numbers) (root : Json) (config : ParsedConfig) :
    StatusOr ParsedConfig :=
  match root.find "rope_scaling" with
  | none => .ok config
  | some .null => .ok config
  | some value => do
      let scaling ← parseRopeScaling numbers value
      pure { config with ropeScaling := some scaling }

/-- `ValidateConfig`. -/
def validateConfig (config : ParsedConfig) : StatusOr Unit := do
  checkPositive config.hiddenSize "hidden_size"
  checkPositive config.intermediateSize "intermediate_size"
  checkPositive config.numLayers "num_hidden_layers"
  checkPositive config.numHeads "num_attention_heads"
  checkPositive config.numKvHeads "num_key_value_heads"
  checkPositive config.headDim "head_dim"
  checkPositive config.vocabSize "vocab_size"
  checkPositive config.maxPositionEmbeddings "max_position_embeddings"
  checkPositiveFloat config.ropeTheta "rope_theta"
  checkPositiveFloat config.rmsNormEps "rms_norm_eps"
  if config.numHeads.tmod config.numKvHeads ≠ 0 then
    throw (invalidArgumentError
      (s!"field \"num_key_value_heads\" ({config.numKvHeads}) must divide " ++
        s!"\"num_attention_heads\" ({config.numHeads})"))
  match config.eosTokenIds.find? fun id => id < 0 ∨ id ≥ config.vocabSize with
  | some id => throw (invalidArgumentError
      s!"field \"eos_token_id\" ({id}) is out of range [0, vocab_size={config.vocabSize})")
  | none => pure ()

/-- `kStages`, one after the other. -/
def parseStages (numbers : Numbers) (root : Json) (config : ParsedConfig) :
    StatusOr ParsedConfig := do
  let config ← parseArchitectureField root config
  let config ← parseRequiredDims root config
  let config ← parseDefaultedFields numbers root config
  let config ← parseTorchDtype root config
  let config ← parseEosTokenIds root config
  let config ← parseHeadDim root config
  parseRopeScalingField numbers root config

/-- `ParseModelConfig`, of a text and what the library makes of it. -/
def parseModelConfig (parse : Text → Option Json) (numbers : Text → Numbers) (text : Text) :
    StatusOr ParsedConfig :=
  match parse text with
  | none => .error (invalidArgumentError "config is not valid JSON")
  | some (.object fields) => do
      let config ← parseStages (numbers text) (.object fields) .initial
      validateConfig config
      pure config
  | some root => .error (invalidArgumentError
      ("config must be a JSON object, got " ++ root.typeName))

end InferenceEngine
