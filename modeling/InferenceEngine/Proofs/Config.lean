/-
What a config that is accepted is like.

The bounds come from three places: `AsInt` bounds the counts when they are read, the stages after
that keep them, and `ValidateConfig` adds that every count is positive.
-/
import InferenceEngine.Lib.Ensures
import InferenceEngine.Model.Config

namespace InferenceEngine

open Except

/-- The counts of a config are within their types. -/
structure ParsedConfig.Narrow (config : ParsedConfig) : Prop where
  numHeads : config.numHeads < 2 ^ 31
  numKvHeads : config.numKvHeads < 2 ^ 31
  headDim : config.headDim < 2 ^ 31

/-- What `ValidateConfig` has seen of the counts and floats. -/
structure ParsedConfig.Positive (config : ParsedConfig) : Prop where
  hiddenSize : 0 < config.hiddenSize
  intermediateSize : 0 < config.intermediateSize
  numLayers : 0 < config.numLayers
  numHeads : 0 < config.numHeads
  numKvHeads : 0 < config.numKvHeads
  headDim : 0 < config.headDim
  vocabSize : 0 < config.vocabSize
  maxPositionEmbeddings : 0 < config.maxPositionEmbeddings
  ropeTheta : F32.lt (.finite 0) config.ropeTheta = true

theorem checkPositive_ok {value : Int} {field : String} :
    checkPositive value field = .ok () ↔ 0 < value := by
  unfold checkPositive
  by_cases h : value ≤ 0
  · rw [if_pos h]
    exact ⟨fun hok => (by cases hok), fun hpos => (by omega)⟩
  · rw [if_neg h]
    exact ⟨fun _ => by omega, fun _ => rfl⟩

theorem checkPositiveFloat_ok {value : F32} {field : String} :
    checkPositiveFloat value field = .ok () ↔ F32.lt (.finite 0) value = true := by
  unfold checkPositiveFloat
  cases h : F32.lt (.finite 0) value with
  | true => exact ⟨fun _ => rfl, fun _ => rfl⟩
  | false => exact ⟨fun hok => (by cases hok), fun hpos => (by cases hpos)⟩

theorem narrowInt32_ensures (value : Int) (field : String) :
    (narrowInt32 value field).Ensures fun n => n = value ∧ n < 2 ^ 31 := by
  unfold narrowInt32
  by_cases h : value > 2 ^ 31 - 1 ∨ value < -(2 ^ 31)
  · rw [if_pos h]
    exact ensures_error _
  · rw [if_neg h]
    exact ensures_ok ⟨rfl, by omega⟩

/-- **What passes `ValidateConfig`** is positive. -/
theorem validateConfig_positive {config : ParsedConfig} (h : validateConfig config = .ok ()) :
    config.Positive := by
  unfold validateConfig at h
  obtain ⟨_, hidden, h⟩ := bind_eq_ok.mp h
  obtain ⟨_, hintermediate, h⟩ := bind_eq_ok.mp h
  obtain ⟨_, hlayers, h⟩ := bind_eq_ok.mp h
  obtain ⟨_, hheads, h⟩ := bind_eq_ok.mp h
  obtain ⟨_, hkv, h⟩ := bind_eq_ok.mp h
  obtain ⟨_, hdim, h⟩ := bind_eq_ok.mp h
  obtain ⟨_, hvocab, h⟩ := bind_eq_ok.mp h
  obtain ⟨_, hpositions, h⟩ := bind_eq_ok.mp h
  obtain ⟨_, htheta, -⟩ := bind_eq_ok.mp h
  exact {
    hiddenSize := checkPositive_ok.mp hidden
    intermediateSize := checkPositive_ok.mp hintermediate
    numLayers := checkPositive_ok.mp hlayers
    numHeads := checkPositive_ok.mp hheads
    numKvHeads := checkPositive_ok.mp hkv
    headDim := checkPositive_ok.mp hdim
    vocabSize := checkPositive_ok.mp hvocab
    maxPositionEmbeddings := checkPositive_ok.mp hpositions
    ropeTheta := checkPositiveFloat_ok.mp htheta }

/-! ### The stages and the narrow counts

Each stage reads some fields and replaces them.  A stage that does not read a count leaves it as
narrow as it was. -/

variable {numbers : Numbers} {root : Json} {config : ParsedConfig}

theorem ParsedConfig.narrow_initial : ParsedConfig.initial.Narrow :=
  ⟨by decide, by decide, by decide⟩

theorem parseArchitectureField_narrow (h : config.Narrow) :
    (parseArchitectureField root config).Ensures ParsedConfig.Narrow := by
  unfold parseArchitectureField
  split
  · exact ensures_error _
  · refine Ensures.bind (ensures_self _) fun archName _ => ?_
    refine Ensures.bind (ensures_self _) fun architecture _ => ?_
    exact ensures_pure ⟨h.numHeads, h.numKvHeads, h.headDim⟩
  · exact ensures_error _

theorem parseRequiredDims_narrow (h : config.Narrow) :
    (parseRequiredDims root config).Ensures ParsedConfig.Narrow := by
  unfold parseRequiredDims
  refine Ensures.bind (ensures_self _) fun hidden _ => ?_
  refine Ensures.bind (ensures_self _) fun intermediate _ => ?_
  refine Ensures.bind (ensures_self _) fun layers _ => ?_
  refine Ensures.bind (ensures_self _) fun layers' _ => ?_
  refine Ensures.bind (ensures_self _) fun heads _ => ?_
  refine Ensures.bind (narrowInt32_ensures heads _) fun heads' hheads => ?_
  refine Ensures.bind (ensures_self _) fun vocab _ => ?_
  refine Ensures.bind (ensures_self _) fun positions _ => ?_
  exact ensures_pure ⟨hheads.2, h.numKvHeads, h.headDim⟩

theorem parseDefaultedFields_narrow (h : config.Narrow) :
    (parseDefaultedFields numbers root config).Ensures ParsedConfig.Narrow := by
  unfold parseDefaultedFields
  refine Ensures.bind (ensures_self _) fun kv _ => ?_
  refine Ensures.bind (narrowInt32_ensures kv _) fun kv' hkv => ?_
  refine Ensures.bind (ensures_self _) fun theta _ => ?_
  refine Ensures.bind (ensures_self _) fun eps _ => ?_
  refine Ensures.bind (ensures_self _) fun tie _ => ?_
  refine Ensures.bind (ensures_self _) fun bias _ => ?_
  exact ensures_pure ⟨h.numHeads, hkv.2, h.headDim⟩

theorem parseTorchDtype_narrow (h : config.Narrow) :
    (parseTorchDtype root config).Ensures ParsedConfig.Narrow := by
  unfold parseTorchDtype
  split
  · exact ensures_ok h
  · refine Ensures.bind (ensures_self _) fun dtypeName _ => ?_
    split
    · exact ensures_ok ⟨h.numHeads, h.numKvHeads, h.headDim⟩
    · exact ensures_error _

theorem appendEosTokenId_narrow (h : config.Narrow) (value : Json) (field : String) :
    (appendEosTokenId config value field).Ensures ParsedConfig.Narrow := by
  unfold appendEosTokenId
  refine Ensures.bind (ensures_self _) fun id _ => ?_
  refine Ensures.bind (ensures_self _) fun narrowed _ => ?_
  exact ensures_pure ⟨h.numHeads, h.numKvHeads, h.headDim⟩

theorem parseEosTokenIds_narrow (h : config.Narrow) :
    (parseEosTokenIds root config).Ensures ParsedConfig.Narrow := by
  unfold parseEosTokenIds
  split
  · exact ensures_ok h
  · exact ensures_ok h
  · exact Ensures.foldlM_invariant
      (fun config item hconfig => appendEosTokenId_narrow hconfig _ _) _ h
  · exact appendEosTokenId_narrow h _ _

theorem parseHeadDim_narrow (h : config.Narrow) :
    (parseHeadDim root config).Ensures ParsedConfig.Narrow := by
  unfold parseHeadDim
  split
  · refine Ensures.bind (ensures_self _) fun headDim _ => ?_
    refine Ensures.bind (narrowInt32_ensures headDim _) fun headDim' hdim => ?_
    exact ensures_pure ⟨h.numHeads, h.numKvHeads, hdim.2⟩
  · split
    · exact ensures_error _
    · split
      · exact ensures_error _
      · refine Ensures.bind (narrowInt32_ensures _ _) fun headDim hdim => ?_
        exact ensures_pure ⟨h.numHeads, h.numKvHeads, hdim.2⟩

theorem parseRopeScalingField_narrow (h : config.Narrow) :
    (parseRopeScalingField numbers root config).Ensures ParsedConfig.Narrow := by
  unfold parseRopeScalingField
  split
  · exact ensures_ok h
  · exact ensures_ok h
  · refine Ensures.bind (ensures_self _) fun scaling _ => ?_
    exact ensures_pure ⟨h.numHeads, h.numKvHeads, h.headDim⟩

theorem parseStages_narrow (h : config.Narrow) :
    (parseStages numbers root config).Ensures ParsedConfig.Narrow := by
  unfold parseStages
  refine Ensures.bind (parseArchitectureField_narrow h) fun _ h => ?_
  refine Ensures.bind (parseRequiredDims_narrow h) fun _ h => ?_
  refine Ensures.bind (parseDefaultedFields_narrow h) fun _ h => ?_
  refine Ensures.bind (parseTorchDtype_narrow h) fun _ h => ?_
  refine Ensures.bind (parseEosTokenIds_narrow h) fun _ h => ?_
  refine Ensures.bind (parseHeadDim_narrow h) fun _ h => ?_
  exact parseRopeScalingField_narrow h

/-- **An accepted config** has positive counts, and its `int` counts fit. -/
theorem parseModelConfig_accepted {parse : Text → Option Json} {numbers : Text → Numbers}
    {text : Text} (h : parseModelConfig parse numbers text = .ok config) :
    config.Positive ∧ config.Narrow := by
  unfold parseModelConfig at h
  split at h
  · cases h
  · obtain ⟨config', hstages, h⟩ := bind_eq_ok.mp h
    obtain ⟨_, hvalid, h⟩ := bind_eq_ok.mp h
    cases h
    exact ⟨validateConfig_positive hvalid,
      parseStages_narrow ParsedConfig.narrow_initial _ hstages⟩
  · cases h

/-- The row counts of the projections fit an `int64_t`. -/
theorem ParsedConfig.rows_lt (hp : config.Positive) (hn : config.Narrow) :
    0 < config.numHeads * config.headDim ∧ config.numHeads * config.headDim < 2 ^ 63 ∧
      0 < config.numKvHeads * config.headDim ∧ config.numKvHeads * config.headDim < 2 ^ 63 := by
  have hbound : ∀ {a b : Int}, 0 < a → a < 2 ^ 31 → 0 < b → b < 2 ^ 31 →
      0 < a * b ∧ a * b < 2 ^ 63 := by
    intro a b ha ha' hb hb'
    refine ⟨Int.mul_pos ha hb, ?_⟩
    calc a * b ≤ 2 ^ 31 * b := Int.mul_le_mul_of_nonneg_right (by omega) (by omega)
      _ ≤ 2 ^ 31 * 2 ^ 31 := Int.mul_le_mul_of_nonneg_left (by omega) (by decide)
      _ < 2 ^ 63 := by decide
  have hq := hbound hp.numHeads hn.numHeads hp.headDim hn.headDim
  have hkv := hbound hp.numKvHeads hn.numKvHeads hp.headDim hn.headDim
  exact ⟨hq.1, hq.2, hkv.1, hkv.2⟩

end InferenceEngine
