/-
Which configs end the process when a model is built from them.

Everything that a model is built of is bounded by a weight or by the types of the counts, but for
the positions of RoPE: the shape of its tables is a literal, and a literal is checked.  So a model
is built or refused, unless the config gets as far as that shape and its dims overflow.
-/
import InferenceEngine.Model.Construct
import InferenceEngine.Proofs.Arange
import InferenceEngine.Proofs.Modules

namespace InferenceEngine

open Except Safetensors

/-! ### RoPE

The one product of config values that is not checked on the way is the shape of the tables. -/

/-- The scalings that `ApplyRopeScaling` goes through with. -/
def RopeScaling.Accepted (s : RopeScaling) : Prop :=
  s.ropeType = [] ∨ s.ropeType = ascii "default" ∨
    (s.ropeType = ascii "linear" ∧ F32.lt (.finite 0) s.factor = true) ∨
    (s.ropeType = ascii "llama3" ∧ F32.lt (.finite 0) s.factor = true ∧
      Construct.floatEq s.highFreqFactor s.lowFreqFactor = false ∧
      0 < s.originalMaxPositionEmbeddings)

/-- Dims whose product no `int64_t` holds are no literal. -/
theorem Shape.literal_overflows {p h : Nat} (hp : 0 < p) (hh : 0 < h) (hlarge : 2 ^ 63 ≤ p * h) :
    Shape.literal [(p : Int), (h : Int)] =
      .error (.checkFailed "dim product overflows int64_t") := by
  have hdefect : (validateDims [(p : Int), (h : Int)]).defect = .numelOverflow := by
    have hone : (1 : Int) = ((1 : Nat) : Int) := rfl
    unfold validateDims
    rw [if_neg (by simp [maxRank])]
    unfold validateDimsFrom
    rw [if_neg (by omega), if_neg (by omega), hone, mulOverflow_natCast, Nat.one_mul]
    by_cases hfits : p < 2 ^ 63
    · rw [if_pos hfits]
      dsimp only
      unfold validateDimsFrom
      rw [if_neg (by omega), if_neg (by omega), mulOverflow_natCast, if_neg (by omega)]
    · rw [if_neg hfits]
  unfold Shape.literal
  split
  · rename_i hother
    rw [hdefect] at hother
    cases hother
  · rename_i hother
    rw [hdefect] at hother
    cases hother
  · rfl
  · rename_i hother
    rw [hdefect] at hother
    cases hother

namespace Construct

variable (math : RopeMath) (host : HostMemory)

/-- **`ApplyRopeScaling`** keeps the number of the frequencies, or refuses the scaling. -/
theorem applyRopeScaling_cases (freqs : List F32) (scaling : Option RopeScaling) :
    ((∀ s, scaling = some s → s.Accepted) ∧
      ∃ scaled, applyRopeScaling math freqs scaling = .ok scaled ∧
        scaled.length = freqs.length) ∨
    (¬(∀ s, scaling = some s → s.Accepted) ∧
      ∃ status, applyRopeScaling math freqs scaling = .error status) := by
  cases scaling with
  | none => exact Or.inl ⟨fun s hs => (by cases hs), freqs, rfl, rfl⟩
  | some s =>
      have hiff : (∀ s', some s = some s' → s'.Accepted) ↔ s.Accepted :=
        ⟨fun h => h s rfl, fun h s' hs => Option.some.inj hs ▸ h⟩
      rw [hiff]
      unfold applyRopeScaling RopeScaling.Accepted
      dsimp only
      by_cases hplain : s.ropeType = [] ∨ s.ropeType = ascii "default"
      · rw [if_pos hplain]
        exact Or.inl ⟨hplain.elim Or.inl fun h => Or.inr (Or.inl h), freqs, rfl, rfl⟩
      · obtain ⟨hempty, hdefault⟩ := not_or.mp hplain
        rw [if_neg hplain]
        by_cases hlinear : s.ropeType = ascii "linear"
        · rw [if_pos hlinear]
          cases hfactor : F32.lt (.finite 0) s.factor with
          | true => exact Or.inl ⟨Or.inr (Or.inr (Or.inl ⟨hlinear, rfl⟩)), _, rfl, by simp⟩
          | false =>
              refine Or.inr ⟨?_, _, rfl⟩
              simp [hempty, hdefault]
        · rw [if_neg hlinear]
          by_cases hllama : s.ropeType = ascii "llama3"
          · rw [if_pos hllama]
            cases hfactor : F32.lt (.finite 0) s.factor with
            | false =>
                refine Or.inr ⟨?_, _, rfl⟩
                simp [hempty, hdefault]
            | true =>
                rw [if_neg (by decide)]
                cases hsame : floatEq s.highFreqFactor s.lowFreqFactor with
                | true =>
                    refine Or.inr ⟨?_, _, rfl⟩
                    simp [hempty, hdefault, hlinear]
                | false =>
                    rw [if_neg (by decide)]
                    by_cases horiginal : s.originalMaxPositionEmbeddings ≤ 0
                    · rw [if_pos horiginal]
                      refine Or.inr ⟨?_, _, rfl⟩
                      simp [hempty, hdefault, hlinear, horiginal]
                    · rw [if_neg horiginal]
                      exact Or.inl ⟨Or.inr (Or.inr (Or.inr ⟨hllama, rfl, rfl, by omega⟩)), _,
                        rfl, by simp⟩
          · rw [if_neg hllama]
            refine Or.inr ⟨?_, _, rfl⟩
            simp [hempty, hdefault, hlinear, hllama]

/-- Every row of the tables is inside them. -/
theorem ropeTable_returns {freqs : List F32} {half positions : Nat} (hlen : freqs.length = half)
    (hfits : positions * half < 2 ^ 63) :
    (ropeTable math freqs half positions).Returns fun _ => True := by
  unfold ropeTable
  refine (Returns.mapM (P := fun _ _ => True) fun p hp => ?_).bind fun _ _ => returns_pure trivial
  have hrow : p * half ≤ positions * half := Nat.mul_le_mul_right half (List.mem_range.mp hp).le
  unfold ropeRow
  rw [int64Nat_of_lt (by omega), ok_bind]
  refine (Returns.mapM (P := fun _ _ => True) fun j hj => ?_).mono fun _ _ => trivial
  have hj := List.mem_range.mp hj
  rw [readAt_natCast (by omega), ok_bind]
  exact returns_pure trivial

/-- The arguments of `Rope::Create` that get as far as the shape of the tables, which overflows. -/
structure RopeOverflow (headDim : Int) (theta : F32) (scaling : Option RopeScaling)
    (numPositions : Int) : Prop where
  positive : 0 < headDim ∧ 0 < numPositions
  even : headDim % 2 = 0
  theta : F32.lt (.finite 0) theta = true ∧ theta.isFinite = true
  scaling : ∀ s, scaling = some s → s.Accepted
  large : 2 ^ 63 ≤ numPositions * (headDim / 2)

section

variable {headDim numPositions : Int} {theta : F32} {scaling : Option RopeScaling}

theorem rope_aborts (h : RopeOverflow headDim theta scaling numPositions)
    (weights : TextMap TensorView) :
    Rope.create math host headDim theta scaling numPositions weights
      = .error (.checkFailed "dim product overflows int64_t") := by
  obtain ⟨hdim, hpositions⟩ := h.positive
  have heven := h.even
  obtain ⟨p, rfl⟩ := Int.eq_ofNat_of_zero_le hpositions.le
  obtain ⟨half, rfl⟩ : ∃ half : Nat, headDim = 2 * (half : Int) :=
    ⟨(headDim / 2).toNat, by omega⟩
  have hdiv : (2 * (half : Int)).tdiv 2 = half := by
    rw [Int.tdiv_eq_ediv_of_nonneg (by omega)]
    omega
  have hmod : (2 * (half : Int)).tmod 2 = 0 := by
    rw [Int.tmod_eq_emod_of_nonneg (by omega)]
    omega
  have hlarge : 2 ^ 63 ≤ p * half := by
    have hlarge := h.large
    rw [show 2 * (half : Int) / 2 = half by omega] at hlarge
    exact_mod_cast hlarge
  obtain ⟨scaled, hscaled, -⟩ := ((applyRopeScaling_cases math
    (baseInvFreq math (2 * half) theta) scaling).resolve_right fun hno => hno.1 h.scaling).2
  unfold Rope.create
  rw [if_neg (by omega), if_neg (by simp [h.theta.1, h.theta.2]), if_neg (by omega), hscaled]
  refine (Fallible.bind_of_ok rfl).trans ?_
  rw [hdiv, Shape.literal_overflows (by omega) (by omega) hlarge]
  rfl

/-- **`Rope::Create`** builds or refuses whatever does not overflow. -/
theorem safe_rope (hdim : 0 < headDim) (hpositions : 0 < numPositions)
    (hpositive : F32.lt (.finite 0) theta = true)
    (h : ¬RopeOverflow headDim theta scaling numPositions) :
    (Rope.create math host headDim theta scaling numPositions).Safe Weights fun _ => True := by
  unfold Rope.create
  by_cases heven : headDim < 2 ∨ headDim.tmod 2 ≠ 0
  · rw [if_pos heven]
    exact safe_refuse _
  · rw [if_neg heven]
    cases hfinite : theta.isFinite with
    | false =>
        rw [if_pos (by simp)]
        exact safe_refuse _
    | true =>
        rw [if_neg (by simp [hpositive]), if_neg (by omega)]
        rcases applyRopeScaling_cases math (baseInvFreq math headDim theta) scaling with
          ⟨haccepted, scaled, hscaled, hlen⟩ | ⟨-, status, hstatus⟩
        · obtain ⟨p, rfl⟩ := Int.eq_ofNat_of_zero_le hpositions.le
          obtain ⟨half, rfl⟩ : ∃ half : Nat, headDim = 2 * (half : Int) := by
            rw [Int.tmod_eq_emod_of_nonneg (by omega)] at heven
            exact ⟨(headDim / 2).toNat, by omega⟩
          have hdiv : (2 * (half : Int)).tdiv 2 = half := by
            rw [Int.tdiv_eq_ediv_of_nonneg (by omega)]
            omega
          have hfits : p * half < 2 ^ 63 := by
            by_contra hlarge
            refine h ⟨⟨hdim, hpositions⟩, by omega, ⟨hpositive, hfinite⟩, haccepted, ?_⟩
            rw [show 2 * (half : Int) / 2 = half by omega]
            exact_mod_cast Nat.le_of_not_lt hlarge
          have hlen' : scaled.length = half := by
            rw [hlen, baseInvFreq, List.length_map, List.length_range, hdiv, Int.toNat_natCast]
          have hprod : nonZeroProduct [p, half] < 2 ^ 63 := by
            simp only [nonZeroProduct, List.map_cons, List.map_nil, List.prod_cons, List.prod_nil,
              Nat.max_eq_left (show 1 ≤ p by omega), Nat.max_eq_left (show 1 ≤ half by omega),
              Nat.mul_one]
            exact hfits
          rw [hscaled, hdiv, Int.toNat_natCast]
          refine (Fallible.safe_ofExcept (Q := fun freqs => freqs = scaled)
            fun freqs hfreqs => (Except.ok.inj hfreqs).symm).bind fun freqs hfreqs => ?_
          subst hfreqs
          dsimp only
          rw [Int.toNat_natCast]
          have hrank : [p, half].length ≤ maxRank := by simp [maxRank]
          refine (Fallible.safe_ofChecked (Shape.literal_returns hrank hprod)).bind
            fun shape _ => ?_
          refine (safe_attempt (TensorView.empty_returns host shape rfl)).bind fun cos hcos => ?_
          refine (safe_attempt (TensorView.empty_returns host shape rfl)).bind fun sin hsin => ?_
          rw [TensorView.dataPtr_returns hcos.1.symm, TensorView.dataPtr_returns hsin.1.symm]
          refine (Fallible.safe_ofChecked (returns_ok (P := fun _ => True) trivial)).bind
            fun _ _ => ?_
          refine (Fallible.safe_ofChecked (returns_ok (P := fun _ => True) trivial)).bind
            fun _ _ => ?_
          refine (Fallible.safe_ofChecked (ropeTable_returns math hlen' hfits)).bind fun _ _ => ?_
          exact Fallible.safe_pure trivial
        · rw [hstatus]
          exact (Fallible.safe_ofExcept (Q := fun _ => False) fun _ hok => by cases hok).bind
            fun _ hfalse => hfalse.elim

end

/-! ### The weights

Whatever the loaded weights are, taking one and building a layer of it answers or refuses. -/

theorem safe_erase (name : Text) :
    (Fallible.modify fun weights => weights.erase name : Building Unit).Safe Weights
      fun _ => True := by
  refine Fallible.safe_modify fun left hleft other t ht => ?_
  by_cases heq : other = name
  · subst heq
    rw [AList.lookup_erase] at ht
    cases ht
  · rw [AList.lookup_erase_ne heq] at ht
    exact hleft other t ht

theorem safe_takeWeight (model : String) (name : Text) :
    (takeWeight model name).Safe Weights TensorView.Weight := by
  unfold takeWeight
  refine Fallible.safe_get.bind fun weights hweights => ?_
  cases hlookup : weights.lookup name with
  | none => exact safe_refuse _
  | some w =>
      refine (safe_erase name).bind fun _ _ => ?_
      exact Fallible.safe_pure (hweights name w hlookup)

theorem safe_biasOf (name : Text) (hasBias : Bool) :
    (biasOf name hasBias).Safe Weights fun bias => ∀ b, bias = some b → b.Weight := by
  unfold biasOf optionalWeight
  cases hasBias with
  | false => exact Fallible.safe_pure fun b hb => by cases hb
  | true =>
      rw [if_pos rfl]
      exact Fallible.safe_get.bind fun weights hweights => Fallible.safe_pure fun b hb =>
        hweights _ b hb

theorem safe_buildLinear (name : Text) (hasBias : Bool) :
    (buildLinear name hasBias).Safe Weights fun _ => True := by
  unfold buildLinear
  refine (safe_takeWeight _ name).bind fun weight hweight => ?_
  refine (safe_biasOf name hasBias).bind fun bias hbias => ?_
  exact safe_referenceLinear hweight.toLoaded fun b hb => (hbias b hb).toLoaded

theorem safe_buildPacked (name : Text) (hasBias : Bool) :
    (buildPacked host name hasBias).Safe Weights fun _ => True := by
  unfold buildPacked
  refine (safe_takeWeight _ name).bind fun weight hweight => ?_
  refine (safe_biasOf name hasBias).bind fun bias hbias => ?_
  exact safe_packedLinear host hweight hbias

theorem safe_buildNormScale (name : Text) :
    (buildNormScale host name).Safe Weights fun _ => True := by
  unfold buildNormScale
  refine (safe_takeWeight _ name).bind fun w hw => ?_
  refine (safe_requireLayout _ _ 1 hw.toLoaded).bind fun _ _ => ?_
  exact safe_cast host rfl hw.toLoaded

/-- A norm of the reference, from the weights. -/
theorem safe_takeNorm {β : Type} {R : β → Prop} (name : Text) (eps : F32)
    {f : RmsNorm → Building β} (hf : ∀ norm, (f norm).Safe Weights R) :
    (takeWeight "ReferenceModel" name >>= fun w => RmsNorm.create w eps >>= f).Safe Weights R := by
  refine (safe_takeWeight _ name).bind fun w hw => ?_
  exact (safe_rmsNorm eps hw.toLoaded).bind fun norm _ => hf norm

/-! ### The models

Of a config only the shape of the tables matters; every other part is built or refused. -/

/-- What a model needs of its config to be built or refused. -/
structure Buildable (config : ParsedConfig) : Prop where
  positive : config.Positive
  narrow : config.Narrow
  fits : ¬RopeOverflow config.headDim config.ropeTheta config.ropeScaling
    config.maxPositionEmbeddings

variable {config : ParsedConfig}

theorem safe_createRope (h : Buildable config) :
    (createRope math host config).Safe Weights fun _ => True :=
  safe_rope math host h.positive.headDim h.positive.maxPositionEmbeddings h.positive.ropeTheta
    h.fits

/-- `H·d` and `Hkv·d`. -/
theorem Buildable.rows (h : Buildable config) :
    int64 (config.numHeads * config.headDim) = .ok (config.numHeads * config.headDim) ∧
      int64 (config.numKvHeads * config.headDim) = .ok (config.numKvHeads * config.headDim) := by
  obtain ⟨hq, hq', hkv, hkv'⟩ := ParsedConfig.rows_lt h.positive h.narrow
  exact ⟨int64_of_lt hq.le hq', int64_of_lt hkv.le hkv'⟩

theorem safe_attention (h : Buildable config) (q k v o : Linear) (rope : Rope) :
    (Attention.create q k v o rope config.numHeads config.numKvHeads config.headDim).Safe Weights
      fun _ => True := by
  unfold Attention.create
  split
  · exact safe_refuse _
  · split
    · exact safe_refuse _
    · split
      · exact safe_refuse _
      · rw [h.rows.1, h.rows.2]
        refine (Fallible.safe_ofChecked (returns_ok (P := fun _ => True) trivial)).bind
          fun _ _ => ?_
        refine (Fallible.safe_ofChecked (returns_ok (P := fun _ => True) trivial)).bind
          fun _ _ => ?_
        refine (Fallible.safe_ofExcept (Q := fun _ => True) fun _ _ => trivial).bind fun _ _ => ?_
        exact Fallible.safe_pure trivial

/-- **A layer of the reference** is built or refused. -/
theorem safe_referenceLayer (h : Buildable config) (layers : List DecoderLayer) (i : Nat) :
    (referenceLayer math host config layers i).Safe Weights fun _ => True := by
  unfold referenceLayer
  refine safe_takeNorm _ _ fun attnNorm => ?_
  refine (safe_buildLinear _ _).bind fun qProj _ => ?_
  refine (safe_buildLinear _ _).bind fun kProj _ => ?_
  refine (safe_buildLinear _ _).bind fun vProj _ => ?_
  refine (safe_buildLinear _ _).bind fun oProj _ => ?_
  refine (safe_createRope math host h).bind fun rope _ => ?_
  refine (safe_attention h qProj kProj vProj oProj rope).bind fun attn _ => ?_
  refine safe_takeNorm _ _ fun mlpNorm => ?_
  refine (safe_buildLinear _ _).bind fun gateProj _ => ?_
  refine (safe_buildLinear _ _).bind fun upProj _ => ?_
  refine (safe_buildLinear _ _).bind fun downProj _ => ?_
  refine (Fallible.safe_ofExcept (Q := fun _ => True) fun _ _ => trivial).bind fun mlp _ => ?_
  refine (Fallible.safe_ofExcept (Q := fun _ => True) fun _ _ => trivial).bind fun layer _ => ?_
  exact Fallible.safe_pure trivial

theorem safe_reference (h : Buildable config) :
    (ReferenceModel.create math host config).Safe Weights fun _ => True := by
  unfold ReferenceModel.create
  refine (safe_takeWeight _ _).bind fun embedWeight hembed => ?_
  refine (safe_embeddingOf _ hembed.toLoaded).bind fun embed _ => ?_
  refine safe_takeNorm _ _ fun finalNorm => ?_
  refine (safe_buildLinear _ _).bind fun lmHead _ => ?_
  refine (Fallible.safe_fold (R := fun _ => True) trivial fun i _ layers _ =>
    safe_referenceLayer math host h layers i).bind fun layers _ => ?_
  exact Fallible.safe_pure trivial

/-- **A layer of the optimized model** is built or refused. -/
theorem safe_optimizedLayer (h : Buildable config) (layers : List Layer) (i : Nat) :
    (optimizedLayer host config layers i).Safe Weights fun _ => True := by
  unfold optimizedLayer
  refine (safe_buildNormScale host _).bind fun attnScale _ => ?_
  refine (safe_buildPacked host _ _).bind fun qProj _ => ?_
  refine (safe_buildPacked host _ _).bind fun kProj _ => ?_
  refine (safe_buildPacked host _ _).bind fun vProj _ => ?_
  refine (safe_buildPacked host _ _).bind fun oProj _ => ?_
  refine (safe_buildNormScale host _).bind fun mlpScale _ => ?_
  refine (safe_buildPacked host _ _).bind fun gateProj _ => ?_
  refine (safe_buildPacked host _ _).bind fun upProj _ => ?_
  refine (safe_buildPacked host _ _).bind fun downProj _ => ?_
  rw [h.rows.1, h.rows.2]
  refine (Fallible.safe_ofChecked (returns_ok (P := fun _ => True) trivial)).bind fun _ _ => ?_
  refine (Fallible.safe_ofChecked (returns_ok (P := fun _ => True) trivial)).bind fun _ _ => ?_
  refine (Fallible.safe_ofExcept (Q := fun _ => True) fun _ _ => trivial).bind fun _ _ => ?_
  exact Fallible.safe_pure trivial

theorem safe_optimizedEmbed (lmHead : Linear) :
    (optimizedEmbed config lmHead).Safe Weights fun _ => True := by
  unfold optimizedEmbed
  split
  · refine (safe_erase _).bind fun _ _ => ?_
    exact Fallible.safe_pure trivial
  · refine (safe_takeWeight _ _).bind fun embedWeight hembed => ?_
    exact safe_embeddingOf _ hembed.toLoaded

/-- `Workspace::Create` finds its dims positive. -/
theorem createWorkspace_returns (h : Buildable config) :
    (createWorkspace config).Returns fun _ => True := by
  have hp := h.positive
  have hall : (decide (0 < config.hiddenSize) && decide (0 < config.numHeads) &&
      decide (0 < config.numKvHeads) && decide (0 < config.headDim) &&
      decide (0 < config.intermediateSize)) = true := by
    simp [hp.hiddenSize, hp.numHeads, hp.numKvHeads, hp.headDim, hp.intermediateSize]
  unfold createWorkspace Workspace.create
  rw [check_of_true hall, ok_bind, h.rows.1, ok_bind, h.rows.2, ok_bind]
  exact returns_pure trivial

theorem safe_optimized (h : Buildable config) :
    (OptimizedModel.create math host config).Safe Weights fun _ => True := by
  unfold OptimizedModel.create
  refine (safe_buildNormScale host _).bind fun finalNormScale _ => ?_
  refine (safe_takeWeight _ _).bind fun lmHeadWeight hhead => ?_
  refine (safe_packedLinear host hhead fun b hb => by cases hb).bind fun lmHead _ => ?_
  refine (safe_optimizedEmbed lmHead).bind fun embed _ => ?_
  refine (safe_createRope math host h).bind fun rope _ => ?_
  refine (Fallible.safe_fold (R := fun _ => True) trivial fun i _ layers _ =>
    safe_optimizedLayer host h layers i).bind fun layers _ => ?_
  refine (Fallible.safe_ofChecked (createWorkspace_returns h)).bind fun workspace _ => ?_
  exact Fallible.safe_pure trivial

/-- Nothing that is built of a loaded model ends the process. -/
structure Builds (model : LoadedModel) : Prop where
  rope : ∃ r, createRope math host model.config model.weights = .ok r
  workspace : ∃ w, createWorkspace model.config = .ok w
  reference : ∃ r, ReferenceModel.create math host model.config model.weights = .ok r
  optimized : ∃ r, OptimizedModel.create math host model.config model.weights = .ok r

/-- The config of a model overflows the shape of the tables of RoPE. -/
def RopeOverflows (config : ParsedConfig) : Prop :=
  RopeOverflow config.headDim config.ropeTheta config.ropeScaling config.maxPositionEmbeddings

/-- **A loaded model is built or refused** exactly where the tables of RoPE have a shape. -/
theorem builds_iff {files : ModelFiles} {parse : Text → Option Json} {numbers : Text → Numbers}
    {dir : Text} {model : LoadedModel} (hload : loadModel files parse numbers dir = .ok (.ok model))
    (hbytes : ∀ name t, model.weights.lookup name = some t →
      t.numel * (t.dtype.itemsizeBits / 8) < 2 ^ 60) :
    Builds math host model ↔ ¬RopeOverflows model.config := by
  have hsound := loadModel_sound hload
  constructor
  · intro hbuilds hoverflow
    obtain ⟨r, hr⟩ := hbuilds.rope
    rw [createRope, rope_aborts math host hoverflow] at hr
    cases hr
  · intro hfits
    have hbuildable : Buildable model.config := ⟨hsound.positive, hsound.narrow, hfits⟩
    have hweights : Weights model.weights := fun name t ht =>
      ⟨hsound.weights name t ht, hbytes name t ht⟩
    obtain ⟨workspace, hworkspace, -⟩ := createWorkspace_returns hbuildable
    exact ⟨(safe_createRope math host hbuildable).returns hweights, ⟨workspace, hworkspace⟩,
      (safe_reference math host hbuildable).returns hweights,
      (safe_optimized math host hbuildable).returns hweights⟩

/-! ### A config with a vast context

A checkpoint of one layer and one head that loads and cannot be built: its tables would have a
row for each of `2 ^ 62` positions. -/

/-- A tensor of half floats in a file. -/
structure WideTensor where
  name : String
  shape : Shape
  begin : Nat
  stop : Nat

/-- `[1]` -/
def oneShape : Shape := ⟨[1], 1, by decide, by decide, by decide⟩

/-- `[1, 1]` -/
def unitShape : Shape := ⟨[1, 1], 1, by decide, by decide, by decide⟩

/-- `[4, 1]` -/
def columnShape : Shape := ⟨[4, 1], 4, by decide, by decide, by decide⟩

/-- `[1, 4]` -/
def rowShape : Shape := ⟨[1, 4], 4, by decide, by decide, by decide⟩

/-- The tensors of a model of one layer and one head, in the order of their names. -/
def wideTensors : List WideTensor :=
  [⟨"model.embed_tokens.weight", unitShape, 44, 46⟩,
    ⟨"model.layers.0.input_layernorm.weight", oneShape, 42, 44⟩,
    ⟨"model.layers.0.mlp.down_proj.weight", unitShape, 40, 42⟩,
    ⟨"model.layers.0.mlp.gate_proj.weight", unitShape, 38, 40⟩,
    ⟨"model.layers.0.mlp.up_proj.weight", unitShape, 36, 38⟩,
    ⟨"model.layers.0.post_attention_layernorm.weight", oneShape, 34, 36⟩,
    ⟨"model.layers.0.self_attn.k_proj.weight", columnShape, 26, 34⟩,
    ⟨"model.layers.0.self_attn.o_proj.weight", rowShape, 18, 26⟩,
    ⟨"model.layers.0.self_attn.q_proj.weight", columnShape, 10, 18⟩,
    ⟨"model.layers.0.self_attn.v_proj.weight", columnShape, 2, 10⟩,
    ⟨"model.norm.weight", oneShape, 0, 2⟩]

/-- A number in a document. -/
def digits (n : Nat) : Text := ascii (toString n)

/-- The items of an array or an object. -/
def commas : List Text → Text
  | [] => []
  | [item] => item
  | item :: items => item ++ 0x2C :: commas items

/-- The member of a header that describes a tensor. -/
def WideTensor.text (t : WideTensor) : Text :=
  ascii "\"" ++ ascii t.name ++ ascii "\":\x7b\"data_offsets\":[" ++
    commas [digits t.begin, digits t.stop] ++ ascii "],\"dtype\":\"F16\",\"shape\":[" ++
    commas (t.shape.dims.map digits) ++ ascii "]\x7d"

/-- What the parser makes of it. -/
def WideTensor.json (t : WideTensor) : Text × Json :=
  (ascii t.name, .object [
    (ascii "data_offsets", .array [.integer t.begin, .integer t.stop]),
    (ascii "dtype", .string (ascii "F16")),
    (ascii "shape", .array (t.shape.dims.map fun d : Nat => .integer d))])

/-- The entry that is read from it. -/
def WideTensor.entry (t : WideTensor) : RawEntry := ⟨.float16, t.shape, t.begin, t.stop⟩

/-- The header of the file. -/
def wideHeader : Text := 0x7B :: commas (wideTensors.map WideTensor.text) ++ [0x7D]

/-- The entries of the header, by name. -/
def wideEntries : TextMap RawEntry :=
  wideTensors.foldl (fun entries t => (emplace entries (ascii t.name) t.entry).1) ∅

/-- The counts of the config: 2^62 positions and four dims a head. -/
def wideCounts : List (String × Nat) :=
  [("head_dim", 4), ("hidden_size", 1), ("intermediate_size", 1),
    ("max_position_embeddings", 2 ^ 62), ("num_attention_heads", 1), ("num_hidden_layers", 1)]

/-- The text of `config.json`. -/
def wideConfigText : Text :=
  ascii "\x7b\"architectures\":[\"LlamaForCausalLM\"]," ++
    commas (wideCounts.map fun c => ascii "\"" ++ ascii c.1 ++ ascii "\":" ++ digits c.2) ++
    ascii ",\"tie_word_embeddings\":true,\"vocab_size\":1\x7d"

/-- What the parser makes of it. -/
def wideConfigJson : List (Text × Json) :=
  (ascii "architectures", .array [.string (ascii "LlamaForCausalLM")]) ::
    wideCounts.map (fun c => (ascii c.1, .integer c.2)) ++
    [(ascii "tie_word_embeddings", .bool true), (ascii "vocab_size", .integer 1)]

private theorem length_wideHeader : wideHeader.length = 988 := by decide +kernel

/-- The file: the length of its header, the header, and the data. -/
def wideMapping : MappedFile where
  buffer := ⟨4096, 1042, .cpu, by decide, by decide⟩
  content := [0xDC, 3, 0, 0, 0, 0, 0, 0] ++ (wideHeader ++ List.replicate 46 0)
  size_eq := by simp [length_wideHeader]

/-- A directory with the config and one file of weights. -/
def wideFiles : ModelFiles where
  isDirectory path := path = ascii "m"
  fileExists path := path = ascii "m/model.safetensors"
  mapFileReadOnly path :=
    if path = ascii "m/model.safetensors" then .ok wideMapping
    else .error (notFoundError ("cannot open " ++ path.show ++ ": No such file or directory"))
  readFile path := if path = ascii "m/config.json" then some wideConfigText else none
  directoryEntries path :=
    if path = ascii "m" then [ascii "config.json", ascii "model.safetensors"] else []
  mapped_device := by
    intro path mapping h
    split at h
    · cases h
      rfl
    · cases h

/-- A parser that knows the two documents. -/
def wideParse (text : Text) : Option Json :=
  if text = wideConfigText then some (.object wideConfigJson)
  else if text = wideHeader then some (.object (wideTensors.map WideTensor.json))
  else none

/-- The document has no floats. -/
def wideNumbers : Text → Numbers := fun _ _ => .nan

/-- The config that is read. -/
def wideConfig : ParsedConfig :=
  { ParsedConfig.initial with
    architectureName := ascii "LlamaForCausalLM"
    hiddenSize := 1
    intermediateSize := 1
    numLayers := 1
    numHeads := 1
    numKvHeads := 1
    headDim := 4
    vocabSize := 1
    maxPositionEmbeddings := 2 ^ 62
    tieWordEmbeddings := true }

/-- The frequencies of four dims a head and the default `theta`. -/
def plainMath : RopeMath where
  invFreq _ _ i := .finite (1 / 100 ^ i)
  linear _ freq := freq
  llama3 _ freq := freq
  cos _ _ := .finite 1
  sin _ _ := .finite 0

private theorem wideParsed :
    parseSafetensors wideParse wideMapping.content = .ok (.ok ⟨996, wideEntries, ∅⟩) := by
  have hlen : wideMapping.content.length = 1042 := wideMapping.size_eq.symm
  have hhead : littleEndian (wideMapping.content.take 8) = 988 := rfl
  have htext : (wideMapping.content.drop 8).take 988 = wideHeader :=
    List.take_left' length_wideHeader
  have hparse : wideParse wideHeader = some (.object (wideTensors.map WideTensor.json)) := by
    have hne : wideHeader ≠ wideConfigText := by decide +kernel
    unfold wideParse
    rw [if_neg hne, if_pos rfl]
  have hitems : itemsLoop 46 (wideTensors.map WideTensor.json) ⟨996, ∅, ∅⟩
      = .ok (.ok ⟨996, wideEntries, ∅⟩) := rfl
  have hlayout : validateDataSectionLayout wideEntries 46 = .ok (.ok ()) := by
    unfold validateDataSectionLayout
    dsimp only
    rw [List.mergeSort_of_pairwise (by decide +kernel)]
    rfl
  have hafter : uint64 (((1042 : Nat) : Int) - 8) = .ok 1034 := by decide
  have hdata : uint64 (((1034 : Nat) : Int) - (988 : Nat)) = .ok 46 := by decide
  have hstart : uint64 ((8 + 988 : Nat) : Int) = .ok 996 := by decide
  unfold parseSafetensors
  dsimp only
  rw [hlen, hhead, htext, hparse, if_neg (by decide), if_neg (by decide), hafter, ok_bind,
    if_neg (by decide), hdata, ok_bind, hstart, ok_bind]
  unfold parseHeader
  dsimp only
  rw [hitems, ok_bind]
  dsimp only
  rw [hlayout]
  rfl

/-- The file, opened. -/
def wideFile : SafetensorsFile where
  buffer := wideMapping.buffer
  dataStart := 996
  entries := wideEntries.entries.foldl
    (fun entries e => (emplace entries e.1 (SafetensorsFile.keep e.2)).1) ∅
  metadata := ∅
  path := (ascii "m/model.safetensors").show

/-- The checkpoint, opened. -/
def wideCheckpoint : Checkpoint where
  dir := ascii "m"
  weightsPath := ascii "m/model.safetensors"
  shardNames := [Checkpoint.singleFile]
  shards := [some wideFile]
  index := wideFile.entries.keys.foldl (fun index name => (emplace index name 0).1) ∅

private theorem wideOpened : Checkpoint.openDir wideFiles.toFileSystem wideParse (ascii "m")
    = .ok (.ok wideCheckpoint, [ascii "m/model.safetensors"]) := by
  have hpath : joinPath (ascii "m") Checkpoint.singleFile = ascii "m/model.safetensors" := by
    decide
  have hmapped : wideFiles.mapFileReadOnly (cString (ascii "m/model.safetensors"))
      = .ok wideMapping := rfl
  have hopen : Checkpoint.openPath wideFiles.toFileSystem wideParse (ascii "m/model.safetensors")
      = .ok (.ok wideFile) := by
    unfold Checkpoint.openPath SafetensorsFile.openFile
    rw [hmapped]
    dsimp only
    rw [wideParsed]
    rfl
  unfold Checkpoint.openDir
  rw [if_neg (by decide), if_neg (by decide), if_pos (by decide)]
  dsimp only
  rw [hpath, hopen]
  rfl

/-- Building ends the process with the overflow of a shape. -/
def endsInOverflow {α : Type} (x : Checked α) : Bool :=
  match x with
  | .error (.checkFailed message) => message = "dim product overflows int64_t"
  | _ => false

/-- A load of the config that succeeds with small weights, of which neither model can be built. -/
def wideTest (loaded : StatusOr LoadedModel × Checkpoint) : Bool :=
  match loaded.1 with
  | .error _ => false
  | .ok model =>
      model.config = wideConfig &&
        model.weights.entries.all
          (fun e => e.2.numel * (e.2.dtype.itemsizeBits / 8) < 2 ^ 60) &&
        endsInOverflow (ReferenceModel.create plainMath .vast model.config model.weights) &&
        endsInOverflow (OptimizedModel.create plainMath .vast model.config model.weights)

private theorem endsInOverflow_eq {α : Type} {x : Checked α} (h : endsInOverflow x = true) :
    x = .error (.checkFailed "dim product overflows int64_t") := by
  unfold endsInOverflow at h
  split at h
  · rw [of_decide_eq_true h]
  · cases h

private theorem wideLoaded : ∃ model,
    loadModel wideFiles wideParse wideNumbers (ascii "m") = .ok (.ok model) ∧
      model.config = wideConfig ∧
      (∀ name t, model.weights.lookup name = some t →
        t.numel * (t.dtype.itemsizeBits / 8) < 2 ^ 60) ∧
      ReferenceModel.create plainMath .vast model.config model.weights
        = .error (.checkFailed "dim product overflows int64_t") ∧
      OptimizedModel.create plainMath .vast model.config model.weights
        = .error (.checkFailed "dim product overflows int64_t") := by
  have hconfig : loadModelConfig wideFiles wideParse wideNumbers (ascii "m/config.json")
      = .ok wideConfig := by decide +kernel
  have hpath : joinPath (ascii "m") (ascii "config.json") = ascii "m/config.json" := by decide
  obtain ⟨⟨result, c⟩, hrun, htest⟩ := exists_of_test
    (Loader.fromCheckpoint wideFiles.toFileSystem wideParse wideConfig wideCheckpoint) wideTest
    (by decide +kernel)
  unfold wideTest at htest
  cases result with
  | error status => cases htest
  | ok model =>
      simp only [Bool.and_eq_true, decide_eq_true_eq, List.all_eq_true] at htest
      obtain ⟨⟨⟨heq, hsmall⟩, hreference⟩, hoptimized⟩ := htest
      refine ⟨model, ?_, heq, fun name t ht => ?_, endsInOverflow_eq hreference,
        endsInOverflow_eq hoptimized⟩
      · unfold loadModel
        rw [hpath, hconfig]
        dsimp only
        rw [wideOpened, ok_bind]
        dsimp only
        rw [hrun]
        rfl
      · exact hsmall ⟨name, t⟩ (AList.mem_lookup_iff.mp ht)

/-- **A config ends the process**: of a model that loads, neither the one nor the other backend is
built. -/
theorem wide_context_aborts : ∃ model,
    loadModel wideFiles wideParse wideNumbers (ascii "m") = .ok (.ok model) ∧
      (∀ name t, model.weights.lookup name = some t →
        t.numel * (t.dtype.itemsizeBits / 8) < 2 ^ 60) ∧
      ReferenceModel.create plainMath .vast model.config model.weights
        = .error (.checkFailed "dim product overflows int64_t") ∧
      OptimizedModel.create plainMath .vast model.config model.weights
        = .error (.checkFailed "dim product overflows int64_t") ∧
      ¬Builds plainMath .vast model := by
  obtain ⟨model, hload, -, hbytes, hreference, hoptimized⟩ := wideLoaded
  refine ⟨model, hload, hbytes, hreference, hoptimized, fun hbuilds => ?_⟩
  obtain ⟨r, hr⟩ := hbuilds.reference
  rw [hreference] at hr
  cases hr

theorem builds_iff_wide : ∃ model,
    loadModel wideFiles wideParse wideNumbers (ascii "m") = .ok (.ok model) ∧
      (Builds plainMath .vast model ↔ ¬RopeOverflows model.config) := by
  obtain ⟨model, hload, -, hbytes, -⟩ := wideLoaded
  exact ⟨model, hload, builds_iff plainMath .vast hload hbytes⟩

end Construct

end InferenceEngine
