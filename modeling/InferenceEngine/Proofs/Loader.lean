/-
What a loaded model holds.

A weight is what the checkpoint answers for its source, and the checkpoint answers the same both
times it is asked, so the weight has the shape that was matched with the config.  What the
checkpoint answers is a view of mapped memory.
-/
import InferenceEngine.Model.Loader
import InferenceEngine.Proofs.Checkpoint
import InferenceEngine.Proofs.Config
import InferenceEngine.Proofs.WeightMap

namespace InferenceEngine

open Except

/-! ### Views of files

A shard is mapped once and its tensors are views of the mapping, with the dtype and the shape
that its header gives them. -/

theorem TensorView.fromBuffer_view {buffer : Buffer} {byteOffset : Nat} {shape : Shape}
    {dtype : DataType} {t : TensorView}
    (h : TensorView.fromBuffer buffer byteOffset shape dtype = .ok (.ok t)) :
    t.Laid ∧ t.device = buffer.device := by
  refine ⟨TensorView.fromBuffer_laid h, ?_⟩
  unfold TensorView.fromBuffer at h
  split at h
  · cases h
  · obtain ⟨size, -, h⟩ := bind_eq_ok.mp h
    split at h
    · cases h
    · split at h
      · cases h
      · obtain ⟨strides, -, h⟩ := bind_eq_ok.mp h
        cases h
        rfl

theorem SafetensorsFile.tensor_view {file : SafetensorsFile} {name : Text} {t : TensorView}
    (h : file.tensor name = .ok (.ok t)) : t.Laid ∧ t.device = file.buffer.device := by
  unfold SafetensorsFile.tensor at h
  split at h
  · cases h
  · obtain ⟨offset, -, h⟩ := bind_eq_ok.mp h
    obtain ⟨result, hresult, h⟩ := bind_eq_ok.mp h
    split at h
    · cases h
    · cases h
      exact TensorView.fromBuffer_view hresult

theorem SafetensorsFile.openFile_buffer {parse : Text → Option Json} {path : String}
    {mapped : StatusOr Safetensors.MappedFile} {file : SafetensorsFile}
    (h : SafetensorsFile.openFile parse path mapped = .ok (.ok file)) :
    ∃ mapping, mapped = .ok mapping ∧ file.buffer = mapping.buffer := by
  unfold SafetensorsFile.openFile at h
  split at h
  · cases h
  · rename_i mapping
    obtain ⟨result, -, h⟩ := bind_eq_ok.mp h
    split at h
    · cases h
    · cases h
      exact ⟨mapping, rfl, rfl⟩

/-! ### What a checkpoint answers

Which shard a name lies in is fixed by the index, and what the shard holds by the file system. 
So an answer does not depend on the calls that were made before it. -/

namespace Checkpoint

variable (fs : FileSystem) (parse : Text → Option Json)

/-- A kept shard is what opening it gives. -/
def Keeps (c : Checkpoint) : Prop :=
  ∀ (ordinal : Nat) file, c.shards[ordinal]? = some (some file) →
    openPath fs parse (joinPath c.dir (c.shardNames.getD ordinal [])) = .ok (.ok file)

/-- The tensor of a name, by the files alone. -/
def Answers (c : Checkpoint) (name : Text) (t : TensorView) : Prop :=
  ∃ (ordinal : Nat) (file : SafetensorsFile), c.index.lookup name = some ordinal ∧
    openPath fs parse (joinPath c.dir (c.shardNames.getD ordinal [])) = .ok (.ok file) ∧
    file.tensor name = .ok (.ok t)

variable {fs parse} {c c' : Checkpoint} {name : Text} {t t' : TensorView}

theorem Answers.unique (h : Answers fs parse c name t) (h' : Answers fs parse c name t') :
    t = t' := by
  obtain ⟨ordinal, file, hindex, hopen, htensor⟩ := h
  obtain ⟨ordinal', file', hindex', hopen', htensor'⟩ := h'
  have hordinal : ordinal = ordinal' := Option.some.inj (hindex.symm.trans hindex')
  subst hordinal
  have hfile : file = file' := Except.ok.inj (Except.ok.inj (hopen.symm.trans hopen'))
  subst hfile
  exact Except.ok.inj (Except.ok.inj (htensor.symm.trans htensor'))

theorem SameIndex.answers (h : SameIndex c c') (ha : Answers fs parse c' name t) :
    Answers fs parse c name t := by
  unfold Answers at ha ⊢
  rw [h.dir, h.shardNames, h.index] at ha
  exact ha

/-- What is answered is a view of mapped memory. -/
theorem Answers.view {files : ModelFiles} (h : Answers files.toFileSystem parse c name t) :
    t.Laid ∧ t.device = .cpu := by
  obtain ⟨ordinal, file, -, hopen, htensor⟩ := h
  obtain ⟨hlaid, hdevice⟩ := SafetensorsFile.tensor_view htensor
  obtain ⟨mapping, hmapped, hbuffer⟩ := SafetensorsFile.openFile_buffer hopen
  refine ⟨hlaid, ?_⟩
  rw [hdevice, hbuffer]
  exact files.mapped_device hmapped

private theorem readAt_getD {names : List Text} {ordinal : Nat} {name : Text}
    (h : readAt names ordinal = .ok name) : names.getD ordinal [] = name := by
  by_cases hlt : ordinal < names.length
  · rw [readAt_natCast hlt] at h
    rw [List.getD_eq_getElem _ _ hlt]
    exact Except.ok.inj h
  · rw [readAt, if_pos (by omega), Int.toNat_natCast, List.getElem?_eq_none (by omega)] at h
    cases h

theorem shard_ok {ordinal : Nat} {file : SafetensorsFile} {opened : List Text}
    (hkeeps : Keeps fs parse c) (h : shard fs parse c ordinal = .ok (.ok file, c', opened)) :
    openPath fs parse (joinPath c.dir (c.shardNames.getD ordinal [])) = .ok (.ok file) ∧
      SameIndex c c' ∧ Keeps fs parse c' := by
  unfold shard at h
  obtain ⟨slot, hslot, h⟩ := bind_eq_ok.mp h
  cases slot with
  | some kept =>
      cases h
      by_cases hlt : ordinal < c.shards.length
      · rw [readAt_natCast hlt] at hslot
        refine ⟨hkeeps ordinal file ?_, SameIndex.refl c, hkeeps⟩
        rw [List.getElem?_eq_getElem hlt, Except.ok.inj hslot]
      · rw [readAt, if_pos (by omega), Int.toNat_natCast,
          List.getElem?_eq_none (by omega)] at hslot
        cases hslot
  | none =>
      obtain ⟨name, hname, h⟩ := bind_eq_ok.mp h
      obtain ⟨result, hopen, h⟩ := bind_eq_ok.mp h
      rw [readAt_getD hname]
      cases result with
      | error status => cases h
      | ok file' =>
          dsimp only at h
          split at h
          · cases h
          · obtain ⟨shards, hshards, h⟩ := bind_eq_ok.mp h
            cases h
            refine ⟨hopen, ⟨rfl, rfl, rfl, rfl⟩, fun other kept hkept => ?_⟩
            unfold writeAt at hshards
            split at hshards
            · cases hshards
              change (c.shards.set ordinal (some file))[other]? = some (some kept) at hkept
              by_cases heq : ordinal = other
              · subst heq
                have hlt := (List.getElem?_eq_some_iff.mp hkept).1
                rw [List.length_set] at hlt
                rw [List.getElem?_set_self hlt] at hkept
                cases hkept
                show openPath fs parse (joinPath c.dir (c.shardNames.getD ordinal [])) = _
                rw [readAt_getD hname]
                exact hopen
              · rw [List.getElem?_set_ne heq] at hkept
                exact hkeeps other kept hkept
            · cases hshards

/-- **One call** that succeeds. -/
theorem tensor_ok {opened : List Text} (hkeeps : Keeps fs parse c)
    (h : tensor fs parse c name = .ok (.ok t, c', opened)) :
    Answers fs parse c name t ∧ SameIndex c c' ∧ Keeps fs parse c' := by
  unfold tensor at h
  split at h
  · cases h
  · rename_i ordinal hindex
    obtain ⟨⟨result, c₁, opened₁⟩, hshard, h⟩ := bind_eq_ok.mp h
    cases result with
    | error status => cases h
    | ok file =>
        obtain ⟨view, hview, h⟩ := bind_eq_ok.mp h
        cases h
        obtain ⟨hopen, hsame, hkeeps'⟩ := shard_ok hkeeps hshard
        exact ⟨⟨ordinal, file, hindex, hopen, hview⟩, hsame, hkeeps'⟩

theorem openDir_keeps {dir : Text} {opened : List Text}
    (h : openDir fs parse dir = .ok (.ok c, opened)) : Keeps fs parse c := by
  unfold openDir at h
  split at h
  · cases h
  · split at h
    · obtain ⟨hresult, -⟩ := Prod.ext_iff.mp (Except.ok.inj h)
      change openIndexed fs parse dir = .ok c at hresult
      unfold openIndexed at hresult
      dsimp only at hresult
      split at hresult
      · cases hresult
      · split at hresult
        · cases hresult
        · split at hresult
          · cases hresult
          · cases hresult
            intro ordinal file hslot
            have hnone := List.eq_of_mem_replicate (List.mem_of_getElem? hslot)
            cases hnone
    · split at h
      · obtain ⟨result, hopen, h⟩ := bind_eq_ok.mp h
        split at h
        · cases h
        · rename_i file
          cases h
          intro ordinal kept hslot
          cases ordinal with
          | zero =>
              cases hslot
              exact hopen
          | succ ordinal => cases hslot
      · cases h

end Checkpoint

/-! ### Loading

The inventory is taken first and the weights are materialized from the same checkpoint later. 
The two agree, because a checkpoint answers the same again. -/

namespace Loader

open Checkpoint

variable {fs : FileSystem} {parse : Text → Option Json} {c₀ c c' : Checkpoint}

/-- The checkpoint has come from `c₀` by successful calls. -/
structure From (fs : FileSystem) (parse : Text → Option Json) (c₀ c : Checkpoint) : Prop where
  same : SameIndex c₀ c
  keeps : Checkpoint.Keeps fs parse c

theorem From.fetch {name : Text} {t : TensorView} (h : From fs parse c₀ c)
    (hrun : fetch fs parse name c = .ok (.ok t, c')) :
    Checkpoint.Answers fs parse c₀ name t ∧ From fs parse c₀ c' := by
  unfold Loader.fetch at hrun
  split at hrun
  · cases hrun
  · rename_i result c₁ opened htensor
    cases hrun
    obtain ⟨hanswers, hsame, hkeeps⟩ := tensor_ok h.keeps htensor
    exact ⟨h.same.answers hanswers, h.same.trans hsame, hkeeps⟩

/-- The inventory has the shapes of what is answered. -/
def Inventoried (fs : FileSystem) (parse : Text → Option Json) (c₀ : Checkpoint)
    (shapes : TextMap Shape) : Prop :=
  ∀ name shape, shapes.lookup name = some shape →
    ∃ t, Checkpoint.Answers fs parse c₀ name t ∧ t.shape = shape

theorem From.inventory {names : List Text} {shapes : TextMap Shape} (h : From fs parse c₀ c)
    (hrun : inventory fs parse names c = .ok (.ok shapes, c')) :
    Inventoried fs parse c₀ shapes ∧ From fs parse c₀ c' := by
  refine Fallible.fold_returns (I := fun _ shapes c => Inventoried fs parse c₀ shapes ∧
    From fs parse c₀ c) ?_ ⟨?_, h⟩ hrun
  · intro name rest shapes c shapes' c' hI hturn
    obtain ⟨hshapes, hfrom⟩ := hI
    obtain ⟨t, c₁, hfetch, hpure⟩ := Fallible.of_bind hturn
    cases hpure
    obtain ⟨hanswers, hfrom'⟩ := hfrom.fetch hfetch
    refine ⟨fun other shape hother => ?_, hfrom'⟩
    rw [lookup_emplace] at hother
    by_cases hnew : other = name ∧ shapes.lookup name = none
    · rw [if_pos hnew] at hother
      cases hother
      exact ⟨t, hnew.1 ▸ hanswers, rfl⟩
    · rw [if_neg hnew] at hother
      exact hshapes other shape hother
  · intro name shape hnone
    cases hnone

theorem From.buildWeightMap {config : ParsedConfig} {map : WeightMap} (h : From fs parse c₀ c)
    (hrun : buildWeightMap fs parse config c = .ok (.ok map, c')) :
    (∃ shapes, Inventoried fs parse c₀ shapes ∧
      WeightMap.Classifies config.toConfig shapes map) ∧ From fs parse c₀ c' := by
  unfold Loader.buildWeightMap at hrun
  obtain ⟨c₁, c₂, hget, hrun⟩ := Fallible.of_bind hrun
  cases hget
  obtain ⟨shapes, c₃, hinventory, hrun⟩ := Fallible.of_bind hrun
  obtain ⟨hshapes, hfrom⟩ := h.inventory hinventory
  obtain ⟨hmap, rfl⟩ := Prod.ext_iff.mp (Except.ok.inj hrun)
  exact ⟨⟨shapes, hshapes, WeightMap.classifies_of_ok hmap⟩, hfrom⟩

/-- What is materialized has been answered. -/
structure Drawn (fs : FileSystem) (parse : Text → Option Json) (c₀ : Checkpoint)
    (sources : List (Sigma fun _ : Text => Text)) (model : Materialized) : Prop where
  weights : ∀ name t, model.weights.lookup name = some t →
    ∃ source, ⟨name, source⟩ ∈ sources ∧ Checkpoint.Answers fs parse c₀ source t
  bySource : ∀ source t, model.bySource.lookup source = some t →
    Checkpoint.Answers fs parse c₀ source t

theorem From.resolve {bySource : TextMap TensorView} {source : Text} {t : TensorView}
    (h : From fs parse c₀ c)
    (hsource : ∀ source t, bySource.lookup source = some t →
      Checkpoint.Answers fs parse c₀ source t)
    (hrun : resolve fs parse bySource source c = .ok (.ok t, c')) :
    Checkpoint.Answers fs parse c₀ source t ∧ From fs parse c₀ c' := by
  unfold Loader.resolve at hrun
  cases hkept : bySource.lookup source with
  | some kept =>
      rw [hkept] at hrun
      cases hrun
      exact ⟨hsource source t hkept, h⟩
  | none =>
      rw [hkept] at hrun
      exact h.fetch hrun

/-- **One weight** becomes a tensor. -/
theorem From.materializeTurn {sources : List (Sigma fun _ : Text => Text)}
    {model model' : Materialized} {weight : Sigma fun _ : Text => Text}
    (h : From fs parse c₀ c) (hmem : weight ∈ sources) (hdrawn : Drawn fs parse c₀ sources model)
    (hrun : materializeTurn fs parse model weight c = .ok (.ok model', c')) :
    Drawn fs parse c₀ sources model' ∧ From fs parse c₀ c' := by
  unfold Loader.materializeTurn at hrun
  obtain ⟨t, c₁, hresolve, hrun⟩ := Fallible.of_bind hrun
  obtain ⟨hanswers, hfrom⟩ := h.resolve hdrawn.bySource hresolve
  split at hrun
  · cases hrun
  · cases hrun
    refine ⟨⟨fun name other hother => ?_, fun source other hother => ?_⟩, hfrom⟩
    · rw [lookup_emplace] at hother
      by_cases hnew : name = weight.1 ∧ model.weights.lookup weight.1 = none
      · rw [if_pos hnew] at hother
        cases hother
        exact ⟨weight.2, hnew.1 ▸ hmem, hanswers⟩
      · rw [if_neg hnew] at hother
        exact hdrawn.weights name other hother
    · rw [lookup_emplace] at hother
      by_cases hnew : source = weight.2 ∧ model.bySource.lookup weight.2 = none
      · rw [if_pos hnew] at hother
        cases hother
        exact hnew.1 ▸ hanswers
      · rw [if_neg hnew] at hother
        exact hdrawn.bySource source other hother

theorem From.materialize {sources : List (Sigma fun _ : Text => Text)} {model : Materialized}
    (h : From fs parse c₀ c)
    (hrun : Fallible.fold (Loader.materializeTurn fs parse) sources ⟨∅, ∅⟩ c =
    .ok (.ok model, c')) :
    Drawn fs parse c₀ sources model := by
  refine (Fallible.fold_returns (I := fun rest model c =>
    (∀ weight ∈ rest, weight ∈ sources) ∧ Drawn fs parse c₀ sources model ∧
      From fs parse c₀ c) ?_ ⟨fun _ hmem => hmem, ⟨?_, ?_⟩, h⟩ hrun).2.1
  · intro weight rest model c model' c' hI hturn
    obtain ⟨hrest, hdrawn, hfrom⟩ := hI
    have hnext := hfrom.materializeTurn (hrest weight (by simp)) hdrawn hturn
    exact ⟨fun other hother => hrest other (List.mem_cons_of_mem _ hother), hnext⟩
  · intro name t hnone
    cases hnone
  · intro source t hnone
    cases hnone

end Loader

/-! ### The weights of a loaded model

Shapes that a config expects have no zero in them, and so the weights that match them are not
empty. -/

/-- Every dim that a config makes the loader expect is positive. -/
theorem WeightMap.expected_dims_pos {config : ParsedConfig} (hp : config.Positive)
    (hn : config.Narrow) {w : WeightMap.ExpectedWeight}
    (hw : w ∈ WeightMap.expectedWeights config.toConfig) : ∀ d ∈ w.dims, 0 < d := by
  obtain ⟨hq, -, hkv, -⟩ := ParsedConfig.rows_lt hp hn
  have hhidden := hp.hiddenSize
  have hinter := hp.intermediateSize
  have hvocab := hp.vocabSize
  have hrows : ∀ row ∈ WeightMap.layerRows config.toConfig, ∀ d ∈ row.dims, 0 < d := by
    intro row hrow
    unfold WeightMap.layerRows at hrow
    dsimp only at hrow
    simp only [List.mem_append, List.mem_cons, List.not_mem_nil, or_false] at hrow
    rcases hrow with (hproj | hbias) | hmlp
    · rcases hproj with rfl | rfl | rfl | rfl | rfl <;> simp [hq, hkv, hhidden]
    · by_cases hhas : config.attentionBias = true
      · rw [if_pos hhas] at hbias
        rcases List.mem_append.mp hbias with hbias | hout
        · simp only [List.mem_cons, List.not_mem_nil, or_false] at hbias
          rcases hbias with rfl | rfl | rfl <;> simp [hq, hkv]
        · by_cases hllama : config.architecture = .llama
          · rw [if_pos hllama, List.mem_singleton] at hout
            subst hout
            simpa using hhidden
          · rw [if_neg hllama] at hout
            cases hout
      · rw [if_neg hhas] at hbias
        cases hbias
    · rcases hmlp with rfl | rfl | rfl | rfl <;> simp [hhidden, hinter]
  rw [WeightMap.expectedWeights_eq] at hw
  rcases List.mem_cons.mp hw with rfl | hw
  · simp [WeightMap.embedWeight, hvocab, hhidden]
  · rcases List.mem_append.mp hw with hw | hw
    · obtain ⟨layer, -, hw⟩ := List.mem_flatMap.mp hw
      obtain ⟨row, hrow, rfl⟩ := List.mem_map.mp hw
      exact hrows row hrow
    · rcases List.mem_cons.mp hw with rfl | hw
      · simp [WeightMap.normWeight, hhidden]
      · rw [List.mem_singleton.mp hw]
        simp [WeightMap.headWeight, hvocab, hhidden]

/-- A weight as the loader gives it. -/
structure TensorView.Loaded (t : TensorView) : Prop where
  laid : t.Laid
  device : t.device = .cpu
  dims_pos : ∀ d ∈ t.shape.dims, 0 < d

/-- The config of a loaded model was accepted, and its weights are views of mapped memory in the
shapes of the config. -/
structure LoadedModel.Sound (model : LoadedModel) : Prop where
  positive : model.config.Positive
  narrow : model.config.Narrow
  weights : ∀ name t, model.weights.lookup name = some t → t.Loaded

/-- **What `load_model` accepts** is sound. -/
theorem loadModel_sound {files : ModelFiles} {parse : Text → Option Json}
    {numbers : Text → Numbers} {dir : Text} {model : LoadedModel}
    (h : loadModel files parse numbers dir = .ok (.ok model)) : model.Sound := by
  unfold loadModel at h
  split at h
  · cases h
  · rename_i config hconfig
    have haccepted : config.Positive ∧ config.Narrow := by
      unfold loadModelConfig at hconfig
      split at hconfig
      · cases hconfig
      · split at hconfig
        · rename_i hparsed
          cases hconfig
          exact parseModelConfig_accepted hparsed
        · cases hconfig
    obtain ⟨⟨opened, paths⟩, hopen, h⟩ := bind_eq_ok.mp h
    cases opened with
    | error status => cases h
    | ok c₀ =>
        obtain ⟨⟨result, c'⟩, hrun, h⟩ := bind_eq_ok.mp h
        cases h
        have hfrom : Loader.From files.toFileSystem parse c₀ c₀ :=
          ⟨Checkpoint.SameIndex.refl c₀, Checkpoint.openDir_keeps hopen⟩
        unfold Loader.fromCheckpoint at hrun
        obtain ⟨map, c₁, hmap, hrun⟩ := Fallible.of_bind hrun
        obtain ⟨⟨shapes, hshapes, hclass⟩, hfrom₁⟩ := hfrom.buildWeightMap hmap
        obtain ⟨_, c₂, hmissing, hrun⟩ := Fallible.of_bind hrun
        obtain ⟨-, rfl⟩ := Prod.ext_iff.mp (Except.ok.inj hmissing)
        obtain ⟨drawn, c₃, hloop, hrun⟩ := Fallible.of_bind hrun
        cases hrun
        have hdrawn := hfrom₁.materialize hloop
        refine ⟨haccepted.1, haccepted.2, fun name t ht => ?_⟩
        obtain ⟨source, hsource, hanswers⟩ := hdrawn.weights name t ht
        obtain ⟨w, hw, -, -, shape, hshape, hdims⟩ :=
          hclass.sources name source (AList.mem_lookup_iff.mpr hsource)
        obtain ⟨t', hanswers', rfl⟩ := hshapes source shape hshape
        cases hanswers.unique hanswers'
        obtain ⟨hlaid, hdevice⟩ := hanswers.view
        refine ⟨hlaid, hdevice, fun d hd => ?_⟩
        have hpos := WeightMap.expected_dims_pos haccepted.1 haccepted.2 hw (d : Int)
          (by rw [← hdims]; exact List.mem_map_of_mem hd)
        omega

end InferenceEngine
