/-
A weight map names every tensor and every weight once.

A name of a layer is two fixed parts around the decimal of the layer, and the decimal ends at
the next dot, so the layer and the row can be read off the name.  The expected names are thus
distinct, and so are the sources but for a tied head.  The rest is what the two loops keep of
what they have seen.
-/
import InferenceEngine.Model.WeightMap
import InferenceEngine.Proofs.Load

namespace InferenceEngine.WeightMap

/-! ### Names of layers

The decimal of the layer stands between two dots.  Two names of layers are equal only if the
rows and the layers are. -/

theorem ascii_append (s t : String) : ascii (s ++ t) = ascii s ++ ascii t := by
  simp [ascii]

theorem ascii_digits (n : Nat) :
    ascii (toString n) = (Nat.toDigits 10 n).map fun c => UInt8.ofNat c.toNat := by
  show (Nat.repr n).toList.map _ = _
  rw [Nat.toList_repr]

private theorem digit_bounds {n : Nat} {c : Char} (hc : c ∈ Nat.toDigits 10 n) :
    48 ≤ c.toNat ∧ c.toNat ≤ 57 := by
  have hdigit := Nat.isDigit_of_mem_toDigits (by decide) (by decide) hc
  simp only [Char.isDigit, Bool.and_eq_true, decide_eq_true_eq] at hdigit
  exact ⟨hdigit.1, hdigit.2⟩

theorem dot_notMem_digits (n : Nat) : (0x2E : UInt8) ∉ ascii (toString n) := by
  rw [ascii_digits, List.mem_map]
  intro h
  obtain ⟨c, hc, hdot⟩ := h
  have hb := digit_bounds hc
  have hnat := congrArg UInt8.toNat hdot
  rw [UInt8.toNat_ofNat_of_lt' (by show c.toNat < 256; omega)] at hnat
  have : (0x2E : UInt8).toNat = 46 := rfl
  omega

theorem ascii_digits_inj {n n' : Nat} (h : ascii (toString n) = ascii (toString n')) : n = n' := by
  have hback : ∀ k : Nat, (ascii (toString k)).map (fun b => Char.ofNat b.toNat)
      = Nat.toDigits 10 k := by
    intro k
    rw [ascii_digits, List.map_map]
    refine (List.map_congr_left fun c hc => ?_).trans (List.map_id _)
    have hb := digit_bounds hc
    show Char.ofNat (UInt8.ofNat c.toNat).toNat = c
    rw [UInt8.toNat_ofNat_of_lt' (by show c.toNat < 256; omega), Char.ofNat_toNat]
  have hdigits : Nat.toDigits 10 n = Nat.toDigits 10 n' := by
    rw [← hback n, ← hback n', h]
  have hvalue := congrArg (fun cs => Nat.ofDigitChars 10 cs 0) hdigits
  simpa [Nat.ofDigitChars_ten_toDigits] using hvalue

/-- What stands in front of the first dot of a name can be read off it. -/
private theorem append_dot_inj {a a' rest rest' : Text} (ha : (0x2E : UInt8) ∉ a)
    (ha' : (0x2E : UInt8) ∉ a') (h : a ++ 0x2E :: rest = a' ++ 0x2E :: rest') :
    a = a' ∧ rest = rest' := by
  induction a generalizing a' with
  | nil =>
      cases a' with
      | nil => exact ⟨rfl, (List.cons.inj h).2⟩
      | cons x a' => exact absurd (by simp [(List.cons.inj h).1]) ha'
  | cons x a ih =>
      cases a' with
      | nil => exact absurd (by simp [(List.cons.inj h).1]) ha
      | cons x' a' =>
          obtain ⟨rfl, htail⟩ := List.cons.inj h
          obtain ⟨rfl, hrest⟩ := ih (fun hx => ha (List.mem_cons_of_mem _ hx))
            (fun hx => ha' (List.mem_cons_of_mem _ hx)) htail
          exact ⟨rfl, hrest⟩

/-- A name with the number of a layer in it. -/
def layerName (front : Text) (layer : Nat) (rest : Text) : Text :=
  front ++ (ascii (toString layer) ++ 0x2E :: rest)

theorem layerName_inj {front rest rest' : Text} {layer layer' : Nat}
    (h : layerName front layer rest = layerName front layer' rest') :
    layer = layer' ∧ rest = rest' := by
  have htail := List.append_cancel_left h
  obtain ⟨hdigits, hrest⟩ := append_dot_inj (dot_notMem_digits layer) (dot_notMem_digits layer')
    htail
  exact ⟨ascii_digits_inj hdigits, hrest⟩

theorem layerName_ne {front name : Text} (h : ¬front <+: name) (layer : Nat) (rest : Text) :
    layerName front layer rest ≠ name := fun heq => h ⟨_, heq⟩

theorem expected_canonical (layer : Nat) (row : LayerRow) :
    (row.expected layer).canonical = layerName (ascii "layers.") layer (ascii row.canonical) := by
  show ascii (_ ++ _ ++ _ ++ _) = _
  rw [ascii_append, ascii_append, ascii_append, List.append_assoc, List.append_assoc]
  rfl

theorem expected_source (layer : Nat) (row : LayerRow) :
    (row.expected layer).source
      = layerName (ascii "model.layers.") layer (ascii row.source) := by
  show ascii (_ ++ _ ++ _ ++ _) = _
  rw [ascii_append, ascii_append, ascii_append, List.append_assoc, List.append_assoc]
  rfl

/-! ### The expected weights

The embedding, the rows of every layer, the norm and the head.  A tied head has the source of
the embedding, and no other two have one in common. -/

variable (config : Config)

/-- The rows of all layers. -/
def layerWeights : List ExpectedWeight :=
  (List.range config.numLayers.toNat).flatMap fun layer =>
    (layerRows config).map (LayerRow.expected layer)

/-- The embedding. -/
def embedWeight : ExpectedWeight :=
  ⟨ascii "embed_tokens.weight", ascii "model.embed_tokens.weight",
    [config.vocabSize, config.hiddenSize]⟩

/-- The final norm. -/
def normWeight : ExpectedWeight :=
  ⟨ascii "final_norm.weight", ascii "model.norm.weight", [config.hiddenSize]⟩

/-- The projection to logits, which may be the embedding. -/
def headWeight : ExpectedWeight :=
  ⟨ascii "lm_head.weight",
    if config.tieWordEmbeddings then ascii "model.embed_tokens.weight" else ascii "lm_head.weight",
    [config.vocabSize, config.hiddenSize]⟩

theorem expectedWeights_eq : expectedWeights config
    = embedWeight config :: (layerWeights config ++ [normWeight config, headWeight config]) := by
  have hfold : ∀ (layers : List Nat) (out : List ExpectedWeight),
      layers.foldl (addLayerWeights config) out
        = out ++ layers.flatMap fun layer => (layerRows config).map (LayerRow.expected layer) := by
    intro layers
    induction layers with
    | nil => intro out; simp
    | cons layer layers ih =>
        intro out
        rw [List.foldl_cons, ih, addLayerWeights, List.flatMap_cons, List.append_assoc]
  unfold expectedWeights
  simp only [hfold]
  rfl

/-- The names of a row. -/
def LayerRow.names (row : LayerRow) : Text × Text := (ascii row.canonical, ascii row.source)

/-- The names of a layer are distinct, inside and in the checkpoint. -/
theorem layerRows_distinct : ((layerRows config).map LayerRow.names).Pairwise fun names names' =>
    names.1 ≠ names'.1 ∧ names.2 ≠ names'.2 := by
  obtain ⟨architecture, _, _, _, _, _, _, _, _, attentionBias⟩ := config
  -- the names depend on the two flags alone
  have hflags : ∀ architecture attentionBias,
      ((layerRows ⟨architecture, 0, 0, 0, 0, 0, 0, 0, false, attentionBias⟩).map
        LayerRow.names).Pairwise fun names names' => names.1 ≠ names'.1 ∧ names.2 ≠ names'.2 := by
    intro architecture attentionBias
    cases architecture <;> cases attentionBias <;> decide
  have h := hflags architecture attentionBias
  cases architecture <;> cases attentionBias <;> exact h

theorem mem_layerWeights {w : ExpectedWeight} (h : w ∈ layerWeights config) :
    ∃ (layer : Nat) (row : LayerRow), w = row.expected layer := by
  obtain ⟨layer, -, hw⟩ := List.mem_flatMap.mp h
  obtain ⟨row, -, rfl⟩ := List.mem_map.mp hw
  exact ⟨layer, row, rfl⟩

/-- Neither the layer nor the row of a weight can be mistaken. -/
theorem layerWeights_pairwise : (layerWeights config).Pairwise fun w w' =>
    w.canonical ≠ w'.canonical ∧ w.source ≠ w'.source := by
  unfold layerWeights
  rw [List.pairwise_flatMap]
  constructor
  · intro layer _
    rw [List.pairwise_map]
    refine (List.pairwise_map.mp (layerRows_distinct config)).imp ?_
    intro row row' hnames
    simp only [expected_canonical, expected_source]
    exact ⟨fun heq => hnames.1 (layerName_inj heq).2, fun heq => hnames.2 (layerName_inj heq).2⟩
  · refine List.nodup_range.imp ?_
    intro layer layer' hne w hw w' hw'
    obtain ⟨row, -, rfl⟩ := List.mem_map.mp hw
    obtain ⟨row', -, rfl⟩ := List.mem_map.mp hw'
    simp only [expected_canonical, expected_source]
    exact ⟨fun heq => hne (layerName_inj heq).1, fun heq => hne (layerName_inj heq).1⟩

/-- A name outside the layers. -/
theorem layerWeights_ne {w : ExpectedWeight} (h : w ∈ layerWeights config) {canonical source : Text}
    (hcanonical : ¬ascii "layers." <+: canonical) (hsource : ¬ascii "model.layers." <+: source) :
    w.canonical ≠ canonical ∧ w.source ≠ source := by
  obtain ⟨layer, row, rfl⟩ := mem_layerWeights config h
  rw [expected_canonical, expected_source]
  exact ⟨layerName_ne hcanonical _ _, layerName_ne hsource _ _⟩

theorem headWeight_source : (headWeight config).source
    = if config.tieWordEmbeddings then ascii "model.embed_tokens.weight"
      else ascii "lm_head.weight" := rfl

/-- **The expected names are distinct**, and so are the sources but for a tied head. -/
theorem expectedWeights_pairwise : (expectedWeights config).Pairwise fun w w' =>
    w.canonical ≠ w'.canonical ∧
      (w.source = w'.source → config.tieWordEmbeddings = true ∧
        w.canonical = ascii "embed_tokens.weight" ∧ w'.canonical = ascii "lm_head.weight") := by
  have hembed : ∀ w ∈ layerWeights config, w.canonical ≠ (embedWeight config).canonical ∧
      w.source ≠ (embedWeight config).source := fun w hw =>
    layerWeights_ne config hw (by decide : ¬ascii "layers." <+: ascii "embed_tokens.weight")
      (by decide : ¬ascii "model.layers." <+: ascii "model.embed_tokens.weight")
  have hnorm : ∀ w ∈ layerWeights config, w.canonical ≠ (normWeight config).canonical ∧
      w.source ≠ (normWeight config).source := fun w hw =>
    layerWeights_ne config hw (by decide : ¬ascii "layers." <+: ascii "final_norm.weight")
      (by decide : ¬ascii "model.layers." <+: ascii "model.norm.weight")
  have hhead : ∀ w ∈ layerWeights config, w.canonical ≠ (headWeight config).canonical ∧
      w.source ≠ (headWeight config).source := by
    intro w hw
    refine layerWeights_ne config hw
      (by decide : ¬ascii "layers." <+: ascii "lm_head.weight") ?_
    rw [headWeight_source]
    cases config.tieWordEmbeddings with
    | false => exact (by decide : ¬ascii "model.layers." <+: ascii "lm_head.weight")
    | true => exact (by decide : ¬ascii "model.layers." <+: ascii "model.embed_tokens.weight")
  rw [expectedWeights_eq, List.pairwise_cons, List.pairwise_append]
  refine ⟨fun w hw => ?_, ?_, ?_, fun w hw w' hw' => ?_⟩
  · -- the embedding and what comes after it
    rcases List.mem_append.mp hw with hw | hw
    · obtain ⟨hcanonical, hsource⟩ := hembed w hw
      exact ⟨Ne.symm hcanonical, fun heq => absurd heq.symm hsource⟩
    · rcases List.mem_cons.mp hw with rfl | hw
      · exact ⟨(by decide : ascii "embed_tokens.weight" ≠ ascii "final_norm.weight"),
          fun heq => absurd heq
            (by decide : ascii "model.embed_tokens.weight" ≠ ascii "model.norm.weight")⟩
      · rw [List.mem_singleton.mp hw]
        refine ⟨(by decide : ascii "embed_tokens.weight" ≠ ascii "lm_head.weight"),
          fun heq => ⟨?_, rfl, rfl⟩⟩
        by_contra htie
        rw [headWeight_source, if_neg htie] at heq
        exact absurd heq
          (by decide : ascii "model.embed_tokens.weight" ≠ ascii "lm_head.weight")
  · exact (layerWeights_pairwise config).imp fun h => ⟨h.1, fun heq => absurd heq h.2⟩
  · refine List.pairwise_pair.mpr
      ⟨(by decide : ascii "final_norm.weight" ≠ ascii "lm_head.weight"), fun heq => ?_⟩
    rw [headWeight_source] at heq
    cases htie : config.tieWordEmbeddings with
    | false =>
        rw [htie] at heq
        exact absurd heq (by decide : ascii "model.norm.weight" ≠ ascii "lm_head.weight")
    | true =>
        rw [htie] at heq
        exact absurd heq
          (by decide : ascii "model.norm.weight" ≠ ascii "model.embed_tokens.weight")
  · rcases List.mem_cons.mp hw' with rfl | hw'
    · exact ⟨(hnorm w hw).1, fun heq => absurd heq (hnorm w hw).2⟩
    · rw [List.mem_singleton.mp hw']
      exact ⟨(hhead w hw).1, fun heq => absurd heq (hhead w hw).2⟩

/-! ### The loop over the expected weights

Each weight is claimed, found missing or refused for its shape.  The books say of every weight
already seen which of these it was. -/

variable {config} {inventory : TextMap Shape}

/-- The inventory has the source of the weight in another shape. -/
def Mismatch (inventory : TextMap Shape) (w : ExpectedWeight) : Prop :=
  ∃ shape, inventory.lookup w.source = some shape ∧ shapeDims shape ≠ w.dims

/-- What the loop has built from the weights in `done`. -/
structure Claiming (inventory : TextMap Shape) (done : List ExpectedWeight) (map : WeightMap)
    (claimed : List Text) : Prop where
  lookup : ∀ canonical source, map.canonicalToSource.lookup canonical = some source ↔
    ∃ w ∈ done, w.canonical = canonical ∧ w.source = source ∧ source ∈ inventory
  missing : map.report.missing = (done.filter fun w => w.source ∉ inventory).map
    ExpectedWeight.canonical
  claimed : ∀ source, source ∈ claimed ↔ source ∈ inventory ∧ ∃ w ∈ done, w.source = source
  shapes : ∀ w ∈ done, ¬Mismatch inventory w
  ignored : map.report.ignored = []
  unexpected : map.report.unexpected = []

theorem claiming_nil : Claiming inventory [] ⟨∅, { }⟩ [] where
  lookup := by simp
  missing := rfl
  claimed := by simp
  shapes := by simp
  ignored := rfl
  unexpected := rfl

variable {done : List ExpectedWeight} {map : WeightMap} {claimed : List Text} {w : ExpectedWeight}

/-- A weight whose source is not there. -/
theorem Claiming.absent (h : Claiming inventory done map claimed)
    (hw : inventory.lookup w.source = none) :
    Claiming inventory (done ++ [w])
      { map with report.missing := map.report.missing ++ [w.canonical] } claimed := by
  have hnot : w.source ∉ inventory := AList.lookup_eq_none.mp hw
  refine ⟨fun canonical source => ?_, ?_, fun source => ?_, fun w' hw' => ?_, h.ignored,
    h.unexpected⟩
  · rw [h.lookup]
    constructor
    · intro hold
      obtain ⟨w', hw', hrest⟩ := hold
      exact ⟨w', List.mem_append_left _ hw', hrest⟩
    · intro hnew
      obtain ⟨w', hw', hcanonical, hsource, hmem⟩ := hnew
      rcases List.mem_append.mp hw' with hw' | hw'
      · exact ⟨w', hw', hcanonical, hsource, hmem⟩
      · rw [List.mem_singleton.mp hw'] at hsource
        exact absurd (hsource ▸ hmem) hnot
  · show map.report.missing ++ [w.canonical] = _
    rw [h.missing, List.filter_append, List.map_append]
    simp [hnot]
  · rw [h.claimed]
    constructor
    · intro hold
      obtain ⟨hmem, w', hw', hsource⟩ := hold
      exact ⟨hmem, w', List.mem_append_left _ hw', hsource⟩
    · intro hnew
      obtain ⟨hmem, w', hw', hsource⟩ := hnew
      rcases List.mem_append.mp hw' with hw' | hw'
      · exact ⟨hmem, w', hw', hsource⟩
      · rw [List.mem_singleton.mp hw'] at hsource
        exact absurd (hsource ▸ hmem) hnot
  · rcases List.mem_append.mp hw' with hw' | hw'
    · exact h.shapes w' hw'
    · rw [List.mem_singleton.mp hw']
      intro hmis
      obtain ⟨shape, hshape, -⟩ := hmis
      rw [hw] at hshape
      cases hshape

/-- A weight whose source is there in its shape. -/
theorem Claiming.present (h : Claiming inventory done map claimed) {shape : Shape}
    (hw : inventory.lookup w.source = some shape) (hdims : shapeDims shape = w.dims)
    (hnew : ∀ w' ∈ done, w'.canonical ≠ w.canonical) :
    Claiming inventory (done ++ [w])
      { map with canonicalToSource := (emplace map.canonicalToSource w.canonical w.source).1 }
      (claimed.insert w.source) := by
  have hmem : w.source ∈ inventory := AList.lookup_isSome.mp (by rw [hw]; rfl)
  have hfree : map.canonicalToSource.lookup w.canonical = none := by
    cases hl : map.canonicalToSource.lookup w.canonical with
    | none => rfl
    | some source =>
        obtain ⟨w', hw', hcanonical, -⟩ := (h.lookup _ _).mp hl
        exact absurd hcanonical (hnew w' hw')
  refine ⟨fun canonical source => ?_, ?_, fun source => ?_, fun w' hw' => ?_, h.ignored,
    h.unexpected⟩
  · show (emplace _ _ _).1.lookup canonical = some source ↔ _
    rw [lookup_emplace]
    by_cases hc : canonical = w.canonical
    · subst hc
      rw [if_pos ⟨rfl, hfree⟩]
      constructor
      · intro hs
        cases hs
        exact ⟨w, by simp, rfl, rfl, hmem⟩
      · intro hex
        obtain ⟨w', hw', hcanonical, hsource, -⟩ := hex
        rcases List.mem_append.mp hw' with hw' | hw'
        · exact absurd hcanonical (hnew w' hw')
        · rw [← hsource, List.mem_singleton.mp hw']
    · rw [if_neg fun hand => hc hand.1, h.lookup]
      constructor
      · intro hold
        obtain ⟨w', hw', hrest⟩ := hold
        exact ⟨w', List.mem_append_left _ hw', hrest⟩
      · intro hex
        obtain ⟨w', hw', hcanonical, hrest⟩ := hex
        rcases List.mem_append.mp hw' with hw' | hw'
        · exact ⟨w', hw', hcanonical, hrest⟩
        · rw [List.mem_singleton.mp hw'] at hcanonical
          exact absurd hcanonical.symm hc
  · show map.report.missing = _
    rw [h.missing, List.filter_append, List.map_append]
    simp [hmem]
  · rw [List.mem_insert_iff, h.claimed]
    constructor
    · intro hor
      rcases hor with rfl | hold
      · exact ⟨hmem, w, by simp, rfl⟩
      · obtain ⟨hin, w', hw', hsource⟩ := hold
        exact ⟨hin, w', List.mem_append_left _ hw', hsource⟩
    · intro hex
      obtain ⟨hin, w', hw', hsource⟩ := hex
      rcases List.mem_append.mp hw' with hw' | hw'
      · exact Or.inr ⟨hin, w', hw', hsource⟩
      · rw [List.mem_singleton.mp hw'] at hsource
        exact Or.inl hsource.symm
  · rcases List.mem_append.mp hw' with hw' | hw'
    · exact h.shapes w' hw'
    · rw [List.mem_singleton.mp hw']
      intro hmis
      obtain ⟨shape', hshape, hne⟩ := hmis
      rw [hw] at hshape
      cases hshape
      exact hne hdims

/-- **The loop** stops at a shape that differs, and keeps its books until then. -/
theorem claimLoop_spec (inventory : TextMap Shape) : ∀ (rest done : List ExpectedWeight)
    (map : WeightMap) (claimed : List Text), Claiming inventory done map claimed →
    (done ++ rest).Pairwise (fun w w' => w.canonical ≠ w'.canonical) →
    (∀ r, claimLoop inventory rest map claimed = .ok r →
      Claiming inventory (done ++ rest) r.1 r.2) ∧
    ((∃ status, claimLoop inventory rest map claimed = .error status) ↔
      ∃ w ∈ rest, Mismatch inventory w) := by
  intro rest
  induction rest with
  | nil =>
      intro done map claimed h _
      refine ⟨fun r hr => ?_, ?_⟩
      · cases hr
        rw [List.append_nil]
        exact h
      · simp [claimLoop]
  | cons w rest ih =>
      intro done map claimed h hdistinct
      have happend : done ++ w :: rest = (done ++ [w]) ++ rest := by simp
      rw [happend] at hdistinct ⊢
      have hmore : (∃ w' ∈ w :: rest, Mismatch inventory w') ↔
          Mismatch inventory w ∨ ∃ w' ∈ rest, Mismatch inventory w' := by simp
      rw [hmore, claimLoop]
      cases hlookup : inventory.lookup w.source with
      | none =>
          have hnot : ¬Mismatch inventory w := (h.absent hlookup).shapes w (by simp)
          rw [or_iff_right hnot]
          exact ih (done ++ [w]) _ claimed (h.absent hlookup) hdistinct
      | some shape =>
          dsimp only
          by_cases hdims : shapeDims shape = w.dims
          · rw [if_neg (not_not.mpr hdims)]
            have hpresent := h.present hlookup hdims fun w' hw' =>
              (List.pairwise_append.mp (List.pairwise_append.mp hdistinct).1).2.2 w' hw' w (by simp)
            rw [or_iff_right (hpresent.shapes w (by simp))]
            exact ih (done ++ [w]) _ _ hpresent hdistinct
          · rw [if_pos hdims]
            refine ⟨fun r hr => ?_, fun _ => Or.inl ⟨shape, hlookup, hdims⟩, fun _ => ⟨_, rfl⟩⟩
            cases hr

/-! ### The loop over the inventory

What nobody has claimed is sorted into what may be ignored and what is unknown. -/

theorem sortLoop_eq (config : Config) (claimed : List Text) : ∀ (names : List Text)
    (report : Report), sortLoop config claimed names report =
      { report with
        ignored := report.ignored ++ names.filter fun name =>
          name ∉ claimed ∧ isIgnoredName config name = true
        unexpected := report.unexpected ++ names.filter fun name =>
          name ∉ claimed ∧ ¬isIgnoredName config name = true } := by
  intro names
  induction names with
  | nil => intro report; simp [sortLoop]
  | cons name names ih =>
      intro report
      rw [sortLoop]
      by_cases hclaimed : name ∈ claimed
      · rw [if_pos hclaimed, ih]
        simp [hclaimed]
      · rw [if_neg hclaimed]
        by_cases hignored : isIgnoredName config name = true
        · rw [if_pos hignored, ih]
          simp [hclaimed, hignored]
        · rw [if_neg hignored, ih]
          simp [hclaimed, hignored]

/-! ### The map

The two loops together put every tensor and every weight in one class. -/

theorem Claiming.claimed_iff (h : Claiming inventory done map claimed) (name : Text) :
    name ∈ claimed ↔ map.Claimed name := by
  rw [h.claimed]
  constructor
  · intro hin
    obtain ⟨hmem, w, hw, hsource⟩ := hin
    exact ⟨w.canonical, (h.lookup _ _).mpr ⟨w, hw, rfl, hsource, hmem⟩⟩
  · intro hclaimed
    obtain ⟨canonical, hlookup⟩ := hclaimed
    obtain ⟨w, hw, -, hsource, hmem⟩ := (h.lookup _ _).mp hlookup
    exact ⟨hmem, w, hw, hsource⟩

/-- No two expected weights have one name. -/
theorem canonicals_nodup (config : Config) :
    ((expectedWeights config).map ExpectedWeight.canonical).Nodup :=
  List.pairwise_map.mpr ((expectedWeights_pairwise config).imp fun h => h.1)

theorem Claiming.mapped_iff (h : Claiming inventory (expectedWeights config) map claimed)
    {w : ExpectedWeight} (hw : w ∈ expectedWeights config) :
    w.canonical ∈ map.canonicalToSource ↔ w.source ∈ inventory := by
  rw [← AList.lookup_isSome, Option.isSome_iff_exists]
  constructor
  · intro hex
    obtain ⟨source, hlookup⟩ := hex
    obtain ⟨w', hw', heq, hsource, hmem⟩ := (h.lookup _ _).mp hlookup
    rw [← List.inj_on_of_nodup_map (canonicals_nodup config) hw' hw heq, hsource]
    exact hmem
  · intro hmem
    exact ⟨w.source, (h.lookup _ _).mpr ⟨w, hw, rfl, rfl, hmem⟩⟩

theorem Claiming.missing_iff (h : Claiming inventory (expectedWeights config) map claimed)
    {w : ExpectedWeight} (hw : w ∈ expectedWeights config) :
    w.canonical ∈ map.report.missing ↔ w.source ∉ inventory := by
  rw [h.missing, List.mem_map]
  constructor
  · intro hex
    obtain ⟨w', hw', heq⟩ := hex
    obtain ⟨hw', habsent⟩ := List.mem_filter.mp hw'
    rw [← List.inj_on_of_nodup_map (canonicals_nodup config) hw' hw heq]
    exact of_decide_eq_true habsent
  · intro habsent
    exact ⟨w, List.mem_filter.mpr ⟨hw, decide_eq_true habsent⟩, rfl⟩

/-- What the second loop makes of the books of the first. -/
theorem Claiming.classifies (h : Claiming inventory (expectedWeights config) map claimed) :
    Classifies config inventory
      { map with report := sortLoop config claimed inventory.keys map.report } := by
  have hreport := sortLoop_eq config claimed inventory.keys map.report
  rw [h.ignored, h.unexpected, List.nil_append, List.nil_append] at hreport
  rw [hreport]
  refine ⟨fun name hname => ?_, fun name hname => ?_, fun name hname => ?_,
    ⟨?_, fun name hname => ?_⟩, fun w hw => ?_, fun w hw => h.mapped_iff hw,
    ⟨?_, fun name hname => ?_⟩, fun canonical source hlookup => ?_,
    fun c c' source hc hc' hne => ?_⟩
  · show (map.Claimed name ∧ _) ∨ (¬map.Claimed name ∧ _) ∨ (¬map.Claimed name ∧ _)
    have hkey : name ∈ inventory.keys := AList.mem_keys.mp hname
    rw [← h.claimed_iff]
    by_cases hin : name ∈ claimed
    · exact Or.inl ⟨hin, by simp [hin], by simp [hin]⟩
    · by_cases hign : isIgnoredName config name = true
      · exact Or.inr (Or.inl ⟨hin, by simp [hin, hign, hkey], by simp [hign]⟩)
      · exact Or.inr (Or.inr ⟨hin, by simp [hign], by simp [hin, hign, hkey]⟩)
  · show map.Claimed name ↔ _
    rw [← h.claimed_iff, h.claimed]
    exact and_iff_right hname
  · show _ ↔ ¬map.Claimed name ∧ _
    rw [← h.claimed_iff]
    change name ∈ List.filter _ _ ↔ _
    rw [List.mem_filter, decide_eq_true_eq]
    exact and_iff_right (AList.mem_keys.mpr hname)
  · refine List.Nodup.append (inventory.keys_nodup.filter _) (inventory.keys_nodup.filter _) ?_
    intro name hign hunexp
    simp only [List.mem_filter, decide_eq_true_eq] at hign hunexp
    exact hunexp.2.2 hign.2.2
  · rcases List.mem_append.mp hname with hname | hname
    · exact AList.mem_keys.mpr (List.mem_of_mem_filter hname)
    · exact AList.mem_keys.mpr (List.mem_of_mem_filter hname)
  · show (w.canonical ∈ map.canonicalToSource ∧ w.canonical ∉ map.report.missing) ∨
      (w.canonical ∉ map.canonicalToSource ∧ w.canonical ∈ map.report.missing)
    rw [h.missing_iff hw, h.mapped_iff hw]
    by_cases hmem : w.source ∈ inventory
    · exact Or.inl ⟨hmem, not_not.mpr hmem⟩
    · exact Or.inr ⟨hmem, hmem⟩
  · show map.report.missing.Nodup
    rw [h.missing]
    exact List.Nodup.sublist (List.Sublist.map _ List.filter_sublist) (canonicals_nodup config)
  · change name ∈ map.report.missing at hname
    rw [h.missing] at hname
    obtain ⟨w, hw, heq⟩ := List.mem_map.mp hname
    exact ⟨w, List.mem_of_mem_filter hw, heq⟩
  · obtain ⟨w, hw, hcanonical, hsource, hmem⟩ := (h.lookup _ _).mp hlookup
    obtain ⟨shape, hshape⟩ := Option.isSome_iff_exists.mp (AList.lookup_isSome.mpr hmem)
    refine ⟨w, hw, hcanonical, hsource, shape, hshape, ?_⟩
    by_contra hdims
    exact h.shapes w hw ⟨shape, hsource ▸ hshape, hdims⟩
  · obtain ⟨w, hw, rfl, hsource, -⟩ := (h.lookup _ _).mp hc
    obtain ⟨w', hw', rfl, hsource', -⟩ := (h.lookup _ _).mp hc'
    have hsame : w.source = w'.source := hsource.trans hsource'.symm
    -- the two stand in the table in one order or the other
    obtain ⟨i, hi, rfl⟩ := List.getElem_of_mem hw
    obtain ⟨j, hj, rfl⟩ := List.getElem_of_mem hw'
    have hpair := List.pairwise_iff_getElem.mp (expectedWeights_pairwise config)
    rcases Nat.lt_trichotomy i j with hlt | rfl | hlt
    · obtain ⟨htie, hboth⟩ := (hpair i j hi hj hlt).2 hsame
      exact ⟨htie, Or.inl hboth⟩
    · exact absurd rfl hne
    · obtain ⟨htie, hboth⟩ := (hpair j i hj hi hlt).2 hsame.symm
      exact ⟨htie, Or.inr ⟨hboth.2, hboth.1⟩⟩

/-- What the walk of a map that is returned has come to. -/
theorem classifies_of_ok {config : Config} {inventory : TextMap Shape} {map : WeightMap}
    (h : buildWeightMap config inventory = .ok map) : Classifies config inventory map := by
  have hspec := claimLoop_spec inventory (expectedWeights config) [] ⟨∅, { }⟩ [] claiming_nil
    ((expectedWeights_pairwise config).imp fun h => h.1)
  unfold buildWeightMap at h
  obtain ⟨r, hr, hpure⟩ := Except.bind_eq_ok.mp h
  cases hpure
  exact (hspec.1 r hr).classifies

/-- **`BuildWeightMap` classifies completely and exclusively**, and refuses an inventory exactly
when it has an expected source in another shape. -/
theorem buildWeightMap_classifies (config : Config) (inventory : TextMap Shape) :
    ((∃ status, buildWeightMap config inventory = .error status) ↔
      ∃ w ∈ expectedWeights config, ∃ shape, inventory.lookup w.source = some shape ∧
        shapeDims shape ≠ w.dims) ∧
    ∀ map, buildWeightMap config inventory = .ok map → Classifies config inventory map := by
  refine ⟨?_, fun map hmap => classifies_of_ok hmap⟩
  have hspec := claimLoop_spec inventory (expectedWeights config) [] ⟨∅, { }⟩ [] claiming_nil
    ((expectedWeights_pairwise config).imp fun h => h.1)
  rw [List.nil_append] at hspec
  unfold buildWeightMap
  refine Iff.trans ?_ hspec.2
  cases claimLoop inventory (expectedWeights config) ⟨∅, { }⟩ [] with
  | error status => exact ⟨fun _ => ⟨status, rfl⟩, fun _ => ⟨status, rfl⟩⟩
  | ok r =>
      constructor
      · intro hex
        obtain ⟨status, hstatus⟩ := hex
        cases hstatus
      · intro hex
        obtain ⟨status, hstatus⟩ := hex
        cases hstatus

end InferenceEngine.WeightMap
