/-
A document that loads makes sense, and its tables are the tokenizer's.

Each loop of the loader is followed over the part of the document it reads: what it has read
makes sense so far, and is what the tables hold so far.
-/
import InferenceEngine.Tokenizer.Document
import InferenceEngine.Proofs.Encode

namespace InferenceEngine

open Except

/-! ### The vocab

The loop takes the entries in the order of the document.  After each of them the tables name the
ids read so far, and nothing else, so a key that comes twice is found in the table already. -/

/-- The tables after some entries of the vocab. -/
structure VocabRead (count : Nat) (done : List (Text × Int)) (seen : List Bool)
    (data : ModelData) : Prop where
  length : seen.length = count ∧ data.idToToken.length = count
  range : ∀ p ∈ done, 0 ≤ p.2 ∧ p.2 < count
  token : ∀ p ∈ done, data.idToToken[p.2.toNat]? = some p.1
  seen : ∀ p ∈ done, seen.getD p.2.toNat false = true
  once : (done.map Prod.snd).Nodup
  lookup : ∀ w id, data.tokenToId.lookup w = some id ↔ (w, id) ∈ done
  noMerges : data.mergeRanks = ∅

private theorem getD_set_self {seen : List Bool} {i : Nat} (h : i < seen.length) :
    (seen.set i true).getD i false = true := by
  rw [List.getD_eq_getElem?_getD, List.getElem?_set_self h]
  rfl

private theorem getD_set_of {seen : List Bool} {i j : Nat} (h : seen.getD j false = true) :
    (seen.set i true).getD j false = true := by
  by_cases hij : i = j
  · subst hij
    by_cases hlt : i < seen.length
    · exact getD_set_self hlt
    · rw [List.set_eq_of_length_le (by omega)]
      exact h
  · rw [List.getD_eq_getElem?_getD, List.getElem?_set_ne hij, ← List.getD_eq_getElem?_getD]
    exact h

/-- One more entry. -/
private theorem VocabRead.step {count : Nat} {done : List (Text × Int)} {seen : List Bool}
    {data : ModelData} (h : VocabRead count done seen data) {token : Text} {id : Int}
    (hrange : 0 ≤ id ∧ id < count) (hfresh : seen.getD id.toNat false ≠ true)
    (hnew : token ∉ done.map Prod.fst) :
    VocabRead count (done ++ [(token, id)]) (seen.set id.toNat true)
      { data with
        idToToken := data.idToToken.set id.toNat token
        tokenToId := (emplace data.tokenToId token id).1 } := by
  obtain ⟨hseen, htokens⟩ := h.length
  have hne : ∀ p ∈ done, id.toNat ≠ p.2.toNat := by
    intro p hp heq
    rw [heq] at hfresh
    exact hfresh (h.seen p hp)
  have hid : id ∉ done.map Prod.snd := by
    intro hmem
    obtain ⟨p, hp, rfl⟩ := List.mem_map.mp hmem
    exact hne p hp rfl
  have hnone : data.tokenToId.lookup token = none := by
    rw [Option.eq_none_iff_forall_ne_some]
    intro id' hid'
    exact hnew (List.mem_map.mpr ⟨_, (h.lookup token id').mp hid', rfl⟩)
  refine ⟨⟨by rw [List.length_set]; exact hseen, by rw [List.length_set]; exact htokens⟩,
    ?_, ?_, ?_, ?_, ?_, h.noMerges⟩
  · intro p hp
    rcases List.mem_append.mp hp with hp | hp
    · exact h.range p hp
    · rw [List.mem_singleton.mp hp]
      exact hrange
  · intro p hp
    show (data.idToToken.set id.toNat token)[p.2.toNat]? = _
    rcases List.mem_append.mp hp with hp | hp
    · rw [List.getElem?_set_ne (hne p hp)]
      exact h.token p hp
    · rw [List.mem_singleton.mp hp]
      exact List.getElem?_set_self (by omega)
  · intro p hp
    rcases List.mem_append.mp hp with hp | hp
    · exact getD_set_of (h.seen p hp)
    · rw [List.mem_singleton.mp hp]
      exact getD_set_self (by omega)
  · rw [List.map_append, List.nodup_append]
    refine ⟨h.once, List.nodup_singleton _, ?_⟩
    rintro a ha b hb rfl
    rw [List.map_singleton, List.mem_singleton] at hb
    rw [hb] at ha
    exact hid ha
  · intro w id'
    show (emplace data.tokenToId token id).1.lookup w = _ ↔ _
    rw [lookup_emplace, List.mem_append, List.mem_singleton]
    by_cases hw : w = token
    · subst hw
      rw [if_pos ⟨rfl, hnone⟩]
      constructor
      · intro heq
        cases heq
        exact Or.inr rfl
      · rintro (hmem | heq)
        · exact absurd (List.mem_map.mpr ⟨_, hmem, rfl⟩) hnew
        · cases heq
          rfl
    · rw [if_neg fun hc => hw hc.1, h.lookup]
      refine ⟨Or.inl, ?_⟩
      rintro (hmem | heq)
      · exact hmem
      · cases heq
        exact absurd rfl hw

private theorem intValue_eq_ok {value : Json} {field : String} {id : Int}
    (h : intValue value field = .ok id) : value = .integer id := by
  unfold intValue at h
  split at h
  · split at h
    · cases h
    · cases h
      rfl
  · cases h

theorem vocabLoop_read (count : Nat) : ∀ (items : List (Text × Json)) (done : List (Text × Int))
    (seen : List Bool) (data data' : ModelData), VocabRead count done seen data →
    (done.map Prod.fst ++ items.map Prod.fst).Nodup →
    vocabLoop count items seen data = .ok data' →
    ∃ vocab seen', items = vocab.map (fun p => (p.1, Json.integer p.2)) ∧
      VocabRead count (done ++ vocab) seen' data' := by
  intro items
  induction items with
  | nil =>
      intro done seen data data' h _ hrun
      cases hrun
      exact ⟨[], seen, rfl, by rwa [List.append_nil]⟩
  | cons item items ih =>
      intro done seen data data' h hkeys hrun
      obtain ⟨token, value⟩ := item
      rw [vocabLoop] at hrun
      obtain ⟨id, hid, hrun⟩ := bind_eq_ok.mp hrun
      split at hrun
      · cases hrun
      rename_i hrange
      split at hrun
      · cases hrun
      rename_i hfresh
      rw [List.map_cons] at hkeys
      have hnew : token ∉ done.map Prod.fst := by
        intro hmem
        exact (List.nodup_append.mp hkeys).2.2 token hmem token List.mem_cons_self rfl
      have hstep := h.step (show 0 ≤ id ∧ id < count by omega) hfresh hnew
      obtain ⟨vocab, seen', rfl, hread⟩ := ih _ _ _ _ hstep
        (by rw [List.map_append, List.append_assoc]; exact hkeys) hrun
      refine ⟨(token, id) :: vocab, seen', ?_, ?_⟩
      · rw [List.map_cons, intValue_eq_ok hid]
      · rwa [List.append_assoc] at hread

/-- The ids of the whole vocab are the first numbers. -/
private theorem VocabRead.ids {vocab : List (Text × Int)} {seen : List Bool} {data : ModelData}
    (h : VocabRead vocab.length vocab seen data) :
    (vocab.map Prod.snd).Perm ((List.range vocab.length).map Int.ofNat) := by
  refine (h.once.subperm ?_).perm_of_length_le ?_
  · intro id hid
    obtain ⟨p, hp, rfl⟩ := List.mem_map.mp hid
    obtain ⟨h0, hlt⟩ := h.range p hp
    refine List.mem_map.mpr ⟨p.2.toNat, List.mem_range.mpr (by omega), ?_⟩
    exact Int.toNat_of_nonneg h0
  · simp

private theorem VocabRead.inverse {vocab : List (Text × Int)} {seen : List Bool}
    {data : ModelData} (h : VocabRead vocab.length vocab seen data) (w : Text) (id : Int) :
    data.tokenToId.lookup w = some id ↔ 0 ≤ id ∧ data.idToToken[id.toNat]? = some w := by
  rw [h.lookup]
  refine ⟨fun hp => ⟨(h.range _ hp).1, h.token _ hp⟩, ?_⟩
  rintro ⟨h0, hw⟩
  have hlt := (List.getElem?_eq_some_iff.mp hw).1
  rw [h.length.2] at hlt
  have hmem : id ∈ vocab.map Prod.snd := by
    rw [h.ids.mem_iff]
    exact List.mem_map.mpr ⟨id.toNat, List.mem_range.mpr hlt, Int.toNat_of_nonneg h0⟩
  obtain ⟨⟨w', id'⟩, hp, rfl⟩ := List.mem_map.mp hmem
  have hw' := h.token _ hp
  rw [hw] at hw'
  cases hw'
  exact hp

/-! ### The merges

A merge is entered under the number of its place in the list.  Its two sides and its product
have to be in the vocab, which is what makes the rank of a pair mean something. -/

/-- What reading some merges does to the tables. -/
structure MergesRead (data : ModelData) (merges : List (Text × Text)) (data' : ModelData) :
    Prop where
  tokens : data'.tokenToId = data.tokenToId ∧ data'.idToToken = data.idToToken
  parts : ∀ p ∈ merges, p.1 ∈ data.tokenToId ∧ p.2 ∈ data.tokenToId ∧
    p.1 ++ p.2 ∈ data.tokenToId
  once : merges.Nodup
  fresh : ∀ p ∈ merges, data.mergeRanks.lookup (mergeKey p.1 p.2) = none
  lookup : ∀ key, data'.mergeRanks.lookup key ≠ none ↔
    data.mergeRanks.lookup key ≠ none ∨ ∃ p ∈ merges, key = mergeKey p.1 p.2

private theorem requireInVocab_eq_ok {tokenToId : TextMap Int} {index : Nat} {a b : Text}
    (h : requireInVocab tokenToId index [a, b] = .ok ()) : a ∈ tokenToId ∧ b ∈ tokenToId := by
  unfold requireInVocab at h
  split at h
  · rename_i ha
    unfold requireInVocab at h
    split at h
    · rename_i hb
      exact ⟨ha, hb⟩
    · cases h
  · cases h

theorem mergesLoop_read : ∀ (entries : List Json) (index : Nat) (data data' : ModelData),
    mergesLoop entries index data = .ok data' →
    ∃ merges, SaysMerges index entries merges ∧ MergesRead data merges data' := by
  intro entries
  induction entries with
  | nil =>
      intro index data data' hrun
      cases hrun
      exact ⟨[], .nil, ⟨rfl, rfl⟩, by simp, List.nodup_nil, by simp, by simp⟩
  | cons entry entries ih =>
      intro index data data' hrun
      rw [mergesLoop] at hrun
      obtain ⟨⟨left, right⟩, hsides, hrun⟩ := bind_eq_ok.mp hrun
      obtain ⟨_, hparts, hrun⟩ := bind_eq_ok.mp hrun
      obtain ⟨hleft, hright⟩ := requireInVocab_eq_ok hparts
      split at hrun
      · cases hrun
      rename_i hproduct
      have hproduct : left ++ right ∈ data.tokenToId := by simpa using hproduct
      cases hlookup : data.mergeRanks.lookup (mergeKey left right) with
      | some rank =>
          simp only [emplace, hlookup] at hrun
          cases hrun
      | none =>
          simp only [emplace, hlookup] at hrun
          obtain ⟨merges, hsays, hread⟩ := ih _ _ _ hrun
          have hinsert : ∀ key, (data.mergeRanks.insert (mergeKey left right)
              (toInt32 index)).lookup key ≠ none ↔
                key = mergeKey left right ∨ data.mergeRanks.lookup key ≠ none := by
            intro key
            by_cases hkey : key = mergeKey left right
            · subst hkey
              simp
            · simp [hkey]
          refine ⟨(left, right) :: merges, .cons hsides hsays, hread.tokens, ?_, ?_, ?_, ?_⟩
          · intro p hp
            rcases List.mem_cons.mp hp with rfl | hp
            · exact ⟨hleft, hright, hproduct⟩
            · exact hread.parts p hp
          · refine List.nodup_cons.mpr ⟨fun hmem => ?_, hread.once⟩
            exact (hinsert _).mpr (Or.inl rfl) (hread.fresh _ hmem)
          · intro p hp
            rcases List.mem_cons.mp hp with rfl | hp
            · exact hlookup
            · by_contra hne
              exact (hinsert _).mpr (Or.inr hne) (hread.fresh p hp)
          · intro key
            rw [hread.lookup key]
            show (data.mergeRanks.insert _ _).lookup key ≠ none ∨ _ ↔ _
            rw [hinsert key]
            simp only [List.mem_cons, exists_eq_or_imp]
            tauto

/-! ### The model

The three parts of the model section are read one after the other, and each refuses what is not
there. -/

/-- What reading the model section of a document gives. -/
structure ModelRead (root : Json) (vocab : List (Text × Int)) (merges : List (Text × Text))
    (data : ModelData) : Prop where
  sections : ∃ fields entries, root.find "model" = some (.object fields) ∧
    (Json.object fields).find "vocab"
      = some (.object (vocab.map fun p => (p.1, Json.integer p.2))) ∧
    (Json.object fields).find "merges" = some (.array entries) ∧ SaysMerges 0 entries merges
  tokens : (vocab.map Prod.fst).Nodup
  ids : (vocab.map Prod.snd).Perm ((List.range vocab.length).map Int.ofNat)
  length : data.idToToken.length = vocab.length
  lookup : ∀ w id, data.tokenToId.lookup w = some id ↔ (w, id) ∈ vocab
  inverse : ∀ w id, data.tokenToId.lookup w = some id ↔
    0 ≤ id ∧ data.idToToken[id.toNat]? = some w
  parts : ∀ p ∈ merges, p.1 ∈ data.tokenToId ∧ p.2 ∈ data.tokenToId ∧
    p.1 ++ p.2 ∈ data.tokenToId
  once : merges.Nodup
  merges : ∀ key, data.mergeRanks.lookup key ≠ none ↔ ∃ p ∈ merges, key = mergeKey p.1 p.2

private theorem distinctKeysFields_mem {fields : List (Text × Json)}
    (h : distinctKeysFields fields = true) {f : Text × Json} (hf : f ∈ fields) :
    f.2.distinctKeys = true := by
  induction fields with
  | nil => cases hf
  | cons g fields ih =>
      obtain ⟨key, value⟩ := g
      rw [distinctKeysFields, Bool.and_eq_true] at h
      rcases List.mem_cons.mp hf with rfl | hf
      · exact h.1
      · exact ih h.2 hf

theorem Json.distinctKeys_find {j value : Json} {key : String} (h : j.distinctKeys = true)
    (hfind : j.find key = some value) : value.distinctKeys = true := by
  unfold Json.find at hfind
  split at hfind
  · rename_i fields
    rw [Json.distinctKeys, Bool.and_eq_true] at h
    obtain ⟨f, hf, rfl⟩ := Option.map_eq_some_iff.mp hfind
    exact distinctKeysFields_mem h.2 (List.mem_of_find?_eq_some hf)
  · cases hfind

theorem Json.distinctKeys_object {fields : List (Text × Json)}
    (h : (Json.object fields).distinctKeys = true) : (fields.map Prod.fst).Nodup := by
  rw [Json.distinctKeys, Bool.and_eq_true] at h
  exact of_decide_eq_true h.1

/-- **The model section.** -/
theorem parseModel_read {root : Json} {data : ModelData} (hkeys : root.distinctKeys = true)
    (h : parseModel root = .ok data) : ∃ vocab merges, ModelRead root vocab merges data := by
  obtain ⟨fields, items, entries, flags, read, hmodel, hvocab, hentries, hids, hranks, hread,
    hmerges⟩ := parseModel_sections h
  have hitems := Json.distinctKeys_object
    (Json.distinctKeys_find (Json.distinctKeys_find hkeys hmodel) hvocab)
  have hstart : VocabRead items.length [] (List.replicate items.length false)
      { flags with idToToken := List.replicate items.length [] } := by
    refine ⟨⟨List.length_replicate, List.length_replicate⟩, by simp, by simp, by simp,
      List.nodup_nil, ?_, hranks⟩
    intro w id
    show flags.tokenToId.lookup w = some id ↔ _
    rw [hids]
    simp
  obtain ⟨vocab, seen, rfl, hvocabRead⟩ := vocabLoop_read _ _ _ _ _ _ hstart
    (by rwa [List.map_nil, List.nil_append]) hread
  rw [List.nil_append, List.length_map] at hvocabRead
  obtain ⟨merges, hsays, hmergesRead⟩ := mergesLoop_read _ _ _ _ hmerges
  obtain ⟨hsame, hsame'⟩ := hmergesRead.tokens
  refine ⟨vocab, merges, ⟨fields, entries, hmodel, hvocab, hentries, hsays⟩, ?_, hvocabRead.ids,
    by rw [hsame', hvocabRead.length.2], ?_, ?_, ?_, hmergesRead.once, ?_⟩
  · rw [List.map_map] at hitems
    exact hitems
  · rw [hsame]
    exact hvocabRead.lookup
  · rw [hsame, hsame']
    exact hvocabRead.inverse
  · rw [hsame]
    exact hmergesRead.parts
  · intro key
    rw [hmergesRead.lookup, hvocabRead.noMerges]
    simp

/-! ### The added tokens

The tokens are sorted by id before they are entered.  A content that the vocab knows must keep
its id, and any other must take the next one, so the two tables stay inverse to each other
through the whole loop. -/

/-- What the check of the sorted tokens says. -/
private theorem checkAddedTokens_spec : ∀ (tokens : List AddedToken) (previous : Option AddedToken)
    (contents : List Text), checkAddedTokens tokens previous contents = .ok () →
    tokens.Pairwise (fun a b => a.id ≤ b.id) →
    (∀ p, previous = some p → ∀ token ∈ tokens, p.id ≤ token.id) →
    (tokens.map AddedToken.id).Pairwise (· < ·) ∧
      (∀ p, previous = some p → ∀ token ∈ tokens, p.id < token.id) ∧
      (tokens.map AddedToken.content).Nodup ∧
      ∀ token ∈ tokens, token.content ∉ contents := by
  intro tokens
  induction tokens with
  | nil =>
      intro previous contents _ _ _
      exact ⟨List.Pairwise.nil, by simp, List.nodup_nil, by simp⟩
  | cons token tokens ih =>
      intro previous contents h hsorted hprevious
      rw [checkAddedTokens] at h
      split at h
      · cases h
      rename_i hdiffers
      split at h
      · cases h
      rename_i hcontents
      obtain ⟨hhead, htail⟩ := List.pairwise_cons.mp hsorted
      obtain ⟨hids, hlater, hunique, hnew⟩ := ih (some token) (token.content :: contents) h htail
        (by
          intro p hp
          cases hp
          exact hhead)
      refine ⟨?_, ?_, ?_, ?_⟩
      · rw [List.map_cons]
        refine List.pairwise_cons.mpr ⟨fun id hid => ?_, hids⟩
        obtain ⟨other, ho, rfl⟩ := List.mem_map.mp hid
        exact hlater token rfl other ho
      · intro p hp other ho
        have hlt : p.id < token.id := by
          refine lt_of_le_of_ne (hprevious p hp token List.mem_cons_self) ?_
          intro heq
          subst hp
          simp [heq] at hdiffers
        rcases List.mem_cons.mp ho with rfl | ho
        · exact hlt
        · exact hlt.trans (hlater token rfl other ho)
      · rw [List.map_cons, List.nodup_cons]
        refine ⟨fun hmem => ?_, hunique⟩
        obtain ⟨other, ho, heq⟩ := List.mem_map.mp hmem
        exact hnew other ho (by rw [heq]; exact List.mem_cons_self)
      · intro other ho
        rcases List.mem_cons.mp ho with rfl | ho
        · simpa using hcontents
        · exact fun hmem => hnew other ho (List.mem_cons_of_mem _ hmem)

/-- **The section of the added tokens.** -/
theorem parseAddedTokens_read {root : Json} {tokens : List AddedToken}
    (h : parseAddedTokens root = .ok tokens) : ∃ read, SaysAdded (root.find "added_tokens") read ∧
      tokens.Perm read ∧ (tokens.map AddedToken.id).Pairwise (· < ·) ∧
      (tokens.map AddedToken.content).Nodup := by
  unfold parseAddedTokens at h
  split at h
  · rename_i hfind
    cases h
    rw [hfind]
    exact ⟨[], .absent, .refl _, List.Pairwise.nil, List.nodup_nil⟩
  · rename_i hfind
    cases h
    rw [hfind]
    exact ⟨[], .null, .refl _, List.Pairwise.nil, List.nodup_nil⟩
  · rename_i entries hfind
    obtain ⟨read, hread, h⟩ := bind_eq_ok.mp h
    obtain ⟨_, hcheck, h⟩ := bind_eq_ok.mp h
    cases h
    have hsorted : (read.mergeSort fun a b => a.id ≤ b.id).Pairwise fun a b => a.id ≤ b.id := by
      have hpairwise := List.pairwise_mergeSort
        (fun (a b c : AddedToken) hab hbc => decide_eq_true
          (le_trans (of_decide_eq_true hab : a.id ≤ b.id) (of_decide_eq_true hbc)))
        (fun (a b : AddedToken) => by simpa using le_total a.id b.id) read
      exact hpairwise.imp of_decide_eq_true
    obtain ⟨hids, -, hcontents, -⟩ := checkAddedTokens_spec _ _ _ hcheck hsorted (by simp)
    rw [hfind]
    exact ⟨read, .entries hread, List.mergeSort_perm _ _, hids, hcontents⟩
  · cases h

namespace BpeTokenizer

/-- The two directions are inverse to each other. -/
def Inverse (t : BpeTokenizer) : Prop :=
  ∀ w id, t.tokenToId.lookup w = some id ↔ 0 ≤ id ∧ t.idToToken[id.toNat]? = some w

/-- The added tokens that take a new id. -/
def past (baseSize : Nat) (added : List AddedToken) : List AddedToken :=
  added.filter fun token => baseSize ≤ token.id.toNat

/-- What entering some added tokens does to the tables. -/
structure Grown (baseSize : Nat) (added : List AddedToken) (t t' : BpeTokenizer) : Prop where
  inverse : t'.Inverse
  tokens : t'.idToToken = t.idToToken ++ (past baseSize added).map AddedToken.content
  ids : (past baseSize added).map (fun token => token.id.toNat)
    = List.range' t.idToToken.length (past baseSize added).length

/-- A content that is the token of its id is in the table already. -/
private theorem Inverse.emplace_known {t : BpeTokenizer} (h : t.Inverse) {token : AddedToken}
    (hid : 0 ≤ token.id) (hsame : t.idToToken[token.id.toNat]? = some token.content) :
    emplace t.tokenToId token.content token.id = (t.tokenToId, token.id, false) := by
  unfold emplace
  rw [(h token.content token.id).mpr ⟨hid, hsame⟩]

/-- A content that takes the next id was not in the table. -/
private theorem Inverse.emplace_next {t : BpeTokenizer} (h : t.Inverse) {token : AddedToken}
    (hid : 0 ≤ token.id) (hnext : token.id.toNat = t.idToToken.length)
    (hcheck : ¬(!(emplace t.tokenToId token.content token.id).2.2 &&
      (emplace t.tokenToId token.content token.id).2.1 != token.id) = true) :
    t.tokenToId.lookup token.content = none := by
  cases hlookup : t.tokenToId.lookup token.content with
  | none => rfl
  | some existing =>
      obtain ⟨h0, hw⟩ := (h _ _).mp hlookup
      have hlt := (List.getElem?_eq_some_iff.mp hw).1
      refine absurd ?_ hcheck
      have hne : existing ≠ token.id := by omega
      simp [emplace, hlookup, hne]

private theorem Inverse.extended {t : BpeTokenizer} (h : t.Inverse) {token : AddedToken}
    (hid : 0 ≤ token.id) (hnext : token.id.toNat = t.idToToken.length)
    (hnone : t.tokenToId.lookup token.content = none) (w : Text) (id : Int) :
    (t.tokenToId.insert token.content token.id).lookup w = some id ↔
      0 ≤ id ∧ (t.idToToken ++ [token.content])[id.toNat]? = some w := by
  by_cases hw : w = token.content
  · subst hw
    rw [AList.lookup_insert]
    constructor
    · intro heq
      cases heq
      exact ⟨hid, by rw [hnext, List.getElem?_concat_length]⟩
    · rintro ⟨h0, hget⟩
      by_cases hlt : id.toNat < t.idToToken.length
      · rw [List.getElem?_append_left hlt] at hget
        rw [(h _ _).mpr ⟨h0, hget⟩] at hnone
        cases hnone
      · have hbound := (List.getElem?_eq_some_iff.mp hget).1
        rw [List.length_append, List.length_singleton] at hbound
        rw [show token.id = id by omega]
  · rw [AList.lookup_insert_ne hw, h]
    constructor
    · rintro ⟨h0, hget⟩
      refine ⟨h0, ?_⟩
      rw [List.getElem?_append_left (List.getElem?_eq_some_iff.mp hget).1]
      exact hget
    · rintro ⟨h0, hget⟩
      refine ⟨h0, ?_⟩
      by_cases hlt : id.toNat < t.idToToken.length
      · rwa [List.getElem?_append_left hlt] at hget
      · have hbound := (List.getElem?_eq_some_iff.mp hget).1
        rw [List.length_append, List.length_singleton] at hbound
        rw [show id.toNat = t.idToToken.length by omega, List.getElem?_concat_length] at hget
        cases hget
        exact absurd rfl hw

private theorem past_cons_of_lt {baseSize : Nat} {token : AddedToken} {added : List AddedToken}
    (h : token.id.toNat < baseSize) : past baseSize (token :: added) = past baseSize added := by
  unfold past
  rw [List.filter_cons_of_neg (by simpa using h)]

private theorem past_cons_of_le {baseSize : Nat} {token : AddedToken} {added : List AddedToken}
    (h : baseSize ≤ token.id.toNat) :
    past baseSize (token :: added) = token :: past baseSize added := by
  unfold past
  rw [List.filter_cons_of_pos (by simpa using h)]

/-- **The loop over the added tokens.** -/
theorem addTokens_grown (baseSize : Nat) : ∀ (added : List AddedToken) (i : Nat)
    (t t' : BpeTokenizer), t.Inverse → baseSize ≤ t.idToToken.length →
    (∀ token ∈ added, 0 ≤ token.id) → addTokens baseSize added i t = .ok t' →
    Grown baseSize added t t' := by
  intro added
  induction added with
  | nil =>
      intro i t t' h _ _ hrun
      cases hrun
      exact ⟨h, by simp [past], by simp [past]⟩
  | cons token added ih =>
      intro i t t' h hbase hids hrun
      have hid := hids token List.mem_cons_self
      have hrest := fun other ho => hids other (List.mem_cons_of_mem token ho)
      rw [addTokens] at hrun
      obtain ⟨t₁, ht₁, hrun⟩ := bind_eq_ok.mp hrun
      unfold placeToken at ht₁
      dsimp only at ht₁ hrun
      by_cases hlt : token.id.toNat < baseSize
      · rw [if_pos hlt] at ht₁
        split at ht₁
        · cases ht₁
        rename_i hsame
        cases ht₁
        have hsame : t.idToToken[token.id.toNat]? = some token.content := by
          rw [List.getElem?_eq_getElem (by omega)]
          rw [List.getD_eq_getElem?_getD, List.getElem?_eq_getElem (by omega)] at hsame
          simpa using hsame
        split at hrun
        · cases hrun
        rw [h.emplace_known hid hsame] at hrun
        have hgrown := fun hinverse hlength => ih _ _ _ hinverse hlength hrest hrun
        obtain ⟨hinverse, htokens, hrange⟩ := hgrown h hbase
        exact ⟨hinverse, by rw [past_cons_of_lt hlt]; exact htokens,
          by rw [past_cons_of_lt hlt]; exact hrange⟩
      · rw [if_neg hlt] at ht₁
        split at ht₁
        · cases ht₁
        rename_i hnext
        have hnext : token.id.toNat = t.idToToken.length := by simpa using hnext
        cases ht₁
        split at hrun
        · cases hrun
        rename_i hcheck
        have hnone := h.emplace_next hid hnext hcheck
        simp only [emplace, hnone] at hrun
        have hgrown := fun hinverse hlength => ih _ _ _ hinverse hlength hrest hrun
        obtain ⟨hinverse, htokens, hrange⟩ := hgrown (h.extended hid hnext hnone)
          (by rw [List.length_append]; omega)
        refine ⟨hinverse, ?_, ?_⟩
        · rw [past_cons_of_le (by omega), htokens, List.map_cons, List.append_assoc]
          rfl
        · rw [past_cons_of_le (by omega), List.map_cons, hrange, List.length_cons,
            List.range'_succ, hnext, List.length_append]
          rfl

end BpeTokenizer

/-! ### The template

Only the parts in front of the sequence and behind it matter to an encoder.  The loop appends
the ids of the special tokens on the side it is on. -/

private theorem resolveSpecialToken_read {value tp : Json} {size id : Int}
    (h : resolveSpecialToken value tp size = .ok id) :
    SaysSpecial tp value id ∧ 0 ≤ id ∧ id < size := by
  unfold resolveSpecialToken at h
  split at h
  · split at h
    · cases h
    rename_i nameValue hname
    obtain ⟨name, hstring, h⟩ := bind_eq_ok.mp h
    have hstring : nameValue = .string name := by
      unfold stringValue at hstring
      split at hstring
      · cases hstring
        rfl
      · cases hstring
    rw [hstring] at hname
    dsimp only at h
    split at h
    · rename_i map hmap
      split at h
      · cases h
      rename_i entry hentry
      split at h
      · rename_i idValue hids
        obtain ⟨read, hread, h⟩ := bind_eq_ok.mp h
        split at h
        · cases h
        rename_i hrange
        cases h
        rw [intValue_eq_ok hread] at hids
        exact ⟨⟨name, map, entry, hname, hmap, hentry, hids⟩, by omega, by omega⟩
      · cases h
      · cases h
    · cases h
  · cases h

/-- What the loop over a template appends. -/
private theorem templateLoop_read {tp : Json} {size : Int} : ∀ (entries : List Json)
    (seenSequence : Bool) (inserts r : TemplateInserts),
    (seenSequence = false → inserts.after = []) →
    templateLoop tp size entries seenSequence inserts = .ok r →
    ∃ ids, SaysSingle tp entries ids ∧
      r.before ++ r.after = inserts.before ++ inserts.after ++ ids ∧
      ∀ id ∈ ids, 0 ≤ id ∧ id < size := by
  intro entries
  induction entries with
  | nil =>
      intro seenSequence inserts r _ h
      rw [templateLoop] at h
      split at h
      · cases h
        exact ⟨[], .nil, by simp, by simp⟩
      · cases h
  | cons entry entries ih =>
      intro seenSequence inserts r hafter h
      unfold templateLoop at h
      split at h
      · rename_i heq
        cases heq
      · rename_i kind value rest heq
        cases heq
        split at h
        · rename_i hkind
          subst hkind
          split at h
          · cases h
          rename_i hseen
          split at h
          · split at h
            · obtain ⟨ids, hsays, hids, hrange⟩ := ih _ _ _ (by simp) h
              exact ⟨ids, .sequence hsays, hids, hrange⟩
            · cases h
          · cases h
        · rename_i seenSequence inserts _ _ _ _
          split at h
          · rename_i hkind
            subst hkind
            obtain ⟨id, hid, h⟩ := bind_eq_ok.mp h
            obtain ⟨hspecial, hidRange⟩ := resolveSpecialToken_read hid
            by_cases hseen : seenSequence = true
            · rw [if_pos hseen] at h
              obtain ⟨ids, hsays, hids, hrange⟩ := ih _ _ _ (by simp [hseen]) h
              refine ⟨id :: ids, .special hspecial hsays, by simp [hids], ?_⟩
              intro other ho
              rcases List.mem_cons.mp ho with rfl | ho
              · exact hidRange
              · exact hrange other ho
            · rw [if_neg hseen] at h
              have hnil := hafter (by simpa using hseen)
              have hread := fun hnone => ih _ _ _ hnone h
              obtain ⟨ids, hsays, hids, hrange⟩ := hread fun _ => hnil
              refine ⟨id :: ids, .special hspecial hsays, by simp [hids, hnil], ?_⟩
              intro other ho
              rcases List.mem_cons.mp ho with rfl | ho
              · exact hidRange
              · exact hrange other ho
          · cases h
      · cases h

private theorem componentType_eq_ok {part : Json} {label : String} {type : Text}
    (h : componentType part label = .ok type) : part.find "type" = some (.string type) := by
  unfold componentType at h
  split at h
  · split at h
    · cases h
    rename_i value hvalue
    unfold stringValue at h
    split at h
    · cases h
      exact hvalue
    · cases h
  · cases h

/-- The template that the loop over the parts finds. -/
private theorem templateNode_read : ∀ (parts : List Json) (found r : Option Json),
    templateNode parts found = .ok r →
    (templates parts = [] ∧ r = found) ∨
      (found = none ∧ ∃ tp, templates parts = [tp] ∧ r = some tp) := by
  intro parts
  induction parts with
  | nil =>
      intro found r h
      cases h
      exact Or.inl ⟨rfl, rfl⟩
  | cons part parts ih =>
      intro found r h
      rw [templateNode] at h
      obtain ⟨type, htype, h⟩ := bind_eq_ok.mp h
      have hfind := componentType_eq_ok htype
      by_cases hplain : type = ascii "ByteLevel"
      · rw [if_pos hplain] at h
        have hskip : templates (part :: parts) = templates parts := by
          unfold templates
          rw [List.filter_cons_of_neg (by simp [hfind, hplain])]
        rw [hskip]
        exact ih _ _ h
      · rw [if_neg hplain] at h
        have hkeep : templates (part :: parts) = part :: templates parts := by
          unfold templates
          rw [List.filter_cons_of_pos (by simp [hfind, hplain])]
        split at h
        · cases h
        split at h
        · cases h
        rename_i hfound
        rcases ih _ _ h with ⟨hnil, rfl⟩ | ⟨hnone, -⟩
        · refine Or.inr ⟨by simpa using hfound, part, by rw [hkeep, hnil], rfl⟩
        · cases hnone

/-- **The post-processor section.** -/
theorem parsePostProcessor_read {root : Json} {size : Int} {inserts : TemplateInserts}
    (h : parsePostProcessor root size = .ok inserts) : ∃ ids,
      SaysPostProcessor (root.find "post_processor") ids ∧ inserts.before ++ inserts.after = ids ∧
      ∀ id ∈ ids, 0 ≤ id ∧ id < size := by
  unfold parsePostProcessor at h
  split at h
  · rename_i hfind
    cases h
    rw [hfind]
    exact ⟨[], .absent, rfl, by simp⟩
  · rename_i hfind
    cases h
    rw [hfind]
    exact ⟨[], .null, rfl, by simp⟩
  · rename_i node hnull hfind
    obtain ⟨parts, hparts, h⟩ := bind_eq_ok.mp h
    obtain ⟨template, htemplate, h⟩ := bind_eq_ok.mp h
    have hnode : node.typeName = "object" := by
      unfold flattenComponents at hparts
      split at hparts
      · rfl
      · cases hparts
    rw [hfind]
    rcases templateNode_read _ _ _ htemplate with ⟨hnil, rfl⟩ | ⟨-, tp, hone, rfl⟩
    · cases h
      exact ⟨[], .plain hnode hparts hnil, rfl, by simp⟩
    · dsimp only at h
      unfold parseTemplate at h
      split at h
      · rename_i entries hsingle
        obtain ⟨ids, hsays, hids, hrange⟩ := templateLoop_read _ _ _ _ (fun _ => rfl) h
        exact ⟨ids, .template hnode hparts hone hsingle hsays, by simpa using hids, hrange⟩
      · cases h

/-! ### A document says one thing

`Says` is a relation between a document and tables, so that it can be read without the loader. 
For the equivalence with the loader it has to be a function of the document. -/

private theorem SaysMerges.unique {index : Nat} {entries : List Json}
    {merges merges' : List (Text × Text)} (h : SaysMerges index entries merges)
    (h' : SaysMerges index entries merges') : merges = merges' := by
  induction h generalizing merges' with
  | nil =>
      cases h'
      rfl
  | cons hsides _ ih =>
      cases h' with
      | cons hsides' hrest' =>
          rw [hsides] at hsides'
          cases hsides'
          rw [ih hrest']

private theorem SaysSpecial.unique {tp value : Json} {id id' : Int}
    (h : SaysSpecial tp value id) (h' : SaysSpecial tp value id') : id = id' := by
  obtain ⟨name, map, entry, hname, hmap, hentry, hids⟩ := h
  obtain ⟨name', map', entry', hname', hmap', hentry', hids'⟩ := h'
  rw [hname] at hname'
  cases hname'
  rw [hmap] at hmap'
  cases hmap'
  rw [hentry] at hentry'
  cases hentry'
  rw [hids] at hids'
  cases hids'
  rfl

private theorem SaysSingle.unique {tp : Json} {entries : List Json} {ids ids' : List Int}
    (h : SaysSingle tp entries ids) (h' : SaysSingle tp entries ids') : ids = ids' := by
  have hkinds : ascii "Sequence" ≠ ascii "SpecialToken" := by decide
  induction h generalizing ids' with
  | nil =>
      cases h'
      rfl
  | @sequence value entries ids _ ih =>
      generalize hall : Json.object [(ascii "Sequence", value)] :: entries = all at h'
      cases h' with
      | nil => cases hall
      | sequence hrest' =>
          cases hall
          exact ih hrest'
      | special _ _ =>
          simp only [List.cons.injEq, Json.object.injEq, Prod.mk.injEq] at hall
          exact absurd hall.1.1.1 hkinds
  | @special value id entries ids hspecial _ ih =>
      generalize hall : Json.object [(ascii "SpecialToken", value)] :: entries = all at h'
      cases h' with
      | nil => cases hall
      | sequence _ =>
          simp only [List.cons.injEq, Json.object.injEq, Prod.mk.injEq] at hall
          exact absurd hall.1.1.1.symm hkinds
      | special hspecial' hrest' =>
          cases hall
          rw [hspecial.unique hspecial', ih hrest']

private theorem SaysPostProcessor.unique {node : Option Json} {ids ids' : List Int}
    (h : SaysPostProcessor node ids) (h' : SaysPostProcessor node ids') : ids = ids' := by
  cases h with
  | absent =>
      cases h'
      rfl
  | null =>
      cases h' with
      | null => rfl
      | plain hnode _ _ => exact absurd hnode (by decide)
      | template hnode _ _ _ _ => exact absurd hnode (by decide)
  | plain hnode hparts hnil =>
      cases h' with
      | null => rfl
      | plain _ _ _ => rfl
      | template _ hparts' hone _ _ =>
          rw [hparts] at hparts'
          cases hparts'
          rw [hnil] at hone
          cases hone
  | template hnode hparts hone hsingle hids =>
      cases h' with
      | null => exact absurd hnode (by decide)
      | plain _ hparts' hnil =>
          rw [hparts] at hparts'
          cases hparts'
          rw [hnil] at hone
          cases hone
      | template _ hparts' hone' hsingle' hids' =>
          rw [hparts] at hparts'
          cases hparts'
          rw [hone] at hone'
          cases hone'
          rw [hsingle] at hsingle'
          cases hsingle'
          exact hids.unique hids'

private theorem SaysAdded.unique {value : Option Json} {tokens tokens' : List AddedToken}
    (h : SaysAdded value tokens) (h' : SaysAdded value tokens') : tokens = tokens' := by
  cases h with
  | absent =>
      cases h'
      rfl
  | null =>
      cases h'
      rfl
  | entries h =>
      cases h' with
      | entries h' =>
          rw [h] at h'
          cases h'
          rfl

/-- **The tables of a document are its own.** -/
theorem Json.Says.unique {root : Json} {d d' : Document} (h : root.Says d) (h' : root.Says d') :
    d = d' := by
  obtain ⟨fields, entries, hmodel, hvocab, hentries, hmerges⟩ := h.model
  obtain ⟨fields', entries', hmodel', hvocab', hentries', hmerges'⟩ := h'.model
  rw [hmodel] at hmodel'
  cases hmodel'
  rw [hentries] at hentries'
  cases hentries'
  rw [hvocab] at hvocab'
  have hinjective : Function.Injective fun p : Text × Int => (p.1, Json.integer p.2) := by
    intro p q hpq
    simp only [Prod.mk.injEq, Json.integer.injEq] at hpq
    exact Prod.ext hpq.1 hpq.2
  have heq := List.map_injective_iff.mpr hinjective
    (Json.object.inj (Option.some.inj hvocab'))
  obtain ⟨vocab, merges, added, special⟩ := d
  obtain ⟨vocab', merges', added', special'⟩ := d'
  obtain rfl := heq
  obtain rfl := hmerges.unique hmerges'
  obtain rfl := h.added.unique h'.added
  obtain rfl := h.special.unique h'.special
  rfl

/-! ### The document

The sections are put together.  What they say is then what the tables hold, and conversely a
document that makes sense is not rejected by any of the stages. -/

namespace BpeTokenizer

/-- What the stages of the loader have read. -/
structure Read (root : Json) (d : Document) (t : BpeTokenizer) : Prop where
  model : ∃ model, ModelRead root d.vocab d.merges model ∧
    (∃ idToBytes, unmapVocab model.idToToken 0 = .ok idToBytes) ∧
    t.mergeRanks = model.mergeRanks ∧ (∀ w, w ∈ model.tokenToId → w ∈ t.tokenToId) ∧
    t.idToToken = model.idToToken ++ (past d.vocab.length t.addedTokens).map AddedToken.content ∧
    (past d.vocab.length t.addedTokens).map (fun token => token.id.toNat)
      = List.range' d.vocab.length (past d.vocab.length t.addedTokens).length
  inverse : t.Inverse
  loaded : Loaded t
  added : SaysAdded (root.find "added_tokens") d.added
  perm : t.addedTokens.Perm d.added
  sorted : (t.addedTokens.map AddedToken.id).Pairwise (· < ·)
  contents : (t.addedTokens.map AddedToken.content).Nodup
  special : SaysPostProcessor (root.find "post_processor") d.special
  template : t.templatePrefix ++ t.templateSuffix = d.special
  templateIds : ∀ id ∈ d.special, 0 ≤ id ∧ id < t.idToToken.length

theorem fromJson_read {root : Json} {t : BpeTokenizer} (hkeys : root.distinctKeys = true)
    (h : fromJson (some root) = .ok t) : ∃ d, Read root d t := by
  have hloaded := fromJson_loaded h
  obtain ⟨model, added, idToBytes, t₁, inserts, nfc, spec, hmodel, hadded, hbytes, ht₁, hinserts,
    rfl⟩ := fromJson_stages h
  obtain ⟨vocab, merges, hread⟩ := parseModel_read hkeys hmodel
  obtain ⟨read, hsays, hperm, hids, hcontents⟩ := parseAddedTokens_read hadded
  obtain ⟨ids, hspecial, htemplate, htemplateIds⟩ := parsePostProcessor_read hinserts
  have hparsed := parseAddedTokens_spec hadded
  have hstart := Tables.start added (fun w id hw => (hread.inverse w id).mp hw) hbytes
  obtain ⟨_, _, _, hext⟩ := addTokens_spec _ added 0 _ t₁ [] hstart (le_refl _)
    (fun token hm => ⟨hm, (hparsed token hm).1⟩) ht₁
  have hgrown := (fun hinverse hlength => addTokens_grown _ added 0 _ t₁ hinverse hlength
    (fun token hm => (hparsed token hm).1) ht₁) hread.inverse (le_refl _)
  have hsame : t₁.addedTokens = added := hext.addedTokens
  have htokens := hgrown.tokens
  have hrange := hgrown.ids
  rw [hread.length, ← hsame] at htokens hrange
  refine ⟨⟨vocab, merges, read, ids⟩, ⟨model, hread, ⟨idToBytes, hbytes⟩, hext.mergeRanks,
    hext.ids, htokens, ?_⟩, hgrown.inverse, hloaded, hsays, ?_, ?_, ?_, hspecial, htemplate,
    htemplateIds⟩
  · rw [← hread.length] at hrange ⊢
    exact hrange
  · show t₁.addedTokens.Perm read
    rwa [hsame]
  · show (t₁.addedTokens.map _).Pairwise _
    rwa [hsame]
  · show (t₁.addedTokens.map _).Nodup
    rwa [hsame]

namespace Read

variable {root : Json} {d : Document} {t : BpeTokenizer}

theorem tells (h : Read root d t) : root.Says d := by
  obtain ⟨model, hmodel, -⟩ := h.model
  exact ⟨hmodel.sections, h.added, h.special⟩

private theorem past_perm (h : Read root d t) :
    (past d.vocab.length t.addedTokens).Perm (past d.vocab.length d.added) := h.perm.filter _

theorem size_eq (h : Read root d t) : t.idToToken.length = d.size := by
  obtain ⟨model, hmodel, -, -, -, htokens, -⟩ := h.model
  rw [htokens, List.length_append, List.length_map, hmodel.length]
  show _ = d.vocab.length + (past d.vocab.length d.added).length
  rw [h.past_perm.length_eq]

theorem lookup_vocab (h : Read root d t) {p : Text × Int} (hp : p ∈ d.vocab) :
    t.tokenToId.lookup p.1 = some p.2 := by
  obtain ⟨model, hmodel, -, -, -, htokens, -⟩ := h.model
  obtain ⟨h0, hget⟩ := (hmodel.inverse p.1 p.2).mp ((hmodel.lookup _ _).mpr hp)
  refine (h.inverse _ _).mpr ⟨h0, ?_⟩
  rw [htokens, List.getElem?_append_left (List.getElem?_eq_some_iff.mp hget).1]
  exact hget

theorem lookup_added (h : Read root d t) {token : AddedToken} (hm : token ∈ t.addedTokens) :
    t.tokenToId.lookup token.content = some token.id :=
  (h.inverse _ _).mpr ⟨(h.loaded.added token hm).1, (h.loaded.tables.entered token hm).1⟩

theorem id_eq_iff (h : Read root d t) {token : AddedToken} (hm : token ∈ t.addedTokens)
    {p : Text × Int} (hp : p ∈ d.vocab) : token.id = p.2 ↔ token.content = p.1 := by
  have hadded := h.lookup_added hm
  have hvocab := h.lookup_vocab hp
  constructor
  · intro heq
    have hget := ((h.inverse _ _).mp hadded).2
    rw [heq, ((h.inverse _ _).mp hvocab).2] at hget
    exact (Option.some.inj hget).symm
  · intro heq
    rw [heq, hvocab] at hadded
    exact (Option.some.inj hadded).symm

theorem unmap_vocab (h : Read root d t) {p : Text × Int} (hp : p ∈ d.vocab) :
    ∃ raw, unmapAlphabetToBytes p.1 = .ok raw := by
  obtain ⟨model, hmodel, ⟨idToBytes, hbytes⟩, -⟩ := h.model
  obtain ⟨_, hget⟩ := (hmodel.inverse p.1 p.2).mp ((hmodel.lookup _ _).mpr hp)
  obtain ⟨raw, _, hraw⟩ := (unmapVocab_spec _ _ _ hbytes).2 _ _ hget
  exact ⟨raw, hraw⟩

/-- What the stages have read makes sense. -/
theorem agrees (h : Read root d t) : d.Agrees := by
  obtain ⟨model, hmodel, -, -, -, -, hrange⟩ := h.model
  have hmem : ∀ w, w ∈ model.tokenToId → w ∈ d.vocab.map Prod.fst := by
    intro w hw
    obtain ⟨id, hid⟩ := Option.isSome_iff_exists.mp (AList.lookup_isSome.mpr hw)
    exact List.mem_map.mpr ⟨(w, id), (hmodel.lookup w id).mp hid, rfl⟩
  have hpast := h.past_perm
  refine ⟨hmodel.tokens, hmodel.ids, fun p hp => h.unmap_vocab hp, ?_, hmodel.once, ?_, ?_, ?_, ?_,
    ?_, ?_⟩
  · intro p hp
    obtain ⟨hleft, hright, hproduct⟩ := hmodel.parts p hp
    exact ⟨hmem _ hleft, hmem _ hright, hmem _ hproduct⟩
  · rw [← (h.perm.map AddedToken.id).nodup_iff]
    exact h.sorted.imp fun hlt => ne_of_lt hlt
  · rw [← (h.perm.map AddedToken.content).nodup_iff]
    exact h.contents
  · intro token hm
    exact h.loaded.added token (h.perm.mem_iff.mpr hm)
  · intro token hm p hp
    exact h.id_eq_iff (h.perm.mem_iff.mpr hm) hp
  · show ((past d.vocab.length d.added).map fun token => token.id.toNat).Perm
      (List.range' d.vocab.length (past d.vocab.length d.added).length)
    rw [← hpast.length_eq, ← hrange]
    exact (hpast.map _).symm
  · rw [← h.size_eq]
    exact h.templateIds

/-- What the stages have read is what the tables hold. -/
theorem records (h : Read root d t) : t.Records d := by
  obtain ⟨model, hmodel, -, hranks, hids, htokens, -⟩ := h.model
  refine ⟨h.size_eq, h.inverse, fun p hp => h.lookup_vocab hp, h.perm, h.sorted,
    fun token hm => h.lookup_added hm, ?_, ?_, fun token hm => tokenBytes_of_added h.loaded hm, ?_,
    ?_, ?_, h.template, ?_⟩
  · rw [htokens, ← hmodel.length, List.drop_left]
    rw [hmodel.length]
    rfl
  · intro id
    unfold tokenBytes
    have hlength := h.loaded.tables.length
    split
    · simp
      omega
    · rw [List.getElem?_eq_getElem (by omega)]
      simp
      omega
  · intro p hp hfree
    obtain ⟨h0, hget⟩ := (h.inverse _ _).mp (h.lookup_vocab hp)
    obtain ⟨bytes, hbytes, hcase⟩ := h.loaded.tables.bytes _ _ hget
    rcases hcase with hunmap | ⟨-, token, hm, hcontent⟩
    · exact ⟨bytes, hunmap, tokenBytes_of_getElem? h0 hbytes⟩
    · exact absurd ((h.id_eq_iff hm hp).mpr hcontent) (hfree token hm)
  · rw [hranks]
    exact hmodel.merges
  · intro p hp
    obtain ⟨hleft, hright, hproduct⟩ := hmodel.parts p hp
    exact ⟨hids _ hleft, hids _ hright, hids _ hproduct⟩
  · rw [h.template]
    exact h.templateIds

end Read

/-- **A document that loads makes sense and gives its tables; one that does not make sense is
rejected.** -/
theorem fromJson_records (root : Json) (hkeys : root.distinctKeys = true) :
    (∀ t, fromJson (some root) = .ok t → ∃ d, root.Says d ∧ d.Agrees ∧ t.Records d) ∧
      ∀ d, root.Says d → ¬d.Agrees → ∃ status, fromJson (some root) = .error status := by
  refine ⟨?_, ?_⟩
  · intro t ht
    obtain ⟨d, hread⟩ := fromJson_read hkeys ht
    exact ⟨d, hread.tells, hread.agrees, hread.records⟩
  · intro d htells hnot
    cases hresult : fromJson (some root) with
    | error status => exact ⟨status, rfl⟩
    | ok t =>
        obtain ⟨d', hread⟩ := fromJson_read hkeys hresult
        rw [htells.unique hread.tells] at hnot
        exact absurd hread.agrees hnot

/-- A document that loads, as its parser returns it. -/
theorem fromJson_records_small :
    (∀ t, fromJson (some smallDocument) = .ok t →
      ∃ d, smallDocument.Says d ∧ d.Agrees ∧ t.Records d) ∧
      ∀ d, smallDocument.Says d → ¬d.Agrees →
        ∃ status, fromJson (some smallDocument) = .error status :=
  fromJson_records smallDocument (by decide +kernel)

end BpeTokenizer

end InferenceEngine
