/-
What a document that loads guarantees.

The vocab loop names each id once; the added tokens extend or repeat what is named.  The tables
agree with each other after every step, and that is all encoding needs of them: the bytes of an
id are those its token stands for, and the product of a merge is a token.
-/
import InferenceEngine.Tokenizer.Load
import InferenceEngine.Proofs.Bpe

namespace InferenceEngine

open Except

/-! ### Tokens of the alphabet

Bytes are spelled by printable characters, and a space is not among them.  So a token of the
alphabet has no space in it, and the key of a merge can be taken apart again. -/

theorem decodeContinue_tail : ∀ (left c c' : Nat) (rest : Text),
    decodeContinue left c rest = some c' → ∀ x ∈ rest.take left, isContinuation x = true := by
  intro left
  induction left with
  | zero => intro c c' rest _ x hx; simp at hx
  | succ left ih =>
      intro c c' rest h x hx
      cases rest with
      | nil => simp at hx
      | cons cont rest =>
          rw [decodeContinue] at h
          split at h
          · exact absurd h (by simp)
          · rename_i hcont
            rw [List.take_succ_cons] at hx
            rcases List.mem_cons.mp hx with rfl | hx
            · simpa [isContinuation] using hcont
            · exact ih _ _ rest h x hx

/-- A decoded sequence with a space in it is the space. -/
theorem decodeUtf8_space {bytes : Text} {codepoint length : Nat}
    (h : decodeUtf8 bytes = some (codepoint, length)) (hmem : 0x20 ∈ bytes.take length) :
    codepoint = 0x20 := by
  cases bytes with
  | nil => simp at hmem
  | cons lead rest =>
      rw [decodeUtf8] at h
      cases hl : decodeLead lead with
      | none =>
          rw [hl] at h
          exact absurd h (by simp)
      | some r =>
          obtain ⟨n, c⟩ := r
          rw [hl] at h
          simp only at h
          split at h
          · exact absurd h (by simp)
          · rw [Option.map_eq_some_iff] at h
            obtain ⟨c', hcont, he⟩ := h
            cases he
            by_cases hlead : lead = 0x20
            · subst hlead
              have hone : decodeLead 0x20 = some (1, 0x20) := by decide
              rw [hone] at hl
              cases hl
              cases hcont
              rfl
            · -- a space is no continuation byte
              cases length with
              | zero => simp at hmem
              | succ n =>
                  rw [List.take_succ_cons] at hmem
                  rcases List.mem_cons.mp hmem with he | hmem
                  · exact absurd he.symm hlead
                  · have hc := decodeContinue_tail _ _ _ _ hcont 0x20 (by simpa using hmem)
                    exact absurd hc (by decide)

theorem unmapLoop_space : ∀ (fuel : Nat) (token : Text) (pos : Nat) (out raw : Text),
    token.length ≤ fuel → unmapLoop fuel token pos out = .ok raw → 0x20 ∉ token := by
  intro fuel
  induction fuel with
  | zero =>
      intro token pos out raw hlen _
      rw [List.length_eq_zero_iff.mp (Nat.le_zero.mp hlen)]
      simp
  | succ fuel ih =>
      intro token pos out raw hlen h hmem
      rw [unmapLoop] at h
      split at h
      · rename_i he
        rw [List.isEmpty_iff.mp he] at hmem
        simp at hmem
      · cases hd : decodeUtf8 token with
        | none =>
            rw [hd] at h
            exact absurd h (by simp)
        | some r =>
            obtain ⟨codepoint, length⟩ := r
            rw [hd] at h
            simp only at h
            cases hb : alphabetToByte codepoint with
            | none =>
                rw [hb] at h
                exact absurd h (by simp)
            | some byte =>
                rw [hb] at h
                have hpos := (decodeUtf8_length hd).1
                rw [← List.take_append_drop length token] at hmem
                rcases List.mem_append.mp hmem with hin | hin
                · rw [decodeUtf8_space hd hin] at hb
                  have hnone : alphabetToByte 0x20 = none := by decide +kernel
                  rw [hnone] at hb
                  exact absurd hb (by simp)
                · exact ih _ _ _ _ (by rw [List.length_drop]; omega) h hin

/-- No token of the alphabet has a space in it. -/
theorem space_notMem_of_unmap {token raw : Text} (h : unmapAlphabetToBytes token = .ok raw) :
    0x20 ∉ token := unmapLoop_space _ token 0 [] raw (le_refl _) h

/-- A key has one pair without spaces. -/
theorem mergeKey_inj {a b a' b' : Text} (h : mergeKey a b = mergeKey a' b') (ha : 0x20 ∉ a)
    (ha' : 0x20 ∉ a') : a = a' ∧ b = b' := by
  unfold mergeKey at h
  induction a generalizing a' with
  | nil =>
      cases a' with
      | nil =>
          rw [List.nil_append, List.nil_append] at h
          exact ⟨rfl, (List.cons.inj h).2⟩
      | cons x a' =>
          rw [List.nil_append, List.cons_append] at h
          exact absurd (by rw [(List.cons.inj h).1]; simp) ha'
  | cons x a ih =>
      cases a' with
      | nil =>
          rw [List.nil_append, List.cons_append] at h
          exact absurd (by rw [← (List.cons.inj h).1]; simp) ha
      | cons x' a' =>
          rw [List.cons_append, List.cons_append] at h
          obtain ⟨hx, hrest⟩ := List.cons.inj h
          obtain ⟨h1, h2⟩ := ih hrest (fun hm => ha (by simp [hm])) (fun hm => ha' (by simp [hm]))
          exact ⟨by rw [hx, h1], h2⟩

theorem lookup_emplace {κ β : Type} [DecidableEq κ] (m : AList (fun _ : κ => β))
    (k k' : κ) (v : β) :
    (emplace m k v).1.lookup k' = if k' = k ∧ m.lookup k = none then some v else m.lookup k' := by
  unfold emplace
  cases hl : m.lookup k with
  | some w => simp
  | none =>
      by_cases h : k' = k
      · subst h
        rw [if_pos ⟨rfl, rfl⟩]
        exact AList.lookup_insert _
      · rw [if_neg fun hc => h hc.1]
        exact AList.lookup_insert_ne h

/-! ### The vocab

Every entry names one id and no id is named twice.  The table from tokens to ids and the one
from ids to tokens grow together. -/

/-- What the tables say about the ids named so far. -/
structure Named (seen : List Bool) (data : ModelData) : Prop where
  named : ∀ w id, data.tokenToId.lookup w = some id →
    0 ≤ id ∧ data.idToToken[id.toNat]? = some w ∧ seen.getD id.toNat false = true
  noMerges : data.mergeRanks = ∅
  length : seen.length = data.idToToken.length

theorem vocabLoop_named (count : Nat) : ∀ (items : List (Text × Json)) (seen : List Bool)
    (data data' : ModelData), Named seen data → seen.length = count →
    vocabLoop count items seen data = .ok data' → ∃ seen', Named seen' data' := by
  intro items
  induction items with
  | nil =>
      intro seen data data' h _ hrun
      cases hrun
      exact ⟨seen, h⟩
  | cons item items ih =>
      intro seen data data' h hcount hrun
      obtain ⟨token, idValue⟩ := item
      rw [vocabLoop] at hrun
      obtain ⟨id, _, hrun⟩ := bind_eq_ok.mp hrun
      split at hrun
      · exact absurd hrun (by simp)
      · rename_i hrange
        split at hrun
        · exact absurd hrun (by simp)
        · rename_i hfresh
          have hlt : id.toNat < data.idToToken.length := by
            rw [← h.length, hcount]
            omega
          refine ih _ _ _ ?_ (by rw [List.length_set]; exact hcount) hrun
          refine ⟨?_, h.noMerges, ?_⟩
          · intro w id' hw
            rw [lookup_emplace] at hw
            split at hw
            · rename_i hnew
              cases hw
              obtain ⟨rfl, _⟩ := hnew
              refine ⟨by omega, List.getElem?_set_self hlt, ?_⟩
              rw [List.getD_eq_getElem?_getD, List.getElem?_set_self (by rw [h.length]; exact hlt)]
              rfl
            · -- an id named before is not the new one
              obtain ⟨h0, htoken, hseen⟩ := h.named w id' hw
              have hne : id.toNat ≠ id'.toNat := by
                intro he
                rw [he] at hfresh
                exact hfresh hseen
              refine ⟨h0, ?_, ?_⟩
              · rw [List.getElem?_set_ne hne]
                exact htoken
              · rw [List.getD_eq_getElem?_getD, List.getElem?_set_ne hne,
                  ← List.getD_eq_getElem?_getD]
                exact hseen
          · rw [List.length_set, List.length_set]
            exact h.length

theorem vocabLoop_mergeRanks (count : Nat) : ∀ (items : List (Text × Json)) (seen : List Bool)
    (data data' : ModelData), vocabLoop count items seen data = .ok data' →
    data'.mergeRanks = data.mergeRanks := by
  intro items
  induction items with
  | nil =>
      intro seen data data' hrun
      cases hrun
      rfl
  | cons item items ih =>
      intro seen data data' hrun
      rw [vocabLoop] at hrun
      obtain ⟨id, _, hrun⟩ := bind_eq_ok.mp hrun
      split at hrun
      · cases hrun
      split at hrun
      · cases hrun
      rw [ih _ _ _ hrun]

/-! ### The merges

Both sides of a merge and what it makes are tokens of the vocab, which is checked when the merge
is entered.  A merge that encoding applies therefore leads to a token again. -/

/-- Every merge in the table joins two tokens to a token. -/
def Merged (data : ModelData) : Prop :=
  ∀ key, data.mergeRanks.lookup key ≠ none → ∃ left right, key = mergeKey left right ∧
    left ∈ data.tokenToId ∧ left ++ right ∈ data.tokenToId

theorem mergesLoop_merged : ∀ (entries : List Json) (index : Nat) (data data' : ModelData),
    Merged data → mergesLoop entries index data = .ok data' →
    Merged data' ∧ data'.tokenToId = data.tokenToId ∧ data'.idToToken = data.idToToken := by
  intro entries
  induction entries with
  | nil =>
      intro index data data' h hrun
      cases hrun
      exact ⟨h, rfl, rfl⟩
  | cons entry entries ih =>
      intro index data data' h hrun
      rw [mergesLoop] at hrun
      obtain ⟨⟨left, right⟩, _, hrun⟩ := bind_eq_ok.mp hrun
      obtain ⟨_, hparts, hrun⟩ := bind_eq_ok.mp hrun
      have hleft : left ∈ data.tokenToId := by
        by_contra hc
        rw [requireInVocab, if_neg hc] at hparts
        exact absurd hparts (by simp)
      split at hrun
      · exact absurd hrun (by simp)
      · rename_i hproduct
        have hproduct : left ++ right ∈ data.tokenToId := by simpa using hproduct
        simp only at hrun
        split at hrun
        · exact absurd hrun (by simp)
        · have hnext := fun hm => ih _ _ _ hm hrun
          refine hnext ?_
          intro key hkey
          have hlookup := lookup_emplace data.mergeRanks (mergeKey left right) key (toInt32 index)
          by_cases hk : key = mergeKey left right
          · exact ⟨left, right, hk, hleft, hproduct⟩
          · rw [if_neg fun hc => hk hc.1] at hlookup
            exact h key (by rw [← hlookup]; exact hkey)

/-- What `ParseModelFlags` leaves empty. -/
theorem parseModelFlags_empty {model : Json} {flags : ModelData}
    (h : parseModelFlags model ⟨∅, [], ∅, false⟩ = .ok flags) :
    flags.tokenToId = ∅ ∧ flags.mergeRanks = ∅ := by
  unfold parseModelFlags at h
  obtain ⟨_, _, h⟩ := bind_eq_ok.mp h
  obtain ⟨_, _, h⟩ := bind_eq_ok.mp h
  obtain ⟨_, _, h⟩ := bind_eq_ok.mp h
  obtain ⟨_, _, h⟩ := bind_eq_ok.mp h
  obtain ⟨_, _, h⟩ := bind_eq_ok.mp h
  obtain ⟨_, _, h⟩ := bind_eq_ok.mp h
  obtain ⟨_, _, h⟩ := bind_eq_ok.mp h
  cases h
  exact ⟨rfl, rfl⟩

/-- The sections that `ParseModel` reads. -/
theorem parseModel_sections {root : Json} {data : ModelData} (h : parseModel root = .ok data) :
    ∃ fields items entries, ∃ flags read : ModelData, root.find "model" = some (.object fields) ∧
      (Json.object fields).find "vocab" = some (.object items) ∧
      (Json.object fields).find "merges" = some (.array entries) ∧
      flags.tokenToId = ∅ ∧ flags.mergeRanks = ∅ ∧
      vocabLoop items.length items (List.replicate items.length false)
        { flags with idToToken := List.replicate items.length [] } = .ok read ∧
      mergesLoop entries 0 read = .ok data := by
  unfold parseModel at h
  split at h
  · cases h
  · cases h
  · rename_i fields hfields
    dsimp only at h
    obtain ⟨type, _, h⟩ := bind_eq_ok.mp h
    split at h
    · cases h
    obtain ⟨flags, hflags, h⟩ := bind_eq_ok.mp h
    obtain ⟨read, hread, h⟩ := bind_eq_ok.mp h
    obtain ⟨hids, hranks⟩ := parseModelFlags_empty hflags
    unfold parseVocab at hread
    split at hread
    · cases hread
    · rename_i items hitems
      split at hread
      · cases hread
      unfold parseMerges at h
      split at h
      · cases h
      · rename_i entries hentries
        exact ⟨fields, items, entries, flags, read, hfields, hitems, hentries, hids, hranks,
          hread, h⟩
      · cases h
    · cases hread
  · cases h

/-- What `ParseModel` returns. -/
theorem parseModel_spec {root : Json} {data : ModelData} (h : parseModel root = .ok data) :
    (∀ w id, data.tokenToId.lookup w = some id →
      0 ≤ id ∧ data.idToToken[id.toNat]? = some w) ∧ Merged data := by
  obtain ⟨fields, items, entries, flags, read, -, -, -, hids, hranks, hvocab, hmerges⟩ :=
    parseModel_sections h
  have hstart : Named (List.replicate items.length false)
      { flags with idToToken := List.replicate items.length [] } := by
    refine ⟨?_, hranks, by rw [List.length_replicate, List.length_replicate]⟩
    intro w id hw
    rw [show ({ flags with idToToken := _ } : ModelData).tokenToId = ∅ from hids] at hw
    exact absurd hw (by simp)
  obtain ⟨seen, hnamed⟩ := vocabLoop_named _ _ _ _ _ hstart List.length_replicate hvocab
  have hbase : Merged read := by
    intro key hkey
    rw [hnamed.noMerges] at hkey
    exact absurd (AList.lookup_empty key) hkey
  obtain ⟨hmerged, hsame, htokens⟩ := mergesLoop_merged _ _ _ _ hbase hmerges
  refine ⟨?_, hmerged⟩
  intro w id hw
  rw [hsame] at hw
  obtain ⟨h0, htoken, _⟩ := hnamed.named w id hw
  rw [htokens]
  exact ⟨h0, htoken⟩

/-! ### Added tokens

An added token repeats what the vocab says or takes the next free id.  Either way the tables
agree afterwards, and the tokens that had been entered before keep their ids. -/

theorem parseAddedToken_spec {entry : Json} {index : Nat} {token : AddedToken}
    (h : parseAddedToken entry index = .ok token) : 0 ≤ token.id ∧ token.content ≠ [] := by
  unfold parseAddedToken at h
  split at h
  · split at h
    · exact absurd h (by simp)
    · obtain ⟨id, _, h⟩ := bind_eq_ok.mp h
      split at h
      · exact absurd h (by simp)
      · rename_i hrange
        split at h
        · exact absurd h (by simp)
        · obtain ⟨content, _, h⟩ := bind_eq_ok.mp h
          split at h
          · exact absurd h (by simp)
          · rename_i hne
            obtain ⟨_, _, h⟩ := bind_eq_ok.mp h
            obtain ⟨_, _, h⟩ := bind_eq_ok.mp h
            obtain ⟨_, _, h⟩ := bind_eq_ok.mp h
            obtain ⟨_, _, h⟩ := bind_eq_ok.mp h
            obtain ⟨_, _, h⟩ := bind_eq_ok.mp h
            split at h
            · exact absurd h (by simp)
            · cases h
              refine ⟨(not_lt.mp fun hc => hrange (.inl hc) : (0 : Int) ≤ id), ?_⟩
              intro hc
              have hc : content = [] := hc
              rw [hc] at hne
              exact hne rfl
  · exact absurd h (by simp)

theorem addedTokensLoop_spec : ∀ (entries : List Json) (index : Nat) (tokens : List AddedToken),
    addedTokensLoop entries index = .ok tokens →
    ∀ token ∈ tokens, 0 ≤ token.id ∧ token.content ≠ [] := by
  intro entries
  induction entries with
  | nil =>
      intro index tokens h
      cases h
      simp
  | cons entry entries ih =>
      intro index tokens h token hmem
      rw [addedTokensLoop] at h
      obtain ⟨first, hfirst, h⟩ := bind_eq_ok.mp h
      obtain ⟨rest, hrest, h⟩ := bind_eq_ok.mp h
      cases h
      rcases List.mem_cons.mp hmem with rfl | hmem
      · exact parseAddedToken_spec hfirst
      · exact ih _ _ hrest token hmem

theorem parseAddedTokens_spec {root : Json} {tokens : List AddedToken}
    (h : parseAddedTokens root = .ok tokens) :
    ∀ token ∈ tokens, 0 ≤ token.id ∧ token.content ≠ [] := by
  unfold parseAddedTokens at h
  split at h
  · cases h
    simp
  · cases h
    simp
  · obtain ⟨parsed, hparsed, h⟩ := bind_eq_ok.mp h
    obtain ⟨_, _, h⟩ := bind_eq_ok.mp h
    cases h
    intro token hmem
    exact addedTokensLoop_spec _ _ _ hparsed token (List.mem_mergeSort.mp hmem)
  · exact absurd h (by simp)

theorem mem_emplace {κ β : Type} [DecidableEq κ] {m : AList (fun _ : κ => β)} {k k' : κ} {v : β}
    (h : k' ∈ m) : k' ∈ (emplace m k v).1 := by
  unfold emplace
  cases m.lookup k with
  | some w => exact h
  | none =>
      rw [AList.mem_insert]
      exact .inr h

namespace BpeTokenizer

/-- The tables agree, as far as the added tokens have been entered. -/
structure Tables (t : BpeTokenizer) (entered : List AddedToken) : Prop where
  named : ∀ w id, t.tokenToId.lookup w = some id → 0 ≤ id ∧ t.idToToken[id.toNat]? = some w
  length : t.idToBytes.length = t.idToToken.length
  bytes : ∀ (i : Nat) (w : Text), t.idToToken[i]? = some w → ∃ bytes, t.idToBytes[i]? = some bytes ∧
    (unmapAlphabetToBytes w = .ok bytes ∨
      (bytes = w ∧ ∃ token ∈ t.addedTokens, token.content = w))
  entered : ∀ token ∈ entered, t.idToToken[token.id.toNat]? = some token.content ∧
    t.idToBytes[token.id.toNat]? = some token.content

/-- The token repeats an id of the base vocab. -/
theorem Tables.repeated {t : BpeTokenizer} {entered : List AddedToken} {token : AddedToken}
    (h : Tables t entered) (hmem : token ∈ t.addedTokens)
    (hsame : t.idToToken[token.id.toNat]? = some token.content) :
    Tables { t with idToBytes := t.idToBytes.set token.id.toNat token.content }
      (token :: entered) := by
  have hlt : token.id.toNat < t.idToBytes.length := by
    rw [h.length]
    exact (List.getElem?_eq_some_iff.mp hsame).1
  refine ⟨h.named, by rw [List.length_set]; exact h.length, ?_, ?_⟩
  · intro i w hw
    by_cases hi : token.id.toNat = i
    · subst hi
      have hw : t.idToToken[token.id.toNat]? = some w := hw
      rw [hsame] at hw
      cases hw
      exact ⟨_, List.getElem?_set_self hlt, .inr ⟨rfl, token, hmem, rfl⟩⟩
    · obtain ⟨bytes, hbytes, hor⟩ := h.bytes i w hw
      exact ⟨bytes, by rw [List.getElem?_set_ne hi]; exact hbytes, hor⟩
  · intro other ho
    rcases List.mem_cons.mp ho with rfl | ho
    · exact ⟨hsame, List.getElem?_set_self hlt⟩
    · obtain ⟨h1, h2⟩ := h.entered other ho
      refine ⟨h1, ?_⟩
      by_cases hi : token.id.toNat = other.id.toNat
      · -- one id has one content
        rw [← hi, hsame] at h1
        rw [← hi, List.getElem?_set_self hlt]
        exact h1
      · rw [List.getElem?_set_ne hi]
        exact h2

/-- The token takes the next id. -/
theorem Tables.extended {t : BpeTokenizer} {entered : List AddedToken} {token : AddedToken}
    (h : Tables t entered) (hmem : token ∈ t.addedTokens)
    (hnext : token.id.toNat = t.idToToken.length) :
    Tables { t with
        idToToken := t.idToToken ++ [token.content]
        idToBytes := t.idToBytes ++ [token.content] } (token :: entered) := by
  have hold : ∀ (l : List Text) (i : Nat) (w x : Text), l[i]? = some w →
      (l ++ [x])[i]? = some w := by
    intro l i w x hw
    rw [List.getElem?_append_left (List.getElem?_eq_some_iff.mp hw).1]
    exact hw
  refine ⟨?_, ?_, ?_, ?_⟩
  · intro w id hw
    obtain ⟨h0, htoken⟩ := h.named w id hw
    exact ⟨h0, hold _ _ _ _ htoken⟩
  · rw [List.length_append, List.length_append, h.length]
  · intro i w hw
    by_cases hi : i < t.idToToken.length
    · have hw : (t.idToToken ++ [token.content])[i]? = some w := hw
      rw [List.getElem?_append_left hi] at hw
      obtain ⟨bytes, hbytes, hor⟩ := h.bytes i w hw
      exact ⟨bytes, hold _ _ _ _ hbytes, hor⟩
    · have hlt := (List.getElem?_eq_some_iff.mp hw).1
      rw [List.length_append, List.length_singleton] at hlt
      have hi : i = t.idToToken.length := by omega
      have hw : (t.idToToken ++ [token.content])[i]? = some w := hw
      rw [hi, List.getElem?_concat_length] at hw
      cases hw
      refine ⟨token.content, ?_, .inr ⟨rfl, token, hmem, rfl⟩⟩
      rw [hi, ← h.length, List.getElem?_concat_length]
  · intro other ho
    rcases List.mem_cons.mp ho with rfl | ho
    · refine ⟨?_, ?_⟩
      · rw [hnext, List.getElem?_concat_length]
      · rw [hnext, ← h.length, List.getElem?_concat_length]
    · obtain ⟨h1, h2⟩ := h.entered other ho
      exact ⟨hold _ _ _ _ h1, hold _ _ _ _ h2⟩

/-- The token's content gets its id, unless it has one. -/
theorem Tables.emplaced {t : BpeTokenizer} {entered : List AddedToken} {token : AddedToken}
    (h : Tables t (token :: entered)) (hid : 0 ≤ token.id)
    (index : AList (fun _ : Int => Nat)) :
    Tables { t with
        tokenToId := (emplace t.tokenToId token.content token.id).1
        addedIndex := index } (token :: entered) := by
  refine ⟨?_, h.length, h.bytes, h.entered⟩
  intro w id hw
  rw [lookup_emplace] at hw
  split at hw
  · rename_i hnew
    cases hw
    rw [hnew.1]
    exact ⟨hid, (h.entered token (by simp)).1⟩
  · exact h.named w id hw

/-- What entering the added tokens leaves as it was. -/
structure Extends (t t' : BpeTokenizer) : Prop where
  ids : ∀ w, w ∈ t.tokenToId → w ∈ t'.tokenToId
  mergeRanks : t'.mergeRanks = t.mergeRanks
  addedTokens : t'.addedTokens = t.addedTokens

theorem addTokens_spec (baseSize : Nat) : ∀ (added : List AddedToken) (i : Nat)
    (t t' : BpeTokenizer) (entered : List AddedToken), Tables t entered →
    baseSize ≤ t.idToToken.length →
    (∀ token ∈ added, token ∈ t.addedTokens ∧ 0 ≤ token.id) →
    addTokens baseSize added i t = .ok t' →
    ∃ entered', Tables t' entered' ∧ (∀ token ∈ added ++ entered, token ∈ entered') ∧
      Extends t t' := by
  intro added
  induction added with
  | nil =>
      intro i t t' entered h _ _ hrun
      cases hrun
      exact ⟨entered, h, by simp, ⟨fun _ hw => hw, rfl, rfl⟩⟩
  | cons token added ih =>
      intro i t t' entered h hbase hadded hrun
      obtain ⟨hmem, hid⟩ := hadded token (by simp)
      rw [addTokens] at hrun
      obtain ⟨t₁, ht₁, hrun⟩ := bind_eq_ok.mp hrun
      have hentered : Tables t₁ (token :: entered) ∧ t.idToToken.length ≤ t₁.idToToken.length ∧
          Extends t t₁ := by
        unfold placeToken at ht₁
        dsimp only at ht₁
        split at ht₁
        · rename_i hlt
          split at ht₁
          · exact absurd ht₁ (by simp)
          · rename_i hsame
            cases ht₁
            have hsame : t.idToToken[token.id.toNat]? = some token.content := by
              rw [List.getElem?_eq_getElem (by omega)]
              rw [List.getD_eq_getElem?_getD, List.getElem?_eq_getElem (by omega)] at hsame
              simpa using hsame
            exact ⟨h.repeated hmem hsame, le_refl _, ⟨fun _ hw => hw, rfl, rfl⟩⟩
        · split at ht₁
          · exact absurd ht₁ (by simp)
          · rename_i hnext
            cases ht₁
            refine ⟨h.extended hmem (by simpa using hnext), ?_, ⟨fun _ hw => hw, rfl, rfl⟩⟩
            rw [List.length_append]
            exact Nat.le_add_right _ _
      obtain ⟨htables, hlen, hext⟩ := hentered
      simp only at hrun
      split at hrun
      · exact absurd hrun (by simp)
      · have hnext := htables.emplaced hid (emplace t₁.addedIndex token.id i).1
        obtain ⟨entered', h', hall, hext'⟩ := ih _ _ _ _ hnext (Nat.le_trans hbase hlen)
          (by
            intro other ho
            obtain ⟨h1, h2⟩ := hadded other (by simp [ho])
            exact ⟨by rw [← hext.addedTokens] at h1; exact h1, h2⟩) hrun
        refine ⟨entered', h', ?_, ?_⟩
        · intro other ho
          refine hall other ?_
          simp only [List.mem_append, List.mem_cons] at ho ⊢
          tauto
        · exact ⟨fun w hw => hext'.ids w (mem_emplace (hext.ids w hw)),
            hext'.mergeRanks.trans hext.mergeRanks, hext'.addedTokens.trans hext.addedTokens⟩

theorem unmapVocab_spec : ∀ (tokens : List Text) (id : Nat) (bytes : List Text),
    unmapVocab tokens id = .ok bytes →
    bytes.length = tokens.length ∧ ∀ (i : Nat) (w : Text), tokens[i]? = some w →
      ∃ b, bytes[i]? = some b ∧ unmapAlphabetToBytes w = .ok b := by
  intro tokens
  induction tokens with
  | nil =>
      intro id bytes h
      cases h
      exact ⟨rfl, by simp⟩
  | cons token tokens ih =>
      intro id bytes h
      rw [unmapVocab] at h
      split at h
      · exact absurd h (by simp)
      · rename_i b hb
        obtain ⟨rest, hrest, h⟩ := bind_eq_ok.mp h
        cases h
        obtain ⟨hlen, hget⟩ := ih _ _ hrest
        refine ⟨by rw [List.length_cons, List.length_cons, hlen], ?_⟩
        intro i w hw
        cases i with
        | zero =>
            cases hw
            exact ⟨b, rfl, hb⟩
        | succ i => exact hget i w hw

/-! ### The match index

Encoding looks for added tokens by their first byte.  A bucket holds the tokens that begin with
its byte, the longest first, so the first one that fits is the longest one. -/

/-- The bucket of a byte, which is empty where the index has none. -/
def bucketAt (buckets : AList (fun _ : UInt8 => List Nat)) (byte : UInt8) : List Nat :=
  (buckets.lookup byte).getD []

theorem bucketAt_insert (buckets : AList (fun _ : UInt8 => List Nat)) (key byte : UInt8)
    (bucket : List Nat) : bucketAt (buckets.insert key bucket) byte
      = if byte = key then bucket else bucketAt buckets byte := by
  unfold bucketAt
  by_cases he : byte = key
  · rw [if_pos he, he, AList.lookup_insert]
    rfl
  · rw [if_neg he, AList.lookup_insert_ne he]

/-- A bucket holds the tokens whose contents begin with its byte. -/
theorem mem_fillBuckets (byte : UInt8) (j : Nat) : ∀ (added : List AddedToken) (i : Nat)
    (buckets : AList (fun _ : UInt8 => List Nat)),
    j ∈ bucketAt (fillBuckets added i buckets) byte ↔ j ∈ bucketAt buckets byte ∨
      ∃ k token, added[k]? = some token ∧ token.content.headD 0 = byte ∧ j = i + k := by
  intro added
  induction added with
  | nil => intro i buckets; simp [fillBuckets]
  | cons first added ih =>
      intro i buckets
      rw [fillBuckets, ih, bucketAt_insert]
      have hbucket : j ∈ (if byte = first.content.headD 0 then
          (buckets.lookup (first.content.headD 0)).getD [] ++ [i] else bucketAt buckets byte) ↔
          j ∈ bucketAt buckets byte ∨ first.content.headD 0 = byte ∧ j = i := by
        by_cases he : byte = first.content.headD 0
        · rw [if_pos he, List.mem_append, List.mem_singleton, ← he]
          simp [bucketAt]
        · rw [if_neg he]
          exact ⟨Or.inl, fun h => h.resolve_right fun hc => he hc.1.symm⟩
      rw [hbucket, or_assoc]
      refine or_congr_right ⟨?_, ?_⟩
      · rintro (⟨hbyte, rfl⟩ | ⟨k, token, hk, hbyte, rfl⟩)
        · exact ⟨0, first, rfl, hbyte, rfl⟩
        · exact ⟨k + 1, token, hk, hbyte, by omega⟩
      · rintro ⟨k, token, hk, hbyte, rfl⟩
        cases k with
        | zero =>
            cases hk
            exact Or.inl ⟨hbyte, rfl⟩
        | succ k => exact Or.inr ⟨k, token, hk, hbyte, by omega⟩

theorem bucketAt_foldl_insert (f : UInt8 → List Nat) (byte : UInt8) : ∀ (keys : List UInt8)
    (buckets : AList (fun _ : UInt8 => List Nat)),
    bucketAt (keys.foldl (fun sorted key => sorted.insert key (f key)) buckets) byte
      = if byte ∈ keys then f byte else bucketAt buckets byte := by
  intro keys
  induction keys with
  | nil => intro buckets; simp
  | cons key keys ih =>
      intro buckets
      rw [List.foldl_cons, ih, bucketAt_insert]
      by_cases he : byte = key
      · simp [he]
      · simp [he]

/-- The match index has the buckets sorted. -/
theorem bucketAt_buildBuckets (added : List AddedToken) (byte : UInt8) :
    bucketAt (buildBuckets added) byte
      = sortBucket added (bucketAt (fillBuckets added 0 ∅) byte) := by
  unfold buildBuckets
  dsimp only
  rw [bucketAt_foldl_insert]
  split
  · rfl
  · rename_i hkey
    rw [← AList.mem_keys] at hkey
    unfold bucketAt
    rw [AList.lookup_eq_none.mpr hkey, AList.lookup_empty, Option.getD_none, sortBucket,
      List.mergeSort_nil]

/-- The match index holds a token in the bucket of its first byte. -/
theorem mem_buildBuckets (added : List AddedToken) (byte : UInt8) (j : Nat) :
    j ∈ bucketAt (buildBuckets added) byte ↔
      ∃ token, added[j]? = some token ∧ token.content.headD 0 = byte := by
  rw [bucketAt_buildBuckets, sortBucket, List.mem_mergeSort, mem_fillBuckets]
  simp [bucketAt]

theorem buildBuckets_lt (added : List AddedToken) (byte : UInt8) (bucket : List Nat)
    (hlookup : (buildBuckets added).lookup byte = some bucket) : ∀ j ∈ bucket,
      j < added.length := by
  intro j hj
  have hmem : j ∈ bucketAt (buildBuckets added) byte := by
    unfold bucketAt
    rwa [hlookup]
  obtain ⟨token, htoken, _⟩ := (mem_buildBuckets added byte j).mp hmem
  exact (List.getElem?_eq_some_iff.mp htoken).1

/-- A bucket has the longest contents first. -/
theorem buildBuckets_sorted (added : List AddedToken) (byte : UInt8) :
    (bucketAt (buildBuckets added) byte).Pairwise fun i j =>
      ∀ token other, added[i]? = some token → added[j]? = some other →
        other.content.length ≤ token.content.length := by
  rw [bucketAt_buildBuckets, sortBucket]
  refine List.Pairwise.imp ?_ (List.pairwise_mergeSort ?_ ?_ _)
  · intro i j hle token other htoken hother
    simpa [htoken, hother] using hle
  · intro i j k hij hjk
    simp only [decide_eq_true_eq] at hij hjk ⊢
    exact hjk.trans hij
  · intro i j
    simp only [Bool.or_eq_true, decide_eq_true_eq]
    exact le_total _ _

/-! ### The tokenizer

The stages are run one after the other, and what each of them guarantees is collected in
`Loaded`.  Nothing else about a document is needed for encoding. -/

/-- What encoding relies on. -/
structure Loaded (t : BpeTokenizer) : Prop where
  tables : Tables t t.addedTokens
  added : ∀ token ∈ t.addedTokens, 0 ≤ token.id ∧ token.content ≠ []
  merged : ∀ a b, t.mergeRanks.lookup (mergeKey a b) ≠ none → 0x20 ∉ a → a ++ b ∈ t.tokenToId
  buckets : ∀ byte bucket, t.addedBuckets.lookup byte = some bucket →
    ∀ i ∈ bucket, i < t.addedTokens.length

/-- Before the added tokens are entered. -/
theorem Tables.start {model : ModelData} {idToBytes : List Text} (added : List AddedToken)
    (hnamed : ∀ w id, model.tokenToId.lookup w = some id →
      0 ≤ id ∧ model.idToToken[id.toNat]? = some w)
    (hbytes : unmapVocab model.idToToken 0 = .ok idToBytes) : Tables
      { normalizeNfc := false, splitSpec := ⟨1⟩, ignoreMerges := model.ignoreMerges
        templatePrefix := [], templateSuffix := []
        tokenToId := model.tokenToId, idToToken := model.idToToken, idToBytes := idToBytes
        mergeRanks := model.mergeRanks, addedTokens := added
        addedIndex := ∅, addedBuckets := ∅ } [] := by
  obtain ⟨hlen, hget⟩ := unmapVocab_spec _ _ _ hbytes
  refine ⟨hnamed, hlen, ?_, by simp⟩
  intro i w hw
  obtain ⟨b, hb, hu⟩ := hget i w hw
  exact ⟨b, hb, .inl hu⟩

/-- The stages of `from_json`. -/
theorem fromJson_stages {root : Json} {t : BpeTokenizer} (h : fromJson (some root) = .ok t) :
    ∃ model added idToBytes, ∃ t₁ : BpeTokenizer, ∃ inserts : TemplateInserts, ∃ nfc spec,
      parseModel root = .ok model ∧ parseAddedTokens root = .ok added ∧
      unmapVocab model.idToToken 0 = .ok idToBytes ∧
      addTokens model.idToToken.length added 0
        { normalizeNfc := false, splitSpec := ⟨1⟩, ignoreMerges := model.ignoreMerges
          templatePrefix := [], templateSuffix := []
          tokenToId := model.tokenToId, idToToken := model.idToToken, idToBytes := idToBytes
          mergeRanks := model.mergeRanks, addedTokens := added
          addedIndex := ∅, addedBuckets := ∅ } = .ok t₁ ∧
      parsePostProcessor root t₁.idToToken.length = .ok inserts ∧
      t = { t₁ with
        normalizeNfc := nfc, splitSpec := spec, addedBuckets := buildBuckets added
        templatePrefix := inserts.before, templateSuffix := inserts.after } := by
  unfold fromJson at h
  split at h
  · rename_i heq
    cases heq
  · rename_i fields heq
    cases heq
    dsimp only at h
    obtain ⟨_, _, h⟩ := bind_eq_ok.mp h
    obtain ⟨_, _, h⟩ := bind_eq_ok.mp h
    obtain ⟨model, hmodel, h⟩ := bind_eq_ok.mp h
    obtain ⟨added, hadded, h⟩ := bind_eq_ok.mp h
    obtain ⟨idToBytes, hbytes, h⟩ := bind_eq_ok.mp h
    obtain ⟨t₁, ht₁, h⟩ := bind_eq_ok.mp h
    obtain ⟨nfc, _, h⟩ := bind_eq_ok.mp h
    obtain ⟨_, _, h⟩ := bind_eq_ok.mp h
    obtain ⟨spec, _, h⟩ := bind_eq_ok.mp h
    obtain ⟨inserts, hinserts, h⟩ := bind_eq_ok.mp h
    obtain ⟨_, _, h⟩ := bind_eq_ok.mp h
    cases h
    exact ⟨model, added, idToBytes, t₁, inserts, nfc, spec, hmodel, hadded, hbytes, ht₁, hinserts,
      rfl⟩
  · cases h

/-- **A document that loads gives tables that agree.** -/
theorem fromJson_loaded {root : Option Json} {t : BpeTokenizer} (h : fromJson root = .ok t) :
    Loaded t := by
  obtain ⟨root, rfl⟩ : ∃ json, root = some json := by
    cases root with
    | none => cases h
    | some root => exact ⟨root, rfl⟩
  obtain ⟨model, added, idToBytes, t₁, inserts, nfc, spec, hmodel, hadded, hbytes, ht₁, -, rfl⟩ :=
    fromJson_stages h
  obtain ⟨hnamed, hmerged⟩ := parseModel_spec hmodel
  have hparsed := parseAddedTokens_spec hadded
  obtain ⟨-, hget⟩ := unmapVocab_spec _ _ _ hbytes
  obtain ⟨entered, htables, hall, hext⟩ := addTokens_spec _ added 0 _ t₁ []
    (.start added hnamed hbytes) (le_refl _) (fun token hm => ⟨hm, (hparsed token hm).1⟩) ht₁
  have hsame : t₁.addedTokens = added := hext.addedTokens
  refine ⟨⟨htables.named, htables.length, htables.bytes, ?_⟩, ?_, ?_, ?_⟩
  · intro token hm
    have hm : token ∈ t₁.addedTokens := hm
    rw [hsame] at hm
    exact htables.entered token (hall token (by simpa using hm))
  · intro token hm
    have hm : token ∈ t₁.addedTokens := hm
    rw [hsame] at hm
    exact hparsed token hm
  · intro a b hl ha
    have hl : t₁.mergeRanks.lookup (mergeKey a b) ≠ none := hl
    rw [hext.mergeRanks] at hl
    obtain ⟨left, right, hkey, hleft, hproduct⟩ := hmerged _ hl
    -- a token of the vocab has no space, so the key has one reading
    obtain ⟨id, hid⟩ := Option.isSome_iff_exists.mp (AList.lookup_isSome.mpr hleft)
    obtain ⟨_, htoken⟩ := hnamed left id hid
    obtain ⟨_, _, hunmap⟩ := hget _ _ htoken
    obtain ⟨h1, h2⟩ := mergeKey_inj hkey ha (space_notMem_of_unmap hunmap)
    rw [h1, h2]
    exact hext.ids _ hproduct
  · show ∀ byte bucket, (buildBuckets added).lookup byte = some bucket → _
    intro byte bucket hl
    show ∀ i ∈ bucket, i < t₁.addedTokens.length
    rw [hsame]
    exact buildBuckets_lt added byte bucket hl

theorem tokenBytes_of_getElem? {t : BpeTokenizer} {id : Int} {bytes : Text} (h0 : 0 ≤ id)
    (h : t.idToBytes[id.toNat]? = some bytes) : t.tokenBytes id = some bytes := by
  have hlt := (List.getElem?_eq_some_iff.mp h).1
  unfold tokenBytes
  rw [if_neg (by omega), h]

theorem tokenBytes_of_added {t : BpeTokenizer} (hl : Loaded t) {token : AddedToken}
    (h : token ∈ t.addedTokens) :
    t.tokenBytes token.id = some token.content :=
  tokenBytes_of_getElem? (hl.added token h).1 (hl.tables.entered token h).2

end BpeTokenizer

end InferenceEngine
