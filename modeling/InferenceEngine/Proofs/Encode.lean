/-
Encoding loses nothing.

Every stage hands on consecutive parts of its text, and appends to the ids some that spell the
part it was given.  `Encodes` says both that and that a tokenizer with all byte tokens cannot
fail; the stages are composed by one rule.
-/
import InferenceEngine.Proofs.Lossy
import InferenceEngine.Tokenizer.Encode
import InferenceEngine.Proofs.Load
import InferenceEngine.Proofs.Pretokenize

namespace InferenceEngine

open Except

namespace BpeTokenizer

variable {t : BpeTokenizer} {u : UnicodeTables} {nfcNormalize : Text → Text}

/-! ### What ids spell

A token has bytes of its own, so a list of ids spells a text in one way.  That is what is
compared with the input of every stage. -/

/-- The bytes of the ids, one after the other, are a text. -/
def Spells (t : BpeTokenizer) (ids : List Int) (text : Text) : Prop :=
  ∃ pieces : List Text, ids.map t.tokenBytes = pieces.map some ∧ pieces.flatten = text

theorem Spells.nil : Spells t [] [] := ⟨[], rfl, rfl⟩

theorem Spells.one {id : Int} {text : Text} (h : t.tokenBytes id = some text) :
    Spells t [id] text := ⟨[text], by rw [List.map_cons, h]; rfl, by simp⟩

theorem Spells.append {ids ids' : List Int} {text text' : Text} (h : Spells t ids text)
    (h' : Spells t ids' text') : Spells t (ids ++ ids') (text ++ text') := by
  obtain ⟨pieces, hp, rfl⟩ := h
  obtain ⟨pieces', hp', rfl⟩ := h'
  refine ⟨pieces ++ pieces', ?_, List.flatten_append⟩
  rw [List.map_append, List.map_append, hp, hp']

/-- An added token whose content is a word of the alphabet stands for its own bytes there. -/
def SelfUnmapped (t : BpeTokenizer) : Prop :=
  ∀ token ∈ t.addedTokens, ∀ raw, unmapAlphabetToBytes token.content = .ok raw →
    raw = token.content

/-- Every single-byte token is in the vocab. -/
def Complete (t : BpeTokenizer) : Prop := ∀ b : UInt8, mapBytesToAlphabet [b] ∈ t.tokenToId

/-- The id of a word has the bytes the word is the code of. -/
theorem tokenBytes_of_lookup (hl : Loaded t) (hself : SelfUnmapped t) {raw : Text} {id : Int}
    (h : t.tokenToId.lookup (mapBytesToAlphabet raw) = some id) : t.tokenBytes id = some raw := by
  obtain ⟨h0, htoken⟩ := hl.tables.named _ _ h
  obtain ⟨bytes, hbytes, hcase⟩ := hl.tables.bytes _ _ htoken
  refine tokenBytes_of_getElem? h0 ?_
  rw [hbytes]
  rcases hcase with hunmap | ⟨rfl, token, hmem, hcontent⟩
  · rw [unmap_map] at hunmap
    cases hunmap
    rfl
  · have hraw := hself token hmem raw (by rw [hcontent]; exact unmap_map raw)
    rw [← hcontent, ← hraw]

/-! ### Stages

A stage is given ids and a text, and is to append ids that spell the text.  Stages that follow
one another on consecutive texts make up a stage. -/

/-- A stage that was given a text behind some ids. -/
structure Encodes (t : BpeTokenizer) (r : StatusOr (List Int)) (ids : List Int) (text : Text) :
    Prop where
  spells : ∀ ids', r = .ok ids' → ∃ new, ids' = ids ++ new ∧ Spells t new text
  total : Complete t → ∃ ids', r = .ok ids'

theorem Encodes.nil (ids : List Int) : Encodes t (.ok ids) ids [] := by
  refine ⟨?_, fun _ => ⟨ids, rfl⟩⟩
  intro ids' h
  cases h
  exact ⟨[], (List.append_nil _).symm, .nil⟩

theorem Encodes.one {id : Int} {text : Text} (ids : List Int) (h : t.tokenBytes id = some text) :
    Encodes t (.ok (ids ++ [id])) ids text := by
  refine ⟨?_, fun _ => ⟨_, rfl⟩⟩
  intro ids' h'
  cases h'
  exact ⟨[id], rfl, .one h⟩

/-- A stage and what follows it. -/
theorem Encodes.andThen {r r' : StatusOr (List Int)} {ids : List Int} {text text' : Text}
    (h : Encodes t r ids text) (herr : ∀ status, r = .error status → r' = .error status)
    (hok : ∀ ids', r = .ok ids' → Encodes t r' ids' text') :
    Encodes t r' ids (text ++ text') := by
  cases r with
  | error status =>
      refine ⟨?_, ?_⟩
      · intro ids' hr
        rw [herr status rfl] at hr
        exact absurd hr (by simp)
      · intro hc
        obtain ⟨ids', hids⟩ := h.total hc
        exact absurd hids (by simp)
  | ok ids₁ =>
      obtain ⟨new, rfl, hnew⟩ := h.spells ids₁ rfl
      refine ⟨?_, (hok _ rfl).total⟩
      intro ids' hr
      obtain ⟨new', rfl, hnew'⟩ := (hok _ rfl).spells ids' hr
      exact ⟨new ++ new', List.append_assoc _ _ _, hnew.append hnew'⟩

/-! ### One pretoken

Merging never changes what the symbols spell, and with all byte tokens in the vocab each symbol
is a token at the end. -/

theorem symbolIds_spells (hl : Loaded t) (hself : SelfUnmapped t) (groups : List Text) :
    ∀ (ids ids' : List Int), t.symbolIds (groups.map mapBytesToAlphabet) ids = .ok ids' →
      ∃ new, ids' = ids ++ new ∧ Spells t new groups.flatten := by
  induction groups with
  | nil =>
      intro ids ids' h
      cases h
      exact ⟨[], (List.append_nil _).symm, .nil⟩
  | cons raw groups ih =>
      intro ids ids' h
      rw [List.map_cons, symbolIds] at h
      cases hid : t.tokenToId.lookup (mapBytesToAlphabet raw) with
      | none =>
          rw [hid] at h
          exact absurd h (by simp)
      | some id =>
          rw [hid] at h
          obtain ⟨new, rfl, hnew⟩ := ih _ _ h
          refine ⟨id :: new, by rw [List.append_assoc]; rfl, ?_⟩
          exact (Spells.one (tokenBytes_of_lookup hl hself hid)).append hnew

theorem symbolIds_total (symbols : List Text) (h : ∀ s ∈ symbols, s ∈ t.tokenToId) :
    ∀ ids, ∃ ids', t.symbolIds symbols ids = .ok ids' := by
  induction symbols with
  | nil => intro ids; exact ⟨ids, rfl⟩
  | cons symbol symbols ih =>
      intro ids
      obtain ⟨id, hid⟩ := Option.isSome_iff_exists.mp (AList.lookup_isSome.mpr (h symbol (by simp)))
      rw [symbolIds, hid]
      exact ih (fun s hs => h s (by simp [hs])) _

/-- With all byte tokens, every symbol is a token. -/
theorem bpeSplit_mem (hl : Loaded t) (hc : Complete t) (raw : Text) :
    ∀ s ∈ bpeSplit (mapBytesToAlphabet raw) t.mergeRanks, s ∈ t.tokenToId := by
  have hall : ∀ s ∈ bpeSplit (mapBytesToAlphabet raw) t.mergeRanks,
      s ∈ t.tokenToId ∧ 0x20 ∉ s := by
    unfold bpeSplit
    dsimp only
    refine mergeLoop_all t.mergeRanks ?_ _ _ ?_
    · intro a b ha hb hr
      refine ⟨hl.merged a b hr ha.2, ?_⟩
      intro hm
      rcases List.mem_append.mp hm with hm | hm
      · exact ha.2 hm
      · exact hb.2 hm
    · rw [initialSymbols_map _ raw (le_refl _)]
      intro s hs
      obtain ⟨piece, hpiece, rfl⟩ := List.mem_map.mp hs
      obtain ⟨b, _, rfl⟩ := List.mem_map.mp hpiece
      exact ⟨hc b, space_notMem_map [b]⟩
  exact fun s hs => (hall s hs).1

theorem appendPretokenIds_encodes (hl : Loaded t) (hself : SelfUnmapped t) (raw : Text)
    (ids : List Int) : Encodes t (t.appendPretokenIds raw ids) ids raw := by
  unfold appendPretokenIds
  dsimp only
  cases hwhole : (if t.ignoreMerges then t.tokenToId.lookup (mapBytesToAlphabet raw) else none) with
  | some id =>
      have hid : t.tokenToId.lookup (mapBytesToAlphabet raw) = some id := by
        split at hwhole
        · exact hwhole
        · exact absurd hwhole (by simp)
      exact .one ids (tokenBytes_of_lookup hl hself hid)
  | none =>
      obtain ⟨groups, hgroups, hflat⟩ := bpeSplit_groups t.mergeRanks raw
      refine ⟨?_, fun hc => symbolIds_total _ (bpeSplit_mem hl hc raw) ids⟩
      intro ids' h
      simp only at h
      rw [hgroups] at h
      rw [← hflat]
      exact symbolIds_spells hl hself groups ids ids' h

theorem pretokenIds_encodes (hl : Loaded t) (hself : SelfUnmapped t) (pretokens : List Text) :
    ∀ ids, Encodes t (t.pretokenIds pretokens ids) ids pretokens.flatten := by
  induction pretokens with
  | nil => intro ids; exact .nil ids
  | cons pretoken pretokens ih =>
      intro ids
      rw [pretokenIds, List.flatten_cons]
      refine (appendPretokenIds_encodes hl hself pretoken ids).andThen ?_ ?_
      · intro status h
        rw [h]
        rfl
      · intro ids' h
        rw [h, ok_bind]
        exact ih ids'

/-! ### Pieces

The text is cut at the added tokens.  Without stripping, the pieces cover it: what lies between
two tokens is a piece, and a token stands for its content. -/

/-- Pieces that stand for a text. -/
inductive Covers (tokens : List AddedToken) : List AddedSplitPiece → Text → Prop
  | nil : Covers tokens [] []
  | text {pieces : List AddedSplitPiece} {rest : Text} (part : Text)
      (h : Covers tokens pieces rest) : Covers tokens (⟨part, -1⟩ :: pieces) (part ++ rest)
  | token {pieces : List AddedSplitPiece} {rest : Text} {token : AddedToken}
      (hmem : token ∈ tokens) (h : Covers tokens pieces rest) :
      Covers tokens (⟨[], token.id⟩ :: pieces) (token.content ++ rest)

theorem Covers.append {tokens : List AddedToken} {pieces pieces' : List AddedSplitPiece}
    {text text' : Text} (h : Covers tokens pieces text) (h' : Covers tokens pieces' text') :
    Covers tokens (pieces ++ pieces') (text ++ text') := by
  induction h with
  | nil => exact h'
  | text part _ ih =>
      rw [List.cons_append, List.append_assoc]
      exact .text part ih
  | token hmem _ ih =>
      rw [List.cons_append, List.append_assoc]
      exact .token hmem ih

/-- A bucket is searched for the first token that is in its turn and begins the text. -/
theorem matchBucket_eq {tokens : List AddedToken} (matchNormalized : Bool) (rest : Text)
    (indices : List Nat) (h : ∀ i ∈ indices, i < tokens.length) :
    matchBucket tokens matchNormalized rest indices =
      .ok ((indices.filterMap fun i => tokens[i]?).find? fun token =>
        decide (token.normalized = matchNormalized ∧ token.content.isPrefixOf rest)) := by
  induction indices with
  | nil => rfl
  | cons index indices ih =>
      have hlt := h index (by simp)
      rw [matchBucket, readAt_natCast hlt, ok_bind,
        List.filterMap_cons_some (List.getElem?_eq_getElem hlt), List.find?_cons]
      split
      · rename_i hmatch
        rw [decide_eq_true hmatch]
        rfl
      · rename_i hmatch
        rw [decide_eq_false hmatch]
        exact ih fun i hi => h i (by simp [hi])

theorem matchBucket_spec {tokens : List AddedToken} (matchNormalized : Bool) (rest : Text)
    (indices : List Nat) (h : ∀ i ∈ indices, i < tokens.length) :
    (matchBucket tokens matchNormalized rest indices).Returns fun found =>
      ∀ token, found = some token → token ∈ tokens ∧ token.content <+: rest := by
  rw [matchBucket_eq matchNormalized rest indices h]
  refine returns_ok ?_
  intro token hfound
  obtain ⟨i, _, hi⟩ := List.mem_filterMap.mp (List.mem_of_find?_eq_some hfound)
  have hmatch := List.find?_some hfound
  exact ⟨List.mem_of_getElem? hi, List.isPrefixOf_iff_prefix.mp (of_decide_eq_true hmatch).2⟩

theorem take_append_substr (text : Text) {a b : Nat} (h : a ≤ b) :
    text.take a ++ substr text a (b - a) = text.take b := by
  unfold substr
  rw [← List.take_add]
  congr 1
  omega

/-- The part of the text up to a matched token, as pieces. -/
theorem covers_match {tokens : List AddedToken} {text : Text} {pieces : List AddedSplitPiece}
    {segmentStart pos : Nat} {token : AddedToken}
    (h : Covers tokens pieces (text.take segmentStart))
    (hle : segmentStart ≤ pos) (hmem : token ∈ tokens) (hmatch : token.content <+: text.drop pos) :
    Covers tokens
      ((if segmentStart < pos then
          pieces ++ [⟨substr text segmentStart (pos - segmentStart), -1⟩]
        else pieces) ++ [⟨[], token.id⟩])
      (text.take (pos + token.content.length)) := by
  have hcontent : text.take (pos + token.content.length) = text.take pos ++ token.content := by
    rw [List.take_add, ← List.prefix_iff_eq_take.mp hmatch]
  rw [hcontent]
  have htoken : Covers tokens [⟨[], token.id⟩] token.content := by
    have hone := Covers.token hmem (Covers.nil : Covers tokens [] [])
    rwa [List.append_nil] at hone
  refine Covers.append ?_ htoken
  split
  · have htext := Covers.text (substr text segmentStart (pos - segmentStart))
      (Covers.nil : Covers tokens [] [])
    rw [List.append_nil] at htext
    rw [← take_append_substr text hle]
    exact h.append htext
  · have he : segmentStart = pos := by omega
    rw [← he]
    exact h

theorem splitOnLoop_covers (hl : Loaded t)
    (hstrip : ∀ token ∈ t.addedTokens, token.lstrip = false ∧ token.rstrip = false) (text : Text)
    (matchNormalized : Bool) : ∀ (fuel segmentStart pos : Nat) (pieces : List AddedSplitPiece),
      segmentStart ≤ pos → text.length < pos + fuel → pos ≤ text.length →
      Covers t.addedTokens pieces (text.take segmentStart) →
      (splitOnLoop u text t.addedTokens t.addedBuckets matchNormalized fuel segmentStart pos
        pieces).Returns fun pieces' => Covers t.addedTokens pieces' text := by
  intro fuel
  induction fuel with
  | zero => intro segmentStart pos pieces _ hfuel hpos _; omega
  | succ fuel ih =>
      intro segmentStart pos pieces hle hfuel hpos h
      rw [splitOnLoop]
      by_cases hlt : pos < text.length
      · rw [if_pos hlt]
        cases hb : t.addedBuckets.lookup (text.getD pos 0) with
        | none => exact ih segmentStart (pos + 1) pieces (by omega) (by omega) (by omega) h
        | some bucket =>
            refine Returns.bind (matchBucket_spec matchNormalized (text.drop pos) bucket
              (hl.buckets _ _ hb)) fun found hfound => ?_
            cases found with
            | none => exact ih segmentStart (pos + 1) pieces (by omega) (by omega) (by omega) h
            | some token =>
                obtain ⟨hmem, hmatch⟩ := hfound token rfl
                obtain ⟨hls, hrs⟩ := hstrip token hmem
                have hne := List.length_pos_of_ne_nil (hl.added token hmem).2
                have hfits := hmatch.length_le
                rw [List.length_drop] at hfits
                simp only [hls, hrs, Bool.false_eq_true, if_false]
                exact ih _ _ _ (le_refl _) (by omega) (by omega) (covers_match h hle hmem hmatch)
      · rw [if_neg hlt]
        refine returns_ok ?_
        split
        · have htext := Covers.text (text.drop segmentStart)
            (Covers.nil : Covers t.addedTokens [] [])
          rw [List.append_nil] at htext
          have hall := h.append htext
          rwa [List.take_append_drop] at hall
        · rwa [List.take_of_length_le (by omega)] at h

theorem splitOnAddedTokens_covers (hl : Loaded t)
    (hstrip : ∀ token ∈ t.addedTokens, token.lstrip = false ∧ token.rstrip = false) (text : Text)
    (matchNormalized : Bool) :
    (splitOnAddedTokens u text t.addedTokens t.addedBuckets matchNormalized).Returns fun pieces =>
      Covers t.addedTokens pieces text :=
  splitOnLoop_covers hl hstrip text matchNormalized _ 0 0 [] (le_refl _) (by omega)
    (Nat.zero_le _) .nil

theorem textPieces_encodes (hl : Loaded t) (hself : SelfUnmapped t) {pieces : List AddedSplitPiece}
    {text : Text} (h : Covers t.addedTokens pieces text) : ∀ ids,
      (t.textPieces u pieces ids).Returns fun r => Encodes t r ids text := by
  induction h with
  | nil => intro ids; exact returns_ok (.nil ids)
  | @text pieces rest part _ ih =>
      intro ids
      rw [textPieces, if_neg (show ¬ (0 : Int) ≤ -1 by decide)]
      obtain ⟨spans, hspans, hflat⟩ := pretokenize_flatten (u := u) part t.splitSpec
      have hpart := pretokenIds_encodes hl hself spans ids
      rw [hflat] at hpart
      rw [hspans, ok_bind]
      cases hr : t.pretokenIds spans ids with
      | error status =>
          rw [hr] at hpart
          refine returns_pure (hpart.andThen (fun _ h => h) fun ids' h => ?_)
          exact absurd h (by simp)
      | ok ids₁ =>
          rw [hr] at hpart
          refine (ih ids₁).mono fun r hr' => hpart.andThen (fun _ h => absurd h (by simp)) ?_
          intro ids' h
          cases h
          exact hr'
  | @token pieces rest token hmem _ ih =>
      intro ids
      rw [textPieces, if_pos (hl.added token hmem).1]
      have hone := Encodes.one ids (tokenBytes_of_added hl hmem)
      refine (ih (ids ++ [token.id])).mono fun r hr => hone.andThen
        (fun _ h => absurd h (by simp)) ?_
      intro ids' h
      cases h
      exact hr

/-! ### Segments

Normalization is applied to the well-formed parts only.  Where it is off, a segment is encoded
as it stands, and the invalid runs between the parts pass through unchanged. -/

section

variable (hl : Loaded t) (hself : SelfUnmapped t) (hnfc : t.normalizeNfc = false)
  (hstrip : ∀ token ∈ t.addedTokens, token.lstrip = false ∧ token.rstrip = false)

include hl hself hnfc hstrip

theorem encodeTextSegment_encodes (segment : Text) (ids : List Int) :
    (t.encodeTextSegment u nfcNormalize segment ids).Returns fun r => Encodes t r ids segment := by
  unfold encodeTextSegment
  rw [hnfc]
  refine Returns.bind (splitOnAddedTokens_covers hl hstrip segment true) fun pieces hp => ?_
  exact textPieces_encodes hl hself hp ids

omit hl hself hnfc hstrip in
theorem invalidRunEnd_bounds (segment : Text) : ∀ (fuel pos : Nat), pos ≤ segment.length →
    pos ≤ invalidRunEnd segment fuel pos ∧ invalidRunEnd segment fuel pos ≤ segment.length := by
  intro fuel
  induction fuel with
  | zero => intro pos h; exact ⟨le_refl _, h⟩
  | succ fuel ih =>
      intro pos h
      rw [invalidRunEnd]
      split
      · rename_i hc
        obtain ⟨h1, h2⟩ := ih (pos + 1) hc.1
        exact ⟨by omega, h2⟩
      · exact ⟨le_refl _, h⟩

omit hl hself hnfc hstrip in
theorem drop_eq_substr (segment : Text) {a b : Nat} (h : a ≤ b) :
    segment.drop a = substr segment a (b - a) ++ segment.drop b := by
  unfold substr
  rw [show segment.drop b = (segment.drop a).drop (b - a) by rw [List.drop_drop]; congr 1; omega,
    List.take_append_drop]

theorem encodeValidPart_encodes (segment : Text) (validStart pos : Nat) (ids : List Int) :
    (t.encodeValidPart u nfcNormalize segment validStart pos ids).Returns fun r =>
      Encodes t r ids (substr segment validStart (pos - validStart)) := by
  unfold encodeValidPart
  split
  · exact encodeTextSegment_encodes hl hself hnfc hstrip _ ids
  · have hnone : substr segment validStart (pos - validStart) = [] := by
      unfold substr
      rw [show pos - validStart = 0 by omega, List.take_zero]
    rw [hnone]
    exact returns_ok (.nil ids)

theorem segmentLoop_encodes (segment : Text) : ∀ (fuel validStart pos : Nat) (ids : List Int),
    validStart ≤ pos → segment.length < pos + fuel → pos ≤ segment.length →
    (t.segmentLoop u nfcNormalize segment fuel validStart pos ids).Returns fun r =>
      Encodes t r ids (segment.drop validStart) := by
  intro fuel
  induction fuel with
  | zero => intro validStart pos ids _ hfuel hpos; omega
  | succ fuel ih =>
      intro validStart pos ids hle hfuel hpos
      rw [segmentLoop]
      by_cases hlt : pos < segment.length
      · rw [if_pos hlt]
        cases hd : decodeUtf8 (segment.drop pos) with
        | some r =>
            obtain ⟨codepoint, length⟩ := r
            obtain ⟨h1, h2⟩ := decodeUtf8_length hd
            rw [List.length_drop] at h2
            exact ih validStart (pos + length) ids (by omega) (by omega) (by omega)
        | none =>
            -- the valid part, the run that does not decode, and what follows
            obtain ⟨hr1, hr2⟩ := invalidRunEnd_bounds segment segment.length (pos + 1) hlt
            generalize invalidRunEnd segment segment.length (pos + 1) = runEnd at *
            refine Returns.bind (encodeValidPart_encodes hl hself hnfc
              hstrip segment validStart pos ids) fun before hb => ?_
            rw [drop_eq_substr segment hle]
            cases before with
            | error status =>
                refine returns_pure (hb.andThen (fun _ h => h) fun ids' h => ?_)
                exact absurd h (by simp)
            | ok ids₁ =>
                have hrun := appendPretokenIds_encodes hl hself
                  (substr segment pos (runEnd - pos)) ids₁
                rw [drop_eq_substr segment (show pos ≤ runEnd by omega)]
                simp only
                cases hp : t.appendPretokenIds (substr segment pos (runEnd - pos)) ids₁ with
                | error status =>
                    rw [hp] at hrun
                    refine returns_pure (hb.andThen (fun _ h => absurd h (by simp)) ?_)
                    intro ids' h
                    cases h
                    refine hrun.andThen (fun _ h => h) fun ids' h => ?_
                    exact absurd h (by simp)
                | ok ids₂ =>
                    rw [hp] at hrun
                    refine (ih runEnd runEnd ids₂ (le_refl _) (by omega) hr2).mono fun r hr => ?_
                    refine hb.andThen (fun _ h => absurd h (by simp)) ?_
                    intro ids' h
                    cases h
                    refine hrun.andThen (fun _ h => absurd h (by simp)) ?_
                    intro ids' h
                    cases h
                    exact hr
      · rw [if_neg hlt]
        split
        · exact encodeTextSegment_encodes hl hself hnfc hstrip _ ids
        · rw [List.drop_eq_nil_of_le (by omega)]
          exact returns_ok (.nil ids)

theorem rawPieces_encodes {pieces : List AddedSplitPiece} {text : Text}
    (h : Covers t.addedTokens pieces text) : ∀ ids,
      (t.rawPieces u nfcNormalize pieces ids).Returns fun r => Encodes t r ids text := by
  induction h with
  | nil => intro ids; exact returns_ok (.nil ids)
  | @text pieces rest part _ ih =>
      intro ids
      rw [rawPieces, if_neg (show ¬ (0 : Int) ≤ -1 by decide)]
      refine Returns.bind (segmentLoop_encodes hl hself hnfc hstrip part (part.length + 1) 0 0 ids
        (le_refl _) (by omega) (Nat.zero_le _)) fun encoded hpart => ?_
      rw [List.drop_zero] at hpart
      cases encoded with
      | error status =>
          refine returns_pure (hpart.andThen (fun _ h => h) fun ids' h => ?_)
          exact absurd h (by simp)
      | ok ids₁ =>
          refine (ih ids₁).mono fun r hr' => hpart.andThen (fun _ h => absurd h (by simp)) ?_
          intro ids' h
          cases h
          exact hr'
  | @token pieces rest token hmem _ ih =>
      intro ids
      rw [rawPieces, if_pos (hl.added token hmem).1]
      have hone := Encodes.one ids (tokenBytes_of_added hl hmem)
      refine (ih (ids ++ [token.id])).mono fun r hr => hone.andThen
        (fun _ h => absurd h (by simp)) ?_
      intro ids' h
      cases h
      exact hr

end

theorem encode_encodes (u : UnicodeTables) (nfcNormalize : Text → Text) {t : BpeTokenizer}
    (hl : t.Loaded) (hnfc : t.normalizeNfc = false)
    (hstrip : ∀ token ∈ t.addedTokens, token.lstrip = false ∧ token.rstrip = false)
    (hself : ∀ token ∈ t.addedTokens, ∀ raw, unmapAlphabetToBytes token.content = .ok raw →
      raw = token.content) (text : Text) :
    (t.encode u nfcNormalize text false).Returns fun r => Encodes t r [] text := by
  unfold encode
  refine Returns.bind (splitOnAddedTokens_covers hl hstrip text false) fun pieces hp => ?_
  refine Returns.bind (rawPieces_encodes hl hself hnfc hstrip hp []) fun encoded he => ?_
  cases encoded with
  | error status => exact returns_pure he
  | ok ids => exact returns_pure he

/-- **Lossless tokenization: the ids of any byte string spell it, and with all byte tokens in
the vocab encoding cannot fail.** -/
theorem encode_lossless (u : UnicodeTables) (nfcNormalize : Text → Text) (root : Option Json)
    (t : BpeTokenizer) (hload : fromJson root = .ok t) (hnfc : t.normalizeNfc = false)
    (hstrip : ∀ token ∈ t.addedTokens, token.lstrip = false ∧ token.rstrip = false)
    (hself : ∀ token ∈ t.addedTokens, ∀ raw, unmapAlphabetToBytes token.content = .ok raw →
      raw = token.content) (text : Text) :
    ∃ result, t.encode u nfcNormalize text false = .ok result ∧
      (∀ ids, result = .ok ids → ∃ pieces : List Text,
        ids.map t.tokenBytes = pieces.map some ∧ pieces.flatten = text) ∧
      ((∀ b : UInt8, mapBytesToAlphabet [b] ∈ t.tokenToId) → ∃ ids, result = .ok ids) := by
  obtain ⟨result, hresult, hr⟩ :=
    encode_encodes u nfcNormalize (fromJson_loaded hload) hnfc hstrip hself text
  refine ⟨result, hresult, ?_, hr.total⟩
  intro ids hids
  obtain ⟨new, hnew, pieces, hpieces, hflat⟩ := hr.spells ids hids
  rw [List.nil_append] at hnew
  exact ⟨pieces, by rw [hnew]; exact hpieces, hflat⟩

/-- A document with the byte tokens `a` and `b`, their merge, and an added token. -/
def smallDocument : Json :=
  let split := Json.object
    [(ascii "type", .string (ascii "Split")),
      (ascii "pattern", .object [(ascii "Regex", .string (ascii kCl100kPattern))]),
      (ascii "behavior", .string (ascii "Isolated"))]
  let byteLevel := Json.object
    [(ascii "type", .string (ascii "ByteLevel")), (ascii "add_prefix_space", .bool false),
      (ascii "use_regex", .bool false)]
  .object
    [(ascii "added_tokens", .array
        [.object [(ascii "id", .integer 3), (ascii "content", .string (ascii "<s>"))]]),
      (ascii "model", .object
        [(ascii "type", .string (ascii "BPE")),
          (ascii "vocab", .object
            [(ascii "a", .integer 0), (ascii "ab", .integer 2), (ascii "b", .integer 1)]),
          (ascii "merges", .array [.string (ascii "a b")])]),
      (ascii "pre_tokenizer", .object
        [(ascii "type", .string (ascii "Sequence")),
          (ascii "pretokenizers", .array [split, byteLevel])])]

/-- What `encode_lossless` asks of a tokenizer, as a test. -/
def isLossless (t : BpeTokenizer) : Bool :=
  !t.normalizeNfc && t.addedTokens.all fun token =>
    !token.lstrip && !token.rstrip &&
      match unmapAlphabetToBytes token.content with
      | .ok raw => raw == token.content
      | .error _ => true

theorem isLossless_spec {t : BpeTokenizer} (h : t.isLossless = true) : t.normalizeNfc = false ∧
    (∀ token ∈ t.addedTokens, token.lstrip = false ∧ token.rstrip = false) ∧
    ∀ token ∈ t.addedTokens, ∀ raw, unmapAlphabetToBytes token.content = .ok raw →
      raw = token.content := by
  unfold isLossless at h
  simp only [Bool.and_eq_true, List.all_eq_true, Bool.not_eq_true'] at h
  obtain ⟨hnfc, hall⟩ := h
  refine ⟨hnfc, fun token hmem => (hall token hmem).1, ?_⟩
  intro token hmem raw hraw
  have hself := (hall token hmem).2
  rw [hraw] at hself
  exact eq_of_beq hself

theorem smallDocument_loads : ∃ t, fromJson (some smallDocument) = .ok t ∧ t.isLossless = true := by
  have h : (match fromJson (some smallDocument) with
      | .ok t => t.isLossless
      | .error _ => false) = true := by decide +kernel
  cases hload : fromJson (some smallDocument) with
  | error status => rw [hload] at h; exact absurd h (by simp)
  | ok t => rw [hload] at h; exact ⟨t, rfl, h⟩

theorem encode_lossless_small : ∃ t, fromJson (some smallDocument) = .ok t ∧
    ∃ result, t.encode asciiTables id (ascii "ab<s>a") false = .ok result ∧
      (∀ ids, result = .ok ids → ∃ pieces : List Text,
        ids.map t.tokenBytes = pieces.map some ∧ pieces.flatten = ascii "ab<s>a") ∧
      ((∀ b : UInt8, mapBytesToAlphabet [b] ∈ t.tokenToId) → ∃ ids, result = .ok ids) := by
  obtain ⟨t, hload, ht⟩ := smallDocument_loads
  obtain ⟨hnfc, hstrip, hself⟩ := isLossless_spec ht
  exact ⟨t, hload, encode_lossless asciiTables id (some smallDocument) t hload hnfc hstrip hself
    (ascii "ab<s>a")⟩

/-! ### Decoding what was encoded

The bytes of the ids are those of the segments, and they are the normalized text. -/

/-- A decoder that skips nothing puts the bytes of the ids together. -/
theorem decodeBytes_pieces (t : Tokenizer) {ids : List Int} {pieces : List Text}
    (h : ids.map t.tokenBytes = pieces.map some) (i : Nat) (bytes : Text) :
    t.decodeBytes false i ids bytes = .ok (bytes ++ pieces.flatten) := by
  induction ids generalizing pieces i bytes with
  | nil =>
      cases pieces with
      | nil => rw [Tokenizer.decodeBytes, List.flatten_nil, List.append_nil]
      | cons piece rest => cases h
  | cons id ids ih =>
      cases pieces with
      | nil => cases h
      | cons piece rest =>
          rw [List.map_cons, List.map_cons, List.cons.injEq] at h
          rw [Tokenizer.decodeBytes, h.1]
          dsimp only
          rw [if_neg (by simp), ih h.2, List.flatten_cons, List.append_assoc]

/-- **Decoding undoes encoding**: what comes back is the text, repaired where it is not
well-formed UTF-8. -/
theorem decode_encode (u : UnicodeTables) (nfcNormalize : Text → Text) {root : Option Json}
    {t : BpeTokenizer} (hload : fromJson root = .ok t) (hnfc : t.normalizeNfc = false)
    (hstrip : ∀ token ∈ t.addedTokens, token.lstrip = false ∧ token.rstrip = false)
    (hself : ∀ token ∈ t.addedTokens, ∀ raw, unmapAlphabetToBytes token.content = .ok raw →
      raw = token.content) {text : Text} {ids : List Int}
    (hids : t.encode u nfcNormalize text false = .ok (.ok ids)) :
    ∃ decoded, t.toTokenizer.decode ids false = .ok decoded ∧
        Utf8.Repaired replacementCharacter text decoded ∧
        (Utf8.WellFormed text → decoded = text) := by
  obtain ⟨result, hresult, hr⟩ :=
    encode_encodes u nfcNormalize (fromJson_loaded hload) hnfc hstrip hself text
  rw [hids] at hresult
  cases hresult
  obtain ⟨new, rfl, pieces, hpieces, hflat⟩ := hr.spells ids rfl
  have hbytes := decodeBytes_pieces t.toTokenizer hpieces 0 []
  refine ⟨lossy text, ?_, lossy_repaired text, fun hwf =>
    (lossy_repaired text).unique (.of_wellFormed hwf)⟩
  rw [Tokenizer.decode, hbytes, Except.ok_bind, List.nil_append, hflat,
    appendUtf8Lossy_eq, List.nil_append]
  rfl

end BpeTokenizer

end InferenceEngine
