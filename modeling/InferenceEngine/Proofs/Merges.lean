/-
The merge loop is the procedure of merging neighbours by rank.

The scan looks for a rank below the largest 32-bit integer and settles on the leftmost lowest
one.  So the loop makes the merges of the procedure, one after the other, up to the first whose
rank is that large; there it stops.

The tables that come from a document have a rank for pairs of tokens only, and a key stands for
one pair since no token has a space in it.
-/
import InferenceEngine.Lib.PairMerge
import InferenceEngine.Proofs.Document

namespace InferenceEngine

open PairMerge Except

/-- The rank of a pair. -/
def pairRank (ranks : TextMap Int) (left right : Text) : Option Int :=
  ranks.lookup (mergeKey left right)

/-! ### The scan

The scan compares with `<`, from the left, so that the first of several lowest ranks is kept. 
It starts with the largest integer, and a pair of that rank is passed over. -/

/-- What the scan settles on, when it starts at `i` with a best so far. -/
inductive Scanned (ranks : TextMap Int) (symbols : List Text) (i : Nat) (bestRank : Int)
    (best : Option Nat) : Option Nat → Prop
  | kept (h : ∀ before a b after r, symbols = before ++ a :: b :: after →
      pairRank ranks a b = some r → bestRank ≤ r) : Scanned ranks symbols i bestRank best best
  | found {before : List Text} {a b : Text} {after : List Text} {r : Int}
      (h : Lowest (pairRank ranks) symbols before a b after r) (hlt : r < bestRank) :
      Scanned ranks symbols i bestRank best (some (i + before.length))

private theorem scanned_short {ranks : TextMap Int} {symbols : List Text} {i : Nat}
    {bestRank : Int} {best : Option Nat} (h : symbols.length ≤ 1) :
    Scanned ranks symbols i bestRank best best := by
  refine .kept fun before a b after r hs hr => ?_
  have hnone : pairRank ranks a b = none := settled_of_length_le h before a b after hs
  rw [hnone] at hr
  cases hr

/-- The first pair changes nothing. -/
private theorem Scanned.skip {ranks : TextMap Int} {a b : Text} {rest : List Text} {i : Nat}
    {bestRank : Int} {best found : Option Nat}
    (h : Scanned ranks (b :: rest) (i + 1) bestRank best found)
    (hfirst : ∀ r, pairRank ranks a b = some r → bestRank ≤ r) :
    Scanned ranks (a :: b :: rest) i bestRank best found := by
  cases h with
  | kept h =>
      refine .kept fun before x y after r hs hr => ?_
      rcases neighbours_cons hs with ⟨-, rfl, rfl, -⟩ | ⟨before', -, hs'⟩
      · exact hfirst r hr
      · exact h before' x y after r hs' hr
  | @found before x y after r h hlt =>
      have hcount : i + 1 + before.length = i + (a :: before).length := by
        rw [List.length_cons]
        omega
      rw [hcount]
      exact .found (h.tail fun s hs => lt_of_lt_of_le hlt (hfirst s hs)) hlt

/-- The first pair is the best so far. -/
private theorem Scanned.take {ranks : TextMap Int} {a b : Text} {rest : List Text} {i : Nat}
    {bestRank rank : Int} {best found : Option Nat} (hrank : pairRank ranks a b = some rank)
    (hlt : rank < bestRank) (h : Scanned ranks (b :: rest) (i + 1) rank (some i) found) :
    Scanned ranks (a :: b :: rest) i bestRank best found := by
  cases h with
  | kept h => exact .found (.head hrank h) hlt
  | @found before x y after r h hlt' =>
      have hcount : i + 1 + before.length = i + (a :: before).length := by
        rw [List.length_cons]
        omega
      rw [hcount]
      refine .found (h.tail fun s hs => ?_) (lt_trans hlt' hlt)
      rw [hrank] at hs
      cases hs
      exact hlt'

/-- **The scan settles on the leftmost pair of the lowest rank.** -/
theorem scanPairs_spec (ranks : TextMap Int) (symbols : List Text) :
    ∀ (i : Nat) (bestRank : Int) (best : Option Nat),
      Scanned ranks symbols i bestRank best (scanPairs ranks symbols i bestRank best) := by
  induction symbols with
  | nil => intro i bestRank best; exact scanned_short (Nat.zero_le _)
  | cons a symbols ih =>
      intro i bestRank best
      cases symbols with
      | nil => exact scanned_short (Nat.le_refl 1)
      | cons b rest =>
          rw [scanPairs]
          cases hrank : ranks.lookup (mergeKey a b) with
          | none =>
              refine (ih (i + 1) bestRank best).skip fun r hr => ?_
              rw [pairRank, hrank] at hr
              cases hr
          | some rank =>
              dsimp only
              by_cases hlt : rank < bestRank
              · rw [if_pos hlt]
                exact .take hrank hlt (ih (i + 1) rank (some i))
              · rw [if_neg hlt]
                refine (ih (i + 1) bestRank best).skip fun r hr => ?_
                rw [pairRank, hrank] at hr
                cases hr
                exact not_lt.mp hlt

/-! ### The loop

Each merge is a step of the procedure until its lowest rank is the one the scan starts with. -/

private theorem mergeLoop_settled {ranks : TextMap Int} {symbols : List Text}
    (h : Settled (pairRank ranks) symbols) (fuel : Nat) :
    mergeLoop ranks fuel symbols = symbols := by
  cases fuel with
  | zero => rfl
  | succ fuel =>
      rw [mergeLoop]
      by_cases hshort : symbols.length ≤ 1
      · rw [if_pos hshort]
      · rw [if_neg hshort]
        have hscan := scanPairs_spec ranks symbols 0 (2 ^ 31 - 1) none
        revert hscan
        generalize scanPairs ranks symbols 0 (2 ^ 31 - 1) none = found
        intro hscan
        cases hscan with
        | kept _ => rfl
        | found hlowest _ => exact absurd h hlowest.not_settled

/-- A merge of the procedure, unless its rank is too large. -/
private theorem mergeLoop_lowest {ranks : TextMap Int} {symbols before after : List Text}
    {a b : Text} {r : Int} (h : Lowest (pairRank ranks) symbols before a b after r) (fuel : Nat) :
    mergeLoop ranks (fuel + 1) symbols
      = if r < int32Max then mergeLoop ranks fuel (before ++ (a ++ b) :: after) else symbols := by
  have hlong : ¬symbols.length ≤ 1 := by
    rw [h.split, List.length_append, List.length_cons, List.length_cons]
    omega
  rw [mergeLoop, if_neg hlong]
  have hscan := scanPairs_spec ranks symbols 0 int32Max none
  change Scanned _ _ _ _ _ (scanPairs ranks symbols 0 (2 ^ 31 - 1) none) at hscan
  revert hscan
  generalize scanPairs ranks symbols 0 (2 ^ 31 - 1) none = found
  intro hscan
  cases hscan with
  | kept hkept => rw [if_neg (not_lt.mpr (hkept before a b after r h.split h.ranked))]
  | found hlowest hlt =>
      obtain ⟨rfl, rfl, rfl, rfl, rfl⟩ := h.unique hlowest
      rw [if_pos hlt, Nat.zero_add]
      dsimp only
      rw [h.split, mergeAt_append]

/-- **The loop keeps to the procedure up to the first rank that is too large.** -/
theorem mergeLoop_run {ranks : TextMap Int} {symbols result : List Text} {used : List Int}
    (h : Run (pairRank ranks) (· ++ ·) symbols used result) :
    ∀ {fuel : Nat}, symbols.length ≤ fuel →
      ((∀ r ∈ used, r < int32Max) → mergeLoop ranks fuel symbols = result) ∧
      (Settled (pairRank ranks) (mergeLoop ranks fuel symbols) → ∀ r ∈ used, r < int32Max) := by
  induction h with
  | done hsettled =>
      intro fuel _
      exact ⟨fun _ => mergeLoop_settled hsettled fuel, by simp⟩
  | @merge symbols before after result a b r used hlowest _ ih =>
      intro fuel hfuel
      rw [hlowest.split, List.length_append, List.length_cons, List.length_cons] at hfuel
      obtain ⟨fuel, rfl⟩ : ∃ n, fuel = n + 1 := ⟨fuel - 1, by omega⟩
      have hrest : (before ++ (a ++ b) :: after).length ≤ fuel := by
        rw [List.length_append, List.length_cons]
        omega
      obtain ⟨hresult, hused⟩ := ih hrest
      rw [mergeLoop_lowest hlowest]
      by_cases hlt : r < int32Max
      · rw [if_pos hlt]
        refine ⟨fun hall => hresult fun s hs => hall s (List.mem_cons_of_mem _ hs), ?_⟩
        intro hsettled s hs
        rcases List.mem_cons.mp hs with rfl | hs
        · exact hlt
        · exact hused hsettled s hs
      · rw [if_neg hlt]
        exact ⟨fun hall => absurd (hall r List.mem_cons_self) hlt,
          fun hsettled => absurd hsettled hlowest.not_settled⟩

/-- The symbols a word starts with. -/
theorem initialSymbols_word (raw : Text) :
    initialSymbols (mapBytesToAlphabet raw).length (mapBytesToAlphabet raw)
      = raw.map byteCode := by
  rw [initialSymbols_map _ raw (Nat.le_refl _), List.map_map]
  refine List.map_congr_left fun b _ => ?_
  rw [Function.comp_apply, mapBytesToAlphabet_singleton]

/-- What holds of the codes of the bytes and of every product holds of the symbols. -/
theorem bpeSplit_all (ranks : TextMap Int) {P : Text → Prop} (hbyte : ∀ b, P (byteCode b))
    (hmerge : ∀ a b, P a → P b → pairRank ranks a b ≠ none → P (a ++ b)) (raw : Text) :
    ∀ s ∈ bpeSplit (mapBytesToAlphabet raw) ranks, P s := by
  unfold bpeSplit
  dsimp only
  rw [initialSymbols_word]
  refine mergeLoop_all ranks hmerge _ _ fun s hs => ?_
  obtain ⟨b, _, rfl⟩ := List.mem_map.mp hs
  exact hbyte b

theorem bpeSplit_ne_nil (ranks : TextMap Int) (raw : Text) :
    ∀ s ∈ bpeSplit (mapBytesToAlphabet raw) ranks, s ≠ [] := by
  refine bpeSplit_all ranks (P := fun s => s ≠ []) byteCode_ne_nil ?_ raw
  intro a b ha _ _ hnil
  exact ha (List.append_eq_nil_iff.mp hnil).1

theorem bpeSplit_flatten (ranks : TextMap Int) (raw : Text) :
    (bpeSplit (mapBytesToAlphabet raw) ranks).flatten = mapBytesToAlphabet raw := by
  obtain ⟨groups, hgroups, hflat⟩ := bpeSplit_groups ranks raw
  rw [hgroups, ← hflat]
  clear hgroups hflat
  induction groups with
  | nil => rfl
  | cons group groups ih =>
      rw [List.map_cons, List.flatten_cons, List.flatten_cons, mapBytesToAlphabet_append, ih]

/-- **The symbols are those of the procedure exactly when its ranks are small enough.** -/
theorem bpeSplit_run (ranks : TextMap Int) {raw : Text} {used : List Int} {result : List Text}
    (h : Run (pairRank ranks) (· ++ ·) (raw.map byteCode) used result) :
    (Settled (pairRank ranks) (bpeSplit (mapBytesToAlphabet raw) ranks) ∧
      bpeSplit (mapBytesToAlphabet raw) ranks = result) ↔ ∀ r ∈ used, r < int32Max := by
  have hsplit : bpeSplit (mapBytesToAlphabet raw) ranks
      = mergeLoop ranks (raw.map byteCode).length (raw.map byteCode) := by
    unfold bpeSplit
    dsimp only
    rw [initialSymbols_word]
  obtain ⟨hresult, hsettled⟩ := mergeLoop_run h (Nat.le_refl _)
  rw [hsplit]
  refine ⟨fun hboth => hsettled hboth.1, fun hall => ?_⟩
  rw [hresult hall]
  exact ⟨h.settled, rfl⟩

/-! ### Tables from a document

The key of a pair is its two sides with a space between them.  No symbol has a space in it, so
two pairs have two keys. -/

/-- A key of two parts without spaces has no other reading. -/
theorem mergeKey_unique {a b a' b' : Text} (ha : 0x20 ∉ a) (hb : 0x20 ∉ b)
    (h : mergeKey a' b' = mergeKey a b) : a' = a ∧ b' = b := by
  have ha' : 0x20 ∉ a' := by
    intro hmem
    have hcount := congrArg (List.count 0x20) h
    unfold mergeKey at hcount
    rw [List.count_append, List.count_append, List.count_cons_self, List.count_cons_self,
      List.count_eq_zero.mpr ha, List.count_eq_zero.mpr hb] at hcount
    have hpos := List.count_pos_iff.mpr hmem
    omega
  exact mergeKey_inj h ha' ha

/-- What the merges of a document are. -/
structure MergeTable (model : ModelData) : Prop where
  /-- A key joins two tokens to a token, and can be read in one way. -/
  keys : ∀ key, model.mergeRanks.lookup key ≠ none → ∃ left right, key = mergeKey left right ∧
    left ∈ model.tokenToId ∧ right ∈ model.tokenToId ∧ left ++ right ∈ model.tokenToId ∧
    ∀ left' right', key = mergeKey left' right' → left' = left ∧ right' = right

theorem mergeTable_of_loaded {root : Json} {t : BpeTokenizer}
    (h : BpeTokenizer.fromJson (some root) = .ok t) :
    ∃ model, parseModel root = .ok model ∧ t.mergeRanks = model.mergeRanks ∧
      MergeTable model := by
  obtain ⟨model, added, idToBytes, t₁, inserts, nfc, spec, hmodel, hadded, hbytes, ht₁, -, rfl⟩ :=
    BpeTokenizer.fromJson_stages h
  obtain ⟨hnamed, -⟩ := parseModel_spec hmodel
  obtain ⟨_, _, _, hext⟩ := BpeTokenizer.addTokens_spec _ added 0 _ t₁ []
    (.start added hnamed hbytes) (le_refl _)
    (fun token hm => ⟨hm, (parseAddedTokens_spec hadded token hm).1⟩) ht₁
  -- what is in the vocab has been unmapped, so there is no space in it
  have hspace : ∀ w, w ∈ model.tokenToId → 0x20 ∉ w := by
    intro w hw
    obtain ⟨id, hid⟩ := Option.isSome_iff_exists.mp (AList.lookup_isSome.mpr hw)
    obtain ⟨_, _, hunmap⟩ := (BpeTokenizer.unmapVocab_spec _ _ _ hbytes).2 _ _ (hnamed w id hid).2
    exact space_notMem_of_unmap hunmap
  refine ⟨model, hmodel, hext.mergeRanks, ⟨fun key hkey => ?_⟩⟩
  obtain ⟨fields, items, entries, flags, read, -, -, -, -, hranks, hvocab, hmerges⟩ :=
    parseModel_sections hmodel
  obtain ⟨merges, -, hread⟩ := mergesLoop_read _ _ _ _ hmerges
  have hnone : read.mergeRanks = ∅ := by
    rw [vocabLoop_mergeRanks _ _ _ _ _ hvocab]
    exact hranks
  rcases (hread.lookup key).mp hkey with hold | ⟨⟨left, right⟩, hp, rfl⟩
  · rw [hnone] at hold
    exact absurd (AList.lookup_empty key) hold
  · obtain ⟨hleft, hright, hproduct⟩ := hread.parts _ hp
    rw [← hread.tokens.1] at hleft hright hproduct
    exact ⟨left, right, rfl, hleft, hright, hproduct, fun left' right' heq =>
      mergeKey_unique (hspace _ hleft) (hspace _ hright) heq.symm⟩

/-- A symbol is the code of a byte or a token. -/
theorem MergeTable.symbols {model : ModelData} (h : MergeTable model) (raw : Text) :
    ∀ s ∈ bpeSplit (mapBytesToAlphabet raw) model.mergeRanks,
      (∃ b, s = byteCode b) ∨ s ∈ model.tokenToId := by
  refine bpeSplit_all _ (P := fun s => (∃ b, s = byteCode b) ∨ s ∈ model.tokenToId)
    (fun b => Or.inl ⟨b, rfl⟩) ?_ raw
  intro a b _ _ hrank
  obtain ⟨left, right, hkey, -, -, hproduct, hunique⟩ := h.keys _ hrank
  obtain ⟨rfl, rfl⟩ := hunique a b rfl
  exact Or.inr hproduct

/-! ### The merge loop and its tables

The ranks of a document are the places of its merges, so they are small unless there are `2 ^
31` of them. -/

/-- **The merge loop is the procedure as long as its ranks are below the largest integer, and
the tables of a document can be read in one way.** -/
theorem bpeSplit_reference (ranks : TextMap Int) (raw : Text) :
    (∀ s ∈ bpeSplit (mapBytesToAlphabet raw) ranks, s ≠ []) ∧
    (bpeSplit (mapBytesToAlphabet raw) ranks).flatten = mapBytesToAlphabet raw ∧
    (∃ used result, Run (pairRank ranks) (· ++ ·) (raw.map byteCode) used result ∧
      ((Settled (pairRank ranks) (bpeSplit (mapBytesToAlphabet raw) ranks) ∧
        bpeSplit (mapBytesToAlphabet raw) ranks = result) ↔ ∀ r ∈ used, r < int32Max)) ∧
    ∀ (root : Json) (t : BpeTokenizer), BpeTokenizer.fromJson (some root) = .ok t →
      ∃ model, parseModel root = .ok model ∧ t.mergeRanks = model.mergeRanks ∧
        MergeTable model ∧
        ∀ s ∈ bpeSplit (mapBytesToAlphabet raw) t.mergeRanks,
          (∃ b, s = byteCode b) ∨ s ∈ model.tokenToId := by
  refine ⟨bpeSplit_ne_nil ranks raw, bpeSplit_flatten ranks raw, ?_, ?_⟩
  · obtain ⟨used, result, hrun⟩ := Run.exists (pairRank ranks) (· ++ ·) (raw.map byteCode)
    exact ⟨used, result, hrun, bpeSplit_run ranks hrun⟩
  · intro root t ht
    obtain ⟨model, hmodel, hranks, htable⟩ := mergeTable_of_loaded ht
    refine ⟨model, hmodel, hranks, htable, ?_⟩
    rw [hranks]
    exact htable.symbols raw

/-- A table whose only rank is the largest integer. -/
def lastRank : TextMap Int := (∅ : TextMap Int).insert (mergeKey (ascii "a") (ascii "b")) int32Max

/-- The pair is in the table, and stays. -/
theorem bpeSplit_lastRank : ¬∀ (ranks : TextMap Int) (raw : Text),
    Settled (pairRank ranks) (bpeSplit (mapBytesToAlphabet raw) ranks) := by
  intro h
  have hsplit : bpeSplit (mapBytesToAlphabet (ascii "ab")) lastRank
      = [ascii "a", ascii "b"] := by decide +kernel
  have hnone := h lastRank (ascii "ab") [] (ascii "a") (ascii "b") [] hsplit
  unfold pairRank lastRank at hnone
  rw [AList.lookup_insert] at hnone
  cases hnone

end InferenceEngine
