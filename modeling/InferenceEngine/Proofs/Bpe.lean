/-
The byte alphabet is a code, and the merge loop only joins neighbours.

A byte becomes a codepoint of one or two bytes, the first of which is no continuation byte, so
the initial symbols of a word are the codes of its bytes.  Joining symbols joins the bytes they
stand for: after any number of merges the symbols are the codes of some consecutive pieces of
the raw text.
-/
import InferenceEngine.Tokenizer.Bpe
import InferenceEngine.Proofs.Unicode

namespace InferenceEngine

/-! ### The tables

The bytes that print as themselves keep their values, and the others are numbered from 256 on. 
The loop keeps the two tables inverse to each other. -/

/-- How many bytes are still to be remapped. -/
def remapped (bytes : List Nat) : Nat := (bytes.filter fun b => !isPrintableLatin b).length

/-- What the loop has made of the bytes below `n`. -/
structure Built (n next : Nat) (t : AlphabetTables) : Prop where
  alphabetLength : t.toAlphabet.length = 256
  byteLength : t.toByte.length = kInverseSize
  next_ge : 0x100 ≤ next
  code : ∀ b < n, ∃ c, t.toAlphabet[b]? = some c ∧ t.toByte[c]? = some (b : Int) ∧
    ((isPrintableLatin b = true ∧ c = b) ∨ (0x100 ≤ c ∧ c < next))

/-- One more byte. -/
theorem Built.step {n next : Nat} {t : AlphabetTables} (h : Built n next t) (hn : n < 256)
    (hnext : isPrintableLatin n = false → next < kInverseSize) :
    Built (n + 1) (if isPrintableLatin n then next else next + 1)
      ⟨t.toAlphabet.set n (if isPrintableLatin n then n else next),
        t.toByte.set (if isPrintableLatin n then n else next) n⟩ := by
  have hge := h.next_ge
  have hc : (if isPrintableLatin n then n else next) < kInverseSize := by
    by_cases hp : isPrintableLatin n = true
    · rw [if_pos hp]
      unfold kInverseSize
      omega
    · rw [if_neg hp]
      exact hnext (by simpa using hp)
  refine ⟨?_, ?_, ?_, ?_⟩
  · rw [List.length_set]
    exact h.alphabetLength
  · rw [List.length_set]
    exact h.byteLength
  · split <;> omega
  · intro b hb
    by_cases heq : b = n
    · subst heq
      refine ⟨_, List.getElem?_set_self (by rw [h.alphabetLength]; exact hn),
        List.getElem?_set_self (by rw [h.byteLength]; exact hc), ?_⟩
      by_cases hp : isPrintableLatin b = true
      · simp [hp]
      · simp [hp]
        omega
    · obtain ⟨c, halph, hbyte, hwhere⟩ := h.code b (by omega)
      -- the new codepoint is none of the earlier ones
      have hne : (if isPrintableLatin n then n else next) ≠ c := by
        rcases hwhere with ⟨_, rfl⟩ | ⟨h1, h2⟩
        · split <;> omega
        · split <;> omega
      refine ⟨c, ?_, ?_, ?_⟩
      · rw [List.getElem?_set_ne (Ne.symm heq)]
        exact halph
      · rw [List.getElem?_set_ne hne]
        exact hbyte
      · rcases hwhere with hwhere | ⟨h1, h2⟩
        · exact .inl hwhere
        · refine .inr ⟨h1, ?_⟩
          split <;> omega

theorem buildLoop_built : ∀ (m n next : Nat) (t : AlphabetTables), n + m = 256 →
    next + remapped (List.range' n m) ≤ kInverseSize → Built n next t →
    ∃ next', Built 256 next' (buildLoop (List.range' n m) next t) ∧ next' ≤ kInverseSize := by
  intro m
  induction m with
  | zero =>
      intro n next t hsum hnext h
      have hn : n = 256 := by omega
      subst hn
      exact ⟨next, h, Nat.le_trans (Nat.le_add_right _ _) hnext⟩
  | succ m ih =>
      intro n next t hsum hnext h
      rw [List.range'_succ, buildLoop]
      rw [List.range'_succ, remapped, List.filter_cons] at hnext
      refine ih (n + 1) _ _ (by omega) ?_ (h.step (by omega) ?_)
      · by_cases hp : isPrintableLatin n = true
        · simp only [hp, Bool.not_true, Bool.false_eq_true, if_false, if_true] at hnext ⊢
          exact hnext
        · have hp : isPrintableLatin n = false := by simpa using hp
          simp only [hp, Bool.not_false, if_true, List.length_cons] at hnext
          rw [hp, if_neg (by simp)]
          unfold remapped
          omega
      · intro hp
        simp only [hp, Bool.not_false, if_true, List.length_cons] at hnext
        omega

/-- **Every byte has a codepoint, from which it is read back.** -/
theorem alphabet_code (b : UInt8) : alphabetToByte (byteToAlphabet b) = some b ∧
    ((0x21 ≤ byteToAlphabet b ∧ byteToAlphabet b < 0x80) ∨
      (0x80 ≤ byteToAlphabet b ∧ byteToAlphabet b < 0x800)) := by
  have hrange : List.range 256 = List.range' 0 256 := by rw [List.range_eq_range']
  have hcount : 0x100 + remapped (List.range' 0 256) ≤ kInverseSize := by decide
  obtain ⟨next', hbuilt, hnext⟩ := buildLoop_built 256 0 0x100
    ⟨List.replicate 256 0, List.replicate kInverseSize (-1)⟩ rfl hcount
    ⟨by rw [List.length_replicate], by rw [List.length_replicate], le_refl _,
      fun b hb => absurd hb (Nat.not_lt_zero b)⟩
  rw [← hrange] at hbuilt
  have htables : Built 256 next' kTables := hbuilt
  obtain ⟨c, halph, hbyte, hwhere⟩ := htables.code b.toNat b.toNat_lt
  have hc : byteToAlphabet b = c := by
    unfold byteToAlphabet
    rw [List.getD_eq_getElem?_getD, halph]
    rfl
  have hlt : c < kInverseSize := by
    have hlt := (List.getElem?_eq_some_iff.mp hbyte).1
    rw [htables.byteLength] at hlt
    exact hlt
  rw [hc]
  constructor
  · unfold alphabetToByte
    rw [if_neg (by omega), List.getD_eq_getElem?_getD, hbyte]
    simp
  · unfold kInverseSize at hlt
    rcases hwhere with ⟨hp, rfl⟩ | ⟨h1, _⟩
    · unfold isPrintableLatin at hp
      simp only [Bool.or_eq_true, Bool.and_eq_true, decide_eq_true_eq] at hp
      omega
    · omega

/-! ### The code of a byte

No code begins in the middle of another, so a word can be read in one way. -/

/-- The bytes a byte becomes. -/
def byteCode (b : UInt8) : Text := utf8Bytes (byteToAlphabet b)

private theorem small_code : ∀ x : Fin 128, isContinuation (UInt8.ofNat x) = false ∧
    (0x21 ≤ (x : Nat) → UInt8.ofNat x ≠ 0x20) := by decide +kernel

private theorem lead_code : ∀ x : Fin 32, isContinuation (UInt8.ofNat (0xC0 ||| x)) = false ∧
    UInt8.ofNat (0xC0 ||| x) ≠ 0x20 := by decide +kernel

private theorem tail_code : ∀ x : Fin 64, isContinuation (UInt8.ofNat (0x80 ||| x)) = true ∧
    UInt8.ofNat (0x80 ||| x) ≠ 0x20 := by decide +kernel

/-- A code is one byte that is no continuation and at most one that is; none is a space. -/
theorem byteCode_shape (b : UInt8) : ∃ lead conts, byteCode b = lead :: conts ∧
    isContinuation lead = false ∧ (∀ x ∈ conts, isContinuation x = true) ∧
    0x20 ∉ byteCode b := by
  obtain ⟨_, hrange⟩ := alphabet_code b
  unfold byteCode utf8Bytes
  generalize byteToAlphabet b = c at *
  rcases hrange with ⟨h1, h2⟩ | ⟨h1, h2⟩
  · obtain ⟨hlead, hspace⟩ := small_code ⟨c, h2⟩
    rw [if_pos h2]
    refine ⟨_, [], rfl, hlead, by simp, ?_⟩
    intro hmem
    exact hspace h1 (List.mem_singleton.mp hmem).symm
  · have hshift : c >>> 6 < 32 := by
      rw [Nat.shiftRight_eq_div_pow]
      omega
    obtain ⟨hlead, hspace⟩ := lead_code ⟨c >>> 6, hshift⟩
    obtain ⟨htail, hspace'⟩ := tail_code ⟨c &&& 0x3F, and_sixBits_lt c⟩
    rw [if_neg (by omega), if_pos h2]
    refine ⟨_, [_], rfl, hlead, ?_, ?_⟩
    · intro x hx
      rw [List.mem_singleton.mp hx]
      exact htail
    · intro hmem
      rcases List.mem_cons.mp hmem with h | h
      · exact hspace h.symm
      · exact hspace' (List.mem_singleton.mp h).symm

theorem byteCode_ne_nil (b : UInt8) : byteCode b ≠ [] := by
  obtain ⟨_, _, h, _⟩ := byteCode_shape b
  rw [h]
  simp

theorem mapBytesToAlphabet_append (raw raw' : Text) : mapBytesToAlphabet (raw ++ raw')
    = mapBytesToAlphabet raw ++ mapBytesToAlphabet raw' := List.flatMap_append

theorem mapBytesToAlphabet_cons (b : UInt8) (raw : Text) :
    mapBytesToAlphabet (b :: raw) = byteCode b ++ mapBytesToAlphabet raw := List.flatMap_cons

theorem mapBytesToAlphabet_singleton (b : UInt8) : mapBytesToAlphabet [b] = byteCode b := by
  rw [mapBytesToAlphabet_cons]
  exact List.append_nil _

/-- No word of the alphabet has a space in it. -/
theorem space_notMem_map (raw : Text) : 0x20 ∉ mapBytesToAlphabet raw := by
  intro hmem
  obtain ⟨b, _, hb⟩ := List.mem_flatMap.mp hmem
  obtain ⟨_, _, _, _, _, hspace⟩ := byteCode_shape b
  exact hspace hb

/-! ### Reading a word back

The loop takes one codepoint after the other and looks its byte up. -/

theorem unmapLoop_map : ∀ (fuel : Nat) (raw : Text) (pos : Nat) (out : Text),
    (mapBytesToAlphabet raw).length ≤ fuel →
    unmapLoop fuel (mapBytesToAlphabet raw) pos out = .ok (out ++ raw) := by
  intro fuel
  induction fuel with
  | zero =>
      intro raw pos out h
      cases raw with
      | nil => simp [unmapLoop]
      | cons b raw =>
          have hpos := List.length_pos_of_ne_nil (byteCode_ne_nil b)
          rw [mapBytesToAlphabet_cons, List.length_append] at h
          omega
  | succ fuel ih =>
      intro raw pos out h
      rw [unmapLoop]
      cases raw with
      | nil => simp [mapBytesToAlphabet]
      | cons b raw =>
          have hpos := List.length_pos_of_ne_nil (byteCode_ne_nil b)
          obtain ⟨hcode, hrange⟩ := alphabet_code b
          rw [mapBytesToAlphabet_cons] at h ⊢
          rw [List.length_append] at h
          have hne : ¬ (byteCode b ++ mapBytesToAlphabet raw).isEmpty = true := by
            simp [byteCode_ne_nil b]
          rw [if_neg hne]
          unfold byteCode at *
          rw [decodeUtf8_utf8Bytes (by omega)]
          simp only [hcode]
          rw [List.drop_left, ih raw _ _ (by omega), List.append_assoc]
          rfl

/-- **The alphabet maps back to the bytes.** -/
theorem unmap_map (raw : Text) : unmapAlphabetToBytes (mapBytesToAlphabet raw) = .ok raw :=
  unmapLoop_map _ raw 0 [] (le_refl _)

/-! ### Initial symbols

A word is cut in front of every byte that is no continuation, which is where the codes begin. -/

theorem takeWhile_continuation (conts : Text) (raw : Text)
    (h : ∀ x ∈ conts, isContinuation x = true) :
    (conts ++ mapBytesToAlphabet raw).takeWhile isContinuation = conts ∧
      (conts ++ mapBytesToAlphabet raw).dropWhile isContinuation = mapBytesToAlphabet raw := by
  induction conts with
  | nil =>
      cases raw with
      | nil => exact ⟨rfl, rfl⟩
      | cons b raw =>
          obtain ⟨lead, conts, hcode, hlead, _⟩ := byteCode_shape b
          rw [mapBytesToAlphabet_cons, hcode]
          simp [hlead]
  | cons x conts ih =>
      obtain ⟨h1, h2⟩ := ih fun y hy => h y (by simp [hy])
      have hx := h x (by simp)
      rw [List.cons_append, List.takeWhile_cons_of_pos hx, List.dropWhile_cons_of_pos hx, h1, h2]
      exact ⟨rfl, rfl⟩

theorem initialSymbols_map : ∀ (fuel : Nat) (raw : Text), (mapBytesToAlphabet raw).length ≤ fuel →
    initialSymbols fuel (mapBytesToAlphabet raw) =
      (raw.map fun b => [b]).map mapBytesToAlphabet := by
  intro fuel
  induction fuel with
  | zero =>
      intro raw h
      cases raw with
      | nil => rfl
      | cons b raw =>
          have hpos := List.length_pos_of_ne_nil (byteCode_ne_nil b)
          rw [mapBytesToAlphabet_cons, List.length_append] at h
          omega
  | succ fuel ih =>
      intro raw h
      cases raw with
      | nil => rfl
      | cons b raw =>
          obtain ⟨lead, conts, hcode, _, hconts, _⟩ := byteCode_shape b
          obtain ⟨htake, hdrop⟩ := takeWhile_continuation conts raw hconts
          rw [mapBytesToAlphabet_cons, hcode] at h ⊢
          rw [List.length_append, List.length_cons] at h
          rw [List.cons_append, initialSymbols, htake, hdrop, ih raw (by omega), List.map_cons,
            List.map_cons, mapBytesToAlphabet_singleton, hcode]

/-! ### The merge loop

A merge joins two neighbours wherever they occur.  The symbols remain the codes of consecutive
pieces, and each of them was there at first or is the product of a merge. -/

theorem mergeAt_map (f : Text → Text) (hf : ∀ a b, f (a ++ b) = f a ++ f b) (groups : List Text) :
    ∀ k, mergeAt (groups.map f) k = (mergeAt groups k).map f := by
  induction groups with
  | nil => intro k; cases k <;> rfl
  | cons a groups ih =>
      intro k
      cases k with
      | zero =>
          cases groups with
          | nil => rfl
          | cons b groups => simp [mergeAt, hf]
      | succ k =>
          rw [List.map_cons, mergeAt, ih k, mergeAt, List.map_cons]

theorem mergeAt_flatten (groups : List Text) : ∀ k,
    (mergeAt groups k).flatten = groups.flatten := by
  induction groups with
  | nil => intro k; cases k <;> rfl
  | cons a groups ih =>
      intro k
      cases k with
      | zero =>
          cases groups with
          | nil => rfl
          | cons b groups => simp [mergeAt]
      | succ k => rw [mergeAt, List.flatten_cons, List.flatten_cons, ih k]

/-- The pair the scan settles on is in the table. -/
theorem scanPairs_mem (ranks : TextMap Int) (symbols : List Text) :
    ∀ (i : Nat) (bestRank : Int) (best : Option Nat) (k : Nat),
      scanPairs ranks symbols i bestRank best = some k → best = some k ∨
        ∃ before a b after, symbols = before ++ a :: b :: after ∧ k = i + before.length ∧
          ranks.lookup (mergeKey a b) ≠ none := by
  induction symbols with
  | nil => intro i bestRank best k h; exact .inl h
  | cons a symbols ih =>
      intro i bestRank best k h
      cases symbols with
      | nil => exact .inl h
      | cons b rest =>
          have hlater : ∀ (bestRank : Int) (best : Option Nat),
              scanPairs ranks (b :: rest) (i + 1) bestRank best = some k → best = some k ∨
                ∃ before x y after, a :: b :: rest = before ++ x :: y :: after ∧
                  k = i + before.length ∧ ranks.lookup (mergeKey x y) ≠ none := by
            intro bestRank best h
            rcases ih (i + 1) bestRank best k h with h | ⟨before, x, y, after, hs, hk, hr⟩
            · exact .inl h
            · refine .inr ⟨a :: before, x, y, after, by rw [hs]; rfl, ?_, hr⟩
              rw [List.length_cons]
              omega
          rw [scanPairs] at h
          cases hl : ranks.lookup (mergeKey a b) with
          | none =>
              rw [hl] at h
              exact hlater bestRank best h
          | some rank =>
              rw [hl] at h
              simp only at h
              split at h
              · rcases hlater rank (some i) h with he | he
                · refine .inr ⟨[], a, b, rest, rfl, ?_, by rw [hl]; simp⟩
                  cases he
                  rfl
                · exact .inr he
              · exact hlater bestRank best h

theorem mergeAt_append (before after : List Text) (a b : Text) :
    mergeAt (before ++ a :: b :: after) before.length = before ++ (a ++ b) :: after := by
  induction before with
  | nil => rfl
  | cons x before ih => rw [List.cons_append, List.length_cons, mergeAt, ih]; rfl

/-- The merge loop joins neighbouring pieces of the raw text. -/
theorem mergeLoop_groups (ranks : TextMap Int) : ∀ (fuel : Nat) (groups : List Text),
    ∃ groups' : List Text, mergeLoop ranks fuel (groups.map mapBytesToAlphabet)
        = groups'.map mapBytesToAlphabet ∧ groups'.flatten = groups.flatten := by
  intro fuel
  induction fuel with
  | zero => intro groups; exact ⟨groups, rfl, rfl⟩
  | succ fuel ih =>
      intro groups
      rw [mergeLoop]
      split
      · exact ⟨groups, rfl, rfl⟩
      · split
        · exact ⟨groups, rfl, rfl⟩
        · rename_i best _
          rw [mergeAt_map _ mapBytesToAlphabet_append]
          obtain ⟨groups', h1, h2⟩ := ih (mergeAt groups best)
          exact ⟨groups', h1, h2.trans (mergeAt_flatten groups best)⟩

/-- What holds of the initial symbols and of every product holds of all symbols. -/
theorem mergeLoop_all (ranks : TextMap Int) {P : Text → Prop}
    (hmerge : ∀ a b, P a → P b → ranks.lookup (mergeKey a b) ≠ none → P (a ++ b)) :
    ∀ (fuel : Nat) (symbols : List Text), (∀ s ∈ symbols, P s) →
      ∀ s ∈ mergeLoop ranks fuel symbols, P s := by
  intro fuel
  induction fuel with
  | zero => intro symbols h; exact h
  | succ fuel ih =>
      intro symbols h
      rw [mergeLoop]
      split
      · exact h
      · split
        · exact h
        · rename_i best hbest
          rcases scanPairs_mem ranks symbols 0 _ none best hbest with
            hnone | ⟨before, a, b, after, hs, hk, hr⟩
          · exact absurd hnone (by simp)
          · rw [Nat.zero_add] at hk
            subst hs hk
            rw [mergeAt_append]
            refine ih _ fun s hmem => ?_
            rcases List.mem_append.mp hmem with hs | hs
            · exact h s (by simp [hs])
            · rcases List.mem_cons.mp hs with rfl | hs
              · exact hmerge a b (h a (by simp)) (h b (by simp)) hr
              · exact h s (by simp [hs])

theorem flatten_singletons (raw : Text) : (raw.map fun b => [b]).flatten = raw := by
  induction raw with
  | nil => rfl
  | cons b raw ih => rw [List.map_cons, List.flatten_cons, ih]; rfl

/-- **The symbols of a pretoken are the words of consecutive pieces of it.** -/
theorem bpeSplit_groups (ranks : TextMap Int) (raw : Text) :
    ∃ groups : List Text, bpeSplit (mapBytesToAlphabet raw) ranks = groups.map mapBytesToAlphabet ∧
      groups.flatten = raw := by
  unfold bpeSplit
  dsimp only
  rw [initialSymbols_map _ raw (le_refl _)]
  obtain ⟨groups, h1, h2⟩ := mergeLoop_groups ranks _ (raw.map fun b => [b])
  exact ⟨groups, h1, h2.trans (flatten_singletons raw)⟩

end InferenceEngine
