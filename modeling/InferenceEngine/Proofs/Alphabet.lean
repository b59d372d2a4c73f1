/-
The byte alphabet and its strings.

The table read backwards is the table, so what maps to the bytes is what they map to, as long
as the codepoints of a string are written in the usual way.  The decoder also accepts longer
ways to write them, and then the string is not the one that its bytes map to.
-/
import InferenceEngine.Lib.Utf8
import InferenceEngine.Proofs.Bpe

namespace InferenceEngine

open Utf8

/-! ### The table backwards

The table is filled byte by byte, and no turn takes a codepoint that has been taken. -/

/-- Every codepoint of the table so far stands for the byte that has it. -/
def ReadsBack (n : Nat) (t : AlphabetTables) : Prop :=
  ∀ (c : Nat) (b : Int), t.toByte[c]? = some b → 0 ≤ b →
    b.toNat < n ∧ t.toAlphabet[b.toNat]? = some c

private theorem ReadsBack.step {n c : Nat} {t : AlphabetTables} (h : ReadsBack n t)
    (hn : n < t.toAlphabet.length) :
    ReadsBack (n + 1) ⟨t.toAlphabet.set n c, t.toByte.set c n⟩ := by
  intro c' b hb h0
  by_cases hc : c = c'
  · subst hc
    have hlt := (List.getElem?_eq_some_iff.mp hb).1
    rw [List.length_set] at hlt
    rw [show (t.toByte.set c n)[c]? = some (n : Int) from List.getElem?_set_self hlt] at hb
    cases hb
    rw [Int.toNat_natCast]
    exact ⟨Nat.lt_succ_self n, List.getElem?_set_self hn⟩
  · rw [show (t.toByte.set c n)[c']? = t.toByte[c']? from List.getElem?_set_ne hc] at hb
    obtain ⟨hlt, hget⟩ := h c' b hb h0
    refine ⟨by omega, ?_⟩
    rw [show (t.toAlphabet.set n c)[b.toNat]? = t.toAlphabet[b.toNat]? from
      List.getElem?_set_ne (by omega)]
    exact hget

private theorem buildLoop_readsBack : ∀ (m n next : Nat) (t : AlphabetTables), n + m = 256 →
    t.toAlphabet.length = 256 → ReadsBack n t →
    ReadsBack 256 (buildLoop (List.range' n m) next t) := by
  intro m
  induction m with
  | zero =>
      intro n next t hsum _ h
      rwa [show n = 256 by omega] at h
  | succ m ih =>
      intro n next t hsum hlength h
      rw [List.range'_succ, buildLoop]
      exact ih (n + 1) _ _ (by omega) (by rw [List.length_set]; exact hlength)
        (h.step (by omega))

/-- **A codepoint that stands for a byte is the one the byte has.** -/
theorem byteToAlphabet_of_alphabetToByte {c : Nat} {b : UInt8} (h : alphabetToByte c = some b) :
    byteToAlphabet b = c := by
  have hstart : ReadsBack 0 ⟨List.replicate 256 0, List.replicate kInverseSize (-1)⟩ := by
    intro c b hb h0
    have hmem := List.eq_of_mem_replicate (List.mem_of_getElem? hb)
    omega
  have hback := buildLoop_readsBack 256 0 0x100 _ rfl List.length_replicate hstart
  rw [← List.range_eq_range'] at hback
  have htables : ReadsBack 256 kTables := hback
  unfold alphabetToByte at h
  by_cases hc : kInverseSize ≤ c
  · rw [if_pos hc] at h
    cases h
  rw [if_neg hc] at h
  cases hget : kTables.toByte[c]? with
  | none =>
      rw [List.getD_eq_getElem?_getD, hget] at h
      cases h
  | some byte =>
      rw [List.getD_eq_getElem?_getD, hget] at h
      dsimp only [Option.getD_some] at h
      by_cases hneg : byte < 0
      · rw [if_pos hneg] at h
        cases h
      · rw [if_neg hneg] at h
        cases h
        obtain ⟨hlt, halphabet⟩ := htables c byte hget (by omega)
        have hbyte : (UInt8.ofNat byte.toNat).toNat = byte.toNat := by
          rw [UInt8.toNat_ofNat']
          exact Nat.mod_eq_of_lt hlt
        unfold byteToAlphabet
        rw [hbyte, List.getD_eq_getElem?_getD, halphabet]
        rfl

/-! ### Characters

A codepoint is written in one to four bytes, by its size, as a character of that value is. -/

theorem or_tail (n : Nat) : 0x80 ||| (n &&& 0x3F) = n % 64 + 0x80 := by
  have htail : ∀ x : Fin 64, 0x80 ||| (x : Nat) = x + 0x80 := by decide
  have hmod : n &&& 0x3F = n % 64 := by
    rw [show (0x3F : Nat) = 2 ^ 6 - 1 from rfl, Nat.and_two_pow_sub_one_eq_mod]
  rw [hmod]
  exact htail ⟨n % 64, Nat.mod_lt _ (by decide)⟩

theorem or_lead_two {n : Nat} (h : n < 32) : 0xC0 ||| n = n % 32 + 0xC0 := by
  have hlead : ∀ x : Fin 32, 0xC0 ||| (x : Nat) = x + 0xC0 := by decide
  rw [hlead ⟨n, h⟩, Nat.mod_eq_of_lt h]

theorem or_lead_three {n : Nat} (h : n < 16) : 0xE0 ||| n = n % 16 + 0xE0 := by
  have hlead : ∀ x : Fin 16, 0xE0 ||| (x : Nat) = x + 0xE0 := by decide
  rw [hlead ⟨n, h⟩, Nat.mod_eq_of_lt h]

theorem or_lead_four {n : Nat} (h : n < 8) : 0xF0 ||| n = n % 8 + 0xF0 := by
  have hlead : ∀ x : Fin 8, 0xF0 ||| (x : Nat) = x + 0xF0 := by decide
  rw [hlead ⟨n, h⟩, Nat.mod_eq_of_lt h]

/-- **`append_utf8` writes a character as UTF-8 does.** -/
theorem utf8Bytes_char (c : Char) : utf8Bytes c.val.toNat = String.utf8EncodeChar c := by
  have hlt : c.val.toNat < 0x110000 := by
    rcases c.valid with h | h
    · exact h.trans (by decide)
    · exact h.2
  unfold utf8Bytes String.utf8EncodeChar
  dsimp only
  generalize c.val.toNat = n at hlt ⊢
  simp only [Nat.shiftRight_eq_div_pow]
  by_cases h1 : n < 0x80
  · rw [if_pos h1, if_pos (show n ≤ 127 by omega)]
  rw [if_neg h1, if_neg (show ¬n ≤ 127 by omega)]
  by_cases h2 : n < 0x800
  · rw [if_pos h2, if_pos (show n ≤ 2047 by omega), or_tail, or_lead_two (by omega)]
  rw [if_neg h2, if_neg (show ¬n ≤ 2047 by omega)]
  by_cases h3 : n < 0x10000
  · rw [if_pos h3, if_pos (show n ≤ 65535 by omega), or_tail, or_tail,
      or_lead_three (by omega)]
  · rw [if_neg h3, if_neg (show ¬n ≤ 65535 by omega), or_tail, or_tail, or_tail,
      or_lead_four (by omega)]

/-- The code of a byte is a character. -/
theorem byteCode_isSequence (b : UInt8) : IsSequence (byteCode b) := by
  obtain ⟨_, hrange⟩ := alphabet_code b
  obtain ⟨c, hc⟩ := exists_char (byteToAlphabet b) (Or.inl (by omega))
  refine ⟨c, ?_⟩
  rw [← utf8Bytes_char, hc]
  rfl

theorem mapBytesToAlphabet_wellFormed (raw : Text) : WellFormed (mapBytesToAlphabet raw) := by
  induction raw with
  | nil => exact WellFormed.nil
  | cons b raw ih =>
      rw [mapBytesToAlphabet_cons]
      exact (byteCode_isSequence b).wellFormed.append ih

/-! ### Strings of characters

Mapping back reads characters off the front.  It takes sequences that are longer than they need
be as well, and those are not what mapping forth writes. -/

private theorem unmapLoop_chars (cs : List Char) : ∀ (fuel pos : Nat) (out r : Text),
    (cs.flatMap String.utf8EncodeChar).length ≤ fuel →
    unmapLoop fuel (cs.flatMap String.utf8EncodeChar) pos out = .ok r →
    ∃ raw, r = out ++ raw ∧ mapBytesToAlphabet raw = cs.flatMap String.utf8EncodeChar := by
  induction cs with
  | nil =>
      intro fuel pos out r _ h
      refine ⟨[], ?_, rfl⟩
      cases fuel <;> cases h <;> simp
  | cons c cs ih =>
      intro fuel pos out r hfuel h
      have hlt : c.val.toNat < 0x110000 := by
        rcases c.valid with h | h
        · exact h.trans (by decide)
        · exact h.2
      have hpos := List.length_pos_of_ne_nil (utf8Bytes_ne_nil c.val.toNat)
      rw [List.flatMap_cons, ← utf8Bytes_char] at hfuel h ⊢
      rw [List.length_append] at hfuel
      obtain ⟨fuel, rfl⟩ : ∃ n, fuel = n + 1 := ⟨fuel - 1, by omega⟩
      rw [unmapLoop, if_neg (by simp [utf8Bytes_ne_nil]), decodeUtf8_utf8Bytes hlt] at h
      dsimp only at h
      cases hbyte : alphabetToByte c.val.toNat with
      | none =>
          rw [hbyte] at h
          cases h
      | some byte =>
          rw [hbyte, List.drop_left] at h
          obtain ⟨raw, rfl, hraw⟩ := ih fuel _ _ _ (by omega) h
          refine ⟨byte :: raw, by rw [List.append_assoc]; rfl, ?_⟩
          rw [mapBytesToAlphabet_cons, hraw]
          unfold byteCode
          rw [byteToAlphabet_of_alphabetToByte hbyte]

/-- **The bytes of a string map back to it exactly when it is well formed.** -/
theorem map_unmap_iff {t raw : Text} (h : unmapAlphabetToBytes t = .ok raw) :
    mapBytesToAlphabet raw = t ↔ WellFormed t := by
  constructor
  · intro hmap
    rw [← hmap]
    exact mapBytesToAlphabet_wellFormed raw
  · rintro ⟨cs, rfl⟩
    obtain ⟨raw', hraw, hmap⟩ := unmapLoop_chars cs _ _ _ _ (Nat.le_refl _) h
    rw [List.nil_append] at hraw
    rw [hraw]
    exact hmap

/-- **The codec of the byte alphabet.** -/
theorem alphabet_codec (raw t : Text) :
    unmapAlphabetToBytes (mapBytesToAlphabet raw) = .ok raw ∧
      (∀ bytes, unmapAlphabetToBytes t = .ok bytes →
        (mapBytesToAlphabet bytes = t ↔ WellFormed t)) ∧
      ((∃ bytes, mapBytesToAlphabet bytes = t) ↔
        WellFormed t ∧ ∃ bytes, unmapAlphabetToBytes t = .ok bytes) ∧
      ∀ other bytes, unmapAlphabetToBytes t = .ok bytes →
        unmapAlphabetToBytes other = .ok bytes → WellFormed t →
        (t = other ↔ WellFormed other) := by
  refine ⟨unmap_map raw, fun bytes h => map_unmap_iff h, ⟨?_, ?_⟩, ?_⟩
  · rintro ⟨bytes, rfl⟩
    exact ⟨mapBytesToAlphabet_wellFormed bytes, bytes, unmap_map bytes⟩
  · rintro ⟨hwf, bytes, h⟩
    exact ⟨bytes, (map_unmap_iff h).mpr hwf⟩
  · intro other bytes h hother hwf
    rw [← (map_unmap_iff h).mpr hwf]
    exact map_unmap_iff hother

/-- The letter `A` in two bytes. -/
theorem unmap_overlong : ¬∀ t raw : Text, unmapAlphabetToBytes t = .ok raw →
    mapBytesToAlphabet raw = t := by
  intro h
  have hmap := h [0xC1, 0x81] [0x41] (by decide +kernel)
  have hother : mapBytesToAlphabet [0x41] = [0x41] := by decide +kernel
  rw [hother] at hmap
  cases hmap

end InferenceEngine
