/-
The codec of `tokenizer/unicode.cpp` decodes what it encodes.

A byte is taken apart by its top bits; each fact about the masks concerns a few bits and is
checked for all of them.
-/
import InferenceEngine.Tokenizer.Unicode
import Mathlib.Data.Nat.Bitwise

namespace InferenceEngine

/-! ### Masks

What an `|` of a marker and some bits is, as a number. -/

private theorem lead_one : ∀ x : Fin 128,
    decodeLead (UInt8.ofNat x) = some (1, (x : Nat)) := by decide +kernel

private theorem lead_two : ∀ x : Fin 32,
    decodeLead (UInt8.ofNat (0xC0 ||| x)) = some (2, (x : Nat)) := by decide +kernel

private theorem lead_three : ∀ x : Fin 16,
    decodeLead (UInt8.ofNat (0xE0 ||| x)) = some (3, (x : Nat)) := by decide +kernel

private theorem lead_four : ∀ x : Fin 8,
    decodeLead (UInt8.ofNat (0xF0 ||| x)) = some (4, (x : Nat)) := by decide +kernel

private theorem continuation : ∀ x : Fin 64,
    (UInt8.ofNat (0x80 ||| x)) &&& 0xC0 = 0x80 ∧
      ((UInt8.ofNat (0x80 ||| x)) &&& 0x3F).toNat = x := by decide +kernel

/-- The last six bits. -/
theorem and_sixBits_lt (c : Nat) : c &&& 0x3F < 64 := by
  rw [show (0x3F : Nat) = 2 ^ 6 - 1 from rfl, Nat.and_two_pow_sub_one_eq_mod]
  omega

/-- Six bits put back behind the others. -/
theorem shift_or_sixBits (c : Nat) : ((c >>> 6) <<< 6) ||| (c &&& 0x3F) = c := by
  rw [← Nat.shiftLeft_add_eq_or_of_lt (and_sixBits_lt c), Nat.shiftLeft_eq,
    Nat.shiftRight_eq_div_pow, show (0x3F : Nat) = 2 ^ 6 - 1 from rfl,
    Nat.and_two_pow_sub_one_eq_mod]
  omega

/-- One continuation byte read back. -/
theorem decodeContinue_succ (left codepoint c : Nat) (rest : Text) :
    decodeContinue (left + 1) codepoint (UInt8.ofNat (0x80 ||| (c &&& 0x3F)) :: rest)
      = decodeContinue left ((codepoint <<< 6) ||| (c &&& 0x3F)) rest := by
  obtain ⟨htop, hlow⟩ := continuation ⟨c &&& 0x3F, and_sixBits_lt c⟩
  rw [decodeContinue, if_neg (by simpa using htop), hlow]

/-! ### The round trip

By the four lengths of a sequence. -/

/-- **What `append_utf8` writes for a codepoint, `decode_utf8` reads back.** -/
theorem decodeUtf8_utf8Bytes {c : Nat} (h : c < 0x110000) (rest : Text) :
    decodeUtf8 (utf8Bytes c ++ rest) = some (c, (utf8Bytes c).length) := by
  have hshift : ∀ n, c >>> n = c / 2 ^ n := fun n => Nat.shiftRight_eq_div_pow c n
  unfold utf8Bytes
  by_cases h1 : c < 0x80
  · rw [if_pos h1]
    show decodeUtf8 (_ :: rest) = _
    rw [decodeUtf8, lead_one ⟨c, h1⟩]
    simp [decodeContinue]
  · rw [if_neg h1]
    by_cases h2 : c < 0x800
    · rw [if_pos h2]
      show decodeUtf8 (_ :: _ :: rest) = _
      have hlt : c >>> 6 < 32 := by rw [hshift]; omega
      rw [decodeUtf8, lead_two ⟨c >>> 6, hlt⟩]
      simp only [List.length_cons]
      rw [if_neg (by omega), decodeContinue_succ, shift_or_sixBits]
      rfl
    · rw [if_neg h2]
      by_cases h3 : c < 0x10000
      · rw [if_pos h3]
        show decodeUtf8 (_ :: _ :: _ :: rest) = _
        have hlt : c >>> 12 < 16 := by rw [hshift]; omega
        rw [decodeUtf8, lead_three ⟨c >>> 12, hlt⟩]
        simp only [List.length_cons]
        rw [if_neg (by omega), decodeContinue_succ, decodeContinue_succ,
          show c >>> 12 = (c >>> 6) >>> 6 from Nat.shiftRight_add c 6 6, shift_or_sixBits,
          shift_or_sixBits]
        rfl
      · rw [if_neg h3]
        show decodeUtf8 (_ :: _ :: _ :: _ :: rest) = _
        have hlt : c >>> 18 < 8 := by rw [hshift]; omega
        rw [decodeUtf8, lead_four ⟨c >>> 18, hlt⟩]
        simp only [List.length_cons]
        rw [if_neg (by omega), decodeContinue_succ, decodeContinue_succ, decodeContinue_succ,
          show c >>> 18 = (c >>> 12) >>> 6 from Nat.shiftRight_add c 12 6, shift_or_sixBits,
          show c >>> 12 = (c >>> 6) >>> 6 from Nat.shiftRight_add c 6 6, shift_or_sixBits,
          shift_or_sixBits]
        rfl

theorem utf8Bytes_ne_nil (c : Nat) : utf8Bytes c ≠ [] := by
  unfold utf8Bytes
  split
  · simp
  · split
    · simp
    · split <;> simp

/-- A decoded sequence is a non-empty beginning of the text. -/
theorem decodeUtf8_length {bytes : Text} {codepoint length : Nat}
    (h : decodeUtf8 bytes = some (codepoint, length)) : 0 < length ∧ length ≤ bytes.length := by
  cases bytes with
  | nil => exact absurd h (by simp [decodeUtf8])
  | cons lead rest =>
      rw [decodeUtf8] at h
      cases hl : decodeLead lead with
      | none =>
          rw [hl] at h
          exact absurd h (by simp)
      | some r =>
          obtain ⟨n, c⟩ := r
          rw [hl] at h
          have hpos : 0 < n := by
            unfold decodeLead at hl
            split at hl
            · cases hl; omega
            · split at hl
              · cases hl; omega
              · split at hl
                · cases hl; omega
                · split at hl
                  · cases hl; omega
                  · exact absurd hl (by simp)
          simp only at h
          split at h
          · exact absurd h (by simp)
          · rename_i hge
            rw [Option.map_eq_some_iff] at h
            obtain ⟨_, _, he⟩ := h
            cases he
            exact ⟨hpos, by omega⟩

end InferenceEngine
