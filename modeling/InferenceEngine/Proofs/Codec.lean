/-
What the lenient decoder reads, and when it could have been written shorter.

The decoder takes a codepoint from the bits of a sequence and does not ask how many bytes the
codepoint needs.  When it needs all of them, the sequence is the one `append_utf8` writes.
-/
import InferenceEngine.Proofs.Alphabet

namespace InferenceEngine

/-! ### Sequences by their bits

The decoder looks at the leading bits of each byte and collects the others.  Its sequences are
all those that carry a codepoint, overlong ones included. -/

/-- A lead byte is its marker and the bits it carries. -/
def LeadBits (byte length bits : Nat) : Prop :=
  (length = 1 ∧ bits < 128 ∧ byte = bits) ∨
  (length = 2 ∧ bits < 32 ∧ byte = bits % 32 + 0xC0) ∨
  (length = 3 ∧ bits < 16 ∧ byte = bits % 16 + 0xE0) ∨
  (length = 4 ∧ bits < 8 ∧ byte = bits % 8 + 0xF0)

instance (byte length bits : Nat) : Decidable (LeadBits byte length bits) :=
  inferInstanceAs (Decidable (_ ∨ _))

private theorem decodeLead_bits : ∀ x : Fin 256, (decodeLead (UInt8.ofNat x)).all
    (fun r => decide (LeadBits x r.1 r.2)) = true := by decide +kernel

private theorem continuation_bits : ∀ x : Fin 256, (UInt8.ofNat x) &&& 0xC0 = 0x80 →
    ((UInt8.ofNat x) &&& 0x3F).toNat < 64 ∧
      (x : Nat) = ((UInt8.ofNat x) &&& 0x3F).toNat % 64 + 0x80 := by decide +kernel

private theorem byte_eq (b : UInt8) : UInt8.ofNat (⟨b.toNat, b.toNat_lt⟩ : Fin 256) = b :=
  UInt8.ofNat_toNat

/-- The sequence of `length` bytes that carries the bits of a codepoint. -/
def sequenceOf (length codepoint : Nat) : Text :=
  match length with
  | 1 => [UInt8.ofNat codepoint]
  | 2 => [UInt8.ofNat (codepoint / 64 % 32 + 0xC0), UInt8.ofNat (codepoint % 64 + 0x80)]
  | 3 => [UInt8.ofNat (codepoint / 4096 % 16 + 0xE0), UInt8.ofNat (codepoint / 64 % 64 + 0x80),
      UInt8.ofNat (codepoint % 64 + 0x80)]
  | 4 => [UInt8.ofNat (codepoint / 262144 % 8 + 0xF0), UInt8.ofNat (codepoint / 4096 % 64 + 0x80),
      UInt8.ofNat (codepoint / 64 % 64 + 0x80), UInt8.ofNat (codepoint % 64 + 0x80)]
  | _ => []

/-- One continuation byte. -/
private theorem decodeContinue_bits {left bits codepoint : Nat} {rest : Text}
    (h : decodeContinue (left + 1) bits rest = some codepoint) :
    ∃ low tail, low < 64 ∧ rest = UInt8.ofNat (low % 64 + 0x80) :: tail ∧
      decodeContinue left (bits * 64 + low) tail = some codepoint := by
  cases rest with
  | nil => cases h
  | cons cont tail =>
      rw [decodeContinue] at h
      split at h
      · cases h
      rename_i hcont
      have hbits := continuation_bits ⟨cont.toNat, cont.toNat_lt⟩
      rw [byte_eq] at hbits
      obtain ⟨hlt, hbyte⟩ := hbits (by simpa using hcont)
      refine ⟨(cont &&& 0x3F).toNat, tail, hlt, ?_, ?_⟩
      · rw [← hbyte]
        exact congrArg (· :: tail) (byte_eq cont).symm
      · rwa [← Nat.shiftLeft_add_eq_or_of_lt hlt, Nat.shiftLeft_eq] at h

/-- **What the decoder reads is a sequence that carries the codepoint.** -/
theorem decodeUtf8_sequence {bytes : Text} {codepoint length : Nat}
    (h : decodeUtf8 bytes = some (codepoint, length)) :
    bytes.take length = sequenceOf length codepoint ∧
      (length = 1 ∧ codepoint < 0x80 ∨ length = 2 ∧ codepoint < 0x800 ∨
        length = 3 ∧ codepoint < 0x10000 ∨ length = 4 ∧ codepoint < 0x200000) := by
  cases bytes with
  | nil => cases h
  | cons lead rest =>
      rw [decodeUtf8] at h
      have hbits := decodeLead_bits ⟨lead.toNat, lead.toNat_lt⟩
      rw [byte_eq] at hbits
      cases hl : decodeLead lead with
      | none =>
          rw [hl] at h
          cases h
      | some r =>
          obtain ⟨size, bits⟩ := r
          rw [hl] at h hbits
          have hbits : LeadBits lead.toNat size bits := of_decide_eq_true hbits
          dsimp only at h
          split at h
          · cases h
          obtain ⟨c, hcont, he⟩ := Option.map_eq_some_iff.mp h
          cases he
          rcases hbits with ⟨rfl, hlt, hlead⟩ | ⟨rfl, hlt, hlead⟩ | ⟨rfl, hlt, hlead⟩ |
            ⟨rfl, hlt, hlead⟩
          · cases hcont
            refine ⟨?_, by omega⟩
            rw [← hlead]
            exact congrArg (fun b => [b]) (byte_eq lead).symm
          · obtain ⟨t₁, _, ht₁, hrest, hcont₁⟩ := decodeContinue_bits hcont
            cases hcont₁
            subst hrest
            refine ⟨?_, by omega⟩
            show [lead, _] = [_, _]
            rw [show (bits * 64 + t₁) / 64 = bits by omega,
              show (bits * 64 + t₁) % 64 = t₁ % 64 by omega, ← hlead, byte_eq]
          · obtain ⟨t₁, _, ht₁, hrest, hcont₁⟩ := decodeContinue_bits hcont
            obtain ⟨t₂, _, ht₂, hrest₁, hcont₂⟩ := decodeContinue_bits hcont₁
            cases hcont₂
            subst hrest₁ hrest
            refine ⟨?_, by omega⟩
            show [lead, _, _] = [_, _, _]
            rw [show ((bits * 64 + t₁) * 64 + t₂) / 4096 = bits by omega,
              show ((bits * 64 + t₁) * 64 + t₂) / 64 % 64 = t₁ % 64 by omega,
              show ((bits * 64 + t₁) * 64 + t₂) % 64 = t₂ % 64 by omega, ← hlead, byte_eq]
          · obtain ⟨t₁, _, ht₁, hrest, hcont₁⟩ := decodeContinue_bits hcont
            obtain ⟨t₂, _, ht₂, hrest₁, hcont₂⟩ := decodeContinue_bits hcont₁
            obtain ⟨t₃, _, ht₃, hrest₂, hcont₃⟩ := decodeContinue_bits hcont₂
            cases hcont₃
            subst hrest₂ hrest₁ hrest
            refine ⟨?_, by omega⟩
            show [lead, _, _, _] = [_, _, _, _]
            rw [show (((bits * 64 + t₁) * 64 + t₂) * 64 + t₃) / 262144 = bits by omega,
              show (((bits * 64 + t₁) * 64 + t₂) * 64 + t₃) / 4096 % 64 = t₁ % 64 by omega,
              show (((bits * 64 + t₁) * 64 + t₂) * 64 + t₃) / 64 % 64 = t₂ % 64 by omega,
              show (((bits * 64 + t₁) * 64 + t₂) * 64 + t₃) % 64 = t₃ % 64 by omega, ← hlead,
              byte_eq]

private theorem decodeContinue_take : ∀ {left bits codepoint : Nat} {rest : Text} (more : Text),
    decodeContinue left bits rest = some codepoint →
    decodeContinue left bits (rest.take left ++ more) = some codepoint := by
  intro left
  induction left with
  | zero =>
      intro bits codepoint rest more h
      exact h
  | succ left ih =>
      intro bits codepoint rest more h
      cases rest with
      | nil => cases h
      | cons cont rest =>
          rw [decodeContinue] at h
          rw [List.take_succ_cons, List.cons_append, decodeContinue]
          split at h
          · cases h
          · rename_i hcont
            rw [if_neg hcont]
            exact ih more h

/-- **A sequence is decoded alike whatever follows it.** -/
theorem decodeUtf8_take {bytes : Text} {codepoint length : Nat} (more : Text)
    (h : decodeUtf8 bytes = some (codepoint, length)) :
    decodeUtf8 (bytes.take length ++ more) = some (codepoint, length) := by
  have hbounds := decodeUtf8_length h
  cases bytes with
  | nil => cases h
  | cons lead rest =>
      obtain ⟨size, rfl⟩ : ∃ k, length = k + 1 := ⟨length - 1, by omega⟩
      rw [List.take_succ_cons, List.cons_append]
      rw [decodeUtf8] at h ⊢
      cases hl : decodeLead lead with
      | none =>
          rw [hl] at h
          cases h
      | some r =>
          obtain ⟨length, bits⟩ := r
          rw [hl] at h
          dsimp only at h ⊢
          split at h
          · cases h
          obtain ⟨c, hcont, he⟩ := Option.map_eq_some_iff.mp h
          cases he
          rw [Nat.add_sub_cancel] at hcont ⊢
          rw [decodeContinue_take more hcont, if_neg]
          · rfl
          · rw [List.length_cons] at hbounds ⊢
            rw [List.length_append, List.length_take]
            omega

/-- What is decoded at the front of a text is decoded at the front of a longer one. -/
theorem decodeUtf8_append {bytes : Text} {codepoint length : Nat} (more : Text)
    (h : decodeUtf8 bytes = some (codepoint, length)) :
    decodeUtf8 (bytes ++ more) = some (codepoint, length) := by
  have htake := decodeUtf8_take (bytes.drop length ++ more) h
  rwa [← List.append_assoc, List.take_append_drop] at htake

/-! ### Shortest forms

Of the sequences that carry a codepoint `append_utf8` writes the shortest, so a decoded text
comes back exactly when each of its sequences is one. -/

theorem utf8Bytes_length (codepoint : Nat) : (utf8Bytes codepoint).length
    = if codepoint < 0x80 then 1 else if codepoint < 0x800 then 2
      else if codepoint < 0x10000 then 3 else 4 := by
  unfold utf8Bytes
  split
  · rfl
  · split
    · rfl
    · split <;> rfl

/-- What `append_utf8` writes carries the codepoint. -/
theorem utf8Bytes_sequence {codepoint : Nat} (h : codepoint < 0x200000) :
    utf8Bytes codepoint = sequenceOf (utf8Bytes codepoint).length codepoint := by
  rw [utf8Bytes_length]
  unfold utf8Bytes
  simp only [Nat.shiftRight_eq_div_pow]
  by_cases h1 : codepoint < 0x80
  · rw [if_pos h1, if_pos h1]
    rfl
  rw [if_neg h1, if_neg h1]
  by_cases h2 : codepoint < 0x800
  · rw [if_pos h2, if_pos h2, or_tail, or_lead_two (by omega)]
    rfl
  rw [if_neg h2, if_neg h2]
  by_cases h3 : codepoint < 0x10000
  · rw [if_pos h3, if_pos h3, or_tail, or_tail, or_lead_three (by omega)]
    rfl
  · rw [if_neg h3, if_neg h3, or_tail, or_tail, or_tail, or_lead_four (by omega)]
    rfl

/-- No sequence is shorter than the one that is written. -/
theorem utf8Bytes_length_le {bytes : Text} {codepoint length : Nat}
    (h : decodeUtf8 bytes = some (codepoint, length)) :
    (utf8Bytes codepoint).length ≤ length := by
  obtain ⟨-, hrange⟩ := decodeUtf8_sequence h
  rw [utf8Bytes_length]
  grind

/-- **A sequence that is as short as can be is the one that is written.** -/
theorem decodeUtf8_shortest {bytes : Text} {codepoint length : Nat}
    (h : decodeUtf8 bytes = some (codepoint, length)) :
    bytes.take length = utf8Bytes codepoint ↔ (utf8Bytes codepoint).length = length := by
  obtain ⟨hsequence, hrange⟩ := decodeUtf8_sequence h
  constructor
  · intro heq
    rw [← heq, List.length_take_of_le (decodeUtf8_length h).2]
  · intro hlength
    rw [hsequence, utf8Bytes_sequence (by omega), hlength]

end InferenceEngine
