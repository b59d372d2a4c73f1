/-
Well-formed UTF-8, as the encoding of characters.

A sequence is what `String.utf8EncodeChar` makes of one character and a text is well formed
when it is a string of such sequences.  Programs decide this by comparing bytes with ranges;
the lemmas below say which ranges of bytes are sequences.

A string that is not well formed is repaired by putting a replacement for what cannot be part
of a sequence.  How much one replacement stands for is fixed by the maximal subparts of the
string, so there is one way to do it.
-/
import Mathlib.Data.UInt
import Mathlib.Data.List.Basic

namespace Utf8

/-- The bytes of one character. -/
def IsSequence (bytes : List UInt8) : Prop := ∃ c : Char, String.utf8EncodeChar c = bytes

/-- The bytes of some characters. -/
def WellFormed (bytes : List UInt8) : Prop :=
  ∃ cs : List Char, cs.flatMap String.utf8EncodeChar = bytes

/-- What a well-formed sequence may begin with and not be finished by. -/
def IsPartial (bytes : List UInt8) : Prop := ∃ more, more ≠ [] ∧ IsSequence (bytes ++ more)

theorem WellFormed.nil : WellFormed [] := ⟨[], rfl⟩

theorem WellFormed.append {a b : List UInt8} (ha : WellFormed a) (hb : WellFormed b) :
    WellFormed (a ++ b) := by
  obtain ⟨cs, rfl⟩ := ha
  obtain ⟨ds, rfl⟩ := hb
  exact ⟨cs ++ ds, List.flatMap_append⟩

theorem IsSequence.wellFormed {bytes : List UInt8} (h : IsSequence bytes) : WellFormed bytes := by
  obtain ⟨c, rfl⟩ := h
  exact ⟨[c], by simp⟩

/-- No character takes more than four bytes. -/
theorem IsSequence.length_le {bytes : List UInt8} (h : IsSequence bytes) : bytes.length ≤ 4 := by
  obtain ⟨c, rfl⟩ := h
  unfold String.utf8EncodeChar
  dsimp only
  split
  · simp
  · split
    · simp
    · split <;> simp

theorem IsPartial.length_le {bytes : List UInt8} (h : IsPartial bytes) : bytes.length ≤ 3 := by
  obtain ⟨more, hmore, hseq⟩ := h
  have hle := hseq.length_le
  have hpos := List.length_pos_iff.mpr hmore
  rw [List.length_append] at hle
  omega

/-! ### Sequences by their bytes

Each length of sequence is given by bounds on its bytes, the second of which carries the
exceptions. -/

/-- A continuation byte. -/
def Tail (b : UInt8) : Prop := 0x80 ≤ b.toNat ∧ b.toNat ≤ 0xBF

theorem exists_char (n : Nat) (h : n.isValidChar) : ∃ c : Char, c.val.toNat = n :=
  ⟨Char.ofNatAux n h, by
    show (UInt32.ofNatLT n _).toNat = n
    exact UInt32.toNat_ofNatLT⟩

private theorem ofNat_eq {b : UInt8} {n : Nat} (h : n = b.toNat) : UInt8.ofNat n = b := by
  rw [h]
  exact UInt8.ofNat_toNat

theorem isSequence_one {a : UInt8} (ha : a.toNat < 0x80) : IsSequence [a] := by
  obtain ⟨c, hc⟩ := exists_char a.toNat (Or.inl (by omega))
  refine ⟨c, ?_⟩
  unfold String.utf8EncodeChar
  simp only [hc]
  rw [if_pos (by omega), ofNat_eq rfl]

theorem isSequence_two {a b : UInt8} (ha : 0xC2 ≤ a.toNat ∧ a.toNat ≤ 0xDF) (hb : Tail b) :
    IsSequence [a, b] := by
  obtain ⟨hb₁, hb₂⟩ := hb
  obtain ⟨c, hc⟩ := exists_char ((a.toNat - 0xC0) * 64 + (b.toNat - 0x80)) (Or.inl (by omega))
  refine ⟨c, ?_⟩
  unfold String.utf8EncodeChar
  simp only [hc]
  rw [if_neg (by omega), if_pos (by omega), ofNat_eq (b := a) (by omega),
    ofNat_eq (b := b) (by omega)]

/-- Three bytes; the second one is bounded so as to leave out overlong forms and surrogates. -/
theorem isSequence_three {a b c : UInt8} (ha : 0xE0 ≤ a.toNat ∧ a.toNat ≤ 0xEF) (hb : Tail b)
    (hc : Tail c) (hE0 : a.toNat = 0xE0 → 0xA0 ≤ b.toNat) (hED : a.toNat = 0xED → b.toNat ≤ 0x9F) :
    IsSequence [a, b, c] := by
  obtain ⟨hb₁, hb₂⟩ := hb
  obtain ⟨hc₁, hc₂⟩ := hc
  obtain ⟨ch, hch⟩ := exists_char
    ((a.toNat - 0xE0) * 4096 + (b.toNat - 0x80) * 64 + (c.toNat - 0x80)) (by
      show _ < 0xd800 ∨ 0xdfff < _ ∧ _ < 0x110000
      omega)
  refine ⟨ch, ?_⟩
  unfold String.utf8EncodeChar
  simp only [hch]
  rw [if_neg (by omega), if_neg (by omega), if_pos (by omega), ofNat_eq (b := a) (by omega),
    ofNat_eq (b := b) (by omega), ofNat_eq (b := c) (by omega)]

/-- Four bytes; the second one is bounded so as to leave out overlong forms and what lies above
the last character. -/
theorem isSequence_four {a b c d : UInt8} (ha : 0xF0 ≤ a.toNat ∧ a.toNat ≤ 0xF4) (hb : Tail b)
    (hc : Tail c) (hd : Tail d) (hF0 : a.toNat = 0xF0 → 0x90 ≤ b.toNat)
    (hF4 : a.toNat = 0xF4 → b.toNat ≤ 0x8F) : IsSequence [a, b, c, d] := by
  obtain ⟨hb₁, hb₂⟩ := hb
  obtain ⟨hc₁, hc₂⟩ := hc
  obtain ⟨hd₁, hd₂⟩ := hd
  obtain ⟨ch, hch⟩ := exists_char
    ((a.toNat - 0xF0) * 262144 + (b.toNat - 0x80) * 4096 + (c.toNat - 0x80) * 64
      + (d.toNat - 0x80)) (by
      show _ < 0xd800 ∨ 0xdfff < _ ∧ _ < 0x110000
      omega)
  refine ⟨ch, ?_⟩
  unfold String.utf8EncodeChar
  simp only [hch]
  rw [if_neg (by omega), if_neg (by omega), if_neg (by omega), ofNat_eq (b := a) (by omega),
    ofNat_eq (b := b) (by omega), ofNat_eq (b := c) (by omega), ofNat_eq (b := d) (by omega)]

/-! ### The grammar of RFC 3629

The same set once more, as the grammar writes it.  That no sequence begins another is read off
it. -/

/-- `UTF8-char`, one constructor for each alternative. -/
inductive Grammar : List UInt8 → Prop
  | one {a : UInt8} (ha : a.toNat ≤ 0x7F) : Grammar [a]
  | two {a b : UInt8} (ha : 0xC2 ≤ a.toNat ∧ a.toNat ≤ 0xDF) (hb : Tail b) : Grammar [a, b]
  | e0 {a b c : UInt8} (ha : a.toNat = 0xE0) (hb : 0xA0 ≤ b.toNat ∧ b.toNat ≤ 0xBF)
      (hc : Tail c) : Grammar [a, b, c]
  | e1_ec {a b c : UInt8} (ha : 0xE1 ≤ a.toNat ∧ a.toNat ≤ 0xEC) (hb : Tail b) (hc : Tail c) :
      Grammar [a, b, c]
  | ed {a b c : UInt8} (ha : a.toNat = 0xED) (hb : 0x80 ≤ b.toNat ∧ b.toNat ≤ 0x9F)
      (hc : Tail c) : Grammar [a, b, c]
  | ee_ef {a b c : UInt8} (ha : 0xEE ≤ a.toNat ∧ a.toNat ≤ 0xEF) (hb : Tail b) (hc : Tail c) :
      Grammar [a, b, c]
  | f0 {a b c d : UInt8} (ha : a.toNat = 0xF0) (hb : 0x90 ≤ b.toNat ∧ b.toNat ≤ 0xBF)
      (hc : Tail c) (hd : Tail d) : Grammar [a, b, c, d]
  | f1_f3 {a b c d : UInt8} (ha : 0xF1 ≤ a.toNat ∧ a.toNat ≤ 0xF3) (hb : Tail b) (hc : Tail c)
      (hd : Tail d) : Grammar [a, b, c, d]
  | f4 {a b c d : UInt8} (ha : a.toNat = 0xF4) (hb : 0x80 ≤ b.toNat ∧ b.toNat ≤ 0x8F)
      (hc : Tail c) (hd : Tail d) : Grammar [a, b, c, d]

private theorem Grammar.isSequence {bytes : List UInt8} (h : Grammar bytes) :
    IsSequence bytes := by
  cases h with
  | one ha => exact isSequence_one (by omega)
  | two ha hb => exact isSequence_two ha hb
  | e0 ha hb hc => exact isSequence_three (by omega) ⟨by omega, hb.2⟩ hc (by omega) (by omega)
  | e1_ec ha hb hc => exact isSequence_three (by omega) hb hc (by omega) (by omega)
  | ed ha hb hc => exact isSequence_three (by omega) ⟨hb.1, by omega⟩ hc (by omega) (by omega)
  | ee_ef ha hb hc => exact isSequence_three (by omega) hb hc (by omega) (by omega)
  | f0 ha hb hc hd =>
      exact isSequence_four (by omega) ⟨by omega, hb.2⟩ hc hd (by omega) (by omega)
  | f1_f3 ha hb hc hd => exact isSequence_four (by omega) hb hc hd (by omega) (by omega)
  | f4 ha hb hc hd =>
      exact isSequence_four (by omega) ⟨hb.1, by omega⟩ hc hd (by omega) (by omega)

private theorem toNat_ofNat {n : Nat} (h : n < 256) : (UInt8.ofNat n).toNat = n := by
  rw [UInt8.toNat_ofNat']
  exact Nat.mod_eq_of_lt h

private theorem tail_ofNat (n : Nat) : Tail (UInt8.ofNat (n % 64 + 0x80)) := by
  unfold Tail
  rw [toNat_ofNat (by omega)]
  omega

private theorem grammar_three {n : Nat} (hlo : 0x800 ≤ n) (hhi : n < 0x10000)
    (hs : n < 0xD800 ∨ 0xDFFF < n) : Grammar [UInt8.ofNat (n / 4096 % 16 + 0xE0),
      UInt8.ofNat (n / 64 % 64 + 0x80), UInt8.ofNat (n % 64 + 0x80)] := by
  have ha := toNat_ofNat (show n / 4096 % 16 + 0xE0 < 256 by omega)
  have hb := toNat_ofNat (show n / 64 % 64 + 0x80 < 256 by omega)
  by_cases h0 : n < 0x1000
  · exact .e0 (by omega) (by omega) (tail_ofNat n)
  by_cases hc : n < 0xD000
  · exact .e1_ec (by omega) (tail_ofNat (n / 64)) (tail_ofNat n)
  by_cases hd : n < 0xD800
  · exact .ed (by omega) (by omega) (tail_ofNat n)
  · exact .ee_ef (by omega) (tail_ofNat (n / 64)) (tail_ofNat n)

private theorem grammar_four {n : Nat} (hlo : 0x10000 ≤ n) (hhi : n < 0x110000) :
    Grammar [UInt8.ofNat (n / 262144 % 8 + 0xF0), UInt8.ofNat (n / 4096 % 64 + 0x80),
      UInt8.ofNat (n / 64 % 64 + 0x80), UInt8.ofNat (n % 64 + 0x80)] := by
  have ha := toNat_ofNat (show n / 262144 % 8 + 0xF0 < 256 by omega)
  have hb := toNat_ofNat (show n / 4096 % 64 + 0x80 < 256 by omega)
  by_cases h0 : n < 0x40000
  · exact .f0 (by omega) (by omega) (tail_ofNat (n / 64)) (tail_ofNat n)
  by_cases h3 : n < 0x100000
  · exact .f1_f3 (by omega) (tail_ofNat (n / 4096)) (tail_ofNat (n / 64)) (tail_ofNat n)
  · exact .f4 (by omega) (by omega) (tail_ofNat (n / 64)) (tail_ofNat n)

/-- **The bytes of a character are what the grammar derives.** -/
theorem isSequence_iff_grammar {bytes : List UInt8} : IsSequence bytes ↔ Grammar bytes := by
  refine ⟨?_, Grammar.isSequence⟩
  rintro ⟨c, rfl⟩
  have hvalid : c.val.toNat < 0xD800 ∨ 0xDFFF < c.val.toNat ∧ c.val.toNat < 0x110000 := c.valid
  unfold String.utf8EncodeChar
  dsimp only
  generalize c.val.toNat = n at hvalid ⊢
  by_cases h1 : n ≤ 0x7F
  · rw [if_pos h1]
    exact .one (by rw [toNat_ofNat (by omega)]; exact h1)
  rw [if_neg h1]
  by_cases h2 : n ≤ 0x7FF
  · rw [if_pos h2]
    have ha := toNat_ofNat (show n / 64 % 32 + 0xC0 < 256 by omega)
    exact .two (by omega) (tail_ofNat n)
  rw [if_neg h2]
  by_cases h3 : n ≤ 0xFFFF
  · rw [if_pos h3]
    exact grammar_three (by omega) (by omega) (by omega)
  · rw [if_neg h3]
    exact grammar_four (by omega) (by omega)

/-- The first byte of a sequence says how long it is. -/
private theorem IsSequence.length_eq {a : UInt8} {rest : List UInt8}
    (h : IsSequence (a :: rest)) : rest.length
      = if a.toNat ≤ 0x7F then 0 else if a.toNat ≤ 0xDF then 1 else if a.toNat ≤ 0xEF then 2
        else 3 := by
  cases isSequence_iff_grammar.mp h <;> simp only [List.length_cons, List.length_nil] <;> grind

theorem IsSequence.ne_nil {bytes : List UInt8} (h : IsSequence bytes) : bytes ≠ [] := by
  cases isSequence_iff_grammar.mp h <;> simp

/-- **No sequence begins another one.** -/
theorem IsSequence.eq_of_append {a more : List UInt8} (ha : IsSequence a)
    (hb : IsSequence (a ++ more)) : more = [] := by
  obtain ⟨x, rest, rfl⟩ := List.exists_cons_of_ne_nil ha.ne_nil
  rw [List.cons_append] at hb
  have hlen := hb.length_eq
  rw [← ha.length_eq, List.length_append] at hlen
  exact List.length_eq_zero_iff.mp (by omega)

theorem IsSequence.eq_of_isPrefix {a b : List UInt8} (ha : IsSequence a) (hb : IsSequence b)
    (h : a <+: b) : a = b := by
  obtain ⟨more, rfl⟩ := h
  rw [ha.eq_of_append hb, List.append_nil]

theorem IsPartial.not_isSequence {bytes : List UInt8} (h : IsPartial bytes) :
    ¬IsSequence bytes := by
  obtain ⟨more, hmore, hseq⟩ := h
  intro hbytes
  exact hmore (hbytes.eq_of_append hseq)

/-! ### Repairing

What is not a sequence is replaced part by part, and each part is the longest one that some
sequence begins with. -/

/-- A part that some sequence begins with. -/
def Begins (part : List UInt8) : Prop := part ≠ [] ∧ ∃ more, IsSequence (part ++ more)

theorem IsSequence.begins {part : List UInt8} (h : IsSequence part) : Begins part :=
  ⟨h.ne_nil, [], by rwa [List.append_nil]⟩

theorem Begins.of_isPrefix {part bytes : List UInt8} (h : Begins bytes) (hpart : part <+: bytes)
    (hne : part ≠ []) : Begins part := by
  obtain ⟨rest, rfl⟩ := hpart
  obtain ⟨-, more, hseq⟩ := h
  exact ⟨hne, rest ++ more, by rwa [← List.append_assoc]⟩

/-- The longest part at the front of some bytes that a sequence begins with, or one byte if
there is none. -/
structure MaximalSubpart (part bytes : List UInt8) : Prop where
  front : part <+: bytes
  begins : Begins part ∨ part.length = 1
  longest : ∀ other, other <+: bytes → Begins other → other.length ≤ part.length

/-- `text` is `bytes` with every sequence kept and `replacement` for every other maximal
subpart. -/
inductive Repaired (replacement : List UInt8) : (bytes text : List UInt8) → Prop
  | nil : Repaired replacement [] []
  | keep {front rest text : List UInt8} (h : IsSequence front)
      (hrest : Repaired replacement rest text) :
      Repaired replacement (front ++ rest) (front ++ text)
  | replace {part rest text : List UInt8} (h : MaximalSubpart part (part ++ rest))
      (hnot : ¬IsSequence part) (hrest : Repaired replacement rest text) :
      Repaired replacement (part ++ rest) (replacement ++ text)

namespace MaximalSubpart

variable {part part' bytes : List UInt8}

theorem ne_nil (h : MaximalSubpart part bytes) : part ≠ [] := by
  rcases h.begins with hb | hlen
  · exact hb.1
  · intro hnil
    simp [hnil] at hlen

private theorem length_le (h : MaximalSubpart part bytes) (h' : MaximalSubpart part' bytes) :
    part.length ≤ part'.length := by
  rcases h.begins with hb | hlen
  · exact h'.longest part h.front hb
  · rw [hlen]
    exact List.length_pos_iff.mpr h'.ne_nil

theorem unique (h : MaximalSubpart part bytes) (h' : MaximalSubpart part' bytes) :
    part = part' :=
  (List.prefix_of_prefix_length_le h.front h'.front (h.length_le h')).eq_of_length
    (le_antisymm (h.length_le h') (h'.length_le h))

/-- A sequence at the front is the maximal subpart there. -/
theorem of_isSequence {rest : List UInt8} (h : IsSequence part) :
    MaximalSubpart part (part ++ rest) := by
  refine ⟨List.prefix_append _ _, Or.inl h.begins, ?_⟩
  rintro other hother ⟨-, more, hseq⟩
  by_contra hlt
  have hle : part <+: other :=
    List.prefix_of_prefix_length_le (List.prefix_append _ _) hother (by omega)
  have heq := h.eq_of_isPrefix hseq (hle.trans (List.prefix_append _ _))
  rw [heq, List.length_append] at hlt
  omega

end MaximalSubpart

namespace Repaired

variable {replacement bytes text text' : List UInt8}

/-- **There is one way to repair.** -/
theorem unique (h : Repaired replacement bytes text) (h' : Repaired replacement bytes text') :
    text = text' := by
  induction h generalizing text' with
  | nil =>
      generalize hb : ([] : List UInt8) = bytes at h'
      cases h' with
      | nil => rfl
      | keep hseq _ => exact absurd (List.append_eq_nil_iff.mp hb.symm).1 hseq.ne_nil
      | replace hmax _ _ => exact absurd (List.append_eq_nil_iff.mp hb.symm).1 hmax.ne_nil
  | @keep front rest text hseq _ ih =>
      generalize hb : front ++ rest = bytes at h'
      have hhere : MaximalSubpart front (front ++ rest) := .of_isSequence hseq
      cases h' with
      | nil => exact absurd (List.append_eq_nil_iff.mp hb).1 hseq.ne_nil
      | keep hseq' hrest' =>
          rw [hb] at hhere
          obtain rfl := hhere.unique (.of_isSequence hseq')
          rw [ih (by rwa [List.append_cancel_left hb])]
      | replace hmax hnot _ =>
          rw [hb] at hhere
          exact absurd (hhere.unique hmax ▸ hseq) hnot
  | @replace part rest text hmax hnot _ ih =>
      generalize hb : part ++ rest = bytes at h' hmax
      cases h' with
      | nil => exact absurd (List.append_eq_nil_iff.mp hb).1 hmax.ne_nil
      | keep hseq' _ => exact absurd (hmax.unique (.of_isSequence hseq') ▸ hseq') hnot
      | replace hmax' _ hrest' =>
          obtain rfl := hmax.unique hmax'
          rw [ih (by rwa [List.append_cancel_left hb])]

theorem wellFormed (hreplacement : WellFormed replacement)
    (h : Repaired replacement bytes text) : WellFormed text := by
  induction h with
  | nil => exact WellFormed.nil
  | keep hseq _ ih => exact hseq.wellFormed.append ih
  | replace _ _ _ ih => exact hreplacement.append ih

/-- What is well formed needs no repair. -/
theorem of_wellFormed (h : WellFormed bytes) : Repaired replacement bytes bytes := by
  obtain ⟨cs, rfl⟩ := h
  induction cs with
  | nil => exact .nil
  | cons c cs ih => exact .keep ⟨c, rfl⟩ ih

end Repaired

end Utf8
