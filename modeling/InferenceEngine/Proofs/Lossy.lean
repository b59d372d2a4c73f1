/-
The lossy decoder repairs.

A byte that the classification refuses could not have continued what was read before it, so
what was read is a maximal subpart of the text; and when there is no byte left to refuse, all
of the text is.  So the text that comes out is the one repair of the text that went in.
-/
import InferenceEngine.Proofs.Detokenize

namespace InferenceEngine

open Utf8

variable {length size i n : Nat} {lo hi lead : UInt8} {rest bytes : Text}

/-! ### What begins with a lead byte

Every sequence of the standard has its lead byte in the table, with its length and the range of
its second byte. -/

private theorem inRange_second {b : UInt8} (h : lo.toNat ≤ b.toNat ∧ b.toNat ≤ hi.toNat) :
    InRange lo hi 1 b := by
  unfold InRange
  rw [if_pos rfl]
  exact ⟨UInt8.le_iff_toNat_le.mpr h.1, UInt8.le_iff_toNat_le.mpr h.2⟩

private theorem inRange_tail {b : UInt8} (hi' : i ≠ 1) (h : Tail b) : InRange lo hi i b := by
  unfold InRange
  rw [if_neg hi']
  exact ⟨UInt8.le_iff_toNat_le.mpr h.1, UInt8.le_iff_toNat_le.mpr h.2⟩

/-- **The table of lead bytes leaves no sequence out.** -/
theorem utf8Lead_of_isSequence (hlead : ¬lead < 0x80) (h : IsSequence (lead :: rest)) :
    ∃ length lo hi, utf8Lead lead = some (length, lo, hi) ∧ 1 + rest.length = length ∧
      Continues lo hi 1 rest := by
  rw [UInt8.lt_iff_toNat_lt] at hlead
  rw [utf8Lead_eq]
  cases isSequence_iff_grammar.mp h with
  | one ha => exact absurd (Nat.lt_succ_of_le ha) hlead
  | two ha hb =>
      rw [if_pos (by omega)]
      exact ⟨_, _, _, rfl, rfl, inRange_second hb, trivial⟩
  | e0 ha hb hc =>
      rw [if_neg (by omega), if_pos (by omega), if_pos ha]
      exact ⟨_, _, _, rfl, rfl, inRange_second hb, inRange_tail (by decide) hc, trivial⟩
  | e1_ec ha hb hc =>
      rw [if_neg (by omega), if_pos (by omega), if_neg (by omega), if_neg (by omega)]
      exact ⟨_, _, _, rfl, rfl, inRange_second hb, inRange_tail (by decide) hc, trivial⟩
  | ed ha hb hc =>
      rw [if_neg (by omega), if_pos (by omega), if_neg (by omega), if_pos ha]
      exact ⟨_, _, _, rfl, rfl, inRange_second hb, inRange_tail (by decide) hc, trivial⟩
  | ee_ef ha hb hc =>
      rw [if_neg (by omega), if_pos (by omega), if_neg (by omega), if_neg (by omega)]
      exact ⟨_, _, _, rfl, rfl, inRange_second hb, inRange_tail (by decide) hc, trivial⟩
  | f0 ha hb hc hd =>
      rw [if_neg (by omega), if_neg (by omega), if_pos (by omega), if_pos ha]
      exact ⟨_, _, _, rfl, rfl, inRange_second hb, inRange_tail (by decide) hc,
        inRange_tail (by decide) hd, trivial⟩
  | f1_f3 ha hb hc hd =>
      rw [if_neg (by omega), if_neg (by omega), if_pos (by omega), if_neg (by omega),
        if_neg (by omega)]
      exact ⟨_, _, _, rfl, rfl, inRange_second hb, inRange_tail (by decide) hc,
        inRange_tail (by decide) hd, trivial⟩
  | f4 ha hb hc hd =>
      rw [if_neg (by omega), if_neg (by omega), if_pos (by omega), if_neg (by omega), if_pos ha]
      exact ⟨_, _, _, rfl, rfl, inRange_second hb, inRange_tail (by decide) hc,
        inRange_tail (by decide) hd, trivial⟩

/-! ### Bytes that are refused

A byte is refused where no sequence goes on with it.  What was read before it can then not be
part of a sequence at all. -/

private theorem Continues.inRange_at {b : UInt8} {back : Text} : ∀ {i : Nat} {front : Text},
    Continues lo hi i (front ++ b :: back) → InRange lo hi (i + front.length) b := by
  intro i front
  induction front generalizing i with
  | nil => exact fun h => h.1
  | cons a front ih =>
      intro h
      rw [List.length_cons, show i + (front.length + 1) = i + 1 + front.length by omega]
      exact ih h.2

/-- The loop over the continuation bytes stops before the byte that it refuses. -/
theorem utf8Continue_refused : ∀ {i : Nat} {rest : Text},
    utf8Continue length lo hi size i rest = ⟨.invalid, n⟩ →
      ∃ front b back, rest = front ++ b :: back ∧ i + front.length = n ∧ n < length ∧
        Continues lo hi i front ∧ ¬InRange lo hi n b := by
  intro i rest
  induction rest generalizing i with
  | nil =>
      intro h
      by_cases hlt : i < length
      · rw [utf8Continue_nil hlt] at h
        cases h
      · rw [utf8Continue_end hlt] at h
        cases h
  | cons b rest ih =>
      intro h
      by_cases hlt : i < length
      · by_cases hb : InRange lo hi i b
        · rw [utf8Continue_cons hlt hb] at h
          obtain ⟨front, c, back, hrest, hn, hlen, hfront, hc⟩ := ih h
          refine ⟨b :: front, c, back, by rw [hrest]; rfl, ?_, hlen, ⟨hb, hfront⟩, hc⟩
          rw [List.length_cons]
          omega
        · rw [utf8Continue_invalid hlt hb] at h
          cases h
          exact ⟨[], b, rest, rfl, rfl, hlt, trivial, hb⟩
      · rw [utf8Continue_end hlt] at h
        cases h

/-- A part of a text that no sequence begins with, whatever may follow. -/
structure DeadPart (bytes : Text) (n : Nat) : Prop where
  pos : 0 < n
  le : n ≤ bytes.length
  begins : Begins (bytes.take n) ∨ n = 1
  not_isSequence : ¬IsSequence (bytes.take n)
  longest : ∀ other, other <+: bytes → Begins other → other.length ≤ n
  dead : ¬Begins bytes

private theorem refused_of_lead (hlead : ¬lead < 0x80) (h : utf8Lead lead = none) :
    DeadPart (lead :: rest) 1 := by
  have hnone : ∀ more, ¬IsSequence (lead :: more) := by
    intro more hseq
    obtain ⟨_, _, _, hsome, -⟩ := utf8Lead_of_isSequence hlead hseq
    rw [h] at hsome
    cases hsome
  have hdead : ∀ tail, ¬Begins (lead :: tail) := fun tail hb => by
    obtain ⟨more, hseq⟩ := hb.2
    exact hnone _ hseq
  refine ⟨Nat.one_pos, by simp, Or.inr rfl, hnone _, ?_, hdead _⟩
  intro other hother hb
  obtain ⟨a, tail, rfl⟩ := List.exists_cons_of_ne_nil hb.1
  obtain ⟨_, heq⟩ := hother
  obtain ⟨rfl, -⟩ := List.cons.inj heq
  exact absurd hb (hdead tail)

private theorem refused_of_continuation {front back : Text} {b : UInt8} (hlead : ¬lead < 0x80)
    (h : utf8Lead lead = some (length, lo, hi)) (hlen : 1 + front.length < length)
    (hfront : Continues lo hi 1 front) (hb : ¬InRange lo hi (1 + front.length) b) :
    DeadPart (lead :: (front ++ b :: back)) (1 + front.length) := by
  have hleads := utf8Lead_leads h
  have htake : (lead :: (front ++ b :: back)).take (1 + front.length) = lead :: front := by
    rw [Nat.add_comm, List.take_succ_cons, List.take_left]
  -- a sequence with the refused byte in it would have had to accept it there
  have hnone : ∀ more, ¬IsSequence (lead :: (front ++ b :: more)) := by
    intro more hseq
    obtain ⟨_, _, _, hsome, -, hcont⟩ := utf8Lead_of_isSequence hlead hseq
    rw [h] at hsome
    cases hsome
    exact hb hcont.inRange_at
  have hdead : ¬Begins (lead :: (front ++ b :: back)) := by
    rintro ⟨-, more, hseq⟩
    refine hnone (back ++ more) ?_
    simpa using hseq
  obtain ⟨more, hmore, hcont⟩ := hfront.extend hleads.lo_le (length - (1 + front.length))
  have hbegins : IsPartial (lead :: front) := by
    refine ⟨more, ?_, hleads.sequence (front ++ more) ?_ hcont⟩
    · intro hnil
      rw [hnil, List.length_nil] at hmore
      omega
    · rw [List.length_append]
      omega
  refine ⟨by omega, by simp; omega, Or.inl ?_, ?_, ?_, hdead⟩
  · rw [htake]
    exact ⟨by simp, hbegins.imp fun _ hm => hm.2⟩
  · rw [htake]
    exact hbegins.not_isSequence
  · intro other hother hother'
    by_contra hlt
    -- a longer part would hold the refused byte
    have hle : lead :: (front ++ [b]) <+: other := by
      refine List.prefix_of_prefix_length_le ?_ hother ?_
      · exact ⟨back, by simp⟩
      · simp only [List.length_cons, List.length_append, List.length_nil]
        omega
    obtain ⟨-, more', hseq⟩ := hother'.of_isPrefix hle (by simp)
    exact hnone more' (by simpa using hseq)

theorem classifyUtf8Prefix_refused (hne : bytes ≠ [])
    (h : classifyUtf8Prefix bytes = ⟨.invalid, n⟩) : DeadPart bytes n := by
  obtain ⟨lead, rest, rfl⟩ := List.exists_cons_of_ne_nil hne
  unfold classifyUtf8Prefix at h
  dsimp only at h
  by_cases hl : lead < 0x80
  · rw [if_pos hl] at h
    cases h
  rw [if_neg hl] at h
  cases hlead : utf8Lead lead with
  | none =>
      rw [hlead] at h
      cases h
      exact refused_of_lead hl hlead
  | some info =>
      obtain ⟨length, lo, hi⟩ := info
      rw [hlead] at h
      obtain ⟨front, b, back, rfl, rfl, hlen, hfront, hb⟩ := utf8Continue_refused h
      exact refused_of_continuation hl hlead hlen hfront hb

/-- **More bytes are needed exactly when more bytes could help.** -/
theorem classifyUtf8Prefix_incomplete_iff (hne : bytes ≠ []) :
    (classifyUtf8Prefix bytes).kind = .incomplete ↔ IsPartial bytes := by
  have hspec := classifyUtf8Prefix_spec hne
  have hrefused : ∀ n, classifyUtf8Prefix bytes = ⟨.invalid, n⟩ → DeadPart bytes n :=
    fun n => classifyUtf8Prefix_refused hne
  revert hspec hrefused
  generalize classifyUtf8Prefix bytes = r
  intro hspec hrefused
  cases hspec with
  | complete front back hbytes hseq _ =>
      refine ⟨fun h => absurd h (by simp), ?_⟩
      rintro ⟨more, hmore, hwhole⟩
      rw [hbytes, List.append_assoc] at hwhole
      exact absurd (List.append_eq_nil_iff.mp (hseq.eq_of_append hwhole)).2 hmore
  | incomplete h => exact ⟨fun _ => h, fun _ => rfl⟩
  | invalid n _ _ =>
      refine ⟨fun h => absurd h (by simp), ?_⟩
      rintro ⟨more, -, hwhole⟩
      exact absurd ⟨hne, more, hwhole⟩ (hrefused n rfl).dead

/-! ### Repairs

One turn replaces a maximal subpart or copies a sequence, and the repair of the rest follows. -/

private theorem maximal_of_isPartial (hne : bytes ≠ []) (h : IsPartial bytes) :
    MaximalSubpart bytes bytes :=
  ⟨List.prefix_rfl, Or.inl ⟨hne, h.imp fun _ hm => hm.2⟩, fun _ hother _ => hother.length_le⟩

private theorem maximal_of_refused (h : DeadPart bytes n) :
    MaximalSubpart (bytes.take n) bytes := by
  have hlen : (bytes.take n).length = n := List.length_take_of_le h.le
  refine ⟨List.take_prefix n bytes, h.begins.imp id fun h1 => hlen.trans h1, ?_⟩
  rw [hlen]
  exact h.longest

/-- One turn of the loop. -/
private theorem repaired_step {text : Text} (hne : bytes ≠ [])
    (hrest : Repaired replacementCharacter
      (bytes.drop (classifyUtf8Prefix bytes).length) text) :
    Repaired replacementCharacter bytes (lossyPiece bytes ++ text) := by
  have hspec := classifyUtf8Prefix_spec hne
  have hrefused : ∀ n, classifyUtf8Prefix bytes = ⟨.invalid, n⟩ → DeadPart bytes n :=
    fun n => classifyUtf8Prefix_refused hne
  unfold lossyPiece
  revert hspec hrefused hrest
  generalize classifyUtf8Prefix bytes = r
  intro hrest hspec hrefused
  cases hspec with
  | complete front back hbytes hseq _ =>
      subst hbytes
      rw [List.drop_left] at hrest
      rw [if_pos rfl, List.take_left]
      exact .keep hseq hrest
  | incomplete h =>
      rw [List.drop_length] at hrest
      rw [if_neg (by simp)]
      have h' : Repaired replacementCharacter (bytes ++ []) (replacementCharacter ++ text) :=
        .replace (by rw [List.append_nil]; exact maximal_of_isPartial hne h) h.not_isSequence hrest
      rwa [List.append_nil] at h'
  | invalid n _ _ =>
      have hn := hrefused n rfl
      rw [if_neg (by simp)]
      have h' : Repaired replacementCharacter (bytes.take n ++ bytes.drop n)
          (replacementCharacter ++ text) :=
        .replace (by rw [List.take_append_drop]; exact maximal_of_refused hn) hn.not_isSequence
          hrest
      rwa [List.take_append_drop] at h'

/-- **What the lossy decoder returns is the repair of the text.** -/
theorem lossy_repaired (bytes : Text) : Repaired replacementCharacter bytes (lossy bytes) := by
  induction hlen : bytes.length using Nat.strong_induction_on generalizing bytes with
  | _ size ih =>
      by_cases hne : bytes = []
      · rw [hne, lossy_nil]
        exact .nil
      · have hpos := length_pos_of_classified (classifyUtf8Prefix_spec hne) hne
        rw [lossy_eq hne]
        refine repaired_step hne (ih _ ?_ _ rfl)
        rw [List.length_drop]
        omega

/-- **`append_utf8_lossy` and `classify_utf8_prefix` keep to the grammar.** -/
theorem appendUtf8Lossy_repairs (out bytes : Text) :
    ∃ text, appendUtf8Lossy out bytes = out ++ text ∧
      (∀ other, Repaired replacementCharacter bytes other ↔ other = text) ∧
      WellFormed text ∧ (WellFormed bytes → text = bytes) ∧
      appendUtf8Lossy out text = out ++ text ∧
      ∀ lead rest, (classifyUtf8Prefix (lead :: rest)).kind = .incomplete ↔
        IsPartial (lead :: rest) := by
  have hrepaired := lossy_repaired bytes
  have hwf := hrepaired.wellFormed wellFormed_replacement
  refine ⟨lossy bytes, appendUtf8Lossy_eq out bytes, ?_, hwf, ?_, ?_, ?_⟩
  · intro other
    refine ⟨fun h => h.unique hrepaired, ?_⟩
    rintro rfl
    exact hrepaired
  · intro hbytes
    exact hrepaired.unique (.of_wellFormed hbytes)
  · rw [appendUtf8Lossy_eq, (lossy_repaired _).unique (.of_wellFormed hwf)]
  · intro lead rest
    exact classifyUtf8Prefix_incomplete_iff (by simp)

end InferenceEngine
