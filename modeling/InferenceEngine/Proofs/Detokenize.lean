/-
A stream says what `decode` says.

The classification of a prefix of the bytes does not depend on what follows, unless it is
that more is needed.  So draining what can be drained and decoding the rest later, with
whatever has arrived by then, is the same as decoding everything at once.
-/
import InferenceEngine.Lib.Utf8
import InferenceEngine.Tokenizer.Detokenize

namespace InferenceEngine

open Utf8

/-! ### What a classification says

The loop over the continuation bytes is read off a relation: a byte out of range, the end of the
bytes, or the end of the sequence.  More bytes change the second answer only. -/

variable {length size i : Nat} {lo hi lead : UInt8} {rest more bytes : Text}

/-- The range of the `i`-th byte of a sequence whose second byte lies in `[lo, hi]`. -/
def InRange (lo hi : UInt8) (i : Nat) (b : UInt8) : Prop :=
  if i = 1 then lo ≤ b ∧ b ≤ hi else 0x80 ≤ b ∧ b ≤ 0xBF

/-- Bytes that continue a sequence at its `i`-th byte. -/
def Continues (lo hi : UInt8) : (i : Nat) → Text → Prop
  | _, [] => True
  | i, b :: rest => InRange lo hi i b ∧ Continues lo hi (i + 1) rest

private theorem not_inRange_iff {b : UInt8} :
    (b < (if i = 1 then lo else 0x80) || (if i = 1 then hi else 0xBF) < b) = true ↔
      ¬InRange lo hi i b := by
  unfold InRange
  by_cases h : i = 1
  · simp only [if_pos h, Bool.or_eq_true, decide_eq_true_eq, not_and_or, UInt8.not_le]
  · simp only [if_neg h, Bool.or_eq_true, decide_eq_true_eq, not_and_or, UInt8.not_le]

theorem utf8Continue_nil (h : i < length) :
    utf8Continue length lo hi size i [] = ⟨.incomplete, size⟩ := by
  unfold utf8Continue
  rw [if_pos h]

theorem utf8Continue_end (h : ¬i < length) :
    utf8Continue length lo hi size i rest = ⟨.complete, length⟩ := by
  cases rest <;> (unfold utf8Continue; rw [if_neg h])

theorem utf8Continue_cons {b : UInt8} (h : i < length) (hb : InRange lo hi i b) :
    utf8Continue length lo hi size i (b :: rest)
      = utf8Continue length lo hi size (i + 1) rest := by
  rw [utf8Continue, if_pos h]
  exact if_neg fun hc => not_inRange_iff.mp hc hb

theorem utf8Continue_invalid {b : UInt8} (h : i < length) (hb : ¬InRange lo hi i b) :
    utf8Continue length lo hi size i (b :: rest) = ⟨.invalid, i⟩ := by
  rw [utf8Continue, if_pos h]
  exact if_pos (not_inRange_iff.mpr hb)

/-- What the loop over the continuation bytes has found. -/
inductive Continued (length : Nat) (lo hi : UInt8) (size i : Nat) (rest : Text) :
    Utf8Classification → Prop
  | complete (front back : Text) (hrest : rest = front ++ back) (hlen : i + front.length = length)
      (h : Continues lo hi i front) : Continued length lo hi size i rest ⟨.complete, length⟩
  | incomplete (hlen : i + rest.length < length) (h : Continues lo hi i rest) :
      Continued length lo hi size i rest ⟨.incomplete, size⟩
  | invalid (n : Nat) (hle : i ≤ n) (hlt : n < i + rest.length) :
      Continued length lo hi size i rest ⟨.invalid, n⟩

theorem utf8Continue_spec (lo hi : UInt8) (size : Nat) : ∀ {i : Nat} (rest : Text), i ≤ length →
    Continued length lo hi size i rest (utf8Continue length lo hi size i rest) := by
  intro i rest
  induction rest generalizing i with
  | nil =>
      intro hi'
      by_cases h : i < length
      · rw [utf8Continue_nil h]
        exact .incomplete h trivial
      · rw [utf8Continue_end h]
        exact .complete [] [] rfl (by simp; omega) trivial
  | cons b rest ih =>
      intro hi'
      by_cases h : i < length
      · by_cases hb : InRange lo hi i b
        · rw [utf8Continue_cons h hb]
          have hspec := ih (i := i + 1) h
          revert hspec
          generalize utf8Continue length lo hi size (i + 1) rest = r
          intro hspec
          cases hspec with
          | complete front back hrest hlen hfront =>
              refine .complete (b :: front) back (by rw [hrest]; rfl) ?_ ⟨hb, hfront⟩
              rw [List.length_cons]
              omega
          | incomplete hlen hrest =>
              refine .incomplete ?_ ⟨hb, hrest⟩
              rw [List.length_cons]
              omega
          | invalid n hle hlt =>
              refine .invalid n (by omega) ?_
              rw [List.length_cons]
              omega
        · rw [utf8Continue_invalid h hb]
          exact .invalid i (le_refl _) (by simp)
      · rw [utf8Continue_end h]
        exact .complete [] _ rfl (by simp; omega) trivial

/-- What follows does not matter, unless it is that more is needed. -/
theorem utf8Continue_append {size' : Nat} : ∀ {i : Nat} {rest : Text},
    (utf8Continue length lo hi size i rest).kind ≠ .incomplete →
      utf8Continue length lo hi size' i (rest ++ more)
        = utf8Continue length lo hi size i rest := by
  intro i rest
  induction rest generalizing i with
  | nil =>
      intro h
      by_cases hi' : i < length
      · rw [utf8Continue_nil hi'] at h
        exact absurd rfl h
      · rw [utf8Continue_end hi', utf8Continue_end hi']
  | cons b rest ih =>
      intro h
      by_cases hi' : i < length
      · by_cases hb : InRange lo hi i b
        · rw [utf8Continue_cons hi' hb] at h ⊢
          rw [List.cons_append, utf8Continue_cons hi' hb]
          exact ih h
        · rw [utf8Continue_invalid hi' hb, List.cons_append, utf8Continue_invalid hi' hb]
      · rw [utf8Continue_end hi', utf8Continue_end hi']

theorem classifyUtf8Prefix_append (hne : bytes ≠ [])
    (h : (classifyUtf8Prefix bytes).kind ≠ .incomplete) (more : Text) :
    classifyUtf8Prefix (bytes ++ more) = classifyUtf8Prefix bytes := by
  cases bytes with
  | nil => exact absurd rfl hne
  | cons lead rest =>
      unfold classifyUtf8Prefix at h ⊢
      rw [List.cons_append]
      dsimp only at h ⊢
      by_cases hl : lead < 0x80
      · rw [if_pos hl, if_pos hl]
      · rw [if_neg hl] at h
        rw [if_neg hl, if_neg hl]
        cases hlead : utf8Lead lead with
        | none => rfl
        | some info =>
            rw [hlead] at h
            exact utf8Continue_append h

/-! ### Lead bytes

Each lead byte fixes a length, the range of the second byte and nothing else.  The table of the
code is compared with the table of the standard here, once. -/

/-- What a lead byte that starts a sequence of two or more says about it. -/
structure Leads (lead : UInt8) (length : Nat) (lo hi : UInt8) : Prop where
  range : 2 ≤ length ∧ length ≤ 4
  lo_le : lo ≤ hi
  sequence : ∀ rest, 1 + rest.length = length → Continues lo hi 1 rest →
    IsSequence (lead :: rest)

private theorem tail_of_inRange {b : UInt8} (hi' : i ≠ 1) (h : InRange lo hi i b) : Tail b := by
  unfold InRange at h
  rw [if_neg hi'] at h
  exact ⟨UInt8.le_iff_toNat_le.mp h.1, UInt8.le_iff_toNat_le.mp h.2⟩

private theorem second_of_inRange {b : UInt8} (h : InRange lo hi 1 b) :
    lo.toNat ≤ b.toNat ∧ b.toNat ≤ hi.toNat :=
  ⟨UInt8.le_iff_toNat_le.mp h.1, UInt8.le_iff_toNat_le.mp h.2⟩

private theorem leads_two (h : 0xC2 ≤ lead.toNat ∧ lead.toNat ≤ 0xDF) : Leads lead 2 0x80 0xBF := by
  refine ⟨by omega, by decide, fun rest hlen hrest => ?_⟩
  obtain ⟨b, rfl⟩ := List.length_eq_one_iff.mp (show rest.length = 1 by omega)
  exact isSequence_two h (second_of_inRange hrest.1)

private theorem leads_three (h : 0xE0 ≤ lead.toNat ∧ lead.toNat ≤ 0xEF) (hle : lo ≤ hi)
    (htail : 0x80 ≤ lo.toNat ∧ hi.toNat ≤ 0xBF) (hE0 : lead.toNat = 0xE0 → 0xA0 ≤ lo.toNat)
    (hED : lead.toNat = 0xED → hi.toNat ≤ 0x9F) : Leads lead 3 lo hi := by
  refine ⟨by omega, hle, fun rest hlen hrest => ?_⟩
  obtain ⟨b, c, rfl⟩ := List.length_eq_two.mp (show rest.length = 2 by omega)
  have hb := second_of_inRange hrest.1
  refine isSequence_three h ⟨by omega, by omega⟩ (tail_of_inRange (by decide) hrest.2.1) ?_ ?_
  · intro heq
    exact le_trans (hE0 heq) hb.1
  · intro heq
    exact le_trans hb.2 (hED heq)

private theorem leads_four (h : 0xF0 ≤ lead.toNat ∧ lead.toNat ≤ 0xF4) (hle : lo ≤ hi)
    (htail : 0x80 ≤ lo.toNat ∧ hi.toNat ≤ 0xBF) (hF0 : lead.toNat = 0xF0 → 0x90 ≤ lo.toNat)
    (hF4 : lead.toNat = 0xF4 → hi.toNat ≤ 0x8F) : Leads lead 4 lo hi := by
  refine ⟨by omega, hle, fun rest hlen hrest => ?_⟩
  obtain ⟨b, c, d, rfl⟩ := List.length_eq_three.mp (show rest.length = 3 by omega)
  have hb := second_of_inRange hrest.1
  refine isSequence_four h ⟨by omega, by omega⟩ (tail_of_inRange (by decide) hrest.2.1)
    (tail_of_inRange (by decide) hrest.2.2.1) ?_ ?_
  · intro heq
    exact le_trans (hF0 heq) hb.1
  · intro heq
    exact le_trans hb.2 (hF4 heq)

theorem utf8Lead_eq (lead : UInt8) : utf8Lead lead =
    if 194 ≤ lead.toNat ∧ lead.toNat ≤ 223 then some (2, 0x80, 0xBF)
    else if 224 ≤ lead.toNat ∧ lead.toNat ≤ 239 then
      if lead.toNat = 224 then some (3, 0xA0, 0xBF)
      else if lead.toNat = 237 then some (3, 0x80, 0x9F)
      else some (3, 0x80, 0xBF)
    else if 240 ≤ lead.toNat ∧ lead.toNat ≤ 244 then
      if lead.toNat = 240 then some (4, 0x90, 0xBF)
      else if lead.toNat = 244 then some (4, 0x80, 0x8F)
      else some (4, 0x80, 0xBF)
    else none := by
  unfold utf8Lead
  simp only [Bool.and_eq_true, decide_eq_true_eq, ge_iff_le, UInt8.le_iff_toNat_le,
    ← UInt8.toNat_inj, UInt8.reduceToNat]

/-- **The table of lead bytes.** -/
theorem utf8Lead_leads (h : utf8Lead lead = some (length, lo, hi)) : Leads lead length lo hi := by
  rw [utf8Lead_eq] at h
  by_cases h2 : 194 ≤ lead.toNat ∧ lead.toNat ≤ 223
  · rw [if_pos h2] at h
    cases h
    exact leads_two h2
  rw [if_neg h2] at h
  by_cases h3 : 224 ≤ lead.toNat ∧ lead.toNat ≤ 239
  · rw [if_pos h3] at h
    by_cases hE0 : lead.toNat = 224
    · rw [if_pos hE0] at h
      cases h
      exact leads_three h3 (by decide) (by decide) (fun _ => by decide) (by omega)
    rw [if_neg hE0] at h
    by_cases hED : lead.toNat = 237
    · rw [if_pos hED] at h
      cases h
      exact leads_three h3 (by decide) (by decide) (by omega) (fun _ => by decide)
    · rw [if_neg hED] at h
      cases h
      exact leads_three h3 (by decide) (by decide) (by omega) (by omega)
  rw [if_neg h3] at h
  by_cases h4 : 240 ≤ lead.toNat ∧ lead.toNat ≤ 244
  · rw [if_pos h4] at h
    by_cases hF0 : lead.toNat = 240
    · rw [if_pos hF0] at h
      cases h
      exact leads_four h4 (by decide) (by decide) (fun _ => by decide) (by omega)
    rw [if_neg hF0] at h
    by_cases hF4 : lead.toNat = 244
    · rw [if_pos hF4] at h
      cases h
      exact leads_four h4 (by decide) (by decide) (by omega) (fun _ => by decide)
    · rw [if_neg hF4] at h
      cases h
      exact leads_four h4 (by decide) (by decide) (by omega) (by omega)
  · rw [if_neg h4] at h
    cases h

/-! ### Prefixes that may be continued

A prefix is incomplete exactly when some bytes make it a sequence.  That is why nothing may be
decoded of it before the stream ends. -/

private theorem exists_inRange (hle : lo ≤ hi) (i : Nat) : ∃ b, InRange lo hi i b := by
  unfold InRange
  by_cases h : i = 1
  · exact ⟨lo, by rw [if_pos h]; exact ⟨UInt8.le_refl _, hle⟩⟩
  · exact ⟨0x80, by rw [if_neg h]; decide⟩

private theorem Continues.snoc {b : UInt8} : ∀ {i : Nat} {rest : Text}, Continues lo hi i rest →
    InRange lo hi (i + rest.length) b → Continues lo hi i (rest ++ [b]) := by
  intro i rest
  induction rest generalizing i with
  | nil => intro _ hb; exact ⟨hb, trivial⟩
  | cons a rest ih =>
      intro h hb
      refine ⟨h.1, ih h.2 ?_⟩
      rw [List.length_cons] at hb
      rwa [show i + 1 + rest.length = i + (rest.length + 1) by omega]

theorem Continues.extend (hle : lo ≤ hi) (h : Continues lo hi 1 rest) (n : Nat) :
    ∃ more, more.length = n ∧ Continues lo hi 1 (rest ++ more) := by
  induction n with
  | zero => exact ⟨[], rfl, by rwa [List.append_nil]⟩
  | succ n ih =>
      obtain ⟨more, hlen, hmore⟩ := ih
      obtain ⟨b, hb⟩ := exists_inRange hle (1 + (rest ++ more).length)
      refine ⟨more ++ [b], by simp [hlen], ?_⟩
      rw [← List.append_assoc]
      exact hmore.snoc hb

/-- What `classify_utf8_prefix` has found. -/
inductive Classified (bytes : Text) : Utf8Classification → Prop
  | complete (front back : Text) (hbytes : bytes = front ++ back) (h : IsSequence front)
      (hne : front ≠ []) : Classified bytes ⟨.complete, front.length⟩
  | incomplete (h : IsPartial bytes) : Classified bytes ⟨.incomplete, bytes.length⟩
  | invalid (n : Nat) (hpos : 0 < n) (hle : n ≤ bytes.length) : Classified bytes ⟨.invalid, n⟩

/-- **A prefix is a sequence, may be continued to one, or is neither.** -/
theorem classifyUtf8Prefix_spec (hne : bytes ≠ []) :
    Classified bytes (classifyUtf8Prefix bytes) := by
  cases bytes with
  | nil => exact absurd rfl hne
  | cons lead rest =>
      unfold classifyUtf8Prefix
      dsimp only
      by_cases hl : lead < 0x80
      · rw [if_pos hl]
        exact .complete [lead] rest rfl (isSequence_one (UInt8.lt_iff_toNat_lt.mp hl)) (by simp)
      rw [if_neg hl]
      cases hlead : utf8Lead lead with
      | none => exact .invalid 1 Nat.one_pos (by simp)
      | some info =>
          obtain ⟨length, lo, hi⟩ := info
          have hleads := utf8Lead_leads hlead
          have hspec := utf8Continue_spec lo hi (lead :: rest).length rest
            (show 1 ≤ length by have := hleads.range; omega)
          dsimp only
          revert hspec
          generalize utf8Continue length lo hi (lead :: rest).length 1 rest = r
          intro hspec
          cases hspec with
          | complete front back hrest hlen hfront =>
              have hsize : length = (lead :: front).length := by
                rw [List.length_cons]
                omega
              rw [hsize]
              exact .complete (lead :: front) back (by rw [hrest]; rfl)
                (hleads.sequence front hlen hfront) (by simp)
          | incomplete hlen hrest =>
              obtain ⟨more, hmore, hcont⟩ := hrest.extend hleads.lo_le (length - (1 + rest.length))
              refine .incomplete ⟨more, ?_, hleads.sequence (rest ++ more) ?_ hcont⟩
              · intro hnil
                rw [hnil, List.length_nil] at hmore
                omega
              · rw [List.length_append]
                omega
          | invalid n hle hlt =>
              refine .invalid n (by omega) ?_
              rw [List.length_cons]
              omega

/-! ### Decoding everything at once

The loop is unrolled into a recursion on the bytes that are left, which is what a stream is
compared with. -/

/-- `append_utf8_lossy` on an empty string. -/
def lossy (bytes : Text) : Text := appendUtf8Lossy [] bytes

/-- The text one turn of the loop appends. -/
def lossyPiece (bytes : Text) : Text :=
  if (classifyUtf8Prefix bytes).kind = .complete then bytes.take (classifyUtf8Prefix bytes).length
  else replacementCharacter

private theorem lossyLoop_succ {fuel : Nat} {out : Text} (hne : bytes ≠ []) :
    lossyLoop (fuel + 1) bytes out
      = lossyLoop fuel (bytes.drop (classifyUtf8Prefix bytes).length)
        (out ++ lossyPiece bytes) := by
  unfold lossyPiece
  rw [lossyLoop, if_neg (by rwa [List.isEmpty_iff])]

theorem length_pos_of_classified {r : Utf8Classification} (h : Classified bytes r)
    (hne : bytes ≠ []) : 0 < r.length ∧ r.length ≤ bytes.length := by
  cases h with
  | complete front back hbytes _ hfront =>
      refine ⟨List.length_pos_iff.mpr hfront, ?_⟩
      rw [hbytes, List.length_append]
      exact Nat.le_add_right _ _
  | incomplete => exact ⟨List.length_pos_iff.mpr hne, le_refl _⟩
  | invalid n hpos hle => exact ⟨hpos, hle⟩

private theorem drop_length_lt (hne : bytes ≠ []) :
    (bytes.drop (classifyUtf8Prefix bytes).length).length < bytes.length := by
  have := length_pos_of_classified (classifyUtf8Prefix_spec hne) hne
  rw [List.length_drop]
  omega

private theorem lossyLoop_eq : ∀ {fuel : Nat} {bytes out : Text}, bytes.length ≤ fuel →
    lossyLoop fuel bytes out = out ++ lossy bytes := by
  intro fuel
  induction fuel using Nat.strong_induction_on with
  | _ fuel ih =>
      intro bytes out hle
      by_cases hne : bytes = []
      · subst hne
        cases fuel <;> simp [lossyLoop, lossy, appendUtf8Lossy]
      · have hlt := drop_length_lt hne
        have hpos := List.length_pos_iff.mpr hne
        obtain ⟨n, hn⟩ : ∃ n, bytes.length = n + 1 := ⟨bytes.length - 1, by omega⟩
        obtain ⟨m, rfl⟩ : ∃ m, fuel = m + 1 := ⟨fuel - 1, by omega⟩
        have hright : lossy bytes
            = lossyLoop n (bytes.drop (classifyUtf8Prefix bytes).length) (lossyPiece bytes) := by
          unfold lossy appendUtf8Lossy
          rw [hn, lossyLoop_succ hne, List.nil_append]
        rw [lossyLoop_succ hne, hright, ih m (by omega) (by omega), ih n (by omega) (by omega),
          List.append_assoc]

@[simp] theorem lossy_nil : lossy [] = [] := rfl

/-- What is there already stays in front. -/
theorem appendUtf8Lossy_eq (out bytes : Text) :
    appendUtf8Lossy out bytes = out ++ lossy bytes := lossyLoop_eq (le_refl _)

/-- **The loop, as a recursion.** -/
theorem lossy_eq (hne : bytes ≠ []) :
    lossy bytes = lossyPiece bytes ++ lossy (bytes.drop (classifyUtf8Prefix bytes).length) := by
  have hlt := drop_length_lt hne
  obtain ⟨n, hn⟩ : ∃ n, bytes.length = n + 1 :=
    ⟨bytes.length - 1, by have := List.length_pos_iff.mpr hne; omega⟩
  conv_lhs => unfold lossy appendUtf8Lossy
  rw [hn, lossyLoop_succ hne, List.nil_append, lossyLoop_eq (by omega)]

/-! ### Draining

What is proved complete or invalid does not depend on what follows, so it may be taken off the
front.  What stays is a carry: at most three bytes that begin a sequence. -/

/-- What may stay pending: nothing, or the beginning of a sequence. -/
def Carry (pending : Text) : Prop :=
  pending = [] ∨ (classifyUtf8Prefix pending).kind = .incomplete

theorem Carry.isPartial {pending : Text} (h : Carry pending) : IsPartial pending := by
  rcases h with rfl | h
  · exact ⟨[0], by simp, isSequence_one (by decide)⟩
  · by_cases hne : pending = []
    · subst hne
      exact ⟨[0], by simp, isSequence_one (by decide)⟩
    · have hspec := classifyUtf8Prefix_spec hne
      revert h hspec
      generalize classifyUtf8Prefix pending = r
      intro h hspec
      cases hspec with
      | complete => exact absurd h (by simp)
      | incomplete hpartial => exact hpartial
      | invalid => exact absurd h (by simp)

/-- A carry that nothing follows is one replacement character. -/
theorem Carry.lossy_eq {pending : Text} (h : Carry pending) (hne : pending ≠ []) :
    lossy pending = replacementCharacter := by
  have hkind := h.resolve_left hne
  have hspec := classifyUtf8Prefix_spec hne
  have hpiece : lossyPiece pending = replacementCharacter := by
    unfold lossyPiece
    rw [if_neg (by rw [hkind]; decide)]
  have hdrop : pending.drop (classifyUtf8Prefix pending).length = [] := by
    revert hkind hspec
    generalize classifyUtf8Prefix pending = r
    intro hkind hspec
    cases hspec with
    | complete => exact absurd hkind (by simp)
    | incomplete => exact List.drop_length
    | invalid => exact absurd hkind (by simp)
  rw [InferenceEngine.lossy_eq hne, hpiece, hdrop, lossy_nil, List.append_nil]

theorem wellFormed_replacement : WellFormed replacementCharacter :=
  ⟨[Char.ofNat 0xFFFD], by decide⟩

/-- What has been taken from the front of `pending`, and what is left of it. -/
structure Drained (pending emitted rest : Text) : Prop where
  carry : Carry rest
  wellFormed : WellFormed emitted
  decodes : ∀ more, lossy (pending ++ more) = emitted ++ lossy (rest ++ more)

/-- One turn: what the classification proves complete or invalid can be decoded at once. -/
private theorem lossy_step {pending : Text} (hne : pending ≠ [])
    (h : (classifyUtf8Prefix pending).kind ≠ .incomplete) (more : Text) :
    WellFormed (lossyPiece pending) ∧ lossy (pending ++ more)
      = lossyPiece pending ++ lossy (pending.drop (classifyUtf8Prefix pending).length ++ more) := by
  have hspec := classifyUtf8Prefix_spec hne
  have hle := (length_pos_of_classified hspec hne).2
  have hsame := classifyUtf8Prefix_append hne h more
  have hpiece : lossyPiece (pending ++ more) = lossyPiece pending := by
    unfold lossyPiece
    rw [hsame, List.take_append_of_le_length hle]
  refine ⟨?_, ?_⟩
  · unfold lossyPiece
    revert hspec
    generalize classifyUtf8Prefix pending = r
    intro hspec
    cases hspec with
    | complete front back hbytes hseq _ =>
        rw [if_pos rfl, hbytes]
        simpa using hseq.wellFormed
    | incomplete => exact wellFormed_replacement
    | invalid => exact wellFormed_replacement
  · rw [lossy_eq (by simp [hne]), hpiece, hsame, List.drop_append_of_le_length hle]

namespace DetokenizerStream

/-- **The draining loop** takes a well-formed text off the front and leaves a carry. -/
theorem drain_spec : ∀ {fuel : Nat} {pending : Text} (out : Text), pending.length ≤ fuel →
    ∃ emitted, (drain fuel pending out).1 = out ++ emitted ∧
      Drained pending emitted (drain fuel pending out).2 := by
  intro fuel
  induction fuel with
  | zero =>
      intro pending out hle
      rw [List.length_eq_zero_iff.mp (Nat.le_zero.mp hle)]
      exact ⟨[], by simp [drain], Or.inl rfl, WellFormed.nil, fun _ => rfl⟩
  | succ fuel ih =>
      intro pending out hle
      by_cases hne : pending = []
      · subst hne
        exact ⟨[], by simp [drain], Or.inl rfl, WellFormed.nil, fun _ => rfl⟩
      by_cases hinc : (classifyUtf8Prefix pending).kind = .incomplete
      · have hdrain : drain (fuel + 1) pending out = (out, pending) := by
          unfold drain
          rw [if_neg (by rwa [List.isEmpty_iff])]
          simp only [hinc]
        rw [hdrain]
        exact ⟨[], by simp, Or.inr hinc, WellFormed.nil, fun _ => rfl⟩
      · have hdrain : drain (fuel + 1) pending out
            = drain fuel (pending.drop (classifyUtf8Prefix pending).length)
                (out ++ lossyPiece pending) := by
          rw [drain, if_neg (by rwa [List.isEmpty_iff])]
          unfold lossyPiece
          dsimp only
          cases hkind : (classifyUtf8Prefix pending).kind with
          | complete => rfl
          | incomplete => exact absurd hkind hinc
          | invalid => rfl
        have hlt := drop_length_lt hne
        obtain ⟨emitted, hout, hdrained⟩ := ih (out ++ lossyPiece pending)
          (show (pending.drop (classifyUtf8Prefix pending).length).length ≤ fuel by omega)
        rw [hdrain]
        refine ⟨lossyPiece pending ++ emitted, by rw [hout, List.append_assoc], hdrained.carry,
          (lossy_step hne hinc []).1.append hdrained.wellFormed, fun more => ?_⟩
        rw [(lossy_step hne hinc more).2, hdrained.decodes more, List.append_assoc]

end DetokenizerStream

/-! ### Streams

A push adds the bytes of an id and drains.  What has been said and what is pending are always a
cut of all bytes so far. -/

/-- What an id adds to the bytes of a text; an id out of range adds nothing. -/
def Tokenizer.contribution (t : Tokenizer) (skipSpecialTokens : Bool) (id : Int) : Text :=
  match t.tokenBytes id with
  | none => []
  | some token => if skipSpecialTokens && t.isSpecial id then [] else token

/-- The text a push returned; a push that failed returned none. -/
def textOf : StatusOr Text → Text
  | .ok text => text
  | .error _ => []

namespace DetokenizerStream

variable {d : DetokenizerStream} {id : Int}

/-- One push: the stream keeps its tokenizer, and drains. -/
structure Pushed (d : DetokenizerStream) (id : Int) (out : StatusOr Text)
    (d' : DetokenizerStream) : Prop where
  tokenizer : d'.tokenizer = d.tokenizer
  skip : d'.skipSpecialTokens = d.skipSpecialTokens
  ok : (∃ text, out = .ok text) ↔ (d.tokenizer.tokenBytes id).isSome
  drained : Carry d.pending → Drained (d.pending
    ++ d.tokenizer.contribution d.skipSpecialTokens id) (textOf out) d'.pending

theorem push_spec (d : DetokenizerStream) (id : Int) : Pushed d id (d.push id).1 (d.push id).2 := by
  unfold push
  cases htoken : d.tokenizer.tokenBytes id with
  | none =>
      refine ⟨rfl, rfl, by simp [htoken], fun hc => ?_⟩
      unfold Tokenizer.contribution
      simp only [htoken, List.append_nil]
      exact ⟨hc, WellFormed.nil, fun _ => rfl⟩
  | some token =>
      dsimp only
      by_cases hskip : (d.skipSpecialTokens && d.tokenizer.isSpecial id) = true
      · rw [if_pos hskip]
        refine ⟨rfl, rfl, by simp [htoken], fun hc => ?_⟩
        unfold Tokenizer.contribution
        simp only [htoken, if_pos hskip, List.append_nil]
        exact ⟨hc, WellFormed.nil, fun _ => rfl⟩
      · rw [if_neg hskip]
        refine ⟨rfl, rfl, by simp [htoken], fun _ => ?_⟩
        unfold Tokenizer.contribution
        simp only [htoken, if_neg hskip]
        obtain ⟨emitted, hout, hdrained⟩ := drain_spec []
          (le_refl (d.pending ++ token).length)
        rw [List.nil_append] at hout
        show Drained _ (drain _ _ _).1 _
        rw [hout]
        exact hdrained

/-- A push of an id out of range leaves the stream as it was. -/
theorem push_out_of_range (h : d.tokenizer.tokenBytes id = none) : (d.push id).2 = d := by
  unfold push
  rw [h]

/-- What is left is what the end of the bytes decodes to. -/
theorem finish_spec (h : Carry d.pending) :
    d.finish.1 = lossy d.pending ∧ WellFormed d.finish.1 ∧
      d.finish.2 = new d.tokenizer d.skipSpecialTokens := by
  unfold finish
  by_cases hne : d.pending = []
  · rw [if_pos (by rw [hne]; rfl), hne]
    refine ⟨rfl, WellFormed.nil, ?_⟩
    unfold new
    rw [← hne]
  · rw [if_neg (by rwa [List.isEmpty_iff])]
    exact ⟨(h.lossy_eq hne).symm, wellFormed_replacement, rfl⟩

/-- Some pushes, one after the other. -/
structure PushedAll (d : DetokenizerStream) (ids : List Int) (outs : List (StatusOr Text))
    (d' : DetokenizerStream) : Prop where
  tokenizer : d'.tokenizer = d.tokenizer
  skip : d'.skipSpecialTokens = d.skipSpecialTokens
  carry : Carry d'.pending
  emissions : ∀ out ∈ outs, WellFormed (textOf out)
  decodes : ∀ more, lossy (d.pending ++ ids.flatMap (d.tokenizer.contribution d.skipSpecialTokens)
    ++ more) = outs.flatMap textOf ++ lossy (d'.pending ++ more)

theorem pushAll_spec (ids : List Int) : ∀ {d : DetokenizerStream}, Carry d.pending →
    PushedAll d ids (d.pushAll ids).1 (d.pushAll ids).2 := by
  induction ids with
  | nil =>
      intro d hc
      exact ⟨rfl, rfl, hc, by simp [pushAll], fun more => by simp [pushAll]⟩
  | cons id ids ih =>
      intro d hc
      have hpush := push_spec d id
      have hdrained := hpush.drained hc
      have hrest := ih hdrained.carry
      refine ⟨hrest.tokenizer.trans hpush.tokenizer, hrest.skip.trans hpush.skip,
        hrest.carry, ?_, ?_⟩
      · intro out hout
        rcases List.mem_cons.mp hout with rfl | hout
        · exact hdrained.wellFormed
        · exact hrest.emissions out hout
      · intro more
        have hmore := hrest.decodes more
        rw [hpush.tokenizer, hpush.skip, List.append_assoc] at hmore
        rw [List.flatMap_cons, ← List.append_assoc d.pending, List.append_assoc _ _ more,
          hdrained.decodes, hmore]
        show _ = (_ :: _).flatMap textOf ++ _
        rw [List.flatMap_cons, List.append_assoc]
        rfl

theorem pushAll_append (a b : List Int) : ∀ {d : DetokenizerStream},
    d.pushAll (a ++ b) = ((d.pushAll a).1 ++ ((d.pushAll a).2.pushAll b).1,
      ((d.pushAll a).2.pushAll b).2) := by
  induction a with
  | nil => intro d; rfl
  | cons id a ih =>
      intro d
      show ((d.push id).1 :: ((d.push id).2.pushAll (a ++ b)).1,
        ((d.push id).2.pushAll (a ++ b)).2) = _
      rw [ih]
      rfl

end DetokenizerStream

/-- The bytes that `decode` decodes. -/
theorem Tokenizer.decode_eq {t : Tokenizer} {skip : Bool} {ids : List Int}
    (h : ∀ id ∈ ids, (t.tokenBytes id).isSome) :
    t.decode ids skip = .ok (lossy (ids.flatMap (t.contribution skip))) := by
  have hbytes : ∀ {ids : List Int} {i : Nat} {bytes : Text},
      (∀ id ∈ ids, (t.tokenBytes id).isSome) →
        t.decodeBytes skip i ids bytes = .ok (bytes ++ ids.flatMap (t.contribution skip)) := by
    intro ids
    induction ids with
    | nil => intro i bytes _; simp [Tokenizer.decodeBytes]
    | cons id ids ih =>
        intro i bytes hin
        obtain ⟨token, htoken⟩ := Option.isSome_iff_exists.mp (hin id (by simp))
        have hrest : ∀ id' ∈ ids, (t.tokenBytes id').isSome :=
          fun id' hid' => hin id' (List.mem_cons_of_mem _ hid')
        have hcontribution : t.contribution skip id
            = if skip && t.isSpecial id then [] else token := by
          unfold Tokenizer.contribution
          rw [htoken]
        rw [Tokenizer.decodeBytes, htoken, List.flatMap_cons, hcontribution]
        dsimp only
        by_cases hskip : (skip && t.isSpecial id) = true
        · rw [if_pos hskip, if_pos hskip, ih hrest, List.nil_append]
        · rw [if_neg hskip, if_neg hskip, ih hrest, List.append_assoc]
  unfold Tokenizer.decode
  rw [hbytes h, List.nil_append]
  rfl

/-- The ids that a stream accepts of some. -/
def Tokenizer.accepted (t : Tokenizer) (ids : List Int) : List Int :=
  ids.filter fun id => (t.tokenBytes id).isSome

theorem Tokenizer.accepted_flatMap (t : Tokenizer) (skip : Bool) (ids : List Int) :
    (t.accepted ids).flatMap (t.contribution skip) = ids.flatMap (t.contribution skip) := by
  induction ids with
  | nil => rfl
  | cons id ids ih =>
      unfold Tokenizer.accepted at ih ⊢
      cases htoken : t.tokenBytes id with
      | none => simp [htoken, ih, Tokenizer.contribution]
      | some token => simp [htoken, ih]

theorem Tokenizer.decode_accepted (t : Tokenizer) (skip : Bool) (ids : List Int) :
    t.decode (t.accepted ids) skip = .ok (lossy (ids.flatMap (t.contribution skip))) := by
  have haccepted : ∀ id ∈ t.accepted ids, (t.tokenBytes id).isSome := fun id hid =>
    (List.mem_filter.mp hid).2
  rw [Tokenizer.decode_eq haccepted, t.accepted_flatMap skip ids]

/-! ### A stream says what `decode` says

With the last carry decoded at the end, the parts that were said concatenate to the whole. -/

/-- Everything a stream says, with what `finish` adds. -/
theorem DetokenizerStream.pushAll_decode (t : Tokenizer) (skip : Bool) (ids : List Int) :
    t.decode (t.accepted ids) skip = .ok (((new t skip).pushAll ids).1.flatMap textOf
      ++ ((new t skip).pushAll ids).2.finish.1) := by
  have hall := pushAll_spec ids (d := new t skip) (Or.inl rfl)
  have hdecode := hall.decodes []
  rw [List.append_nil, List.append_nil] at hdecode
  rw [t.decode_accepted skip ids, (finish_spec hall.carry).1, ← hdecode]
  rfl

/-- What a stream that was given some ids has said so far, and what it will say. -/
structure DetokenizerStream.Faithful (t : Tokenizer) (skip : Bool) (ids : List Int)
    (outs : List (StatusOr Text)) (d : DetokenizerStream) : Prop where
  decode : t.decode (t.accepted ids) skip = .ok (outs.flatMap textOf ++ d.finish.1)
  emissions : ∀ out ∈ outs, WellFormed (textOf out)
  last : WellFormed d.finish.1
  carry : d.pending.length ≤ 3 ∧ IsPartial d.pending
  rejects : ∀ id, t.tokenBytes id = none → (∃ status, (d.push id).1 = .error status) ∧
    (d.push id).2 = d
  accepts : ∀ id, t.tokenBytes id ≠ none → ∃ text, (d.push id).1 = .ok text
  resets : d.finish.2 = .new t skip

/-- **Incremental detokenization is batch decoding**, whatever the tokenizer and the ids. -/
theorem DetokenizerStream.pushAll_faithful (t : Tokenizer) (skip : Bool) (ids : List Int) :
    Faithful t skip ids ((new t skip).pushAll ids).1 ((new t skip).pushAll ids).2 := by
  have hall := pushAll_spec ids (d := new t skip) (Or.inl rfl)
  obtain ⟨-, hwf, hreset⟩ := finish_spec hall.carry
  have ht : ((new t skip).pushAll ids).2.tokenizer = t := hall.tokenizer
  refine ⟨pushAll_decode t skip ids, hall.emissions, hwf,
    ⟨hall.carry.isPartial.length_le, hall.carry.isPartial⟩, ?_, ?_, ?_⟩
  · intro id hid
    rw [← ht] at hid
    refine ⟨?_, push_out_of_range hid⟩
    unfold push
    rw [hid]
    exact ⟨_, rfl⟩
  · intro id hid
    refine (push_spec _ id).ok.mpr ?_
    rw [ht]
    exact Option.isSome_iff_ne_none.mpr hid
  · rw [hreset, ht, hall.skip]
    rfl

end InferenceEngine
