/-
The spans of the pre-tokenizer.

Decoding cuts the text into pieces, one a codepoint, and the offsets are the places of the
cuts; a span is the bytes of some pieces in a row.  Which pieces is up to `MatchAt`, so on a
text of codepoints the spans are the matches of the expression.
-/
import InferenceEngine.Proofs.SplitPattern

namespace InferenceEngine

open Regex Except

variable {u : UnicodeTables}

/-! ### Pieces

Every turn of the decoding loop takes a sequence or one invalid byte.  The pieces of a text
concatenate to it, and the offsets are the sums of their lengths. -/

/-- What the decoding loop reads at each turn: a codepoint, or the sentinel, and its bytes. -/
def decodePieces : (fuel : Nat) → (bytes : Text) → List (Nat × Text)
  | 0, _ => []
  | fuel + 1, bytes =>
      if bytes.isEmpty then []
      else
        match decodeUtf8 bytes with
        | some (codepoint, length) =>
            (codepoint, bytes.take length) :: decodePieces fuel (bytes.drop length)
        | none => (kInvalidByte, bytes.take 1) :: decodePieces fuel (bytes.drop 1)

/-- Where each piece begins. -/
def offsetsFrom : (pos : Nat) → List Text → List Nat
  | _, [] => []
  | pos, t :: ts => pos :: offsetsFrom (pos + t.length) ts

theorem decodeOffsets_eq : ∀ (fuel : Nat) (bytes : Text) (pos : Nat),
    (decodeOffsets fuel bytes pos).map Prod.fst = (decodePieces fuel bytes).map Prod.fst ∧
      (decodeOffsets fuel bytes pos).map Prod.snd
        = offsetsFrom pos ((decodePieces fuel bytes).map Prod.snd) := by
  intro fuel
  induction fuel with
  | zero => intro bytes pos; exact ⟨rfl, rfl⟩
  | succ fuel ih =>
      intro bytes pos
      rw [decodeOffsets, decodePieces]
      by_cases he : bytes.isEmpty = true
      · rw [if_pos he, if_pos he]
        exact ⟨rfl, rfl⟩
      · rw [if_neg he, if_neg he]
        cases hd : decodeUtf8 bytes with
        | none =>
            obtain ⟨h1, h2⟩ := ih (bytes.drop 1) (pos + 1)
            have hlen : (bytes.take 1).length = 1 := by
              rw [List.length_take]
              have := List.length_pos_of_ne_nil (fun h => he (by simp [h]) : bytes ≠ [])
              omega
            simp only [List.map_cons, h1, h2, offsetsFrom, hlen, and_self]
        | some r =>
            obtain ⟨codepoint, length⟩ := r
            obtain ⟨h1, h2⟩ := ih (bytes.drop length) (pos + length)
            have hlen : (bytes.take length).length = length := by
              rw [List.length_take]
              have := (decodeUtf8_length hd).2
              omega
            simp only [List.map_cons, h1, h2, offsetsFrom, hlen, and_self]

theorem decodePieces_spec : ∀ (fuel : Nat) (bytes : Text), bytes.length ≤ fuel →
    ((decodePieces fuel bytes).map Prod.snd).flatten = bytes ∧
      ∀ piece ∈ decodePieces fuel bytes, piece.2 ≠ [] := by
  intro fuel
  induction fuel with
  | zero =>
      intro bytes h
      rw [List.length_eq_zero_iff.mp (Nat.le_zero.mp h)]
      exact ⟨rfl, by simp [decodePieces]⟩
  | succ fuel ih =>
      intro bytes h
      rw [decodePieces]
      by_cases he : bytes.isEmpty = true
      · rw [if_pos he, List.isEmpty_iff.mp he]
        exact ⟨rfl, by simp⟩
      · have hpos : 0 < bytes.length :=
          List.length_pos_of_ne_nil (fun h => he (by simp [h]) : bytes ≠ [])
        have hstep : ∀ (codepoint n : Nat), 0 < n →
            (((codepoint, bytes.take n) :: decodePieces fuel (bytes.drop n)).map Prod.snd).flatten
                = bytes ∧
              ∀ piece ∈ (codepoint, bytes.take n) :: decodePieces fuel (bytes.drop n),
                piece.2 ≠ [] := by
          intro codepoint n hn
          obtain ⟨h1, h2⟩ := ih (bytes.drop n) (by rw [List.length_drop]; omega)
          constructor
          · rw [List.map_cons, List.flatten_cons, h1, List.take_append_drop]
          · intro piece hp
            rcases List.mem_cons.mp hp with rfl | hp
            · refine List.ne_nil_of_length_pos ?_
              rw [List.length_take]
              omega
            · exact h2 piece hp
        rw [if_neg he]
        cases hd : decodeUtf8 bytes with
        | none => exact hstep kInvalidByte 1 Nat.one_pos
        | some r => exact hstep r.1 r.2 (decodeUtf8_length hd).1

/-- A text of codepoints is cut into them. -/
theorem decodePieces_utf8Bytes : ∀ (fuel : Nat) (cps : List Nat), (∀ c ∈ cps, c < 0x110000) →
    (cps.flatMap utf8Bytes).length ≤ fuel →
    decodePieces fuel (cps.flatMap utf8Bytes) = cps.map fun c => (c, utf8Bytes c) := by
  intro fuel
  induction fuel with
  | zero =>
      intro cps _ h
      cases cps with
      | nil => rfl
      | cons c cps =>
          have hpos := List.length_pos_of_ne_nil (utf8Bytes_ne_nil c)
          rw [List.flatMap_cons, List.length_append] at h
          omega
  | succ fuel ih =>
      intro cps hcps h
      rw [decodePieces]
      cases cps with
      | nil => rfl
      | cons c cps =>
          have hpos := List.length_pos_of_ne_nil (utf8Bytes_ne_nil c)
          rw [List.flatMap_cons] at h ⊢
          rw [List.length_append] at h
          have hne : ¬ (utf8Bytes c ++ cps.flatMap utf8Bytes).isEmpty = true := by
            simp [utf8Bytes_ne_nil c]
          rw [if_neg hne, decodeUtf8_utf8Bytes (hcps c (by simp))]
          show (c, _) :: decodePieces fuel _ = _
          rw [List.take_left, List.drop_left, List.map_cons,
            ih cps (fun d hd => hcps d (by simp [hd])) (by omega)]

/-! ### Spans

The loop takes as many pieces as `MatchAt` says, which is at least one and never more than are
left.  So every piece is in one span. -/

/-- Pieces cut into spans, each as long as `MatchAt` says. -/
inductive Cut (u : UnicodeTables) (k : Nat) : List (Nat × Text) → List Text → Prop
  | nil : Cut u k [] []
  | cons {pieces : List (Nat × Text)} {spans : List Text} (hne : pieces ≠ [])
      (tail : Cut u k (pieces.drop (u.matchAt (pieces.map Prod.fst) k)) spans) :
      Cut u k pieces
        (((pieces.take (u.matchAt (pieces.map Prod.fst) k)).map Prod.snd).flatten :: spans)

theorem getElem?_offsetsFrom (ts : List Text) : ∀ (pos i : Nat), i ≤ ts.length →
    (offsetsFrom pos ts ++ [pos + ts.flatten.length])[i]?
      = some (pos + (ts.take i).flatten.length) := by
  induction ts with
  | nil =>
      intro pos i hi
      rw [Nat.le_zero.mp hi]
      rfl
  | cons t ts ih =>
      intro pos i hi
      cases i with
      | zero => rfl
      | succ i =>
          have hi : i ≤ ts.length := by simpa using hi
          rw [offsetsFrom, List.cons_append, List.getElem?_cons_succ, List.flatten_cons,
            List.length_append, ← Nat.add_assoc, ih (pos + t.length) i hi, List.take_succ_cons,
            List.flatten_cons, List.length_append, Nat.add_assoc]

theorem readAt_offsets {ts : List Text} {i : Nat} (hi : i ≤ ts.length) :
    readAt (offsetsFrom 0 ts ++ [ts.flatten.length]) i = .ok (ts.take i).flatten.length := by
  have h := getElem?_offsetsFrom ts 0 i hi
  rw [Nat.zero_add, Nat.zero_add] at h
  unfold readAt
  rw [if_pos (Int.natCast_nonneg i), Int.toNat_natCast, h]

/-- The bytes between two offsets. -/
theorem slice_flatten (ts : List Text) (i n : Nat) :
    (ts.flatten.drop (ts.take i).flatten.length).take
        ((ts.take (i + n)).flatten.length - (ts.take i).flatten.length)
      = ((ts.drop i).take n).flatten := by
  have hsplit : ts.flatten
      = (ts.take i).flatten ++ (((ts.drop i).take n).flatten ++ (ts.drop (i + n)).flatten) := by
    rw [← List.flatten_append, ← List.flatten_append, ← List.drop_drop, List.take_append_drop,
      List.take_append_drop]
  have hlen : (ts.take (i + n)).flatten.length
      = (ts.take i).flatten.length + ((ts.drop i).take n).flatten.length := by
    rw [← List.length_append, ← List.flatten_append, List.take_add]
  rw [hlen, Nat.add_sub_cancel_left, hsplit, List.drop_left, List.take_left]

/-- The loop reads no offset outside the list and cuts the pieces into spans. -/
theorem splitLoop_cut (pieces : List (Nat × Text)) (k : Nat) : ∀ (fuel i : Nat),
    i ≤ pieces.length → pieces.length ≤ i + fuel →
    ∃ spans, u.splitLoop (pieces.map Prod.snd).flatten (pieces.map Prod.fst)
        (offsetsFrom 0 (pieces.map Prod.snd) ++ [(pieces.map Prod.snd).flatten.length]) k fuel i
        = .ok spans ∧ Cut u k (pieces.drop i) spans := by
  intro fuel
  induction fuel with
  | zero =>
      intro i hi hfuel
      rw [List.drop_eq_nil_of_le (by omega)]
      exact ⟨[], rfl, .nil⟩
  | succ fuel ih =>
      intro i hi hfuel
      rw [UnicodeTables.splitLoop, List.length_map]
      by_cases hlt : i < pieces.length
      · have hne : pieces.drop i ≠ [] := by
          rw [Ne, List.drop_eq_nil_iff]
          omega
        obtain ⟨piece, rest, hdrop⟩ := List.exists_cons_of_ne_nil hne
        have hbounds := matchAt_bounds (u := u) piece.1 (rest.map Prod.fst) k
        rw [← List.map_cons (f := Prod.fst), ← hdrop, List.length_map, List.length_drop] at hbounds
        obtain ⟨hpos, hle⟩ := hbounds
        rw [if_pos hlt, List.map_drop] at *
        generalize hlen : u.matchAt ((pieces.map Prod.fst).drop i) k = len at *
        obtain ⟨spans, hspans, hcut⟩ := ih (i + len) (by omega) (by omega)
        refine ⟨(((pieces.drop i).take len).map Prod.snd).flatten :: spans, ?_, ?_⟩
        · dsimp only
          rw [readAt_offsets (by rw [List.length_map]; omega), ok_bind,
            readAt_offsets (by rw [List.length_map]; omega), ok_bind, hspans, ok_bind,
            slice_flatten, List.map_take, List.map_drop]
          rfl
        · have hcons : ∀ tail, Cut u k _ tail → Cut u k (pieces.drop i) _ :=
            fun _ => Cut.cons hne
          rw [List.map_drop, hlen, List.drop_drop] at hcons
          exact hcons spans hcut
      · rw [if_neg hlt, List.drop_eq_nil_of_le (by omega)]
        exact ⟨[], rfl, .nil⟩

/-- **The spans of any text, decodable or not.** -/
theorem pretokenize_cut (text : Text) (spec : SplitSpec) :
    ∃ spans, u.pretokenize text spec = .ok spans ∧
      Cut u spec.maxDigitRun (decodePieces text.length text) spans := by
  obtain ⟨hcps, hoffsets⟩ := decodeOffsets_eq text.length text 0
  obtain ⟨hflat, _⟩ := decodePieces_spec text.length text (le_refl _)
  obtain ⟨spans, hspans, hcut⟩ := splitLoop_cut (u := u) (decodePieces text.length text)
    spec.maxDigitRun (decodePieces text.length text).length 0 (Nat.zero_le _) (by omega)
  refine ⟨spans, ?_, hcut⟩
  rw [hflat] at hspans
  unfold UnicodeTables.pretokenize
  dsimp only
  rw [hcps, hoffsets, List.length_map]
  exact hspans

theorem Cut.flatten {k : Nat} {pieces : List (Nat × Text)} {spans : List Text}
    (h : Cut u k pieces spans) : spans.flatten = (pieces.map Prod.snd).flatten := by
  induction h with
  | nil => rfl
  | cons _ _ ih =>
      rw [List.flatten_cons, ih, ← List.flatten_append, ← List.map_append, List.take_append_drop]

theorem Cut.ne_nil {k : Nat} {pieces : List (Nat × Text)} {spans : List Text}
    (h : Cut u k pieces spans) (hpieces : ∀ piece ∈ pieces, piece.2 ≠ []) :
    ∀ span ∈ spans, span ≠ [] := by
  induction h with
  | nil => simp
  | @cons pieces spans hne _ ih =>
      intro span hmem
      rcases List.mem_cons.mp hmem with rfl | hmem
      · obtain ⟨piece, rest, rfl⟩ := List.exists_cons_of_ne_nil hne
        obtain ⟨hpos, _⟩ := matchAt_bounds (u := u) piece.1 (rest.map Prod.fst) k
        obtain ⟨n, hn⟩ := Nat.exists_eq_succ_of_ne_zero (Nat.pos_iff_ne_zero.mp hpos)
        rw [List.map_cons, hn, List.take_succ_cons, List.map_cons, List.flatten_cons]
        exact List.append_ne_nil_of_left_ne_nil (hpieces piece (by simp)) _
      · exact ih (fun piece hp => hpieces piece (List.mem_of_mem_drop hp)) span hmem

/-- The spans of any text concatenate to it. -/
theorem pretokenize_flatten (text : Text) (spec : SplitSpec) :
    ∃ spans, u.pretokenize text spec = .ok spans ∧ spans.flatten = text := by
  obtain ⟨spans, hspans, hcut⟩ := pretokenize_cut (u := u) text spec
  exact ⟨spans, hspans, hcut.flatten.trans (decodePieces_spec text.length text (le_refl _)).1⟩

/-! ### The expression

On codepoints `MatchAt` is the expression, and the spans are its matches one after the other. -/

/-- On a text of codepoints the spans are the matches. -/
theorem Cut.splits (hu : u.Disjoint) {spec : SplitSpec}
    (hspec : spec.maxDigitRun = 3 ∨ spec.maxDigitRun = 1) {pieces : List (Nat × Text)}
    {texts : List Text} (h : Cut u spec.maxDigitRun pieces texts) : ∀ cps : List Nat,
      (∀ c ∈ cps, c < 0x110000) → pieces = cps.map (fun c => (c, utf8Bytes c)) →
      ∃ spans, Splits u.reading (SplitRegex.ofSpec spec) cps spans ∧
        texts = spans.map fun span => span.flatMap utf8Bytes := by
  induction h with
  | nil =>
      intro cps _ hp
      rw [List.map_eq_nil_iff.mp hp.symm]
      exact ⟨[], .nil, rfl⟩
  | @cons pieces texts hne _ ih =>
      intro cps hcps hp
      subst hp
      have hfst : (cps.map fun c => (c, utf8Bytes c)).map Prod.fst = cps := by
        rw [List.map_map]
        exact List.map_id cps
      rw [hfst] at ih ⊢
      cases cps with
      | nil => exact absurd rfl hne
      | cons c cps =>
          obtain ⟨hpos, hle⟩ := matchAt_bounds (u := u) c cps spec.maxDigitRun
          have hfirst := first_ofSpec hu hspec hcps
          generalize u.matchAt (c :: cps) spec.maxDigitRun = len at *
          obtain ⟨spans, hsplits, htexts⟩ := ih ((c :: cps).drop len)
            (fun d hd => hcps d (List.mem_of_mem_drop hd)) List.map_drop.symm
          refine ⟨(c :: cps).take len :: spans, ?_, ?_⟩
          · have hne : (c :: cps).take len ≠ [] := by
              refine List.ne_nil_of_length_pos ?_
              rw [List.length_take]
              omega
            have hcat := List.take_append_drop len (c :: cps)
            have hcons : ∀ s, s = (c :: cps).take len ++ (c :: cps).drop len →
                Splits u.reading (SplitRegex.ofSpec spec) s ((c :: cps).take len :: spans) := by
              intro s hs
              rw [hs]
              refine .cons hne ?_ hsplits
              rw [hcat]
              exact hfirst
            exact hcons _ hcat.symm
          · rw [htexts]
            show (((((c :: cps).map fun c => (c, utf8Bytes c)).take len).map
              Prod.snd).flatten :: _) = _
            rw [← List.map_take, List.map_map]
            rfl

/-- **The pre-tokenizer is the regex: the spans are the successive matches of the pattern.** -/
theorem pretokenize_regex (u : UnicodeTables) (hu : u.Disjoint) (pattern : String)
    (spec : SplitSpec) (hselect : selectSplitPattern pattern = .ok spec) (cps : List Nat)
    (hcps : ∀ c ∈ cps, c < 0x110000) :
    renderRegex (SplitRegex.ofSpec spec) = pattern ∧
      ∃ spans texts, Splits u.reading (SplitRegex.ofSpec spec) cps spans ∧
        u.pretokenize (cps.flatMap utf8Bytes) spec = .ok texts ∧
        texts = spans.map (fun span => span.flatMap utf8Bytes) ∧
        (∀ text ∈ texts, text ≠ []) ∧ texts.flatten = cps.flatMap utf8Bytes := by
  have hspec : renderRegex (SplitRegex.ofSpec spec) = pattern ∧
      (spec.maxDigitRun = 3 ∨ spec.maxDigitRun = 1) := by
    unfold selectSplitPattern at hselect
    split at hselect
    · rename_i hp
      cases hselect
      exact ⟨SplitRegex.render_cl100k.trans hp.symm, .inl rfl⟩
    · split at hselect
      · rename_i hp
        cases hselect
        exact ⟨SplitRegex.render_qwen2.trans hp.symm, .inr rfl⟩
      · exact absurd hselect (by simp)
  obtain ⟨texts, htexts, hcut⟩ := pretokenize_cut (u := u) (cps.flatMap utf8Bytes) spec
  obtain ⟨hflat, hne⟩ := decodePieces_spec (cps.flatMap utf8Bytes).length (cps.flatMap utf8Bytes)
    (le_refl _)
  obtain ⟨spans, hsplits, heq⟩ := hcut.splits hu hspec.2 cps hcps
    (decodePieces_utf8Bytes _ cps hcps (le_refl _))
  exact ⟨hspec.1, spans, texts, hsplits, htexts, heq, hcut.ne_nil hne, hcut.flatten.trans hflat⟩

/-- Tables for ASCII. -/
def asciiTables : UnicodeTables where
  isLetter := fun c => (0x41 ≤ c && c ≤ 0x5A) || (0x61 ≤ c && c ≤ 0x7A)
  isNumber := fun c => 0x30 ≤ c && c ≤ 0x39
  isWhitespace := fun c => (0x09 ≤ c && c ≤ 0x0D) || c == 0x20

theorem asciiTables_disjoint : asciiTables.Disjoint := by
  refine ⟨?_, ?_, ?_, rfl, rfl⟩ <;>
  · intro c h
    simp only [asciiTables, Bool.or_eq_true, Bool.and_eq_true, decide_eq_true_eq,
      Bool.or_eq_false_iff,
      Bool.and_eq_false_iff, decide_eq_false_iff_not, beq_eq_false_iff_ne] at h ⊢
    omega

/-- `it's  1`: five spans, the first space of the two alone. -/
theorem pretokenize_regex_ascii :
    renderRegex SplitRegex.cl100k = kCl100kPattern ∧
      ∃ spans texts, Splits asciiTables.reading SplitRegex.cl100k
          [0x69, 0x74, 0x27, 0x73, 0x20, 0x20, 0x31] spans ∧
        asciiTables.pretokenize [0x69, 0x74, 0x27, 0x73, 0x20, 0x20, 0x31] ⟨3⟩ = .ok texts ∧
        texts = spans.map (fun span => span.flatMap utf8Bytes) ∧
        (∀ text ∈ texts, text ≠ []) ∧ texts.flatten = [0x69, 0x74, 0x27, 0x73, 0x20, 0x20, 0x31] :=
  pretokenize_regex asciiTables asciiTables_disjoint kCl100kPattern ⟨3⟩ rfl
    [0x69, 0x74, 0x27, 0x73, 0x20, 0x20, 0x31] (by decide)

example : asciiTables.pretokenize [0x69, 0x74, 0x27, 0x73, 0x20, 0x20, 0x31] ⟨3⟩
    = .ok [[0x69, 0x74], [0x27, 0x73], [0x20], [0x20], [0x31]] := by decide

end InferenceEngine
