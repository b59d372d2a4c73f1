/-
The pre-tokenizer is the expression.

Each matcher is held to one alternative: the length it returns is that of the first match of
its alternative, and it returns zero where there is none.  The last three alternatives all
read the same run of whitespace and are the work of one matcher.
-/
import InferenceEngine.Tokenizer.SplitPattern
import InferenceEngine.Proofs.Unicode
import Mathlib.Tactic.Tauto
import Mathlib.Tactic.SplitIfs

namespace InferenceEngine

open Regex

/-! ### Runs

A run is the longest piece at the front of a text whose characters pass a test.  A greedy
repetition of a class matches exactly that. -/

theorem run_cons_pos {p : Nat → Bool} {c : Nat} (cps : List Nat) (h : p c = true) :
    run p (c :: cps) = run p cps + 1 := by
  rw [run, List.takeWhile_cons_of_pos h]
  rfl

theorem run_cons_neg {p : Nat → Bool} {c : Nat} (cps : List Nat) (h : ¬ p c = true) :
    run p (c :: cps) = 0 := by
  rw [run, List.takeWhile_cons_of_neg h]
  rfl

theorem run_le (p : Nat → Bool) (cps : List Nat) : run p cps ≤ cps.length := by
  exact (List.takeWhile_prefix p).length_le

theorem drop_run (p : Nat → Bool) (cps : List Nat) : cps.drop (run p cps) = cps.dropWhile p := by
  induction cps with
  | nil => rfl
  | cons c cps ih =>
      by_cases h : p c = true
      · rw [run_cons_pos cps h, List.drop_succ_cons, ih, List.dropWhile_cons_of_pos h]
      · rw [run_cons_neg cps h, List.dropWhile_cons_of_neg h]
        rfl

theorem run_take (p : Nat → Bool) : ∀ (n : Nat) (cps : List Nat),
    run p (cps.take n) = min n (run p cps) := by
  intro n cps
  induction cps generalizing n with
  | nil => simp [run]
  | cons c cps ih =>
      cases n with
      | zero => simp [run]
      | succ n =>
          rw [List.take_succ_cons]
          by_cases h : p c = true
          · rw [run_cons_pos _ h, run_cons_pos _ h, ih]
            omega
          · rw [run_cons_neg _ h, run_cons_neg _ h]
            omega

/-! ### A matcher and its alternative

The code answers with a length and the expression with the list of its possible ends, best
first.  They agree when the length is that of the first end, and zero where the list is empty. -/

variable {u : UnicodeTables}

/-- A matcher's length is that of the first match; zero stands for none. -/
def Agrees (u : UnicodeTables) (r : SplitRegex) (len : Nat) (cps : List Nat) : Prop :=
  first u.reading r cps = if len = 0 then none else some (cps.drop len)

theorem Agrees.alt {a b : SplitRegex} {m n : Nat} {cps : List Nat} (ha : Agrees u a m cps)
    (hb : Agrees u b n cps) : Agrees u (.alt a b) (if 0 < m then m else n) cps := by
  unfold Agrees at *
  rw [first_alt, ha, hb]
  by_cases hm : 0 < m
  · rw [if_pos hm, if_neg (by omega)]
    rfl
  · rw [if_neg hm, if_pos (by omega)]
    rfl

@[simp] theorem mem_item (i : ClassItem) (x : Nat) :
    u.reading.mem (.item i) x = u.memItem i x := rfl

/-! ### Contractions

The literals are matched through the folding of ASCII letters.  No folding leads to an
apostrophe but an apostrophe itself, and the seven suffixes are tried in the order of the
alternatives. -/

theorem asciiFold_eq_apostrophe {c : Nat} : asciiFold c = 0x27 ↔ c = 0x27 := by
  unfold asciiFold
  split <;> omega

/-- A group that folds reads a literal through the folding. -/
private theorem ends_word2 (rd : Reading CharClass GroupMode Nat) (a b : Nat) (cps : List Nat) :
    ends rd (SplitRegex.word2 a b) cps = match cps with
      | c :: d :: rest =>
          if rd.mem (.item (.char a)) c && rd.mem (.item (.char b)) d then [rest] else []
      | _ => [] := by
  unfold SplitRegex.word2 SplitRegex.item
  rw [ends_seq]
  match cps with
  | [] => rfl
  | [c] =>
      rw [ends_one_cons]
      split <;> simp
  | c :: d :: rest =>
      rw [ends_one_cons]
      by_cases hc : rd.mem (.item (.char a)) c = true
      · rw [if_pos hc, List.flatMap_cons, List.flatMap_nil, List.append_nil, ends_one_cons]
        simp [hc]
      · rw [if_neg hc]
        simp [hc]

private theorem ends_word3 (rd : Reading CharClass GroupMode Nat) (a b e : Nat)
    (cps : List Nat) : ends rd (SplitRegex.word3 a b e) cps = match cps with
      | c :: d :: f :: rest =>
          if rd.mem (.item (.char a)) c && rd.mem (.item (.char b)) d &&
            rd.mem (.item (.char e)) f then [rest] else []
      | _ => [] := by
  unfold SplitRegex.word3 SplitRegex.item
  rw [ends_seq]
  cases cps with
  | nil => rfl
  | cons c cps =>
      rw [ends_one_cons]
      by_cases hc : rd.mem (.item (.char a)) c = true
      · rw [if_pos hc, List.flatMap_cons, List.flatMap_nil, List.append_nil, ends_word2]
        match cps with
        | [] => rfl
        | [d] => rfl
        | d :: f :: rest => simp [hc]
      · rw [if_neg hc]
        match cps with
        | [] => rfl
        | [d] => rfl
        | d :: f :: rest => simp [hc]

@[simp] theorem fold_caseless (x : Nat) : u.reading.fold .caseless x = asciiFold x := rfl

/-- The suffixes have a length each, by their letters after folding. -/
theorem agrees_contraction (cps : List Nat) :
    Agrees u SplitRegex.contraction (matchContraction cps) cps := by
  unfold Agrees first SplitRegex.contraction
  match cps with
  | [] => simp [ends, ends_word2, ends_word3, matchContraction]
  | [c] => simp [ends, ends_word2, ends_word3, matchContraction]
  | [c, d] =>
      simp only [ends, ends_word2, ends_word3, mem_item, fold_caseless, UnicodeTables.memItem,
        matchContraction]
      by_cases hc : c = 0x27
      · subst hc
        have hfold : asciiFold 0x27 = 0x27 := rfl
        by_cases h : asciiFold d = 0x73 ∨ asciiFold d = 0x74 ∨ asciiFold d = 0x6D ∨
            asciiFold d = 0x64
        · rcases h with h | h | h | h <;> simp [hfold, h]
        · simp only [not_or] at h
          simp [hfold, h]
      · have hfold : ¬ asciiFold c = 0x27 := fun h => hc (asciiFold_eq_apostrophe.mp h)
        simp [hc, hfold]
  | c :: d :: e :: rest =>
      simp only [ends, ends_word2, ends_word3, mem_item, fold_caseless, UnicodeTables.memItem,
        matchContraction]
      by_cases hc : c = 0x27
      · subst hc
        have hfold : asciiFold 0x27 = 0x27 := rfl
        by_cases h : asciiFold d = 0x73 ∨ asciiFold d = 0x74 ∨ asciiFold d = 0x6D ∨
            asciiFold d = 0x64
        · rcases h with h | h | h | h <;> simp [hfold, h]
        · simp only [not_or] at h
          by_cases hr : asciiFold d = 0x72 ∨ asciiFold d = 0x76
          · rcases hr with hr | hr <;>
              by_cases he : asciiFold e = 0x65 <;> simp [hfold, hr, he]
          · simp only [not_or] at hr
            by_cases hl : asciiFold d = 0x6C
            · by_cases he : asciiFold e = 0x6C <;> simp [hfold, hl, he]
            · simp [hfold, h, hr, hl]
      · have hfold : ¬ asciiFold c = 0x27 := fun h => hc (asciiFold_eq_apostrophe.mp h)
        simp [hc, hfold]

/-! ### Letters and numbers

Two alternatives that are runs of a class: the one takes all of the run, the other up to a
bound. -/

theorem head?_plus {k : CharClass} {c : Nat} (cps : List Nat) (h : u.reading.mem k c = true) :
    (ends u.reading (.rep (.one k) 1 none) (c :: cps)).head?
      = some (cps.dropWhile (u.reading.mem k)) := by
  rw [ends_plus_one_cons, if_pos h, head?_runEnds]

theorem ends_plus_of_not {k : CharClass} {cps : List Nat}
    (h : cps.head?.any (u.reading.mem k) = false) :
    ends u.reading (.rep (.one k) 1 none) cps = [] := by
  cases cps with
  | nil => exact ends_plus_one_nil
  | cons c cps =>
      rw [ends_plus_one_cons, if_neg (by simpa using h)]

theorem agrees_letterRun {c : Nat} {cps : List Nat} (hc : c < 0x110000) :
    Agrees u SplitRegex.letterRun (u.matchLetterRun (c :: cps)) (c :: cps) := by
  have hvalid : (c != kInvalidByte) = true := by
    unfold kInvalidByte
    simp only [bne_iff_ne]
    omega
  have hprefix : u.reading.mem (.noneOf [.char 0x0D, .char 0x0A, .letter, .number]) c
      = (!isCrLf c && !u.isLetter c && !u.isNumber c) := by
    show (!List.any _ _) = _
    simp only [List.any_cons, List.any_nil, UnicodeTables.memItem, isCrLf]
    cases (c == 0x0D) <;> cases (c == 0x0A) <;> cases u.isLetter c <;> cases u.isNumber c <;> rfl
  unfold Agrees first SplitRegex.letterRun SplitRegex.item
  rw [ends_seq, ends_optional_one_cons, hprefix, UnicodeTables.matchLetterRun]
  by_cases hl : u.isLetter c = true
  · rw [if_pos hl, if_neg (by simp [hl]), run_cons_pos cps hl, if_neg (by omega),
      List.flatMap_cons, List.flatMap_nil, List.append_nil,
      head?_plus (u := u) (k := .item .letter) cps hl,
      List.drop_succ_cons, drop_run]
    rfl
  · have hself : ends u.reading (.rep (.one (.item .letter)) 1 none) (c :: cps) = [] :=
      ends_plus_of_not (Bool.not_eq_true _ ▸ hl)
    rw [if_neg hl]
    by_cases hp : (!isCrLf c && !u.isNumber c) = true
    · have hand : (!isCrLf c && !u.isLetter c && !u.isNumber c) = true := by
        simp only [Bool.and_eq_true] at hp ⊢
        exact ⟨⟨hp.1, by simpa using hl⟩, hp.2⟩
      rw [if_pos hand, List.flatMap_cons, List.flatMap_cons, List.flatMap_nil, List.append_nil,
        hself, List.append_nil]
      simp only [hvalid, Bool.true_and, hp]
      cases cps with
      | nil =>
          rw [ends_plus_one_nil]
          rfl
      | cons d cps =>
          by_cases hd : u.isLetter d = true
          · rw [head?_plus (u := u) (k := .item .letter) cps hd]
            have hany : (d :: cps).head?.any u.isLetter = true := hd
            rw [if_pos hany, if_neg (by omega), Nat.add_comm, List.drop_succ_cons,
              run_cons_pos cps hd, List.drop_succ_cons, drop_run]
            rfl
          · have hany : (d :: cps).head?.any u.isLetter = false := by simpa using hd
            rw [hany, ends_plus_of_not (u := u) (k := .item .letter) hany]
            rfl
    · have hand : ¬ (!isCrLf c && !u.isLetter c && !u.isNumber c) = true := by
        intro h
        simp only [Bool.and_eq_true] at h hp
        exact hp ⟨h.1.1, h.2⟩
      have hcode : ¬ (c != kInvalidByte && !isCrLf c && !u.isNumber c
          && cps.head?.any u.isLetter) = true := by
        intro h
        simp only [Bool.and_eq_true] at h hp
        exact hp ⟨h.1.1.2, h.1.2⟩
      rw [if_neg hand, if_neg hcode, List.flatMap_cons, List.flatMap_nil, List.append_nil, hself]
      rfl

theorem head?_digits {n : Nat} {c : Nat} (cps : List Nat) (h : u.isNumber c = true) :
    (ends u.reading (.rep (.one (.item .number)) 1 (some (n + 1))) (c :: cps)).head?
      = some (cps.drop (run u.isNumber (cps.take n))) := by
  rw [ends_rep_some, turns_succ, ends_one_cons,
    if_pos (show u.reading.mem (.item .number) c = true from h)]
  simp only [turns_zero, List.flatMap_cons, List.flatMap_nil, List.append_nil, Nat.add_sub_cancel]
  rw [head?_upTo_one, run_take]
  rfl

/-! ### Punctuation

The optional space is taken only when a character of the class follows it.  Otherwise the group
gives it back, and the alternative is tried without it. -/

/-- What the optional space leaves to be matched. -/
private abbrev punctuationTail : SplitRegex :=
  seq (rep (one (.noneOf [.whitespace, .letter, .number])) 1 none)
    (rep (one (.oneOf [.char 0x0D, .char 0x0A])) 0 none)

theorem mem_punct {c : Nat} (hc : c < 0x110000) :
    u.reading.mem (.noneOf [.whitespace, .letter, .number]) c = u.isPunctClass c := by
  have hvalid : (c != kInvalidByte) = true := by
    unfold kInvalidByte
    simp only [bne_iff_ne]
    omega
  show (!List.any _ _) = _
  simp only [List.any_cons, List.any_nil, UnicodeTables.memItem, UnicodeTables.isPunctClass,
    hvalid, Bool.true_and, Bool.or_false, Bool.not_or, Bool.and_assoc]

theorem mem_crLf (c : Nat) : u.reading.mem (.oneOf [.char 0x0D, .char 0x0A]) c = isCrLf c := by
  show List.any _ _ = _
  simp only [List.any_cons, List.any_nil, UnicodeTables.memItem, isCrLf, Bool.or_false]

private theorem dropWhile_congr {p q : Nat → Bool} {cps : List Nat} (h : ∀ c ∈ cps, p c = q c) :
    cps.dropWhile p = cps.dropWhile q := by
  induction cps with
  | nil => rfl
  | cons c cps ih =>
      have hc := h c (by simp)
      rw [List.dropWhile_cons, List.dropWhile_cons, hc, ih fun d hd => h d (by simp [hd])]

theorem head?_punctuationTail {c : Nat} {cps : List Nat} (hvalid : ∀ d ∈ c :: cps, d < 0x110000)
    (h : u.isPunctClass c = true) : (ends u.reading punctuationTail (c :: cps)).head?
      = some ((cps.dropWhile u.isPunctClass).dropWhile isCrLf) := by
  have hc : u.reading.mem (.noneOf [.whitespace, .letter, .number]) c = true := by
    rw [mem_punct (hvalid c (by simp))]
    exact h
  unfold punctuationTail
  rw [ends_seq]
  refine head?_flatMap_of_head? (head?_plus cps hc) ?_
  rw [ends_star_one, head?_runEnds, dropWhile_congr (fun d _ => mem_crLf d),
    dropWhile_congr fun d hd => mem_punct (hvalid d (by simp [hd]))]

theorem ends_punctuationTail_of_not {cps : List Nat} (hvalid : ∀ d ∈ cps, d < 0x110000)
    (h : cps.head?.any u.isPunctClass = false) : ends u.reading punctuationTail cps = [] := by
  unfold punctuationTail
  rw [ends_seq, ends_plus_of_not]
  · rfl
  · cases cps with
    | nil => rfl
    | cons c cps =>
        show u.reading.mem _ c = false
        rw [mem_punct (hvalid c (by simp))]
        exact h

/-- A run of punctuation and the newlines after it. -/
private theorem drop_punctuation {c : Nat} (cps : List Nat) (h : u.isPunctClass c = true) :
    (c :: cps).drop (run u.isPunctClass (c :: cps)
        + run isCrLf ((c :: cps).drop (run u.isPunctClass (c :: cps))))
      = (cps.dropWhile u.isPunctClass).dropWhile isCrLf := by
  rw [← List.drop_drop, drop_run, drop_run, List.dropWhile_cons_of_pos h]

theorem agrees_punctuationRun {c : Nat} {cps : List Nat} (hvalid : ∀ d ∈ c :: cps, d < 0x110000) :
    Agrees u SplitRegex.punctuationRun (u.matchPunctuationRun (c :: cps)) (c :: cps) := by
  have hvalid' : ∀ d ∈ cps, d < 0x110000 := fun d hd => hvalid d (by simp [hd])
  have hspace : u.reading.mem (.item (.char 0x20)) c = (c == 0x20) := rfl
  unfold Agrees first SplitRegex.punctuationRun SplitRegex.item
  rw [ends_seq, ends_optional_one_cons, hspace, UnicodeTables.matchPunctuationRun]
  by_cases hand : (c == 0x20 && cps.head?.any u.isPunctClass) = true
  · -- the space is taken
    obtain ⟨hc, hd⟩ := Bool.and_eq_true_iff.mp hand
    rw [if_pos hc, List.flatMap_cons, List.flatMap_cons, List.flatMap_nil, List.append_nil,
      List.head?_append]
    cases cps with
    | nil => exact absurd hd (by simp)
    | cons d cps =>
        have hd : u.isPunctClass d = true := hd
        have hdrop : ∀ m, (c :: d :: cps).drop (1 + m) = (d :: cps).drop m := by
          intro m
          rw [Nat.add_comm, List.drop_succ_cons]
        simp only [hand, if_true, List.drop_succ_cons, List.drop_zero]
        rw [head?_punctuationTail hvalid' hd,
          if_neg (show ¬ (!(d :: cps).head?.any u.isPunctClass) = true by simp [hd]),
          if_neg (by omega), hdrop, Nat.add_assoc, hdrop, drop_punctuation cps hd]
        rfl
  · -- the space is left to be matched as punctuation, or is none
    have hends : (if (c == 0x20) = true then [cps, c :: cps] else [c :: cps]).flatMap
        (ends u.reading punctuationTail) = ends u.reading punctuationTail (c :: cps) := by
      by_cases hc : (c == 0x20) = true
      · have hnone : cps.head?.any u.isPunctClass = false := by simpa [hc] using hand
        rw [if_pos hc, List.flatMap_cons, List.flatMap_cons, List.flatMap_nil, List.append_nil,
          ends_punctuationTail_of_not hvalid' hnone, List.nil_append]
      · rw [if_neg hc, List.flatMap_cons, List.flatMap_nil, List.append_nil]
    rw [hends, if_neg hand]
    by_cases hp : u.isPunctClass c = true
    · have hrun := run_cons_pos cps hp
      simp only [List.drop_zero, Nat.zero_add]
      rw [head?_punctuationTail hvalid hp,
        if_neg (show ¬ (!(c :: cps).head?.any u.isPunctClass) = true by simp [hp]),
        if_neg (by omega), drop_punctuation cps hp]
    · have hp : u.isPunctClass c = false := by simpa using hp
      rw [ends_punctuationTail_of_not hvalid hp]
      simp [hp]

/-! ### Whitespace

Three alternatives share a run of whitespace: up to its last newline, up to its last character
but one when something follows, and the whole run.  One matcher serves all of them by where the
last newline lies and whether the text ends. -/

private theorem lastCrLf_some (cps : List Nat) : ∀ (k : Nat) (last : Option Nat),
    lastCrLf cps (k + 1) last = ((lastCrLf cps 0 none).map fun i => i + (k + 1)).or last := by
  induction cps with
  | nil =>
      intro k last
      rfl
  | cons c cps ih =>
      intro k last
      rw [lastCrLf, lastCrLf, ih, ih]
      by_cases hc : isCrLf c = true
      · rw [if_pos hc, if_pos hc]
        cases lastCrLf cps 0 none with
        | none => simp
        | some i =>
            simp
            omega
      · rw [if_neg hc, if_neg hc]
        cases lastCrLf cps 0 none with
        | none => simp
        | some i =>
            simp
            omega

theorem lastCrLf_cons (c : Nat) (cps : List Nat) : lastCrLf (c :: cps) 0 none
    = ((lastCrLf cps 0 none).map (· + 1)).or (if isCrLf c then some 0 else none) := by
  rw [lastCrLf, lastCrLf_some]

theorem isWhitespace_of_crLf (hu : u.Disjoint) {c : Nat} (h : isCrLf c = true) :
    u.isWhitespace c = true := by
  unfold isCrLf at h
  rw [Bool.or_eq_true, beq_iff_eq, beq_iff_eq] at h
  rcases h with rfl | rfl
  · exact hu.cr
  · exact hu.lf

/-- A run without CR and LF does not begin with one. -/
theorem dropWhile_crLf_of_none (hu : u.Disjoint) {cps : List Nat}
    (h : lastCrLf (cps.takeWhile u.isWhitespace) 0 none = none) : cps.dropWhile isCrLf = cps := by
  cases cps with
  | nil => rfl
  | cons c cps =>
      by_cases hc : isCrLf c = true
      · rw [List.takeWhile_cons_of_pos (isWhitespace_of_crLf hu hc), lastCrLf_cons,
          if_pos hc] at h
        cases hl : lastCrLf (cps.takeWhile u.isWhitespace) 0 none <;> rw [hl] at h <;> simp at h
      · rw [List.dropWhile_cons_of_neg hc]

/-- `\s*[\r\n]+`: back to the last CR or LF of the run. -/
theorem first_newlines (hu : u.Disjoint) (cps : List Nat) :
    first u.reading SplitRegex.newlines cps
      = (lastCrLf (cps.takeWhile u.isWhitespace) 0 none).map fun k => cps.drop (k + 1) := by
  unfold first SplitRegex.newlines SplitRegex.item
  rw [ends_seq, ends_star_one]
  show ((runEnds u.isWhitespace cps).flatMap _).head? = _
  induction cps with
  | nil =>
      rw [runEnds, List.flatMap_cons, List.flatMap_nil, ends_plus_one_nil]
      rfl
  | cons c cps ih =>
      have hplus : (ends u.reading (rep (one (.oneOf [.char 0x0D, .char 0x0A])) 1 none)
          (c :: cps)).head? = if isCrLf c then some (cps.dropWhile isCrLf) else none := by
        by_cases hc : isCrLf c = true
        · rw [if_pos hc, head?_plus cps ((mem_crLf c).trans hc),
            dropWhile_congr fun d _ => mem_crLf d]
        · rw [if_neg hc, ends_plus_of_not]
          · rfl
          · show u.reading.mem _ c = false
            rw [mem_crLf]
            simpa using hc
      rw [runEnds]
      by_cases hw : u.isWhitespace c = true
      · rw [if_pos hw, List.flatMap_append, List.head?_append, ih, List.flatMap_cons,
          List.flatMap_nil, List.append_nil, hplus, List.takeWhile_cons_of_pos hw, lastCrLf_cons]
        cases hl : lastCrLf (cps.takeWhile u.isWhitespace) 0 none with
        | some k => rfl
        | none =>
            by_cases hc : isCrLf c = true
            · rw [if_pos hc, if_pos hc, dropWhile_crLf_of_none hu hl]
              rfl
            · rw [if_neg hc, if_neg hc]
              rfl
      · have hc : ¬ isCrLf c = true := fun hc => hw (isWhitespace_of_crLf hu hc)
        rw [if_neg hw, List.flatMap_cons, List.flatMap_nil, List.append_nil, hplus, if_neg hc,
          List.takeWhile_cons_of_neg hw]
        rfl

/-- `(?!\S)` behind a run: at the end of the text, or one whitespace is given back. -/
theorem head?_lookahead (cps : List Nat) :
    ((runEnds u.isWhitespace cps).flatMap
        (ends u.reading (notAhead (one (.item .notWhitespace))))).head?
      = if run u.isWhitespace cps = cps.length then some []
        else if run u.isWhitespace cps = 0 then none
        else some (cps.drop (run u.isWhitespace cps - 1)) := by
  induction cps with
  | nil =>
      rw [runEnds, List.flatMap_cons, List.flatMap_nil, ends_notAhead_one_nil]
      rfl
  | cons c cps ih =>
      have hmem : u.reading.mem (.item .notWhitespace) c = !u.isWhitespace c := rfl
      rw [runEnds]
      by_cases hw : u.isWhitespace c = true
      · rw [if_pos hw, List.flatMap_append, List.head?_append, ih, List.flatMap_cons,
          List.flatMap_nil, List.append_nil, ends_notAhead_one_cons, hmem, hw, run_cons_pos cps hw,
          List.length_cons]
        by_cases hall : run u.isWhitespace cps = cps.length
        · rw [if_pos hall, if_pos (show run u.isWhitespace cps + 1 = cps.length + 1 by omega)]
          rfl
        · rw [if_neg hall, if_neg (show ¬ run u.isWhitespace cps + 1 = cps.length + 1 by omega),
            if_neg (Nat.succ_ne_zero _), Nat.add_sub_cancel]
          by_cases hz : run u.isWhitespace cps = 0
          · rw [if_pos hz, hz]
            rfl
          · rw [if_neg hz]
            obtain ⟨n, hn⟩ := Nat.exists_eq_succ_of_ne_zero hz
            rw [hn, List.drop_succ_cons]
            rfl
      · rw [if_neg hw, List.flatMap_cons, List.flatMap_nil, List.append_nil,
          ends_notAhead_one_cons, hmem, run_cons_neg cps hw]
        simp [hw]

theorem take_run (p : Nat → Bool) (cps : List Nat) : cps.take (run p cps) = cps.takeWhile p :=
  (List.prefix_iff_eq_take.mp (List.takeWhile_prefix p)).symm

theorem agrees_whitespaceRun (hu : u.Disjoint) (c : Nat) (cps : List Nat) :
    Agrees u (.alt SplitRegex.newlines (.alt SplitRegex.trailing SplitRegex.spaces))
      (u.matchWhitespaceRun (c :: cps)) (c :: cps) := by
  unfold Agrees
  rw [first_alt, first_alt, first_newlines hu]
  simp only [UnicodeTables.matchWhitespaceRun, take_run]
  unfold first SplitRegex.trailing SplitRegex.spaces SplitRegex.item
  rw [ends_seq, ends_plus_one_cons]
  by_cases hw : u.isWhitespace c = true
  · have hmem : u.reading.mem (.item .whitespace) c = true := hw
    rw [if_pos hmem, head?_runEnds, if_neg (show ¬ (!u.isWhitespace c) = true by simp [hw])]
    show Option.or _ (Option.or
      ((runEnds u.isWhitespace cps).flatMap _).head? (some (cps.dropWhile u.isWhitespace))) = _
    rw [head?_lookahead, run_cons_pos cps hw]
    cases hl : lastCrLf ((c :: cps).takeWhile u.isWhitespace) 0 none with
    | some k => rfl
    | none =>
        have hle := run_le u.isWhitespace cps
        have hdrop := drop_run u.isWhitespace cps
        simp only [Option.map_none, Option.none_or, List.length_cons, Nat.add_right_cancel_iff]
        by_cases hall : run u.isWhitespace cps = cps.length
        · rw [if_pos hall, if_pos hall, if_neg (Nat.succ_ne_zero _), hall]
          simp
        · rw [if_neg hall, if_neg hall]
          by_cases hz : run u.isWhitespace cps = 0
          · rw [hz] at hdrop
            rw [if_pos hz, hz, ← hdrop]
            rfl
          · rw [if_neg hz, if_pos (show 1 < run u.isWhitespace cps + 1 by omega),
              Nat.add_sub_cancel, if_neg hz]
            obtain ⟨n, hn⟩ := Nat.exists_eq_succ_of_ne_zero hz
            rw [hn, List.drop_succ_cons]
            rfl
  · have hmem : ¬ u.reading.mem (.item .whitespace) c = true := hw
    rw [if_neg hmem, List.takeWhile_cons_of_neg hw]
    simp [hw, lastCrLf]

/-! ### How long a match is

No matcher reads behind the end of the text, and whichever of them finds anything consumes
something.  The loop over the text relies on both. -/

theorem matchContraction_le (cps : List Nat) : matchContraction cps ≤ cps.length := by
  match cps with
  | [] => exact Nat.zero_le _
  | [c] => exact Nat.zero_le _
  | [c, d] =>
      simp only [matchContraction, List.length_cons, List.length_nil]
      split_ifs <;> omega
  | c :: d :: e :: rest =>
      simp only [matchContraction, List.length_cons]
      split_ifs <;> omega

theorem matchLetterRun_le (cps : List Nat) : u.matchLetterRun cps ≤ cps.length := by
  cases cps with
  | nil => exact Nat.zero_le _
  | cons c cps =>
      have h1 := run_le u.isLetter (c :: cps)
      have h2 := run_le u.isLetter cps
      simp only [UnicodeTables.matchLetterRun, List.length_cons] at *
      split_ifs <;> omega

theorem matchPunctuationRun_le (cps : List Nat) : u.matchPunctuationRun cps ≤ cps.length := by
  cases cps with
  | nil => exact Nat.zero_le _
  | cons c cps =>
      have hbound : ∀ j ≤ (c :: cps).length, j + run u.isPunctClass ((c :: cps).drop j)
          + run isCrLf ((c :: cps).drop (j + run u.isPunctClass ((c :: cps).drop j)))
            ≤ (c :: cps).length := by
        intro j hj
        have h1 := run_le u.isPunctClass ((c :: cps).drop j)
        rw [List.length_drop] at h1
        have h2 := run_le isCrLf ((c :: cps).drop (j + run u.isPunctClass ((c :: cps).drop j)))
        rw [List.length_drop] at h2
        omega
      have hcases : ∀ j ≤ (c :: cps).length,
          (if (!((c :: cps).drop j).head?.any u.isPunctClass) = true then 0
            else j + run u.isPunctClass ((c :: cps).drop j)
              + run isCrLf ((c :: cps).drop (j + run u.isPunctClass ((c :: cps).drop j))))
            ≤ (c :: cps).length := by
        intro j hj
        split
        · exact Nat.zero_le _
        · exact hbound j hj
      refine hcases _ ?_
      rw [List.length_cons]
      split_ifs <;> omega

theorem lastCrLf_lt : ∀ {cps : List Nat} {k : Nat}, lastCrLf cps 0 none = some k →
    k < cps.length := by
  intro cps
  induction cps with
  | nil => intro k h; exact absurd h (by simp [lastCrLf])
  | cons c cps ih =>
      intro k h
      rw [lastCrLf_cons] at h
      rw [List.length_cons]
      cases hl : lastCrLf cps 0 none with
      | some i =>
          rw [hl] at h
          have h : i + 1 = k := Option.some.inj h
          have hi := ih hl
          omega
      | none =>
          rw [hl] at h
          by_cases hc : isCrLf c = true
          · rw [if_pos hc] at h
            cases h
            omega
          · rw [if_neg hc] at h
            exact absurd h (by simp)

theorem matchWhitespaceRun_le (cps : List Nat) : u.matchWhitespaceRun cps ≤ cps.length := by
  cases cps with
  | nil => exact Nat.zero_le _
  | cons c cps =>
      have hle := run_le u.isWhitespace (c :: cps)
      simp only [UnicodeTables.matchWhitespaceRun]
      split
      · exact Nat.zero_le _
      · split
        · rename_i k hk
          have hk := lastCrLf_lt hk
          rw [List.length_take] at hk
          omega
        · rw [List.length_cons] at *
          split_ifs <;> omega

theorem matchWhitespaceRun_pos {c : Nat} (cps : List Nat) (h : u.isWhitespace c = true) :
    0 < u.matchWhitespaceRun (c :: cps) := by
  have hrun := run_cons_pos cps h
  simp only [UnicodeTables.matchWhitespaceRun]
  rw [if_neg (show ¬ (!u.isWhitespace c) = true by simp [h])]
  split
  · omega
  · split_ifs <;> omega

theorem matchLetterRun_pos {c : Nat} (cps : List Nat) (h : u.isLetter c = true) :
    0 < u.matchLetterRun (c :: cps) := by
  rw [UnicodeTables.matchLetterRun, if_pos h, run_cons_pos cps h]
  exact Nat.succ_pos _

theorem matchPunctuationRun_pos {c : Nat} (cps : List Nat) (h : u.isPunctClass c = true) :
    0 < u.matchPunctuationRun (c :: cps) := by
  simp only [UnicodeTables.matchPunctuationRun]
  by_cases hand : (c == 0x20 && cps.head?.any u.isPunctClass) = true
  · rw [if_pos hand, if_neg]
    · omega
    · obtain ⟨_, hd⟩ := Bool.and_eq_true_iff.mp hand
      simp [hd]
  · have hrun := run_cons_pos cps h
    rw [if_neg hand, if_neg]
    · rw [List.drop_zero]
      omega
    · simp [h]

/-- The match lies in the text and is not empty. -/
theorem matchAt_bounds (c : Nat) (cps : List Nat) (k : Nat) :
    0 < u.matchAt (c :: cps) k ∧ u.matchAt (c :: cps) k ≤ (c :: cps).length := by
  have h1 := matchContraction_le (c :: cps)
  have h2 := matchLetterRun_le (u := u) (c :: cps)
  have h3 := run_le u.isNumber (cps.take (k - 1))
  have h4 := matchPunctuationRun_le (u := u) (c :: cps)
  have h5 := matchWhitespaceRun_le (u := u) (c :: cps)
  rw [List.length_take] at h3
  simp only [UnicodeTables.matchAt, List.length_cons] at *
  split_ifs <;> omega

/-! ### All alternatives

The alternatives are tried in order, and the first one with a match decides.  Since each matcher
answers zero exactly when its alternative has no match, the chain of the code is the disjunction
of the expression. -/

theorem agrees_three (c : Nat) (cps : List Nat) :
    Agrees u (.rep (SplitRegex.item .number) 1 (some 3))
      (if u.isNumber c then 1 + run u.isNumber (cps.take 2) else 0) (c :: cps) := by
  unfold Agrees first SplitRegex.item
  by_cases h : u.isNumber c = true
  · rw [head?_digits cps h, if_pos h, if_neg (by omega), Nat.add_comm, List.drop_succ_cons]
  · rw [ends_rep_some, turns_succ, ends_one_cons,
      if_neg (show ¬ u.reading.mem (.item .number) c = true from h),
      if_neg h]
    rfl

theorem agrees_single (c : Nat) (cps : List Nat) :
    Agrees u (SplitRegex.item .number) (if u.isNumber c then 1 + run u.isNumber (cps.take 0) else 0)
      (c :: cps) := by
  unfold Agrees first SplitRegex.item
  rw [ends_one_cons]
  by_cases h : u.isNumber c = true
  · rw [if_pos (show u.reading.mem (.item .number) c = true from h), if_pos h]
    rfl
  · rw [if_neg (show ¬ u.reading.mem (.item .number) c = true from h), if_neg h]
    rfl

/-- **`MatchAt` returns the length of the first match of the whole expression.** -/
theorem first_alternatives (hu : u.Disjoint) {digits : SplitRegex} {k c : Nat} {cps : List Nat}
    (hvalid : ∀ d ∈ c :: cps, d < 0x110000)
    (hdigits : Agrees u digits (if u.isNumber c then 1 + run u.isNumber (cps.take (k - 1)) else 0)
      (c :: cps)) :
    first u.reading (SplitRegex.alternatives digits) (c :: cps)
      = some ((c :: cps).drop (u.matchAt (c :: cps) k)) := by
  have hc : c < 0x110000 := hvalid c (by simp)
  have hne : c ≠ kInvalidByte := by
    unfold kInvalidByte
    omega
  have hall := (agrees_contraction (u := u) (c :: cps)).alt ((agrees_letterRun hc).alt
    (hdigits.alt ((agrees_punctuationRun hvalid).alt (agrees_whitespaceRun hu c cps))))
  -- a codepoint outside the three categories is punctuation
  have hsome : 0 < u.matchLetterRun (c :: cps) ∨ u.isNumber c = true ∨
      0 < u.matchPunctuationRun (c :: cps) ∨ 0 < u.matchWhitespaceRun (c :: cps) := by
    by_cases hl : u.isLetter c = true
    · exact .inl (matchLetterRun_pos cps hl)
    · by_cases hn : u.isNumber c = true
      · exact .inr (.inl hn)
      · by_cases hw : u.isWhitespace c = true
        · exact .inr (.inr (.inr (matchWhitespaceRun_pos cps hw)))
        · refine .inr (.inr (.inl (matchPunctuationRun_pos cps ?_)))
          simp [UnicodeTables.isPunctClass, hl, hn, hw, hne]
  unfold Agrees at hall
  have hall : first u.reading (SplitRegex.alternatives digits) (c :: cps) = _ := hall
  rw [hall, UnicodeTables.matchAt, if_neg hne]
  by_cases h1 : 0 < matchContraction (c :: cps)
  · rw [if_pos h1, if_pos h1, if_neg (by omega)]
  · rw [if_neg h1, if_neg h1]
    by_cases h2 : 0 < u.matchLetterRun (c :: cps)
    · rw [if_pos h2, if_pos h2, if_neg (by omega)]
    · rw [if_neg h2, if_neg h2]
      by_cases hn : u.isNumber c = true
      · have hpos : 0 < 1 + run u.isNumber (cps.take (k - 1)) := by omega
        rw [if_pos hn, if_pos hn, if_pos hpos, if_neg (by omega)]
      · rw [if_neg hn, if_neg hn, if_neg (Nat.lt_irrefl 0)]
        by_cases h4 : 0 < u.matchPunctuationRun (c :: cps)
        · rw [if_pos h4, if_pos h4, if_neg (by omega)]
        · have h5 : 0 < u.matchWhitespaceRun (c :: cps) := by tauto
          rw [if_neg h4, if_neg h4, if_pos h5, if_neg (by omega)]

theorem first_ofSpec (hu : u.Disjoint) {spec : SplitSpec}
    (hspec : spec.maxDigitRun = 3 ∨ spec.maxDigitRun = 1) {c : Nat} {cps : List Nat}
    (hvalid : ∀ d ∈ c :: cps, d < 0x110000) :
    first u.reading (SplitRegex.ofSpec spec) (c :: cps)
      = some ((c :: cps).drop (u.matchAt (c :: cps) spec.maxDigitRun)) := by
  unfold SplitRegex.ofSpec
  rcases hspec with h | h
  · rw [if_pos h, h]
    exact first_alternatives hu hvalid (agrees_three c cps)
  · rw [if_neg (by omega), h]
    exact first_alternatives hu hvalid (agrees_single c cps)

end InferenceEngine
