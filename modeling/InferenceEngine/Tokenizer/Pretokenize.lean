/-
The pre-tokenizer: `tokenizer/pretokenize.cpp`.

A matcher is given the codepoints from its position on; `cps[i]` is the first of them.
-/
import InferenceEngine.Tokenizer.Unicode

namespace InferenceEngine

/-- `kCl100kPattern`. -/
def kCl100kPattern : String :=
  "(?i:'s|'t|'re|'ve|'m|'ll|'d)|[^\\r\\n\\p\x7bL\x7d\\p\x7bN\x7d]?\\p\x7bL\x7d+|" ++
  "\\p\x7bN\x7d\x7b1,3\x7d| ?[^\\s\\p\x7bL\x7d\\p\x7bN\x7d]+[\\r\\n]*|" ++
  "\\s*[\\r\\n]+|\\s+(?!\\S)|\\s+"

/-- `kQwen2Pattern`. -/
def kQwen2Pattern : String :=
  "(?i:'s|'t|'re|'ve|'m|'ll|'d)|[^\\r\\n\\p\x7bL\x7d\\p\x7bN\x7d]?\\p\x7bL\x7d+|" ++
  "\\p\x7bN\x7d| ?[^\\s\\p\x7bL\x7d\\p\x7bN\x7d]+[\\r\\n]*|\\s*[\\r\\n]+|\\s+(?!\\S)|\\s+"

/-- `SplitSpec`. -/
structure SplitSpec where
  maxDigitRun : Nat
deriving DecidableEq, Repr

/-- `select_split_pattern`. -/
def selectSplitPattern (pattern : String) : StatusOr SplitSpec :=
  if pattern = kCl100kPattern then .ok ⟨3⟩
  else if pattern = kQwen2Pattern then .ok ⟨1⟩
  else .error (unimplementedError
    ("pre_tokenizer Split pattern \"" ++ pattern ++ "\" is not one of the known " ++
      "GPT-2/cl100k-family patterns this matcher was validated against (design §6.4)"))

/-- The sentinel for a byte that did not decode. -/
def kInvalidByte : Nat := 0x110000

/-- `\r` or `\n`. -/
def isCrLf (codepoint : Nat) : Bool := codepoint == 0x0D || codepoint == 0x0A

/-- An ASCII letter in lower case. -/
def asciiFold (codepoint : Nat) : Nat :=
  if 0x41 ≤ codepoint ∧ codepoint ≤ 0x5A then codepoint + 0x20 else codepoint

/-- How far a `while` loop over the codepoints of a class goes. -/
def run (p : Nat → Bool) (cps : List Nat) : Nat := (cps.takeWhile p).length

/-- `MatchContraction`; `0x27` is the apostrophe. -/
def matchContraction : List Nat → Nat
  | c :: d :: rest =>
      if c ≠ 0x27 then 0
      else
        let second := asciiFold d
        if second = 0x73 ∨ second = 0x74 ∨ second = 0x6D ∨ second = 0x64 then 2
        else
          match rest with
          | e :: _ =>
              let third := asciiFold e
              if (second = 0x72 ∧ third = 0x65) ∨ (second = 0x76 ∧ third = 0x65) ∨
                  (second = 0x6C ∧ third = 0x6C) then 3
              else 0
          | [] => 0
  | _ => 0

/-- The index of the last CR or LF of a run, counted from `k`. -/
def lastCrLf : (cps : List Nat) → (k : Nat) → (last : Option Nat) → Option Nat
  | [], _, last => last
  | c :: cps, k, last => lastCrLf cps (k + 1) (if isCrLf c then some k else last)

namespace UnicodeTables

variable (u : UnicodeTables)

/-- `IsPunctClass`. -/
def isPunctClass (codepoint : Nat) : Bool :=
  codepoint != kInvalidByte && !u.isWhitespace codepoint && !u.isLetter codepoint &&
    !u.isNumber codepoint

/-- `MatchLetterRun`. -/
def matchLetterRun : List Nat → Nat
  | [] => 0
  | c :: rest =>
      if u.isLetter c then run u.isLetter (c :: rest)
      else
        let prefixOk := c != kInvalidByte && !isCrLf c && !u.isNumber c && rest.head?.any u.isLetter
        if prefixOk then 1 + run u.isLetter rest else 0

/-- `MatchPunctuationRun`; `0x20` is the space. -/
def matchPunctuationRun : List Nat → Nat
  | [] => 0
  | c :: rest =>
      let j := if c == 0x20 && rest.head?.any u.isPunctClass then 1 else 0
      if !((c :: rest).drop j).head?.any u.isPunctClass then 0
      else
        let j := j + run u.isPunctClass ((c :: rest).drop j)
        j + run isCrLf ((c :: rest).drop j)

/-- `MatchWhitespaceRun`. -/
def matchWhitespaceRun : List Nat → Nat
  | [] => 0
  | c :: rest =>
      if !u.isWhitespace c then 0
      else
        let j := run u.isWhitespace (c :: rest)
        match lastCrLf ((c :: rest).take j) 0 none with
        | some last => last + 1
        | none =>
            if j = (c :: rest).length then j
            else if 1 < j then j - 1
            else 1

/-- `MatchAt`. -/
def matchAt (cps : List Nat) (maxDigitRun : Nat) : Nat :=
  match cps with
  | [] => 0
  | c :: rest =>
      if c = kInvalidByte then 1
      else if 0 < matchContraction (c :: rest) then matchContraction (c :: rest)
      else if 0 < u.matchLetterRun (c :: rest) then u.matchLetterRun (c :: rest)
      else if u.isNumber c then 1 + run u.isNumber (rest.take (maxDigitRun - 1))
      else if 0 < u.matchPunctuationRun (c :: rest) then u.matchPunctuationRun (c :: rest)
      else if 0 < u.matchWhitespaceRun (c :: rest) then u.matchWhitespaceRun (c :: rest)
      else 1

end UnicodeTables

/-- The decoding loop: each codepoint, or the sentinel, with its byte offset.  Every turn
consumes a byte, so the length of the text bounds the turns. -/
def decodeOffsets : (fuel : Nat) → (bytes : Text) → (pos : Nat) → List (Nat × Nat)
  | 0, _, _ => []
  | fuel + 1, bytes, pos =>
      if bytes.isEmpty then []
      else
        match decodeUtf8 bytes with
        | some (codepoint, length) =>
            (codepoint, pos) :: decodeOffsets fuel (bytes.drop length) (pos + length)
        | none => (kInvalidByte, pos) :: decodeOffsets fuel (bytes.drop 1) (pos + 1)

namespace UnicodeTables

variable (u : UnicodeTables)

/-- The splitting loop.  Every turn consumes a codepoint, so their number bounds the turns. -/
def splitLoop (text : Text) (cps offsets : List Nat) (maxDigitRun : Nat) :
    (fuel i : Nat) → Checked (List Text)
  | 0, _ => .ok []
  | fuel + 1, i =>
      if i < cps.length then do
        let len := u.matchAt (cps.drop i) maxDigitRun
        let start ← readAt offsets i
        let stop ← readAt offsets (i + len : Nat)
        let spans ← splitLoop text cps offsets maxDigitRun fuel (i + len)
        pure ((text.drop start).take (stop - start) :: spans)
      else .ok []

/-- `pretokenize`. -/
def pretokenize (text : Text) (spec : SplitSpec) : Checked (List Text) :=
  let decoded := decodeOffsets text.length text 0
  let cps := decoded.map Prod.fst
  let offsets := decoded.map Prod.snd ++ [text.length]
  u.splitLoop text cps offsets spec.maxDigitRun cps.length 0

end UnicodeTables

end InferenceEngine
