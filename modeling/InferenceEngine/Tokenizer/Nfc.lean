/-
NFC normalization: `nfc_normalize` of `tokenizer/unicode.cpp`.

The tables of combining classes, decompositions and compositions are generated from the Unicode
data and are parameters here; Hangul is computed.
-/
import InferenceEngine.Tokenizer.Unicode

namespace InferenceEngine

/-- The tables of `tokenizer/unicode_data.inc` that normalization looks up. -/
structure NfcTables where
  /-- `CombiningClass`. -/
  combiningClass : Nat → Nat
  /-- `InRanges(kNfcNoOrMaybeRanges, codepoint)`. -/
  noOrMaybe : Nat → Bool
  /-- `CanonicalDecomposition`, empty for a codepoint that has none. -/
  canonicalDecomposition : Nat → List Nat
  /-- `kCompEntries`, looked up by its key. -/
  compEntry : Nat → Nat → Option Nat

/-! ### Hangul

Syllables are composed and decomposed by arithmetic, without a table. -/

/-- The first syllable. -/
def kHangulSBase : Nat := 0xAC00

/-- The first leading consonant. -/
def kHangulLBase : Nat := 0x1100

/-- The first vowel. -/
def kHangulVBase : Nat := 0x1161

/-- One before the first trailing consonant. -/
def kHangulTBase : Nat := 0x11A7

/-- The leading consonants. -/
def kHangulLCount : Nat := 19

/-- The vowels. -/
def kHangulVCount : Nat := 21

/-- The trailing consonants, and none. -/
def kHangulTCount : Nat := 28

/-- The syllables with one leading consonant. -/
def kHangulNCount : Nat := kHangulVCount * kHangulTCount

/-- All syllables. -/
def kHangulSCount : Nat := kHangulLCount * kHangulNCount

/-- Whether a codepoint is a Hangul syllable. -/
def isHangulSyllable (codepoint : Nat) : Bool :=
  kHangulSBase ≤ codepoint && codepoint < kHangulSBase + kHangulSCount

/-- What `DecomposeHangul` appends. -/
def decomposeHangul (syllable : Nat) : List Nat :=
  let index := syllable - kHangulSBase
  let leading := kHangulLBase + index / kHangulNCount
  let vowel := kHangulVBase + (index % kHangulNCount) / kHangulTCount
  if index % kHangulTCount ≠ 0 then
    [leading, vowel, kHangulTBase + index % kHangulTCount]
  else [leading, vowel]

namespace NfcTables

variable (n : NfcTables)

/-- `ComposePair`. -/
def composePair (first second : Nat) : Option Nat :=
  if kHangulLBase ≤ first ∧ first < kHangulLBase + kHangulLCount ∧ kHangulVBase ≤ second ∧
      second < kHangulVBase + kHangulVCount then
    let lvIndex := (first - kHangulLBase) * kHangulVCount + (second - kHangulVBase)
    some (kHangulSBase + lvIndex * kHangulTCount)
  else if kHangulSBase ≤ first ∧ first < kHangulSBase + kHangulSCount ∧
      (first - kHangulSBase) % kHangulTCount = 0 ∧ kHangulTBase < second ∧
      second < kHangulTBase + kHangulTCount then
    some (first + (second - kHangulTBase))
  else n.compEntry first second

/-- `IsNfcInert`. -/
def isNfcInert (codepoint : Nat) : Bool :=
  n.combiningClass codepoint = 0 && !n.noOrMaybe codepoint

/-! ### One decoded segment

The three steps of the normal form: decompose, reorder by class, compose. -/

/-- What the first step of `NormalizeSegment` appends for a codepoint. -/
def decompose (codepoint : Nat) : List Nat :=
  if isHangulSyllable codepoint then decomposeHangul codepoint
  else if n.canonicalDecomposition codepoint = [] then [codepoint]
  else n.canonicalDecomposition codepoint

/-- A non-starter moves back past the higher classes; the elements before it are in reverse. -/
def moveBack (ccc codepoint : Nat) : (before : List Nat) → List Nat
  | [] => [codepoint]
  | previous :: before =>
      if ccc < n.combiningClass previous then previous :: moveBack ccc codepoint before
      else codepoint :: previous :: before

/-- The second step, canonical ordering, with the elements done in reverse. -/
def reorderLoop : (rest done : List Nat) → List Nat
  | [], done => done.reverse
  | codepoint :: rest, done =>
      let ccc := n.combiningClass codepoint
      if ccc = 0 then reorderLoop rest (codepoint :: done)
      else reorderLoop rest (n.moveBack ccc codepoint done)

/-- The second step. -/
def reorder (decomposed : List Nat) : List Nat := n.reorderLoop decomposed []

/-- The third step, canonical composition; `written` is the front of the array that has been
written, and 256 the class of no starter. -/
def composeLoop :
    (rest written : List Nat) → (starter starterPos lastCcc : Nat) → List Nat
  | [], written, _, _, _ => written
  | current :: rest, written, starter, starterPos, lastCcc =>
      let ccc := n.combiningClass current
      match n.composePair starter current with
      | some composed =>
          if lastCcc < ccc ∨ lastCcc = 0 then
            composeLoop rest (written.set starterPos composed) composed starterPos lastCcc
          else if ccc = 0 then composeLoop rest (written ++ [current]) current written.length ccc
          else composeLoop rest (written ++ [current]) starter starterPos ccc
      | none =>
          if ccc = 0 then composeLoop rest (written ++ [current]) current written.length ccc
          else composeLoop rest (written ++ [current]) starter starterPos ccc

/-- The third step. -/
def compose : (decomposed : List Nat) → List Nat
  | [] => []
  | first :: rest =>
      n.composeLoop rest [first] first 0 (if n.combiningClass first = 0 then 0 else 256)

/-- The codepoints that `NormalizeSegment` makes of a buffer. -/
def normalizeCodepoints (buffer : List Nat) : List Nat :=
  n.compose (n.reorder (buffer.flatMap n.decompose))

/-- `NormalizeSegment`. -/
def normalizeSegment (buffer : List Nat) (out : Text) : Text :=
  if buffer = [] then out else out ++ (n.normalizeCodepoints buffer).flatMap utf8Bytes

/-! ### The whole text

A text in which nothing can change is handed back as it is. -/

/-- The loop of the fast path.  Every turn consumes a byte, so the length of the text bounds the
turns. -/
def inertLoop : (fuel : Nat) → Text → Bool
  | 0, _ => true
  | _ + 1, [] => true
  | fuel + 1, byte :: rest =>
      if byte < 0x80 then inertLoop fuel rest
      else
        match decodeUtf8 (byte :: rest) with
        | none => false
        | some (codepoint, length) =>
            if n.isNfcInert codepoint then inertLoop fuel ((byte :: rest).drop length) else false

/-- The loop of the full algorithm, bounded in the same way. -/
def normalizeLoop : (fuel : Nat) → Text → (buffer : List Nat) → (out : Text) → Text
  | 0, _, buffer, out => n.normalizeSegment buffer out
  | _ + 1, [], buffer, out => n.normalizeSegment buffer out
  | fuel + 1, byte :: rest, buffer, out =>
      match decodeUtf8 (byte :: rest) with
      | some (codepoint, length) =>
          normalizeLoop fuel ((byte :: rest).drop length) (buffer ++ [codepoint]) out
      | none => normalizeLoop fuel rest [] (n.normalizeSegment buffer out ++ [byte])

/-- The full algorithm of `nfc_normalize`, segmented at the bytes that do not decode. -/
def fullPass (text : Text) : Text := n.normalizeLoop text.length text [] []

/-- `nfc_normalize`. -/
def nfcNormalize (text : Text) : Text :=
  if n.inertLoop text.length text then text else n.fullPass text

end NfcTables

end InferenceEngine
