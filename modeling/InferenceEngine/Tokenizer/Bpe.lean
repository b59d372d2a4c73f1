/-
The byte alphabet and the merge loop: `tokenizer/bpe.cpp`.

A merge table maps `"left right"` to the rank of the merge.  A symbol of the merge loop is a
view of the word; two adjacent ones are contiguous there, so the widened view is what they
concatenate to.
-/
import InferenceEngine.Tokenizer.Unicode
import Mathlib.Data.List.AList

namespace InferenceEngine

/-- A `std::unordered_map` keyed by strings. -/
abbrev TextMap (β : Type) := AList (fun _ : Text => β)

/-- `emplace`: the map, the value now under the key, and whether it is the new one. -/
def emplace {κ β : Type} [DecidableEq κ] (m : AList (fun _ : κ => β)) (k : κ) (v : β) :
    AList (fun _ : κ => β) × β × Bool :=
  match m.lookup k with
  | some w => (m, w, false)
  | none => (m.insert k v, v, true)

/-- A string of ASCII characters. -/
def ascii (s : String) : Text := s.toList.map fun c => UInt8.ofNat c.toNat

/-- A byte string in a message or in a comparison with one of the code's own strings. -/
def Text.show (t : Text) : String := String.ofList (t.map fun b => Char.ofNat b.toNat)

/-! ### The alphabet

Every byte has a printable codepoint.  The two tables are built by one loop over the bytes. -/

/-- `IsPrintableLatin`. -/
def isPrintableLatin (byte : Nat) : Bool :=
  (0x21 ≤ byte && byte ≤ 0x7E) || (0xA1 ≤ byte && byte ≤ 0xAC) || (0xAE ≤ byte && byte ≤ 0xFF)

/-- One more than the largest codepoint of the alphabet. -/
def kInverseSize : Nat := 0x144

/-- `AlphabetTables`. -/
structure AlphabetTables where
  toAlphabet : List Nat
  toByte : List Int

/-- The loop of `BuildTables` over the bytes. -/
def buildLoop : (bytes : List Nat) → (nextRemapped : Nat) → AlphabetTables → AlphabetTables
  | [], _, tables => tables
  | byte :: bytes, nextRemapped, tables =>
      let codepoint := if isPrintableLatin byte then byte else nextRemapped
      let nextRemapped := if isPrintableLatin byte then nextRemapped else nextRemapped + 1
      buildLoop bytes nextRemapped
        ⟨tables.toAlphabet.set byte codepoint, tables.toByte.set codepoint byte⟩

/-- `kTables`. -/
def kTables : AlphabetTables :=
  buildLoop (List.range 256) 0x100 ⟨List.replicate 256 0, List.replicate kInverseSize (-1)⟩

/-- `byte_to_alphabet`. -/
def byteToAlphabet (byte : UInt8) : Nat := kTables.toAlphabet.getD byte.toNat 0

/-- `alphabet_to_byte`. -/
def alphabetToByte (codepoint : Nat) : Option UInt8 :=
  if kInverseSize ≤ codepoint then none
  else
    let byte := kTables.toByte.getD codepoint (-1)
    if byte < 0 then none else some (UInt8.ofNat byte.toNat)

/-- `{:04X}`: at least four hexadecimal digits. -/
def hexDigits (n : Nat) : String :=
  let digits := (Nat.toDigits 16 n).map Char.toUpper
  String.ofList (List.replicate (4 - digits.length) '0' ++ digits)

/-- `map_bytes_to_alphabet`. -/
def mapBytesToAlphabet (raw : Text) : Text :=
  raw.flatMap fun byte => utf8Bytes (byteToAlphabet byte)

/-- The loop of `unmap_alphabet_to_bytes`.  Every turn consumes a byte, so the length of the
token bounds the turns. -/
def unmapLoop : (fuel : Nat) → (token : Text) → (pos : Nat) → (out : Text) → StatusOr Text
  | 0, _, _, out => .ok out
  | fuel + 1, token, pos, out =>
      if token.isEmpty then .ok out
      else
        match decodeUtf8 token with
        | none => .error (invalidArgumentError
            s!"alphabet string is not valid UTF-8 at byte offset {pos}")
        | some (codepoint, length) =>
            match alphabetToByte codepoint with
            | none => .error (invalidArgumentError
                s!"codepoint U+{hexDigits codepoint} is not in the byte-level BPE alphabet")
            | some byte => unmapLoop fuel (token.drop length) (pos + length) (out ++ [byte])

/-- `unmap_alphabet_to_bytes`. -/
def unmapAlphabetToBytes (token : Text) : StatusOr Text := unmapLoop token.length token 0 []

/-! ### The merge loop

The symbols of a word are merged pair by pair, the lowest rank first, until no pair has a rank. -/

/-- A UTF-8 continuation byte. -/
def isContinuation (byte : UInt8) : Bool := byte &&& 0xC0 == 0x80

/-- The initial symbols of a word, one a codepoint.  Every turn consumes a byte, so the length
of the word bounds the turns. -/
def initialSymbols : (fuel : Nat) → Text → List Text
  | 0, _ => []
  | _ + 1, [] => []
  | fuel + 1, byte :: rest =>
      (byte :: rest.takeWhile isContinuation) ::
        initialSymbols fuel (rest.dropWhile isContinuation)

/-- The key of a pair. -/
def mergeKey (left right : Text) : Text := left ++ 0x20 :: right

/-- The scan for the lowest rank, leftmost first, from the pair at `i`. -/
def scanPairs (ranks : TextMap Int) :
    (symbols : List Text) → (i : Nat) → (bestRank : Int) → (best : Option Nat) → Option Nat
  | a :: b :: rest, i, bestRank, best =>
      match ranks.lookup (mergeKey a b) with
      | some rank =>
          if rank < bestRank then scanPairs ranks (b :: rest) (i + 1) rank (some i)
          else scanPairs ranks (b :: rest) (i + 1) bestRank best
      | none => scanPairs ranks (b :: rest) (i + 1) bestRank best
  | _, _, _, best => best

/-- The symbol at `best` takes in its neighbour. -/
def mergeAt : (symbols : List Text) → (best : Nat) → List Text
  | a :: b :: rest, 0 => (a ++ b) :: rest
  | a :: rest, best + 1 => a :: mergeAt rest best
  | symbols, _ => symbols

/-- The merge loop.  Every merge leaves one symbol less, so their number bounds the merges. -/
def mergeLoop (ranks : TextMap Int) : (fuel : Nat) → List Text → List Text
  | 0, symbols => symbols
  | fuel + 1, symbols =>
      if symbols.length ≤ 1 then symbols
      else
        match scanPairs ranks symbols 0 (2 ^ 31 - 1) none with
        | none => symbols
        | some best => mergeLoop ranks fuel (mergeAt symbols best)

/-- `bpe_split`. -/
def bpeSplit (word : Text) (ranks : TextMap Int) : List Text :=
  let symbols := initialSymbols word.length word
  mergeLoop ranks symbols.length symbols

end InferenceEngine
