/-
Encoding: `SplitOnAddedTokens` and `Tokenizer::encode` of `tokenizer/tokenizer.cpp`.

A position is a byte offset into the text of the call.  NFC comes from the Unicode data and is
a parameter next to the category tables.
-/
import InferenceEngine.Tokenizer.Load

namespace InferenceEngine

/-- `text.substr(pos, n)` -/
def substr (text : Text) (pos n : Nat) : Text := (text.drop pos).take n

/-- `AddedSplitPiece`; `id` is `-1` for a text. -/
structure AddedSplitPiece where
  text : Text
  id : Int
deriving DecidableEq, Repr

/-- The loop over the bytes of a codepoint in `StripWhitespaceBackward`. -/
def leadBackward (text : Text) (floor : Nat) : (lead : Nat) → Nat
  | 0 => 0
  | lead + 1 =>
      if floor < lead + 1 ∧ isContinuation (text.getD (lead + 1) 0) then
        leadBackward text floor lead
      else lead + 1

namespace UnicodeTables

variable (u : UnicodeTables)

/-- `StripWhitespaceBackward`; every turn moves `begin` back, which bounds the turns. -/
def stripWhitespaceBackward (text : Text) (floor : Nat) : (fuel : Nat) → (start : Nat) → Nat
  | 0, start => start
  | fuel + 1, start =>
      if floor < start then
        let lead := leadBackward text floor (start - 1)
        match decodeUtf8 (text.drop lead) with
        | some (codepoint, length) =>
            if lead + length = start ∧ u.isWhitespace codepoint then
              stripWhitespaceBackward text floor fuel lead
            else start
        | none => start
      else start

/-- `StripWhitespaceForward`; every turn moves `end` on, which bounds the turns. -/
def stripWhitespaceForward (text : Text) : (fuel : Nat) → (stop : Nat) → Nat
  | 0, stop => stop
  | fuel + 1, stop =>
      if stop < text.length then
        match decodeUtf8 (text.drop stop) with
        | some (codepoint, length) =>
            if u.isWhitespace codepoint then stripWhitespaceForward text fuel (stop + length)
            else stop
        | none => stop
      else stop

end UnicodeTables

/-- The first token of a bucket that matches at the text from `pos`. -/
def matchBucket (tokens : List AddedToken) (matchNormalized : Bool) (rest : Text) :
    (indices : List Nat) → Checked (Option AddedToken)
  | [] => .ok none
  | index :: indices => do
      let token ← readAt tokens index
      if token.normalized = matchNormalized ∧ token.content.isPrefixOf rest then
        pure (some token)
      else matchBucket tokens matchNormalized rest indices

/-- The loop of `SplitOnAddedTokens`.  Every turn moves `pos` on, so the length of the text
bounds the turns. -/
def splitOnLoop (u : UnicodeTables) (text : Text) (tokens : List AddedToken)
    (buckets : AList (fun _ : UInt8 => List Nat)) (matchNormalized : Bool) :
    (fuel : Nat) → (segmentStart pos : Nat) → List AddedSplitPiece →
      Checked (List AddedSplitPiece)
  | 0, _, _, _ => .error .outOfFuel
  | fuel + 1, segmentStart, pos, pieces =>
      if pos < text.length then
        match buckets.lookup (text.getD pos 0) with
        | none => splitOnLoop u text tokens buckets matchNormalized fuel segmentStart (pos + 1)
          pieces
        | some bucket => do
            let found ← matchBucket tokens matchNormalized (text.drop pos) bucket
            match found with
            | none =>
                splitOnLoop u text tokens buckets matchNormalized fuel segmentStart (pos + 1) pieces
            | some token =>
                let start :=
                  if token.lstrip then u.stripWhitespaceBackward text segmentStart pos pos else pos
                let stop := pos + token.content.length
                let stop :=
                  if token.rstrip then u.stripWhitespaceForward text text.length stop else stop
                let pieces :=
                  if segmentStart < start then
                    pieces ++ [⟨substr text segmentStart (start - segmentStart), -1⟩]
                  else pieces
                splitOnLoop u text tokens buckets matchNormalized fuel stop stop
                  (pieces ++ [⟨[], token.id⟩])
      else
        .ok (if segmentStart < text.length then pieces ++ [⟨text.drop segmentStart, -1⟩]
          else pieces)

/-- `SplitOnAddedTokens`. -/
def splitOnAddedTokens (u : UnicodeTables) (text : Text) (tokens : List AddedToken)
    (buckets : AList (fun _ : UInt8 => List Nat)) (matchNormalized : Bool) :
    Checked (List AddedSplitPiece) :=
  splitOnLoop u text tokens buckets matchNormalized (text.length + 1) 0 0 []

namespace BpeTokenizer

variable (u : UnicodeTables) (nfcNormalize : Text → Text) (t : BpeTokenizer)

/-- The ids of some symbols, behind `ids`. -/
def symbolIds : (symbols : List Text) → (ids : List Int) → StatusOr (List Int)
  | [], ids => .ok ids
  | symbol :: symbols, ids =>
      match t.tokenToId.lookup symbol with
      | none => .error (invalidArgumentError
          ("BPE symbol \"" ++ symbol.show ++ "\" is not in the vocab — the tokenizer is not a " ++
            "complete byte-level BPE model (every single-byte token must be present)"))
      | some id => symbolIds symbols (ids ++ [id])

/-- `append_pretoken_ids`. -/
def appendPretokenIds (pretokenBytes : Text) (ids : List Int) : StatusOr (List Int) :=
  let word := mapBytesToAlphabet pretokenBytes
  match (if t.ignoreMerges then t.tokenToId.lookup word else none) with
  | some whole => .ok (ids ++ [whole])
  | none => t.symbolIds (bpeSplit word t.mergeRanks) ids

/-- The pretokens of one piece. -/
def pretokenIds : (pretokens : List Text) → (ids : List Int) → StatusOr (List Int)
  | [], ids => .ok ids
  | pretoken :: pretokens, ids => do
      let ids ← t.appendPretokenIds pretoken ids
      pretokenIds pretokens ids

/-- The pieces of one segment; a piece with an id is that id. -/
def textPieces : (pieces : List AddedSplitPiece) → (ids : List Int) →
    Checked (StatusOr (List Int))
  | [], ids => .ok (.ok ids)
  | piece :: pieces, ids =>
      if 0 ≤ piece.id then textPieces pieces (ids ++ [piece.id])
      else do
        let pretokens ← u.pretokenize piece.text t.splitSpec
        match t.pretokenIds pretokens ids with
        | .error status => pure (.error status)
        | .ok ids => textPieces pieces ids

/-- `encode_text_segment`. -/
def encodeTextSegment (segment : Text) (ids : List Int) : Checked (StatusOr (List Int)) := do
  let normalized := if t.normalizeNfc then nfcNormalize segment else segment
  let pieces ← splitOnAddedTokens u normalized t.addedTokens t.addedBuckets true
  t.textPieces u pieces ids

/-- The end of a run of bytes that do not decode. -/
def invalidRunEnd (segment : Text) : (fuel : Nat) → (pos : Nat) → Nat
  | 0, pos => pos
  | fuel + 1, pos =>
      if pos < segment.length ∧ decodeUtf8 (segment.drop pos) = none then
        invalidRunEnd segment fuel (pos + 1)
      else pos

/-- The bytes of a segment from `validStart` to `pos`, which decode, encoded behind `ids`. -/
def encodeValidPart (segment : Text) (validStart pos : Nat) (ids : List Int) :
    Checked (StatusOr (List Int)) :=
  if validStart < pos then
    t.encodeTextSegment u nfcNormalize (substr segment validStart (pos - validStart)) ids
  else .ok (.ok ids)

/-- The loop of `encode` over one segment, which isolates the runs that do not decode.  Every
turn moves `pos` on, so the length of the segment bounds the turns. -/
def segmentLoop (segment : Text) : (fuel : Nat) → (validStart pos : Nat) → (ids : List Int) →
    Checked (StatusOr (List Int))
  | 0, _, _, _ => .error .outOfFuel
  | fuel + 1, validStart, pos, ids =>
      if pos < segment.length then
        match decodeUtf8 (segment.drop pos) with
        | some (_, length) => segmentLoop segment fuel validStart (pos + length) ids
        | none => do
            let before ← t.encodeValidPart u nfcNormalize segment validStart pos ids
            match before with
            | .error status => pure (.error status)
            | .ok ids =>
                let runEnd := invalidRunEnd segment segment.length (pos + 1)
                match t.appendPretokenIds (substr segment pos (runEnd - pos)) ids with
                | .error status => pure (.error status)
                | .ok ids => segmentLoop segment fuel runEnd runEnd ids
      else if validStart < segment.length then
        t.encodeTextSegment u nfcNormalize (segment.drop validStart) ids
      else .ok (.ok ids)

/-- The loop of `encode` over the pieces of the raw text. -/
def rawPieces : (pieces : List AddedSplitPiece) → (ids : List Int) → Checked (StatusOr (List Int))
  | [], ids => .ok (.ok ids)
  | piece :: pieces, ids =>
      if 0 ≤ piece.id then rawPieces pieces (ids ++ [piece.id])
      else do
        let encoded ← t.segmentLoop u nfcNormalize piece.text (piece.text.length + 1) 0 0 ids
        match encoded with
        | .error status => pure (.error status)
        | .ok ids => rawPieces pieces ids

/-- `Tokenizer::encode`. -/
def encode (text : Text) (addSpecialTokens : Bool) : Checked (StatusOr (List Int)) := do
  let ids := if addSpecialTokens then t.templatePrefix else []
  let pieces ← splitOnAddedTokens u text t.addedTokens t.addedBuckets false
  let encoded ← t.rawPieces u nfcNormalize pieces ids
  match encoded with
  | .error status => pure (.error status)
  | .ok ids => pure (.ok (if addSpecialTokens then ids ++ t.templateSuffix else ids))

end BpeTokenizer

end InferenceEngine
