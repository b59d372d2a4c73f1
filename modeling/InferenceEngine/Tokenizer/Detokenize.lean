/-
Detokenization, incremental and in one piece: `tokenizer/detokenize.cpp` and
`Tokenizer::decode`, with the functions of `tokenizer/unicode.cpp` they are built from.

A text is the list of its bytes.  A tokenizer is what a stream asks of one: the bytes of an
id, and whether the id is a special token.
-/
import InferenceEngine.Core.Status
import Mathlib.Data.UInt

namespace InferenceEngine

/-- A `std::string`. -/
abbrev Text := List UInt8

/-- `tokenizer::Tokenizer`, as far as a stream reads it. -/
structure Tokenizer where
  /-- `token_bytes(id)`; `none` for an id out of range. -/
  tokenBytes : Int → Option Text
  /-- `is_special(id)`. -/
  isSpecial : Int → Bool
  /-- `vocab_size()`, for the message. -/
  vocabSize : Int

/-- `Utf8Prefix`. -/
inductive Utf8Prefix where
  | complete
  | incomplete
  | invalid
deriving DecidableEq, Repr

/-- `Utf8Classification`. -/
structure Utf8Classification where
  kind : Utf8Prefix
  length : Nat
deriving DecidableEq, Repr

/-- What the lead byte says: the length of the sequence and the range of its second byte, or
`none` for a byte that starts no sequence of two or more. -/
def utf8Lead (lead : UInt8) : Option (Nat × UInt8 × UInt8) :=
  if lead ≥ 0xC2 && lead ≤ 0xDF then some (2, 0x80, 0xBF)
  else if lead ≥ 0xE0 && lead ≤ 0xEF then
    if lead = 0xE0 then some (3, 0xA0, 0xBF)
    else if lead = 0xED then some (3, 0x80, 0x9F)
    else some (3, 0x80, 0xBF)
  else if lead ≥ 0xF0 && lead ≤ 0xF4 then
    if lead = 0xF0 then some (4, 0x90, 0xBF)
    else if lead = 0xF4 then some (4, 0x80, 0x8F)
    else some (4, 0x80, 0xBF)
  else none

/-- The loop over the continuation bytes, with `i` of `length` bytes accepted. -/
def utf8Continue (length : Nat) (secondLo secondHi : UInt8) (size : Nat) :
    (i : Nat) → Text → Utf8Classification
  | i, rest =>
    if i < length then
      match rest with
      | [] => ⟨.incomplete, size⟩
      | cont :: rest =>
          let lo := if i = 1 then secondLo else 0x80
          let hi := if i = 1 then secondHi else 0xBF
          if cont < lo || hi < cont then ⟨.invalid, i⟩
          else utf8Continue length secondLo secondHi size (i + 1) rest
    else ⟨.complete, length⟩
  termination_by structural _ rest => rest

/-- `classify_utf8_prefix`; `bytes` is not empty. -/
def classifyUtf8Prefix (bytes : Text) : Utf8Classification :=
  match bytes with
  | [] => ⟨.incomplete, 0⟩
  | lead :: rest =>
      if lead < 0x80 then ⟨.complete, 1⟩
      else
        match utf8Lead lead with
        | none => ⟨.invalid, 1⟩
        | some (length, secondLo, secondHi) =>
            utf8Continue length secondLo secondHi bytes.length 1 rest

/-- `append_utf8(out, 0xFFFD)` appends these bytes. -/
def replacementCharacter : Text := [0xEF, 0xBF, 0xBD]

/-- The loop of `append_utf8_lossy`.  Every turn consumes a byte, so the length of the text
bounds the turns. -/
def lossyLoop : (fuel : Nat) → (bytes out : Text) → Text
  | 0, _, out => out
  | fuel + 1, bytes, out =>
      if bytes.isEmpty then out
      else
        let part := classifyUtf8Prefix bytes
        let piece := if part.kind = .complete then bytes.take part.length else replacementCharacter
        lossyLoop fuel (bytes.drop part.length) (out ++ piece)

/-- `append_utf8_lossy`. -/
def appendUtf8Lossy (out bytes : Text) : Text := lossyLoop bytes.length bytes out

namespace Tokenizer

/-- The loop of `decode`, with `i` ids done. -/
def decodeBytes (t : Tokenizer) (skipSpecialTokens : Bool) :
    (i : Nat) → List Int → Text → StatusOr Text
  | _, [], bytes => .ok bytes
  | i, id :: ids, bytes =>
      match t.tokenBytes id with
      | none => .error (invalidArgumentError
          s!"id {id} (at position {i}) is out of range [0, {t.vocabSize})")
      | some token =>
          if skipSpecialTokens && t.isSpecial id then
            t.decodeBytes skipSpecialTokens (i + 1) ids bytes
          else t.decodeBytes skipSpecialTokens (i + 1) ids (bytes ++ token)

/-- `Tokenizer::decode`. -/
def decode (t : Tokenizer) (ids : List Int) (skipSpecialTokens : Bool) : StatusOr Text := do
  let bytes ← t.decodeBytes skipSpecialTokens 0 ids []
  pure (appendUtf8Lossy [] bytes)

end Tokenizer

/-- `tokenizer::DetokenizerStream`. -/
structure DetokenizerStream where
  tokenizer : Tokenizer
  skipSpecialTokens : Bool
  pending : Text

namespace DetokenizerStream

/-- A stream that has seen nothing. -/
def new (tokenizer : Tokenizer) (skipSpecialTokens : Bool) : DetokenizerStream :=
  ⟨tokenizer, skipSpecialTokens, []⟩

/-- The draining loop of `push`: what is emitted, and what stays pending.  Every turn but the
last consumes a byte, so the length of the text bounds the turns. -/
def drain : (fuel : Nat) → (pending out : Text) → Text × Text
  | 0, pending, out => (out, pending)
  | fuel + 1, pending, out =>
      if pending.isEmpty then (out, pending)
      else
        let part := classifyUtf8Prefix pending
        match part.kind with
        | .incomplete => (out, pending)
        | .complete => drain fuel (pending.drop part.length) (out ++ pending.take part.length)
        | .invalid => drain fuel (pending.drop part.length) (out ++ replacementCharacter)

/-- `DetokenizerStream::push`. -/
def push (d : DetokenizerStream) (id : Int) : StatusOr Text × DetokenizerStream :=
  match d.tokenizer.tokenBytes id with
  | none => (.error (invalidArgumentError
      s!"id {id} is out of range [0, {d.tokenizer.vocabSize})"), d)
  | some token =>
      if d.skipSpecialTokens && d.tokenizer.isSpecial id then (.ok [], d)
      else
        let pending := d.pending ++ token
        let (out, pending) := drain pending.length pending []
        (.ok out, { d with pending := pending })

/-- `DetokenizerStream::finish`. -/
def finish (d : DetokenizerStream) : Text × DetokenizerStream :=
  if d.pending.isEmpty then ([], d) else (replacementCharacter, { d with pending := [] })

/-- What pushing some ids one after the other returns, and the stream it leaves. -/
def pushAll (d : DetokenizerStream) : List Int → List (StatusOr Text) × DetokenizerStream
  | [] => ([], d)
  | id :: ids =>
      let (out, d) := d.push id
      let (outs, d) := d.pushAll ids
      (out :: outs, d)

end DetokenizerStream

end InferenceEngine
