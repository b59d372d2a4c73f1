/-
Codepoints and their bytes: `tokenizer/unicode.cpp`.

A codepoint is a number; the decoder is lenient and makes numbers up to `0x1FFFFF`.  The
category tables are generated from the Unicode data and are a parameter here.
-/
import InferenceEngine.Tokenizer.Detokenize

namespace InferenceEngine

/-- `is_letter`, `is_number` and `is_whitespace`. -/
structure UnicodeTables where
  isLetter : Nat → Bool
  isNumber : Nat → Bool
  isWhitespace : Nat → Bool

/-- The bytes `append_utf8` appends. -/
def utf8Bytes (codepoint : Nat) : Text :=
  if codepoint < 0x80 then [UInt8.ofNat codepoint]
  else if codepoint < 0x800 then
    [UInt8.ofNat (0xC0 ||| (codepoint >>> 6)), UInt8.ofNat (0x80 ||| (codepoint &&& 0x3F))]
  else if codepoint < 0x10000 then
    [UInt8.ofNat (0xE0 ||| (codepoint >>> 12)),
      UInt8.ofNat (0x80 ||| ((codepoint >>> 6) &&& 0x3F)),
      UInt8.ofNat (0x80 ||| (codepoint &&& 0x3F))]
  else
    [UInt8.ofNat (0xF0 ||| (codepoint >>> 18)),
      UInt8.ofNat (0x80 ||| ((codepoint >>> 12) &&& 0x3F)),
      UInt8.ofNat (0x80 ||| ((codepoint >>> 6) &&& 0x3F)),
      UInt8.ofNat (0x80 ||| (codepoint &&& 0x3F))]

/-- What the lead byte says: the length of the sequence and the first bits of the codepoint. -/
def decodeLead (lead : UInt8) : Option (Nat × Nat) :=
  if lead < 0x80 then some (1, lead.toNat)
  else if lead &&& 0xE0 = 0xC0 then some (2, (lead &&& 0x1F).toNat)
  else if lead &&& 0xF0 = 0xE0 then some (3, (lead &&& 0x0F).toNat)
  else if lead &&& 0xF8 = 0xF0 then some (4, (lead &&& 0x07).toNat)
  else none

/-- The loop over the continuation bytes, with so many to go. -/
def decodeContinue : (left : Nat) → (codepoint : Nat) → Text → Option Nat
  | 0, codepoint, _ => some codepoint
  | _ + 1, _, [] => none
  | left + 1, codepoint, cont :: rest =>
      if cont &&& 0xC0 ≠ 0x80 then none
      else decodeContinue left ((codepoint <<< 6) ||| (cont &&& 0x3F).toNat) rest

/-- `decode_utf8` at the text from `pos`: the codepoint, and by how much `pos` advances. -/
def decodeUtf8 (bytes : Text) : Option (Nat × Nat) :=
  match bytes with
  | [] => none
  | lead :: rest =>
      match decodeLead lead with
      | none => none
      | some (length, codepoint) =>
          if bytes.length < length then none
          else (decodeContinue (length - 1) codepoint rest).map fun c => (c, length)

end InferenceEngine
