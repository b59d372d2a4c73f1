/-
Loading a tokenizer: `Tokenizer::from_json` of `tokenizer/tokenizer.cpp`.

The sections of the document are read in the order of the code, each by the function that
has its name there.  A text inside a message is written byte by byte.
-/
import InferenceEngine.Tokenizer.Json
import InferenceEngine.Tokenizer.Pretokenize

namespace InferenceEngine

/-- `std::numeric_limits<std::int32_t>::max()` -/
def int32Max : Int := 2 ^ 31 - 1

/-! ### The model section

The vocab comes first, since the sides of a merge are looked up in it. -/

/-- `ModelData`. -/
structure ModelData where
  tokenToId : TextMap Int
  idToToken : List Text
  mergeRanks : TextMap Int
  ignoreMerges : Bool

/-- `ParseModelFlags`. -/
def parseModelFlags (model : Json) (data : ModelData) : StatusOr ModelData := do
  requireAbsentOrNull model "dropout" "model.dropout" "BPE dropout is not supported"
  requireAbsentOrNull model "unk_token" "model.unk_token"
    "byte-level BPE has no unknown-token path (design §6.1)"
  requireAbsentOrEmpty model "continuing_subword_prefix" "model.continuing_subword_prefix"
  requireAbsentOrEmpty model "end_of_word_suffix" "model.end_of_word_suffix"
  requireAbsentOrFalse model "fuse_unk" "model.fuse_unk"
  requireAbsentOrFalse model "byte_fallback" "model.byte_fallback"
  let ignoreMerges ← optionalBool model "ignore_merges" "model.ignore_merges" data.ignoreMerges
  pure { data with ignoreMerges := ignoreMerges }

/-- The loop of `ParseVocab`. -/
def vocabLoop (vocabCount : Nat) :
    (items : List (Text × Json)) → (seen : List Bool) → ModelData → StatusOr ModelData
  | [], _, data => .ok data
  | (token, idValue) :: items, seen, data => do
      let id ← intValue idValue "model.vocab"
      if id < 0 ∨ vocabCount ≤ id then
        .error (invalidArgumentError
          (s!"model.vocab id {id} (token \"" ++ token.show ++
            s!"\") is outside the contiguous range [0, {vocabCount})"))
      else if seen.getD id.toNat false then
        .error (invalidArgumentError s!"model.vocab id {id} is assigned to more than one token")
      else
        vocabLoop vocabCount items (seen.set id.toNat true)
          { data with
            idToToken := data.idToToken.set id.toNat token
            tokenToId := (emplace data.tokenToId token id).1 }

/-- `ParseVocab`. -/
def parseVocab (model : Json) (data : ModelData) : StatusOr ModelData :=
  match model.find "vocab" with
  | none => .error (missingField "model.vocab")
  | some (.object items) =>
      if int32Max < items.length then
        .error (invalidArgumentError
          s!"model.vocab has {items.length} entries; ids must fit in int32")
      else
        vocabLoop items.length items (List.replicate items.length false)
          { data with idToToken := List.replicate items.length [] }
  | some value => .error (wrongType "model.vocab" value "an object")

/-- The two sides of a merge, in either serialization. -/
def mergeSides (entry : Json) (index : Nat) : StatusOr (Text × Text) :=
  match entry with
  | .string text =>
      let left := text.takeWhile (· != 0x20)
      let right := text.drop (left.length + 1)
      if left.length = text.length ∨ left = [] ∨ right = [] ∨ right.contains 0x20 then
        .error (invalidArgumentError
          (s!"model.merges[{index}] (\"" ++ text.show ++
            "\") must be \"left right\" with exactly one space"))
      else .ok (left, right)
  | .array [first, second] => do
      let left ← stringValue first "model.merges pair"
      let right ← stringValue second "model.merges pair"
      pure (left, right)
  | _ => .error (wrongType s!"model.merges[{index}]" entry
      "a \"left right\" string or a two-string array")

/-- The check that both sides of a merge are in the vocab. -/
def requireInVocab (tokenToId : TextMap Int) (index : Nat) : (parts : List Text) → StatusOr Unit
  | [] => .ok ()
  | part :: parts =>
      if part ∈ tokenToId then requireInVocab tokenToId index parts
      else
        .error (invalidArgumentError
          (s!"model.merges[{index}] references \"" ++ part.show ++ "\", which is not in the vocab"))

/-- The loop of `ParseMerges`. -/
def mergesLoop : (entries : List Json) → (index : Nat) → ModelData → StatusOr ModelData
  | [], _, data => .ok data
  | entry :: entries, index, data => do
      let (left, right) ← mergeSides entry index
      requireInVocab data.tokenToId index [left, right]
      if left ++ right ∉ data.tokenToId then
        .error (invalidArgumentError
          (s!"model.merges[{index}] product \"" ++ Text.show (left ++ right) ++
            "\" is not in the vocab"))
      else
        let (mergeRanks, _, inserted) :=
          emplace data.mergeRanks (mergeKey left right) (toInt32 index)
        if !inserted then
          .error (invalidArgumentError s!"model.merges[{index}] duplicates an earlier merge")
        else mergesLoop entries (index + 1) { data with mergeRanks := mergeRanks }

/-- `ParseMerges`. -/
def parseMerges (model : Json) (data : ModelData) : StatusOr ModelData :=
  match model.find "merges" with
  | none => .error (missingField "model.merges")
  | some (.array entries) => mergesLoop entries 0 data
  | some value => .error (wrongType "model.merges" value "an array")

/-- `ParseModel`. -/
def parseModel (root : Json) : StatusOr ModelData :=
  match root.find "model" with
  | none => .error (missingField "model")
  | some .null => .error (missingField "model")
  | some (.object fields) => do
      let model := Json.object fields
      let type ← componentType model "model"
      if type ≠ ascii "BPE" then
        .error (unimplementedError
          ("tokenizer model type \"" ++ type.show ++ "\" is not supported; only byte-level " ++
            "\"BPE\" is (sentencepiece/unigram tokenizers are out of scope, design §6.1)"))
      else
        let data ← parseModelFlags model ⟨∅, [], ∅, false⟩
        let data ← parseVocab model data
        parseMerges model data
  | some value => .error (wrongType "model" value "an object")

/-! ### Added tokens

The entries are sorted by id and then checked against one another. -/

/-- `AddedToken`. -/
structure AddedToken where
  id : Int
  content : Text
  special : Bool
  lstrip : Bool
  rstrip : Bool
  normalized : Bool
  singleWord : Bool
deriving DecidableEq, Repr

/-- `ParseAddedToken`. -/
def parseAddedToken (entry : Json) (index : Nat) : StatusOr AddedToken :=
  let label := s!"added_tokens[{index}]"
  match entry with
  | .object _ => do
      match entry.find "id" with
      | none => .error (missingField (label ++ ".id"))
      | some idValue =>
          let id ← intValue idValue (label ++ ".id")
          if id < 0 ∨ int32Max < id then
            .error (invalidArgumentError (label ++ s!".id {id} is out of range"))
          else
            match entry.find "content" with
            | none => .error (missingField (label ++ ".content"))
            | some contentValue =>
                let content ← stringValue contentValue (label ++ ".content")
                if content.isEmpty then
                  .error (invalidArgumentError (label ++ ".content is empty"))
                else
                  let special ← optionalBool entry "special" label false
                  let lstrip ← optionalBool entry "lstrip" label false
                  let rstrip ← optionalBool entry "rstrip" label false
                  let normalized ← optionalBool entry "normalized" label false
                  let singleWord ← optionalBool entry "single_word" label false
                  if singleWord then
                    .error (unimplementedError
                      ("added token \"" ++ content.show ++ "\" sets single_word: true, which " ++
                        "is not supported (design §6.2, §9)"))
                  else pure ⟨id, content, special, lstrip, rstrip, normalized, singleWord⟩
  | _ => .error (wrongType label entry "an object")

/-- The entries, one after the other. -/
def addedTokensLoop : (entries : List Json) → (index : Nat) → StatusOr (List AddedToken)
  | [], _ => .ok []
  | entry :: entries, index => do
      let token ← parseAddedToken entry index
      let tokens ← addedTokensLoop entries (index + 1)
      pure (token :: tokens)

/-- The check of the sorted tokens, against the one before and the contents so far. -/
def checkAddedTokens : (tokens : List AddedToken) → (previous : Option AddedToken) →
    (contents : List Text) → StatusOr Unit
  | [], _, _ => .ok ()
  | token :: tokens, previous, contents =>
      match previous.filter fun p => p.id == token.id with
      | some p => .error (invalidArgumentError
          (s!"added token id {token.id} is assigned to both \"" ++ p.content.show ++
            "\" and \"" ++ token.content.show ++ "\""))
      | none =>
          if contents.contains token.content then
            .error (invalidArgumentError
              ("added token content \"" ++ token.content.show ++ "\" appears more than once"))
          else checkAddedTokens tokens (some token) (token.content :: contents)

/-- `ParseAddedTokens`. -/
def parseAddedTokens (root : Json) : StatusOr (List AddedToken) :=
  match root.find "added_tokens" with
  | none => .ok []
  | some .null => .ok []
  | some (.array entries) => do
      let tokens ← addedTokensLoop entries 0
      let tokens := tokens.mergeSort fun a b => a.id ≤ b.id
      checkAddedTokens tokens none []
      pure tokens
  | some value => .error (wrongType "added_tokens" value "an array")

/-! ### The normalizer

A tree of `Sequence` nodes whose leaves may only be NFC; what is read off it is whether there is
one. -/

mutual

/-- `ParseNormalizerNode`. -/
def parseNormalizerNode (node : Json) : StatusOr Bool :=
  match node with
  | .object fields => do
      let type ← componentType (.object fields) "normalizer"
      if type = ascii "NFC" then pure true
      else if type = ascii "Sequence" then normalizerSequence fields
      else
        .error (unimplementedError
          ("normalizer type \"" ++ type.show ++ "\" is not supported; supported: NFC, " ++
            "Sequence (design §6.2)"))
  | other => .error (wrongType "normalizer" other "an object")
termination_by structural node

/-- The list of a `Sequence`, looked for among its fields. -/
def normalizerSequence : (fields : List (Text × Json)) → StatusOr Bool
  | [] => .error (missingField "normalizer.normalizers")
  | (key, value) :: fields =>
      if key = ascii "normalizers" then
        match value with
        | .array children => normalizerChildren children
        | _ => .error (missingField "normalizer.normalizers")
      else normalizerSequence fields
termination_by structural fields => fields

/-- The children of a `Sequence`. -/
def normalizerChildren : (children : List Json) → StatusOr Bool
  | [] => .ok false
  | child :: children => do
      let nfc ← parseNormalizerNode child
      let rest ← normalizerChildren children
      pure (nfc || rest)
termination_by structural children => children

end

/-- `ParseNormalizer`. -/
def parseNormalizer (root : Json) : StatusOr Bool :=
  match root.find "normalizer" with
  | none => .ok false
  | some .null => .ok false
  | some node => parseNormalizerNode node

end InferenceEngine
