/-
The rest of `Tokenizer::from_json`: the pipeline sections, and the tokenizer they configure.
-/
import InferenceEngine.Tokenizer.FromJson

namespace InferenceEngine

/-! ### Components

The stages that come as trees of `Sequence` nodes are taken as lists of leaves. -/

mutual

/-- `FlattenComponents`: the leaves of the `Sequence` nodes. -/
def flattenComponents (label listKey : String) (node : Json) : StatusOr (List Json) :=
  match node with
  | .object fields => do
      let type ← componentType (.object fields) label
      if type ≠ ascii "Sequence" then pure [.object fields]
      else flattenSequence label listKey fields
  | other => .error (wrongType label other "an object")
termination_by structural node

/-- The list of a `Sequence`, looked for among its fields. -/
def flattenSequence (label listKey : String) :
    (fields : List (Text × Json)) → StatusOr (List Json)
  | [] => .error (missingField (label ++ "." ++ listKey))
  | (key, value) :: fields =>
      if key = ascii listKey then
        match value with
        | .array children => flattenChildren label listKey children
        | _ => .error (missingField (label ++ "." ++ listKey))
      else flattenSequence label listKey fields
termination_by structural fields => fields

/-- The children of a `Sequence`. -/
def flattenChildren (label listKey : String) : (children : List Json) → StatusOr (List Json)
  | [] => .ok []
  | child :: children => do
      let parts ← flattenComponents label listKey child
      let rest ← flattenChildren label listKey children
      pure (parts ++ rest)
termination_by structural children => children

end

/-! ### The pre-tokenizer

Only a `Split` in front of a `ByteLevel` is accepted, with the options that the splitter has
been written for. -/

/-- `ParseSplit`. -/
def parseSplit (node : Json) : StatusOr Text :=
  match node.find "pattern" with
  | some (.object fields) =>
      match (Json.object fields).find "Regex" with
      | none => .error (unimplementedError
          "pre_tokenizer Split.pattern must be a Regex (String patterns are not supported)")
      | some regex => do
          let pattern ← stringValue regex "pre_tokenizer Split.pattern.Regex"
          match node.find "behavior" with
          | none => .error (missingField "pre_tokenizer Split.behavior")
          | some behaviorValue =>
              let behavior ← stringValue behaviorValue "pre_tokenizer Split.behavior"
              if behavior ≠ ascii "Isolated" then
                .error (unimplementedError
                  ("pre_tokenizer Split.behavior \"" ++ behavior.show ++
                    "\" is not supported; supported: Isolated"))
              else
                let invert ← optionalBool node "invert" "pre_tokenizer Split.invert" false
                if invert then
                  .error (unimplementedError "pre_tokenizer Split.invert: true is not supported")
                else pure pattern
  | _ => .error (missingField "pre_tokenizer Split.pattern")

/-- `ParseByteLevelPre`; both flags default to what is rejected. -/
def parseByteLevelPre (node : Json) : StatusOr Unit := do
  let addPrefixSpace ← optionalBool node "add_prefix_space"
    "pre_tokenizer ByteLevel.add_prefix_space" true
  if addPrefixSpace then
    .error (unimplementedError
      "pre_tokenizer ByteLevel.add_prefix_space: true is not supported")
  else
    let useRegex ← optionalBool node "use_regex" "pre_tokenizer ByteLevel.use_regex" true
    if useRegex then
      .error (unimplementedError "pre_tokenizer ByteLevel.use_regex: true is not supported")
    else pure ()

/-- The lambda `part_type`. -/
def partType (part : Json) : Text :=
  match part.find "type" with
  | some (.string type) => type
  | _ => ascii "?"

/-- `ParsePreTokenizer`. -/
def parsePreTokenizer (root : Json) : StatusOr Text :=
  let missing := unimplementedError
    ("tokenizer has no pre_tokenizer; only Split + ByteLevel pre-tokenization is supported " ++
      "(design §6.2)")
  match root.find "pre_tokenizer" with
  | none => .error missing
  | some .null => .error missing
  | some node => do
      let parts ← flattenComponents "pre_tokenizer" "pretokenizers" node
      match parts with
      | [split, byteLevel] =>
          if partType split = ascii "Split" ∧ partType byteLevel = ascii "ByteLevel" then
            let pattern ← parseSplit split
            parseByteLevelPre byteLevel
            pure pattern
          else .error (unexpectedParts parts)
      | _ => .error (unexpectedParts parts)
where
  unexpectedParts (parts : List Json) : Status :=
    unimplementedError
      ("pre_tokenizer must be a Split followed by a ByteLevel; found [" ++
        String.intercalate ", " (parts.map fun part => (partType part).show) ++ "] (design §6.2)")

/-! ### The post-processor and the decoder

What the post-processor inserts is resolved to ids here.  A decoder may only be the byte-level
one. -/

/-- `TemplateInserts`. -/
structure TemplateInserts where
  before : List Int
  after : List Int

/-- `ResolveSpecialToken`: the id to insert. -/
def resolveSpecialToken (value tp : Json) (vocabSize : Int) : StatusOr Int :=
  match value with
  | .object _ =>
      match value.find "id" with
      | none => .error (missingField "TemplateProcessing SpecialToken.id")
      | some nameValue => do
          let name ← stringValue nameValue "TemplateProcessing SpecialToken.id"
          let absent := invalidArgumentError
            ("TemplateProcessing special token \"" ++ name.show ++
              "\" is missing from special_tokens")
          match tp.find "special_tokens" with
          | some (.object map) =>
              match (map.find? fun f => f.1 = name).map Prod.snd with
              | none => .error absent
              | some entry =>
                  match entry.find "ids" with
                  | some (.array [idValue]) =>
                      let id ← intValue idValue
                        ("TemplateProcessing special_tokens[\"" ++ name.show ++ "\"].ids[0]")
                      if id < 0 ∨ vocabSize ≤ id then
                        .error (invalidArgumentError
                          ("TemplateProcessing special token \"" ++ name.show ++
                            s!"\" id {id} is outside the vocab (size {vocabSize})"))
                      else pure id
                  | some (.array ids) => .error (unimplementedError
                      ("TemplateProcessing special token \"" ++ name.show ++
                        s!"\" expands to {ids.length} ids; only single-id insertions are " ++
                        "supported"))
                  | _ => .error (invalidArgumentError
                      ("TemplateProcessing special_tokens[\"" ++ name.show ++
                        "\"] has no \"ids\" array"))
          | _ => .error absent
  | _ => .error (wrongType "TemplateProcessing SpecialToken" value "an object")

/-- The loop of `ParseTemplate` over the entries of `single`. -/
def templateLoop (tp : Json) (vocabSize : Int) :
    (entries : List Json) → (seenSequence : Bool) → TemplateInserts → StatusOr TemplateInserts
  | [], seenSequence, inserts =>
      if seenSequence then .ok inserts
      else .error (invalidArgumentError
        "TemplateProcessing.single must contain exactly one Sequence")
  | .object [(kind, value)] :: entries, seenSequence, inserts =>
      if kind = ascii "Sequence" then
        if seenSequence then
          .error (invalidArgumentError
            "TemplateProcessing.single must contain exactly one Sequence")
        else
          match value.find "id" with
          | some (.string name) =>
              if name = ascii "A" then templateLoop tp vocabSize entries true inserts
              else .error (invalidArgumentError
                "TemplateProcessing.single Sequence must reference \"A\"")
          | _ => .error (invalidArgumentError
              "TemplateProcessing.single Sequence must reference \"A\"")
      else if kind = ascii "SpecialToken" then do
        let id ← resolveSpecialToken value tp vocabSize
        templateLoop tp vocabSize entries seenSequence
          (if seenSequence then { inserts with after := inserts.after ++ [id] }
            else { inserts with before := inserts.before ++ [id] })
      else
        .error (unimplementedError
          ("TemplateProcessing.single entry type \"" ++ kind.show ++
            "\" is not supported; supported: SpecialToken, Sequence"))
  | entry :: _, _, _ =>
      .error (wrongType "TemplateProcessing.single entry" entry "a single-key object")

/-- `ParseTemplate`. -/
def parseTemplate (tp : Json) (vocabSize : Int) : StatusOr TemplateInserts :=
  match tp.find "single" with
  | some (.array entries) => templateLoop tp vocabSize entries false ⟨[], []⟩
  | _ => .error (missingField "TemplateProcessing.single")

/-- The loop of `ParsePostProcessor` that looks for the template. -/
def templateNode : (parts : List Json) → (found : Option Json) → StatusOr (Option Json)
  | [], found => .ok found
  | part :: parts, found => do
      let type ← componentType part "post_processor"
      if type = ascii "ByteLevel" then templateNode parts found
      else if type ≠ ascii "TemplateProcessing" then
        .error (unimplementedError
          ("post_processor type \"" ++ type.show ++ "\" is not supported; supported: " ++
            "ByteLevel, TemplateProcessing, Sequence (design §6.2)"))
      else if found.isSome then
        .error (unimplementedError
          "multiple TemplateProcessing post-processors are not supported")
      else templateNode parts (some part)

/-- `ParsePostProcessor`. -/
def parsePostProcessor (root : Json) (vocabSize : Int) : StatusOr TemplateInserts :=
  match root.find "post_processor" with
  | none => .ok ⟨[], []⟩
  | some .null => .ok ⟨[], []⟩
  | some node => do
      let parts ← flattenComponents "post_processor" "processors" node
      let template ← templateNode parts none
      match template with
      | none => pure ⟨[], []⟩
      | some tp => parseTemplate tp vocabSize

/-- The loop of `ParseDecoder`. -/
def decoderParts : (parts : List Json) → StatusOr Unit
  | [] => .ok ()
  | part :: parts => do
      let type ← componentType part "decoder"
      if type ≠ ascii "ByteLevel" then
        .error (unimplementedError
          ("decoder type \"" ++ type.show ++ "\" is not supported; supported: ByteLevel " ++
            "(design §6.2)"))
      else decoderParts parts

/-- `ParseDecoder`. -/
def parseDecoder (root : Json) : StatusOr Unit :=
  match root.find "decoder" with
  | none => .ok ()
  | some .null => .ok ()
  | some node => do
      let parts ← flattenComponents "decoder" "decoders" node
      decoderParts parts

/-- `RequireUnconfigured`. -/
def requireUnconfigured (root : Json) (key : String) : StatusOr Unit :=
  match root.find key with
  | none => .ok ()
  | some .null => .ok ()
  | some _ => .error (unimplementedError ("\"" ++ key ++ "\" is configured; not supported"))

/-! ### The tokenizer

The base vocab is turned into bytes, the added tokens are put behind it, and the match index is
built last. -/

/-- `tokenizer::Tokenizer`, with what `encode` reads. -/
structure BpeTokenizer where
  normalizeNfc : Bool
  splitSpec : SplitSpec
  ignoreMerges : Bool
  templatePrefix : List Int
  templateSuffix : List Int
  tokenToId : TextMap Int
  idToToken : List Text
  idToBytes : List Text
  mergeRanks : TextMap Int
  addedTokens : List AddedToken
  addedIndex : AList (fun _ : Int => Nat)
  addedBuckets : AList (fun _ : UInt8 => List Nat)

namespace BpeTokenizer

/-- The raw bytes of the base vocab. -/
def unmapVocab : (tokens : List Text) → (id : Nat) → StatusOr (List Text)
  | [], _ => .ok []
  | token :: tokens, id =>
      match unmapAlphabetToBytes token with
      | .error status => .error (invalidArgumentError
          ("model.vocab token \"" ++ token.show ++
            s!"\" (id {id}) is not a byte-level alphabet string: " ++ status.message))
      | .ok bytes => do
          let rest ← unmapVocab tokens (id + 1)
          pure (bytes :: rest)

/-- The id and the bytes of an added token; it annotates a base id or takes the next one. -/
def placeToken (t : BpeTokenizer) (baseSize : Nat) (token : AddedToken) : StatusOr BpeTokenizer :=
  let id := token.id.toNat
  if id < baseSize then
    if t.idToToken.getD id [] ≠ token.content then
      .error (invalidArgumentError
        ("added token \"" ++ token.content.show ++
          s!"\" (id {token.id}) collides with vocab token \"" ++
          (t.idToToken.getD id []).show ++ "\""))
    else .ok { t with idToBytes := t.idToBytes.set id token.content }
  else if id ≠ t.idToToken.length then
    .error (invalidArgumentError
      ("added token \"" ++ token.content.show ++
        s!"\" (id {token.id}) leaves a gap in the id space (next id is {t.idToToken.length})"))
  else
    .ok { t with
      idToToken := t.idToToken ++ [token.content]
      idToBytes := t.idToBytes ++ [token.content] }

/-- The loop over the added tokens, from the one at `i`. -/
def addTokens (baseSize : Nat) :
    (added : List AddedToken) → (i : Nat) → BpeTokenizer → StatusOr BpeTokenizer
  | [], _, t => .ok t
  | token :: added, i, t => do
      let t ← t.placeToken baseSize token
      let (tokenToId, existing, inserted) := emplace t.tokenToId token.content token.id
      if !inserted && existing != token.id then
        .error (invalidArgumentError
          ("added token \"" ++ token.content.show ++
            s!"\" (id {token.id}) duplicates vocab token with id {existing}"))
      else
        addTokens baseSize added (i + 1)
          { t with tokenToId := tokenToId, addedIndex := (emplace t.addedIndex token.id i).1 }

/-- The tokens by the first byte of their contents, in order of their indices. -/
def fillBuckets : (added : List AddedToken) → (i : Nat) → AList (fun _ : UInt8 => List Nat) →
    AList (fun _ : UInt8 => List Nat)
  | [], _, buckets => buckets
  | token :: added, i, buckets =>
      let byte := token.content.headD 0
      fillBuckets added (i + 1) (buckets.insert byte ((buckets.lookup byte).getD [] ++ [i]))

/-- A bucket with the longest content first.  Contents of one length cannot both match at a
place, so the order among them does not matter. -/
def sortBucket (added : List AddedToken) (indices : List Nat) : List Nat :=
  indices.mergeSort fun i j =>
    decide (((added[j]?).map fun t => t.content.length).getD 0
      ≤ ((added[i]?).map fun t => t.content.length).getD 0)

/-- The match index. -/
def buildBuckets (added : List AddedToken) : AList (fun _ : UInt8 => List Nat) :=
  let buckets := fillBuckets added 0 ∅
  buckets.keys.foldl
    (fun sorted byte => sorted.insert byte (sortBucket added ((buckets.lookup byte).getD []))) ∅

/-- `Tokenizer::from_json`; `none` is a document that is no JSON. -/
def fromJson (root : Option Json) : StatusOr BpeTokenizer :=
  match root with
  | none => .error (invalidArgumentError
      ("tokenizer file is not valid JSON — expected an HF tokenizer.json (a sentencepiece " ++
        ".model file is not supported, design §6.1)"))
  | some (.object fields) => do
      let root := Json.object fields
      requireUnconfigured root "truncation"
      requireUnconfigured root "padding"
      let model ← parseModel root
      let added ← parseAddedTokens root
      let idToBytes ← unmapVocab model.idToToken 0
      let t ← addTokens model.idToToken.length added 0
        { normalizeNfc := false, splitSpec := ⟨1⟩, ignoreMerges := model.ignoreMerges
          templatePrefix := [], templateSuffix := []
          tokenToId := model.tokenToId, idToToken := model.idToToken, idToBytes := idToBytes
          mergeRanks := model.mergeRanks, addedTokens := added
          addedIndex := ∅, addedBuckets := ∅ }
      let normalizeNfc ← parseNormalizer root
      let pattern ← parsePreTokenizer root
      let splitSpec ← selectSplitPattern pattern.show
      let inserts ← parsePostProcessor root t.idToToken.length
      parseDecoder root
      pure { t with
        normalizeNfc := normalizeNfc, splitSpec := splitSpec
        addedBuckets := buildBuckets added
        templatePrefix := inserts.before, templateSuffix := inserts.after }
  | some value => .error (invalidArgumentError
      ("tokenizer.json must be a JSON object, got " ++ value.typeName))

/-- `token_bytes`. -/
def tokenBytes (t : BpeTokenizer) (id : Int) : Option Text :=
  if id < 0 ∨ t.idToBytes.length ≤ id then none else t.idToBytes[id.toNat]?

/-- `is_special`. -/
def isSpecial (t : BpeTokenizer) (id : Int) : Bool :=
  match t.addedIndex.lookup id with
  | none => false
  | some i => (t.addedTokens[i]?).any fun token => token.special

/-- What a decoder asks of the tokenizer. -/
def toTokenizer (t : BpeTokenizer) : Tokenizer where
  tokenBytes := t.tokenBytes
  isSpecial := t.isSpecial
  vocabSize := t.idToToken.length

end BpeTokenizer

end InferenceEngine
