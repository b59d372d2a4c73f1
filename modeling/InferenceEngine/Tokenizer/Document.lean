/-
What a `tokenizer.json` says about the tables, and when what it says makes sense.

`Json.Says` reads the tables off a document and checks nothing.  `Document.Agrees` is what the
three sources of the tables owe each other: the vocab, the merges and the added tokens.
`BpeTokenizer.Records` is what the tables of a tokenizer say of a document.
-/
import InferenceEngine.Tokenizer.Load

namespace InferenceEngine

/-! ### Objects

A parsed object has its members by key, so no key is there twice. -/

mutual

/-- No object in the value has a key twice, as the parser guarantees. -/
def Json.distinctKeys : Json → Bool
  | .array items => distinctKeysAll items
  | .object fields => decide (fields.map Prod.fst).Nodup && distinctKeysFields fields
  | _ => true
termination_by structural j => j

/-- The same of some items. -/
def distinctKeysAll : (items : List Json) → Bool
  | [] => true
  | item :: items => item.distinctKeys && distinctKeysAll items
termination_by structural items => items

/-- The same of the values of some members. -/
def distinctKeysFields : (fields : List (Text × Json)) → Bool
  | [] => true
  | (_, value) :: fields => value.distinctKeys && distinctKeysFields fields
termination_by structural fields => fields

end

/-! ### What a document says

Relations between a document and the tables it describes, in the order of its sections.  What is
optional is absent or says something. -/

/-- The tables of a document. -/
structure Document where
  /-- The tokens of the vocab and their ids. -/
  vocab : List (Text × Int)
  /-- The two sides of each merge. -/
  merges : List (Text × Text)
  /-- The added tokens, in the order of the document. -/
  added : List AddedToken
  /-- The ids that the template inserts, those before the sequence first. -/
  special : List Int

/-- The merges from the one at `index`, in either serialization. -/
inductive SaysMerges : (index : Nat) → List Json → List (Text × Text) → Prop
  | nil {index : Nat} : SaysMerges index [] []
  | cons {index : Nat} {entry : Json} {entries : List Json} {left right : Text}
      {merges : List (Text × Text)} (h : mergeSides entry index = .ok (left, right))
      (hrest : SaysMerges (index + 1) entries merges) :
      SaysMerges index (entry :: entries) ((left, right) :: merges)

/-- The id that the special token `value` of a template stands for. -/
def SaysSpecial (tp value : Json) (id : Int) : Prop :=
  ∃ name map entry, value.find "id" = some (.string name) ∧
    tp.find "special_tokens" = some (.object map) ∧
    (map.find? fun f => f.1 = name).map Prod.snd = some entry ∧
    entry.find "ids" = some (.array [.integer id])

/-- The ids that the entries of a template insert. -/
inductive SaysSingle (tp : Json) : List Json → List Int → Prop
  | nil : SaysSingle tp [] []
  | sequence {value : Json} {entries : List Json} {ids : List Int}
      (hrest : SaysSingle tp entries ids) :
      SaysSingle tp (.object [(ascii "Sequence", value)] :: entries) ids
  | special {value : Json} {id : Int} {entries : List Json} {ids : List Int}
      (h : SaysSpecial tp value id) (hrest : SaysSingle tp entries ids) :
      SaysSingle tp (.object [(ascii "SpecialToken", value)] :: entries) (id :: ids)

/-- The parts of a post-processor that do something. -/
def templates (parts : List Json) : List Json :=
  parts.filter fun part => part.find "type" |>.all fun
    | .string type => type ≠ ascii "ByteLevel"
    | _ => true

/-- The ids that a post-processor inserts. -/
inductive SaysPostProcessor : Option Json → List Int → Prop
  | absent : SaysPostProcessor none []
  | null : SaysPostProcessor (some .null) []
  | plain {node : Json} {parts : List Json} (hnode : node.typeName = "object")
      (hparts : flattenComponents "post_processor" "processors" node = .ok parts)
      (h : templates parts = []) : SaysPostProcessor (some node) []
  | template {node tp : Json} {parts entries : List Json} {ids : List Int}
      (hnode : node.typeName = "object")
      (hparts : flattenComponents "post_processor" "processors" node = .ok parts)
      (h : templates parts = [tp]) (hsingle : tp.find "single" = some (.array entries))
      (hids : SaysSingle tp entries ids) : SaysPostProcessor (some node) ids

/-- The added tokens of a document, absent ones being none. -/
inductive SaysAdded : Option Json → List AddedToken → Prop
  | absent : SaysAdded none []
  | null : SaysAdded (some .null) []
  | entries {entries : List Json} {tokens : List AddedToken}
      (h : addedTokensLoop entries 0 = .ok tokens) : SaysAdded (some (.array entries)) tokens

/-- The tables of a document, as they stand there. -/
structure Json.Says (root : Json) (d : Document) : Prop where
  model : ∃ fields entries, root.find "model" = some (.object fields) ∧
    (Json.object fields).find "vocab"
      = some (.object (d.vocab.map fun p => (p.1, Json.integer p.2))) ∧
    (Json.object fields).find "merges" = some (.array entries) ∧ SaysMerges 0 entries d.merges
  added : SaysAdded (root.find "added_tokens") d.added
  special : SaysPostProcessor (root.find "post_processor") d.special

/-! ### When it makes sense

A document may say two things of one id, or leave an id without a token. -/

namespace Document

/-- The added tokens with ids past the vocab. -/
def extension (d : Document) (tokens : List AddedToken) : List AddedToken :=
  tokens.filter fun token => d.vocab.length ≤ token.id.toNat

/-- How many ids there are. -/
def size (d : Document) : Nat := d.vocab.length + (d.extension d.added).length

/-- The sources of the tables agree. -/
structure Agrees (d : Document) : Prop where
  /-- The ids of the vocab are `0 .. n - 1`, each of them once. -/
  vocabTokens : (d.vocab.map Prod.fst).Nodup
  vocabIds : (d.vocab.map Prod.snd).Perm ((List.range d.vocab.length).map Int.ofNat)
  /-- Every token of the vocab stands for some bytes. -/
  vocabBytes : ∀ p ∈ d.vocab, ∃ raw, unmapAlphabetToBytes p.1 = .ok raw
  /-- The parts and the product of a merge are tokens of the vocab; no merge is there twice. -/
  mergeParts : ∀ p ∈ d.merges, p.1 ∈ d.vocab.map Prod.fst ∧ p.2 ∈ d.vocab.map Prod.fst ∧
    p.1 ++ p.2 ∈ d.vocab.map Prod.fst
  mergesOnce : d.merges.Nodup
  /-- Added tokens have ids and contents of their own. -/
  addedIds : (d.added.map AddedToken.id).Nodup
  addedContents : (d.added.map AddedToken.content).Nodup
  addedRange : ∀ token ∈ d.added, 0 ≤ token.id ∧ token.content ≠ []
  /-- They repeat what the vocab says of an id or a content, if it says anything. -/
  addedVocab : ∀ token ∈ d.added, ∀ p ∈ d.vocab, token.id = p.2 ↔ token.content = p.1
  /-- Those past the vocab extend it without a gap. -/
  addedNext : ((d.extension d.added).map fun token => token.id.toNat).Perm
    (List.range' d.vocab.length (d.extension d.added).length)
  /-- The template inserts ids that there are. -/
  special : ∀ id ∈ d.special, 0 ≤ id ∧ id < d.size

end Document

/-! ### What the tables of a tokenizer say

The tokenizer keeps its tables by id, the document by content. -/

/-- The tables of a tokenizer are the tables of a document. -/
structure BpeTokenizer.Records (t : BpeTokenizer) (d : Document) : Prop where
  size : t.idToToken.length = d.size
  /-- The two directions are inverse to each other, on all ids. -/
  inverse : ∀ w id, t.tokenToId.lookup w = some id ↔ 0 ≤ id ∧ t.idToToken[id.toNat]? = some w
  vocab : ∀ p ∈ d.vocab, t.tokenToId.lookup p.1 = some p.2
  /-- The added tokens are in the order of their ids; those past the vocab follow it. -/
  added : t.addedTokens.Perm d.added
  addedSorted : (t.addedTokens.map AddedToken.id).Pairwise (· < ·)
  addedIds : ∀ token ∈ t.addedTokens, t.tokenToId.lookup token.content = some token.id
  extension : t.idToToken.drop d.vocab.length
    = (d.extension t.addedTokens).map AddedToken.content
  /-- Every id has bytes: an added token its content, another one what it stands for. -/
  bytes : ∀ id, (t.tokenBytes id).isSome ↔ 0 ≤ id ∧ id < t.idToToken.length
  addedBytes : ∀ token ∈ t.addedTokens, t.tokenBytes token.id = some token.content
  vocabBytes : ∀ p ∈ d.vocab, (∀ token ∈ t.addedTokens, token.id ≠ p.2) →
    ∃ raw, unmapAlphabetToBytes p.1 = .ok raw ∧ t.tokenBytes p.2 = some raw
  merges : ∀ key, t.mergeRanks.lookup key ≠ none ↔ ∃ p ∈ d.merges, key = mergeKey p.1 p.2
  mergeIds : ∀ p ∈ d.merges, p.1 ∈ t.tokenToId ∧ p.2 ∈ t.tokenToId ∧ p.1 ++ p.2 ∈ t.tokenToId
  template : t.templatePrefix ++ t.templateSuffix = d.special
  templateIds : ∀ id ∈ t.templatePrefix ++ t.templateSuffix, 0 ≤ id ∧ id < t.idToToken.length

end InferenceEngine
