/-
JSON values and the field accessors of `tokenizer/tokenizer.cpp`.

The parser is the library's; a document is the value it returns.  The keys of an object are
distinct, and a number that is no integer is only known to be one.
-/
import InferenceEngine.Tokenizer.Bpe

namespace InferenceEngine

/-- `nlohmann::json`. -/
inductive Json where
  | null
  | bool (b : Bool)
  | integer (n : Int)
  | float
  | string (s : Text)
  | array (items : List Json)
  | object (fields : List (Text × Json))

namespace Json

/-- `type_name`. -/
def typeName : Json → String
  | null => "null"
  | bool _ => "boolean"
  | integer _ => "number"
  | float => "number"
  | string _ => "string"
  | array _ => "array"
  | object _ => "object"

/-- `find`; there is no field in a value that is no object. -/
def find (j : Json) (key : String) : Option Json :=
  match j with
  | object fields => (fields.find? fun f => f.1 = ascii key).map Prod.snd
  | _ => none

end Json

/-- `MissingField`. -/
def missingField (field : String) : Status :=
  invalidArgumentError ("missing required field \"" ++ field ++ "\"")

/-- `WrongType`. -/
def wrongType (field : String) (value : Json) (want : String) : Status :=
  invalidArgumentError
    ("field \"" ++ field ++ "\" must be " ++ want ++ ", got " ++ value.typeName)

/-- `IntValue`. -/
def intValue (value : Json) (field : String) : StatusOr Int :=
  match value with
  | .integer n =>
      if 2 ^ 63 ≤ n then
        .error (invalidArgumentError ("field \"" ++ field ++ "\" is out of range"))
      else .ok n
  | _ => .error (wrongType field value "an integer")

/-- `StringValue`. -/
def stringValue (value : Json) (field : String) : StatusOr Text :=
  match value with
  | .string s => .ok s
  | _ => .error (wrongType field value "a string")

/-- `OptionalBool`: the value, or `out` as it was. -/
def optionalBool (obj : Json) (key label : String) (out : Bool) : StatusOr Bool :=
  match obj.find key with
  | none => .ok out
  | some (.bool b) => .ok b
  | some value => .error (wrongType label value "a boolean")

/-- `RequireAbsentOrNull`. -/
def requireAbsentOrNull (obj : Json) (key label because : String) : StatusOr Unit :=
  match obj.find key with
  | none => .ok ()
  | some .null => .ok ()
  | some _ => .error (unimplementedError ("\"" ++ label ++ "\" is set; " ++ because))

/-- `RequireAbsentOrEmpty`. -/
def requireAbsentOrEmpty (obj : Json) (key label : String) : StatusOr Unit :=
  match obj.find key with
  | none => .ok ()
  | some .null => .ok ()
  | some (.string []) => .ok ()
  | some _ => .error (unimplementedError
      ("\"" ++ label ++ "\" is set; subword affixes do not exist in byte-level BPE"))

/-- `RequireAbsentOrFalse`. -/
def requireAbsentOrFalse (obj : Json) (key label : String) : StatusOr Unit :=
  match obj.find key with
  | none => .ok ()
  | some (.bool false) => .ok ()
  | some (.bool true) =>
      .error (unimplementedError ("\"" ++ label ++ "\": true is not supported"))
  | some value => .error (wrongType label value "a boolean")

/-- `ComponentType`. -/
def componentType (node : Json) (label : String) : StatusOr Text :=
  match node with
  | .object _ =>
      match node.find "type" with
      | none => .error (missingField (label ++ ".type"))
      | some value => stringValue value label
  | _ => .error (wrongType label node "an object")

end InferenceEngine
