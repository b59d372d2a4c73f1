/-
Safetensors files: `model/safetensors.h` and `safetensors.cpp`.

A file is its bytes and the mapping they are read through.  The JSON parser is the
library's.  Sums and differences of `std::uint64_t` and `size_t` are meant to be exact: the
model stops where one would wrap.  Names are kept in maps without the order `names()` lists
them in.
-/
import InferenceEngine.Tensor.View
import InferenceEngine.Tokenizer.Json

namespace InferenceEngine

namespace Safetensors

/-- `kMaxHeaderLen`. -/
def maxHeaderLen : Nat := 256 * 1024 * 1024

/-- `kSupported`. -/
def supported : List (String × DataType) :=
  [("F32", .float32), ("F16", .float16), ("BF16", .bfloat16), ("I8", .int8), ("U8", .uint8),
    ("I32", .int32), ("I64", .int64), ("BOOL", .bool), ("F8_E4M3", .fp8E4M3)]

/-- `kKnownUnsupported`. -/
def knownUnsupported : List String := ["F64", "I16", "U16", "U32", "U64", "F8_E5M2"]

/-- `ParseSafetensorsDtype`. -/
def parseSafetensorsDtype (name : Text) : StatusOr DataType :=
  match supported.find? fun mapping => name = ascii mapping.1 with
  | some mapping => .ok mapping.2
  | none =>
      if knownUnsupported.any fun known => name = ascii known then
        .error (unimplementedError
          ("safetensors dtype \"" ++ name.show ++ "\" is not supported by the engine"))
      else
        .error (invalidArgumentError ("unrecognized safetensors dtype \"" ++ name.show ++ "\""))

/-- How every message about one tensor begins. -/
def tensorLabel (name : Text) : String := "tensor \"" ++ name.show ++ "\": "

/-- One turn of the loop of `ParseShapeField`. -/
def parseDim (name : Text) : Json → StatusOr Int
  | .integer n =>
      if 2 ^ 63 - 1 < n then
        .error (invalidArgumentError (tensorLabel name ++ s!"\"shape\" dim {n} is out of range"))
      else .ok n
  | dim => .error (invalidArgumentError
      (tensorLabel name ++ "\"shape\" dims must be integers, got " ++ dim.typeName))

/-- `ParseShapeField`. -/
def parseShapeField (value : Json) (name : Text) : StatusOr Shape :=
  match value with
  | .array items => do
      let dims ← items.mapM (parseDim name)
      match Shape.fromDims dims with
      | .ok shape => .ok shape
      | .error status =>
          .error ⟨status.code, tensorLabel name ++ "invalid shape: " ++ status.message⟩
  | _ => .error (invalidArgumentError
      (tensorLabel name ++ "\"shape\" must be an array, got " ++ value.typeName))

/-- One turn of the loop of `ParseDataOffsets`; what is no unsigned integer is negative. -/
def parseOffset (name : Text) : Json → StatusOr Nat
  | .integer n =>
      if n < 0 then
        .error (invalidArgumentError
          (tensorLabel name ++ s!"\"data_offsets\" entry {n} is negative"))
      else .ok n.toNat
  | element => .error (invalidArgumentError
      (tensorLabel name ++ "\"data_offsets\" entries must be integers, got " ++ element.typeName))

/-- `ParseDataOffsets`. -/
def parseDataOffsets (value : Json) (name : Text) (dataSize : Nat) : StatusOr (Nat × Nat) :=
  match value with
  | .array [first, second] => do
      let begin ← parseOffset name first
      let end_ ← parseOffset name second
      if begin > end_ then
        .error (invalidArgumentError
          (tensorLabel name ++ s!"data_offsets begin {begin} exceeds end {end_}"))
      else if end_ > dataSize then
        .error (invalidArgumentError
          (tensorLabel name ++ (s!"data_offsets end {end_} exceeds the data section size " ++
                                s!"{dataSize}")))
      else .ok (begin, end_)
  | _ => .error (invalidArgumentError
      (tensorLabel name ++ "\"data_offsets\" must be a 2-element array"))

/-- The loop of `ParseMetadataBlock`. -/
def metadataLoop : List (Text × Json) → TextMap Text → StatusOr (TextMap Text)
  | [], metadata => .ok metadata
  | (key, .string s) :: fields, metadata => metadataLoop fields (emplace metadata key s).1
  | (key, entry) :: _, _ => .error (invalidArgumentError
      ("\"__metadata__\" value for key \"" ++ key.show ++ "\" must be a string, got " ++
        entry.typeName))

/-- `ParseMetadataBlock`. -/
def parseMetadataBlock (value : Json) : StatusOr (TextMap Text) :=
  match value with
  | .object fields => metadataLoop fields ∅
  | _ => .error (invalidArgumentError
      ("\"__metadata__\" must be a JSON object, got " ++ value.typeName))

/-- `RawEntry`. -/
structure RawEntry where
  dtype : DataType
  shape : Shape
  begin : Nat
  end_ : Nat

/-- The dtype of an entry. -/
def parseDtypeField (value : Json) (name : Text) : StatusOr DataType :=
  match value with
  | .string s =>
      match parseSafetensorsDtype s with
      | .ok dtype => .ok dtype
      | .error status => .error ⟨status.code, tensorLabel name ++ status.message⟩
  | _ => .error (invalidArgumentError
      (tensorLabel name ++ "\"dtype\" must be a string, got " ++ value.typeName))

/-- `value[required]`, for a key an entry must have. -/
def requiredField (name : Text) (value : Json) (required : String) : StatusOr Json :=
  match value.find required with
  | some field => .ok field
  | none => .error (invalidArgumentError
      (tensorLabel name ++ "entry is missing required key \"" ++ required ++ "\""))

/-- `ParseEntry`, up to the size identity. -/
def parseFields (name : Text) (value : Json) (dataSize : Nat) : StatusOr RawEntry :=
  match value with
  | .object fields =>
      match fields.find? fun f => ¬(f.1 = ascii "dtype" ∨ f.1 = ascii "shape" ∨
          f.1 = ascii "data_offsets") with
      | some f => .error (invalidArgumentError
          (tensorLabel name ++ "unexpected key \"" ++ f.1.show ++ "\" in entry"))
      | none => do
          let dtypeValue ← requiredField name value "dtype"
          let shapeValue ← requiredField name value "shape"
          let offsetsValue ← requiredField name value "data_offsets"
          let dtype ← parseDtypeField dtypeValue name
          let shape ← parseShapeField shapeValue name
          let offsets ← parseDataOffsets offsetsValue name dataSize
          pure ⟨dtype, shape, offsets.1, offsets.2⟩
  | _ => .error (invalidArgumentError
      (tensorLabel name ++ "entry must be a JSON object, got " ++ value.typeName))

/-- The checks of `ParseEntry` on what it has read. -/
def checkEntry (name : Text) (entry : RawEntry) (dataStart : Nat) :
    Checked (StatusOr RawEntry) := do
  let itemBytes ← entry.dtype.itemsize
  match mulOverflowUnsigned entry.shape.numel itemBytes with
  | none => pure (.error (invalidArgumentError
      (tensorLabel name ++
        s!"byte size overflows uint64_t ({entry.shape.numel} elements of {entry.dtype.toString})")))
  | some expectedBytes => do
      let span ← uint64 ((entry.end_ : Int) - entry.begin)
      if span ≠ expectedBytes then
        pure (.error (invalidArgumentError
          (tensorLabel name ++
            (s!"data_offsets span {span} bytes but {entry.shape.numel} elements of " ++
             s!"{entry.dtype.toString} need {expectedBytes}"))))
      else do
        let absolute ← uint64 ((dataStart + entry.begin : Nat) : Int)
        if absolute % itemBytes ≠ 0 then
          pure (.error (invalidArgumentError
            (tensorLabel name ++
              (s!"absolute offset {absolute} (data section at {dataStart} + begin " ++
               s!"{entry.begin}) is not aligned to the {itemBytes}-byte itemsize of " ++
               s!"{entry.dtype.toString}"))))
        else pure (.ok entry)

/-- `ParseEntry`. -/
def parseEntry (name : Text) (value : Json) (dataSize dataStart : Nat) :
    Checked (StatusOr RawEntry) :=
  match parseFields name value dataSize with
  | .error status => pure (.error status)
  | .ok entry => checkEntry name entry dataStart

/-- `ParsedFile`. -/
structure ParsedFile where
  dataStart : Nat
  entries : TextMap RawEntry
  metadata : TextMap Text

/-- `Range` of `ValidateDataSectionLayout`. -/
structure Range where
  begin : Nat
  end_ : Nat
  name : Text

/-- The walk of `ValidateDataSectionLayout`. -/
def layoutLoop (dataSize : Nat) :
    (cursor : Nat) → (previous : Option Text) → List Range → Checked (StatusOr Unit)
  | cursor, _, [] =>
      if cursor ≠ dataSize then
        pure (.error (invalidArgumentError
          s!"data section is {dataSize} bytes but tensors account for only {cursor}"))
      else pure (.ok ())
  | cursor, previous, range :: ranges =>
      if range.begin < cursor then
        match previous with
        | none => .error .nullDereference
        | some previous => pure (.error (invalidArgumentError
            ("tensors \"" ++ previous.show ++ "\" and \"" ++ range.name.show ++
              "\" have overlapping data ranges")))
      else if range.begin > cursor then do
        let gap ← uint64 ((range.begin : Int) - cursor)
        pure (.error (invalidArgumentError
          (s!"gap of {gap} bytes in the data section before tensor \"" ++ range.name.show ++ "\"")))
      else layoutLoop dataSize range.end_ (some range.name) ranges

/-- `ValidateDataSectionLayout`. -/
def validateDataSectionLayout (entries : TextMap RawEntry) (dataSize : Nat) :
    Checked (StatusOr Unit) :=
  let ranges := entries.entries.map fun e => (⟨e.2.begin, e.2.end_, e.1⟩ : Range)
  let ranges := ranges.mergeSort fun a b =>
    a.begin < b.begin || a.begin = b.begin && a.end_ ≤ b.end_
  layoutLoop dataSize 0 none ranges

/-- The loop of `ParseSafetensors` over the items of the header. -/
def itemsLoop (dataSize : Nat) : List (Text × Json) → ParsedFile → Checked (StatusOr ParsedFile)
  | [], parsed => pure (.ok parsed)
  | (name, value) :: items, parsed =>
      if name = ascii "__metadata__" then
        match parseMetadataBlock value with
        | .error status => pure (.error status)
        | .ok metadata => itemsLoop dataSize items { parsed with metadata := metadata }
      else do
        match ← parseEntry name value dataSize parsed.dataStart with
        | .error status => pure (.error status)
        | .ok entry =>
            itemsLoop dataSize items
              { parsed with entries := (emplace parsed.entries name entry).1 }

/-- The number a little-endian byte string spells. -/
def littleEndian (bytes : List UInt8) : Nat :=
  bytes.foldr (fun byte rest => byte.toNat + 256 * rest) 0

/-- What `ParseSafetensors` does with the header. -/
def parseHeader (root : Option Json) (dataStart dataSize : Nat) : Checked (StatusOr ParsedFile) :=
  match root with
  | none => pure (.error (invalidArgumentError "header is not valid JSON"))
  | some (.object items) => do
      match ← itemsLoop dataSize items ⟨dataStart, ∅, ∅⟩ with
      | .error status => pure (.error status)
      | .ok parsed =>
          match ← validateDataSectionLayout parsed.entries dataSize with
          | .error status => pure (.error status)
          | .ok _ => pure (.ok parsed)
  | some root => pure (.error (invalidArgumentError
      ("header must be a JSON object, got " ++ root.typeName)))

/-- `ParseSafetensors` of a file with these bytes. -/
def parseSafetensors (parse : Text → Option Json) (content : List UInt8) :
    Checked (StatusOr ParsedFile) := do
  let fileSize := content.length
  if fileSize < 8 then
    pure (.error (invalidArgumentError
      s!"file is {fileSize} bytes; a safetensors file needs at least an 8-byte header length"))
  else
    let headerLen := littleEndian (content.take 8)
    if headerLen > maxHeaderLen then
      pure (.error (invalidArgumentError
        s!"header length {headerLen} exceeds the {maxHeaderLen / (1024 * 1024)} MiB sanity cap"))
    else do
      let afterLength ← uint64 ((fileSize : Int) - 8)
      if headerLen > afterLength then
        pure (.error (invalidArgumentError
          s!"header length {headerLen} exceeds the {afterLength} bytes after the length field"))
      else do
        let dataSize ← uint64 ((afterLength : Int) - headerLen)
        let dataStart ← uint64 ((8 + headerLen : Nat) : Int)
        parseHeader (parse ((content.drop 8).take headerLen)) dataStart dataSize

/-- What `MapFileReadOnly` returns: the buffer and the bytes behind it. -/
structure MappedFile where
  buffer : Buffer
  content : List UInt8
  size_eq : buffer.sizeBytes = content.length

/-- `SafetensorsFile::Entry`. -/
structure Entry where
  dtype : DataType
  shape : Shape
  begin : Nat

end Safetensors

open Safetensors

/-- `model::SafetensorsFile`. -/
structure SafetensorsFile where
  buffer : Buffer
  dataStart : Nat
  entries : TextMap Safetensors.Entry
  metadata : TextMap Text
  path : String

namespace SafetensorsFile

/-- The entry that is kept of a parsed one. -/
def keep (raw : RawEntry) : Safetensors.Entry := ⟨raw.dtype, raw.shape, raw.begin⟩

/-- `SafetensorsFile::Open`, of a path and what mapping it gives. -/
def openFile (parse : Text → Option Json) (path : String) (mapped : StatusOr MappedFile) :
    Checked (StatusOr SafetensorsFile) :=
  match mapped with
  | .error status => pure (.error status)
  | .ok mapping => do
      match ← parseSafetensors parse mapping.content with
      | .error status => pure (.error ⟨status.code, path ++ ": " ++ status.message⟩)
      | .ok parsed => pure (.ok {
          buffer := mapping.buffer
          dataStart := parsed.dataStart
          entries := parsed.entries.entries.foldl (fun m e => (emplace m e.1 (keep e.2)).1) ∅
          metadata := parsed.metadata
          path := path })

/-- `SafetensorsFile::tensor`. -/
def tensor (file : SafetensorsFile) (name : Text) : Checked (StatusOr TensorView) :=
  match file.entries.lookup name with
  | none => pure (.error (notFoundError
      (file.path ++ ": no tensor named \"" ++ name.show ++ "\"")))
  | some entry => do
      let offset ← uint64 ((file.dataStart + entry.begin : Nat) : Int)
      match ← TensorView.fromBuffer file.buffer offset entry.shape entry.dtype with
      | .error status => pure (.error
          ⟨status.code, file.path ++ ": tensor \"" ++ name.show ++ "\": " ++ status.message⟩)
      | .ok view => pure (.ok view)

end SafetensorsFile

end InferenceEngine
