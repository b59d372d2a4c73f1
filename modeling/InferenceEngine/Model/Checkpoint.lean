/-
Checkpoints of several files: `model/checkpoint.h` and `checkpoint.cpp`.

An index says which shard holds a tensor.  Shards are opened when a tensor of theirs is first
asked for, and held against the index then; the ones that pass are kept.  What the file system
says of a path is a parameter, and so is the JSON parser.  A path is a string of the code and
may hold a NUL, which a JSON string can; the system calls get it as a C string.  Each operation
also returns the paths that the system was asked to open.  Maps are without the order of the
code, and the progress lines are left out.
-/
import InferenceEngine.Model.Safetensors

namespace InferenceEngine

/-- What a system call sees of a path. -/
def cString (path : Text) : Text := path.takeWhile (· ≠ 0)

/-- What the file system says of a path, as a C string. -/
structure FileSystem where
  isDirectory : Text → Bool
  fileExists : Text → Bool
  mapFileReadOnly : Text → StatusOr Safetensors.MappedFile

/-- `dir / name`. -/
def joinPath (dir name : Text) : Text :=
  if name.head? = some 0x2F then name
  else if dir = [] ∨ dir.getLast? = some 0x2F then dir ++ name
  else dir ++ 0x2F :: name

/-- `model::Checkpoint`. -/
structure Checkpoint where
  dir : Text
  weightsPath : Text
  shardNames : List Text
  shards : List (Option SafetensorsFile)
  index : TextMap Nat

namespace Checkpoint

/-- `kSingleFile`. -/
def singleFile : Text := ascii "model.safetensors"

/-- `kIndexFile`. -/
def indexFile : Text := ascii "model.safetensors.index.json"

/-- `JoinQuoted`. -/
def joinQuoted (items : List String) : String :=
  ", ".intercalate (items.map fun item => "\"" ++ item ++ "\"")

/-- `IsBareFilename`. -/
def isBareFilename (name : Text) : Bool :=
  name ≠ [] && name ≠ ascii "." && name ≠ ascii ".." && 0x2F ∉ name && 0x5C ∉ name

/-- `ParsedIndex`. -/
structure ParsedIndex where
  index : TextMap Nat
  shardNames : List Text

/-- The loop of `ParseIndex` over the items of the weight map. -/
def indexLoop : List (Text × Json) → (ordinals : TextMap Nat) → ParsedIndex → StatusOr ParsedIndex
  | [], _, parsed => .ok parsed
  | (name, .string shard) :: items, ordinals, parsed =>
      if !isBareFilename shard then
        .error (invalidArgumentError ("weight_map entry \"" ++ name.show ++ "\" names shard \"" ++
          shard.show ++ "\", which is not a bare filename"))
      else
        let (ordinals, ordinal, inserted) := emplace ordinals shard parsed.shardNames.length
        let shardNames := if inserted then parsed.shardNames ++ [shard] else parsed.shardNames
        indexLoop items ordinals ⟨(emplace parsed.index name ordinal).1, shardNames⟩
  | (name, value) :: _, _, _ => .error (invalidArgumentError
      ("weight_map entry \"" ++ name.show ++ "\" must name a shard file (string), got " ++
        value.typeName))

/-- `ParseIndex`. -/
def parseIndex (parse : Text → Option Json) (content : Text) : StatusOr ParsedIndex :=
  match if content = [] then none else parse content with
  | none => .error (invalidArgumentError "index is not valid JSON")
  | some (.object fields) =>
      match (Json.object fields).find "weight_map" with
      | none => .error (invalidArgumentError "index has no \"weight_map\" key")
      | some (.object items) => indexLoop items ∅ ⟨∅, []⟩
      | some weightMap => .error (invalidArgumentError
          ("\"weight_map\" must be a JSON object, got " ++ weightMap.typeName))
  | some root => .error (invalidArgumentError
      ("index must be a JSON object, got " ++ root.typeName))

/-- The tensors of the shard that the index does not map there, with what it says of them. -/
def unexpectedTensors (index : TextMap Nat) (ordinal : Nat) (shard : SafetensorsFile)
    (shardNames : List Text) : List String :=
  shard.entries.keys.filterMap fun name =>
    match index.lookup name with
    | none => some (name.show ++ " (not in the index)")
    | some mapped =>
        if mapped ≠ ordinal then
          some (name.show ++ " (the index maps it to " ++
            Text.show (shardNames.getD mapped []) ++ ")")
        else none

/-- The tensors the index maps to the shard that are not in it. -/
def missingTensors (index : TextMap Nat) (ordinal : Nat) (shard : SafetensorsFile) : List Text :=
  index.keys.filter fun name => index.lookup name = some ordinal ∧ name ∉ shard.entries

/-- `CheckShardConsistency`. -/
def checkShardConsistency (index : TextMap Nat) (ordinal : Nat) (shard : SafetensorsFile)
    (shardNames : List Text) (indexPath : Text) : StatusOr Unit :=
  let missing := missingTensors index ordinal shard
  let unexpected := unexpectedTensors index ordinal shard shardNames
  if missing = [] ∧ unexpected = [] then .ok ()
  else
    let absent :=
      if missing = [] then []
      else ["tensors the index maps here are absent: " ++ joinQuoted (missing.map Text.show)]
    let present :=
      if unexpected = [] then []
      else ["tensors the index does not map here are present: " ++ joinQuoted unexpected]
    .error (invalidArgumentError ("shard \"" ++ Text.show (shardNames.getD ordinal []) ++
      "\" is inconsistent with " ++ indexPath.show ++ ": " ++ "; ".intercalate (absent ++ present)))

variable (fs : FileSystem) (parse : Text → Option Json)

/-- `SafetensorsFile::Open` of a path. -/
def openPath (path : Text) : Checked (StatusOr SafetensorsFile) :=
  SafetensorsFile.openFile parse path.show (fs.mapFileReadOnly (cString path))

/-- `Checkpoint::Open` of a directory with an index. -/
def openIndexed (dir : Text) : StatusOr Checkpoint :=
  let indexPath := joinPath dir indexFile
  match fs.mapFileReadOnly (cString indexPath) with
  | .error status => .error status
  | .ok mapping =>
      match parseIndex parse mapping.content with
      | .error status => .error ⟨status.code, indexPath.show ++ ": " ++ status.message⟩
      | .ok parsed =>
          let absent := parsed.shardNames.filter fun name =>
            !fs.fileExists (cString (joinPath dir name))
          if absent ≠ [] then
            .error (notFoundError (indexPath.show ++
              ": shard file(s) named by the index do not exist: " ++
              joinQuoted (absent.map Text.show)))
          else .ok {
            dir := dir
            weightsPath := indexPath
            shardNames := parsed.shardNames
            shards := List.replicate parsed.shardNames.length none
            index := parsed.index }

/-- `Checkpoint::Open`: its result, and the paths it has opened. -/
def openDir (dir : Text) : Checked (StatusOr Checkpoint × List Text) :=
  if !fs.isDirectory (cString dir) then
    pure (.error (notFoundError
      ("model directory " ++ dir.show ++ " does not exist (or is not a directory)")), [])
  else if fs.fileExists (cString (joinPath dir indexFile)) then
    pure (openIndexed fs parse dir, [cString (joinPath dir indexFile)])
  else if fs.fileExists (cString (joinPath dir singleFile)) then do
    let path := joinPath dir singleFile
    match ← openPath fs parse path with
    | .error status => pure (.error status, [cString path])
    | .ok file => pure (.ok {
        dir := dir
        weightsPath := path
        shardNames := [singleFile]
        shards := [some file]
        index := file.entries.keys.foldl
          (fun index name => (emplace index name 0).1) ∅ }, [cString path])
  else
    pure (.error (notFoundError (dir.show ++ ": found neither " ++ singleFile.show ++ " nor " ++
      indexFile.show)), [])

/-- `Checkpoint::shard`. -/
def shard (c : Checkpoint) (ordinal : Nat) :
    Checked (StatusOr SafetensorsFile × Checkpoint × List Text) := do
  match ← readAt c.shards ordinal with
  | some file => pure (.ok file, c, [])
  | none => do
      let name ← readAt c.shardNames ordinal
      let path := joinPath c.dir name
      match ← openPath fs parse path with
      | .error status => pure (.error status, c, [cString path])
      | .ok file =>
          match checkShardConsistency c.index ordinal file c.shardNames c.weightsPath with
          | .error status => pure (.error status, c, [cString path])
          | .ok () => do
              let shards ← writeAt c.shards ordinal (some file)
              pure (.ok file, { c with shards := shards }, [cString path])

/-- `Checkpoint::tensor`. -/
def tensor (c : Checkpoint) (name : Text) :
    Checked (StatusOr TensorView × Checkpoint × List Text) :=
  match c.index.lookup name with
  | none => pure (.error (notFoundError
      (c.weightsPath.show ++ ": no tensor named \"" ++ name.show ++ "\"")), c, [])
  | some ordinal => do
      let (file, c, opened) ← shard fs parse c ordinal
      match file with
      | .error status => pure (.error status, c, opened)
      | .ok file => do
          let view ← file.tensor name
          pure (view, c, opened)

/-- Calls one after the other: their results, the checkpoint they leave, and the paths opened. -/
def tensors (c : Checkpoint) : (names : List Text) →
    Checked (List (StatusOr TensorView) × Checkpoint × List Text)
  | [] => pure ([], c, [])
  | name :: names => do
      let (result, c, opened) ← tensor fs parse c name
      let (results, c, later) ← tensors c names
      pure (result :: results, c, opened ++ later)

/-! ### What the calls are to answer

The documents and files of a directory stand still.  What a call answers is put beside them,
whatever was called before. -/

/-- The index document of the directory has these items in its weight map. -/
structure IndexDocument (dir : Text) (items : List (Text × Json)) : Prop where
  mapped : ∃ mapping fields,
    fs.mapFileReadOnly (cString (joinPath dir indexFile)) = .ok mapping ∧
    mapping.content ≠ [] ∧ parse mapping.content = some (.object fields) ∧
    (Json.object fields).find "weight_map" = some (.object items)
  found : fs.isDirectory (cString dir) = true ∧
    fs.fileExists (cString (joinPath dir indexFile)) = true
  keys : (items.map Prod.fst).Nodup

/-- The index document maps a name to a shard. -/
def Maps (items : List (Text × Json)) (name shard : Text) : Prop :=
  (name, Json.string shard) ∈ items

/-- The file of a shard opens, as `file`. -/
def Opens (dir shard : Text) (file : SafetensorsFile) : Prop :=
  openPath fs parse (joinPath dir shard) = .ok (.ok file)

/-- The file of a shard opens, and holds just the tensors that are mapped to it. -/
def Valid (dir : Text) (items : List (Text × Json)) (shard : Text)
    (file : SafetensorsFile) : Prop :=
  Opens fs parse dir shard file ∧ ∀ name, name ∈ file.entries ↔ Maps items name shard

/-- The shard has not been kept. -/
def Unmapped (c : Checkpoint) (shard : Text) : Prop :=
  ∀ ordinal : Nat, c.shardNames[ordinal]? = some shard → c.shards[ordinal]? = some none

/-- A path that the system was asked to open is a bare name in the directory. -/
def Inside (dir path : Text) : Prop :=
  ∃ name, path = joinPath dir name ∧ name ≠ [] ∧ name ≠ ascii "." ∧ name ≠ ascii ".." ∧
    0x2F ∉ name ∧ 0x5C ∉ name

/-- The directory holds no NUL, and what comes before one in the shard of a name is bare. -/
def Contained (dir : Text) (items : List (Text × Json)) (names : List Text) : Prop :=
  0 ∉ dir ∧ ∀ name ∈ names, ∀ shard, Maps items name shard → isBareFilename (cString shard) = true

/-- The tensors of the shards that the index names are the names of the index, each in one. -/
structure Partitions (dir : Text) (items : List (Text × Json)) : Prop where
  opens : ∀ name shard, Maps items name shard → ∃ file, Opens fs parse dir shard file
  cover : ∀ name, (∃ shard, Maps items name shard) ↔
    ∃ other shard file, Maps items other shard ∧ Opens fs parse dir shard file ∧
      name ∈ file.entries
  disjoint : ∀ shard shard' file file' name, Opens fs parse dir shard file →
    Opens fs parse dir shard' file' → (∃ other, Maps items other shard) →
    (∃ other, Maps items other shard') → name ∈ file.entries → name ∈ file'.entries →
    shard = shard'

/-- What some calls on `c₀` have answered, and where they have left it. -/
structure Answered (dir : Text) (items : List (Text × Json)) (c₀ : Checkpoint)
    (names : List Text) (results : List (StatusOr TensorView)) (c : Checkpoint) : Prop where
  /-- each call answers what it would have answered first -/
  independent : List.Forall₂ (fun name result =>
    (tensor fs parse c₀ name).Returns fun r => r.1 = result) names results
  /-- a success is of a name of the index, and the shard it is mapped to is valid -/
  consistent : ∀ name view, (name, .ok view) ∈ names.zip results →
    ∃ shard file, Maps items name shard ∧ Valid fs parse dir items shard file ∧
      file.tensor name = .ok (.ok view)
  /-- a next call that finds its shard invalid leaves it unmapped, and has looked at it anew -/
  invalid : ∀ name shard, Maps items name shard → (¬∃ file, Valid fs parse dir items shard file) →
    (tensor fs parse c name).Returns fun r =>
      (∃ status, r.1 = .error status) ∧ r.2.1 = c ∧ Unmapped c shard ∧
        r.2.2 = [cString (joinPath dir shard)]
  /-- once every name has been fetched -/
  partition : (∀ name shard, Maps items name shard → ∃ view, (name, .ok view) ∈ names.zip results) →
    Partitions fs parse dir items

end Checkpoint

end InferenceEngine
