/-
Loading a model: `model/loader.h` and `loader.cpp`.

The config is read first, then the checkpoint is opened, its tensors are matched with the expected
weights, and each weight becomes a view of its file.  The checkpoint is the state of the last two
stages.  What the file system says is a parameter; the log and `weight_resident_bytes` are left
out.
-/
import InferenceEngine.Kernels.Elements
import InferenceEngine.Lib.Fallible
import InferenceEngine.Model.Checkpoint
import InferenceEngine.Model.Config

namespace InferenceEngine

/-- The files under a model directory. -/
structure ModelFiles extends FileSystem where
  /-- what an `std::ifstream` reads, if it can -/
  readFile : Text → Option Text
  /-- the names a `directory_iterator` comes to -/
  directoryEntries : Text → List Text
  /-- what `MapFileReadOnly` maps is host memory -/
  mapped_device : ∀ {path mapping}, mapFileReadOnly path = .ok mapping →
    mapping.buffer.device = .cpu

/-- `model::LoadedModel`. -/
structure LoadedModel where
  config : ParsedConfig
  weights : TextMap TensorView
  report : WeightMap.Report

/-- `IsSupportedWeightDtype`. -/
def isSupportedWeightDtype : DataType → Bool
  | .float32 | .float16 | .bfloat16 => true
  | _ => false

/-- `LoadModelConfig`. -/
def loadModelConfig (files : ModelFiles) (parse : Text → Option Json) (numbers : Text → Numbers)
    (path : Text) : StatusOr ParsedConfig :=
  match files.readFile (cString path) with
  | none => .error (notFoundError ("cannot read config file " ++ path.show))
  | some contents =>
      match parseModelConfig parse numbers contents with
      | .ok config => .ok config
      | .error status => .error ⟨status.code, path.show ++ ": " ++ status.message⟩

namespace Loader

/-- `path::extension` of a name in a directory: from the last dot on, if there is one after the
first character. -/
def extension (name : Text) : Text :=
  let stem := name.reverse.dropWhile (· ≠ 0x2E)
  if stem.length ≤ 1 then [] else name.drop (stem.length - 1)

/-- `PickleWeightFiles`. -/
def pickleWeightFiles (files : ModelFiles) (dir : Text) : List Text :=
  let found := (files.directoryEntries (cString dir)).filter fun name =>
    extension name = ascii ".bin" ∨ extension name = ascii ".pt" ∨ extension name = ascii ".pth"
  found.mergeSort fun a b => decide (a ≤ b)

/-- What `load_model` says where `Checkpoint::Open` has refused. -/
def checkpointError (files : ModelFiles) (dir : Text) (status : Status) : Status :=
  let pickles := pickleWeightFiles files dir
  if status.code = .notFound ∧ pickles ≠ [] then
    notFoundError (dir.show ++ ": no safetensors weights, but found PyTorch pickle checkpoint " ++
      "file(s): " ++ ", ".intercalate (pickles.map Text.show) ++
      " — the pickle format is unsupported (unsafe by design); convert the model to safetensors " ++
      "(e.g. with the `safetensors` Python package or a safetensors export of the model) and retry")
  else status

/-- A step of the stages that read tensors. -/
abbrev Loading (α : Type) := Fallible Fault Status Checkpoint α

/-- `checkpoint.tensor(name)`. -/
def fetch (fs : FileSystem) (parse : Text → Option Json) (name : Text) : Loading TensorView :=
  fun checkpoint =>
    match Checkpoint.tensor fs parse checkpoint name with
    | .error fault => .error fault
    | .ok (tensor, checkpoint, _) => .ok (tensor, checkpoint)

/-- The inventory of `BuildWeightMap`. -/
def inventory (fs : FileSystem) (parse : Text → Option Json) (names : List Text) :
    Loading (TextMap Shape) :=
  Fallible.fold (fun inventory name => do
    let tensor ← fetch fs parse name
    pure (emplace inventory name tensor.shape).1) names ∅

/-- `BuildWeightMap` of a checkpoint. -/
def buildWeightMap (fs : FileSystem) (parse : Text → Option Json) (config : ParsedConfig) :
    Loading WeightMap := do
  let checkpoint ← Fallible.get
  let inventory ← inventory fs parse checkpoint.index.keys
  Fallible.ofExcept (WeightMap.buildWeightMap config.toConfig inventory)

/-- The refusal of a weight that is no float. -/
def dtypeError (canonical source : Text) (dtype : DataType) : Status :=
  unimplementedError ("weight \"" ++ canonical.show ++ "\" (checkpoint tensor \"" ++ source.show ++
    "\") has dtype " ++ dtype.toString ++ "; only F32/F16/BF16 weights are supported — " ++
    "quantized/integer weights arrive in M12–M13")

/-- The weights so far, and `by_source`. -/
structure Materialized where
  weights : TextMap TensorView
  bySource : TextMap TensorView

/-- `by_source.find(source)`, and the fetch where there is none. -/
def resolve (fs : FileSystem) (parse : Text → Option Json) (bySource : TextMap TensorView)
    (source : Text) : Loading TensorView :=
  match bySource.lookup source with
  | some tensor => pure tensor
  | none => fetch fs parse source

/-- A turn of the loop that materializes. -/
def materializeTurn (fs : FileSystem) (parse : Text → Option Json) (model : Materialized)
    (weight : Sigma fun _ : Text => Text) : Loading Materialized := do
  let tensor ← resolve fs parse model.bySource weight.2
  if !isSupportedWeightDtype tensor.dtype then
    Fallible.ofExcept (.error (dtypeError weight.1 weight.2 tensor.dtype))
  else
    pure ⟨(emplace model.weights weight.1 tensor).1, (emplace model.bySource weight.2 tensor).1⟩

/-- The stages of `load_model` once the checkpoint is open. -/
def fromCheckpoint (fs : FileSystem) (parse : Text → Option Json) (config : ParsedConfig) :
    Loading LoadedModel := do
  let map ← buildWeightMap fs parse config
  Fallible.ofExcept (WeightMap.checkNoMissingWeights map.report)
  let model ← Fallible.fold (materializeTurn fs parse) map.canonicalToSource.entries ⟨∅, ∅⟩
  pure ⟨config, model.weights, map.report⟩

end Loader

/-- `load_model`. -/
def loadModel (files : ModelFiles) (parse : Text → Option Json) (numbers : Text → Numbers)
    (dir : Text) : Checked (StatusOr LoadedModel) :=
  match loadModelConfig files parse numbers (joinPath dir (ascii "config.json")) with
  | .error status => pure (.error status)
  | .ok config => do
      match (← Checkpoint.openDir files.toFileSystem parse dir).1 with
      | .error status => pure (.error (Loader.checkpointError files dir status))
      | .ok checkpoint => do
          let (model, _) ← Loader.fromCheckpoint files.toFileSystem parse config checkpoint
          pure model

end InferenceEngine
