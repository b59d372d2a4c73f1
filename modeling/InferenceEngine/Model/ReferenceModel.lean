/-
The reference backend: `model/reference_model.cpp` and the blocks of `model/modules.cpp` that it
is made of.

Every buffer is allocated where it is needed, so any of these allocations can end a forward,
also after a layer has been appended.  A batch is run one sequence after the other.
-/
import InferenceEngine.Model.OptimizedModel

namespace InferenceEngine.Backend.ReferenceModel

variable {α : Type} [Zero α] {c : ModelConfig} {n : Nat} (K : RowKernels α c) (A : Allocator α)

/-- `Attention::forward`, into `y`. -/
def attention (request : ForwardRequest n) (i : Fin n) (layer t : Nat)
    (x y : Slot α c.hiddenSize) : Forward α c n (Slot α c.hiddenSize) := do
  let q ← zeros A c.qRows
  let k ← zeros A c.kvRows
  let v ← zeros A c.kvRows
  let q := q.write 0 t fun j => K.qProj layer (x j)
  let k := k.write 0 t fun j => K.kProj layer (x j)
  let v := v.write 0 t fun j => K.vProj layer (x j)
  let q := q.write 0 t fun j => K.ropeQ (request.position j) (q j)
  let k := k.write 0 t fun j => K.ropeK (request.position j) (k j)
  append i layer (tokenBlock c k 0 t) (tokenBlock c v 0 t)
  let kv ← view A i layer
  let ctx ← zeros A c.qRows
  let ctx := K.prefillAttention q kv.k.data kv.v.data t (kv.k.dim 1) ctx
  pure (y.write 0 t fun j => K.oProj layer (ctx j))

/-- `Mlp::forward`, into `y`. -/
def mlp (layer t : Nat) (x y : Slot α c.hiddenSize) : Forward α c n (Slot α c.hiddenSize) := do
  let gate ← zeros A c.intermediateSize
  let up ← zeros A c.intermediateSize
  let gate := gate.write 0 t fun j => K.gateProj layer (x j)
  let up := up.write 0 t fun j => K.upProj layer (x j)
  let gate := gate.write 0 t fun j => K.siluMul (gate j) (up j)
  pure (y.write 0 t fun j => K.downProj layer (gate j))

/-- `DecoderLayer::forward`, into `y`. -/
def decoderLayer (request : ForwardRequest n) (i : Fin n) (layer t : Nat)
    (x y : Slot α c.hiddenSize) : Forward α c n (Slot α c.hiddenSize) := do
  let normed ← zeros A c.hiddenSize
  let normed := normed.write 0 t fun j => K.attnNorm layer (x j)
  let attnOut ← zeros A c.hiddenSize
  let attnOut ← attention K A request i layer t normed attnOut
  let residual ← zeros A c.hiddenSize
  let residual := residual.write 0 t fun j => K.add (x j) (attnOut j)
  let normed := normed.write 0 t fun j => K.mlpNorm layer (residual j)
  let attnOut ← mlp K A layer t normed attnOut
  pure (y.write 0 t fun j => K.add (residual j) (attnOut j))

/-- One turn of the layer loop: a fresh buffer becomes the next residual stream. -/
def nextLayer (request : ForwardRequest n) (i : Fin n) (t : Nat) (x : Slot α c.hiddenSize)
    (layer : Nat) : Forward α c n (Slot α c.hiddenSize) := do
  let next ← zeros A c.hiddenSize
  decoderLayer K A request i layer t x next

/-- The layers and the final norm. -/
def runStack (request : ForwardRequest n) (i : Fin n) (t : Nat) :
    Forward α c n (Slot α c.hiddenSize) := do
  let x ← zeros A c.hiddenSize
  let x := x.write 0 t fun j => K.embed (request.tokenId j)
  let x ← Fallible.fold (nextLayer K A request i t) (List.range c.numLayers) x
  let normed ← zeros A c.hiddenSize
  pure (normed.write 0 t fun j => K.finalNorm (x j))

/-- `ReferenceModel::forward` for one sequence. -/
def forwardSingle (request : ForwardRequest n) : Forward α c n (List (Row α c.vocabSize)) := do
  let s ← Fallible.get
  let checked ← Fallible.ofExcept (validate "ReferenceModel" request s)
  let normed ← runStack K A request checked.2 checked.1
  match request.logitsMode with
  | .last => OptimizedModel.lmHead K A [normed (checked.1 - 1)]
  | .all => OptimizedModel.lmHead K A ((List.range checked.1).map normed)

/-- The status of a sequence's own forward, as its batch reports it. -/
def memberStatus (b : Nat) (status : Status) : Status :=
  ⟨status.code, s!"ReferenceModel::forward: sequence {b}: {status.message}"⟩

/-- One turn of the batch loop: a forward of its own, and its logits in their place. -/
def runMember (request : ForwardRequest n) (out : Slot α c.vocabSize) (b : Nat) :
    Forward α c n (Slot α c.vocabSize) := do
  let member ← (forwardSingle K A (request.member b)).mapError (memberStatus b)
  match request.logitsMode with
  | .last => pure (out.write b 1 fun j => member.getD j fun _ => 0)
  | .all => pure (out.write (request.cu b) (request.seqLen b) fun j => member.getD j fun _ => 0)

/-- `ReferenceModel::ForwardBatched`. -/
def forwardBatched (request : ForwardRequest n) : Forward α c n (List (Row α c.vocabSize)) := do
  let s ← Fallible.get
  let t ← Fallible.ofExcept (validateBatched "ReferenceModel" request s)
  let logits ← zeros A c.vocabSize
  let out ← Fallible.fold (runMember K A request) (List.range request.numSeqs) logits
  match request.logitsMode with
  | .last => pure ((List.range request.numSeqs).map out)
  | .all => pure ((List.range t).map out)

/-- `ReferenceModel::forward`. -/
def forward (request : ForwardRequest n) : Forward α c n (List (Row α c.vocabSize)) :=
  if request.isBatched then forwardBatched K A request else forwardSingle K A request

end InferenceEngine.Backend.ReferenceModel

namespace InferenceEngine

/-- The two implementations of `model::Model`. -/
inductive Backend where
  | reference
  | optimized
deriving DecidableEq, Repr

/-- `Model::forward`. -/
def Backend.forward {α : Type} [Zero α] {c : ModelConfig} {n : Nat} (backend : Backend)
    (K : RowKernels α c) (A : Backend.Allocator α) (request : Backend.ForwardRequest n) :
    Backend.Forward α c n (List (Row α c.vocabSize)) :=
  match backend with
  | .reference => Backend.ReferenceModel.forward K A request
  | .optimized => Backend.OptimizedModel.forward K A request

end InferenceEngine
