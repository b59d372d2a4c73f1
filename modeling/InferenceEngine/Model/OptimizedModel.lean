/-
The optimized backend: `model/optimized_model.cpp`.

All sequences of a batch run through one workspace: their tokens lie one behind the other, and
`cu_seqlens` says where each begins.  Only attention looks at the sequences one by one.  The
activation hook and the logging are left out, and so are the module's shape checks, which the
shapes that the loader has verified satisfy.
-/
import InferenceEngine.Model.BatchRequest

namespace InferenceEngine.Backend.OptimizedModel

variable {α : Type} [Zero α] {c : ModelConfig} {n : Nat} (K : RowKernels α c) (A : Allocator α)
  (request : ForwardRequest n)

/-! ### `ForwardLayer`

Attention is all that looks at more than one row, so the kernels in front of it and behind it
take the rows of a batch as they come. -/

/-- The kernels in front of attention: norm, the three projections and RoPE. -/
def projectQkv (layer t : Nat) (w : Workspace α c) : Workspace α c :=
  let h := w.h.write 0 t fun i => K.attnNorm layer (w.x i)
  let q := w.q.write 0 t fun i => K.qProj layer (h i)
  let k := w.k.write 0 t fun i => K.kProj layer (h i)
  let v := w.v.write 0 t fun i => K.vProj layer (h i)
  let q := q.write 0 t fun i => K.ropeQ (request.position i) (q i)
  let k := k.write 0 t fun i => K.ropeK (request.position i) (k i)
  { w with h := h, q := q, k := k, v := v }

/-- The kernels behind attention: the output projection, the residual and the MLP block. -/
def finishLayer (layer t : Nat) (w : Workspace α c) : Workspace α c :=
  let tmp := w.tmp.write 0 t fun i => K.oProj layer (w.ctx i)
  let r := w.r.write 0 t fun i => K.add (w.x i) (tmp i)
  let h := w.h.write 0 t fun i => K.mlpNorm layer (r i)
  let gate := w.gate.write 0 t fun i => K.gateProj layer (h i)
  let up := w.up.write 0 t fun i => K.upProj layer (h i)
  let gate := gate.write 0 t fun i => K.siluMul (gate i) (up i)
  let tmp := tmp.write 0 t fun i => K.downProj layer (gate i)
  let x := w.x.write 0 t fun i => K.add (r i) (tmp i)
  { w with x := x, h := h, tmp := tmp, r := r, gate := gate, up := up }

/-- The single-sequence path: a decode step reads a paged cache through its block table. -/
def singleAttention (layer t : Nat) : Forward α c n Unit := do
  let i ← deref request.cache
  let s ← Fallible.get
  append i layer (tokenBlock c s.workspace.k 0 t) (tokenBlock c s.workspace.v 0 t)
  if t = 1 then do
    let paged ← pagedView i layer
    match paged with
    | .ok pv => modifyWorkspace fun w => { w with ctx := K.pagedDecodeAttention w.q pv w.ctx }
    | .error status =>
        if status.code = .unimplemented then do
          let kv ← view A i layer
          modifyWorkspace fun w =>
            { w with ctx := K.decodeAttention w.q kv.k.data kv.v.data (kv.k.dim 1) w.ctx }
        else Fallible.ofExcept (.error status)
  else do
    let kv ← view A i layer
    modifyWorkspace fun w =>
      { w with ctx := K.prefillAttention w.q kv.k.data kv.v.data t (kv.k.dim 1) w.ctx }

/-! ### `BatchedAttention`

Every sequence appends its rows before the first of them attends.  A batch of decodes over paged
caches reads through the block tables; any other attends to views of its caches. -/

/-- Step 1: each sequence appends its slice of the rows. -/
def appendBatch (layer : Nat) : Forward α c n Unit :=
  Fallible.each (List.range request.numSeqs) fun b => do
    let i ← deref (request.cacheAt b)
    let s ← Fallible.get
    append i layer (tokenBlock c s.workspace.k (request.cu b) (request.seqLen b))
      (tokenBlock c s.workspace.v (request.cu b) (request.seqLen b))

/-- Step 2: the decode path.  Every paged cache of a state is over its one pool, so the slab
pointers, which the code compares too, never differ. -/
def decodeBatch (layer : Nat) (pv0 : PagedKvView α) : Forward α c n Unit := do
  modifyStaging fun st => { st with blockTables := [], lengths := [] }
  Fallible.each (List.range request.numSeqs) fun b => do
    let i ← deref (request.cacheAt b)
    let paged ← pagedView i layer
    let pv ← Fallible.ofExcept paged
    Fallible.ofExcept (rejectIf (pv.blockSize ≠ pv0.blockSize ∨ pv.blockStride ≠ pv0.blockStride)
      (invalidArgumentError
        (s!"OptimizedModel: batched decode requires all sequences to share one block pool " ++
         s!"(layer {layer}, sequence {b})")))
    modifyStaging fun st =>
      { st with
        blockTables := st.blockTables ++ [pv.blockTable]
        lengths := st.lengths ++ [pv.length] }
  Fallible.modify fun s =>
    { s with workspace := { s.workspace with
        ctx := K.pagedDecodeAttentionBatched s.workspace.q pv0.kSlab pv0.vSlab
          s.staging.blockTables s.staging.lengths request.numSeqs pv0.blockSize pv0.blockStride
          s.workspace.ctx } }

/-- Step 3: the varlen path. -/
def varlenAttention (layer : Nat) : Forward α c n Unit := do
  modifyStaging fun st => { st with views := [] }
  Fallible.each (List.range request.numSeqs) fun b => do
    let i ← deref (request.cacheAt b)
    let kv ← view A i layer
    modifyStaging fun st => { st with views := st.views ++ [kv] }
  modifyStaging fun st =>
    { st with
      kPtrs := st.views.map fun kv => kv.k.data
      vPtrs := st.views.map fun kv => kv.v.data
      lDims := st.views.map fun kv => kv.k.dim 1 }
  Fallible.modify fun s =>
    { s with workspace := { s.workspace with
        ctx := K.prefillAttentionVarlen s.workspace.q request.cu request.numSeqs s.staging.kPtrs
          s.staging.vPtrs s.staging.lDims s.workspace.ctx } }

/-- `OptimizedModel::BatchedAttention`. -/
def batchedAttention (layer t : Nat) : Forward α c n Unit := do
  appendBatch request layer
  if t = request.numSeqs then do
    let i ← deref (request.cacheAt 0)
    let paged ← pagedView i layer
    match paged with
    | .ok pv0 => decodeBatch K request layer pv0
    | .error status =>
        if status.code = .unimplemented then varlenAttention K A request layer
        else Fallible.ofExcept (.error status)
  else varlenAttention K A request layer

/-! ### The forward

A batch ends with the last row of each sequence, and only those go through the head. -/

/-- The branch of `ForwardLayer` between its kernels. -/
def attention (layer t : Nat) : Forward α c n Unit :=
  if request.caches.isEmpty then singleAttention K A request layer t
  else batchedAttention K A request layer t

/-- `OptimizedModel::ForwardLayer`. -/
def forwardLayer (t layer : Nat) : Forward α c n Unit := do
  requirePrefix t
  modifyWorkspace (projectQkv K request layer t)
  attention K A request layer t
  modifyWorkspace (finishLayer K layer t)

/-- `OptimizedModel::RunStack`: the normed rows are left in slot `h`. -/
def runStack (t : Nat) : Forward α c n Unit := do
  requirePrefix t
  modifyWorkspace fun w => { w with x := w.x.write 0 t fun i => K.embed (request.tokenId i) }
  Fallible.each (List.range c.numLayers) (forwardLayer K A request t)
  modifyWorkspace fun w => { w with h := w.h.write 0 t fun i => K.finalNorm (w.x i) }

/-- The projection to logits, which are freshly allocated. -/
def lmHead (rows : List (Row α c.hiddenSize)) : Forward α c n (List (Row α c.vocabSize)) := do
  let _ ← zeros A c.vocabSize
  pure (rows.map K.lmHead)

/-- `OptimizedModel::forward` for one sequence. -/
def forwardSingle : Forward α c n (List (Row α c.vocabSize)) := do
  let s ← Fallible.get
  let checked ← Fallible.ofExcept (validate "OptimizedModel" request s)
  ensureCapacity A checked.1
  runStack K A request checked.1
  let s ← Fallible.get
  match request.logitsMode with
  | .last => lmHead K A [s.workspace.h (checked.1 - 1)]
  | .all => lmHead K A ((List.range checked.1).map s.workspace.h)

/-- The last row of each sequence, gathered into the free slot `tmp`. -/
def gatherLast (w : Workspace α c) : Workspace α c :=
  { w with tmp := w.tmp.write 0 request.numSeqs fun b => w.h (request.cu (b + 1) - 1) }

/-- `OptimizedModel::ForwardBatched`. -/
def forwardBatched : Forward α c n (List (Row α c.vocabSize)) := do
  let s ← Fallible.get
  let t ← Fallible.ofExcept (validateBatched "OptimizedModel" request s)
  ensureCapacity A t
  runStack K A request t
  match request.logitsMode with
  | .last => do
      requirePrefix request.numSeqs
      modifyWorkspace (gatherLast request)
      let s ← Fallible.get
      lmHead K A ((List.range request.numSeqs).map s.workspace.tmp)
  | .all => do
      let s ← Fallible.get
      lmHead K A ((List.range t).map s.workspace.h)

/-- `OptimizedModel::forward`. -/
def forward : Forward α c n (List (Row α c.vocabSize)) :=
  if request.isBatched then forwardBatched K A request else forwardSingle K A request

end InferenceEngine.Backend.OptimizedModel
