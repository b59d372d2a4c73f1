/-
The memory a forward works on.

The caches live outside the model and are reached through pointers; the pool is shared by the
paged ones.  `OptimizedModel` owns a workspace, `model/workspace.h`, and the vectors in which it
stages a batch for the kernels; `ReferenceModel` owns neither and leaves them alone.  Buffers
come from an allocator that may refuse any request, and what a buffer holds before it is written
is the allocator's choice too.
-/
import InferenceEngine.Lib.Fallible
import InferenceEngine.Model.RowKernels

namespace InferenceEngine.Backend

variable {α : Type}

/-- What becomes of the allocations of a process, by their number. -/
structure Allocator (α : Type) where
  refuses : Nat → Option Status
  contents : Nat → Int → α

/-- `model::Workspace`: the slots and how many rows they have. -/
structure Workspace (α : Type) (c : ModelConfig) where
  capacity : Nat
  x : Slot α c.hiddenSize
  h : Slot α c.hiddenSize
  tmp : Slot α c.hiddenSize
  r : Slot α c.hiddenSize
  q : Slot α c.qRows
  k : Slot α c.kvRows
  v : Slot α c.kvRows
  ctx : Slot α c.qRows
  gate : Slot α c.intermediateSize
  up : Slot α c.intermediateSize

/-- The vectors `batch_block_tables_`, `batch_lengths_` and so on of `OptimizedModel`. -/
structure Staging (α : Type) where
  blockTables : List (List Int)
  lengths : List Nat
  views : List (KvView α)
  kPtrs : List (Int → α)
  vPtrs : List (Int → α)
  lDims : List Nat

/-- Everything a forward reads and writes.  A pointer to a cache is its index. -/
structure ForwardState (α : Type) (c : ModelConfig) (n : Nat) where
  pool : BlockPool α
  caches : Fin n → KvCache α
  /-- the allocations made so far -/
  allocations : Nat
  workspace : Workspace α c
  staging : Staging α

/-- A step of a forward. -/
abbrev Forward (α : Type) (c : ModelConfig) (n : Nat) (β : Type) :=
  Fallible Fault Status (ForwardState α c n) β

variable {c : ModelConfig} {n : Nat}

/-- `*p` -/
def deref (p : Option (Fin n)) : Forward α c n (Fin n) :=
  Fallible.ofChecked
    (match p with
    | some i => .ok i
    | none => .error .nullDereference)

/-- `tensor::Tensor::empty`: the buffer, uninitialized. -/
def allocate (A : Allocator α) : Forward α c n (Int → α) := fun s =>
  match A.refuses s.allocations with
  | some status => .ok (.error status, { s with allocations := s.allocations + 1 })
  | none => .ok (.ok (A.contents s.allocations), { s with allocations := s.allocations + 1 })

/-- `tensor::ops::zeros` of a tensor `[rows, m]`. -/
def zeros [Zero α] (A : Allocator α) (m : Nat) : Forward α c n (Slot α m) := do
  let _ ← allocate A
  pure fun _ _ => 0

/-! ### The caches

The calls a model makes through `KvCache`, whichever of the two caches is behind it. -/

/-- `caches[i]->append(layer, k, v)` -/
def append (i : Fin n) (layer : Nat) (k v : Tensor α) : Forward α c n Unit := fun s =>
  match (s.caches i).append layer k v s.pool with
  | .error fault => .error fault
  | .ok (appended, cache, pool) =>
      .ok (appended, { s with caches := Function.update s.caches i cache, pool := pool })

/-- `caches[i]->view(layer)`: two buffers, for the keys and for the values. -/
def view [Zero α] (A : Allocator α) (i : Fin n) (layer : Nat) : Forward α c n (KvView α) := do
  let s ← Fallible.get
  Fallible.ofExcept ((s.caches i).validateView layer s.pool)
  let freshK ← allocate A
  let freshV ← allocate A
  let viewed ← Fallible.ofChecked ((s.caches i).view layer s.pool freshK freshV)
  Fallible.ofExcept viewed

/-- `caches[i]->paged_view(layer)`, with its status. -/
def pagedView (i : Fin n) (layer : Nat) : Forward α c n (StatusOr (PagedKvView α)) := do
  let s ← Fallible.get
  Fallible.ofChecked ((s.caches i).pagedView layer s.pool)

/-! ### The workspace

It grows before the first layer and never in between.  Every slot has its new rows before any of
them is put in place, so a refusal leaves the workspace as it was. -/

/-- A change of the workspace. -/
def modifyWorkspace (f : Workspace α c → Workspace α c) : Forward α c n Unit :=
  Fallible.modify fun s => { s with workspace := f s.workspace }

/-- A change of the staging vectors. -/
def modifyStaging (f : Staging α → Staging α) : Forward α c n Unit :=
  Fallible.modify fun s => { s with staging := f s.staging }

/-- `AllocSlot`: the rows of a fresh buffer. -/
def allocSlot (A : Allocator α) (m : Nat) : Forward α c n (Slot α m) := do
  let buffer ← allocate A
  pure fun row j => buffer ((row : Int) * m + (j.val : Int))

/-- The growing half of `Workspace::EnsureCapacity`: every slot, then the commit. -/
def growWorkspace (A : Allocator α) (t : Nat) : Forward α c n Unit := do
  let x ← allocSlot A c.hiddenSize
  let h ← allocSlot A c.hiddenSize
  let tmp ← allocSlot A c.hiddenSize
  let r ← allocSlot A c.hiddenSize
  let q ← allocSlot A c.qRows
  let k ← allocSlot A c.kvRows
  let v ← allocSlot A c.kvRows
  let ctx ← allocSlot A c.qRows
  let gate ← allocSlot A c.intermediateSize
  let up ← allocSlot A c.intermediateSize
  modifyWorkspace fun _ =>
    { capacity := t, x := x, h := h, tmp := tmp, r := r, q := q, k := k, v := v, ctx := ctx,
      gate := gate, up := up }

/-- `Workspace::EnsureCapacity`. -/
def ensureCapacity (A : Allocator α) (t : Nat) : Forward α c n Unit := do
  Fallible.ofChecked (check (1 ≤ t) s!"Workspace::EnsureCapacity: t must be >= 1, got {t}")
  let s ← Fallible.get
  if t ≤ s.workspace.capacity then pure () else growWorkspace A t

/-- What every prefix view of the workspace checks, `Workspace::Prefix`. -/
def requirePrefix (t : Nat) : Forward α c n Unit := do
  let s ← Fallible.get
  Fallible.ofChecked (check (1 ≤ t && t ≤ s.workspace.capacity)
    s!"Workspace: prefix t={t} out of range [1, {s.workspace.capacity}] — EnsureCapacity first")

end InferenceEngine.Backend
