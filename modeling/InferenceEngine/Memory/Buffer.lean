/-
Buffers and allocators: `memory/allocator.h`, with the device names of `tensor/device.h`.

An address is a number, and zero is the null pointer.  A buffer is what its readers see of
it; deleters are not modelled.
-/
import InferenceEngine.Core.Integer

namespace InferenceEngine

/-- `tensor::Device`. -/
inductive Device where
  | cpu
  | cuda (index : Nat)
deriving DecidableEq, Repr

namespace Device

/-- `ToString`. -/
def toString : Device → String
  | .cpu => "cpu"
  | .cuda index => s!"cuda:{index}"

/-- `is_cuda`. -/
def isCuda : Device → Bool
  | .cpu => false
  | .cuda _ => true

end Device

/-- `memory::Buffer`: `data()`, `size_bytes()` and `device()`. -/
structure Buffer where
  data : Nat
  sizeBytes : Nat
  device : Device
  data_null_iff : data = 0 ↔ sizeBytes = 0
  /-- the bytes of a buffer have addresses -/
  end_le : data + sizeBytes ≤ 2 ^ 64
deriving DecidableEq, Repr

/-- `memory::Allocator`.  The fields that are no data are what its header asks of every
implementation. -/
structure Allocator where
  device : Device
  allocate : Nat → Nat → Checked (StatusOr Buffer)
  allocate_size : ∀ {bytes alignment buffer},
    allocate bytes alignment = .ok (.ok buffer) → bytes ≤ buffer.sizeBytes
  allocate_device : ∀ {bytes alignment buffer},
    allocate bytes alignment = .ok (.ok buffer) → buffer.device = device

/-- `std::aligned_alloc`: an address, or null. -/
structure HostMemory where
  alignedAlloc : Nat → Nat → Option Nat
  alignedAlloc_pos : ∀ {alignment bytes data},
    alignedAlloc alignment bytes = some data → 0 < data
  alignedAlloc_end_le : ∀ {alignment bytes data},
    alignedAlloc alignment bytes = some data → data + bytes ≤ 2 ^ 64

namespace CpuAllocator

variable (host : HostMemory)

/-- `IsPowerOfTwo`. -/
def isPowerOfTwo (value : Nat) : Bool := value ≠ 0 && value &&& (value - 1) = 0

/-- `std::max(alignment, alignof(std::max_align_t))`. -/
def effectiveAlignment (alignment : Nat) : Nat := max alignment 16

/-- `bytes` rounded up to the alignment; clearing the low bits of a power of two. -/
def roundedBytes (bytes alignment : Nat) : Nat :=
  (bytes + alignment - 1) / alignment * alignment

theorem effectiveAlignment_pos (alignment : Nat) : 0 < effectiveAlignment alignment :=
  Nat.lt_of_lt_of_le (by decide) (Nat.le_max_right alignment 16)

theorem le_roundedBytes (bytes : Nat) {alignment : Nat} (h : 0 < alignment) :
    bytes ≤ roundedBytes bytes alignment := by
  unfold roundedBytes
  have hdiv := Nat.div_add_mod (bytes + alignment - 1) alignment
  have hmod := Nat.mod_lt (bytes + alignment - 1) h
  rw [Nat.mul_comm] at hdiv
  omega

/-- `CpuAllocator::Allocate`. -/
def allocate (bytes alignment : Nat) : Checked (StatusOr Buffer) := do
  check (isPowerOfTwo alignment) s!"alignment must be a power of two, got {alignment}"
  if hzero : bytes = 0 then
    pure (.ok ⟨0, 0, .cpu, by simp, by simp⟩)
  else if bytes > (2 ^ 64 - 1) - (effectiveAlignment alignment - 1) then
    pure (.error ⟨.outOfMemory,
      s!"CPU allocation of {bytes} bytes (alignment {alignment}) overflows size_t"⟩)
  else
    let rounded := roundedBytes bytes (effectiveAlignment alignment)
    match hdata : host.alignedAlloc (effectiveAlignment alignment) rounded with
    | none => pure (.error ⟨.outOfMemory,
        s!"CPU allocation of {bytes} bytes (alignment {alignment}) failed"⟩)
    | some data =>
        -- the size asked for, not the rounded one
        pure (.ok ⟨data, bytes, .cpu,
          by
            have := host.alignedAlloc_pos hdata
            omega,
          by
            have hend := host.alignedAlloc_end_le hdata
            have hle := le_roundedBytes bytes (effectiveAlignment_pos alignment)
            omega⟩)

theorem allocate_ok {bytes alignment : Nat} {buffer : Buffer}
    (h : allocate host bytes alignment = .ok (.ok buffer)) :
    buffer.sizeBytes = bytes ∧ buffer.device = .cpu := by
  unfold allocate check at h
  split at h
  · change (if hzero : bytes = 0 then _ else _) = _ at h
    split at h
    · rename_i hzero
      injection h with h
      injection h with h
      exact ⟨h ▸ hzero.symm, h ▸ rfl⟩
    · split at h
      · injection h with h
        cases h
      · dsimp only at h
        split at h
        · injection h with h
          cases h
        · injection h with h
          injection h with h
          exact ⟨h ▸ rfl, h ▸ rfl⟩
  · cases h

end CpuAllocator

/-- `DefaultCpuAllocator`. -/
def defaultCpuAllocator (host : HostMemory) : Allocator where
  device := .cpu
  allocate := CpuAllocator.allocate host
  allocate_size := fun h => Nat.le_of_eq (CpuAllocator.allocate_ok host h).1.symm
  allocate_device := fun h => (CpuAllocator.allocate_ok host h).2

end InferenceEngine
