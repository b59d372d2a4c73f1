/-
The caching allocator keeps its books and hands no block out twice.

`Ledger` says where every block the upstream has handed out is: live, in the free list of its
class, or loose in the middle of an allocation.  Each operation moves blocks between these
places, and the counters follow.  The counters are 64-bit and the sums they stand for are not;
that the address space holds all outstanding blocks is what keeps them equal.
-/
import InferenceEngine.Memory.CachingAllocator
import Mathlib

namespace InferenceEngine

open Except

/-! ### Size classes

Requests of up to a MiB are rounded up to a power of two, 512 bytes at least, and larger ones to
whole MiB.  In every case the class covers the request. -/

theorem sizeClass_small {bytes : Nat} (h : bytes ≤ 512) : sizeClass bytes = 512 := by
  unfold sizeClass minClassBytes
  rw [if_pos h]

theorem sizeClass_medium {bytes : Nat} (hlow : 512 < bytes) (h : bytes ≤ 2 ^ 20) :
    sizeClass bytes = 2 ^ Nat.clog 2 bytes := by
  unfold sizeClass minClassBytes largeStepBytes
  rw [if_neg (by omega), if_pos h]

theorem sizeClass_large {bytes : Nat} (hlow : 2 ^ 20 < bytes) (h : bytes ≤ 2 ^ 64 - 2 ^ 20) :
    sizeClass bytes = (bytes + (2 ^ 20 - 1)) / 2 ^ 20 * 2 ^ 20 := by
  unfold sizeClass minClassBytes largeStepBytes addSize
  rw [if_neg (by omega), if_neg (by omega), if_neg (by omega), Nat.mod_eq_of_lt (by omega),
    Nat.mod_eq_of_lt (by omega)]

theorem sizeClass_huge {bytes : Nat} (h : 2 ^ 64 - 2 ^ 20 < bytes) : sizeClass bytes = bytes := by
  unfold sizeClass minClassBytes largeStepBytes
  rw [if_neg (by omega), if_neg (by omega), if_pos (by omega)]

/-- The four cases of the size-class table. -/
theorem sizeClass_cases (bytes : Nat) :
    bytes ≤ 512 ∨ (512 < bytes ∧ bytes ≤ 2 ^ 20) ∨
      (2 ^ 20 < bytes ∧ bytes ≤ 2 ^ 64 - 2 ^ 20) ∨ 2 ^ 64 - 2 ^ 20 < bytes := by
  omega

/-- A power of two covers what it was rounded up from, and stays within the largest. -/
theorem clog_bounds {bytes : Nat} (h : bytes ≤ 2 ^ 20) :
    bytes ≤ 2 ^ Nat.clog 2 bytes ∧ 2 ^ Nat.clog 2 bytes ≤ 2 ^ 20 :=
  ⟨Nat.le_pow_clog Nat.one_lt_two bytes,
    Nat.pow_le_pow_right Nat.two_pos (Nat.clog_le_of_le_pow h)⟩

/-- **A size class never rounds below the request.** -/
theorem le_sizeClass (bytes : Nat) : bytes ≤ sizeClass bytes := by
  rcases sizeClass_cases bytes with h | ⟨hlow, h⟩ | ⟨hlow, h⟩ | h
  · rw [sizeClass_small h]
    exact h
  · rw [sizeClass_medium hlow h]
    exact (clog_bounds h).1
  · rw [sizeClass_large hlow h]
    omega
  · rw [sizeClass_huge h]

theorem sizeClass_pos (bytes : Nat) : 0 < sizeClass bytes := by
  by_cases h : bytes = 0
  · rw [h, sizeClass_small (by omega)]
    omega
  · have := le_sizeClass bytes
    omega

/-! ### Blocks apart

Two blocks of the upstream share no byte, which is a property of pairs and is kept by leaving
blocks out. -/

theorem Block.Apart.symm {b c : Block} (h : b.Apart c) : c.Apart b := Or.symm h

instance : Std.Symm Block.Apart := ⟨fun _ _ => Block.Apart.symm⟩

theorem pairwise_cons {b : Block} {s : Multiset Block} :
    (b ::ₘ s).Pairwise Block.Apart ↔ (∀ c ∈ s, b.Apart c) ∧ s.Pairwise Block.Apart := by
  induction s using Quotient.inductionOn with
  | h l =>
    simp only [Multiset.quot_mk_to_coe, Multiset.cons_coe, Multiset.pairwise_coe_iff_pairwise,
      List.pairwise_cons, Multiset.mem_coe]

theorem pairwise_of_le {s t : Multiset Block} (h : s ≤ t) (ht : t.Pairwise Block.Apart) :
    s.Pairwise Block.Apart := by
  obtain ⟨l, rfl, hl⟩ := ht
  induction s using Quotient.inductionOn with
  | h m =>
    obtain ⟨m', hperm, hsub⟩ := Multiset.coe_le.mp h
    exact ⟨m', Multiset.coe_eq_coe.mpr hperm.symm, hl.sublist hsub⟩

/-! ### Size arithmetic

The sums are 64-bit, and none of them wraps as long as the blocks lie in the address space. -/

theorem subSize_of_le {a b : Nat} (ha : a < 2 ^ 64) (h : b ≤ a) : subSize a b = a - b := by
  unfold subSize
  omega

/-! ### What the upstream is asked

Whatever is given back was handed out before, and only once. -/

namespace UpstreamCall

theorem settle_frees (o : Multiset Block) (victims : List Block) :
    (victims.map UpstreamCall.free).foldl settle o = o - (victims : Multiset Block) := by
  induction victims generalizing o with
  | nil => simp
  | cons b victims ih =>
    rw [List.map_cons, List.foldl_cons, ih, ← Multiset.cons_coe, Multiset.sub_cons]
    rfl

end UpstreamCall

theorem honestLog_append {xs ys : List UpstreamCall} {o : Multiset Block} :
    HonestLog o (xs ++ ys) ↔ HonestLog o xs ∧ HonestLog (xs.foldl UpstreamCall.settle o) ys := by
  induction xs generalizing o with
  | nil => simp [HonestLog]
  | cons x xs ih => simp [HonestLog, ih, and_assoc]

namespace CachingAllocator

/-! ### The books

Every outstanding block is in exactly one place.  The counters are sums over these places. -/

/-- The blocks of the buffers handed out. -/
def liveBlocks (a : CachingAllocator) : Multiset Block := IdMap.total a.live fun _ b => {b.storage}

/-- The blocks on the free lists. -/
def cachedBlocks (a : CachingAllocator) : Multiset Block :=
  IdMap.total a.freeLists fun _ l => (l : Multiset Block)

/-- The class sizes of the live blocks. -/
def liveBytes (a : CachingAllocator) : Nat := IdMap.total a.live fun _ b => b.classBytes

/-- The class sizes of the cached blocks. -/
def cachedBytes (a : CachingAllocator) : Nat := IdMap.total a.freeLists fun c l => c * l.length

/-- The bytes of some blocks. -/
def blockBytes (s : Multiset Block) : Nat := (s.map (·.bytes)).sum

/-- Where every outstanding block is, with those that are in neither place yet. -/
structure Ledger (a : CachingAllocator) (outstanding loose : Multiset Block) : Prop where
  outstanding_eq : outstanding = a.liveBlocks + a.cachedBlocks + loose
  apart : outstanding.Pairwise Block.Apart
  total : blockBytes outstanding < 2 ^ 64
  nonempty : ∀ b ∈ outstanding, 0 < b.bytes
  live : ∀ data b, a.live.lookup data = some b →
    b.storage.data = data ∧ b.storage.bytes = b.classBytes
  cached : ∀ c l, a.freeLists.lookup c = some l → ∀ b ∈ l, b.bytes = c
  allocated : a.stats.bytesAllocated = a.liveBytes
  reserved : a.stats.bytesReserved = a.liveBytes + a.cachedBytes + blockBytes loose

variable {a : CachingAllocator} {o loose : Multiset Block}

@[simp] theorem blockBytes_add (s t : Multiset Block) :
    blockBytes (s + t) = blockBytes s + blockBytes t := by
  simp [blockBytes]

@[simp] theorem blockBytes_cons (b : Block) (s : Multiset Block) :
    blockBytes (b ::ₘ s) = b.bytes + blockBytes s := by
  simp [blockBytes]

@[simp] theorem blockBytes_zero : blockBytes 0 = 0 := rfl

/-- `blockBytes` as a homomorphism. -/
def blockBytesHom : Multiset Block →+ Nat where
  toFun := blockBytes
  map_zero' := blockBytes_zero
  map_add' := blockBytes_add

/-- Live blocks are as large as their class. -/
theorem Ledger.liveBytes_eq (h : Ledger a o loose) : blockBytes a.liveBlocks = a.liveBytes := by
  have hmap := IdMap.map_total blockBytesHom a.live fun _ b => ({b.storage} : Multiset Block)
  refine Eq.trans hmap (IdMap.total_congr fun data b hb => ?_)
  have hsize := (h.live data b hb).2
  simpa [blockBytesHom, blockBytes] using hsize

/-- Cached blocks are as large as their class. -/
theorem Ledger.cachedBytes_eq (h : Ledger a o loose) :
    blockBytes a.cachedBlocks = a.cachedBytes := by
  have hmap := IdMap.map_total blockBytesHom a.freeLists fun _ l => (l : Multiset Block)
  refine Eq.trans hmap (IdMap.total_congr fun c l hl => ?_)
  show ((l : Multiset Block).map (·.bytes)).sum = c * l.length
  have hclass : l.map (·.bytes) = List.replicate l.length c :=
    List.map_eq_replicate_iff.mpr (h.cached c l hl)
  rw [Multiset.map_coe, Multiset.sum_coe, hclass, List.sum_replicate_nat, Nat.mul_comm]

/-- The counters are sums of outstanding blocks. -/
theorem Ledger.reserved_eq (h : Ledger a o loose) : a.stats.bytesReserved = blockBytes o := by
  rw [h.reserved, h.outstanding_eq, blockBytes_add, blockBytes_add, h.liveBytes_eq,
    h.cachedBytes_eq]

theorem Ledger.bytes_lt (h : Ledger a o loose) :
    a.liveBytes + a.cachedBytes + blockBytes loose < 2 ^ 64 := by
  rw [← h.reserved, h.reserved_eq]
  exact h.total

/-! ### Giving the cache back

All free lists are emptied at once, and what was on them goes back to the upstream.  The sum of
the bytes does not wrap, for the blocks lie in the address space. -/

/-- The victims, as a collection. -/
theorem victims_eq (a : CachingAllocator) :
    ((a.releaseCachedLocked.1 : List Block) : Multiset Block) = a.cachedBlocks := by
  show ((a.freeLists.entries.flatMap (·.2) : List Block) : Multiset Block)
    = (a.freeLists.entries.map fun e => ((e.2 : List Block) : Multiset Block)).sum
  induction a.freeLists.entries with
  | nil => rfl
  | cons e l ih => rw [List.flatMap_cons, List.map_cons, List.sum_cons, ← ih, Multiset.coe_add]

/-- The bytes released, as long as they fit. -/
theorem released_eq (h : a.cachedBytes < 2 ^ 64) : a.releaseCachedLocked.2.1 = a.cachedBytes := by
  show a.freeLists.entries.foldl (fun released e => addSize released (e.1 * e.2.length % 2 ^ 64)) 0
    = _
  have hfold : ∀ (l : List (Sigma fun _ : Nat => List Block)) (n : Nat),
      n + (l.map fun e => e.1 * e.2.length).sum < 2 ^ 64 →
      l.foldl (fun released e => addSize released (e.1 * e.2.length % 2 ^ 64)) n
        = n + (l.map fun e => e.1 * e.2.length).sum := by
    intro l
    induction l with
    | nil => intro n _; simp
    | cons e l ih =>
      intro n hn
      rw [List.map_cons, List.sum_cons] at hn
      rw [List.foldl_cons, Nat.mod_eq_of_lt (by omega), addSize_of_lt (by omega), ih _ (by omega),
        List.map_cons, List.sum_cons]
      omega
  rw [hfold _ 0 (by rw [Nat.zero_add]; exact h), Nat.zero_add]
  rfl

theorem Ledger.releaseCachedLocked (h : Ledger a o 0) :
    Ledger a.releaseCachedLocked.2.2 (o - a.releaseCachedLocked.1) 0 := by
  have hlt := h.bytes_lt
  have hreleased : a.releaseCachedLocked.2.1 = a.cachedBytes :=
    released_eq (by simp only [blockBytes_zero] at hlt; omega)
  have hout : o - a.releaseCachedLocked.1 = a.liveBlocks := by
    rw [victims_eq, h.outstanding_eq, add_zero, Multiset.add_sub_cancel_right]
  have hle : a.liveBlocks ≤ o := by
    rw [h.outstanding_eq, add_assoc]
    exact Multiset.le_add_right _ _
  rw [hout]
  refine ⟨?_, pairwise_of_le hle h.apart, ?_, fun b hb => h.nonempty b (Multiset.mem_of_le hle hb),
    h.live, ?_, h.allocated, ?_⟩
  · show a.liveBlocks = a.liveBlocks + 0 + 0
    simp
  · rw [h.liveBytes_eq]
    omega
  · intro c l hl
    cases hl
  · show subSize a.stats.bytesReserved a.releaseCachedLocked.2.1 = a.liveBytes + 0 + 0
    rw [hreleased, subSize_of_le (by rw [h.reserved]; exact hlt)
      (by rw [h.reserved]; omega), h.reserved]
    simp

/-! ### Handing a block out

A request is served from the free list of its class, or by the upstream.  A refusal of the
upstream is answered by giving back the cache and asking again. -/

/-- A loose block is not live. -/
theorem Ledger.not_live {storage : Block} (h : Ledger a o {storage}) :
    storage.data ∉ a.live := by
  intro hc
  obtain ⟨b, hb⟩ := IdMap.exists_of_mem hc
  have hlive : {b.storage} ≤ a.liveBlocks :=
    IdMap.le_total hb fun _ b => ({b.storage} : Multiset Block)
  have hle : storage ::ₘ {b.storage} ≤ o := by
    rw [h.outstanding_eq, ← Multiset.singleton_add, add_comm]
    exact add_le_add (hlive.trans (Multiset.le_add_right _ _)) le_rfl
  have hpair := (pairwise_cons.mp (pairwise_of_le hle h.apart)).1 b.storage (by simp)
  have hdata := (h.live _ b hb).1
  have hpos := h.nonempty storage (Multiset.mem_of_le hle (by simp))
  have hpos' := h.nonempty b.storage (Multiset.mem_of_le hle (by simp))
  unfold Block.Apart at hpair
  omega

/-- A loose block of its class becomes live. -/
theorem Ledger.handOut {storage : Block} {classBytes : Nat} (bytes : Nat)
    (h : Ledger a o {storage}) (hclass : storage.bytes = classBytes) :
    a.handOut storage classBytes bytes = (⟨storage.data, bytes⟩, [],
      { a with
        live := a.live.insert storage.data ⟨storage, classBytes⟩
        stats := { a.stats with bytesAllocated := addSize a.stats.bytesAllocated classBytes } }) ∧
    Ledger (a.handOut storage classBytes bytes).2.2 o 0 := by
  have hnot := h.not_live
  have heq : a.handOut storage classBytes bytes = (⟨storage.data, bytes⟩, [],
      { a with
        live := a.live.insert storage.data ⟨storage, classBytes⟩
        stats := { a.stats with
          bytesAllocated := addSize a.stats.bytesAllocated classBytes } }) := by
    unfold CachingAllocator.handOut
    rw [if_neg hnot]
  refine ⟨heq, ?_⟩
  rw [heq]
  have hlt := h.bytes_lt
  have hloose : blockBytes {storage} = classBytes := by
    rw [← hclass]
    simp [blockBytes]
  rw [hloose] at hlt
  have hblocks : IdMap.total (a.live.insert storage.data ⟨storage, classBytes⟩)
      (fun _ b => ({b.storage} : Multiset Block)) = {storage} + a.liveBlocks :=
    IdMap.total_insert_fresh hnot _ _
  have hbytes : IdMap.total (a.live.insert storage.data ⟨storage, classBytes⟩)
      (fun _ b => b.classBytes) = classBytes + a.liveBytes :=
    IdMap.total_insert_fresh hnot _ _
  refine ⟨?_, h.apart, h.total, h.nonempty, ?_, h.cached, ?_, ?_⟩
  · show o = IdMap.total _ _ + a.cachedBlocks + 0
    rw [hblocks, h.outstanding_eq]
    abel
  · intro data b hb
    rcases IdMap.lookup_insert_iff.mp hb with ⟨rfl, rfl⟩ | ⟨_, hb⟩
    · exact ⟨rfl, hclass⟩
    · exact h.live data b hb
  · show addSize a.stats.bytesAllocated classBytes = IdMap.total _ _
    rw [hbytes, h.allocated, addSize_of_lt (by omega), Nat.add_comm]
  · show a.stats.bytesReserved = IdMap.total _ _ + a.cachedBytes + 0
    rw [hbytes, h.reserved, hloose]
    omega

/-- A fresh block arrives, and is counted as reserved. -/
theorem Ledger.arrive {b : Block} {bytes alignment : Nat} (h : Ledger a o 0)
    (hfresh : Fresh o bytes alignment b) (hpos : 0 < bytes) :
    Ledger { a with
      stats := { a.stats with bytesReserved := addSize a.stats.bytesReserved bytes } }
      (b ::ₘ o) {b} := by
  have htotal := hfresh.total
  have hreserved := h.reserved_eq
  have hbytes := hfresh.bytes_eq
  refine ⟨?_, pairwise_cons.mpr ⟨hfresh.apart, h.apart⟩, ?_, ?_, h.live, h.cached, h.allocated, ?_⟩
  · show b ::ₘ o = a.liveBlocks + a.cachedBlocks + {b}
    rw [← Multiset.singleton_add, h.outstanding_eq]
    abel
  · rw [blockBytes_cons]
    exact htotal
  · intro c hc
    rcases Multiset.mem_cons.mp hc with rfl | hc
    · omega
    · exact h.nonempty c hc
  · show addSize a.stats.bytesReserved bytes
      = a.liveBytes + a.cachedBytes + blockBytes {b}
    have hone : blockBytes {b} = bytes := by
      rw [← hbytes]
      simp [blockBytes]
    have hsum : blockBytes o = (o.map (·.bytes)).sum := rfl
    have := h.reserved
    rw [blockBytes_zero] at this
    rw [hone, addSize_of_lt (by omega)]
    omega

/-- A block is taken off the free list of its class. -/
theorem Ledger.take {storage : Block} {rest : List Block} {c : Nat} (h : Ledger a o 0)
    (hlist : a.freeLists.lookup c = some (storage :: rest)) (n : Nat) :
    Ledger { a with
      freeLists := a.freeLists.insert c rest
      stats := { a.stats with hitCount := n } } o {storage} ∧ storage.bytes = c := by
  have hclass := h.cached c _ hlist
  have hblocks : IdMap.total (a.freeLists.insert c rest) (fun _ l => (l : Multiset Block))
      + ((storage :: rest : List Block) : Multiset Block)
      = a.cachedBlocks + (rest : Multiset Block) :=
    IdMap.total_insert_add hlist fun _ l => (l : Multiset Block)
  have hbytes : IdMap.total (a.freeLists.insert c rest) (fun c l => c * l.length)
      + c * (storage :: rest).length = a.cachedBytes + c * rest.length :=
    IdMap.total_insert_add hlist fun c l => c * l.length
  have hstorage : storage.bytes = c := hclass storage List.mem_cons_self
  refine ⟨⟨?_, h.apart, h.total, h.nonempty, h.live, ?_, h.allocated, ?_⟩, hstorage⟩
  · show o = a.liveBlocks + IdMap.total _ _ + {storage}
    have hcancel : IdMap.total (a.freeLists.insert c rest) (fun _ l => (l : Multiset Block))
        + {storage} = a.cachedBlocks := by
      rw [← Multiset.cons_coe, ← Multiset.singleton_add, ← add_assoc] at hblocks
      exact add_right_cancel hblocks
    rw [add_assoc, hcancel, h.outstanding_eq, add_zero]
  · intro c' l hl
    rcases IdMap.lookup_insert_iff.mp hl with ⟨rfl, rfl⟩ | ⟨_, hl⟩
    · exact fun b hb => hclass b (List.mem_cons_of_mem _ hb)
    · exact h.cached c' l hl
  · show a.stats.bytesReserved = a.liveBytes
      + IdMap.total (a.freeLists.insert c rest) (fun c l => c * l.length) + blockBytes {storage}
    have hone : blockBytes {storage} = c := by
      rw [← hstorage]
      simp [blockBytes]
    have hres := h.reserved
    rw [blockBytes_zero] at hres
    rw [List.length_cons, Nat.mul_add, Nat.mul_one] at hbytes
    rw [hone, hres]
    omega

/-- A miss does not touch what is live. -/
theorem fetch_live (a : CachingAllocator) (classBytes : Nat) (first second : StatusOr Block) :
    (a.fetch classBytes first second).2.2.live = a.live ∧
      (a.fetch classBytes first second).2.2.stats.bytesAllocated = a.stats.bytesAllocated := by
  unfold CachingAllocator.fetch
  cases first with
  | ok storage => exact ⟨rfl, rfl⟩
  | error status =>
    simp only
    split
    · exact ⟨rfl, rfl⟩
    · exact ⟨rfl, rfl⟩

/-- What a miss leaves: the books without the block that was fetched. -/
def Fetched (o : Multiset Block) (classBytes : Nat) (fetched : StatusOr Block)
    (calls : List UpstreamCall) (a' : CachingAllocator) : Prop :=
  ∃ o', Ledger a' o' 0 ∧ match fetched with
    | .ok b => calls.foldl UpstreamCall.settle o = b ::ₘ o' ∧ Fresh o' classBytes maxAlignment b
    | .error _ => calls.foldl UpstreamCall.settle o = o'

theorem Ledger.fetch {classBytes : Nat} {first second : StatusOr Block} (h : Ledger a o 0)
    (honest : HonestLog o (a.fetch classBytes first second).2.1) :
    Fetched o classBytes (a.fetch classBytes first second).1
      (a.fetch classBytes first second).2.1 (a.fetch classBytes first second).2.2 := by
  unfold CachingAllocator.fetch at honest ⊢
  cases first with
  | ok storage =>
    obtain ⟨hfresh, _⟩ := honest
    exact ⟨o, h, rfl, hfresh⟩
  | error status =>
    simp only at honest ⊢
    by_cases hexhausted : isExhausted status = true
    · rw [if_pos hexhausted] at honest ⊢
      have hreleased := h.releaseCachedLocked
      simp only at honest ⊢
      have hsettle : ([UpstreamCall.allocate classBytes maxAlignment (.error status)]
          ++ a.releaseCachedLocked.1.map UpstreamCall.free).foldl UpstreamCall.settle o
          = o - a.releaseCachedLocked.1 := by
        rw [List.foldl_append, UpstreamCall.settle_frees]
        rfl
      rw [honestLog_append, hsettle] at honest
      cases second with
      | ok storage =>
        refine ⟨_, hreleased, ?_, honest.2.1⟩
        rw [List.foldl_append, hsettle]
        rfl
      | error status' =>
        refine ⟨_, hreleased, ?_⟩
        rw [List.foldl_append, hsettle]
        rfl
    · rw [if_neg hexhausted] at honest ⊢
      exact ⟨o, h, rfl⟩

/-! ### Allocate and Return

The two operations, from books to books. -/

/-- What an allocation leaves. -/
structure Allocated (a : CachingAllocator) (o : Multiset Block) (bytes : Nat)
    (answer : StatusOr PoolBuffer) (calls : List UpstreamCall) (a' : CachingAllocator) :
    Prop where
  ledger : Ledger a' (calls.foldl UpstreamCall.settle o) 0
  answered : match answer with
    | .error _ => a'.live = a.live ∧ a'.stats.bytesAllocated = a.stats.bytesAllocated
    | .ok buffer => buffer.sizeBytes = bytes ∧
        (bytes = 0 ∧ a'.live = a.live ∨
          bytes ≠ 0 ∧ ∃ storage, storage.data = buffer.data ∧ storage.data ∉ a.live ∧
            a'.live = a.live.insert storage.data ⟨storage, sizeClass bytes⟩)

/-- **Allocation** answers whatever the upstream does, and keeps the books when the upstream
keeps its promise. -/
theorem Ledger.allocate {bytes alignment : Nat} {first second : StatusOr Block}
    {answer : StatusOr PoolBuffer} {calls : List UpstreamCall} {a' : CachingAllocator}
    (h : Ledger a o 0) (hrun : a.allocate bytes alignment first second = .ok (answer, calls, a'))
    (honest : HonestLog o calls) : Allocated a o bytes answer calls a' := by
  unfold CachingAllocator.allocate at hrun
  obtain ⟨_, _, hrun⟩ := bind_eq_ok.mp hrun
  obtain ⟨_, _, hrun⟩ := bind_eq_ok.mp hrun
  by_cases hbytes : bytes = 0
  · rw [if_pos hbytes] at hrun
    cases hrun
    exact ⟨h, hbytes.symm, .inl ⟨hbytes, rfl⟩⟩
  rw [if_neg hbytes] at hrun
  simp only at hrun
  split at hrun
  · -- a hit
    rename_i storage rest hlist
    obtain ⟨htake, hclass⟩ := h.take hlist (addSize a.stats.hitCount 1)
    obtain ⟨heq, hledger⟩ := htake.handOut bytes hclass
    rw [heq] at hledger
    simp only [heq] at hrun
    cases hrun
    exact ⟨hledger, rfl, .inr ⟨hbytes, storage, rfl, htake.not_live, rfl⟩⟩
  · -- a miss
    have hmiss : Ledger { a with
        stats := { a.stats with missCount := addSize a.stats.missCount 1 } } o 0 :=
      ⟨h.outstanding_eq, h.apart, h.total, h.nonempty, h.live, h.cached, h.allocated, h.reserved⟩
    rcases hfetch : CachingAllocator.fetch { a with
        stats := { a.stats with missCount := addSize a.stats.missCount 1 } }
        (sizeClass bytes) first second with ⟨fetched, fcalls, a₂⟩
    have hkept := fetch_live { a with
        stats := { a.stats with missCount := addSize a.stats.missCount 1 } }
        (sizeClass bytes) first second
    rw [hfetch] at hrun hkept
    have hlive : a₂.live = a.live := hkept.1
    cases fetched with
    | error status =>
      cases hrun
      have hfetched := hmiss.fetch (by rw [hfetch]; exact honest)
      rw [hfetch] at hfetched
      obtain ⟨o', hledger, hsettle⟩ := hfetched
      refine ⟨?_, hkept⟩
      rw [hsettle]
      exact hledger
    | ok storage =>
      simp only at hrun
      have hlog : HonestLog o fcalls := by
        cases hrun
        exact (honestLog_append.mp honest).1
      have hfetched := hmiss.fetch (by rw [hfetch]; exact hlog)
      rw [hfetch] at hfetched
      obtain ⟨o', hledger, hsettle, hfresh⟩ := hfetched
      have harrived := hledger.arrive hfresh (sizeClass_pos bytes)
      obtain ⟨heq, hdone⟩ := harrived.handOut bytes hfresh.bytes_eq
      rw [heq] at hdone
      simp only [heq] at hrun
      cases hrun
      refine ⟨?_, rfl, .inr ⟨hbytes, storage, rfl, ?_, ?_⟩⟩
      · rw [List.append_nil, hsettle]
        exact hdone
      · have hnot := harrived.not_live
        rwa [hlive] at hnot
      · show a₂.live.insert _ _ = _
        rw [hlive]

/-- A live block goes back to the free list of its class. -/
theorem Ledger.returnBlock {data : Nat} {b : LiveBlock} (h : Ledger a o 0)
    (hb : a.live.lookup data = some b) :
    ∃ a', a.returnBlock data = .ok a' ∧ a'.live = a.live.erase data ∧ Ledger a' o 0 := by
  have hrun : a.returnBlock data = .ok
      { a with
        live := a.live.erase data
        freeLists := a.freeLists.insert b.classBytes
          (b.storage :: (a.freeLists.lookup b.classBytes).getD [])
        stats := { a.stats with
          bytesAllocated := subSize a.stats.bytesAllocated b.classBytes } } := by
    unfold CachingAllocator.returnBlock
    rw [hb]
    rfl
  refine ⟨_, hrun, rfl, ?_⟩
  obtain ⟨hdata, hsize⟩ := h.live data b hb
  have hblocks : a.liveBlocks = {b.storage}
      + IdMap.total (a.live.erase data) (fun _ b => ({b.storage} : Multiset Block)) :=
    IdMap.total_erase hb fun _ b => ({b.storage} : Multiset Block)
  have hbytes : a.liveBytes = b.classBytes
      + IdMap.total (a.live.erase data) (fun _ b => b.classBytes) :=
    IdMap.total_erase hb fun _ b => b.classBytes
  generalize hl : (a.freeLists.lookup b.classBytes).getD [] = l
  have hcached : IdMap.total (a.freeLists.insert b.classBytes (b.storage :: l))
      (fun _ l => (l : Multiset Block)) = {b.storage} + a.cachedBlocks := by
    have hinsert := IdMap.total_insert_getD (m := a.freeLists) (k := b.classBytes)
      (w := b.storage :: l) (d := []) (f := fun _ l => (l : Multiset Block)) rfl
    rw [hl, ← Multiset.cons_coe, ← Multiset.singleton_add, ← add_assoc] at hinsert
    rw [add_right_cancel hinsert, add_comm]
    rfl
  have hcachedBytes : IdMap.total (a.freeLists.insert b.classBytes (b.storage :: l))
      (fun c l => c * l.length) = b.classBytes + a.cachedBytes := by
    have hinsert := IdMap.total_insert_getD (m := a.freeLists) (k := b.classBytes)
      (w := b.storage :: l) (d := []) (f := fun c l => c * l.length) (by simp)
    have hcount : a.cachedBytes = IdMap.total a.freeLists fun c l => c * l.length := rfl
    rw [hl, List.length_cons, Nat.mul_add, Nat.mul_one] at hinsert
    omega
  have hlt := h.bytes_lt
  rw [blockBytes_zero] at hlt
  refine ⟨?_, h.apart, h.total, h.nonempty, ?_, ?_, ?_, ?_⟩
  · show o = IdMap.total _ _ + IdMap.total _ _ + 0
    rw [hcached, h.outstanding_eq, hblocks]
    abel
  · intro data' c hc
    exact h.live data' c (IdMap.lookup_erase_iff.mp hc).2
  · intro c l' hl'
    rcases IdMap.lookup_insert_iff.mp hl' with ⟨rfl, rfl⟩ | ⟨_, hl'⟩
    · intro s hs
      rcases List.mem_cons.mp hs with rfl | hs
      · exact hsize
      · cases hlist : a.freeLists.lookup b.classBytes with
        | none =>
          rw [hlist, Option.getD_none] at hl
          rw [← hl] at hs
          cases hs
        | some old =>
          rw [hlist, Option.getD_some] at hl
          exact h.cached _ old hlist s (hl ▸ hs)
    · exact h.cached c l' hl'
  · show subSize a.stats.bytesAllocated b.classBytes
      = IdMap.total (a.live.erase data) fun _ b => b.classBytes
    rw [h.allocated, subSize_of_le (by omega) (by omega)]
    omega
  · show a.stats.bytesReserved = IdMap.total (a.live.erase data) (fun _ b => b.classBytes)
      + IdMap.total (a.freeLists.insert b.classBytes (b.storage :: l)) (fun c l => c * l.length)
      + blockBytes 0
    rw [hcachedBytes, h.reserved, hbytes]
    simp only [blockBytes_zero]
    omega

/-- An allocation that fails takes nothing from anybody. -/
theorem allocate_error {bytes alignment : Nat} {first second : StatusOr Block} {status : Status}
    {calls : List UpstreamCall} {a' : CachingAllocator}
    (hrun : a.allocate bytes alignment first second = .ok (.error status, calls, a')) :
    a'.live = a.live ∧ a'.stats.bytesAllocated = a.stats.bytesAllocated := by
  unfold CachingAllocator.allocate at hrun
  obtain ⟨_, _, hrun⟩ := bind_eq_ok.mp hrun
  obtain ⟨_, _, hrun⟩ := bind_eq_ok.mp hrun
  by_cases hbytes : bytes = 0
  · rw [if_pos hbytes] at hrun
    cases hrun
  rw [if_neg hbytes] at hrun
  simp only at hrun
  split at hrun
  · cases hrun
  · have hkept := fetch_live { a with
        stats := { a.stats with missCount := addSize a.stats.missCount 1 } }
        (sizeClass bytes) first second
    split at hrun
    · cases hrun
      exact hkept
    · cases hrun

/-- An allocation with an admissible alignment is answered, whatever the upstream says. -/
theorem allocate_answers (a : CachingAllocator) (bytes : Nat) {alignment : Nat}
    (hpow : isPowerOfTwo alignment = true) (hmax : alignment ≤ maxAlignment)
    (first second : StatusOr Block) :
    ∃ result, a.allocate bytes alignment first second = .ok result := by
  unfold CachingAllocator.allocate
  rw [check_of_true hpow, check_of_true (by simpa using hmax), ok_bind, ok_bind]
  split
  · exact ⟨_, rfl⟩
  · simp only
    split
    · exact ⟨_, rfl⟩
    · split
      · exact ⟨_, rfl⟩
      · exact ⟨_, rfl⟩

end CachingAllocator

/-! ### Every run

The books are kept by every call, whatever the upstream says.  The promises about blocks are
read off them. -/

namespace CachingWorld

open CachingAllocator

/-- The addresses of the buffers that have a block. -/
def heldData (held : List PoolBuffer) : Multiset Nat :=
  ((held : Multiset PoolBuffer).filter (·.sizeBytes ≠ 0)).map (·.data)

/-- What holds of the pool, its upstream and its callers at any time. -/
structure Books (w : CachingWorld) : Prop where
  ledger : Ledger w.pool w.outstanding 0
  held : heldData w.held = IdMap.total w.pool.live fun data _ => ({data} : Multiset Nat)
  sized : ∀ buffer ∈ w.held, buffer.sizeBytes ≠ 0 →
    ∃ b, w.pool.live.lookup buffer.data = some b ∧ buffer.sizeBytes ≤ b.classBytes

variable {w w' : CachingWorld}

theorem heldData_nil : heldData [] = 0 := rfl

theorem heldData_cons_zero {buffer : PoolBuffer} (held : List PoolBuffer)
    (h : buffer.sizeBytes = 0) : heldData (buffer :: held) = heldData held := by
  unfold heldData
  rw [← Multiset.cons_coe, Multiset.filter_cons_of_neg _ (by simpa using h)]

theorem heldData_cons {buffer : PoolBuffer} (held : List PoolBuffer)
    (h : buffer.sizeBytes ≠ 0) :
    heldData (buffer :: held) = buffer.data ::ₘ heldData held := by
  unfold heldData
  rw [← Multiset.cons_coe,
    Multiset.filter_cons_of_pos (p := fun b : PoolBuffer => b.sizeBytes ≠ 0) _ h,
    Multiset.map_cons]

theorem heldData_perm {held held' : List PoolBuffer} (h : held.Perm held') :
    heldData held = heldData held' := by
  unfold heldData
  rw [Multiset.coe_eq_coe.mpr h]

theorem mem_heldData {buffer : PoolBuffer} {held : List PoolBuffer} (h : buffer ∈ held)
    (hsize : buffer.sizeBytes ≠ 0) : buffer.data ∈ heldData held :=
  Multiset.mem_map_of_mem _ (Multiset.mem_filter.mpr ⟨h, hsize⟩)

/-- No address is held twice. -/
theorem Books.nodup (h : Books w) : (heldData w.held).Nodup := by
  rw [h.held]
  have hkeys : (IdMap.total w.pool.live fun data _ => ({data} : Multiset Nat))
      = (w.pool.live.keys : Multiset Nat) := by
    unfold IdMap.total AList.keys List.keys
    induction w.pool.live.entries with
    | nil => rfl
    | cons e l ih =>
      rw [List.map_cons, List.sum_cons, ih, List.map_cons, ← Multiset.cons_coe,
        Multiset.singleton_add]
  rw [hkeys]
  exact Multiset.coe_nodup.mpr w.pool.live.keys_nodup

theorem books_new : Books ⟨.new, [], 0⟩ := by
  refine ⟨⟨?_, ⟨[], rfl, List.Pairwise.nil⟩, ?_, ?_, ?_, ?_, ?_, ?_⟩, ?_, ?_⟩
  · simp [liveBlocks, cachedBlocks, CachingAllocator.new]
  · simp
  · simp
  · intro data b hb
    cases hb
  · intro c l hl
    cases hl
  · simp [liveBytes, CachingAllocator.new]
  · simp [liveBytes, cachedBytes, CachingAllocator.new]
  · simp [CachingAllocator.new, heldData_nil]
  · simp

theorem Books.allocate {bytes alignment : Nat} {first second : StatusOr Block}
    {answer : StatusOr PoolBuffer} {calls : List UpstreamCall} {pool : CachingAllocator}
    (h : Books w) (hrun : w.pool.allocate bytes alignment first second = .ok (answer, calls, pool))
    (honest : HonestLog w.outstanding calls) :
    Books ⟨pool, answer.toOption.toList ++ w.held,
      calls.foldl UpstreamCall.settle w.outstanding⟩ := by
  obtain ⟨hledger, hanswered⟩ := h.ledger.allocate hrun honest
  cases answer with
  | error status =>
    have hlive : pool.live = w.pool.live := hanswered.1
    refine ⟨hledger, ?_, ?_⟩
    · show heldData w.held = IdMap.total pool.live _
      rw [hlive]
      exact h.held
    · show ∀ buffer ∈ w.held, _ → ∃ b, pool.live.lookup _ = _ ∧ _
      rw [hlive]
      exact h.sized
  | ok buffer =>
    obtain ⟨hsize, ⟨hzero, hlive⟩ | ⟨hnonzero, storage, hdata, hnot, hlive⟩⟩ := hanswered
    · refine ⟨hledger, ?_, ?_⟩
      · show heldData (buffer :: w.held) = IdMap.total pool.live _
        rw [hlive, heldData_cons_zero _ (hsize.trans hzero)]
        exact h.held
      · show ∀ b ∈ buffer :: w.held, _ → ∃ c, pool.live.lookup _ = _ ∧ _
        rw [hlive]
        intro b hb hb0
        rcases List.mem_cons.mp hb with rfl | hb
        · exact absurd (hsize.trans hzero) hb0
        · exact h.sized b hb hb0
    · refine ⟨hledger, ?_, ?_⟩
      · show heldData (buffer :: w.held) = IdMap.total pool.live _
        rw [hlive, heldData_cons _ (hsize ▸ hnonzero), IdMap.total_insert_fresh hnot, h.held, hdata,
          Multiset.singleton_add]
      · show ∀ b ∈ buffer :: w.held, _ → ∃ c, pool.live.lookup _ = _ ∧ _
        rw [hlive]
        intro b hb hb0
        rcases List.mem_cons.mp hb with rfl | hb
        · refine ⟨_, by rw [← hdata]; exact AList.lookup_insert _, ?_⟩
          rw [hsize]
          exact le_sizeClass bytes
        · obtain ⟨c, hc, hle⟩ := h.sized b hb hb0
          refine ⟨c, ?_, hle⟩
          rw [AList.lookup_insert_ne]
          · exact hc
          · rintro heq
            exact hnot (heq ▸ IdMap.mem_of_lookup hc)

/-- A held buffer can be destroyed, and the books are kept. -/
theorem Books.drop {i : Nat} {buffer : PoolBuffer} (h : Books w)
    (hget : w.held[i]? = some buffer) :
    ∃ pool, w.pool.destroyBuffer buffer = .ok pool ∧
      Books ⟨pool, w.held.eraseIdx i, w.outstanding⟩ := by
  obtain ⟨hlt, hbuffer⟩ := List.getElem?_eq_some_iff.mp hget
  have hperm := List.getElem_cons_eraseIdx_perm hlt
  rw [hbuffer] at hperm
  have hmem : buffer ∈ w.held := List.mem_of_getElem? hget
  unfold CachingAllocator.destroyBuffer
  by_cases hzero : buffer.sizeBytes = 0
  · rw [if_pos hzero]
    refine ⟨w.pool, rfl, h.ledger, ?_, ?_⟩
    · rw [← h.held, ← heldData_perm hperm, heldData_cons_zero _ hzero]
    · exact fun b hb => h.sized b (hperm.subset (List.mem_cons_of_mem _ hb))
  · rw [if_neg hzero]
    obtain ⟨b, hb, _⟩ := h.sized buffer hmem hzero
    obtain ⟨pool, hrun, hlive, hledger⟩ := h.ledger.returnBlock hb
    have hkeys : IdMap.total w.pool.live (fun data _ => ({data} : Multiset Nat))
        = {buffer.data} + IdMap.total (w.pool.live.erase buffer.data)
          fun data _ => ({data} : Multiset Nat) :=
      IdMap.total_erase hb fun data _ => ({data} : Multiset Nat)
    have hheld := h.held
    have hnodup := h.nodup
    rw [← heldData_perm hperm, heldData_cons _ hzero] at hheld hnodup
    refine ⟨pool, hrun, hledger, ?_, ?_⟩
    · show heldData (w.held.eraseIdx i) = IdMap.total pool.live _
      rw [hlive]
      rw [hkeys, Multiset.singleton_add] at hheld
      exact (Multiset.cons_inj_right _).mp hheld
    · intro c hc hc0
      obtain ⟨d, hd, hle⟩ := h.sized c (hperm.subset (List.mem_cons_of_mem _ hc)) hc0
      refine ⟨d, ?_, hle⟩
      show pool.live.lookup c.data = some d
      rw [hlive, IdMap.lookup_erase_iff]
      refine ⟨?_, hd⟩
      rintro heq
      exact (Multiset.nodup_cons.mp hnodup).1 (heq ▸ mem_heldData hc hc0)

theorem Books.releaseCached (h : Books w) :
    Books ⟨w.pool.releaseCached.2.2, w.held,
      w.pool.releaseCached.2.1.foldl UpstreamCall.settle w.outstanding⟩ := by
  have hledger := h.ledger.releaseCachedLocked
  rw [← UpstreamCall.settle_frees] at hledger
  exact ⟨hledger, h.held, h.sized⟩

/-- **The books are kept in every run.** -/
theorem reachable_books (h : cachingWorld.Reachable w) : Books w := by
  refine h.invariant ?_ ?_
  · rintro w rfl
    exact books_new
  · intro w event w' _ hbooks hstep
    cases hstep with
    | allocate size run honest => exact hbooks.allocate run honest
    | drop holds run =>
      obtain ⟨pool, hrun, hkept⟩ := hbooks.drop holds
      rw [run] at hrun
      cases hrun
      exact hkept
    | releaseCached => exact hbooks.releaseCached

/-- Two live blocks of different addresses share no byte. -/
theorem Books.live_apart (h : Books w) {x y : Nat} {b c : LiveBlock}
    (hb : w.pool.live.lookup x = some b) (hc : w.pool.live.lookup y = some c) (hne : y ≠ x) :
    b.storage.Apart c.storage := by
  have hfirst : w.pool.liveBlocks = {b.storage} + IdMap.total (w.pool.live.erase x)
      fun _ b => ({b.storage} : Multiset Block) :=
    IdMap.total_erase hb fun _ b => ({b.storage} : Multiset Block)
  have hsecond : {c.storage} ≤ IdMap.total (w.pool.live.erase x)
      fun _ b => ({b.storage} : Multiset Block) :=
    IdMap.le_total (IdMap.lookup_erase_iff.mpr ⟨hne, hc⟩)
      fun _ b => ({b.storage} : Multiset Block)
  have hle : b.storage ::ₘ {c.storage} ≤ w.outstanding := by
    rw [h.ledger.outstanding_eq, add_zero, hfirst, ← Multiset.singleton_add]
    exact (add_le_add le_rfl hsecond).trans (Multiset.le_add_right _ _)
  exact (pairwise_cons.mp (pairwise_of_le hle h.ledger.apart)).1 c.storage (by simp)

/-- No two held buffers share a byte. -/
theorem Books.buffers_apart (h : Books w) :
    w.held.Pairwise fun b c => b.sizeBytes = 0 ∨ c.sizeBytes = 0 ∨
      b.data + b.sizeBytes ≤ c.data ∨ c.data + c.sizeBytes ≤ b.data := by
  rw [List.pairwise_iff_forall_sublist]
  intro b c hsub
  by_cases hb0 : b.sizeBytes = 0
  · exact .inl hb0
  by_cases hc0 : c.sizeBytes = 0
  · exact .inr (.inl hc0)
  have hne : c.data ≠ b.data := by
    intro heq
    have hle : heldData [b, c] ≤ heldData w.held :=
      Multiset.map_le_map (Multiset.filter_le_filter _ (Multiset.coe_le.mpr hsub.subperm))
    have hpair := Multiset.nodup_of_le hle h.nodup
    rw [heldData_cons _ hb0, heldData_cons _ hc0, heldData_nil, heq] at hpair
    simp at hpair
  obtain ⟨x, hx, hxle⟩ := h.sized b (hsub.subset (by simp)) hb0
  obtain ⟨y, hy, hyle⟩ := h.sized c (hsub.subset (by simp)) hc0
  have hapart := h.live_apart hx hy hne
  obtain ⟨hxdata, hxsize⟩ := h.ledger.live _ x hx
  obtain ⟨hydata, hysize⟩ := h.ledger.live _ y hy
  unfold Block.Apart at hapart
  omega

/-- The accounts of the pool: what its counters say, and where the blocks are. -/
structure Accounts (w : CachingWorld) : Prop where
  allocated : w.pool.stats.bytesAllocated = w.pool.liveBytes
  reserved : w.pool.stats.bytesReserved = w.pool.stats.bytesAllocated + w.pool.cachedBytes
  /-- live and cached blocks are apart, and they are what the upstream has not got back -/
  apart : (w.pool.liveBlocks + w.pool.cachedBlocks).Pairwise Block.Apart
  upstream : w.outstanding = w.pool.liveBlocks + w.pool.cachedBlocks
  /-- the live blocks are those of the held buffers, each of one -/
  held : heldData w.held = IdMap.total w.pool.live fun data _ => ({data} : Multiset Nat)
  sized : ∀ buffer ∈ w.held, buffer.sizeBytes ≠ 0 →
    ∃ b, w.pool.live.lookup buffer.data = some b ∧ b.storage = ⟨buffer.data, b.classBytes⟩ ∧
      buffer.sizeBytes ≤ b.classBytes
  buffers : w.held.Pairwise fun b c => b.sizeBytes = 0 ∨ c.sizeBytes = 0 ∨
    b.data + b.sizeBytes ≤ c.data ∨ c.data + c.sizeBytes ≤ b.data
  classes : ∀ c l, w.pool.freeLists.lookup c = some l → ∀ b ∈ l, b.bytes = c

theorem Books.accounts (h : Books w) : Accounts w := by
  have hl := h.ledger
  have hout := hl.outstanding_eq
  rw [add_zero] at hout
  refine ⟨hl.allocated, ?_, hout ▸ hl.apart, hout, h.held, ?_, h.buffers_apart, hl.cached⟩
  · rw [hl.reserved, hl.allocated, blockBytes_zero, Nat.add_zero]
  · intro buffer hmem hsize
    obtain ⟨b, hb, hle⟩ := h.sized buffer hmem hsize
    obtain ⟨hdata, hbytes⟩ := hl.live _ b hb
    refine ⟨b, hb, ?_, hle⟩
    rw [← hdata, ← hbytes]

/-- The destructor objects exactly when a buffer with a block is still held. -/
theorem Books.destroy_iff (h : Books w) :
    (∃ calls, w.pool.destroy = .ok calls) ↔ ∀ buffer ∈ w.held, buffer.sizeBytes = 0 := by
  have hempty : w.pool.live.entries.isEmpty = true ↔
      ∀ buffer ∈ w.held, buffer.sizeBytes = 0 := by
    constructor
    · intro hnil buffer hmem
      by_contra hsize
      obtain ⟨b, hb, _⟩ := h.sized buffer hmem hsize
      have hentry := IdMap.lookup_eq_some_iff.mp hb
      rw [List.isEmpty_iff.mp hnil] at hentry
      cases hentry
    · intro hall
      have hnone : heldData w.held = 0 := by
        unfold heldData
        rw [Multiset.filter_eq_nil.mpr fun b hb hb0 => hb0 (hall b hb), Multiset.map_zero]
      cases hentries : w.pool.live.entries with
      | nil => rfl
      | cons e l =>
        have hle : {e.1} ≤ IdMap.total w.pool.live fun data _ => ({data} : Multiset Nat) :=
          IdMap.le_total (v := e.2) (IdMap.lookup_eq_some_iff.mpr (by
            rw [hentries]
            exact List.mem_cons_self)) fun data _ => ({data} : Multiset Nat)
        rw [← h.held, hnone] at hle
        simp at hle
  unfold CachingAllocator.destroy
  constructor
  · rintro ⟨calls, hrun⟩
    obtain ⟨_, hcheck, _⟩ := bind_eq_ok.mp hrun
    refine hempty.mp ?_
    unfold check at hcheck
    split at hcheck
    · assumption
    · cases hcheck
  · intro hall
    rw [check_of_true (hempty.mpr hall)]
    exact ⟨_, rfl⟩

/-- What a successful allocation hands out: a buffer of the size that was asked for, over a block
that was not live and whose class covers it. -/
structure Granted (w : CachingWorld) (bytes : Nat) (buffer : PoolBuffer) (pool : CachingAllocator) :
    Prop where
  sizeBytes : buffer.sizeBytes = bytes
  block : bytes ≠ 0 → buffer.data ∉ w.pool.live ∧ ∃ b, pool.live.lookup buffer.data = some b ∧
    b.storage = ⟨buffer.data, b.classBytes⟩ ∧ b.classBytes = sizeClass bytes ∧ bytes ≤ b.classBytes

theorem Books.granted {bytes alignment : Nat} {first second : StatusOr Block} {buffer : PoolBuffer}
    {calls : List UpstreamCall} {pool : CachingAllocator} (h : Books w)
    (hrun : w.pool.allocate bytes alignment first second = .ok (.ok buffer, calls, pool))
    (honest : HonestLog w.outstanding calls) : Granted w bytes buffer pool := by
  obtain ⟨hledger, hsize, hanswered⟩ := h.ledger.allocate hrun honest
  refine ⟨hsize, fun hbytes => ?_⟩
  obtain ⟨_, storage, hdata, hnot, hlive⟩ := hanswered.resolve_left fun hc => hbytes hc.1
  have hlookup : pool.live.lookup buffer.data = some ⟨storage, sizeClass bytes⟩ := by
    rw [hlive, ← hdata]
    exact AList.lookup_insert _
  obtain ⟨_, hclass⟩ := hledger.live _ _ hlookup
  refine ⟨hdata ▸ hnot, _, hlookup, ?_, rfl, le_sizeClass bytes⟩
  have hbytes : storage.bytes = sizeClass bytes := hclass
  rw [← hdata, ← hbytes]

/-- **The caching allocator keeps its books and never aliases**, in every run: the accounts
hold, a successful allocation hands out a block that was not live and covers what was asked for,
a failed one leaves the live blocks as they were, an allocation with an admissible alignment is
answered, a held buffer can be destroyed, and the destructor objects only while a buffer is
held. -/
theorem reachable_accounts (h : cachingWorld.Reachable w) :
    Accounts w ∧
    (∀ bytes alignment first second buffer calls pool,
      w.pool.allocate bytes alignment first second = .ok (.ok buffer, calls, pool) →
      HonestLog w.outstanding calls → Granted w bytes buffer pool) ∧
    (∀ bytes alignment first second status calls pool,
      w.pool.allocate bytes alignment first second = .ok (.error status, calls, pool) →
      pool.live = w.pool.live ∧ pool.stats.bytesAllocated = w.pool.stats.bytesAllocated) ∧
    (∀ bytes alignment first second, isPowerOfTwo alignment = true → alignment ≤ maxAlignment →
      ∃ result, w.pool.allocate bytes alignment first second = .ok result) ∧
    (∀ buffer ∈ w.held, ∃ pool, w.pool.destroyBuffer buffer = .ok pool) ∧
    ((∃ calls, w.pool.destroy = .ok calls) ↔ ∀ buffer ∈ w.held, buffer.sizeBytes = 0) := by
  have hbooks := reachable_books h
  refine ⟨hbooks.accounts, fun _ _ _ _ _ _ _ hrun honest => hbooks.granted hrun honest,
    fun _ _ _ _ _ _ _ hrun => allocate_error hrun,
    fun bytes _ first second hpow hmax => allocate_answers _ bytes hpow hmax first second, ?_,
    hbooks.destroy_iff⟩
  intro buffer hmem
  obtain ⟨i, hi⟩ := List.getElem?_of_mem hmem
  obtain ⟨pool, hrun, _⟩ := hbooks.drop hi
  exact ⟨pool, hrun⟩

private theorem reachable_allocate (h : cachingWorld.Reachable w) (bytes alignment : Nat)
    (first second : StatusOr Block) (calls : List UpstreamCall) {answer : StatusOr PoolBuffer}
    {pool : CachingAllocator} (size : bytes < 2 ^ 64)
    (run : w.pool.allocate bytes alignment first second = .ok (answer, calls, pool))
    (honest : HonestLog w.outstanding calls) :
    cachingWorld.Reachable ⟨pool, answer.toOption.toList ++ w.held,
      calls.foldl UpstreamCall.settle w.outstanding⟩ :=
  h.step (CachingWorld.Step.allocate size run honest)

/-- A block of 512 bytes and one of two MiB are handed out, and the first is given back. -/
private theorem recycled_reachable : ∃ w, cachingWorld.Reachable w ∧
    w.held = [⟨2 ^ 21, 2 ^ 20 + 1⟩] ∧ w.pool.cachedBytes = 512 ∧
    ∃ pool, w.pool.allocate 400 64 (.error okStatus) (.error okStatus)
      = .ok (.ok ⟨1024, 400⟩, [], pool) := by
  have h₀ : cachingWorld.Reachable ⟨.new, [], 0⟩ := .init rfl
  have h₁ := reachable_allocate h₀ 300 64 (.ok ⟨1024, 512⟩) (.error okStatus)
    [.allocate 512 256 (.ok ⟨1024, 512⟩)] (by decide) rfl
    ⟨⟨rfl, by decide, by decide, by simp, by simp⟩, trivial⟩
  have h₂ := reachable_allocate h₁ (2 ^ 20 + 1) 64 (.ok ⟨2 ^ 21, 2 ^ 21⟩) (.error okStatus)
    [.allocate (2 ^ 21) 256 (.ok ⟨2 ^ 21, 2 ^ 21⟩)] (by decide) rfl
    ⟨⟨rfl, by decide, by decide, by simp [Block.Apart, UpstreamCall.settle],
      by simp [UpstreamCall.settle]⟩, trivial⟩
  have h₃ := h₂.step (CachingWorld.Step.drop (i := 1) rfl rfl)
  exact ⟨_, h₃, rfl, rfl, _, rfl⟩

/-- With one block live and one cached, a request is served from the cache. -/
theorem reachable_accounts_recycled : ∃ w, cachingWorld.Reachable w ∧ Accounts w ∧
    w.pool.stats.bytesReserved = w.pool.stats.bytesAllocated + 512 ∧
    (∃ pool, Granted w 400 ⟨1024, 400⟩ pool) ∧ ¬ ∃ calls, w.pool.destroy = .ok calls := by
  obtain ⟨w, h, hheld, hcached, pool, hrun⟩ := recycled_reachable
  obtain ⟨haccounts, hgranted, _, _, _, hdestroy⟩ := reachable_accounts h
  refine ⟨w, h, haccounts, hcached ▸ haccounts.reserved,
    ⟨pool, hgranted _ _ _ _ _ _ _ hrun trivial⟩, fun hcalls => ?_⟩
  have := hdestroy.mp hcalls ⟨2 ^ 21, 2 ^ 20 + 1⟩ (by simp [hheld])
  cases this

end CachingWorld

end InferenceEngine
