/-
Who owns which block.

The pool is correct relative to a multiset of owners: one occurrence of a block for each
live reference to it, whoever holds it.  `Owned p owners` says that the reference counts
are the multiplicities, that the free list is exactly the rest and that the counters agree.
Every operation of the pool moves from one such multiset to the next: `Allocate` adds a
block nobody owns, `Share` adds another occurrence of an owned one, `Release` takes one
away.  A client proves its own ownership discipline by saying which part of the multiset
is its own.
-/
import InferenceEngine.KvCache.BlockTable
import Mathlib.Algebra.Order.Floor.Div
import Mathlib.Data.Multiset.Count
import Mathlib.Data.Multiset.AddSub
import Mathlib.Data.Int.Interval

namespace InferenceEngine

open Except

namespace BlockPool

variable {α : Type} {p p' : BlockPool α} {owners : Multiset Int} {b : Int}

/-- The books of a pool whose live references are `owners`. -/
structure Owned (p : BlockPool α) (owners : Multiset Int) : Prop where
  free_nodup : p.freeList.Nodup
  mem_free : ∀ b, b ∈ p.freeList ↔ (0 ≤ b ∧ b < p.numBlocks) ∧ p.refcounts b = 0
  refcount_eq : ∀ b, p.refcounts b = owners.count b
  in_range : ∀ b ∈ owners, 0 ≤ b ∧ b < p.numBlocks
  used_add_free : p.used + p.freeList.length = p.numBlocks
  used_le_peak : p.used ≤ p.peakUsed

/-- What an operation on the books leaves alone, and the peak, which only grows. -/
structure SameStore (p p' : BlockPool α) : Prop where
  geom : p'.geom = p.geom
  blockSize : p'.blockSize = p.blockSize
  numBlocks : p'.numBlocks = p.numBlocks
  kSlabs : p'.kSlabs = p.kSlabs
  vSlabs : p'.vSlabs = p.vSlabs
  peak_le : p.peakUsed ≤ p'.peakUsed

theorem SameStore.refl (p : BlockPool α) : SameStore p p :=
  ⟨rfl, rfl, rfl, rfl, rfl, le_refl _⟩

theorem SameStore.trans {p₁ p₂ p₃ : BlockPool α} (h : SameStore p₁ p₂) (h' : SameStore p₂ p₃) :
    SameStore p₁ p₃ :=
  ⟨h'.geom.trans h.geom, h'.blockSize.trans h.blockSize, h'.numBlocks.trans h.numBlocks,
    h'.kSlabs.trans h.kSlabs, h'.vSlabs.trans h.vSlabs, h.peak_le.trans h'.peak_le⟩

/-! ### What the books say

Everything that is said of a pool is said of who owns which block; the free list and the
counters follow. -/

theorem Owned.mem_owners (h : Owned p owners) : b ∈ owners ↔ 0 < p.refcounts b := by
  rw [h.refcount_eq, Multiset.count_pos]

theorem Owned.blockInRange (h : Owned p owners) (hb : b ∈ owners) : p.blockInRange b = true := by
  have := h.in_range b hb
  simp [BlockPool.blockInRange, this]

theorem Owned.not_mem_owners_of_free (h : Owned p owners) (hb : b ∈ p.freeList) :
    b ∉ owners := by
  rw [h.mem_owners]
  have := ((h.mem_free b).mp hb).2
  omega

/-- **`used` is the number of blocks somebody owns.** -/
theorem Owned.used_eq_card (h : Owned p owners) : p.used = owners.toFinset.card := by
  have hids : p.freeList.toFinset ∪ owners.toFinset = Finset.Ico 0 (p.numBlocks : Int) := by
    ext b
    simp only [Finset.mem_union, List.mem_toFinset, Multiset.mem_toFinset, Finset.mem_Ico,
      h.mem_free, h.mem_owners]
    refine ⟨?_, fun hr => ?_⟩
    · intro hb
      rcases hb with hb | hb
      · exact hb.1
      · exact h.in_range b (h.mem_owners.mpr hb)
    · by_cases h0 : p.refcounts b = 0
      · exact Or.inl ⟨hr, h0⟩
      · exact Or.inr (Nat.pos_of_ne_zero h0)
  have hdisj : Disjoint p.freeList.toFinset owners.toFinset := by
    rw [Finset.disjoint_left]
    intro b hb hb'
    exact h.not_mem_owners_of_free (List.mem_toFinset.mp hb) (Multiset.mem_toFinset.mp hb')
  have hcard := Finset.card_union_of_disjoint hdisj
  rw [hids, Int.card_Ico, List.toFinset_card_of_nodup h.free_nodup] at hcard
  have := h.used_add_free
  omega

/-- The free blocks are what `free_blocks` reports. -/
theorem Owned.freeBlocks_eq (h : Owned p owners) : p.freeBlocks = p.freeList.length := by
  have := h.used_add_free
  unfold freeBlocks
  omega

/-- The books depend on a store's bookkeeping fields alone. -/
theorem Owned.writeSlabs (h : Owned p owners) (layer : Int) (k v : Int → α) :
    Owned (p.writeSlabs layer k v) owners :=
  ⟨h.free_nodup, h.mem_free, h.refcount_eq, h.in_range, h.used_add_free, h.used_le_peak⟩

/-! ### The operations

One lemma for each operation: what it answers, and whose the blocks are then. -/

/-- What `Create` accepts, and what it builds. -/
structure Created [Zero α] (geom : CacheGeometry) (blockSize numBlocks : Int)
    (p : BlockPool α) : Prop where
  layers_pos : 0 < geom.numLayers
  heads_pos : 0 < geom.numKvHeads
  dim_pos : 0 < geom.headDim
  blockSize_pos : 0 < blockSize
  numBlocks_pos : 0 < numBlocks
  pool_eq : p = new geom blockSize.toNat numBlocks.toNat

theorem create_ok [Zero α] {geom : CacheGeometry} {blockSize numBlocks : Int}
    (h : create geom blockSize numBlocks = .ok p) : Created geom blockSize numBlocks p := by
  unfold create at h
  obtain ⟨_, hgeom, h⟩ := bind_eq_ok.mp h
  have hpos : ¬(geom.numLayers < 1 ∨ geom.numKvHeads < 1 ∨ geom.headDim < 1) := by
    intro hc
    rw [validateGeometry, if_pos hc] at hgeom
    cases hgeom
  by_cases hbs : isValidBlockSize blockSize = true
  · by_cases hn : numBlocks < 1
    · simp [hbs, hn, bind, Except.bind, throw, throwThe, MonadExceptOf.throw] at h
    · simp only [hbs, hn, Bool.not_true, Bool.false_eq_true, if_false] at h
      have hbs' : 0 < blockSize := by
        simp only [isValidBlockSize, Bool.or_eq_true, decide_eq_true_eq] at hbs
        omega
      refine ⟨by omega, by omega, by omega, hbs', by omega, ?_⟩
      split at h
      · cases h
      · split at h
        · cases h
        · cases h
          rfl
  · simp [hbs, bind, Except.bind, throw, throwThe, MonadExceptOf.throw] at h

/-- A new pool of at most `2 ^ 31` blocks is owned by nobody: the ids survive the cast. -/
theorem new_owned [Zero α] (geom : CacheGeometry) (blockSize numBlocks : Nat)
    (h : numBlocks ≤ 2 ^ 31) : Owned (new (α := α) geom blockSize numBlocks) 0 := by
  have hids : (new (α := α) geom blockSize numBlocks).freeList
      = (List.range numBlocks).map fun b : Nat => (b : Int) := by
    refine List.map_congr_left (fun b hb => toInt32_of_lt (by omega) ?_)
    have := List.mem_range.mp hb
    omega
  refine ⟨?_, ?_, fun b => by simp [new], by simp, ?_, le_refl _⟩
  · rw [hids]
    exact List.nodup_range.map Nat.cast_injective
  · intro b
    rw [hids]
    simp only [List.mem_map, List.mem_range]
    refine ⟨?_, fun hb => ⟨b.toNat, ?_, ?_⟩⟩
    · intro hb
      obtain ⟨n, hn, hnb⟩ := hb
      show (0 ≤ b ∧ b < (numBlocks : Int)) ∧ (0 : Nat) = 0
      omega
    · have : b < (numBlocks : Int) := hb.1.2
      omega
    · have : 0 ≤ b := hb.1.1
      omega
  · simp [new]

/-- An empty free list: the call fails and counts the failure. -/
theorem allocate_nil (h : p.freeList = []) :
    p.allocate = .ok (.error (resourceExhaustedError
      s!"BlockPool::Allocate: no free blocks ({p.used} of {p.numBlocks} in use)"),
      { p with exhaustions := p.exhaustions + 1 }) := by
  simp [allocate, h]

/-- A failed call changes no book. -/
theorem Owned.exhausted (h : Owned p owners) (n : Nat) :
    Owned { p with exhaustions := n } owners :=
  ⟨h.free_nodup, h.mem_free, h.refcount_eq, h.in_range, h.used_add_free, h.used_le_peak⟩

/-- **`Allocate` hands out the front of the free list**, a block nobody owned. -/
theorem allocate_cons {rest : List Int} (h : Owned p owners) (hf : p.freeList = b :: rest) :
    ∃ p', p.allocate = .ok (.ok b, p') ∧ Owned p' (b ::ₘ owners) ∧ b ∉ owners ∧
      SameStore p p' ∧ p'.freeList = rest ∧ p'.exhaustions = p.exhaustions := by
  have hb := (h.mem_free b).mp (by rw [hf]; simp)
  have hnd : b ∉ rest ∧ rest.Nodup := by
    have := h.free_nodup
    rwa [hf, List.nodup_cons] at this
  have hfresh : b ∉ owners := h.not_mem_owners_of_free (by rw [hf]; simp)
  have hrange : p.blockInRange b = true := by simp [BlockPool.blockInRange, hb.1]
  have hlen := h.used_add_free
  rw [hf, List.length_cons] at hlen
  refine ⟨{ p.setRefcount b 1 with
      freeList := rest, used := p.used + 1, peakUsed := max p.peakUsed (p.used + 1) },
    by simp only [allocate, hf, hrange, if_true], ?_, hfresh,
    ⟨rfl, rfl, rfl, rfl, rfl, le_max_left _ _⟩, rfl, rfl⟩
  refine ⟨hnd.2, ?_, ?_, ?_, ?_, le_max_right _ _⟩
  · intro x
    show x ∈ rest ↔ (0 ≤ x ∧ x < p.numBlocks) ∧ Function.update p.refcounts b 1 x = 0
    by_cases hx : x = b
    · rw [hx, Function.update_self]
      exact ⟨fun hc => absurd hc hnd.1, fun hc => absurd hc.2 (by omega)⟩
    · rw [Function.update_of_ne hx, ← h.mem_free, hf, List.mem_cons]
      exact ⟨Or.inr, fun hc => hc.resolve_left hx⟩
  · intro x
    show Function.update p.refcounts b 1 x = _
    by_cases hx : x = b
    · rw [hx, Function.update_self, Multiset.count_cons_self,
        Multiset.count_eq_zero_of_notMem hfresh]
    · rw [Function.update_of_ne hx, Multiset.count_cons_of_ne hx, h.refcount_eq]
  · intro x hx
    rcases Multiset.mem_cons.mp hx with rfl | hx
    · exact hb.1
    · exact h.in_range x hx
  · show p.used + 1 + rest.length = p.numBlocks
    omega

/-- What `Share` of an owned block comes to. -/
theorem share_eq (h : Owned p owners) (hb : b ∈ owners) :
    p.share b = (do pure (p.setRefcount b (← int32Nat (p.refcounts b + 1)))) := by
  have hpos : 0 < p.refcounts b := h.mem_owners.mp hb
  unfold share
  rw [check_of_true (h.blockInRange hb), check_of_true (by simpa using hpos)]
  rfl

/-- `Share` of an owned block adds an owner, as long as their number fits its type. -/
theorem share_owned (h : Owned p owners) (hb : b ∈ owners) (hfit : owners.count b + 1 < 2 ^ 31) :
    (p.share b).Returns fun p' =>
      Owned p' (b ::ₘ owners) ∧ SameStore p p' ∧ p'.exhaustions = p.exhaustions := by
  have hpos : 0 < p.refcounts b := h.mem_owners.mp hb
  rw [← h.refcount_eq] at hfit
  rw [share_eq h hb, int32Nat_of_lt hfit]
  refine returns_pure ⟨⟨h.free_nodup, ?_, ?_, ?_, h.used_add_free, h.used_le_peak⟩,
    ⟨rfl, rfl, rfl, rfl, rfl, le_refl _⟩, rfl⟩
  · intro x
    show x ∈ p.freeList ↔ (0 ≤ x ∧ x < p.numBlocks) ∧
      Function.update p.refcounts b (p.refcounts b + 1) x = 0
    rw [h.mem_free]
    by_cases hx : x = b
    · rw [hx, Function.update_self]
      omega
    · rw [Function.update_of_ne hx]
  · intro x
    show Function.update p.refcounts b (p.refcounts b + 1) x = _
    by_cases hx : x = b
    · rw [hx, Function.update_self, Multiset.count_cons_self, h.refcount_eq]
    · rw [Function.update_of_ne hx, Multiset.count_cons_of_ne hx, h.refcount_eq]
  · intro x hx
    rcases Multiset.mem_cons.mp hx with rfl | hx
    · exact h.in_range x hb
    · exact h.in_range x hx

/-- One owner too many. -/
theorem share_overflow (h : Owned p owners) (hb : b ∈ owners)
    (hfull : ¬owners.count b + 1 < 2 ^ 31) : p.share b = .error .signedOverflow := by
  rw [← h.refcount_eq] at hfull
  rw [share_eq h hb, int32Nat_of_not_lt hfull]
  rfl

/-- **`Release` by an owner takes one owner away**, and frees the block with the last. -/
theorem release_owned (h : Owned p (b ::ₘ owners)) :
    (p.release b).Returns fun p' =>
      Owned p' owners ∧ SameStore p p' ∧ p'.exhaustions = p.exhaustions := by
  have hb : b ∈ b ::ₘ owners := Multiset.mem_cons_self b owners
  have hrc : p.refcounts b = owners.count b + 1 := by
    rw [h.refcount_eq, Multiset.count_cons_self]
  have hrange := h.in_range b hb
  have hothers : ∀ x, x ≠ b → p.refcounts x = owners.count x := by
    intro x hx
    rw [h.refcount_eq, Multiset.count_cons_of_ne hx]
  unfold release
  rw [check_of_true (h.blockInRange hb), check_of_true (by simp [hrc])]
  have hcounts : ∀ x, Function.update p.refcounts b (p.refcounts b - 1) x = owners.count x := by
    intro x
    by_cases hx : x = b
    · rw [hx, Function.update_self, hrc, Nat.add_sub_cancel]
    · rw [Function.update_of_ne hx, hothers x hx]
  have hin : ∀ x ∈ owners, 0 ≤ x ∧ x < (p.numBlocks : Int) :=
    fun x hx => h.in_range x (Multiset.mem_cons_of_mem hx)
  show Returns (if Function.update p.refcounts b (p.refcounts b - 1) b = 0 then _ else _) _
  by_cases hlast : Function.update p.refcounts b (p.refcounts b - 1) b = 0
  · rw [if_pos hlast]
    have hnone : owners.count b = 0 := by rw [← hcounts]; exact hlast
    have hbfree : b ∉ p.freeList := by
      rw [h.mem_free]
      omega
    have hpos : 0 < p.used := by
      rw [h.used_eq_card]
      exact Finset.card_pos.mpr ⟨b, Multiset.mem_toFinset.mpr hb⟩
    refine returns_pure ⟨⟨List.nodup_cons.mpr ⟨hbfree, h.free_nodup⟩, ?_, hcounts, hin, ?_, ?_⟩,
      ⟨rfl, rfl, rfl, rfl, rfl, le_refl _⟩, rfl⟩
    · intro x
      show x ∈ b :: p.freeList ↔ _ ∧ Function.update p.refcounts b (p.refcounts b - 1) x = 0
      by_cases hx : x = b
      · rw [hx]
        exact ⟨fun _ => ⟨hrange, hlast⟩, fun _ => by simp⟩
      · rw [Function.update_of_ne hx, List.mem_cons, h.mem_free]
        exact ⟨fun hc => hc.resolve_left hx, Or.inr⟩
    · show p.used - 1 + (b :: p.freeList).length = p.numBlocks
      have := h.used_add_free
      rw [List.length_cons]
      omega
    · show p.used - 1 ≤ p.peakUsed
      have := h.used_le_peak
      omega
  · rw [if_neg hlast]
    refine returns_pure ⟨⟨h.free_nodup, ?_, hcounts, hin, h.used_add_free, h.used_le_peak⟩,
      ⟨rfl, rfl, rfl, rfl, rfl, le_refl _⟩, rfl⟩
    intro x
    show x ∈ p.freeList ↔ _ ∧ Function.update p.refcounts b (p.refcounts b - 1) x = 0
    rw [h.mem_free]
    by_cases hx : x = b
    · rw [hx]
      exact ⟨fun hc => absurd hc.2 (by omega), fun hc => absurd hc.2 hlast⟩
    · rw [Function.update_of_ne hx]
      rfl

end BlockPool

end InferenceEngine
