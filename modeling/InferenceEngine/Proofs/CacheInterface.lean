/-
What an append does behind the interface, and the steps of a forward.

Counters decide whether a cache takes an append, so there are two lemmas: an append that the
counters grant extends the log of its layer, and one that they refuse is an error after which
the cache shows what it showed.  Both are read off the lemmas about the two implementations.

The caches of a forward's state own disjoint blocks of its pool, and some blocks may be owned by
others.  An append to one cache leaves every other cache as it was.  A view of a cache shows
the log of its layer, through either of the two ways to read it.
-/
import InferenceEngine.Model.ForwardDemands
import InferenceEngine.Proofs.PagedKvCache
import InferenceEngine.Proofs.SimpleKvCache
import Mathlib.Algebra.BigOperators.Group.Finset.Basic
import Mathlib.Data.Fintype.Basic

namespace InferenceEngine

open Except BlockPool

variable {α : Type}

/-- In a pool that nobody shares, every block is free or owned. -/
theorem BlockPool.Exclusive.free_add_card {p : BlockPool α} {owners : Multiset Int}
    (h : Exclusive p owners) : p.freeList.length + owners.card = p.numBlocks := by
  have hcard := h.owned.used_eq_card
  rw [Multiset.toFinset_card_of_nodup h.nodup] at hcard
  have := h.owned.used_add_free
  omega

theorem CacheCounters.append_isPaged {cache : CacheCounters} {numLayers bs free layer t : Nat}
    {r : CacheCounters × Nat} (h : cache.append numLayers bs free layer t = some r) :
    r.1.isPaged = cache.isPaged := by
  cases cache with
  | paged tokens pending nextLayer =>
      simp only [append] at h
      split_ifs at h <;> (cases h; rfl)
  | simple fill capacity =>
      simp only [append] at h
      split_ifs at h
      cases h
      rfl

namespace KvCache

variable {p p' : BlockPool α} {c c' : KvCache α} {o : Multiset Int}

/-- The blocks a cache owns. -/
def blocks : KvCache α → List Int
  | .paged c => c.table.blocks
  | .simple _ => []

/-- What holds of a cache however it is used. -/
def Wf (p : BlockPool α) : KvCache α → Prop
  | .paged c => c.Wf p
  | .simple c => c.Wf

/-- What a cache holds. -/
def log [Zero α] (p : BlockPool α) : KvCache α → KvLog α
  | .paged c => c.log p
  | .simple c => c.log

theorem Wf.of_shape (h : c.Wf p) (hs : SameShape p p') : c.Wf p' := by
  cases c with
  | paged c => exact PagedKvCache.Wf.of_shape h hs
  | simple c => exact h

theorem geometry_of_shape (hs : SameShape p p') (c : KvCache α) :
    c.geometry p' = c.geometry p := by
  cases c with
  | paged c => exact hs.geom
  | simple c => rfl

theorem counters_length (c : KvCache α) : c.counters.length = c.length := by
  cases c <;> rfl

/-- The capacity a cache reports is the one its counters give. -/
theorem counters_capacity (he : Exclusive p (↑c.blocks + o)) (hw : c.Wf p) :
    c.counters.capacity p.blockSize p.freeList.length = c.capacity p := by
  cases c with
  | simple c => rfl
  | paged c =>
      have hsized : c.table.blocks.length = c.table.numTokens ⌈/⌉ p.blockSize :=
        PagedKvCache.Wf.sized hw
      show ((c.table.numTokens ⌈/⌉ p.blockSize + p.freeList.length : Nat) : Int) * p.blockSize
        = (c.table.blocks.length : Int) * p.blockSize + p.freeBlocks * p.blockSize
      rw [he.owned.freeBlocks_eq, hsized, Nat.cast_add, Int.add_mul]

section

variable [Zero α] {layer : Nat} {k v : Tensor α} {numLayers : Nat}

/-- What an append has done that its counters granted. -/
structure Appended (p : BlockPool α) (c : KvCache α) (layer : Nat) (k v : Tensor α)
    (o : Multiset Int) (c' : KvCache α) (p' : BlockPool α) : Prop where
  exclusive : Exclusive p' (↑c'.blocks + o)
  wf : c'.Wf p'
  kept : PagedKvCache.RowsKept p p' c'.blocks
  geometry : c'.geometry p' = c.geometry p
  log : c'.log p' = (c.log p).append layer (appendRows (c.geometry p) k v)

/-- What a refused append leaves. -/
structure Refused (p : BlockPool α) (c : KvCache α) (o : Multiset Int) (c' : KvCache α)
    (p' : BlockPool α) : Prop where
  exclusive : Exclusive p' (↑c.blocks + o)
  store : SameStore p p'
  length : c'.length = c.length
  log : c'.log p' = c.log p

/-- The counters behind an append that they grant. -/
theorem paged_append_granted {c : PagedKvCache} {r : CacheCounters × Nat}
    (he : Exclusive p (↑c.table.blocks + o)) (hw : c.Wf p)
    (hshape : AppendShape p.geom layer k v) (hn : p.geom.numLayers = numLayers)
    (hg : (KvCache.paged (α := α) c).counters.append numLayers p.blockSize p.freeList.length
      layer (k.dim 0) = some r) :
    ∃ c' p', c.append layer k v p = .ok (.ok (), c', p') ∧
      PagedKvCache.Appended p c layer k v o c' p' ∧
      (KvCache.paged (α := α) c').counters = r.1 ∧ p'.freeList.length = r.2 := by
  change CacheCounters.append numLayers p.blockSize p.freeList.length layer (k.dim 0)
    (.paged c.table.numTokens c.pendingSlots.length c.nextLayer) = some r at hg
  unfold CacheCounters.append at hg
  by_cases hl : (layer : Int) = c.nextLayer
  · simp only [if_neg (show ¬(layer : Int) ≠ c.nextLayer from fun hc => hc hl)] at hg
    -- what an accepted append does to the books, on either layer
    have books : ∀ (c' : PagedKvCache) (p' : BlockPool α),
        PagedKvCache.Appended p c layer k v o c' p' →
        p'.freeList.length + c'.table.numTokens ⌈/⌉ p.blockSize
          = p.freeList.length + c.table.numTokens ⌈/⌉ p.blockSize := by
      intro c' p' h
      have h0 := he.free_add_card
      have h1 := h.exclusive.free_add_card
      have hs0 : c.table.blocks.length = _ := hw.sized
      have hs1 : c'.table.blocks.length = _ := h.wf.sized
      rw [h.kept.shape.blockSize] at hs1
      rw [Multiset.card_add, Multiset.coe_card] at h0 h1
      rw [h.kept.shape.numBlocks] at h1
      omega
    have hpend : ∀ (c' : PagedKvCache) (p' : BlockPool α),
        PagedKvCache.Appended p c layer k v o c' p' → c'.pendingSlots.length = k.dim 0 := by
      intro c' p' h
      rw [h.pending]
      unfold PagedKvCache.lastSlots
      rw [List.length_map, List.length_range]
    by_cases h0 : layer = 0
    · rw [if_pos h0] at hg
      by_cases hfit : (c.table.numTokens + k.dim 0) ⌈/⌉ p.blockSize
          - c.table.numTokens ⌈/⌉ p.blockSize ≤ p.freeList.length
      · rw [if_pos hfit] at hg
        cases hg
        have hbase : c.base = c.table.numTokens := by
          unfold PagedKvCache.base
          rw [if_pos (by omega)]
        obtain ⟨⟨res, c', p'⟩, hrun, hres, happ⟩ := PagedKvCache.append_ok he hw hshape hl
          (fun hc => absurd h0 (by omega)) (fun _ => hfit)
        simp only at hres happ
        subst hres
        refine ⟨c', p', hrun, happ, ?_, ?_⟩
        · show CacheCounters.paged _ _ _ = CacheCounters.paged _ _ _
          rw [happ.tokens, hbase, hpend c' p' happ, happ.nextLayer, hn]
        · have := books c' p' happ
          rw [happ.tokens, hbase] at this
          have hmono : c.table.numTokens ⌈/⌉ p.blockSize
              ≤ (c.table.numTokens + k.dim 0) ⌈/⌉ p.blockSize :=
            BlockTable.ceilDiv_mono (Nat.le_add_right _ _) he.blockSize_pos
          omega
      · rw [if_neg hfit] at hg
        cases hg
    · rw [if_neg h0] at hg
      by_cases ht : k.dim 0 = c.pendingSlots.length
      · rw [if_pos ht] at hg
        cases hg
        have hne : c.nextLayer ≠ 0 := by omega
        have htok : c.base + k.dim 0 = c.table.numTokens := by
          have := hw.pending_le hne
          unfold PagedKvCache.base
          rw [if_neg hne]
          omega
        obtain ⟨⟨res, c', p'⟩, hrun, hres, happ⟩ := PagedKvCache.append_ok he hw hshape hl
          (fun _ => ht) (fun hc => absurd hc (by omega))
        simp only at hres happ
        subst hres
        refine ⟨c', p', hrun, happ, ?_, ?_⟩
        · show CacheCounters.paged _ _ _ = CacheCounters.paged _ _ _
          rw [happ.tokens, htok, hpend c' p' happ, happ.nextLayer, hn, ht]
        · have := books c' p' happ
          rw [happ.tokens, htok] at this
          omega
      · rw [if_neg ht] at hg
        cases hg
  · simp only [if_pos (show (layer : Int) ≠ c.nextLayer from hl)] at hg
    cases hg

/-- An append that the counters refuse. -/
theorem paged_append_refused {c : PagedKvCache} (he : Exclusive p (↑c.table.blocks + o))
    (hw : c.Wf p) (hshape : AppendShape p.geom layer k v)
    (hg : (KvCache.paged (α := α) c).counters.append numLayers p.blockSize p.freeList.length
      layer (k.dim 0) = none) :
    ∃ status c' p', c.append layer k v p = .ok (.error status, c', p') ∧
      Refused p (.paged c) o (.paged c') p' := by
  change CacheCounters.append numLayers p.blockSize p.freeList.length layer (k.dim 0)
    (.paged c.table.numTokens c.pendingSlots.length c.nextLayer) = none at hg
  unfold CacheCounters.append at hg
  by_cases hl : (layer : Int) = c.nextLayer
  · simp only [if_neg (show ¬(layer : Int) ≠ c.nextLayer from fun hc => hc hl)] at hg
    by_cases h0 : layer = 0
    · rw [if_pos h0] at hg
      by_cases hfit : (c.table.numTokens + k.dim 0) ⌈/⌉ p.blockSize
          - c.table.numTokens ⌈/⌉ p.blockSize ≤ p.freeList.length
      · rw [if_pos hfit] at hg
        cases hg
      · subst h0
        have hnext : c.nextLayer = 0 := hl.symm
        obtain ⟨⟨res, c', p'⟩, hrun, ⟨message, hres⟩, hex⟩ :=
          PagedKvCache.append_exhausted he hw hshape hnext (by
            show _ < (_ + _) ⌈/⌉ _ - _
            omega)
        simp only at hres hex
        subst hres
        have hblocks : c'.table = c.table := by rw [hex.cache]
        refine ⟨_, c', p', hrun, ?_, hex.store, ?_, hex.log_eq hnext⟩
        · have := hex.exclusive
          rw [hblocks] at this
          exact this
        · show c'.table.numTokens = c.table.numTokens
          rw [hblocks]
    · rw [if_neg h0] at hg
      by_cases ht : k.dim 0 = c.pendingSlots.length
      · rw [if_pos ht] at hg
        cases hg
      · have hnot : ¬(AppendShape p.geom layer k v ∧ (layer : Int) = c.nextLayer ∧
            ((layer : Int) ≠ 0 → k.dim 0 = c.pendingSlots.length)) :=
          fun hc => ht (hc.2.2 (by omega))
        obtain ⟨message, hrun⟩ := PagedKvCache.append_rejected hnot
        exact ⟨_, c, p, hrun, he, SameStore.refl p, rfl, rfl⟩
  · have hnot : ¬(AppendShape p.geom layer k v ∧ (layer : Int) = c.nextLayer ∧
        ((layer : Int) ≠ 0 → k.dim 0 = c.pendingSlots.length)) := fun hc => hl hc.2.1
    obtain ⟨message, hrun⟩ := PagedKvCache.append_rejected hnot
    exact ⟨_, c, p, hrun, he, SameStore.refl p, rfl, rfl⟩

omit [Zero α] in
private theorem simple_append_fill {c c' : SimpleKvCache α} (hs : AppendShape c.geom layer k v)
    (h : c.append layer k v = (.ok (), c')) :
    c'.fill = c.fill.set layer (c.fill.getD layer 0 + k.dim 0) := by
  unfold SimpleKvCache.append at h
  rw [validateAppend_ok _ hs] at h
  simp only at h
  split at h
  · cases h
  · cases h
    rfl

omit [Zero α] in
private theorem simple_append_full {c : SimpleKvCache α} (hs : AppendShape c.geom layer k v)
    (hfull : ¬((c.fill.getD layer 0 + k.dim 0 : Nat) : Int) ≤ c.capacity) :
    ∃ status, c.append layer k v = (.error status, c) := by
  unfold SimpleKvCache.append
  rw [validateAppend_ok _ hs]
  simp only
  split
  · exact ⟨_, rfl⟩
  · rename_i h
    exact absurd (not_lt.mp h) hfull

/-- **An append that the counters grant extends the log of its layer**, and the counters
behind it are those they announce. -/
theorem append_granted {r : CacheCounters × Nat} (he : Exclusive p (↑c.blocks + o))
    (hw : c.Wf p) (hshape : AppendShape (c.geometry p) layer k v)
    (hn : (c.geometry p).numLayers = numLayers)
    (hg : c.counters.append numLayers p.blockSize p.freeList.length layer (k.dim 0) = some r) :
    ∃ c' p', c.append layer k v p = .ok (.ok (), c', p') ∧ Appended p c layer k v o c' p' ∧
      c'.counters = r.1 ∧ p'.freeList.length = r.2 := by
  cases c with
  | paged c =>
      obtain ⟨c', p', hrun, happ, hcount, hfree⟩ :=
        paged_append_granted he hw hshape hn hg
      refine ⟨.paged c', p', ?_, ?_, hcount, hfree⟩
      · show (c.append layer k v p >>= _) = _
        rw [hrun]
        rfl
      · exact ⟨happ.exclusive, happ.wf, happ.kept, happ.kept.shape.geom, happ.log⟩
  | simple c =>
      change CacheCounters.append numLayers p.blockSize p.freeList.length layer (k.dim 0)
        (.simple c.fill c.capacity) = some r at hg
      unfold CacheCounters.append at hg
      by_cases hfit : ((c.fill.getD layer 0 + k.dim 0 : Nat) : Int) ≤ c.capacity
      · simp only [if_pos hfit] at hg
        cases hg
        obtain ⟨c', hrun, hwf, hgeom, hcap, hlog⟩ := SimpleKvCache.append_ok hw hshape hfit
        have hfill := simple_append_fill hshape hrun
        refine ⟨.simple c', p, ?_, ?_, ?_, rfl⟩
        · simp only [append]
          rw [hrun]
          rfl
        · exact ⟨he, hwf, PagedKvCache.RowsKept.of_store (SameStore.refl p) _, hgeom, hlog⟩
        · show CacheCounters.simple _ _ = CacheCounters.simple _ _
          rw [hfill, hcap]
      · simp only [if_neg hfit] at hg
        cases hg

/-- **An append that the counters refuse is an error**, and the cache shows what it showed. -/
theorem append_refused (he : Exclusive p (↑c.blocks + o)) (hw : c.Wf p)
    (hshape : AppendShape (c.geometry p) layer k v)
    (hg : c.counters.append numLayers p.blockSize p.freeList.length layer (k.dim 0) = none) :
    ∃ status c' p', c.append layer k v p = .ok (.error status, c', p') ∧
      Refused p c o c' p' := by
  cases c with
  | paged c =>
      obtain ⟨status, c', p', hrun, hrefused⟩ := paged_append_refused he hw hshape hg
      refine ⟨status, .paged c', p', ?_, hrefused⟩
      show (c.append layer k v p >>= _) = _
      rw [hrun]
      rfl
  | simple c =>
      change CacheCounters.append numLayers p.blockSize p.freeList.length layer (k.dim 0)
        (.simple c.fill c.capacity) = none at hg
      unfold CacheCounters.append at hg
      by_cases hfit : ((c.fill.getD layer 0 + k.dim 0 : Nat) : Int) ≤ c.capacity
      · simp only [if_pos hfit] at hg
        cases hg
      · obtain ⟨status, hrun⟩ := simple_append_full hshape hfit
        refine ⟨status, .simple c, p, ?_, he, SameStore.refl p, rfl, rfl⟩
        simp only [append]
        rw [hrun]
        rfl

end

/-! ### View

A contiguous cache copies its rows into buffers, and a paged one points to them.  Both show the
log. -/

section

variable {cache : KvCache α} {layer : Nat}

theorem validateView_ok (hl : (layer : Int) < (cache.geometry p).numLayers) :
    cache.validateView layer p = .ok () := by
  cases cache with
  | paged c => exact validateViewLayer_ok _ ⟨Int.natCast_nonneg _, hl⟩
  | simple c => exact validateViewLayer_ok _ ⟨Int.natCast_nonneg _, hl⟩

/-- **A view shows the log of its layer**, whatever the buffers held. -/
theorem view_ok [Zero α] (he : Exclusive p (↑cache.blocks + o)) (hw : cache.Wf p)
    (hl : (layer : Int) < (cache.geometry p).numLayers) (freshK freshV : Int → α) :
    ∃ kv, cache.view layer p freshK freshV = .ok (.ok kv) ∧
      IsView (cache.geometry p) ((cache.log p).rows layer) kv := by
  cases cache with
  | paged c => exact PagedKvCache.view_ok he hw ⟨Int.natCast_nonneg _, hl⟩ freshK freshV
  | simple c =>
      obtain ⟨kv, hview, hshows⟩ :=
        SimpleKvCache.view_ok (c := c) ⟨Int.natCast_nonneg layer, hl⟩
      exact ⟨kv, congrArg Except.ok hview, hshows⟩

/-- A paged view is what a paged cache has, and no other. -/
theorem pagedView_ok (hl : (layer : Int) < (cache.geometry p).numLayers) :
    if cache.counters.isPaged = true then
      ∃ pv, cache.pagedView layer p = .ok (.ok pv) ∧ pv.blockSize = p.blockSize ∧
        pv.blockStride = (cache.geometry p).numKvHeads * p.blockSize * (cache.geometry p).headDim
    else ∃ message, cache.pagedView layer p = .ok (.error (unimplementedError message)) := by
  cases cache with
  | paged c =>
      have hrange : 0 ≤ (layer : Int) ∧ (layer : Int) < p.geom.numLayers :=
        ⟨Int.natCast_nonneg _, hl⟩
      have hrun : c.pagedView layer p = .ok (.ok ⟨p.kSlabs layer, p.vSlabs layer, c.table.blocks,
          c.table.blocks.length, p.blockSize, c.table.numTokens, p.blockStride⟩) := by
        unfold PagedKvCache.pagedView
        rw [validateViewLayer_ok _ hrange, kSlab_ok hrange, vSlab_ok hrange]
        rfl
      exact ⟨_, hrun, rfl, rfl⟩
  | simple c => exact ⟨_, rfl⟩

end

end KvCache

end InferenceEngine

namespace InferenceEngine.Backend

open Except BlockPool

variable {α : Type} {c : ModelConfig} {n : Nat}

/-- The blocks that the caches of a state own. -/
def owners (s : ForwardState α c n) : Multiset Int := ∑ i, ((s.caches i).blocks : Multiset Int)

/-- The blocks that all caches but one own. -/
def ownersBut (s : ForwardState α c n) (i : Fin n) : Multiset Int :=
  ∑ j ∈ Finset.univ.erase i, ((s.caches j).blocks : Multiset Int)

theorem owners_eq (s : ForwardState α c n) (i : Fin n) :
    owners s = ↑(s.caches i).blocks + ownersBut s i :=
  (Finset.add_sum_erase Finset.univ _ (Finset.mem_univ i)).symm

theorem mem_ownersBut {s : ForwardState α c n} {i j : Fin n} {b : Int} (hj : j ≠ i)
    (hb : b ∈ (s.caches j).blocks) : b ∈ ownersBut s i :=
  Multiset.mem_sum.mpr ⟨j, Finset.mem_erase.mpr ⟨hj, Finset.mem_univ j⟩, Multiset.mem_coe.mpr hb⟩

/-- A state whose caches are in order, `o` being the blocks that others own. -/
structure Sound (s : ForwardState α c n) (o : Multiset Int) : Prop where
  exclusive : Exclusive s.pool (owners s + o)
  wf : ∀ i, (s.caches i).Wf s.pool

section

variable {s s' : ForwardState α c n} {o : Multiset Int} {i : Fin n}

theorem Sound.exclusive_at (hs : Sound s o) (i : Fin n) :
    Exclusive s.pool (↑(s.caches i).blocks + (ownersBut s i + o)) := by
  rw [← add_assoc, ← owners_eq]
  exact hs.exclusive

/-- Soundness is about the caches and the pool alone. -/
theorem Sound.congr (hs : Sound s o) (hp : s'.pool = s.pool) (hc : s'.caches = s.caches) :
    Sound s' o := by
  refine ⟨?_, fun i => ?_⟩
  · unfold owners
    rw [hp, hc]
    exact hs.exclusive
  · rw [hp, hc]
    exact hs.wf i

/-- A state is sound again when one cache has been replaced by one that is in order. -/
theorem Sound.update {cache : KvCache α} {pool : BlockPool α} (hs : Sound s o)
    (he : Exclusive pool (↑cache.blocks + (ownersBut s i + o))) (hw : cache.Wf pool)
    (hshape : SameShape s.pool pool) :
    Sound { s with caches := Function.update s.caches i cache, pool := pool } o := by
  refine ⟨?_, fun j => ?_⟩
  · rw [owners_eq _ i]
    have hrest : ownersBut { s with caches := Function.update s.caches i cache, pool := pool } i
        = ownersBut s i := by
      refine Finset.sum_congr rfl fun j hj => ?_
      show ((Function.update s.caches i cache j).blocks : Multiset Int) = _
      rw [Function.update_of_ne (Finset.mem_erase.mp hj).1]
    rw [hrest, add_assoc]
    show Exclusive pool (↑(Function.update s.caches i cache i).blocks + _)
    rw [Function.update_self]
    exact he
  · show (Function.update s.caches i cache j).Wf pool
    by_cases hj : j = i
    · subst hj
      rw [Function.update_self]
      exact hw
    · rw [Function.update_of_ne hj]
      exact (hs.wf j).of_shape hshape

variable [Zero α]

/-! ### What is seen of the caches a request names

A forward is allowed to touch the caches of its request and no others.  Of those, only the rows
and the free blocks are looked at. -/

/-- The named caches hold what they held, and the same blocks are free. -/
structure SameCaches (named : List (Fin n)) (s s' : ForwardState α c n) : Prop where
  length : ∀ i ∈ named, (s'.caches i).length = (s.caches i).length
  log : ∀ i ∈ named, (s'.caches i).log s'.pool = (s.caches i).log s.pool
  free : ∀ b, b ∈ s'.pool.freeList ↔ b ∈ s.pool.freeList

/-- No named cache has lost a row, and one has gained some. -/
structure GrownCaches (named : List (Fin n)) (s s' : ForwardState α c n) : Prop where
  le : ∀ i ∈ named, ∀ l, (((s.caches i).log s.pool).rows l).length
    ≤ (((s'.caches i).log s'.pool).rows l).length
  lt : ∃ i ∈ named, ∃ l, (((s.caches i).log s.pool).rows l).length
    < (((s'.caches i).log s'.pool).rows l).length

theorem SameCaches.refl (named : List (Fin n)) (s : ForwardState α c n) : SameCaches named s s :=
  ⟨fun _ _ => rfl, fun _ _ => rfl, fun _ => Iff.rfl⟩

/-- Nothing is seen of a state but its caches and its pool. -/
theorem SameCaches.of_eq {named : List (Fin n)} (hp : s'.pool = s.pool)
    (hc : s'.caches = s.caches) : SameCaches named s s' := by
  refine ⟨fun i _ => ?_, fun i _ => ?_, fun b => ?_⟩
  · rw [hc]
  · rw [hc, hp]
  · rw [hp]

/-! ### Append

Whether an append is granted depends on how long the cache is and on how many blocks are free. -/

/-- What an append has done that the counters granted. -/
structure Appended (s : ForwardState α c n) (o : Multiset Int) (i : Fin n) (layer : Nat)
    (k v : Tensor α) (s' : ForwardState α c n) : Prop where
  sound : Sound s' o
  shape : SameShape s.pool s'.pool
  log : (s'.caches i).log s'.pool
    = ((s.caches i).log s.pool).append layer (appendRows c.geometry k v)
  geometry : ∀ j, (s'.caches j).geometry s'.pool = (s.caches j).geometry s.pool
  other : ∀ j, j ≠ i → s'.caches j = s.caches j
  otherLog : ∀ j, j ≠ i → (s'.caches j).log s'.pool = (s.caches j).log s.pool
  workspace : s'.workspace = s.workspace
  staging : s'.staging = s.staging
  allocations : s'.allocations = s.allocations

/-- A cache that owns none of the blocks written holds what it held. -/
private theorem log_kept {p p' : BlockPool α} {cache : KvCache α} {blocks : List Int}
    (hk : PagedKvCache.RowsKept p p' blocks) (he : Exclusive p (↑cache.blocks + o))
    (hw : cache.Wf p) (hdisj : ∀ b ∈ cache.blocks, b ∉ blocks) :
    cache.log p' = cache.log p := by
  cases cache with
  | paged cache => exact hk.log_eq he hw hdisj
  | simple cache => rfl

variable {refuses : Nat → Option Status} {layer : Nat} {k v : Tensor α}

/-- What the counters of a cache answer to an append is the meter's answer. -/
theorem meter_append (numLayers bs t : Nat) (m : ForwardCounters n) :
    (meter refuses numLayers bs).grant (.append i layer t) m =
      ((m.caches i).append numLayers bs m.free layer t).map fun r =>
        { m with free := r.2, caches := Function.update m.caches i r.1 } := by
  show _ = Option.map _ ((m.caches i).append numLayers bs m.free layer t)
  unfold meter
  dsimp only
  cases (m.caches i).append numLayers bs m.free layer t with
  | none => rfl
  | some r => rfl

theorem append_granted (hs : Sound s o) (hgeom : (s.caches i).geometry s.pool = c.geometry)
    (hshape : AppendShape c.geometry layer k v) {m : ForwardCounters n}
    (hg : (meter refuses c.numLayers s.pool.blockSize).grant (.append i layer (k.dim 0))
      s.counters = some m) :
    ∃ s', append i layer k v s = .ok (.ok (), s') ∧ Appended s o i layer k v s' ∧
      s'.counters = m := by
  rw [meter_append] at hg
  change Option.map _ ((s.caches i).counters.append c.numLayers s.pool.blockSize
    s.pool.freeList.length layer (k.dim 0)) = some m at hg
  cases hr : (s.caches i).counters.append c.numLayers s.pool.blockSize s.pool.freeList.length
      layer (k.dim 0) with
  | none =>
      rw [hr] at hg
      cases hg
  | some r =>
      rw [hr] at hg
      cases hg
      have he := hs.exclusive_at i
      obtain ⟨cache, pool, hrun, happ, hcount, hfree⟩ := KvCache.append_granted he (hs.wf i)
        (by rw [hgeom]; exact hshape) (by rw [hgeom]; rfl) hr
      have hkept := happ.kept
      refine ⟨{ s with caches := Function.update s.caches i cache, pool := pool }, ?_, ?_, ?_⟩
      · unfold append
        rw [hrun]
      · refine ⟨hs.update happ.exclusive happ.wf hkept.shape, hkept.shape, ?_, fun j => ?_,
          fun j hj => Function.update_of_ne hj _ _, fun j hj => ?_, rfl, rfl, rfl⟩
        · show (Function.update s.caches i cache i).log pool = _
          rw [Function.update_self, happ.log, hgeom]
        · show (Function.update s.caches i cache j).geometry pool = _
          by_cases hj : j = i
          · subst hj
            rw [Function.update_self]
            exact happ.geometry
          · rw [Function.update_of_ne hj]
            exact KvCache.geometry_of_shape hkept.shape _
        · show (Function.update s.caches i cache j).log pool = _
          rw [Function.update_of_ne hj]
          refine log_kept hkept (hs.exclusive_at j) (hs.wf j) fun b hb hmem => ?_
          have hnd := (Multiset.nodup_add.mp happ.exclusive.nodup).2.2
          refine Multiset.disjoint_left.mp hnd (Multiset.mem_coe.mpr hmem) ?_
          exact Multiset.mem_add.mpr (Or.inl (mem_ownersBut hj hb))
      · show ForwardCounters.mk _ _ _ = ForwardCounters.mk _ _ _
        congr 1
        funext j
        show (Function.update s.caches i cache j).counters
          = Function.update (fun i => (s.caches i).counters) i r.1 j
        by_cases hj : j = i
        · subst hj
          rw [Function.update_self, Function.update_self, hcount]
        · rw [Function.update_of_ne hj, Function.update_of_ne hj]

theorem append_refused (hs : Sound s o) (hgeom : (s.caches i).geometry s.pool = c.geometry)
    (hshape : AppendShape c.geometry layer k v)
    (hg : (meter refuses c.numLayers s.pool.blockSize).grant (.append i layer (k.dim 0))
      s.counters = none) (named : List (Fin n)) :
    ∃ status s', append i layer k v s = .ok (.error status, s') ∧ SameCaches named s s' := by
  rw [meter_append] at hg
  change Option.map _ ((s.caches i).counters.append c.numLayers s.pool.blockSize
    s.pool.freeList.length layer (k.dim 0)) = none at hg
  cases hr : (s.caches i).counters.append c.numLayers s.pool.blockSize s.pool.freeList.length
      layer (k.dim 0) with
  | some r =>
      rw [hr] at hg
      cases hg
  | none =>
      have he := hs.exclusive_at i
      obtain ⟨status, cache, pool, hrun, href⟩ := KvCache.append_refused he (hs.wf i)
        (by rw [hgeom]; exact hshape) hr
      refine ⟨status, { s with caches := Function.update s.caches i cache, pool := pool }, ?_,
        fun j _ => ?_, fun j _ => ?_, fun b => ?_⟩
      · unfold append
        rw [hrun]
      · show (Function.update s.caches i cache j).length = _
        by_cases hj : j = i
        · subst hj
          rw [Function.update_self]
          exact href.length
        · rw [Function.update_of_ne hj]
      · show (Function.update s.caches i cache j).log pool = _
        by_cases hj : j = i
        · subst hj
          rw [Function.update_self]
          exact href.log
        · rw [Function.update_of_ne hj]
          exact log_kept (PagedKvCache.RowsKept.of_store href.store []) (hs.exclusive_at j)
            (hs.wf j) fun b _ => List.not_mem_nil
      · show b ∈ pool.freeList ↔ b ∈ s.pool.freeList
        rw [href.exclusive.owned.mem_free, he.owned.mem_free, href.store.numBlocks,
          href.exclusive.owned.refcount_eq, he.owned.refcount_eq]

end

end InferenceEngine.Backend
