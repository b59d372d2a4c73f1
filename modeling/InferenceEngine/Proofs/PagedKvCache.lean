/-
The paged cache is a log.

A cache owns its blocks exclusively, so a row it stores is moved by nobody else: an append
through another table writes slots of other blocks.  Within one cache the slots of distinct
positions are distinct, so an append writes exactly the rows it adds.  From the two, each
operation is the operation of the same name on the log, and a view shows the log of its
layer.

A layer that has not yet written the tokens of the forward in progress shows only what was
committed before it, `base`.  A truncation to at most `base` cuts the log; one that keeps
more than `base` in mid-forward does not, which is why `truncate_log` asks for the bound.
-/
import InferenceEngine.Proofs.SimpleKvCache
import InferenceEngine.Proofs.KvCopy
import InferenceEngine.Proofs.BlockTable

namespace InferenceEngine

open Except FlatMemory

namespace BlockPool

variable {α : Type} {p p' p'' : BlockPool α} {owners o : Multiset Int}

/-- A pool every block of which has at most one owner, as long as nothing is shared. -/
structure Exclusive (p : BlockPool α) (owners : Multiset Int) : Prop where
  owned : Owned p owners
  nodup : owners.Nodup
  blockSize_pos : 0 < p.blockSize
  layers_pos : 0 < p.geom.numLayers
  heads_pos : 0 < p.geom.numKvHeads
  dim_pos : 0 < p.geom.headDim

/-- The immutable part of a pool. -/
structure SameShape (p p' : BlockPool α) : Prop where
  geom : p'.geom = p.geom
  blockSize : p'.blockSize = p.blockSize
  numBlocks : p'.numBlocks = p.numBlocks

theorem SameShape.refl (p : BlockPool α) : SameShape p p := ⟨rfl, rfl, rfl⟩

theorem SameShape.trans (h : SameShape p p') (h' : SameShape p' p'') : SameShape p p'' :=
  ⟨h'.geom.trans h.geom, h'.blockSize.trans h.blockSize, h'.numBlocks.trans h.numBlocks⟩

theorem SameStore.shape (h : SameStore p p') : SameShape p p' :=
  ⟨h.geom, h.blockSize, h.numBlocks⟩

theorem Exclusive.of_owned (h : Exclusive p owners) (hs : SameShape p p') (ho : Owned p' o)
    (hnd : o.Nodup) : Exclusive p' o := by
  refine ⟨ho, hnd, ?_, ?_, ?_, ?_⟩
  · rw [hs.blockSize]
    exact h.blockSize_pos
  · rw [hs.geom]
    exact h.layers_pos
  · rw [hs.geom]
    exact h.heads_pos
  · rw [hs.geom]
    exact h.dim_pos

theorem Exclusive.writeSlabs (h : Exclusive p owners) (layer : Int) (k v : Int → α) :
    Exclusive (p.writeSlabs layer k v) owners :=
  ⟨h.owned.writeSlabs layer k v, h.nodup, h.blockSize_pos, h.layers_pos, h.heads_pos, h.dim_pos⟩

theorem kSlab_ok {layer : Int} (h : 0 ≤ layer ∧ layer < p.geom.numLayers) :
    p.kSlab layer = .ok (p.kSlabs layer) := by
  unfold kSlab
  rw [check_of_true (by simp [h])]
  rfl

theorem vSlab_ok {layer : Int} (h : 0 ≤ layer ∧ layer < p.geom.numLayers) :
    p.vSlab layer = .ok (p.vSlabs layer) := by
  unfold vSlab
  rw [check_of_true (by simp [h])]
  rfl

/-- The rows of a slot are read from the store alone. -/
theorem rowAt_congr [Zero α] (h : SameStore p p') (layer slot : Int) :
    p'.rowAt layer slot = p.rowAt layer slot := by
  unfold rowAt
  rw [h.geom, h.blockSize, h.kSlabs, h.vSlabs]

end BlockPool

open BlockPool

namespace BlockTable

variable {α : Type} {p : BlockPool α} {t : BlockTable} {o : Multiset Int}

/-- The block of a position's slot. -/
theorem slotAt_block (h : Exclusive p (↑t.blocks + o)) {pos : Nat}
    (hpos : pos / p.blockSize < t.blocks.length) :
    0 ≤ slotAt t.blocks p.blockSize pos ∧
      (slotAt t.blocks p.blockSize pos).tdiv p.blockSize
        = t.blocks.getD (pos / p.blockSize) 0 ∧
      t.blocks.getD (pos / p.blockSize) 0 ∈ t.blocks := by
  have hmem : t.blocks.getD (pos / p.blockSize) 0 ∈ t.blocks := by
    rw [List.getD_eq_getElem _ _ hpos]
    exact List.getElem_mem hpos
  have h0 := (h.owned.in_range _ (Multiset.mem_add.mpr (Or.inl (Multiset.mem_coe.mpr hmem)))).1
  have hbs := h.blockSize_pos
  have hmod : pos % p.blockSize < p.blockSize := Nat.mod_lt _ hbs
  have hmul := Int.mul_nonneg h0 (Int.natCast_nonneg p.blockSize)
  have hnonneg : 0 ≤ slotAt t.blocks p.blockSize pos := by
    unfold slotAt
    omega
  refine ⟨hnonneg, ?_, hmem⟩
  rw [Int.tdiv_eq_ediv_of_nonneg hnonneg, slotAt, Int.add_comm,
    Int.add_mul_ediv_right _ _ (by omega), Int.ediv_eq_zero_of_lt (by omega) (by omega)]
  omega

/-- Blocks from the free list join those of a table without a repetition. -/
theorem nodup_grow {n : Nat} (h : Exclusive p (↑t.blocks + o)) :
    ((↑(t.blocks ++ p.freeList.take n) : Multiset Int) + o).Nodup := by
  have hcomm : (↑(t.blocks ++ p.freeList.take n) : Multiset Int) + o
      = ↑(p.freeList.take n) + (↑t.blocks + o) := by
    rw [← Multiset.coe_add, ← add_assoc]
    congr 1
    exact add_comm _ _
  rw [hcomm, Multiset.nodup_add]
  refine ⟨?_, h.nodup, ?_⟩
  · exact Multiset.coe_nodup.mpr (h.owned.free_nodup.sublist (List.take_sublist _ _))
  · rw [Multiset.disjoint_left]
    intro b hb
    exact h.owned.not_mem_owners_of_free (List.mem_of_mem_take (Multiset.mem_coe.mp hb))

theorem blocks_nodup (h : Exclusive p (↑t.blocks + o)) : t.blocks.Nodup :=
  Multiset.coe_nodup.mp (Multiset.nodup_add.mp h.nodup).1

end BlockTable

namespace PagedKvCache

variable {α : Type} {p p' : BlockPool α} {c c' : PagedKvCache} {o : Multiset Int}
  {layer : Int} {k v : Tensor α}

/-- What holds of a paged cache however it is used. -/
structure Wf (c : PagedKvCache) (p : BlockPool α) : Prop where
  sized : c.table.Sized p.blockSize
  layer_range : 0 ≤ c.nextLayer ∧ c.nextLayer < p.geom.numLayers
  pending_le : c.nextLayer ≠ 0 →
    0 < c.pendingSlots.length ∧ c.pendingSlots.length ≤ c.table.numTokens
  /-- in mid-forward the pending slots are those of the last positions -/
  pending_eq : c.nextLayer ≠ 0 → c.pendingSlots = (List.range c.pendingSlots.length).map fun i =>
    BlockTable.slotAt c.table.blocks p.blockSize (c.base + i)

theorem new_wf (hpos : 0 < p.geom.numLayers) : Wf new p :=
  ⟨BlockTable.empty_sized _, ⟨le_refl _, hpos⟩, fun h => absurd rfl h, fun h => absurd rfl h⟩

theorem Wf.of_shape (h : Wf c p) (hs : SameShape p p') : Wf c p' := by
  refine ⟨?_, ?_, h.pending_le, ?_⟩
  · rw [hs.blockSize]
    exact h.sized
  · rw [hs.geom]
    exact h.layer_range
  · rw [hs.blockSize]
    exact h.pending_eq

theorem base_le (c : PagedKvCache) : c.base ≤ c.table.numTokens := by
  unfold base
  split <;> omega

theorem visible_eq (hw : Wf c p) (l : Int) :
    c.visible l
      = ((if c.nextLayer = 0 ∨ l < c.nextLayer then
        c.table.numTokens else c.base : Nat) : Int) := by
  unfold visible base
  by_cases h : c.nextLayer = 0 ∨ l < c.nextLayer
  · rw [if_pos h, if_pos h]
  · rw [if_neg h, if_neg h, if_neg (fun hc => h (Or.inl hc))]
    have := hw.pending_le (fun hc => h (Or.inl hc))
    omega

theorem visible_le (hw : Wf c p) (l : Int) : (c.visible l).toNat ≤ c.table.numTokens := by
  have := base_le c
  rw [visible_eq hw, Int.toNat_natCast]
  split <;> omega

theorem base_le_visible (hw : Wf c p) (l : Int) : c.base ≤ (c.visible l).toNat := by
  have := base_le c
  rw [visible_eq hw, Int.toNat_natCast]
  split <;> omega

/-! ### What a layer shows around an append

A layer shows the tokens it has written and no others.  So what the append of one layer adds is
seen in that layer alone. -/

private theorem nextLayer_eq {numLayers : Int} (h : 0 ≤ layer ∧ layer < numLayers) :
    (layer + 1).tmod numLayers = if layer + 1 = numLayers then 0 else layer + 1 := by
  rw [Int.tmod_eq_emod_of_nonneg (by omega)]
  by_cases hc : layer + 1 = numLayers
  · rw [if_pos hc, hc, Int.emod_self]
  · rw [if_neg hc, Int.emod_eq_of_lt (by omega) (by omega)]

/-- Once layer `layer` has written, it and the layers before it show everything. -/
private theorem visible_after {n base : Nat} {table : BlockTable} {slots : List Int}
    {numLayers l : Int} (hlayer : 0 ≤ layer ∧ layer < numLayers) (hl : l < numLayers)
    (htok : table.numTokens = base + n) (hlen : slots.length = n) :
    (visible ⟨table, slots, (layer + 1).tmod numLayers⟩ l).toNat
      = if l ≤ layer then table.numTokens else base := by
  unfold visible
  simp only [nextLayer_eq hlayer, hlen]
  by_cases hlast : layer + 1 = numLayers
  · rw [if_pos hlast, if_pos (Or.inl rfl), if_pos (by omega), Int.toNat_natCast]
  · rw [if_neg hlast]
    by_cases hle : l ≤ layer
    · rw [if_pos (Or.inr (by omega)), if_pos hle, Int.toNat_natCast]
    · rw [if_neg (by omega), if_neg hle]
      omega

/-- Before it, another layer showed the same. -/
private theorem visible_before {n : Nat} {l : Int} (hw : Wf c p) (hl : layer = c.nextLayer)
    (hl0 : 0 ≤ l) (hne : l ≠ layer) (hopen : layer ≠ 0 → n = c.table.numTokens) :
    (c.visible l).toNat = if l ≤ layer then n else c.base := by
  rw [visible_eq hw, Int.toNat_natCast]
  by_cases h0 : c.nextLayer = 0
  · rw [if_pos (Or.inl h0), if_neg (by omega), base, if_pos h0]
  · by_cases hlt : l < c.nextLayer
    · rw [if_pos (Or.inr hlt), if_pos (by omega), hopen (by omega)]
    · rw [if_neg (by omega), if_neg (by omega)]

/-- The layer whose turn it is shows what was committed before the forward. -/
theorem visible_nextLayer (hw : Wf c p) : (c.visible c.nextLayer).toNat = c.base := by
  rw [visible_eq hw, Int.toNat_natCast]
  by_cases h0 : c.nextLayer = 0
  · rw [if_pos (Or.inl h0), base, if_pos h0]
  · rw [if_neg (by omega)]

/-! ### The slots of the tokens being written

The slots are computed once, at layer 0, and used by every layer of the forward. -/

/-- The slots of the last `n` positions of a table. -/
def lastSlots (p : BlockPool α) (t : BlockTable) (n : Nat) : List Int :=
  (List.range n).map fun i => BlockTable.slotAt t.blocks p.blockSize (t.numTokens - n + i)

private theorem lastSlots_nonneg {t : BlockTable} {n : Nat} (he : Exclusive p (↑t.blocks + o))
    (hs : t.Sized p.blockSize) (hn : n ≤ t.numTokens) : ∀ s ∈ lastSlots p t n, 0 ≤ s := by
  intro s hmem
  obtain ⟨i, hi, rfl⟩ := List.mem_map.mp hmem
  have hi' := List.mem_range.mp hi
  exact (BlockTable.slotAt_block he
    (BlockTable.block_lt_length hs he.blockSize_pos (by omega))).1

theorem lastSlots_nodup {t : BlockTable} {n : Nat} (he : Exclusive p (↑t.blocks + o))
    (hs : t.Sized p.blockSize) (hn : n ≤ t.numTokens) : (lastSlots p t n).Nodup := by
  refine List.Nodup.map_on ?_ List.nodup_range
  intro i hi j hj h
  have hi' := List.mem_range.mp hi
  have hj' := List.mem_range.mp hj
  have := BlockTable.slotAt_pos_inj he.blockSize_pos (BlockTable.blocks_nodup he)
    (BlockTable.block_lt_length hs he.blockSize_pos (by omega))
    (BlockTable.block_lt_length hs he.blockSize_pos (by omega)) h
  omega

variable [Zero α]

theorem log_rows (hl : 0 ≤ layer ∧ layer < p.geom.numLayers) :
    (c.log p).rows layer = (List.range (c.visible layer).toNat).map fun pos =>
      p.rowAt layer (BlockTable.slotAt c.table.blocks p.blockSize pos) :=
  if_pos hl

theorem log_rows_outside (hl : ¬(0 ≤ layer ∧ layer < p.geom.numLayers)) :
    (c.log p).rows layer = [] :=
  if_neg hl

/-! ### Caches that an operation does not touch

Blocks have one owner.  What is written into the blocks of one cache is not seen by another. -/

/-- The slots of blocks outside `blocks` keep their rows. -/
structure RowsKept (p p' : BlockPool α) (blocks : List Int) : Prop where
  shape : SameShape p p'
  rows : ∀ l slot, 0 ≤ slot → slot.tdiv p.blockSize ∉ blocks → p'.rowAt l slot = p.rowAt l slot

/-- A cache none of whose blocks was touched holds what it held. -/
theorem RowsKept.log_eq {blocks : List Int} (h : RowsKept p p' blocks)
    (he : Exclusive p (↑c.table.blocks + o)) (hw : Wf c p)
    (hdisj : ∀ b ∈ c.table.blocks, b ∉ blocks) : c.log p' = c.log p := by
  unfold log
  congr 1
  funext l
  rw [h.shape.geom, h.shape.blockSize]
  by_cases hl : 0 ≤ l ∧ l < p.geom.numLayers
  · rw [if_pos hl, if_pos hl]
    refine List.map_congr_left (fun pos hpos => ?_)
    have hlt : pos < c.table.numTokens := lt_of_lt_of_le (List.mem_range.mp hpos) (visible_le hw l)
    have hb := BlockTable.block_lt_length hw.sized he.blockSize_pos hlt
    obtain ⟨h0, hdiv, hmem⟩ := BlockTable.slotAt_block he hb
    exact h.rows l _ h0 (by rw [hdiv]; exact hdisj _ hmem)
  · rw [if_neg hl, if_neg hl]

theorem RowsKept.of_store (h : SameStore p p') (blocks : List Int) : RowsKept p p' blocks :=
  ⟨h.shape, fun l slot _ _ => rowAt_congr h l slot⟩

theorem log_of_store (h : SameStore p p') : c.log p' = c.log p := by
  unfold log
  simp only [h.geom, h.blockSize, rowAt_congr h]

/-! ### One layer's write

The pool after a scatter, slot by slot: the pending slots of the layer hold the rows of the
arguments, and all others what they held. -/

/-- The pool after one layer's scatter. -/
private def written (p : BlockPool α) (layer : Int) (slots : List Int) (k v : Tensor α) :
    BlockPool α :=
  p.writeSlabs layer
    (scatterRange k.data slots slots.length p.geom.numKvHeads p.geom.headDim p.blockSize
      (p.kSlabs layer))
    (scatterRange v.data slots slots.length p.geom.numKvHeads p.geom.headDim p.blockSize
      (p.vSlabs layer))

private theorem written_other_layer {slots : List Int} {l : Int} (h : l ≠ layer) (slot : Int) :
    (written p layer slots k v).rowAt l slot = p.rowAt l slot := by
  unfold written writeSlabs rowAt
  simp only [Function.update_of_ne h]

private theorem written_other_slot {slots : List Int} (hbs : 0 < p.blockSize)
    (hslots : ∀ s ∈ slots, 0 ≤ s) {slot : Int} (h0 : 0 ≤ slot) (hnot : slot ∉ slots) :
    (written p layer slots k v).rowAt layer slot = p.rowAt layer slot := by
  unfold written writeSlabs rowAt
  simp only [Function.update_self]
  congr 1
  · refine clip_congr ?_
    intro h hh e he
    exact scatterRange_other (by omega) hslots h0 hnot hh he
  · refine clip_congr ?_
    intro h hh e he
    exact scatterRange_other (by omega) hslots h0 hnot hh he

private theorem written_slot {slots : List Int} (hbs : 0 < p.blockSize)
    (hslots : ∀ s ∈ slots, 0 ≤ s) (hnd : slots.Nodup) {i : Nat} (hi : i < slots.length)
    (hk : slots.length = k.dim 0) :
    (written p layer slots k v).rowAt layer slots[i]
      = (appendRows p.geom k v).get ⟨i, by simp [appendRows]; omega⟩ := by
  unfold written writeSlabs rowAt appendRows
  simp only [Function.update_self, List.get_eq_getElem, List.getElem_map, List.getElem_range]
  congr 1
  · refine clip_congr ?_
    intro h hh e he
    exact scatterRange_slot (by omega) hslots hnd hi hh he
  · refine clip_congr ?_
    intro h hh e he
    exact scatterRange_slot (by omega) hslots hnd hi hh he

/-! ### Append

At layer 0 the table grows first, which may fail; then every layer writes.  The three outcomes
are kept apart: written, out of blocks, out of turn. -/

/-- What an accepted append has done. -/
structure Appended (p : BlockPool α) (c : PagedKvCache) (layer : Int) (k v : Tensor α)
    (o : Multiset Int) (c' : PagedKvCache) (p' : BlockPool α) : Prop where
  exclusive : Exclusive p' (↑c'.table.blocks + o)
  wf : Wf c' p'
  kept : RowsKept p p' c'.table.blocks
  exhaustions : p'.exhaustions = p.exhaustions
  tokens : c'.table.numTokens = c.base + k.dim 0
  nextLayer : c'.nextLayer = (layer + 1).tmod p.geom.numLayers
  pending : c'.pendingSlots = lastSlots p c'.table (k.dim 0)
  blocks : c.table.blocks <+: c'.table.blocks
  log : c'.log p' = (c.log p).append layer (appendRows p.geom k v)

/-- The layer written shows the tokens added to it, and no other layer shows anything new. -/
theorem Appended.visible (h : Appended p c layer k v o c' p') {l : Int}
    (hl : 0 ≤ l ∧ l < p.geom.numLayers) :
    (c'.visible l).toNat = (c.visible l).toNat + if l = layer then k.dim 0 else 0 := by
  have hlen := congrArg (fun g => (g.rows l).length) h.log
  simp only [KvLog.append_rows] at hlen
  rw [log_rows (by rw [h.kept.shape.geom]; exact hl), log_rows hl] at hlen
  split at hlen <;> rename_i hll
  · rw [if_pos hll]
    simpa [appendRows] using hlen
  · rw [if_neg hll]
    simpa using hlen

omit [Zero α] in
private theorem lastSlots_block {t : BlockTable} {n : Nat} (he : Exclusive p (↑t.blocks + o))
    (hs : t.Sized p.blockSize) (hn : n ≤ t.numTokens) :
    ∀ s ∈ lastSlots p t n, s.tdiv p.blockSize ∈ t.blocks := by
  intro s hmem
  obtain ⟨i, hi, rfl⟩ := List.mem_map.mp hmem
  have hi' := List.mem_range.mp hi
  obtain ⟨_, hdiv, hb⟩ := BlockTable.slotAt_block he
    (BlockTable.block_lt_length hs he.blockSize_pos
      (show t.numTokens - n + i < t.numTokens by omega))
  rw [hdiv]
  exact hb

/-- The slots written are in the cache's own blocks. -/
theorem Appended.pending_blocks (h : Appended p c layer k v o c' p') :
    ∀ s ∈ c'.pendingSlots, s.tdiv p.blockSize ∈ c'.table.blocks := by
  have hshape := h.kept.shape
  have htok := h.tokens
  have := lastSlots_block h.exclusive h.wf.sized (n := k.dim 0) (by omega)
  rw [h.pending]
  unfold lastSlots at this ⊢
  rwa [hshape.blockSize] at this

/-- The bookkeeping in front of a write does not change what the write does. -/
private theorem Appended.of_store {p₁ : BlockPool α} (h : Appended p₁ c layer k v o c' p')
    (hsame : SameStore p p₁) (hexh : p₁.exhaustions = p.exhaustions) :
    Appended p c layer k v o c' p' := by
  have hkeep := RowsKept.of_store hsame c'.table.blocks
  refine ⟨h.exclusive, h.wf, ⟨hsame.shape.trans h.kept.shape, ?_⟩, h.exhaustions.trans hexh,
    h.tokens, ?_, ?_, h.blocks, ?_⟩
  · intro l slot hs hnot
    exact (h.kept.rows l slot hs (by rw [hsame.blockSize]; exact hnot)).trans
      (hkeep.rows l slot hs hnot)
  · rw [h.nextLayer, hsame.geom]
  · rw [h.pending]
    unfold lastSlots
    rw [hsame.blockSize]
  · rw [h.log, log_of_store hsame, hsame.geom]

section Layer

variable {table : BlockTable} {slots : List Int}

/-- A row that was visible before the write of `layer`, or is of another layer, is kept. -/
private theorem written_old (he : Exclusive p (↑table.blocks + o)) (hs : table.Sized p.blockSize)
    {base n : Nat} (htok : table.numTokens = base + n) (hslots : slots = lastSlots p table n)
    {m : Nat} (hm : m < table.numTokens) {l : Int} (hother : l ≠ layer ∨ m < base) :
    (written p layer slots k v).rowAt l (BlockTable.slotAt table.blocks p.blockSize m)
      = p.rowAt l (BlockTable.slotAt table.blocks p.blockSize m) := by
  by_cases hll : l = layer
  · subst hll
    have hb := BlockTable.block_lt_length hs he.blockSize_pos hm
    refine written_other_slot he.blockSize_pos ?_ (BlockTable.slotAt_block he hb).1 ?_
    · rw [hslots]
      exact lastSlots_nonneg he hs (by omega)
    · intro hmem
      rw [hslots] at hmem
      obtain ⟨i, hi, heq⟩ := List.mem_map.mp hmem
      have hi' := List.mem_range.mp hi
      have := BlockTable.slotAt_pos_inj he.blockSize_pos (BlockTable.blocks_nodup he)
        (BlockTable.block_lt_length hs he.blockSize_pos (by omega)) hb heq
      rcases hother with hne | hlt
      · exact hne rfl
      · omega
  · exact written_other_layer hll _

/-- The rows of the new positions are the rows of the arguments. -/
private theorem written_new (he : Exclusive p (↑table.blocks + o)) (hs : table.Sized p.blockSize)
    {base : Nat} (htok : table.numTokens = base + k.dim 0)
    (hslots : slots = lastSlots p table (k.dim 0)) :
    (List.range (k.dim 0)).map (fun i => (written p layer slots k v).rowAt layer
        (BlockTable.slotAt table.blocks p.blockSize (base + i)))
      = appendRows p.geom k v := by
  have hlen : slots.length = k.dim 0 := by
    rw [hslots, lastSlots, List.length_map, List.length_range]
  have hnonneg : ∀ s ∈ slots, 0 ≤ s := by
    rw [hslots]
    exact lastSlots_nonneg he hs (by omega)
  have hnd : slots.Nodup := by
    rw [hslots]
    exact lastSlots_nodup he hs (by omega)
  refine List.ext_getElem (by simp [appendRows]) (fun i h1 _ => ?_)
  have hi : i < slots.length := by
    simp only [List.length_map, List.length_range] at h1
    omega
  have hslot : slots[i] = BlockTable.slotAt table.blocks p.blockSize (base + i) := by
    simp only [hslots, lastSlots, List.getElem_map, List.getElem_range]
    congr 1
    omega
  simp only [List.getElem_map, List.getElem_range]
  rw [← hslot]
  exact written_slot he.blockSize_pos hnonneg hnd hi hlen

/-- **The write of an open layer.**  The table holds the tokens of this forward, their slots are
pending, and the positions that were there before have kept their slots. -/
private theorem writeLayer (he : Exclusive p (↑table.blocks + o))
    (hs : table.Sized p.blockSize) (hw : Wf c p) (hshape : AppendShape p.geom layer k v)
    (hl : layer = c.nextLayer) (htok : table.numTokens = c.base + k.dim 0)
    (hpend : slots = lastSlots p table (k.dim 0))
    (hold : ∀ pos, pos < c.table.numTokens →
      BlockTable.slotAt table.blocks p.blockSize pos
        = BlockTable.slotAt c.table.blocks p.blockSize pos)
    (hopen : layer ≠ 0 → table.numTokens = c.table.numTokens)
    (hle : c.table.numTokens ≤ table.numTokens)
    (hblocks : c.table.blocks <+: table.blocks) :
    Appended p c layer k v o ⟨table, slots, (layer + 1).tmod p.geom.numLayers⟩
      (written p layer slots k v) := by
  have htpos := hshape.keys.tokens
  have hrange := hshape.layer_range
  have hlen : slots.length = k.dim 0 := by
    rw [hpend, lastSlots, List.length_map, List.length_range]
  refine ⟨he.writeSlabs _ _ _, ⟨hs, ?_, ?_, ?_⟩, ⟨⟨rfl, rfl, rfl⟩, ?_⟩, rfl, htok, rfl, hpend,
    hblocks, ?_⟩
  · show 0 ≤ (layer + 1).tmod p.geom.numLayers ∧
      (layer + 1).tmod p.geom.numLayers < p.geom.numLayers
    rw [nextLayer_eq hrange]
    have := he.layers_pos
    split <;> omega
  · intro _
    show 0 < slots.length ∧ slots.length ≤ table.numTokens
    omega
  · intro hne
    have hbase : base ⟨table, slots, (layer + 1).tmod p.geom.numLayers⟩
        = table.numTokens - k.dim 0 := by
      unfold base
      rw [if_neg hne]
      exact congrArg _ hlen
    rw [hbase]
    show slots = (List.range slots.length).map _
    rw [hlen]
    exact hpend
  · intro l slot h0 hnot
    by_cases hll : l = layer
    · subst hll
      refine written_other_slot he.blockSize_pos ?_ h0 (fun hmem => hnot ?_)
      · rw [hpend]
        exact lastSlots_nonneg he hs (by omega)
      · rw [hpend] at hmem
        exact lastSlots_block he hs (by omega) slot hmem
    · exact written_other_layer hll slot
  · refine KvLog.ext (funext fun l => ?_)
    rw [KvLog.append_rows]
    by_cases hlr : 0 ≤ l ∧ l < p.geom.numLayers
    · rw [log_rows (p := written p layer slots k v) hlr, log_rows hlr,
        visible_after hrange hlr.2 htok hlen]
      by_cases hll : l = layer
      · -- the layer written: its rows up to `base` are kept and the new ones follow
        subst hll
        have hvis : (c.visible l).toNat = c.base := by
          rw [hl]
          exact visible_nextLayer hw
        rw [if_pos rfl, if_pos (le_refl _), hvis, htok, List.range_add, List.map_append,
          List.map_map]
        refine congrArg₂ _ ?_ (written_new he hs htok hpend)
        refine List.map_congr_left (fun m hm => ?_)
        have hm' := List.mem_range.mp hm
        rw [← hold m (by have := base_le c; omega)]
        exact written_old he hs htok hpend (by omega) (Or.inr hm')
      · rw [if_neg hll, visible_before hw hl hlr.1 hll hopen]
        refine List.map_congr_left (fun m hm => ?_)
        have hm' := List.mem_range.mp hm
        have hbound : m < c.table.numTokens := by
          have := base_le c
          by_cases h0 : layer = 0
          · rw [if_neg (by omega)] at hm'
            omega
          · have := hopen h0
            split at hm' <;> omega
        rw [← hold m hbound]
        exact written_old he hs htok hpend (by omega) (Or.inl hll)
    · rw [log_rows_outside (p := written p layer slots k v) hlr, log_rows_outside hlr,
        if_neg (fun hc : l = layer => hlr (hc ▸ hrange))]

end Layer

/-- **An append in its turn, with blocks enough, extends the log of its layer.** -/
theorem append_ok (he : Exclusive p (↑c.table.blocks + o)) (hw : Wf c p)
    (hshape : AppendShape p.geom layer k v) (hl : layer = c.nextLayer)
    (ht : layer ≠ 0 → k.dim 0 = c.pendingSlots.length)
    (hfit : layer = 0 →
      BlockTable.demand p.blockSize c.table.numTokens (k.dim 0) ≤ p.freeList.length) :
    (c.append layer k v p).Returns fun r =>
      r.1 = .ok () ∧ Appended p c layer k v o r.2.1 r.2.2 := by
  have htpos := hshape.keys.tokens
  have hrange := hshape.layer_range
  unfold append
  rw [validateAppend_ok _ hshape]
  simp only [if_neg (show ¬layer ≠ c.nextLayer from fun hc => hc hl)]
  by_cases h0 : layer = 0
  · -- layer 0 grows the table
    have hbase : c.base = c.table.numTokens := by
      unfold base
      rw [if_pos (by omega)]
    unfold openLayer
    simp only [if_pos h0]
    have happ := BlockTable.appendTokens_owned he.owned hw.sized he.blockSize_pos htpos
    obtain ⟨⟨grown, table, p₁⟩, hrun, hsame, hcase⟩ := happ
    rw [hrun]
    rcases hcase with ⟨more, hmore, _, htable, hgrown, hsized, hown, _, hexh⟩ | ⟨hlt, _⟩
    · simp only at htable hgrown hsized hown hsame hexh
      subst hgrown
      have hnd : (↑table.blocks + o : Multiset Int).Nodup := by
        rw [htable, hmore]
        exact BlockTable.nodup_grow he
      have he₁ := he.of_owned hsame.shape hown hnd
      have hpend : (List.range (k.dim 0)).map (fun i =>
            BlockTable.slotAt (c.table.blocks ++ more) p.blockSize (c.table.numTokens + i))
          = lastSlots p₁ table (k.dim 0) := by
        unfold lastSlots
        rw [htable, hsame.blockSize]
        refine List.map_congr_left (fun i _ => ?_)
        congr 1
        show c.table.numTokens + i = c.table.numTokens + k.dim 0 - k.dim 0 + i
        omega
      have hlen : ((List.range (k.dim 0)).map (fun i =>
          BlockTable.slotAt (c.table.blocks ++ more) p.blockSize
            (c.table.numTokens + i))).length = k.dim 0 := by
        rw [List.length_map, List.length_range]
      have hwrite := writeLayer (c := c) (v := v) he₁ (by rw [hsame.blockSize]; exact hsized)
        (hw.of_shape hsame.shape) (by rw [hsame.geom]; exact hshape) hl
        (by rw [htable, hbase]) hpend ?_ (fun hc => absurd h0 hc) (by rw [htable]; simp) ?_
      · unfold written at hwrite
        rw [hlen] at hwrite
        simp only [bind, Except.bind, pure, Except.pure]
        rw [kSlab_ok (by rw [hsame.geom]; exact hrange),
          vSlab_ok (by rw [hsame.geom]; exact hrange)]
        exact ⟨_, rfl, rfl, hwrite.of_store hsame hexh⟩
      · intro pos hpos
        rw [htable]
        exact BlockTable.slotAt_append (by
          rw [hsame.blockSize]
          exact BlockTable.block_lt_length hw.sized he.blockSize_pos hpos)
      · rw [htable]
        exact List.prefix_append _ _
    · exact absurd (hfit h0) (by omega)
  · -- a later layer reuses the slots that layer 0 computed
    have hne : c.nextLayer ≠ 0 := by omega
    have hbase : c.base = c.table.numTokens - c.pendingSlots.length := by
      unfold base
      rw [if_neg hne]
    have hpl := hw.pending_le hne
    have hlen := ht h0
    unfold openLayer
    simp only [if_neg h0, if_neg (show ¬k.dim 0 ≠ c.pendingSlots.length from fun hc => hc hlen)]
    have hpend : c.pendingSlots = lastSlots p c.table (k.dim 0) := by
      unfold lastSlots
      rw [hlen, ← hbase]
      exact hw.pending_eq hne
    have hwrite := writeLayer (v := v) he hw.sized hw hshape hl (by omega) hpend
      (fun _ _ => rfl) (fun _ => rfl) (le_refl _) (List.prefix_refl _)
    simp only [bind, Except.bind, pure, Except.pure]
    rw [kSlab_ok hrange, vSlab_ok hrange]
    refine ⟨_, rfl, rfl, ?_⟩
    unfold written at hwrite
    rw [← hlen] at hwrite
    exact hwrite

/-- What the code calls a failed open: nothing is written and no token is added. -/
structure Exhausted (p : BlockPool α) (c : PagedKvCache) (o : Multiset Int)
    (c' : PagedKvCache) (p' : BlockPool α) : Prop where
  exclusive : Exclusive p' (↑c'.table.blocks + o)
  store : SameStore p p'
  cache : c' = { c with pendingSlots := [] }
  exhaustions : p'.exhaustions = p.exhaustions + 1

omit [Zero α] in
/-- **Layer 0 of a forward that finds too few free blocks is refused.** -/
theorem append_exhausted (he : Exclusive p (↑c.table.blocks + o)) (hw : Wf c p)
    (hshape : AppendShape p.geom 0 k v) (hl : c.nextLayer = 0)
    (hfull : p.freeList.length < BlockTable.demand p.blockSize c.table.numTokens (k.dim 0)) :
    (c.append 0 k v p).Returns fun r =>
      (∃ message, r.1 = .error (resourceExhaustedError message)) ∧ Exhausted p c o r.2.1 r.2.2 := by
  have htpos := hshape.keys.tokens
  unfold append
  rw [validateAppend_ok _ hshape]
  simp only [if_neg (show ¬(0 : Int) ≠ c.nextLayer from fun hc => hc hl.symm)]
  unfold openLayer
  simp only [if_true]
  have happ := BlockTable.appendTokens_owned he.owned hw.sized he.blockSize_pos htpos
  obtain ⟨⟨grown, table, p₁⟩, hrun, hsame, hcase⟩ := happ
  rw [hrun]
  rcases hcase with ⟨_, _, hle, _⟩ | ⟨_, htable, ⟨message, hgrown⟩, hown, hexh⟩
  · exact absurd hle (by omega)
  · simp only at htable hgrown hown hsame hexh
    subst hgrown htable
    exact ⟨_, rfl, ⟨message, rfl⟩, he.of_owned hsame.shape hown he.nodup, hsame, rfl, hexh⟩

omit [Zero α] in
theorem Exhausted.wf (h : Exhausted p c o c' p') (hw : Wf c p) (hl : c.nextLayer = 0) :
    Wf c' p' := by
  rw [h.cache]
  have hw' := hw.of_shape h.store.shape
  exact ⟨hw'.sized, hw'.layer_range, fun hc => absurd hl hc, fun hc => absurd hl hc⟩

omit [Zero α] in
/-- A refused open shows what the cache showed. -/
theorem Exhausted.visible (h : Exhausted p c o c' p') (hl : c.nextLayer = 0) (l : Int) :
    c'.visible l = c.visible l := by
  rw [h.cache]
  unfold PagedKvCache.visible
  simp only [hl, true_or, if_true]

theorem Exhausted.log_eq (h : Exhausted p c o c' p') (hl : c.nextLayer = 0) :
    c'.log p' = c.log p := by
  rw [log_of_store h.store]
  unfold log
  simp only [h.visible hl]
  rw [h.cache]

omit [Zero α] in
/-- **An append out of its turn, or of the wrong shape, is refused** and changes nothing. -/
theorem append_rejected
    (h : ¬(AppendShape p.geom layer k v ∧ layer = c.nextLayer ∧
      (layer ≠ 0 → k.dim 0 = c.pendingSlots.length))) :
    ∃ message, c.append layer k v p = .ok (.error (invalidArgumentError message), c, p) := by
  unfold append
  by_cases hshape : AppendShape p.geom layer k v
  · rw [validateAppend_ok _ hshape]
    by_cases hl : layer = c.nextLayer
    · have ht : layer ≠ 0 ∧ k.dim 0 ≠ c.pendingSlots.length := by
        by_contra hc
        exact h ⟨hshape, hl, fun h0 => by_contra fun hne => hc ⟨h0, hne⟩⟩
      simp only [if_neg (show ¬layer ≠ c.nextLayer from fun hc => hc hl)]
      unfold openLayer
      simp only [if_neg ht.1, if_pos ht.2]
      exact ⟨_, rfl⟩
    · simp only [if_pos (show layer ≠ c.nextLayer from hl)]
      exact ⟨_, rfl⟩
  · obtain ⟨message, hm⟩ := validateAppend_rejects "PagedKvCache" hshape
    rw [hm]
    exact ⟨_, rfl⟩

/-! ### Truncate, view and destruction

A truncation returns the blocks that are no longer needed.  What is left shows what it showed. -/

/-- What an accepted truncation has done. -/
structure Truncated (p : BlockPool α) (c : PagedKvCache) (n : Nat) (o : Multiset Int)
    (c' : PagedKvCache) (p' : BlockPool α) : Prop where
  exclusive : Exclusive p' (↑c'.table.blocks + o)
  store : SameStore p p'
  exhaustions : p'.exhaustions = p.exhaustions
  cache : c' = ⟨⟨c.table.blocks.take (n ⌈/⌉ p.blockSize), n⟩, [], 0⟩
  wf : Wf c' p'

omit [Zero α] in
theorem truncate_ok {n : Nat} (he : Exclusive p (↑c.table.blocks + o)) (hw : Wf c p)
    (hn : n ≤ c.table.numTokens) :
    (c.truncate n p).Returns fun r => r.1 = .ok () ∧ Truncated p c n o r.2.1 r.2.2 := by
  unfold truncate
  refine Returns.bind (BlockTable.truncate_owned he.owned hw.sized he.blockSize_pos hn) ?_
  rintro ⟨truncated, table, p₁⟩ ⟨h1, htable, hsized, hown, hsame, hexh⟩
  simp only at h1 htable hsized hown hsame hexh
  subst h1
  have hnd : (↑table.blocks + o : Multiset Int).Nodup := by
    refine Multiset.nodup_of_le (Multiset.add_le_add_right ?_) he.nodup
    rw [htable]
    exact Multiset.coe_le.mpr (List.take_sublist _ _).subperm
  refine returns_pure ⟨rfl, he.of_owned hsame.shape hown hnd, hsame, hexh, by rw [htable], ?_⟩
  refine ⟨?_, ⟨le_refl _, ?_⟩, fun hc => absurd rfl hc, fun hc => absurd rfl hc⟩
  · rw [hsame.blockSize]
    exact hsized
  · rw [hsame.geom]
    exact he.layers_pos

/-- **A truncation to at most the length committed before the forward cuts the log.** -/
theorem Truncated.log_eq {n : Nat} (h : Truncated p c n o c' p')
    (he : Exclusive p (↑c.table.blocks + o)) (hw : Wf c p) (hn : n ≤ c.base) :
    c'.log p' = (c.log p).truncate n := by
  rw [log_of_store h.store]
  refine KvLog.ext (funext fun l => ?_)
  rw [KvLog.truncate_rows]
  by_cases hl : 0 ≤ l ∧ l < p.geom.numLayers
  · have hvis : (c'.visible l).toNat = n := by
      rw [h.cache]
      rfl
    have hle := base_le_visible hw l
    rw [log_rows hl, log_rows hl, hvis, ← List.map_take, List.take_range,
      min_eq_left (by omega)]
    refine List.map_congr_left (fun pos hpos => ?_)
    have hpos' := List.mem_range.mp hpos
    rw [h.cache]
    congr 1
    refine BlockTable.slotAt_take ?_
    rw [Nat.div_lt_iff_lt_mul he.blockSize_pos, Nat.mul_comm]
    exact lt_of_lt_of_le hpos' ((ceilDiv_le_iff_le_mul he.blockSize_pos).mp (le_refl _))
  · rw [log_rows_outside hl, log_rows_outside hl, List.take_nil]

omit [Zero α] in
theorem truncate_rejected {n : Int} (h : n < 0 ∨ (c.table.numTokens : Int) < n) :
    ∃ message, c.truncate n p = .ok (.error (invalidArgumentError message), c, p) := by
  obtain ⟨message, hm⟩ := BlockTable.truncate_rejects (p := p) h
  refine ⟨message, ?_⟩
  unfold truncate
  rw [hm]
  rfl

omit [Zero α] in
private theorem gather_row (he : Exclusive p (↑c.table.blocks + o)) (hw : Wf c p)
    (slabs fresh : Int → α) {n pos : Nat} {h e : Int} (hn : n ≤ c.table.numTokens)
    (hpos : pos < n) (hh : 0 ≤ h ∧ h < p.geom.numKvHeads) (hee : 0 ≤ e ∧ e < p.geom.headDim) :
    kvGather slabs c.table.blocks p.blockSize n p.geom.numKvHeads p.geom.headDim fresh
        ((h * n + pos) * p.geom.headDim + e)
      = slabs (cell p.geom.numKvHeads p.geom.headDim p.blockSize
          (BlockTable.slotAt c.table.blocks p.blockSize pos) h e) := by
  have hb := BlockTable.block_lt_length hw.sized he.blockSize_pos (lt_of_lt_of_le hpos hn)
  obtain ⟨_, _, hmem⟩ := BlockTable.slotAt_block he hb
  have h0 := (he.owned.in_range _ (Multiset.mem_add.mpr (Or.inl (Multiset.mem_coe.mpr hmem)))).1
  have hmod : pos % p.blockSize < p.blockSize := Nat.mod_lt _ he.blockSize_pos
  have hbs := he.blockSize_pos
  rw [kvGather_at (by omega) hh (by omega) hee]
  have hdiv : ((pos : Int) / p.blockSize).toNat = pos / p.blockSize := by
    rw [← Int.natCast_ediv, Int.toNat_natCast]
  rw [hdiv, ← Int.natCast_emod, BlockTable.slotAt, cell_of_block h0 (by omega) (by omega)]

/-- **A view shows the log of its layer.** -/
theorem view_ok (he : Exclusive p (↑c.table.blocks + o)) (hw : Wf c p)
    (hl : 0 ≤ layer ∧ layer < p.geom.numLayers) (freshK freshV : Int → α) :
    ∃ view, c.view layer p freshK freshV = .ok (.ok view) ∧
      IsView p.geom ((c.log p).rows layer) view := by
  obtain ⟨n, hn⟩ : ∃ n : Nat, c.visible layer = n := ⟨_, visible_eq hw layer⟩
  have hle : n ≤ c.table.numTokens := by
    have := visible_le hw layer
    rwa [hn, Int.toNat_natCast] at this
  have hmap : ∀ f : TokenRow α → Int → Int → α, ((c.log p).rows layer).map f
      = (List.range n).map fun pos =>
          f (p.rowAt layer (BlockTable.slotAt c.table.blocks p.blockSize pos)) := by
    intro f
    rw [log_rows hl, hn, Int.toNat_natCast, List.map_map]
    rfl
  unfold view gatherLayerKV
  rw [validateViewLayer_ok _ hl, hn]
  simp only [validateViewLayer_ok _ hl, if_neg (show ¬((n : Int) < 0 ∨
    (c.table.numTokens : Int) < n) by omega), kSlab_ok hl, vSlab_ok hl]
  refine ⟨_, rfl, ?_, ?_⟩
  · rw [hmap]
    refine ⟨by simp [headMajor], rfl, rfl, ?_⟩
    intro h hh e hee pos hpos
    simp only [List.length_map, List.length_range, List.getElem_map, List.getElem_range] at hpos ⊢
    refine (gather_row he hw (p.kSlabs layer) freshK hle hpos hh hee).trans ?_
    exact (clip_apply (f := fun h e => p.kSlabs layer (cell p.geom.numKvHeads p.geom.headDim
      p.blockSize (BlockTable.slotAt c.table.blocks p.blockSize pos) h e)) hh hee).symm
  · rw [hmap]
    refine ⟨by simp [headMajor], rfl, rfl, ?_⟩
    intro h hh e hee pos hpos
    simp only [List.length_map, List.length_range, List.getElem_map, List.getElem_range] at hpos ⊢
    refine (gather_row he hw (p.vSlabs layer) freshV hle hpos hh hee).trans ?_
    exact (clip_apply (f := fun h e => p.vSlabs layer (cell p.geom.numKvHeads p.geom.headDim
      p.blockSize (BlockTable.slotAt c.table.blocks p.blockSize pos) h e)) hh hee).symm

omit [Zero α] in
theorem view_rejected (hl : ¬(0 ≤ layer ∧ layer < p.geom.numLayers)) (freshK freshV : Int → α) :
    ∃ message, c.view layer p freshK freshV = .ok (.error (invalidArgumentError message)) := by
  obtain ⟨message, hm⟩ := validateViewLayer_rejects "PagedKvCache::view" hl
  refine ⟨message, ?_⟩
  unfold view
  rw [hm]

omit [Zero α] in
/-- **Destruction gives every block back.** -/
theorem destroy_ok (he : Exclusive p (↑c.table.blocks + o)) :
    (c.destroy p).Returns fun p' =>
      Exclusive p' o ∧ SameStore p p' ∧ p'.exhaustions = p.exhaustions := by
  unfold destroy
  refine Returns.bind (BlockTable.freeAll_owned he.owned) ?_
  rintro ⟨_, p₁⟩ ⟨_, hown, hsame, hexh⟩
  refine returns_pure ⟨he.of_owned hsame.shape hown ?_, hsame, hexh⟩
  exact (Multiset.nodup_add.mp he.nodup).2.1

end PagedKvCache

end InferenceEngine
