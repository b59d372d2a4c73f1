/-
A view never exposes unwritten bytes, as long as no truncation cuts into a forward.

What a layer shows was written at that layer and position since its block was allocated: an
append adds exactly the positions it writes, blocks allocated for it hold nothing visible
before it, and a truncation to at most the length committed before the forward only hides.

A truncation that keeps tokens of the forward in progress breaks this.  The paged cache
accepts it, since its table already counts those tokens, and then shows them in the layers
that have not written them; the contiguous cache refuses it.
-/
import InferenceEngine.KvCache.StampedCaches
import InferenceEngine.Proofs.PairedCaches

namespace InferenceEngine

open Except BlockPool Transition

namespace StampedCaches

variable {α : Type} [Zero α] {s s' : StampedCaches α} {id : Nat}
  {stamps : Int → Int → Option (Stamp α)} {p p' : BlockPool α} {c c' d : PagedKvCache}
  {o : Multiset Int} {layer : Int} {k v : Tensor α}

/-- What each layer of a cache holds was written there by the cache. -/
def Written (p : BlockPool α) (stamps : Int → Int → Option (Stamp α)) (id : Nat)
    (c : PagedKvCache) : Prop :=
  ∀ l pos row, ((c.log p).rows l)[pos]? = some row →
    stamps l (BlockTable.slotAt c.table.blocks p.blockSize pos) = some ⟨id, pos, row⟩

/-- What every state reached without cutting a forward satisfies. -/
structure Invariant (s : StampedCaches α) : Prop where
  pairs : PairedCaches.Invariant s.pairs
  written : ∀ id c, s.pairs.caches.lookup id = some c → Written s.pairs.pool s.stamps id c.paged

/-- A row that a cache holds is at a visible position of one of its layers. -/
theorem log_position {l : Int} {pos : Nat} {row : TokenRow α}
    (h : ((c.log p).rows l)[pos]? = some row) :
    (0 ≤ l ∧ l < p.geom.numLayers) ∧ pos < (c.visible l).toNat := by
  by_cases hl : 0 ≤ l ∧ l < p.geom.numLayers
  · obtain ⟨hlt, _⟩ := List.getElem?_eq_some_iff.mp h
    rw [PagedKvCache.log_rows hl, List.length_map, List.length_range] at hlt
    exact ⟨hl, hlt⟩
  · rw [PagedKvCache.log_rows_outside hl] at h
    cases h

/-- The block of a row that a cache holds is one of the cache's. -/
theorem log_block (hw : c.Wf p) (hbs : 0 < p.blockSize) {l : Int} {pos : Nat} {row : TokenRow α}
    (h : ((c.log p).rows l)[pos]? = some row) : pos / p.blockSize < c.table.blocks.length :=
  BlockTable.block_lt_length hw.sized hbs
    (lt_of_lt_of_le (log_position h).2 (PagedKvCache.visible_le hw l))

/-! ### The history after an append

The history records for each slot the row last written to it.  An append changes it at the slots
of the positions it adds. -/

/-- The slots of a cache are untouched by the append of another. -/
theorem record_other {j : Nat} {blocks : List Int} (he : Exclusive p (↑d.table.blocks + o))
    (hw : d.Wf p) (hkept : PagedKvCache.RowsKept p p' blocks)
    (hblocks : ∀ b ∈ d.table.blocks, b ∉ blocks)
    (hdisj : ∀ b ∈ d.table.blocks, b ∉ c'.table.blocks)
    (hslots : ∀ slot ∈ c'.pendingSlots, slot.tdiv p.blockSize ∈ c'.table.blocks)
    (h : Written p stamps j d) :
    Written p' (record stamps p.geom p.blockSize id layer k v c c') j d := by
  intro l pos row hrow
  rw [hkept.log_eq he hw hblocks] at hrow
  rw [hkept.shape.blockSize]
  obtain ⟨_, hdiv, hmem⟩ := BlockTable.slotAt_block he (log_block hw he.blockSize_pos hrow)
  have hnot := hdisj _ hmem
  rw [← hdiv] at hnot
  unfold record
  rw [if_neg (fun hc => hnot (hslots _ hc.2)), if_neg (fun hc => hnot (List.mem_of_mem_drop hc))]
  exact h l pos row hrow

section Own

variable (hw : c.Wf p) (happ : PagedKvCache.Appended p c layer k v o c' p')
include hw happ

omit hw in
/-- The slots an append writes are those of the positions it adds. -/
theorem pending_slot {i : Nat} (hi : i < k.dim 0) : c'.pendingSlots[i]? =
    some (BlockTable.slotAt c'.table.blocks p'.blockSize (c.base + i)) := by
  rw [happ.pending, PagedKvCache.lastSlots, List.getElem?_map, List.getElem?_range hi,
    Option.map_some, happ.kept.shape.blockSize, happ.tokens, Nat.add_sub_cancel]

/-- A position shown before the append keeps its slot and what is recorded of it: its slot is
not among those written, and its block is not new. -/
theorem record_old (hlayer : layer = c.nextLayer) {l : Int} {pos : Nat} {row : TokenRow α}
    (hold : ((c.log p).rows l)[pos]? = some row) :
    record stamps p.geom p.blockSize id layer k v c c' l
        (BlockTable.slotAt c'.table.blocks p'.blockSize pos)
      = stamps l (BlockTable.slotAt c.table.blocks p.blockSize pos) := by
  have hex := happ.exclusive
  have hnd := BlockTable.blocks_nodup hex
  have hbs : 0 < p'.blockSize := hex.blockSize_pos
  have hsize := happ.kept.shape.blockSize
  have hvisible := (log_position hold).2
  have hb : pos / p'.blockSize < c.table.blocks.length := by
    rw [hsize]
    exact log_block hw (hsize ▸ hbs) hold
  obtain ⟨fresh, hfresh⟩ := happ.blocks
  have hblock : pos / p'.blockSize < c'.table.blocks.length := by
    rw [← hfresh, List.length_append]
    omega
  have hslot : BlockTable.slotAt c'.table.blocks p'.blockSize pos
      = BlockTable.slotAt c.table.blocks p'.blockSize pos := by
    rw [← hfresh]
    exact BlockTable.slotAt_append hb
  obtain ⟨_, hdiv, _⟩ := BlockTable.slotAt_block hex hblock
  unfold record
  rw [if_neg, if_neg]
  · rw [hslot, hsize]
  · rw [← hsize, hdiv, ← hfresh, List.drop_left, List.getD_append _ _ _ _ hb,
      List.getD_eq_getElem _ _ hb]
    rw [← hfresh] at hnd
    exact fun hc => (List.disjoint_of_nodup_append hnd) (List.getElem_mem hb) hc
  · rintro ⟨rfl, hmem⟩
    obtain ⟨i, hi, hget⟩ := List.getElem_of_mem hmem
    have htok := happ.tokens
    have hlen : c'.pendingSlots.length = k.dim 0 := by
      rw [happ.pending, PagedKvCache.lastSlots, List.length_map, List.length_range]
    have hsome := pending_slot happ (i := i) (by omega)
    rw [List.getElem?_eq_getElem hi, hget] at hsome
    have hpe := BlockTable.slotAt_pos_inj hbs hnd hblock
      (BlockTable.block_lt_length happ.wf.sized hbs (by omega)) (Option.some.inj hsome)
    rw [hlayer, PagedKvCache.visible_nextLayer hw] at hvisible
    omega

omit hw in
/-- A position the append adds has the row it was given. -/
theorem record_new {i : Nat} {row : TokenRow α} (hnew : (appendRows p.geom k v)[i]? = some row) :
    record stamps p.geom p.blockSize id layer k v c c' layer
        (BlockTable.slotAt c'.table.blocks p'.blockSize (c.base + i))
      = some ⟨id, c.base + i, row⟩ := by
  have hex := happ.exclusive
  have hi : i < k.dim 0 := by
    obtain ⟨hlt, _⟩ := List.getElem?_eq_some_iff.mp hnew
    rwa [appendRows, List.length_map, List.length_range] at hlt
  have hpnd : c'.pendingSlots.Nodup := by
    have htok := happ.tokens
    have := PagedKvCache.lastSlots_nodup hex happ.wf.sized (n := k.dim 0) (by omega)
    rw [happ.pending]
    unfold PagedKvCache.lastSlots at this ⊢
    rwa [happ.kept.shape.blockSize] at this
  have hslot := pending_slot happ hi
  obtain ⟨hlen, hget⟩ := List.getElem?_eq_some_iff.mp hslot
  unfold record
  rw [if_pos ⟨rfl, List.mem_of_getElem? hslot⟩, ← hget]
  simp only [hpnd.idxOf_getElem, hnew, Option.map_some]

/-- **The append leaves its own cache written.** -/
theorem record_own (h : Written p stamps id c) (hlayer : layer = c.nextLayer) :
    Written p' (record stamps p.geom p.blockSize id layer k v c c') id c' := by
  intro l pos row hrow
  rw [happ.log, KvLog.append_rows] at hrow
  by_cases hold : pos < ((c.log p).rows l).length
  · have hrow : ((c.log p).rows l)[pos]? = some row := by
      split at hrow
      · rwa [List.getElem?_append_left hold] at hrow
      · exact hrow
    rw [record_old hw happ hlayer hrow]
    exact h l pos row hrow
  · split at hrow
    · rename_i hll
      subst hll
      have hlen : ((c.log p).rows l).length = c.base := by
        have hl : 0 ≤ l ∧ l < p.geom.numLayers := hlayer ▸ hw.layer_range
        rw [PagedKvCache.log_rows hl, List.length_map, List.length_range, hlayer,
          PagedKvCache.visible_nextLayer hw]
      rw [List.getElem?_append_right (by omega), hlen] at hrow
      have hnew : record stamps p.geom p.blockSize id l k v c c' l
          (BlockTable.slotAt c'.table.blocks p'.blockSize (c.base + (pos - c.base)))
            = some ⟨id, c.base + (pos - c.base), row⟩ := record_new happ hrow
      rwa [Nat.add_sub_cancel' (by omega)] at hnew
    · rw [List.getElem?_eq_none (by omega)] at hrow
      cases hrow

end Own

/-! ### One call

A call keeps every cache written if it changes neither the slots of the others nor the record of
those slots. -/

/-- A cache that holds what it held, in the slots it had. -/
theorem Written.of_log (h : Written p stamps id c) (hs : p'.blockSize = p.blockSize)
    (hblocks : c'.table.blocks = c.table.blocks) (hlog : c'.log p' = c.log p) :
    Written p' stamps id c' := by
  intro l pos row hrow
  rw [hlog] at hrow
  rw [hs, hblocks]
  exact h l pos row hrow

theorem Written.of_store (h : Written p stamps id c) (hs : SameStore p p') :
    Written p' stamps id c :=
  h.of_log hs.blockSize rfl (PagedKvCache.log_of_store hs)

/-- A truncation to at most the length committed before the forward only hides rows. -/
theorem Written.truncate {n : Nat} (h : Written p stamps id c)
    (he : Exclusive p (↑c.table.blocks + o)) (hw : c.Wf p)
    (ht : PagedKvCache.Truncated p c n o c' p') (hn : n ≤ c.base) :
    Written p' stamps id c' := by
  intro l pos row hrow
  have hbs := he.blockSize_pos
  rw [ht.log_eq he hw hn, KvLog.truncate_rows, List.getElem?_take] at hrow
  split at hrow
  · rename_i hpos
    have hblock : pos / p.blockSize < n ⌈/⌉ p.blockSize := by
      rw [Nat.div_lt_iff_lt_mul hbs, Nat.mul_comm]
      exact lt_of_lt_of_le hpos ((ceilDiv_le_iff_le_mul hbs).mp (le_refl _))
    rw [ht.store.blockSize, ht.cache]
    show stamps l (BlockTable.slotAt (c.table.blocks.take _) p.blockSize pos) = _
    rw [BlockTable.slotAt_take hblock]
    exact h l pos row hrow
  · cases hrow

/-- The state after a call on the cache `id`. -/
theorem invariant_insert {pool : BlockPool α} {pair : CachePair α} (hinv : Invariant s)
    (hpairs : PairedCaches.Invariant { pool := pool, caches := s.pairs.caches.insert id pair })
    (hown : Written pool stamps id pair.paged)
    (hother : ∀ j e, j ≠ id → s.pairs.caches.lookup j = some e →
      Written s.pairs.pool s.stamps j e.paged → Written pool stamps j e.paged) :
    Invariant ⟨{ pool := pool, caches := s.pairs.caches.insert id pair }, stamps⟩ := by
  refine ⟨hpairs, ?_⟩
  intro j e he
  rcases IdMap.lookup_insert_iff.mp he with ⟨rfl, rfl⟩ | ⟨hj, he⟩
  · exact hown
  · exact hother j e hj he (hinv.written j e he)

/-- A call that leaves the pool and the pairs as they are. -/
theorem invariant_same {pair : CachePair α} (hinv : Invariant s)
    (hc : s.pairs.caches.lookup id = some pair) :
    Invariant ⟨{ pool := s.pairs.pool, caches := s.pairs.caches.insert id pair }, s.stamps⟩ := by
  have he := hinv.pairs.exclusive
  rw [PairedCaches.owners_of_lookup hc] at he
  refine invariant_insert hinv ?_ (hinv.written id pair hc) (fun j e _ _ h => h)
  exact PairedCaches.invariant_insert hinv.pairs he
    (PagedKvCache.RowsKept.of_store (SameStore.refl _) []) (by simp) (hinv.pairs.same id pair hc)

theorem append_invariant (hinv : Invariant s) (hl : s.Legal (.append id layer k v)) :
    (s.run (.append id layer k v)).Returns fun r => r.2.pairs.Fits → Invariant r.2 := by
  obtain ⟨c, hc⟩ := Option.isSome_iff_exists.mp (AList.lookup_isSome.mpr hl)
  have hsame := hinv.pairs.same id c hc
  have hwritten := hinv.written id c hc
  have he := hinv.pairs.exclusive
  rw [PairedCaches.owners_of_lookup hc] at he
  rw [run, PairedCaches.pair_eq hc]
  show Returns (c.paged.append layer k v s.pairs.pool >>= _) _
  by_cases hprot : AppendShape s.pairs.pool.geom layer k v ∧ layer = c.paged.nextLayer ∧
      (layer ≠ 0 → k.dim 0 = c.paged.pendingSlots.length)
  · obtain ⟨hshape, hnext, htok⟩ := hprot
    by_cases hfit : layer = 0 →
        BlockTable.demand s.pairs.pool.blockSize c.paged.table.numTokens (k.dim 0)
          ≤ s.pairs.pool.freeList.length
    · refine Returns.bind (PagedKvCache.append_ok he hsame.paged hshape hnext htok hfit) ?_
      rintro ⟨r, paged, pool⟩ ⟨hr, happ⟩
      simp only at hr happ
      subst hr
      refine returns_pure ?_
      intro hfits
      have hroom : (paged.length : Int) ≤ c.simple.capacity := by
        rw [← SimpleKvCache.append_capacity (c := c.simple) layer k v]
        exact hfits id _ (AList.lookup_insert _)
      obtain ⟨simple, hsimple, hsame'⟩ := hsame.append hshape hnext happ hroom
      simp only [hsimple]
      refine invariant_insert hinv ?_ (record_own hsame.paged happ hwritten hnext) ?_
      · exact PairedCaches.invariant_insert hinv.pairs happ.exclusive happ.kept (fun b hb => hb)
          hsame'
      · intro j e hj hlook hold
        have heo := hinv.pairs.exclusive
        rw [PairedCaches.owners_of_lookup hlook] at heo
        have hapart : ∀ b ∈ e.paged.table.blocks, b ∉ paged.table.blocks := by
          intro b hb hmem
          have hdisj := (Multiset.nodup_add.mp happ.exclusive.nodup).2.2
          exact Multiset.disjoint_left.mp hdisj (Multiset.mem_coe.mpr hmem)
            (PairedCaches.block_mem_others hj hlook hb)
        exact record_other heo (hinv.pairs.same j e hlook).paged happ.kept hapart hapart
          happ.pending_blocks hold
    · -- layer 0 found too few blocks: the table is as it was
      have h0 : layer = 0 := by
        by_contra hne
        exact hfit (fun hc => absurd hc hne)
      subst h0
      have hfull : s.pairs.pool.freeList.length
          < BlockTable.demand s.pairs.pool.blockSize c.paged.table.numTokens (k.dim 0) := by
        by_contra hc
        exact hfit (fun _ => by omega)
      refine Returns.bind (PagedKvCache.append_exhausted he hsame.paged hshape hnext.symm hfull) ?_
      rintro ⟨r, paged, pool⟩ ⟨⟨message, hr⟩, hex⟩
      simp only at hr hex
      subst hr
      refine returns_pure ?_
      intro _
      have hstore := hex.store
      refine invariant_insert hinv ?_ ?_ (fun j e _ _ h => h.of_store hstore)
      · exact PairedCaches.invariant_insert hinv.pairs hex.exclusive
          (PagedKvCache.RowsKept.of_store hstore []) (by simp)
          ⟨hex.wf hsame.paged hnext.symm, hsame.simple, hsame.geom.trans hstore.geom.symm,
            (hex.log_eq hnext.symm).trans hsame.log⟩
      · refine hwritten.of_log hstore.blockSize ?_ (hex.log_eq hnext.symm)
        rw [hex.cache]
  · obtain ⟨message, hm⟩ := PagedKvCache.append_rejected hprot
    rw [hm]
    exact returns_ok (fun _ => invariant_same hinv hc)

theorem truncate_invariant {n : Int} (hinv : Invariant s) (hl : s.Legal (.truncate id n))
    (hcareful : s.Careful (.truncate id n)) :
    (s.run (.truncate id n)).Returns fun r => Invariant r.2 := by
  obtain ⟨c, hc⟩ := Option.isSome_iff_exists.mp (AList.lookup_isSome.mpr hl)
  have hcut := hcareful c hc
  have hsame := hinv.pairs.same id c hc
  have he := hinv.pairs.exclusive
  rw [PairedCaches.owners_of_lookup hc] at he
  have hbase := PagedKvCache.base_le c.paged
  have hlength := hsame.length_eq_base
  unfold CutsForward at hcut
  rw [run, PairedCaches.run, PairedCaches.pair_eq hc]
  by_cases hok : 0 ≤ n ∧ n ≤ c.paged.base
  · obtain ⟨m, rfl⟩ := Int.eq_ofNat_of_zero_le hok.1
    obtain ⟨⟨r, paged, pool⟩, hrun, hr, ht⟩ :=
      PagedKvCache.truncate_ok he hsame.paged (n := m) (by omega)
    simp only at hr ht
    subst hr
    obtain ⟨simple, hsimple, hsame'⟩ := hsame.truncate he ht (by omega)
    simp only [bind, Except.bind, hrun, hsimple]
    refine returns_ok (invariant_insert hinv ?_ ?_ (fun j e _ _ h => h.of_store ht.store))
    · exact PairedCaches.invariant_insert hinv.pairs ht.exclusive
        (PagedKvCache.RowsKept.of_store ht.store []) (by simp) hsame'
    · exact (hinv.written id c hc).truncate he hsame.paged ht (by omega)
  · obtain ⟨message, hm⟩ := PagedKvCache.truncate_rejected (c := c.paged) (p := s.pairs.pool)
      (n := n) (by omega)
    obtain ⟨message', hm'⟩ := SimpleKvCache.truncate_rejects (c := c.simple) (n := n) (by omega)
    simp only [bind, Except.bind, hm, hm']
    exact returns_ok (invariant_same hinv hc)

theorem construct_invariant {capacity : Int} (hinv : Invariant s)
    (hl : s.Legal (.construct id capacity)) :
    (s.run (.construct id capacity)).Returns fun r => Invariant r.2 := by
  obtain ⟨hfresh, simple, hcreate⟩ := hl
  have hpairs := PairedCaches.construct_invariant hinv.pairs hfresh hcreate
  rw [run, PairedCaches.run, hcreate]
  refine returns_ok (invariant_insert hinv hpairs ?_ (fun j e _ _ h => h))
  intro l pos row hrow
  exact absurd (log_position hrow).2 (Nat.not_lt_zero pos)

theorem destroy_invariant (hinv : Invariant s) (hl : s.Legal (.destroy id)) :
    (s.run (.destroy id)).Returns fun r => Invariant r.2 := by
  obtain ⟨c, hc⟩ := Option.isSome_iff_exists.mp (AList.lookup_isSome.mpr hl)
  have he := hinv.pairs.exclusive
  rw [PairedCaches.owners_of_lookup hc] at he
  rw [run, PairedCaches.run, PairedCaches.pair_eq hc]
  obtain ⟨pool, hrun, hexcl, hstore, _⟩ := PagedKvCache.destroy_ok he
  simp only [bind, Except.bind, hrun]
  refine returns_ok ⟨PairedCaches.destroy_invariant hinv.pairs hexcl hstore, ?_⟩
  intro j e hlook
  exact (hinv.written j e (IdMap.lookup_erase_iff.mp hlook).2).of_store hstore

theorem run_invariant {call : StampedCall α} (hinv : Invariant s) (hl : s.Legal call)
    (hcareful : s.Careful call) :
    (s.run call).Returns fun r => r.2.pairs.Fits → Invariant r.2 := by
  cases call with
  | construct id capacity => exact (construct_invariant hinv hl).mono (fun _ h _ => h)
  | append id layer k v => exact append_invariant hinv hl
  | truncate id newLength => exact (truncate_invariant hinv hl hcareful).mono (fun _ h _ => h)
  | destroy id => exact (destroy_invariant hinv hl).mono (fun _ h _ => h)

theorem reachable_invariant {geom : CacheGeometry} {blockSize numBlocks : Int}
    (hn : numBlocks ≤ 2 ^ 31)
    (h : ((system geom blockSize numBlocks).restrict Careful).Reachable s) : Invariant s := by
  refine h.invariant ?_ ?_
  · rintro s₀ ⟨hcreate, hcaches, _⟩
    refine ⟨PairedCaches.init_invariant hn hcreate hcaches, ?_⟩
    intro id c hc
    rw [hcaches] at hc
    cases hc
  · rintro s₁ call s₂ _ hinv ⟨hcareful, hl, hfits, r, hrun⟩
    exact (run_invariant hinv hl hcareful).of_eq hrun hfits

/-! ### What a caller sees

A view shows positions, the history speaks of slots; the block table leads from the one to the
other. -/

theorem viewsWritten_of_invariant (hinv : Invariant s) : ViewsWritten s := by
  intro id c hc layer freshK freshV view hview
  have he := hinv.pairs.exclusive
  rw [PairedCaches.owners_of_lookup hc] at he
  have hw := (hinv.pairs.same id c hc).paged
  by_cases hl : 0 ≤ layer ∧ layer < s.pairs.pool.geom.numLayers
  · obtain ⟨view', hview', hrows⟩ := PagedKvCache.view_ok he hw hl freshK freshV
    rw [hview] at hview'
    cases hview'
    refine ⟨_, hrows, fun pos hpos => ?_⟩
    have hrow := List.getElem?_eq_getElem hpos
    have hlt := (log_position hrow).2
    exact ⟨_, BlockTable.slot_ok hw.sized he.blockSize_pos
      (lt_of_lt_of_le hlt (PagedKvCache.visible_le hw layer)),
      hinv.written id c hc layer pos _ hrow⟩
  · obtain ⟨message, hm⟩ := PagedKvCache.view_rejected (c := c.paged) hl freshK freshV
    rw [hview] at hm
    cases hm

/-- The two caches accept the same truncation exactly if it keeps out of the forward. -/
theorem truncatesAlike_iff (hinv : Invariant s) {c : CachePair α}
    (hc : s.pairs.caches.lookup id = some c) (n : Int) :
    TruncatesAlike s c n ↔ ¬CutsForward c.paged n := by
  have he := hinv.pairs.exclusive
  rw [PairedCaches.owners_of_lookup hc] at he
  have hsame := hinv.pairs.same id c hc
  have hlength := hsame.length_eq_base
  have hbase := PagedKvCache.base_le c.paged
  have hpaged : (∃ r, c.paged.truncate n s.pairs.pool = .ok (.ok (), r)) ↔
      0 ≤ n ∧ n ≤ c.paged.table.numTokens := by
    by_cases hn : 0 ≤ n ∧ n ≤ c.paged.table.numTokens
    · obtain ⟨m, rfl⟩ := Int.eq_ofNat_of_zero_le hn.1
      obtain ⟨⟨r, c', p'⟩, hrun, hr, _⟩ := PagedKvCache.truncate_ok he hsame.paged (n := m)
        (by omega)
      simp only at hr
      subst hr
      exact iff_of_true ⟨_, hrun⟩ hn
    · obtain ⟨message, hm⟩ := PagedKvCache.truncate_rejected (c := c.paged) (p := s.pairs.pool)
        (n := n) (by omega)
      rw [hm]
      refine iff_of_false ?_ hn
      rintro ⟨r, hr⟩
      cases hr
  have hsimple : (c.simple.truncate n).1 = .ok () ↔ 0 ≤ n ∧ n ≤ c.paged.base := by
    by_cases hn : 0 ≤ n ∧ n ≤ c.paged.base
    · obtain ⟨m, rfl⟩ := Int.eq_ofNat_of_zero_le hn.1
      obtain ⟨simple, hs, _⟩ := SimpleKvCache.truncate_ok (n := m) hsame.simple (by omega)
      rw [hs]
      exact iff_of_true rfl hn
    · obtain ⟨message, hm⟩ := SimpleKvCache.truncate_rejects (c := c.simple) (n := n) (by omega)
      rw [hm]
      refine iff_of_false ?_ hn
      intro hc
      cases hc
  unfold TruncatesAlike CutsForward
  rw [hpaged, hsimple]
  omega

/-- **As long as no truncation cuts into a forward, a view shows what was written**, and the
truncations the two caches disagree on are exactly those that do. -/
theorem careful_written {geom : CacheGeometry} {blockSize numBlocks : Int}
    (hn : numBlocks ≤ 2 ^ 31)
    (h : ((system geom blockSize numBlocks).restrict Careful).Reachable s) :
    ViewsWritten s ∧ ∀ id c, s.pairs.caches.lookup id = some c →
      ∀ n, TruncatesAlike s c n ↔ ¬CutsForward c.paged n := by
  have hinv := reachable_invariant hn h
  exact ⟨viewsWritten_of_invariant hinv, fun id c hc n => truncatesAlike_iff hinv hc n⟩

theorem next_step {geom : CacheGeometry} {blockSize numBlocks : Int} {call : StampedCall α}
    (h : s.next call = some s') : (system geom blockSize numBlocks).step s call s' := by
  obtain ⟨_, hl, h⟩ := Option.bind_eq_some_iff.mp h
  obtain ⟨⟨r, s₁⟩, hrun, h⟩ := Option.bind_eq_some_iff.mp h
  obtain ⟨_, hfits, h⟩ := Option.bind_eq_some_iff.mp h
  have hl := (Option.guard_eq_some' _).mp hl
  have hfits := (Option.guard_eq_some' _).mp hfits
  cases h
  cases hc : s.run call with
  | error f =>
      rw [hc] at hrun
      cases hrun
  | ok a =>
      rw [hc] at hrun
      cases hrun
      exact ⟨hl, hfits, r, hc⟩

/-- The keys that the view of a layer shows, over output buffers that hold `fresh`. -/
def viewedKeys (s : StampedCaches Int) (id : Nat) (layer fresh : Int) : Option (List Int) := do
  let c ← s.pairs.caches.lookup id
  let view ← (c.paged.view layer s.pairs.pool (fun _ => fresh) fun _ => fresh).toOption
  let view ← view.toOption
  return view.k.values

/-- The first cache is cut back to one row, the second takes the block it gave back, and the
first is left in mid-forward. -/
def recycling : List (StampedCall Int) :=
  let column := PairedCaches.column
  [.construct 0 16, .construct 1 16,
    .append 0 0 (column [1, 2, 3, 4, 5, 6, 7, 8, 9]) (column [11, 12, 13, 14, 15, 16, 17, 18, 19]),
    .append 0 1 (column [21, 22, 23, 24, 25, 26, 27, 28, 29])
      (column [31, 32, 33, 34, 35, 36, 37, 38, 39]),
    .truncate 0 1,
    .append 1 0 (column [41, 42]) (column [51, 52]),
    .append 1 1 (column [61, 62]) (column [71, 72]),
    .append 0 0 (column [2]) (column [12])]

/-- In mid-forward, and in a block that another cache used before, the views show what was
written. -/
theorem careful_written_recycling : ∃ s : StampedCaches Int,
    (s.viewedKeys 0 0 9 = some [1, 2] ∧ s.viewedKeys 0 1 9 = some [21] ∧
      s.viewedKeys 1 0 9 = some [41, 42] ∧ s.viewedKeys 1 1 9 = some [61, 62]) ∧
    ViewsWritten s ∧ ∀ id c, s.pairs.caches.lookup id = some c →
      ∀ n, TruncatesAlike s c n ↔ ¬CutsForward c.paged n := by
  have hrun : (recycling.foldlM (restricted next Careful)
      ⟨⟨BlockPool.new ⟨2, 1, 1, .float32⟩ 8 2, ∅⟩, fun _ _ => none⟩).any (fun s =>
        s.viewedKeys 0 0 9 = some [1, 2] ∧ s.viewedKeys 0 1 9 = some [21] ∧
          s.viewedKeys 1 0 9 = some [41, 42] ∧ s.viewedKeys 1 1 9 = some [61, 62]) = true := by
    decide +kernel
  obtain ⟨s, hs, hshown⟩ := (Option.any_eq_true _ _).mp hrun
  have hreach : ((system ⟨2, 1, 1, .float32⟩ 8 2).restrict Careful).Reachable s :=
    .of_foldlM (fun _ _ _ => Transition.restricted_step fun _ _ _ => next_step)
      (.init ⟨rfl, rfl, rfl⟩) hs
  exact ⟨s, of_decide_eq_true hshown, careful_written (by decide) hreach⟩

/-! ### A truncation that cuts into a forward

The length the cache is cut to counts tokens that later layers have yet to write. -/

/-- One token is appended to layer 0 of two, and the cache is truncated to that token. -/
def cutting : List (StampedCall Int) :=
  [.construct 0 8, .append 0 0 (PairedCaches.column [7]) (PairedCaches.column [8]), .truncate 0 1]

/-- Truncated to the token of the forward in progress, the cache shows a slot that layer 1 has
never written. -/
theorem truncate_exposes_unwritten :
    ¬∀ s : StampedCaches Int, (system ⟨2, 1, 1, .float32⟩ 8 1).Reachable s → ViewsWritten s := by
  intro hall
  obtain ⟨s, hs, hnot⟩ : ∃ s, cutting.foldlM next
      ⟨⟨BlockPool.new ⟨2, 1, 1, .float32⟩ 8 1, ∅⟩, fun _ _ => none⟩ = some s ∧
      ¬ViewsWritten s := by
    refine ⟨_, rfl, fun h => ?_⟩
    -- layer 1 has no token, and its view returns one
    obtain ⟨rows, hview, hrows⟩ := h 0 _ rfl 1 (fun _ => 0) (fun _ => 0) _ rfl
    have hlen : 1 = (rows.map TokenRow.k).length :=
      congrArg (fun dims => dims.getD 1 0) hview.k.dims
    rw [List.length_map] at hlen
    obtain ⟨slot, hslot, hstamp⟩ := hrows 0 (by omega)
    cases hslot
    cases hstamp
  exact hnot (hall s (.of_foldlM (fun _ _ _ => next_step) (.init ⟨rfl, rfl, rfl⟩) hs))

end StampedCaches

end InferenceEngine
