/-
The paged cache refines the contiguous one.

Both caches of a pair are the same log.  That is the whole relation: what a view shows is
determined by the log, and so are the lengths, and each call does to both logs the same.
What the relation needs from the pool is that the pairs own disjoint blocks, so that a call
on one pair leaves the logs of the others alone.
-/
import InferenceEngine.KvCache.PairedCaches
import InferenceEngine.Proofs.PagedKvCache

namespace InferenceEngine

open Except BlockPool

namespace PairedCaches

variable {α : Type} [Zero α] {s s' : PairedCaches α} {id : Nat} {c c' : CachePair α}

/-- The blocks of all paged caches. -/
def owners (s : PairedCaches α) : Multiset Int :=
  s.caches.total fun _ c => (c.paged.table.blocks : Multiset Int)

/-- The blocks of all paged caches but one. -/
def others (s : PairedCaches α) (id : Nat) : Multiset Int :=
  IdMap.total (s.caches.erase id) fun _ c => (c.paged.table.blocks : Multiset Int)

/-- The two caches of a pair are the same log. -/
structure SameLog (p : BlockPool α) (c : CachePair α) : Prop where
  paged : c.paged.Wf p
  simple : c.simple.Wf
  geom : c.simple.geom = p.geom
  log : c.paged.log p = c.simple.log

/-- What every reachable state satisfies. -/
structure Invariant (s : PairedCaches α) : Prop where
  exclusive : Exclusive s.pool s.owners
  same : ∀ id c, s.caches.lookup id = some c → SameLog s.pool c

omit [Zero α] in
theorem owners_of_lookup (h : s.caches.lookup id = some c) :
    s.owners = ↑c.paged.table.blocks + s.others id :=
  IdMap.total_erase h _

omit [Zero α] in
theorem owners_insert (pool : BlockPool α) :
    owners { pool := pool, caches := s.caches.insert id c }
      = ↑c.paged.table.blocks + s.others id :=
  IdMap.total_insert _ _ _ _

omit [Zero α] in
theorem pair_eq (h : s.caches.lookup id = some c) : s.pair id = .ok c := by
  simp [pair, h]

omit [Zero α] in
/-- Another pair's blocks are among the others. -/
theorem block_mem_others {k : Nat} (hk : k ≠ id) (h : s.caches.lookup k = some c') {b : Int}
    (hb : b ∈ c'.paged.table.blocks) : b ∈ s.others id := by
  have hlook : (s.caches.erase id).lookup k = some c' := IdMap.lookup_erase_iff.mpr ⟨hk, h⟩
  unfold others
  rw [IdMap.total_erase hlook]
  exact Multiset.mem_add.mpr (Or.inl (Multiset.mem_coe.mpr hb))

/-! ### What the relation says

Two caches with the same log are the same to whoever looks at them: the same views, the same
length. -/

theorem SameLog.visible_eq {p : BlockPool α} (h : SameLog p c) {layer : Int}
    (hl : 0 ≤ layer ∧ layer < p.geom.numLayers) :
    (c.paged.visible layer).toNat = c.simple.layerFill layer := by
  have hlen : ((c.paged.log p).rows layer).length = (c.simple.log.rows layer).length := by
    rw [h.log]
  rw [SimpleKvCache.log_length (by rw [h.geom]; exact hl), PagedKvCache.log_rows hl,
    List.length_map, List.length_range] at hlen
  exact hlen

/-- The views of the two caches of a pair cannot be told apart. -/
theorem SameLog.view {p : BlockPool α} {o : Multiset Int} (h : SameLog p c)
    (he : Exclusive p (↑c.paged.table.blocks + o)) (layer : Int) (freshK freshV : Int → α) :
    ∃ r, c.paged.view layer p freshK freshV = .ok r ∧ SameView r (c.simple.view layer) := by
  by_cases hl : 0 ≤ layer ∧ layer < p.geom.numLayers
  · obtain ⟨view, hv, hview⟩ := PagedKvCache.view_ok he h.paged hl freshK freshV
    obtain ⟨view', hv', hview'⟩ :=
      SimpleKvCache.view_ok (c := c.simple) (show 0 ≤ layer ∧ layer < c.simple.geom.numLayers by
        rw [h.geom]; exact hl)
    rw [h.geom, ← h.log] at hview'
    have hgeom : 0 ≤ p.geom.numKvHeads ∧ 0 < p.geom.headDim := ⟨he.heads_pos.le, he.dim_pos⟩
    refine ⟨.ok view, hv, ?_, ?_, ?_⟩
    · rw [hv']
      rfl
    · intro a b ha hb
      cases ha
      rw [hv'] at hb
      cases hb
      exact hview.k.values_eq hgeom hview'.k
    · intro a b ha hb
      cases ha
      rw [hv'] at hb
      cases hb
      exact hview.v.values_eq hgeom hview'.v
  · obtain ⟨message, hm⟩ := PagedKvCache.view_rejected (c := c.paged) hl freshK freshV
    obtain ⟨message', hm'⟩ := SimpleKvCache.view_rejects (c := c.simple)
      (show ¬(0 ≤ layer ∧ layer < c.simple.geom.numLayers) by rw [h.geom]; exact hl)
    refine ⟨_, hm, ?_, ?_, ?_⟩
    · rw [hm']
      rfl
    · intro a b ha
      cases ha
    · intro a b ha
      cases ha

/-- Between forwards the two caches have the same length. -/
theorem SameLog.length_eq {p : BlockPool α} (h : SameLog p c) (h0 : c.paged.nextLayer = 0) :
    c.paged.length = c.simple.length := by
  obtain ⟨l, hl, hlen⟩ := SimpleKvCache.exists_length_eq h.simple
  rw [h.geom] at hl
  rw [hlen, ← h.visible_eq hl, PagedKvCache.visible_eq h.paged, if_pos (Or.inl h0)]
  rfl

/-- In mid-forward the contiguous cache has at least what was committed before. -/
theorem SameLog.base_le_length {p : BlockPool α} (h : SameLog p c) :
    c.paged.base ≤ c.simple.length := by
  obtain ⟨l, hl, hlen⟩ := SimpleKvCache.exists_length_eq h.simple
  rw [h.geom] at hl
  rw [hlen, ← h.visible_eq hl]
  exact PagedKvCache.base_le_visible h.paged l

/-- In mid-forward it has exactly that. -/
theorem SameLog.length_eq_base {p : BlockPool α} (h : SameLog p c) :
    c.simple.length = c.paged.base := by
  refine le_antisymm ?_ h.base_le_length
  have hl : c.simple.length ≤ c.simple.layerFill c.paged.nextLayer :=
    SimpleKvCache.length_le h.simple (by rw [h.geom]; exact h.paged.layer_range)
  rwa [← h.visible_eq h.paged.layer_range, PagedKvCache.visible_nextLayer h.paged] at hl

/-- An append that the paged cache accepted is accepted by a contiguous one with room. -/
theorem SameLog.append {p p' : BlockPool α} {o : Multiset Int} {layer : Int} {k v : Tensor α}
    {paged : PagedKvCache} (h : SameLog p c) (hshape : AppendShape p.geom layer k v)
    (hnext : layer = c.paged.nextLayer)
    (happ : PagedKvCache.Appended p c.paged layer k v o paged p')
    (hroom : (paged.length : Int) ≤ c.simple.capacity) :
    ∃ simple, c.simple.append layer k v = (.ok (), simple) ∧ SameLog p' ⟨paged, simple⟩ := by
  -- the contiguous cache has room: its fill is what the layer showed before
  have hfill : c.simple.layerFill layer = c.paged.base := by
    rw [hnext, ← h.visible_eq h.paged.layer_range, PagedKvCache.visible_nextLayer h.paged]
  have hlen : paged.length = c.paged.base + k.dim 0 := happ.tokens
  obtain ⟨simple, hsimple, hwf, hgeom, _, hlog⟩ :=
    SimpleKvCache.append_ok h.simple (by rw [h.geom]; exact hshape)
      (show ((c.simple.layerFill layer + k.dim 0 : Nat) : Int) ≤ c.simple.capacity by
        rw [hfill]
        omega)
  refine ⟨simple, hsimple, happ.wf, hwf, ?_, ?_⟩
  · rw [hgeom, h.geom, happ.kept.shape.geom]
  · rw [happ.log, hlog, h.log, h.geom]

/-- A truncation to at most the length committed before the forward is the same on both. -/
theorem SameLog.truncate {p p' : BlockPool α} {o : Multiset Int} {n : Nat} {paged : PagedKvCache}
    (h : SameLog p c) (he : Exclusive p (↑c.paged.table.blocks + o))
    (ht : PagedKvCache.Truncated p c.paged n o paged p') (hn : n ≤ c.paged.base) :
    ∃ simple, c.simple.truncate n = (.ok (), simple) ∧ SameLog p' ⟨paged, simple⟩ := by
  obtain ⟨simple, hsimple, hwf, hgeom, _, hlog⟩ :=
    SimpleKvCache.truncate_ok (n := n) h.simple (by rw [h.length_eq_base]; exact hn)
  refine ⟨simple, hsimple, ht.wf, hwf, ?_, ?_⟩
  · rw [hgeom, h.geom, ht.store.geom]
  · rw [ht.log_eq he h.paged hn, hlog, h.log]

/-! ### A call leaves the other pairs alone

The rows of another pair lie in blocks that the call does not write. -/

/-- The state after a call on the pair `id` that keeps the rows of other blocks. -/
theorem invariant_insert {pool : BlockPool α} {blocks : List Int} (hinv : Invariant s)
    (hexcl : Exclusive pool (↑c'.paged.table.blocks + s.others id))
    (hkept : PagedKvCache.RowsKept s.pool pool blocks)
    (hblocks : ∀ b ∈ blocks, b ∈ c'.paged.table.blocks)
    (hsame : SameLog pool c') :
    Invariant { pool := pool, caches := s.caches.insert id c' } := by
  refine ⟨?_, ?_⟩
  · rw [owners_insert]
    exact hexcl
  · intro k d hd
    rcases IdMap.lookup_insert_iff.mp hd with ⟨_, rfl⟩ | ⟨hk, hd⟩
    · exact hsame
    · have hold := hinv.same k d hd
      have he := hinv.exclusive
      rw [owners_of_lookup hd] at he
      refine ⟨hold.paged.of_shape hkept.shape, hold.simple, hold.geom.trans hkept.shape.geom.symm,
        ?_⟩
      rw [hkept.log_eq he hold.paged ?_, hold.log]
      intro b hb hmem
      have hdisj := (Multiset.nodup_add.mp hexcl.nodup).2.2
      exact Multiset.disjoint_left.mp hdisj (Multiset.mem_coe.mpr (hblocks b hmem))
        (block_mem_others hk hd hb)

/-- The outcome of a legal call: it runs, and unless the pool was exhausted or a contiguous cache
too small, the answers agree and so do the pairs afterwards. -/
def Agrees (r : StatusOr Unit × StatusOr Unit × PairedCaches α) : Prop :=
  r.1.code ≠ .resourceExhausted → r.2.2.Fits → r.1.code = r.2.1.code ∧ Invariant r.2.2

theorem append_agrees {layer : Int} {k v : Tensor α} (hinv : Invariant s)
    (hl : s.Legal (.append id layer k v)) : (s.run (.append id layer k v)).Returns Agrees := by
  obtain ⟨c, hc, hprot⟩ := hl
  have hsame := hinv.same id c hc
  have he := hinv.exclusive
  rw [owners_of_lookup hc] at he
  have hcapacity := SimpleKvCache.append_capacity (c := c.simple) layer k v
  rw [run, pair_eq hc]
  show Returns (c.paged.append layer k v s.pool >>= _) _
  generalize happ' : c.simple.append layer k v = answer at hcapacity ⊢
  obtain ⟨r', simple⟩ := answer
  by_cases hshape : AppendShape s.pool.geom layer k v
  · obtain ⟨hnext, htok⟩ := hprot (validateAppend_ok _ hshape)
    by_cases hfit : layer = 0 →
        BlockTable.demand s.pool.blockSize c.paged.table.numTokens (k.dim 0)
          ≤ s.pool.freeList.length
    · refine Returns.bind (PagedKvCache.append_ok he hsame.paged hshape hnext htok hfit) ?_
      rintro ⟨r, paged, pool⟩ ⟨hr, happ⟩
      simp only at hr happ
      subst hr
      refine returns_pure ?_
      intro _ hfits
      have hroom : (paged.length : Int) ≤ c.simple.capacity := by
        rw [← hcapacity]
        exact hfits id _ (AList.lookup_insert _)
      obtain ⟨simple', hsimple, hsame'⟩ := hsame.append hshape hnext happ hroom
      rw [happ'] at hsimple
      cases hsimple
      exact ⟨rfl, invariant_insert hinv happ.exclusive happ.kept (fun b hb => hb) hsame'⟩
    · -- layer 0 found too few blocks: the answer is the one the run excludes
      have h0 : layer = 0 := by
        by_contra hne
        exact hfit (fun hc => absurd hc hne)
      subst h0
      have hfull : s.pool.freeList.length
          < BlockTable.demand s.pool.blockSize c.paged.table.numTokens (k.dim 0) := by
        by_contra hc
        exact hfit (fun _ => by omega)
      refine Returns.bind (PagedKvCache.append_exhausted he hsame.paged hshape hnext.symm hfull) ?_
      rintro ⟨r, paged, pool⟩ ⟨⟨message, hr⟩, _⟩
      simp only at hr
      subst hr
      refine returns_pure ?_
      intro hne
      exact absurd rfl hne
  · obtain ⟨message, hm⟩ := PagedKvCache.append_rejected (c := c.paged) (p := s.pool)
      (fun hc => hshape hc.1)
    obtain ⟨message', hm'⟩ := SimpleKvCache.append_rejects (c := c.simple)
      (show ¬AppendShape c.simple.geom layer k v by rw [hsame.geom]; exact hshape)
    rw [happ'] at hm'
    cases hm'
    rw [hm]
    refine returns_ok ?_
    intro _ _
    exact ⟨rfl, invariant_insert hinv he
      (PagedKvCache.RowsKept.of_store (SameStore.refl _) []) (by simp) hsame⟩

theorem truncate_agrees {n : Int} (hinv : Invariant s) (hl : s.Legal (.truncate id n)) :
    (s.run (.truncate id n)).Returns Agrees := by
  obtain ⟨c, hc, hn⟩ := hl
  have hsame := hinv.same id c hc
  have he := hinv.exclusive
  rw [owners_of_lookup hc] at he
  have hbase := PagedKvCache.base_le c.paged
  have hlength := hsame.length_eq_base
  rw [run, pair_eq hc]
  show Returns (c.paged.truncate n s.pool >>= _) _
  by_cases hok : 0 ≤ n ∧ n ≤ c.paged.base
  · obtain ⟨m, rfl⟩ := Int.eq_ofNat_of_zero_le hok.1
    refine Returns.bind (PagedKvCache.truncate_ok he hsame.paged (n := m) (by omega)) ?_
    rintro ⟨r, paged, pool⟩ ⟨hr, ht⟩
    simp only at hr ht
    subst hr
    obtain ⟨simple, hsimple, hsame'⟩ := hsame.truncate he ht (by omega)
    rw [hsimple]
    refine returns_pure ?_
    intro _ _
    exact ⟨rfl, invariant_insert hinv ht.exclusive
      (PagedKvCache.RowsKept.of_store ht.store []) (by simp) hsame'⟩
  · have hout : n < 0 ∨ (c.paged.table.numTokens : Int) < n := by
      rcases hn with hn | hn
      · omega
      · exact Or.inr hn
    obtain ⟨message, hm⟩ := PagedKvCache.truncate_rejected (p := s.pool) hout
    obtain ⟨message', hm'⟩ := SimpleKvCache.truncate_rejects (c := c.simple) (n := n) (by omega)
    rw [hm, hm']
    refine returns_ok ?_
    intro _ _
    refine ⟨rfl, invariant_insert hinv he
      (PagedKvCache.RowsKept.of_store (SameStore.refl _) []) (by simp) hsame⟩

/-- A cache just constructed is the empty log, and so is its contiguous one. -/
theorem construct_same {p : BlockPool α} {capacity : Int} {simple : SimpleKvCache α}
    (hpos : 0 < p.geom.numLayers) (h : SimpleKvCache.create p.geom capacity = .ok simple) :
    SameLog p ⟨.new, simple⟩ := by
  obtain ⟨hwf, hgeom, _, hfill⟩ := SimpleKvCache.create_wf h
  refine ⟨PagedKvCache.new_wf hpos, hwf, hgeom, KvLog.ext (funext fun l => ?_)⟩
  by_cases hl : 0 ≤ l ∧ l < p.geom.numLayers
  · rw [PagedKvCache.log_rows hl, SimpleKvCache.log_rows (by rw [hgeom]; exact hl), hfill]
    rfl
  · rw [PagedKvCache.log_rows_outside hl]
    show _ = ite _ _ _
    rw [if_neg (by rw [hgeom]; exact hl)]

theorem construct_invariant {capacity : Int} {simple : SimpleKvCache α} (hinv : Invariant s)
    (hfresh : id ∉ s.caches) (h : SimpleKvCache.create s.pool.geom capacity = .ok simple) :
    Invariant { s with caches := s.caches.insert id ⟨.new, simple⟩ } := by
  refine ⟨?_, ?_⟩
  · show Exclusive s.pool (IdMap.total (s.caches.insert id _) _)
    rw [IdMap.total_insert_fresh hfresh]
    show Exclusive s.pool (0 + s.owners)
    rw [zero_add]
    exact hinv.exclusive
  · intro k d hd
    rcases IdMap.lookup_insert_iff.mp hd with ⟨_, rfl⟩ | ⟨_, hd⟩
    · exact construct_same hinv.exclusive.layers_pos h
    · exact hinv.same k d hd

theorem construct_agrees {capacity : Int} (hinv : Invariant s)
    (hl : s.Legal (.construct id capacity)) :
    (s.run (.construct id capacity)).Returns Agrees := by
  obtain ⟨hfresh, simple, hcreate⟩ := hl
  rw [run, hcreate]
  refine returns_pure ?_
  intro _ _
  exact ⟨rfl, construct_invariant hinv hfresh hcreate⟩

theorem move_agrees {target : Nat} (hinv : Invariant s) (hl : s.Legal (.move id target)) :
    (s.run (.move id target)).Returns Agrees := by
  obtain ⟨hsource, htarget⟩ := hl
  obtain ⟨c, hc⟩ := Option.isSome_iff_exists.mp (AList.lookup_isSome.mpr hsource)
  have hfresh : target ∉ s.caches.erase id := by
    rw [AList.mem_erase]
    exact fun h => htarget h.2
  rw [run, pair_eq hc]
  refine returns_pure ?_
  intro _ _
  refine ⟨rfl, ?_, ?_⟩
  · show Exclusive s.pool (IdMap.total ((s.caches.erase id).insert target c) _)
    rw [IdMap.total_insert_fresh hfresh]
    have he := hinv.exclusive
    rw [owners_of_lookup hc] at he
    exact he
  · intro k d hd
    rcases IdMap.lookup_insert_iff.mp hd with ⟨_, rfl⟩ | ⟨_, hd⟩
    · exact hinv.same id _ hc
    · exact hinv.same k d (IdMap.lookup_erase_iff.mp hd).2

theorem destroy_invariant {pool : BlockPool α} (hinv : Invariant s)
    (hexcl : Exclusive pool (s.others id)) (hstore : SameStore s.pool pool) :
    Invariant { pool := pool, caches := s.caches.erase id } := by
  refine ⟨hexcl, ?_⟩
  intro k d hd
  have hold := hinv.same k d (IdMap.lookup_erase_iff.mp hd).2
  exact ⟨hold.paged.of_shape hstore.shape, hold.simple, hold.geom.trans hstore.geom.symm,
    (PagedKvCache.log_of_store hstore).trans hold.log⟩

theorem destroy_agrees (hinv : Invariant s) (hl : s.Legal (.destroy id)) :
    (s.run (.destroy id)).Returns Agrees := by
  obtain ⟨c, hc⟩ := Option.isSome_iff_exists.mp (AList.lookup_isSome.mpr hl)
  have he := hinv.exclusive
  rw [owners_of_lookup hc] at he
  rw [run, pair_eq hc]
  show Returns (c.paged.destroy s.pool >>= _) _
  refine Returns.bind (PagedKvCache.destroy_ok he) ?_
  rintro pool ⟨hexcl, hstore, _⟩
  refine returns_pure ?_
  intro _ _
  exact ⟨rfl, destroy_invariant hinv hexcl hstore⟩

theorem run_agrees {call : CacheCall α} (hinv : Invariant s) (hl : s.Legal call) :
    (s.run call).Returns Agrees := by
  cases call with
  | construct id capacity => exact construct_agrees hinv hl
  | append id layer k v => exact append_agrees hinv hl
  | truncate id newLength => exact truncate_agrees hinv hl
  | move source target => exact move_agrees hinv hl
  | destroy id => exact destroy_agrees hinv hl

theorem init_invariant {geom : CacheGeometry} {blockSize numBlocks : Int}
    (hn : numBlocks ≤ 2 ^ 31) (hcreate : BlockPool.create geom blockSize numBlocks = .ok s.pool)
    (hcaches : s.caches = ∅) : Invariant s := by
  have hc := create_ok hcreate
  refine ⟨?_, fun k d hd => by rw [hcaches] at hd; cases hd⟩
  rw [owners, hcaches, IdMap.total_empty, hc.pool_eq]
  refine ⟨new_owned _ _ _ (by omega), Multiset.nodup_zero, ?_, hc.layers_pos, hc.heads_pos,
    hc.dim_pos⟩
  have := hc.blockSize_pos
  show 0 < blockSize.toNat
  omega

theorem reachable_invariant {geom : CacheGeometry} {blockSize numBlocks : Int}
    (hn : numBlocks ≤ 2 ^ 31) (h : (system geom blockSize numBlocks).Reachable s) :
    Invariant s := by
  refine h.invariant ?_ ?_
  · intro s₀ h₀
    exact init_invariant hn h₀.1 h₀.2
  · rintro s₁ call s₂ _ hinv ⟨hl, hfits, r, r', hrun, hcode⟩
    exact ((run_agrees hinv hl).of_eq hrun hcode hfits).2

/-! ### What the relation gives the callers

After any number of calls, each paged cache and the contiguous one beside it answer alike. -/

/-- Nothing a caller can read tells the caches of a pair apart. -/
structure Agree (s : PairedCaches α) : Prop where
  view : ∀ id c, s.caches.lookup id = some c → ∀ layer freshK freshV,
    ∃ r, c.paged.view layer s.pool freshK freshV = .ok r ∧ SameView r (c.simple.view layer)
  length : ∀ id c, s.caches.lookup id = some c → c.paged.nextLayer = 0 →
    c.paged.length = c.simple.length

theorem agree_of_invariant (hinv : Invariant s) : Agree s := by
  refine ⟨?_, ?_⟩
  · intro id c hc layer freshK freshV
    have he := hinv.exclusive
    rw [owners_of_lookup hc] at he
    exact (hinv.same id c hc).view he layer freshK freshV
  · intro id c hc
    exact (hinv.same id c hc).length_eq

theorem next_step {geom : CacheGeometry} {blockSize numBlocks : Int} {call : CacheCall α}
    (h : s.next call = some s') : (system geom blockSize numBlocks).step s call s' := by
  obtain ⟨_, hl, h⟩ := Option.bind_eq_some_iff.mp h
  obtain ⟨⟨r, r', s₁⟩, hrun, h⟩ := Option.bind_eq_some_iff.mp h
  obtain ⟨_, hadmitted, h⟩ := Option.bind_eq_some_iff.mp h
  have hl := (Option.guard_eq_some' _).mp hl
  have hadmitted := (Option.guard_eq_some' _).mp hadmitted
  cases h
  cases hc : s.run call with
  | error f =>
      rw [hc] at hrun
      cases hrun
  | ok a =>
      rw [hc] at hrun
      cases hrun
      exact ⟨hl, hadmitted.2, r, r', hc, hadmitted.1⟩

/-- **Each paged cache behaves as its own contiguous cache**, whatever the other caches over the
pool do in between: every call that is not refused for want of blocks is answered alike, and
after every run the views agree, and the lengths between forwards. -/
theorem reachable_refines {geom : CacheGeometry} {blockSize numBlocks : Int}
    (hn : numBlocks ≤ 2 ^ 31) (h : (system geom blockSize numBlocks).Reachable s) :
    Agree s ∧ ∀ call, s.Legal call → ∃ r r' s', s.run call = .ok (r, r', s') ∧
      (r.code ≠ .resourceExhausted → s'.Fits → r.code = r'.code) := by
  have hinv := reachable_invariant hn h
  refine ⟨agree_of_invariant hinv, ?_⟩
  intro call hl
  obtain ⟨⟨r, r', s'⟩, hrun, hagrees⟩ := run_agrees hinv hl
  exact ⟨r, r', s', hrun, fun hcode hfits => (hagrees hcode hfits).1⟩

/-- The rows of one head and one coordinate. -/
def column (l : List Int) : Tensor Int :=
  ⟨[l.length, 1, 1], .float32, true, fun i => l.getD i.toNat 0⟩

/-- Two caches take turns layer by layer; the first is cut back to one row, the second grows
into the block given back, and the first is left in mid-forward. -/
def turns : List (CacheCall Int) :=
  [.construct 0 16, .construct 1 16,
    .append 0 0 (column [1, 2, 3, 4, 5, 6, 7, 8, 9]) (column [11, 12, 13, 14, 15, 16, 17, 18, 19]),
    .append 1 0 (column [40]) (column [50]),
    .append 0 1 (column [21, 22, 23, 24, 25, 26, 27, 28, 29])
      (column [31, 32, 33, 34, 35, 36, 37, 38, 39]),
    .append 1 1 (column [60]) (column [70]),
    .truncate 0 1,
    .append 1 0 (column [41, 42, 43, 44, 45, 46, 47, 48]) (column [51, 52, 53, 54, 55, 56, 57, 58]),
    .append 1 1 (column [61, 62, 63, 64, 65, 66, 67, 68]) (column [71, 72, 73, 74, 75, 76, 77, 78]),
    .append 0 0 (column [2]) (column [12])]

/-- The blocks of a paged cache and the keys its contiguous cache shows, layer by layer. -/
def shown (s : PairedCaches Int) (id : Nat) : Option (List Int × List (Option (List Int))) :=
  (s.caches.lookup id).map fun c =>
    (c.paged.table.blocks,
      [0, 1].map fun layer => (c.simple.view layer).toOption.map (·.k.values))

/-- After the turns the second cache shows the rows of both its forwards, the later ones in the
block the first gave back, and the first shows its new row in layer 0 only. -/
theorem reachable_refines_turns : ∃ s : PairedCaches Int,
    (s.shown 0 = some ([0], [some [1, 2], some [21]]) ∧
      s.shown 1 = some ([2, 1], [some [40, 41, 42, 43, 44, 45, 46, 47, 48],
        some [60, 61, 62, 63, 64, 65, 66, 67, 68]])) ∧
    Agree s ∧ ∀ call, s.Legal call → ∃ r r' s', s.run call = .ok (r, r', s') ∧
      (r.code ≠ .resourceExhausted → s'.Fits → r.code = r'.code) := by
  have hrun : (turns.foldlM next ⟨BlockPool.new ⟨2, 1, 1, .float32⟩ 8 3, ∅⟩).any (fun s =>
      s.shown 0 = some ([0], [some [1, 2], some [21]]) ∧
        s.shown 1 = some ([2, 1], [some [40, 41, 42, 43, 44, 45, 46, 47, 48],
          some [60, 61, 62, 63, 64, 65, 66, 67, 68]])) = true := by
    decide +kernel
  obtain ⟨s, hs, hshown⟩ := (Option.any_eq_true _ _).mp hrun
  have hreach : (system ⟨2, 1, 1, .float32⟩ 8 3).Reachable s :=
    Transition.Reachable.of_foldlM (fun _ _ _ => next_step) (.init ⟨rfl, rfl⟩) hs
  exact ⟨s, of_decide_eq_true hshown, reachable_refines (by decide) hreach⟩

end PairedCaches

end InferenceEngine
