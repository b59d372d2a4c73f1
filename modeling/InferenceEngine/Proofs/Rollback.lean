/-
An append that fails has done nothing.

`AppendTokens` takes its blocks one by one and gives back what it has taken when the pool runs
dry.  The free list comes back in another order, but who owns what is decided by the owners
alone, so the books are those of before the call.  A paged cache passes the failure on before it
has written a slot, and a second attempt, on whatever pool the others have left by then, is the
attempt that the first one would have been.
-/
import InferenceEngine.Proofs.PagedKvCache

namespace InferenceEngine

open Except

variable {α : Type}

namespace BlockPool

variable {p p' : BlockPool α} {o : Multiset Int}

/-- The books and the slabs are those of before, up to the order of the free list. -/
structure Restored (p p' : BlockPool α) : Prop where
  refcounts : p'.refcounts = p.refcounts
  used : p'.used = p.used
  free : ∀ b, b ∈ p'.freeList ↔ b ∈ p.freeList
  kSlabs : p'.kSlabs = p.kSlabs
  vSlabs : p'.vSlabs = p.vSlabs

theorem Restored.refl (p : BlockPool α) : Restored p p :=
  ⟨rfl, rfl, fun _ => Iff.rfl, rfl, rfl⟩

/-- The owners decide the books. -/
theorem Restored.of_owned (h : Owned p o) (h' : Owned p' o) (hs : SameStore p p') :
    Restored p p' := by
  have hrc : p'.refcounts = p.refcounts := by
    funext b
    rw [h'.refcount_eq, h.refcount_eq]
  refine ⟨hrc, ?_, fun b => ?_, hs.kSlabs, hs.vSlabs⟩
  · rw [h'.used_eq_card, h.used_eq_card]
  · rw [h'.mem_free, h.mem_free, hs.numBlocks, hrc]

end BlockPool

open BlockPool

namespace BlockTable

variable {p p' : BlockPool α} {t t' : BlockTable} {o : Multiset Int} {count : Int}
  {status : Status}

theorem appendTokens_invalid (hc : count ≤ 0) :
    ∃ message, t.appendTokens count p = .ok (.error (invalidArgumentError message), t, p) := by
  unfold appendTokens
  rw [if_pos hc]
  exact ⟨_, rfl⟩

/-- **An `AppendTokens` that fails leaves the table and the pool as they were.** -/
theorem appendTokens_error (h : Owned p (↑t.blocks + o)) (hs : t.Sized p.blockSize)
    (hbs : 0 < p.blockSize) (hrun : t.appendTokens count p = .ok (.error status, t', p')) :
    t' = t ∧ Restored p p' ∧ (status.code = .resourceExhausted → 0 < count) := by
  by_cases hc : count ≤ 0
  · obtain ⟨message, hinvalid⟩ := appendTokens_invalid (t := t) (p := p) hc
    rw [hrun] at hinvalid
    cases hinvalid
    exact ⟨rfl, Restored.refl _, nofun⟩
  · obtain ⟨n, rfl⟩ := Int.eq_ofNat_of_zero_le (show 0 ≤ count by omega)
    have hspec := (appendTokens_owned h hs hbs (show 0 < n by omega)).of_eq hrun
    obtain ⟨hsame, hcase⟩ := hspec
    rcases hcase with ⟨_, _, _, _, hres, _⟩ | ⟨_, htable, _, hown, _⟩
    · cases hres
    · exact ⟨htable, Restored.of_owned h hown hsame, fun _ => by omega⟩

/-- With blocks enough it succeeds. -/
theorem appendTokens_succeeds (count : Int) (h : Owned p (↑t.blocks + o))
    (hs : t.Sized p.blockSize) (hbs : 0 < p.blockSize) (hc : 0 < count)
    (hfit : demand p.blockSize t.numTokens count.toNat ≤ p.freeList.length) :
    ∃ slots t' p', t.appendTokens count p = .ok (.ok slots, t', p') ∧ SameStore p p' := by
  obtain ⟨n, rfl⟩ := Int.eq_ofNat_of_zero_le (show 0 ≤ count by omega)
  rw [Int.toNat_natCast] at hfit
  obtain ⟨⟨res, t', p'⟩, hrun, hsame, hcase⟩ :=
    appendTokens_owned h hs hbs (show 0 < n by omega)
  rcases hcase with ⟨_, _, _, _, hres, _⟩ | ⟨hlt, _⟩
  · simp only at hres
    subst hres
    exact ⟨_, t', p', hrun, hsame⟩
  · exact absurd hfit (by omega)

end BlockTable

namespace PagedKvCache

variable {p p' p₂ : BlockPool α} {c c' : PagedKvCache} {o o₂ : Multiset Int} {layer : Int}
  {k v : Tensor α} {status : Status}

/-- The slots pending from an earlier forward play no part in opening the next one. -/
theorem append_zero (c : PagedKvCache) (slots : List Int) (k v : Tensor α) (p : BlockPool α)
    (hl : c.nextLayer = 0) :
    append { c with pendingSlots := slots } 0 k v p
      = match validateAppend "PagedKvCache" p.geom 0 k v with
        | .error status => .ok (.error status, { c with pendingSlots := slots }, p)
        | .ok _ => c.append 0 k v p := by
  obtain ⟨table, pending, next⟩ := c
  simp only at hl
  subst hl
  unfold append
  cases validateAppend "PagedKvCache" p.geom 0 k v with
  | error status => rfl
  | ok u =>
      simp only [ne_eq, not_true, if_false]
      rfl

/-- What a failed append of the cache leaves, and why it failed. -/
structure Failed (p : BlockPool α) (c : PagedKvCache) (layer : Int) (k v : Tensor α)
    (status : Status) (c' : PagedKvCache) (p' : BlockPool α) : Prop where
  table : c'.table = c.table
  nextLayer : c'.nextLayer = c.nextLayer
  pool : Restored p p'
  /-- only an open of layer 0 drops slots, and those are of a forward that is over -/
  cause : c' = c ∨ (c' = { c with pendingSlots := [] } ∧ layer = 0 ∧ c.nextLayer = 0 ∧
    validateAppend "PagedKvCache" p.geom layer k v = .ok ())
  exhausted : status.code = .resourceExhausted → layer = 0 ∧ c.nextLayer = 0 ∧
    AppendShape p.geom layer k v

/-- **An append that fails leaves the cache and the pool as they were.** -/
theorem append_error (h : Owned p (↑c.table.blocks + o)) (hw : Wf c p) (hbs : 0 < p.blockSize)
    (hrun : c.append layer k v p = .ok (.error status, c', p')) :
    Failed p c layer k v status c' p' := by
  by_cases hturn : AppendShape p.geom layer k v ∧ layer = c.nextLayer ∧
      (layer ≠ 0 → k.dim 0 = c.pendingSlots.length)
  · obtain ⟨hshape, hl, ht⟩ := hturn
    have hrange := hshape.layer_range
    unfold append at hrun
    rw [validateAppend_ok _ hshape] at hrun
    simp only [if_neg (show ¬layer ≠ c.nextLayer from fun hc => hc hl)] at hrun
    by_cases h0 : layer = 0
    · -- the open may run dry
      subst h0
      unfold openLayer at hrun
      simp only [if_true] at hrun
      cases happ : c.table.appendTokens (k.dim 0) p with
      | error fault =>
          rw [happ] at hrun
          cases hrun
      | ok r =>
          obtain ⟨grown, table, p₁⟩ := r
          rw [happ] at hrun
          cases grown with
          | error status₁ =>
              obtain ⟨htable, hpool, _⟩ := BlockTable.appendTokens_error h hw.sized hbs happ
              subst htable
              cases hrun
              exact ⟨rfl, rfl, hpool, Or.inr ⟨rfl, rfl, hl.symm, validateAppend_ok _ hshape⟩,
                fun _ => ⟨rfl, hl.symm, hshape⟩⟩
          | ok slots =>
              have hspec := (BlockTable.appendTokens_owned h hw.sized hbs
                hshape.keys.tokens).of_eq happ
              have hgeom : p₁.geom = p.geom := hspec.1.geom
              simp only [bind, Except.bind, pure, Except.pure] at hrun
              rw [kSlab_ok (by rw [hgeom]; exact hrange), vSlab_ok (by rw [hgeom]; exact hrange)]
                at hrun
              cases hrun
    · -- a later layer that is in its turn is written
      unfold openLayer at hrun
      simp only [if_neg h0, if_neg (show ¬k.dim 0 ≠ c.pendingSlots.length from
        fun hc => hc (ht h0)), bind, Except.bind, pure, Except.pure] at hrun
      rw [kSlab_ok hrange, vSlab_ok hrange] at hrun
      cases hrun
  · obtain ⟨message, hrej⟩ := append_rejected (p := p) (c := c) hturn
    rw [hrun] at hrej
    cases hrej
    exact ⟨rfl, rfl, Restored.refl _, Or.inl rfl, nofun⟩

/-- A second attempt does what the first would have done on the pool it finds. -/
theorem Failed.retry (h : Failed p c layer k v status c' p') (hs : SameShape p p₂) :
    c'.append layer k v p₂ = c.append layer k v p₂ := by
  rcases h.cause with rfl | ⟨rfl, rfl, hl, hvalid⟩
  · rfl
  · rw [append_zero c [] k v p₂ hl, hs.geom, hvalid]

/-- An open that ran dry succeeds once there are blocks enough. -/
theorem Failed.retry_succeeds (h : Failed p c layer k v status c' p') (hs : SameShape p p₂)
    (hw : Wf c p) (hbs : 0 < p.blockSize) (hown : Owned p₂ (↑c.table.blocks + o₂))
    (hcode : status.code = .resourceExhausted)
    (hfit : BlockTable.demand p.blockSize c.table.numTokens (k.dim 0) ≤ p₂.freeList.length) :
    ∃ c₂ p₃, c'.append layer k v p₂ = .ok (.ok (), c₂, p₃) := by
  obtain ⟨rfl, hl, hshape⟩ := h.exhausted hcode
  rw [h.retry hs]
  have hshape₂ : AppendShape p₂.geom 0 k v := by
    rw [hs.geom]
    exact hshape
  obtain ⟨slots, table, p₁, hrun, hsame⟩ := BlockTable.appendTokens_succeeds (k.dim 0 : Nat) hown
    (by rw [hs.blockSize]; exact hw.sized) (by rw [hs.blockSize]; exact hbs)
    (by have := hshape.keys.tokens; omega)
    (by rw [hs.blockSize, Int.toNat_natCast]; exact hfit)
  have hrange : 0 ≤ (0 : Int) ∧ (0 : Int) < p₁.geom.numLayers := by
    rw [hsame.geom]
    exact hshape₂.layer_range
  unfold append
  rw [validateAppend_ok _ hshape₂]
  simp only [if_neg (show ¬(0 : Int) ≠ c.nextLayer from fun hc => hc hl.symm)]
  unfold openLayer
  simp only [if_true, hrun, bind, Except.bind, pure, Except.pure]
  rw [kSlab_ok hrange, vSlab_ok hrange]
  exact ⟨_, _, rfl⟩

end PagedKvCache

/-- **An append is all or nothing.**  After an error of either operation, the table, the books
of the pool and the slabs are as they were; and on any pool that the other owners leave, the
same append does what it would have done at first, and succeeds if it had only lacked blocks. -/
theorem append_all_or_nothing (p : BlockPool α) (o : Multiset Int) (hbs : 0 < p.blockSize) :
    (∀ (t : BlockTable) (count : Int) (status : Status) (t' : BlockTable) (p' : BlockPool α),
      Owned p (↑t.blocks + o) → t.Sized p.blockSize →
      t.appendTokens count p = .ok (.error status, t', p') →
      t' = t ∧ Restored p p' ∧
        ∀ (p₂ : BlockPool α) (o₂ : Multiset Int), SameShape p p₂ → Owned p₂ (↑t.blocks + o₂) →
          t'.appendTokens count p₂ = t.appendTokens count p₂ ∧
            (status.code = .resourceExhausted →
              BlockTable.demand p.blockSize t.numTokens count.toNat ≤ p₂.freeList.length →
              ∃ slots t₂ p₃, t'.appendTokens count p₂ = .ok (.ok slots, t₂, p₃))) ∧
    (∀ (c : PagedKvCache) (layer : Int) (k v : Tensor α) (status : Status) (c' : PagedKvCache)
        (p' : BlockPool α),
      Owned p (↑c.table.blocks + o) → c.Wf p →
      c.append layer k v p = .ok (.error status, c', p') →
      c'.table = c.table ∧ c'.length = c.length ∧ c'.base = c.base ∧
        c'.nextLayer = c.nextLayer ∧ Restored p p' ∧
        ∀ (p₂ : BlockPool α) (o₂ : Multiset Int), SameShape p p₂ →
          Owned p₂ (↑c.table.blocks + o₂) →
          c'.append layer k v p₂ = c.append layer k v p₂ ∧
            (status.code = .resourceExhausted →
              BlockTable.demand p.blockSize c.table.numTokens (k.dim 0) ≤ p₂.freeList.length →
              ∃ c₂ p₃, c'.append layer k v p₂ = .ok (.ok (), c₂, p₃))) := by
  refine ⟨?_, ?_⟩
  · intro t count status t' p' hown hsized hrun
    obtain ⟨rfl, hpool, hpos⟩ := BlockTable.appendTokens_error hown hsized hbs hrun
    refine ⟨rfl, hpool, fun p₂ o₂ hs hown₂ => ⟨rfl, fun hcode hfit => ?_⟩⟩
    obtain ⟨slots, t₂, p₃, hrun₂, _⟩ := BlockTable.appendTokens_succeeds count hown₂
      (by rw [hs.blockSize]; exact hsized) (by rw [hs.blockSize]; exact hbs) (hpos hcode)
      (by rw [hs.blockSize]; exact hfit)
    exact ⟨slots, t₂, p₃, hrun₂⟩
  · intro c layer k v status c' p' hown hw hrun
    have h := PagedKvCache.append_error hown hw hbs hrun
    refine ⟨h.table, ?_, ?_, h.nextLayer, h.pool, fun p₂ o₂ hs hown₂ => ⟨h.retry hs, ?_⟩⟩
    · unfold PagedKvCache.length
      rw [h.table]
    · rcases h.cause with rfl | ⟨rfl, _, hl, _⟩
      · rfl
      · unfold PagedKvCache.base
        rw [if_pos hl, if_pos hl]
    · intro hcode hfit
      exact h.retry_succeeds hs hw hbs hown₂ hcode hfit

/-- A pool of two blocks of eight tokens, one of them held by somebody else. -/
private def sharedPool : BlockPool Int :=
  { (BlockPool.new ⟨1, 1, 1, .float32⟩ 8 2 : BlockPool Int).setRefcount 0 1 with
    freeList := [1]
    used := 1
    peakUsed := 1 }

private theorem new_two_owned :
    Owned (BlockPool.new ⟨1, 1, 1, .float32⟩ 8 2 : BlockPool Int)
      (↑BlockTable.empty.blocks + 0) :=
  BlockPool.new_owned _ _ _ (by decide)

private theorem sharedPool_owned : Owned sharedPool (↑BlockTable.empty.blocks + {0}) := by
  obtain ⟨p, hrun, hown, _⟩ := BlockPool.allocate_cons new_two_owned rfl
  have hp : p = sharedPool := by
    have heq : (BlockPool.new ⟨1, 1, 1, .float32⟩ 8 2 : BlockPool Int).allocate
        = .ok (.ok 0, sharedPool) := rfl
    rw [heq] at hrun
    cases hrun
    rfl
  rw [← hp]
  exact hown

/-- Nine tokens do not fit while the other block is held, and do once it is free. -/
theorem append_all_or_nothing_nine :
    ∃ status t' p', BlockTable.empty.appendTokens 9 sharedPool = .ok (.error status, t', p') ∧
      t' = BlockTable.empty ∧ Restored sharedPool p' ∧
      ∃ slots t₂ p₃, t'.appendTokens 9 (BlockPool.new ⟨1, 1, 1, .float32⟩ 8 2 : BlockPool Int)
        = .ok (.ok slots, t₂, p₃) := by
  obtain ⟨⟨res, t', p'⟩, hrun, hsame, hcase⟩ := BlockTable.appendTokens_owned sharedPool_owned
    (BlockTable.empty_sized _) (by decide) (show 0 < 9 by decide)
  rcases hcase with ⟨_, _, hle, _⟩ | ⟨_, _, ⟨message, hres⟩, _⟩
  · exact absurd hle (by decide)
  · simp only at hres
    subst hres
    obtain ⟨ht, hpool, hretry⟩ := (append_all_or_nothing sharedPool {0} (by decide)).1 _ _ _ _ _
      sharedPool_owned (BlockTable.empty_sized _) hrun
    refine ⟨_, t', p', hrun, ht, hpool, ?_⟩
    exact (hretry (BlockPool.new ⟨1, 1, 1, .float32⟩ 8 2) 0 ⟨rfl, rfl, rfl⟩ new_two_owned).2 rfl
      (by decide)

end InferenceEngine
