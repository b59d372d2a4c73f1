/-
What each operation of a block table does to the table and to the pool's books.

A table owns its blocks: the owners of the pool are its blocks and a rest `o` that belongs
to others, and each lemma below moves from `t.blocks + o` to `t'.blocks + o` with the same
rest.  The size invariant says that a table holds `⌈numTokens / bs⌉` blocks, which is what
makes every position it has committed addressable.
-/
import InferenceEngine.Proofs.BlockPool
import Mathlib.Data.List.GetD

namespace InferenceEngine

open Except BlockPool

namespace BlockTable

variable {α : Type} {p p' : BlockPool α} {t : BlockTable} {o : Multiset Int} {bs : Nat}

/-- A table has exactly the blocks its tokens need. -/
def Sized (t : BlockTable) (bs : Nat) : Prop := t.blocks.length = t.numTokens ⌈/⌉ bs

theorem empty_sized (bs : Nat) : empty.Sized bs := by
  simp [Sized, empty]

/-! ### Slots

A position is found through its block and its offset there.  Growing and cutting keep the blocks
in front, so the slots of the positions that remain stay where they are. -/

theorem le_mul_length (h : t.Sized bs) (hbs : 0 < bs) : t.numTokens ≤ bs * t.blocks.length := by
  rw [h]
  exact (ceilDiv_le_iff_le_mul hbs).mp (le_refl _)

theorem block_lt_length (h : t.Sized bs) (hbs : 0 < bs) {pos : Nat} (hpos : pos < t.numTokens) :
    pos / bs < t.blocks.length := by
  rw [Nat.div_lt_iff_lt_mul hbs, Nat.mul_comm]
  exact lt_of_lt_of_le hpos (le_mul_length h hbs)

theorem slotOf_eq {blocks : List Int} {pos : Nat} (h : pos / bs < blocks.length) :
    slotOf blocks bs pos = .ok (slotAt blocks bs pos) := by
  unfold slotOf slotAt
  rw [readAt_natCast h, List.getD_eq_getElem _ _ h]
  rfl

/-- `slot` finds the slot of every committed position. -/
theorem slot_ok (h : t.Sized bs) (hbs : 0 < bs) {pos : Nat} (hpos : pos < t.numTokens) :
    t.slot bs pos = .ok (slotAt t.blocks bs pos) := by
  unfold slot
  rw [check_of_true (by simpa using hpos)]
  show slotOf _ _ _ = _
  rw [Int.toNat_natCast]
  exact slotOf_eq (block_lt_length h hbs hpos)

/-- A position's slot depends on the block that holds it alone. -/
theorem slotAt_append {blocks more : List Int} {pos : Nat} (h : pos / bs < blocks.length) :
    slotAt (blocks ++ more) bs pos = slotAt blocks bs pos := by
  unfold slotAt
  rw [List.getD_append _ _ _ _ h]

theorem slotAt_take {blocks : List Int} {n pos : Nat} (h : pos / bs < n) :
    slotAt (blocks.take n) bs pos = slotAt blocks bs pos := by
  unfold slotAt
  rw [List.getD_eq_getElem?_getD, List.getD_eq_getElem?_getD, List.getElem?_take_of_lt h]

/-- Equal slots are the same offset of the same physical block. -/
theorem slotAt_inj {blocks blocks' : List Int} {pos pos' : Nat} (hbs : 0 < bs)
    (h : slotAt blocks bs pos = slotAt blocks' bs pos') :
    blocks.getD (pos / bs) 0 = blocks'.getD (pos' / bs) 0 ∧ pos % bs = pos' % bs := by
  have hlt : pos % bs < bs := Nat.mod_lt _ hbs
  have hlt' : pos' % bs < bs := Nat.mod_lt _ hbs
  obtain ⟨hb, hm⟩ := FlatMemory.radix_inj (by omega) (by omega) (by omega) (by omega) h
  exact ⟨hb, by omega⟩

/-- Within one table whose blocks are distinct, distinct positions have distinct slots. -/
theorem slotAt_pos_inj {blocks : List Int} {pos pos' : Nat} (hbs : 0 < bs)
    (hnd : blocks.Nodup) (hp : pos / bs < blocks.length) (hp' : pos' / bs < blocks.length)
    (h : slotAt blocks bs pos = slotAt blocks bs pos') : pos = pos' := by
  obtain ⟨hb, hm⟩ := slotAt_inj hbs h
  rw [List.getD_eq_getElem _ _ hp, List.getD_eq_getElem _ _ hp'] at hb
  have hdiv : pos / bs = pos' / bs := (hnd.getElem_inj_iff).mp hb
  rw [← Nat.div_add_mod pos bs, ← Nat.div_add_mod pos' bs, hdiv, hm]

/-! ### Releasing

The blocks that are given up leave the table and the owners together. -/

theorem releaseAll_owned : ∀ (blocks : List Int) (p : BlockPool α), Owned p (↑blocks + o) →
    (releaseAll blocks p).Returns fun p' =>
      Owned p' o ∧ SameStore p p' ∧ p'.exhaustions = p.exhaustions := by
  intro blocks
  induction blocks with
  | nil =>
      intro p h
      refine returns_pure ⟨?_, SameStore.refl p, rfl⟩
      simpa using h
  | cons b rest ih =>
      intro p h
      have h' : Owned p (b ::ₘ (↑rest + o)) := by
        rwa [← Multiset.cons_coe, Multiset.cons_add] at h
      unfold releaseAll
      rw [List.foldlM_cons]
      refine Returns.bind (release_owned h') ?_
      intro p₁ hp₁
      refine (ih p₁ hp₁.1).mono ?_
      intro p₂ hp₂
      exact ⟨hp₂.1, hp₁.2.1.trans hp₂.2.1, hp₂.2.2.trans hp₁.2.2⟩

/-- **`FreeAll` gives everything back.** -/
theorem freeAll_owned (h : Owned p (↑t.blocks + o)) :
    (t.freeAll p).Returns fun r =>
      r.1 = empty ∧ Owned r.2 o ∧ SameStore p r.2 ∧ r.2.exhaustions = p.exhaustions := by
  unfold freeAll
  refine Returns.bind (releaseAll_owned t.blocks p h) ?_
  intro p' hp'
  exact returns_pure ⟨rfl, hp'⟩

theorem popBlocks_owned : ∀ (n : Nat) (blocks : List Int) (p : BlockPool α),
    n ≤ blocks.length → Owned p (↑blocks + o) →
    (popBlocks n blocks p).Returns fun r =>
      r.1 = blocks.take (blocks.length - n) ∧ Owned r.2 (↑r.1 + o) ∧ SameStore p r.2 ∧
        r.2.exhaustions = p.exhaustions := by
  intro n
  induction n with
  | zero =>
      intro blocks p _ h
      exact returns_ok ⟨by simp, h, SameStore.refl p, rfl⟩
  | succ n ih =>
      intro blocks p hn h
      rcases List.eq_nil_or_concat blocks with rfl | ⟨front, last, rfl⟩
      · simp at hn
      have h' : Owned p (last ::ₘ (↑front + o)) := by
        have hc : (↑(front ++ [last]) : Multiset Int) = last ::ₘ ↑front := by
          rw [Multiset.cons_coe, Multiset.coe_eq_coe]
          exact List.perm_append_singleton last front
        rwa [List.concat_eq_append, hc, Multiset.cons_add] at h
      unfold popBlocks
      simp only [List.concat_eq_append, List.getLast?_append, List.getLast?_singleton,
        Option.some_or, List.dropLast_concat, List.length_append, List.length_singleton]
      refine Returns.bind (release_owned h') ?_
      intro p₁ hp₁
      have hlen : n ≤ front.length := by
        simp only [List.concat_eq_append, List.length_append, List.length_singleton] at hn
        omega
      refine (ih front p₁ hlen hp₁.1).mono ?_
      intro r hr
      refine ⟨?_, hr.2.1, hp₁.2.1.trans hr.2.2.1, hr.2.2.2.trans hp₁.2.2⟩
      rw [hr.1, List.take_append_of_le_length (by omega)]
      congr 1
      omega

/-- The blocks `Truncate` keeps, in the code's arithmetic. -/
private theorem keep_eq {n : Nat} (hbs : 0 < bs) :
    (((n : Int) + bs - 1).tdiv bs).toNat = n ⌈/⌉ bs := by
  rw [Int.tdiv_eq_ediv_of_nonneg (by omega), Nat.ceilDiv_eq_add_pred_div]
  have : ((n : Int) + bs - 1) = ((n + bs - 1 : Nat) : Int) := by omega
  rw [this]
  exact Int.toNat_natCast _

theorem ceilDiv_mono {m n : Nat} (h : m ≤ n) (hbs : 0 < bs) : m ⌈/⌉ bs ≤ n ⌈/⌉ bs := by
  rw [ceilDiv_le_iff_le_mul hbs]
  exact h.trans ((ceilDiv_le_iff_le_mul hbs).mp (le_refl _))

/-- **`Truncate` keeps the front of the table**, and refuses a length it does not have. -/
theorem truncate_owned (h : Owned p (↑t.blocks + o)) (hs : t.Sized p.blockSize)
    (hbs : 0 < p.blockSize) {n : Nat} (hn : n ≤ t.numTokens) :
    (t.truncate n p).Returns fun r =>
      r.1 = .ok () ∧ r.2.1 = ⟨t.blocks.take (n ⌈/⌉ p.blockSize), n⟩ ∧
        r.2.1.Sized p.blockSize ∧ Owned r.2.2 (↑r.2.1.blocks + o) ∧ SameStore p r.2.2 ∧
        r.2.2.exhaustions = p.exhaustions := by
  have hkeep : n ⌈/⌉ p.blockSize ≤ t.blocks.length := by
    rw [hs]
    exact ceilDiv_mono hn hbs
  unfold truncate
  rw [if_neg (by omega)]
  simp only [keep_eq hbs]
  refine Returns.bind (popBlocks_owned _ _ _ (Nat.sub_le _ _) h) ?_
  intro r hr
  have htake : r.1 = t.blocks.take (n ⌈/⌉ p.blockSize) := by
    rw [hr.1]
    congr 1
    omega
  refine returns_pure ⟨rfl, by simp [htake], ?_, hr.2⟩
  simp [Sized, htake, hkeep]

theorem truncate_rejects {n : Int} (h : n < 0 ∨ (t.numTokens : Int) < n) :
    ∃ message, t.truncate n p = .ok (.error (invalidArgumentError message), t, p) := by
  unfold truncate
  rw [if_pos h]
  exact ⟨_, rfl⟩

/-! ### Appending

The number of new blocks is computed before any is taken.  If there are too few, none is. -/

theorem allocateFresh_spec : ∀ (i : Nat) (fresh : List Int) (p : BlockPool α),
    Owned p (↑fresh + o) →
    (allocateFresh i fresh p).Returns fun r =>
      SameStore p r.2 ∧
        ((r.1 = some (fresh ++ p.freeList.take i) ∧ i ≤ p.freeList.length ∧
            Owned r.2 (↑(fresh ++ p.freeList.take i) + o) ∧ r.2.freeList = p.freeList.drop i ∧
            r.2.exhaustions = p.exhaustions) ∨
          (r.1 = none ∧ p.freeList.length < i ∧ Owned r.2 o ∧
            r.2.exhaustions = p.exhaustions + 1)) := by
  intro i
  induction i with
  | zero =>
      intro fresh p h
      exact returns_ok ⟨SameStore.refl p, Or.inl ⟨by simp, by omega, by simpa using h, rfl, rfl⟩⟩
  | succ i ih =>
      intro fresh p h
      unfold allocateFresh
      cases hf : p.freeList with
      | nil =>
          rw [allocate_nil hf]
          have hrel := releaseAll_owned fresh _ (h.exhausted (p.exhaustions + 1))
          refine Returns.bind (x := releaseAll fresh _) hrel ?_
          intro p₁ hp₁
          refine returns_pure ⟨?_, Or.inr ⟨rfl, by simp, hp₁.1, hp₁.2.2⟩⟩
          exact ⟨hp₁.2.1.geom, hp₁.2.1.blockSize, hp₁.2.1.numBlocks, hp₁.2.1.kSlabs,
            hp₁.2.1.vSlabs, hp₁.2.1.peak_le⟩
      | cons b rest =>
          obtain ⟨p₁, ha, hown, _, hsame, hfree, hexh⟩ := allocate_cons h hf
          rw [ha]
          have hown' : Owned p₁ (↑(fresh ++ [b]) + o) := by
            have hc : (↑(fresh ++ [b]) : Multiset Int) = b ::ₘ ↑fresh := by
              rw [Multiset.cons_coe, Multiset.coe_eq_coe]
              exact List.perm_append_singleton b fresh
            rwa [hc, Multiset.cons_add]
          refine (ih (fresh ++ [b]) p₁ hown').mono ?_
          intro r hr
          refine ⟨hsame.trans hr.1, ?_⟩
          rw [hfree] at hr
          rcases hr.2 with ⟨h1, h2, h3, h4, h5⟩ | ⟨h1, h2, h3, h4⟩
          · refine Or.inl ⟨?_, ?_, ?_, ?_, h5.trans hexh⟩
            · rw [h1, List.take_succ_cons, List.append_assoc, List.singleton_append]
            · rw [List.length_cons]
              omega
            · rwa [List.append_assoc, List.singleton_append, ← List.take_succ_cons] at h3
            · rw [h4, List.drop_succ_cons]
          · refine Or.inr ⟨h1, ?_, h3, ?_⟩
            · rw [List.length_cons]
              omega
            · rw [h4, hexh]

/-- The blocks that `count` more tokens need, `blocks_needed` over the naturals. -/
def demand (bs numTokens count : Nat) : Nat := (numTokens + count) ⌈/⌉ bs - numTokens ⌈/⌉ bs

theorem blocksNeeded_eq (hbs : 0 < p.blockSize) (cur add : Nat) :
    p.blocksNeeded cur add = .ok (demand p.blockSize cur add : Nat) := by
  have hmono : cur ⌈/⌉ p.blockSize ≤ (cur + add) ⌈/⌉ p.blockSize :=
    ceilDiv_mono (Nat.le_add_right _ _) hbs
  unfold blocksNeeded
  rw [check_of_true (by simp)]
  show Except.ok _ = _
  have hafter : (((cur : Int) + add + p.blockSize - 1).tdiv p.blockSize)
      = (((cur + add) ⌈/⌉ p.blockSize : Nat) : Int) := by
    rw [Int.tdiv_eq_ediv_of_nonneg (by omega), Nat.ceilDiv_eq_add_pred_div]
    have : ((cur : Int) + add + p.blockSize - 1) = ((cur + add + p.blockSize - 1 : Nat) : Int) := by
      omega
    rw [this]
    rfl
  have hbefore : (((cur : Int) + p.blockSize - 1).tdiv p.blockSize)
      = ((cur ⌈/⌉ p.blockSize : Nat) : Int) := by
    rw [Int.tdiv_eq_ediv_of_nonneg (by omega), Nat.ceilDiv_eq_add_pred_div]
    have : ((cur : Int) + p.blockSize - 1) = ((cur + p.blockSize - 1 : Nat) : Int) := by
      omega
    rw [this]
    rfl
  rw [hafter, hbefore, demand]
  congr 1
  omega

theorem sized_append {more : List Int} {count : Nat} (hs : t.Sized bs) (hbs : 0 < bs)
    (hmore : more.length = demand bs t.numTokens count) :
    (BlockTable.mk (t.blocks ++ more) (t.numTokens + count)).Sized bs := by
  have hmono : t.numTokens ⌈/⌉ bs ≤ (t.numTokens + count) ⌈/⌉ bs :=
    ceilDiv_mono (Nat.le_add_right _ _) hbs
  unfold Sized at hs ⊢
  rw [List.length_append, hs, hmore, demand]
  show _ = (t.numTokens + count) ⌈/⌉ bs
  omega

/-- **`AppendTokens` is all or nothing.**  It takes the blocks it needs from the front of the
free list, or finds too few and leaves the table as it was. -/
theorem appendTokens_owned (h : Owned p (↑t.blocks + o)) (hs : t.Sized p.blockSize)
    (hbs : 0 < p.blockSize) {count : Nat} (hc : 0 < count) :
    (t.appendTokens count p).Returns fun r =>
      SameStore p r.2.2 ∧
        ((∃ more, more = p.freeList.take (demand p.blockSize t.numTokens count) ∧
            demand p.blockSize t.numTokens count ≤ p.freeList.length ∧
            r.2.1 = ⟨t.blocks ++ more, t.numTokens + count⟩ ∧
            r.1 = .ok ((List.range count).map
              fun i => slotAt (t.blocks ++ more) p.blockSize (t.numTokens + i)) ∧
            r.2.1.Sized p.blockSize ∧ Owned r.2.2 (↑r.2.1.blocks + o) ∧
            r.2.2.freeList = p.freeList.drop (demand p.blockSize t.numTokens count) ∧
            r.2.2.exhaustions = p.exhaustions) ∨
          (p.freeList.length < demand p.blockSize t.numTokens count ∧ r.2.1 = t ∧
            (∃ message, r.1 = .error (resourceExhaustedError message)) ∧
            Owned r.2.2 (↑t.blocks + o) ∧ r.2.2.exhaustions = p.exhaustions + 1)) := by
  unfold appendTokens
  rw [if_neg (by omega), blocksNeeded_eq hbs]
  show Returns ((allocateFresh (Int.toNat (demand p.blockSize t.numTokens count : Nat)) [] p)
    >>= _) _
  rw [Int.toNat_natCast]
  refine Returns.bind (allocateFresh_spec (o := ↑t.blocks + o) _ [] p (by simpa using h)) ?_
  intro r hr
  obtain ⟨fresh, p₁⟩ := r
  obtain ⟨hsame, hcase⟩ := hr
  simp only [List.nil_append] at hcase
  rcases hcase with ⟨rfl, hle, hown, hfree, hexh⟩ | ⟨rfl, hlt, hown, hexh⟩
  · have hlen : (p.freeList.take (demand p.blockSize t.numTokens count)).length
        = demand p.blockSize t.numTokens count := by
      simp [hle]
    have hsized := sized_append hs hbs hlen
    have hslots : (List.range count).mapM (fun i =>
          slotOf (t.blocks ++ p.freeList.take (demand p.blockSize t.numTokens count))
            p₁.blockSize (t.numTokens + i))
        = .ok ((List.range count).map fun i =>
          slotAt (t.blocks ++ p.freeList.take (demand p.blockSize t.numTokens count))
            p.blockSize (t.numTokens + i)) := by
      rw [hsame.blockSize]
      refine mapM_ok (fun i hi => slotOf_eq ?_)
      exact block_lt_length hsized hbs (by
        show t.numTokens + i < t.numTokens + count
        have := List.mem_range.mp hi
        omega)
    refine Returns.bind ⟨_, hslots, rfl⟩ ?_
    intro slots hslot
    rw [← hslot]
    refine returns_pure ⟨hsame, Or.inl ⟨_, rfl, hle, rfl, rfl, hsized, ?_, hfree, hexh⟩⟩
    show Owned p₁ (↑(t.blocks ++ _) + o)
    have hcomm : (↑(t.blocks ++ p.freeList.take (demand p.blockSize t.numTokens count)) :
          Multiset Int) + o
        = ↑(p.freeList.take (demand p.blockSize t.numTokens count)) + (↑t.blocks + o) := by
      rw [← Multiset.coe_add, ← add_assoc]
      congr 1
      exact add_comm _ _
    rw [hcomm]
    exact hown
  · exact returns_pure ⟨hsame, Or.inr ⟨hlt, rfl, ⟨_, rfl⟩, hown, hexh⟩⟩

theorem appendTokens_rejects {count : Int} (h : count ≤ 0) :
    ∃ message, t.appendTokens count p = .ok (.error (invalidArgumentError message), t, p) := by
  unfold appendTokens
  rw [if_pos h]
  exact ⟨_, rfl⟩

end BlockTable

end InferenceEngine
