/-
The books of a pool, whatever its users do.

One invariant carries everything: the pool is owned by exactly the blocks of the live
tables and the references held outside them, and each table has the blocks its tokens
need.  A call on one table moves its part of the owners and leaves the rest, so each case
of the step is the lemma for that operation at the rest.

The statements a reader wants, about the free list, the counters and the slots, are read
off the invariant afterwards.

An id is an index that was cast to 32 bits.  Up to `2 ^ 31` blocks the cast changes nothing and
the books are in order from the start, so they stay in order.  With one block more, the last id is
negative, and nothing that `Create` checks rules that out: it bounds the bytes of a slab, not the
number of blocks.
-/
import InferenceEngine.KvCache.PoolSystem
import InferenceEngine.Proofs.BlockPool
import InferenceEngine.Proofs.BlockTable
import Mathlib.Data.Int.ConditionallyCompleteOrder
import Mathlib.Order.Interval.Finset.Nat

namespace InferenceEngine

open Except BlockPool

namespace PoolSystem

variable {α : Type} {s s' : PoolSystem α} {id : Nat} {t t' : BlockTable}

/-- The owners other than one table. -/
def others (s : PoolSystem α) (id : Nat) : Multiset Int :=
  IdMap.total (s.tables.erase id) (fun _ t => (t.blocks : Multiset Int)) + s.refs

theorem owners_of_lookup (h : s.tables.lookup id = some t) :
    s.owners = ↑t.blocks + s.others id := by
  unfold owners others
  rw [IdMap.total_erase h, add_assoc]

theorem owners_insert (pool : BlockPool α) (id : Nat) (t : BlockTable) :
    owners { s with pool := pool, tables := s.tables.insert id t } = ↑t.blocks + s.others id := by
  unfold owners others
  rw [IdMap.total_insert, add_assoc]

theorem others_of_not_mem (h : id ∉ s.tables) : s.others id = s.owners := by
  have hkeep : s.tables.erase id = s.tables := AList.ext (List.kerase_of_notMem_keys h)
  rw [others, hkeep, owners]

theorem table_eq (h : s.tables.lookup id = some t) : s.table id = .ok t := by
  simp [table, h]

theorem exists_table (h : id ∈ s.tables) : ∃ t, s.tables.lookup id = some t :=
  Option.isSome_iff_exists.mp (AList.lookup_isSome.mpr h)

/-- What every reachable system satisfies. -/
structure Invariant (s : PoolSystem α) : Prop where
  owned : Owned s.pool s.owners
  sized : ∀ id t, s.tables.lookup id = some t → t.Sized s.pool.blockSize
  blockSize_pos : 0 < s.pool.blockSize

/-- What a call leaves as it was: the store, and the slots of surviving positions. -/
structure Kept (s s' : PoolSystem α) : Prop where
  store : SameStore s.pool s'.pool
  slots : ∀ id t t', s.tables.lookup id = some t → s'.tables.lookup id = some t' →
    ∀ pos, pos < t.numTokens → pos < t'.numTokens →
      BlockTable.slotAt t'.blocks s.pool.blockSize pos
        = BlockTable.slotAt t.blocks s.pool.blockSize pos

/-- A call that leaves every table alone keeps their slots. -/
private theorem kept_of_tables_eq (hsame : SameStore s.pool s'.pool) (h : s'.tables = s.tables) :
    Kept s s' := by
  refine ⟨hsame, ?_⟩
  intro id t t' ht ht' pos _ _
  rw [h, ht] at ht'
  cases ht'
  rfl

/-- A call on one table changes the slots of no other. -/
private theorem kept_of_insert {pool : BlockPool α} (hsame : SameStore s.pool pool)
    (hslots : ∀ t₀, s.tables.lookup id = some t₀ → ∀ pos, pos < t₀.numTokens → pos < t.numTokens →
      BlockTable.slotAt t.blocks s.pool.blockSize pos
        = BlockTable.slotAt t₀.blocks s.pool.blockSize pos) :
    Kept s { s with pool := pool, tables := s.tables.insert id t } := by
  refine ⟨hsame, ?_⟩
  intro k t₀ t₁ ht₀ ht₁ pos hpos hpos'
  rcases IdMap.lookup_insert_iff.mp ht₁ with ⟨rfl, rfl⟩ | ⟨_, hk⟩
  · exact hslots t₀ ht₀ pos hpos hpos'
  · rw [hk] at ht₀
    cases ht₀
    rfl

private theorem sized_insert {pool : BlockPool α} (hinv : Invariant s)
    (hsame : SameStore s.pool pool) (ht : t.Sized s.pool.blockSize) :
    ∀ k u, (s.tables.insert id t).lookup k = some u → u.Sized pool.blockSize := by
  intro k u hu
  rw [hsame.blockSize]
  rcases IdMap.lookup_insert_iff.mp hu with ⟨_, rfl⟩ | ⟨_, hk⟩
  · exact ht
  · exact hinv.sized k u hk

/-- The invariant after a call that rewrote the table `id` and kept the store. -/
private theorem invariant_insert {pool : BlockPool α} (hinv : Invariant s)
    (hown : Owned pool (↑t.blocks + s.others id)) (hsame : SameStore s.pool pool)
    (ht : t.Sized s.pool.blockSize) :
    Invariant { s with pool := pool, tables := s.tables.insert id t } := by
  refine ⟨?_, sized_insert hinv hsame ht, ?_⟩
  · rw [owners_insert]
    exact hown
  · show 0 < pool.blockSize
    rw [hsame.blockSize]
    exact hinv.blockSize_pos

/-! ### One call

The owners are split into those of the table that is called on and the rest.  What the lemma of
the operation says of its part is put back together. -/

theorem allocate_invariant (hinv : Invariant s) :
    (s.run .allocate).Returns fun s' => Invariant s' ∧ Kept s s' := by
  rw [run]
  cases hf : s.pool.freeList with
  | nil =>
      rw [allocate_nil hf]
      have hsame : SameStore s.pool { s.pool with exhaustions := s.pool.exhaustions + 1 } :=
        ⟨rfl, rfl, rfl, rfl, rfl, le_refl _⟩
      refine returns_ok ⟨⟨hinv.owned.exhausted _, hinv.sized, hinv.blockSize_pos⟩, ?_⟩
      exact kept_of_tables_eq hsame rfl
  | cons b rest =>
      obtain ⟨p', ha, hown, _, hsame, _, _⟩ := allocate_cons hinv.owned hf
      rw [ha]
      refine returns_ok ⟨⟨?_, ?_, ?_⟩, kept_of_tables_eq hsame rfl⟩
      · show Owned p' (s.tables.total _ + b ::ₘ s.refs)
        rw [Multiset.add_cons]
        exact hown
      · intro k u hu
        show u.Sized p'.blockSize
        rw [hsame.blockSize]
        exact hinv.sized k u hu
      · show 0 < p'.blockSize
        rw [hsame.blockSize]
        exact hinv.blockSize_pos

/-- The invariant after the references outside tables changed to `refs`. -/
private theorem invariant_refs {pool : BlockPool α} {refs : Multiset Int} (hinv : Invariant s)
    (hown : Owned pool (s.tables.total (fun _ t => (t.blocks : Multiset Int)) + refs))
    (hsame : SameStore s.pool pool) :
    Invariant { s with pool := pool, refs := refs } := by
  refine ⟨hown, ?_, ?_⟩
  · intro k u hu
    show u.Sized pool.blockSize
    rw [hsame.blockSize]
    exact hinv.sized k u hu
  · show 0 < pool.blockSize
    rw [hsame.blockSize]
    exact hinv.blockSize_pos

theorem share_invariant {b : Int} (hinv : Invariant s) (hl : s.Legal (.share b))
    (hfit : s.CountFits (.share b)) :
    (s.run (.share b)).Returns fun s' => Invariant s' ∧ Kept s s' := by
  have hb : b ∈ s.owners := hinv.owned.mem_owners.mpr hl.2.2
  rw [run]
  refine Returns.bind (share_owned hinv.owned hb hfit) ?_
  intro pool hpool
  refine returns_pure ⟨invariant_refs hinv ?_ hpool.2.1, kept_of_tables_eq hpool.2.1 rfl⟩
  rw [Multiset.add_cons]
  exact hpool.1

theorem share_overflows {b : Int} (hinv : Invariant s) (hl : s.Legal (.share b))
    (hfull : ¬s.CountFits (.share b)) : s.run (.share b) = .error .signedOverflow := by
  have hb : b ∈ s.owners := hinv.owned.mem_owners.mpr hl.2.2
  rw [run, share_overflow hinv.owned hb hfull]
  rfl

theorem release_invariant {b : Int} (hinv : Invariant s) (hl : b ∈ s.refs) :
    (s.run (.release b)).Returns fun s' => Invariant s' ∧ Kept s s' := by
  have hsplit : s.owners
      = b ::ₘ (s.tables.total (fun _ t => (t.blocks : Multiset Int)) + s.refs.erase b) := by
    rw [← Multiset.add_cons, Multiset.cons_erase hl]
    rfl
  have hown := hinv.owned
  rw [hsplit] at hown
  rw [run]
  refine Returns.bind (release_owned hown) ?_
  intro pool hpool
  exact returns_pure ⟨invariant_refs hinv hpool.1 hpool.2.1, kept_of_tables_eq hpool.2.1 rfl⟩

theorem construct_invariant (hinv : Invariant s) (hid : id ∉ s.tables) :
    (s.run (.construct id)).Returns fun s' => Invariant s' ∧ Kept s s' := by
  have hown : Owned s.pool (↑BlockTable.empty.blocks + s.others id) := by
    rw [others_of_not_mem hid]
    simpa [BlockTable.empty] using hinv.owned
  refine returns_ok ⟨invariant_insert hinv hown (SameStore.refl _) (BlockTable.empty_sized _), ?_⟩
  refine kept_of_insert (SameStore.refl _) ?_
  intro t₀ ht₀
  exact absurd (IdMap.mem_of_lookup ht₀) hid

theorem appendTokens_invariant {count : Int} (hinv : Invariant s)
    (ht : s.tables.lookup id = some t) :
    (s.run (.appendTokens id count)).Returns fun s' => Invariant s' ∧ Kept s s' := by
  have hown : Owned s.pool (↑t.blocks + s.others id) := by
    rw [← owners_of_lookup ht]
    exact hinv.owned
  have hsized := hinv.sized id t ht
  have hself : ∀ (pool : BlockPool α), Owned pool (↑t.blocks + s.others id) →
      SameStore s.pool pool →
      Invariant { s with pool := pool, tables := s.tables.insert id t } ∧
        Kept s { s with pool := pool, tables := s.tables.insert id t } := by
    intro pool hpool hsame
    refine ⟨invariant_insert hinv hpool hsame hsized, kept_of_insert hsame ?_⟩
    intro t₀ ht₀ pos _ _
    rw [ht] at ht₀
    cases ht₀
    rfl
  rw [run, table_eq ht]
  by_cases hc : count ≤ 0
  · obtain ⟨message, he⟩ := BlockTable.appendTokens_rejects (t := t) (p := s.pool) hc
    show Returns (t.appendTokens count s.pool >>= _) _
    rw [he]
    exact returns_ok (hself s.pool hown (SameStore.refl _))
  · obtain ⟨n, rfl⟩ : ∃ n : Nat, count = n := ⟨count.toNat, by omega⟩
    show Returns (t.appendTokens n s.pool >>= _) _
    refine Returns.bind
      (BlockTable.appendTokens_owned hown hsized hinv.blockSize_pos (by omega)) ?_
    intro r hr
    obtain ⟨hsame, hcase⟩ := hr
    rcases hcase with ⟨more, _, _, ht', _, hsized', hown', _, _⟩ | ⟨_, ht', _, hown', _⟩
    · refine returns_pure ⟨invariant_insert hinv hown' hsame hsized', kept_of_insert hsame ?_⟩
      intro t₀ ht₀ pos hpos _
      rw [ht] at ht₀
      cases ht₀
      rw [ht']
      exact BlockTable.slotAt_append
        (BlockTable.block_lt_length hsized hinv.blockSize_pos hpos)
    · obtain ⟨_, t', pool⟩ := r
      cases ht'
      exact returns_pure (hself pool hown' hsame)

theorem truncate_invariant {newLen : Int} (hinv : Invariant s)
    (ht : s.tables.lookup id = some t) :
    (s.run (.truncate id newLen)).Returns fun s' => Invariant s' ∧ Kept s s' := by
  have hown : Owned s.pool (↑t.blocks + s.others id) := by
    rw [← owners_of_lookup ht]
    exact hinv.owned
  have hsized := hinv.sized id t ht
  rw [run, table_eq ht]
  show Returns (t.truncate newLen s.pool >>= _) _
  by_cases hn : newLen < 0 ∨ (t.numTokens : Int) < newLen
  · obtain ⟨message, he⟩ := BlockTable.truncate_rejects (p := s.pool) hn
    rw [he]
    refine returns_ok ⟨invariant_insert hinv hown (SameStore.refl _) hsized,
      kept_of_insert (SameStore.refl _) ?_⟩
    intro t₀ ht₀ pos _ _
    rw [ht] at ht₀
    cases ht₀
    rfl
  · obtain ⟨n, rfl⟩ : ∃ n : Nat, newLen = n := ⟨newLen.toNat, by omega⟩
    refine Returns.bind
      (BlockTable.truncate_owned hown hsized hinv.blockSize_pos (n := n) (by omega)) ?_
    intro r hr
    obtain ⟨_, ht', hsized', hown', hsame, _⟩ := hr
    refine returns_pure ⟨invariant_insert hinv hown' hsame hsized', kept_of_insert hsame ?_⟩
    intro t₀ ht₀ pos _ hpos
    rw [ht] at ht₀
    cases ht₀
    rw [ht'] at hpos ⊢
    refine BlockTable.slotAt_take ?_
    -- the kept blocks are those that `n` tokens need, and `pos` is one of them
    rw [Nat.div_lt_iff_lt_mul hinv.blockSize_pos, Nat.mul_comm]
    exact lt_of_lt_of_le hpos ((ceilDiv_le_iff_le_mul hinv.blockSize_pos).mp (le_refl _))

theorem freeAll_invariant (hinv : Invariant s) (ht : s.tables.lookup id = some t) :
    (s.run (.freeAll id)).Returns fun s' => Invariant s' ∧ Kept s s' := by
  have hown : Owned s.pool (↑t.blocks + s.others id) := by
    rw [← owners_of_lookup ht]
    exact hinv.owned
  rw [run, table_eq ht]
  show Returns (t.freeAll s.pool >>= _) _
  refine Returns.bind (BlockTable.freeAll_owned hown) ?_
  intro r hr
  obtain ⟨ht', hown', hsame, _⟩ := hr
  have hown'' : Owned r.2 (↑r.1.blocks + s.others id) := by
    rw [ht']
    simpa [BlockTable.empty] using hown'
  refine returns_pure ⟨invariant_insert hinv hown'' hsame ?_, kept_of_insert hsame ?_⟩
  · rw [ht']
    exact BlockTable.empty_sized _
  · intro _ _ pos _ hpos
    rw [ht'] at hpos
    exact absurd hpos (Nat.not_lt_zero pos)

theorem move_invariant {target : Nat} (hinv : Invariant s) (ht : s.tables.lookup id = some t)
    (htarget : target ∉ s.tables) :
    (s.run (.move id target)).Returns fun s' => Invariant s' ∧ Kept s s' := by
  have hne : target ≠ id := by
    intro hc
    exact htarget (hc ▸ IdMap.mem_of_lookup ht)
  rw [run, table_eq ht]
  have hnot : target ∉ s.tables.insert id .empty := by
    rw [AList.mem_insert]
    exact fun hc => hc.elim hne htarget
  refine returns_ok ⟨⟨?_, ?_, hinv.blockSize_pos⟩, SameStore.refl _, ?_⟩
  · -- the blocks only change hands: the source keeps none and the target takes them all
    show Owned s.pool
      (IdMap.total ((s.tables.insert id BlockTable.empty).insert target t) _ + s.refs)
    rw [IdMap.total_insert_fresh hnot, IdMap.total_insert]
    have hempty : ((BlockTable.empty.blocks : List Int) : Multiset Int) = 0 := rfl
    rw [hempty, zero_add, add_assoc]
    have := hinv.owned
    rwa [owners_of_lookup ht] at this
  · intro k u hu
    show u.Sized s.pool.blockSize
    rcases IdMap.lookup_insert_iff.mp hu with ⟨_, rfl⟩ | ⟨_, hk⟩
    · exact hinv.sized id t ht
    · rcases IdMap.lookup_insert_iff.mp hk with ⟨_, rfl⟩ | ⟨_, hk⟩
      · exact BlockTable.empty_sized _
      · exact hinv.sized k u hk
  · intro k t₀ t₁ ht₀ ht₁ pos _ hpos
    rcases IdMap.lookup_insert_iff.mp ht₁ with ⟨rfl, _⟩ | ⟨_, hk⟩
    · exact absurd (IdMap.mem_of_lookup ht₀) htarget
    · rcases IdMap.lookup_insert_iff.mp hk with ⟨_, rfl⟩ | ⟨_, hk⟩
      · exact absurd hpos (Nat.not_lt_zero pos)
      · rw [hk] at ht₀
        cases ht₀
        rfl

theorem destroy_invariant (hinv : Invariant s) (ht : s.tables.lookup id = some t) :
    (s.run (.destroy id)).Returns fun s' => Invariant s' ∧ Kept s s' := by
  have hown : Owned s.pool (↑t.blocks + s.others id) := by
    rw [← owners_of_lookup ht]
    exact hinv.owned
  rw [run, table_eq ht]
  show Returns (t.freeAll s.pool >>= _) _
  refine Returns.bind (BlockTable.freeAll_owned hown) ?_
  intro r hr
  obtain ⟨_, hown', hsame, _⟩ := hr
  refine returns_pure ⟨⟨hown', ?_, ?_⟩, hsame, ?_⟩
  · intro k u hu
    show u.Sized r.2.blockSize
    rw [hsame.blockSize]
    exact hinv.sized k u (IdMap.lookup_erase_iff.mp hu).2
  · show 0 < r.2.blockSize
    rw [hsame.blockSize]
    exact hinv.blockSize_pos
  · intro k t₀ t₁ ht₀ ht₁ pos _ _
    rw [(IdMap.lookup_erase_iff.mp ht₁).2] at ht₀
    cases ht₀
    rfl

/-- **Every legal call whose count fits runs to its end and keeps the books.** -/
theorem run_invariant (hinv : Invariant s) (call : PoolCall) (hl : s.Legal call)
    (hfit : s.CountFits call) : (s.run call).Returns fun s' => Invariant s' ∧ Kept s s' := by
  cases call with
  | allocate => exact allocate_invariant hinv
  | share b => exact share_invariant hinv hl hfit
  | release b => exact release_invariant hinv hl
  | construct id => exact construct_invariant hinv hl
  | appendTokens id count =>
      obtain ⟨t, ht⟩ := exists_table hl
      exact appendTokens_invariant hinv ht
  | truncate id newLen =>
      obtain ⟨t, ht⟩ := exists_table hl
      exact truncate_invariant hinv ht
  | freeAll id =>
      obtain ⟨t, ht⟩ := exists_table hl
      exact freeAll_invariant hinv ht
  | move source target =>
      obtain ⟨t, ht⟩ := exists_table hl.1
      exact move_invariant hinv ht hl.2
  | destroy id =>
      obtain ⟨t, ht⟩ := exists_table hl
      exact destroy_invariant hinv ht

/-- **A legal call returns exactly if its count fits.** -/
theorem run_returns_iff (hinv : Invariant s) (call : PoolCall) (hl : s.Legal call) :
    (∃ s', s.run call = .ok s') ↔ s.CountFits call := by
  constructor
  · rintro ⟨s', hs'⟩
    cases call with
    | share b =>
        by_contra hfull
        rw [share_overflows hinv hl hfull] at hs'
        cases hs'
    | _ => trivial
  · intro hfit
    obtain ⟨s', hs', -⟩ := run_invariant hinv call hl hfit
    exact ⟨s', hs'⟩

theorem reachable_invariant [Zero α] {geom : CacheGeometry} {blockSize numBlocks : Int}
    (hn : numBlocks ≤ 2 ^ 31) (h : (system (α := α) geom blockSize numBlocks).Reachable s) :
    Invariant s := by
  refine h.invariant ?_ ?_
  · intro s₀ h₀
    obtain ⟨hcreate, htables, hrefs⟩ := h₀
    have hc := create_ok hcreate
    refine ⟨?_, ?_, ?_⟩
    · rw [owners, htables, hrefs, IdMap.total_empty, hc.pool_eq]
      exact new_owned _ _ _ (by omega)
    · intro k u hu
      rw [htables] at hu
      cases hu
    · rw [hc.pool_eq]
      have := hc.blockSize_pos
      show 0 < blockSize.toNat
      omega
  · intro s₁ call s₂ _ hinv hstep
    have hfit := (run_returns_iff hinv call hstep.1).mp ⟨s₂, hstep.2⟩
    exact ((run_invariant hinv call hstep.1 hfit).of_eq hstep.2).1

/-! ### What the invariant says

The free list, the counters and the slots are functions of the owners, so all of the
representation is read off one invariant. -/

theorem next_step [Zero α] {geom : CacheGeometry} {blockSize numBlocks : Int} {call : PoolCall}
    (h : s.next call = some s') : (system geom blockSize numBlocks).step s call s' := by
  unfold next at h
  split at h
  · rename_i hl
    cases hrun : s.run call with
    | error f =>
        rw [hrun] at h
        cases h
    | ok t =>
        rw [hrun] at h
        cases h
        exact ⟨hl, hrun⟩
  · cases h

end PoolSystem

/-! ### When the ids of a pool fit their type

An id is cast to 32 bits when the free list is filled.  If it changes there, a block is handed
out under an id that is not its own. -/

section

variable {α : Type}

namespace BlockHandles

variable {s : BlockHandles α}

/-- The books of the pool are those of the owners. -/
structure InOrder (s : BlockHandles α) : Prop where
  owned : s.pool.Owned (s.held : Multiset Int)
  held_nodup : s.held.Nodup
  issued_in_range : ∀ b ∈ s.issued, 0 ≤ b ∧ b < s.pool.numBlocks

theorem InOrder.allocate (h : s.InOrder) : (s.run .allocate).Returns InOrder := by
  cases hfree : s.pool.freeList with
  | nil =>
      unfold run
      rw [BlockPool.allocate_nil hfree]
      exact returns_pure ⟨h.owned.exhausted _, h.held_nodup, h.issued_in_range⟩
  | cons b rest =>
      obtain ⟨p', hp', howned, hfresh, hstore, -, -⟩ := BlockPool.allocate_cons h.owned hfree
      unfold run
      rw [hp']
      refine returns_pure ⟨howned, List.nodup_cons.mpr ⟨hfresh, h.held_nodup⟩, ?_⟩
      intro x hx
      show 0 ≤ x ∧ x < p'.numBlocks
      rw [hstore.numBlocks]
      rcases List.mem_cons.mp hx with rfl | hx
      · have hrange := howned.in_range x (Multiset.mem_cons_self x _)
        rwa [hstore.numBlocks] at hrange
      · exact h.issued_in_range x hx

theorem InOrder.release (h : s.InOrder) {b : Int} (hb : b ∈ s.held) :
    (s.run (.release b)).Returns InOrder := by
  have hcons : (b ::ₘ (s.held.erase b : Multiset Int)) = (s.held : Multiset Int) :=
    Multiset.coe_eq_coe.mpr (List.perm_cons_erase hb).symm
  have howned := h.owned
  rw [← hcons] at howned
  unfold run
  refine Returns.bind (BlockPool.release_owned howned) fun p' hp' => ?_
  obtain ⟨howned', hstore, -⟩ := hp'
  refine returns_pure ⟨howned', h.held_nodup.erase b, fun x hx => ?_⟩
  show 0 ≤ x ∧ x < p'.numBlocks
  rw [hstore.numBlocks]
  exact h.issued_in_range x hx

/-- **One call** keeps the books in order, and returns. -/
theorem InOrder.run (h : s.InOrder) {call : HandleCall} (hl : s.Legal call) :
    (s.run call).Returns InOrder := by
  cases call with
  | allocate => exact h.allocate
  | release b => exact h.release hl

/-- **Every run** keeps them in order. -/
theorem reachable_inOrder {p : BlockPool α} (hp : p.Owned 0) (h : (system p).Reachable s) :
    s.InOrder := by
  refine h.invariant ?_ ?_
  · intro s₀ h₀
    have h₀ : s₀ = ⟨p, [], []⟩ := h₀
    subst h₀
    exact ⟨hp, List.nodup_nil, fun b hb => absurd hb List.not_mem_nil⟩
  · intro s₁ call s₂ _ hinv hstep
    exact (hinv.run hstep.1).of_eq hstep.2

end BlockHandles

namespace BlockPool

variable {p : BlockPool α}

theorem Owned.idsFit (h : p.Owned 0) : p.IdsFit where
  distinct := h.free_nodup
  in_range := fun b hb => ((h.mem_free b).mp hb).1
  returns := fun s hs call hl => by
    obtain ⟨s', hs', -⟩ := (BlockHandles.reachable_inOrder h hs).run hl
    exact ⟨s', hs'⟩
  issued_in_range := fun s hs b hb => by
    have hrange := (BlockHandles.reachable_inOrder h hs).issued_in_range b hb
    simp [BlockPool.blockInRange, hrange]
  owners_differ := fun s hs => (BlockHandles.reachable_inOrder h hs).held_nodup

/-- The id of block `2 ^ 31`. -/
theorem toInt32_two_pow : toInt32 (2 ^ 31) = -(2 ^ 31) := by decide

/-- A pool whose ids lie in range is no larger than their type allows. -/
theorem le_of_new_in_range [Zero α] {geom : CacheGeometry} {blockSize numBlocks : Nat}
    (h : ∀ b ∈ (new (α := α) geom blockSize numBlocks).freeList, 0 ≤ b ∧ b < numBlocks) :
    numBlocks ≤ 2 ^ 31 := by
  by_contra hlarge
  have hmem : toInt32 ((2 ^ 31 : Nat) : Int) ∈ (new (α := α) geom blockSize numBlocks).freeList :=
    List.mem_map.mpr ⟨2 ^ 31, List.mem_range.mpr (by omega), rfl⟩
  have hnonneg := (h _ hmem).1
  have hcast : ((2 ^ 31 : Nat) : Int) = 2 ^ 31 := by norm_num
  rw [hcast, toInt32_two_pow] at hnonneg
  omega

theorem idsFit_iff [Zero α] {geom : CacheGeometry} {blockSize numBlocks : Int}
    (h : create geom blockSize numBlocks = .ok p) : p.IdsFit ↔ numBlocks ≤ 2 ^ 31 := by
  have hc := create_ok h
  have hpos := hc.numBlocks_pos
  rw [hc.pool_eq]
  constructor
  · intro hfit
    have := le_of_new_in_range hfit.in_range
    omega
  · intro hle
    exact (new_owned geom _ _ (by omega)).idsFit

/-- **The ids of a pool that `Create` accepts fit their type** if it has no more than `2 ^ 31`
blocks, and only then. -/
theorem create_ids_fit [Zero α] (geom : CacheGeometry) (blockSize numBlocks : Int)
    (p : BlockPool α) (h : create geom blockSize numBlocks = .ok p) :
    p.IdsFit ↔ numBlocks ≤ 2 ^ 31 := idsFit_iff h

theorem create_ids_fit_small : ∃ p : BlockPool Nat,
    create ⟨1, 1, 1, .float32⟩ 8 4 = .ok p ∧ (p.IdsFit ↔ (4 : Int) ≤ 2 ^ 31) := by
  have hcreate : create ⟨1, 1, 1, .float32⟩ 8 4
      = .ok (new (α := Nat) ⟨1, 1, 1, .float32⟩ 8 4) := rfl
  exact ⟨_, hcreate, create_ids_fit _ _ _ _ hcreate⟩

/-- One block too many. -/
theorem create_ids_unfit : ∃ p : BlockPool Nat,
    create ⟨1, 1, 1, .float32⟩ 8 (2 ^ 31 + 1) = .ok p ∧ ¬p.IdsFit := by
  have hcreate : create ⟨1, 1, 1, .float32⟩ 8 (2 ^ 31 + 1)
      = .ok (new (α := Nat) ⟨1, 1, 1, .float32⟩ 8 (2 ^ 31 + 1)) := rfl
  refine ⟨_, hcreate, ?_⟩
  rw [idsFit_iff hcreate]
  decide

end BlockPool

end

end InferenceEngine
