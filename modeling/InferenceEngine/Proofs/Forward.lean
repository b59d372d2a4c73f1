/-
What a forward does to the caches and the pool.

Whatever a model appends, and whatever the other users of the pool do meanwhile, no block is
lost or shared and no cache is malformed, and nothing in it ends the process.  That is all
the engine needs to survive a model it knows nothing about.
-/
import InferenceEngine.Model.Model
import InferenceEngine.Proofs.PagedKvCache

namespace InferenceEngine

open Except BlockPool

variable {σ α : Type} {o : Multiset Int}

/-- The blocks of some caches. -/
def cacheBlocks (caches : List PagedKvCache) : Multiset Int :=
  (caches.map fun c => (c.table.blocks : Multiset Int)).sum

theorem cacheBlocks_cons (c : PagedKvCache) (caches : List PagedKvCache) :
    cacheBlocks (c :: caches) = ↑c.table.blocks + cacheBlocks caches := by
  simp [cacheBlocks]

theorem cacheBlocks_ge {caches : List PagedKvCache} {i : Nat} {c : PagedKvCache}
    (h : caches[i]? = some c) : (↑c.table.blocks : Multiset Int) ≤ cacheBlocks caches := by
  induction caches generalizing i with
  | nil => simp at h
  | cons d rest ih =>
      rw [cacheBlocks_cons]
      cases i with
      | zero =>
          simp only [List.getElem?_cons_zero, Option.some.injEq] at h
          rw [h]
          exact Multiset.le_add_right _ _
      | succ i =>
          rw [List.getElem?_cons_succ] at h
          exact (ih h).trans (Multiset.le_add_left _ _)

/-- One cache, split off from the others. -/
theorem cacheBlocks_split {caches : List PagedKvCache} {i : Nat} {c : PagedKvCache}
    (h : caches[i]? = some c) :
    ∃ r, cacheBlocks caches = ↑c.table.blocks + r ∧
      (∀ c', cacheBlocks (caches.set i c') = ↑c'.table.blocks + r) ∧
      ∀ j d, j ≠ i → caches[j]? = some d → (↑d.table.blocks : Multiset Int) ≤ r := by
  induction caches generalizing i with
  | nil => simp at h
  | cons d rest ih =>
      cases i with
      | zero =>
          simp only [List.getElem?_cons_zero, Option.some.injEq] at h
          subst h
          refine ⟨cacheBlocks rest, cacheBlocks_cons _ _, fun c' => ?_, fun j e hj he => ?_⟩
          · rw [List.set_cons_zero, cacheBlocks_cons]
          · obtain ⟨j, rfl⟩ := Nat.exists_eq_succ_of_ne_zero hj
            rw [List.getElem?_cons_succ] at he
            exact cacheBlocks_ge he
      | succ i =>
          rw [List.getElem?_cons_succ] at h
          obtain ⟨r, hr, hset, hle⟩ := ih h
          refine ⟨↑d.table.blocks + r, ?_, fun c' => ?_, fun j e hj he => ?_⟩
          · rw [cacheBlocks_cons, hr, add_left_comm]
          · rw [List.set_cons_succ, cacheBlocks_cons, hset, add_left_comm]
          · cases j with
            | zero =>
                simp only [List.getElem?_cons_zero, Option.some.injEq] at he
                rw [he]
                exact Multiset.le_add_right _ _
            | succ j =>
                rw [List.getElem?_cons_succ] at he
                exact (hle j e (fun hc => hj (by rw [hc])) he).trans (Multiset.le_add_left _ _)

/-- Caches and a pool, with the blocks that belong to neither the caches nor the other users. -/
structure PoolBooks (s : SharedPool α) (caches : List PagedKvCache) (o : Multiset Int) : Prop where
  exclusive : Exclusive s.pool (cacheBlocks caches + (↑s.others + o))
  wf : ∀ c ∈ caches, c.Wf s.pool

section

variable [Zero α]

/-- Every cache whose blocks are among `o` holds what it held. -/
def LogsKept (o : Multiset Int) (p p' : BlockPool α) : Prop :=
  ∀ c : PagedKvCache, c.Wf p → (↑c.table.blocks : Multiset Int) ≤ o → c.log p' = c.log p

theorem LogsKept.of_store {p p' : BlockPool α} (h : SameStore p p') : LogsKept o p p' :=
  fun _ _ _ => PagedKvCache.log_of_store h

theorem LogsKept.trans {p p' p'' : BlockPool α} (h : LogsKept o p p') (hs : SameShape p p')
    (h' : LogsKept o p' p'') : LogsKept o p p'' :=
  fun c hw hle => (h' c (hw.of_shape hs) hle).trans (h c hw hle)

theorem LogsKept.mono {p p' : BlockPool α} {x : Multiset Int} (h : LogsKept o p p') (hx : x ≤ o) :
    LogsKept x p p' :=
  fun c hw hle => h c hw (hle.trans hx)

/-- A write to one cache's blocks is not seen through blocks that are not its. -/
theorem LogsKept.of_rows {p p' : BlockPool α} {blocks : List Int} {x : Multiset Int}
    (h : PagedKvCache.RowsKept p p' blocks) (he : Exclusive p (x + o))
    (he' : Exclusive p' (↑blocks + o)) : LogsKept o p p' := by
  intro c hw hle
  obtain ⟨rest, rfl⟩ := Multiset.le_iff_exists_add.mp hle
  rw [add_left_comm] at he
  refine h.log_eq he hw fun b hb hb' => ?_
  have hdisj := (Multiset.nodup_add.mp he'.nodup).2.2
  exact (Multiset.disjoint_left.mp hdisj) (Multiset.mem_coe.mpr hb')
    (Multiset.mem_add.mpr (Or.inl (Multiset.mem_coe.mpr hb)))

/-- An append, whatever its arguments. -/
theorem PagedKvCache.append_returns {p : BlockPool α} {c : PagedKvCache} {layer : Int}
    {k v : Tensor α} (he : Exclusive p (↑c.table.blocks + o)) (hw : c.Wf p) :
    (c.append layer k v p).Returns fun r =>
      Exclusive r.2.2 (↑r.2.1.table.blocks + o) ∧ r.2.1.Wf r.2.2 ∧ SameShape p r.2.2 ∧
        LogsKept o p r.2.2 := by
  by_cases hprot : AppendShape p.geom layer k v ∧ layer = c.nextLayer ∧
      (layer ≠ 0 → k.dim 0 = c.pendingSlots.length)
  · obtain ⟨hshape, hnext, htok⟩ := hprot
    by_cases hfit : layer = 0 →
        BlockTable.demand p.blockSize c.table.numTokens (k.dim 0) ≤ p.freeList.length
    · refine (PagedKvCache.append_ok he hw hshape hnext htok hfit).mono ?_
      rintro r ⟨_, happ⟩
      exact ⟨happ.exclusive, happ.wf, happ.kept.shape, .of_rows happ.kept he happ.exclusive⟩
    · have h0 : layer = 0 := by
        by_contra hne
        exact hfit (fun hc => absurd hc hne)
      subst h0
      have hfull : p.freeList.length
          < BlockTable.demand p.blockSize c.table.numTokens (k.dim 0) := by
        by_contra hc
        exact hfit (fun _ => by omega)
      refine (PagedKvCache.append_exhausted he hw hshape hnext.symm hfull).mono ?_
      rintro r ⟨_, hex⟩
      exact ⟨hex.exclusive, hex.wf hw hnext.symm, hex.store.shape, .of_store hex.store⟩
  · obtain ⟨message, hm⟩ := PagedKvCache.append_rejected hprot
    rw [hm]
    exact returns_ok ⟨he, hw, SameShape.refl p, fun _ _ _ => rfl⟩

omit [Zero α] in
/-- What the other users do concerns their own blocks. -/
theorem SharedPool.use_returns {s : SharedPool α} {x : Multiset Int} (u : PoolUse)
    (he : Exclusive s.pool (↑s.others + x)) :
    (s.use u).Returns fun s' =>
      Exclusive s'.pool (↑s'.others + x) ∧ SameStore s.pool s'.pool := by
  cases u with
  | allocate =>
      rw [SharedPool.use]
      cases hf : s.pool.freeList with
      | nil =>
          rw [allocate_nil hf]
          refine ⟨_, rfl, ⟨he.owned.exhausted _, he.nodup, he.blockSize_pos, he.layers_pos,
            he.heads_pos, he.dim_pos⟩, ?_⟩
          exact ⟨rfl, rfl, rfl, rfl, rfl, le_refl _⟩
      | cons b rest =>
          obtain ⟨p', hrun, hown, hnot, hstore, _⟩ := allocate_cons he.owned hf
          rw [hrun]
          refine ⟨_, rfl, ?_, hstore⟩
          show Exclusive p' (↑(b :: s.others) + x)
          rw [← Multiset.cons_coe, Multiset.cons_add]
          exact he.of_owned hstore.shape hown (Multiset.nodup_cons.mpr ⟨hnot, he.nodup⟩)
  | release i =>
      rw [SharedPool.use]
      cases hi : s.others[i]? with
      | none => exact returns_ok ⟨he, SameStore.refl _⟩
      | some b =>
          obtain ⟨hlt, hb⟩ := List.getElem?_eq_some_iff.mp hi
          have hsplit : (↑s.others : Multiset Int) = b ::ₘ ↑(s.others.eraseIdx i) := by
            rw [Multiset.cons_coe, Multiset.coe_eq_coe, ← hb]
            exact (List.getElem_cons_eraseIdx_perm hlt).symm
          rw [hsplit, Multiset.cons_add] at he
          show Returns (s.pool.release b >>= _) _
          refine Returns.bind (release_owned he.owned) ?_
          rintro p' ⟨hown, hstore, _⟩
          exact returns_pure ⟨he.of_owned hstore.shape hown (Multiset.nodup_cons.mp he.nodup).2,
            hstore⟩

/-- **A forward keeps the books**, whatever it does. -/
theorem runEffects_returns (effects : List (ForwardEffect α)) :
    ∀ {caches : List PagedKvCache} {s : SharedPool α}, PoolBooks s caches o →
      (runEffects effects caches s).Returns fun r =>
        PoolBooks r.2.2 r.2.1 o ∧ r.2.1.length = caches.length ∧
          SameShape s.pool r.2.2.pool ∧ LogsKept o s.pool r.2.2.pool := by
  induction effects with
  | nil => intro caches s hb; exact returns_pure ⟨hb, rfl, SameShape.refl _, fun _ _ _ => rfl⟩
  | cons effect rest ih =>
      intro caches s hb
      cases effect with
      | other u =>
          have he := hb.exclusive
          rw [add_left_comm] at he
          refine Returns.bind (SharedPool.use_returns u he) ?_
          rintro s' ⟨he', hs⟩
          rw [add_left_comm] at he'
          refine (ih ⟨he', fun c hc => (hb.wf c hc).of_shape hs.shape⟩).mono ?_
          rintro r ⟨hb', hlen, hs', hk⟩
          exact ⟨hb', hlen, hs.shape.trans hs', LogsKept.trans (.of_store hs) hs.shape hk⟩
      | append member layer k v =>
          unfold runEffects
          cases hc : caches[member]? with
          | none => exact ih hb
          | some c =>
              obtain ⟨r, hr, hset, _⟩ := cacheBlocks_split hc
              have he := hb.exclusive
              rw [hr, add_assoc] at he
              refine Returns.bind (PagedKvCache.append_returns he
                (hb.wf c (List.mem_of_getElem? hc))) ?_
              rintro ⟨appended, c', p'⟩ ⟨he', hw', hs, hkept⟩
              simp only at he' hw' hs hkept
              have hk : LogsKept o s.pool p' := hkept.mono (by
                rw [← add_assoc]
                exact Multiset.le_add_left _ _)
              have hb' : PoolBooks { s with pool := p' } (caches.set member c') o := by
                refine ⟨?_, ?_⟩
                · rw [hset, add_assoc]
                  exact he'
                · intro d hd
                  rcases List.mem_or_eq_of_mem_set hd with hd | rfl
                  · exact (hb.wf d hd).of_shape hs
                  · exact hw'
              cases appended with
              | error status => exact returns_pure ⟨hb', List.length_set, hs, hk⟩
              | ok u =>
                  refine (ih hb').mono ?_
                  rintro r' ⟨hb'', hlen, hs', hk'⟩
                  exact ⟨hb'', hlen.trans List.length_set, hs.trans hs', hk.trans hs hk'⟩

/-- The same for a call of the model, with what it answers when it answers. -/
theorem Model.call_returns (m : Model σ α) (state : σ) {request : ForwardRequest}
    {s : SharedPool α} (hb : PoolBooks s (request.seqs.map (·.cache)) o) :
    (m.call state request s).Returns fun r =>
      PoolBooks r.shared r.caches o ∧ r.caches.length = request.seqs.length ∧
        SameShape s.pool r.shared.pool ∧ LogsKept o s.pool r.shared.pool ∧
        ∀ logits, r.logits = .ok logits →
          (m.forward state request s.pool).1.logits = .ok logits := by
  unfold Model.call
  refine Returns.bind (runEffects_returns _ hb) ?_
  rintro ⟨ran, caches, shared⟩ ⟨hb', hlen, hs, hk⟩
  simp only [List.length_map] at hb' hlen hs hk
  cases ran with
  | error status =>
      refine returns_pure ⟨hb', hlen, hs, hk, ?_⟩
      intro logits h
      cases h
  | ok u => exact returns_pure ⟨hb', hlen, hs, hk, fun logits h => h⟩

end

end InferenceEngine
