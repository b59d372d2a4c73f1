/-
What a forward does to the counters of the caches it is given, whenever it returns.

Nothing is assumed here of the pool or of the blocks a cache holds: an operation that finds
them in disorder does not return.  What is left of an operation that does return is its
arithmetic, the tokens a cache counts and the layer it expects next.
-/
import InferenceEngine.Lib.Ensures
import InferenceEngine.Model.Contract
import Mathlib.Algebra.BigOperators.Group.List.Basic

namespace InferenceEngine

open Except

variable {σ α : Type} {p : BlockPool α} {t : BlockTable} {c : PagedKvCache}

/-! ### The pool keeps its geometry

None of the operations on a pool changes its sizes, whatever they come to. -/

namespace BlockPool

theorem allocate_geom (p : BlockPool α) : p.allocate.Ensures fun r => r.2.geom = p.geom := by
  unfold allocate
  cases p.freeList with
  | nil => exact ensures_ok rfl
  | cons block rest =>
      by_cases h : p.blockInRange block = true
      · simp only [if_pos h]
        exact ensures_ok rfl
      · simp only [if_neg h]
        exact ensures_error _

theorem release_geom (p : BlockPool α) (block : Int) :
    (p.release block).Ensures fun p' => p'.geom = p.geom := by
  unfold release
  refine Ensures.bind (ensures_self _) fun _ _ => Ensures.bind (ensures_self _) fun _ _ => ?_
  by_cases h : (p.setRefcount block (p.refcounts block - 1)).refcounts block = 0
  · simp only [if_pos h]
    exact ensures_pure rfl
  · simp only [if_neg h]
    exact ensures_pure rfl

end BlockPool

namespace BlockTable

theorem releaseAll_geom (blocks : List Int) (p : BlockPool α) :
    (releaseAll blocks p).Ensures fun p' => p'.geom = p.geom := by
  refine Ensures.foldlM_invariant (I := fun p' : BlockPool α => p'.geom = p.geom) ?_ blocks rfl
  intro p' block h
  exact (p'.release_geom block).mono fun _ h' => h'.trans h

theorem allocateFresh_geom (i : Nat) (fresh : List Int) (p : BlockPool α) :
    (allocateFresh i fresh p).Ensures fun r => r.2.geom = p.geom := by
  induction i generalizing fresh p with
  | zero => exact ensures_ok rfl
  | succ i ih =>
      rw [allocateFresh]
      refine Ensures.bind p.allocate_geom ?_
      rintro ⟨block, p'⟩ h
      cases block with
      | error status =>
          refine Ensures.bind (releaseAll_geom fresh p') fun p'' h' => ?_
          exact ensures_pure (h'.trans h)
      | ok block => exact (ih _ p').mono fun _ h' => h'.trans h

/-- Tokens are added all or not at all; the one error that finds the pool empty says so. -/
theorem appendTokens_counts (t : BlockTable) (count : Nat) (p : BlockPool α) :
    (t.appendTokens count p).Ensures fun r => r.2.2.geom = p.geom ∧
      r.2.1.numTokens = t.numTokens + (if r.1 matches .ok _ then count else 0) := by
  unfold appendTokens
  by_cases hc : (count : Int) ≤ 0
  · simp only [if_pos hc]
    exact ensures_pure ⟨rfl, rfl⟩
  · simp only [if_neg hc]
    refine Ensures.bind (ensures_self _) fun need _ => ?_
    refine Ensures.bind (allocateFresh_geom need.toNat [] p) ?_
    rintro ⟨fresh, p'⟩ h
    cases fresh with
    | none => exact ensures_pure ⟨h, rfl⟩
    | some fresh =>
        refine Ensures.bind (ensures_self _) fun _ _ => ensures_pure ⟨h, ?_⟩
        simp

theorem popBlocks_geom (n : Nat) (blocks : List Int) (p : BlockPool α) :
    (popBlocks n blocks p).Ensures fun r => r.2.geom = p.geom := by
  induction n generalizing blocks p with
  | zero => exact ensures_ok rfl
  | succ n ih =>
      rw [popBlocks]
      cases blocks.getLast? with
      | none => exact ensures_error _
      | some block =>
          exact Ensures.bind (p.release_geom block) fun p' h =>
            (ih _ p').mono fun _ h' => h'.trans h

end BlockTable

namespace SharedPool

theorem use_geom (s : SharedPool α) (u : PoolUse) :
    (s.use u).Ensures fun s' => s'.pool.geom = s.pool.geom := by
  unfold use
  cases u with
  | allocate =>
      refine Ensures.bind s.pool.allocate_geom ?_
      rintro ⟨block, p⟩ h
      cases block with
      | error status => exact ensures_pure h
      | ok block => exact ensures_pure h
  | release i =>
      simp only
      cases s.others[i]? with
      | none => exact ensures_pure rfl
      | some block => exact Ensures.bind (s.pool.release_geom block) fun p h => ensures_pure h

end SharedPool

/-! ### One cache

An append that succeeds counts its tokens at layer 0 and expects the next layer.  One that fails
has counted nothing, and only at layer 0 can it fail for want of blocks. -/

namespace PagedKvCache

theorem destroy_geom (c : PagedKvCache) (p : BlockPool α) :
    (c.destroy p).Ensures fun p' => p'.geom = p.geom := by
  unfold destroy BlockTable.freeAll
  refine Ensures.bind (Ensures.bind (BlockTable.releaseAll_geom c.table.blocks p)
    (Q := fun r => r.2.geom = p.geom) fun p' h => ensures_pure h) ?_
  rintro ⟨table, p'⟩ h
  exact ensures_pure h

/-- A truncation to a length the cache has. -/
theorem truncate_counts {n : Nat} (h : n ≤ c.length) (p : BlockPool α) :
    (c.truncate n p).Ensures fun r => r.2.2.geom = p.geom ∧ r.2.1.nextLayer = 0 ∧
      r.2.1.length = n := by
  unfold truncate BlockTable.truncate
  have hin : ¬((n : Int) < 0 ∨ (c.table.numTokens : Int) < n) := by
    have : n ≤ c.table.numTokens := h
    omega
  simp only [if_neg hin]
  refine Ensures.bind (Ensures.bind (BlockTable.popBlocks_geom _ _ p)
    (Q := fun r => r.1 = .ok () ∧ r.2.2.geom = p.geom ∧ r.2.1.numTokens = n) ?_) ?_
  · rintro ⟨blocks, p'⟩ hgeom
    exact ensures_pure ⟨rfl, hgeom, Int.toNat_natCast n⟩
  · rintro ⟨truncated, table, p'⟩ ⟨hok, hgeom, hlen⟩
    simp only at hok hgeom hlen
    subst hok
    exact ensures_pure ⟨hgeom, rfl, hlen⟩

/-- What an append that succeeds has counted. -/
structure Counted (geom : CacheGeometry) (c : PagedKvCache) (a : LayerAppend α)
    (c' : PagedKvCache) : Prop where
  expected : a.layer = c.nextLayer
  nextLayer : c'.nextLayer = (a.layer + 1).tmod geom.numLayers
  length : c'.length = c.length + if a.layer = 0 then a.k.dim 0 else 0

/-- What an append that fails has left alone.  Only layer 0 can find the pool empty. -/
structure Uncounted (c : PagedKvCache) (a : LayerAppend α) (status : Status)
    (c' : PagedKvCache) : Prop where
  nextLayer : c'.nextLayer = c.nextLayer
  length : c'.length = c.length
  layer : status.code = .resourceExhausted → a.layer = 0

/-- An append, by its status. -/
def Appends (p : BlockPool α) (c : PagedKvCache) (a : LayerAppend α)
    (r : StatusOr Unit × PagedKvCache × BlockPool α) : Prop :=
  r.2.2.geom = p.geom ∧ match r.1 with
    | .ok _ => Counted p.geom c a r.2.1
    | .error status => Uncounted c a status r.2.1

private theorem uncounted_invalid (c : PagedKvCache) (a : LayerAppend α) (message : String) :
    Uncounted c a (invalidArgumentError message) c :=
  ⟨rfl, rfl, fun h => by simp [invalidArgumentError] at h⟩

theorem validateAppend_code {cls : String} {geom : CacheGeometry} {layer : Int} {k v : Tensor α}
    {status : Status} (h : validateAppend cls geom layer k v = .error status) :
    status.code = .invalidArgument := by
  have hblock : ∀ (t : Tensor α) role status, requireAppendBlock cls t geom role = .error status →
      status.code = .invalidArgument := by
    intro t role status h
    unfold requireAppendBlock at h
    split at h
    · cases h; rfl
    · split at h
      · cases h; rfl
      · split at h
        · cases h; rfl
        · split at h
          · cases h; rfl
          · cases h
  unfold validateAppend at h
  simp only [bind, Except.bind] at h
  split at h
  · cases h; rfl
  · cases hk : requireAppendBlock cls k geom "k" with
    | error s => simp only [hk] at h; cases h; exact hblock _ _ _ hk
    | ok _ =>
        simp only [hk] at h
        cases hv : requireAppendBlock cls v geom "v" with
        | error s => simp only [hv] at h; cases h; exact hblock _ _ _ hv
        | ok _ =>
            simp only [hv] at h
            split at h
            · cases h; rfl
            · cases h

/-- **An append** counts its tokens once, at layer 0, and moves to the next layer. -/
theorem append_counts (c : PagedKvCache) (a : LayerAppend α) (p : BlockPool α) :
    (c.append a.layer a.k a.v p).Ensures (Appends p c a) := by
  unfold append
  cases hval : validateAppend "PagedKvCache" p.geom a.layer a.k a.v with
  | error status =>
      refine ensures_pure ⟨rfl, rfl, rfl, fun h => ?_⟩
      rw [validateAppend_code hval] at h
      cases h
  | ok _ =>
      simp only
      by_cases hl : a.layer = c.nextLayer
      · rw [if_neg (by simp [hl])]
        unfold openLayer
        by_cases h0 : a.layer = 0
        · rw [if_pos h0]
          refine Ensures.bind (Ensures.bind (c.table.appendTokens_counts (a.k.dim 0) p)
            (Q := fun r => r.2.2.geom = p.geom ∧ r.2.1.nextLayer = c.nextLayer ∧
              r.2.1.length = c.length + if r.1.isOk then a.k.dim 0 else 0) ?_) ?_
          · rintro ⟨grown, table, p'⟩ ⟨hgeom, hlen⟩
            cases grown with
            | error status => exact ensures_pure ⟨hgeom, rfl, hlen⟩
            | ok slots => exact ensures_pure ⟨hgeom, rfl, hlen⟩
          · rintro ⟨opened, c', p'⟩ ⟨hgeom, hnext, hlen⟩
            simp only at hgeom hnext hlen
            cases opened with
            | error status => exact ensures_pure ⟨hgeom, hnext, hlen, fun _ => h0⟩
            | ok _ =>
                refine Ensures.bind (ensures_self _) fun _ _ => ?_
                refine Ensures.bind (ensures_self _) fun _ _ => ensures_pure ⟨hgeom, hl, ?_, ?_⟩
                · show (a.layer + 1).tmod p'.geom.numLayers = _
                  rw [hgeom]
                · rw [if_pos h0]
                  exact hlen
        · rw [if_neg h0]
          by_cases ht : a.k.dim 0 = c.pendingSlots.length
          · rw [if_neg (by simp [ht]), pure_bind]
            refine Ensures.bind (ensures_self _) fun _ _ => ?_
            refine Ensures.bind (ensures_self _) fun _ _ => ensures_pure ⟨rfl, hl, rfl, ?_⟩
            rw [if_neg h0]
            rfl
          · rw [if_pos ht, pure_bind]
            exact ensures_pure ⟨rfl, uncounted_invalid c a _⟩
      · rw [if_pos hl]
        exact ensures_pure ⟨rfl, uncounted_invalid c a _⟩

end PagedKvCache

/-! ### The caches of a forward

The appends to one cache are those of its member, in their order.  What the others are given
does not touch its counters. -/

/-- The tokens some appends count. -/
def countOf (appends : List (LayerAppend α)) : Nat :=
  (appends.map fun a => if a.layer = 0 then a.k.dim 0 else 0).sum

/-- The layer that is expected after some appends. -/
def expectedAfter (geom : CacheGeometry) (next : Int) (appends : List (LayerAppend α)) : Int :=
  appends.foldl (fun _ a => (a.layer + 1).tmod geom.numLayers) next

/-- What appends that all succeed make of the counters of a cache. -/
structure CountedAll (geom : CacheGeometry) (c : PagedKvCache) (appends : List (LayerAppend α))
    (c' : PagedKvCache) : Prop where
  length : c'.length = c.length + countOf appends
  nextLayer : c'.nextLayer = expectedAfter geom c.nextLayer appends

theorem CountedAll.nil (geom : CacheGeometry) (c : PagedKvCache) :
    CountedAll geom c ([] : List (LayerAppend α)) c := ⟨rfl, rfl⟩

theorem CountedAll.cons {geom : CacheGeometry} {c c' c'' : PagedKvCache} {a : LayerAppend α}
    {rest : List (LayerAppend α)} (h : PagedKvCache.Counted geom c a c')
    (h' : CountedAll geom c' rest c'') : CountedAll geom c (a :: rest) c'' := by
  refine ⟨?_, ?_⟩
  · rw [h'.length, h.length, Nat.add_assoc]
    rfl
  · rw [h'.nextLayer, h.nextLayer]
    rfl

/-- What a forward leaves of one of its caches. -/
structure Ran (geom : CacheGeometry) (c : PagedKvCache) (appends : List (LayerAppend α))
    (ran : StatusOr Unit) (c' : PagedKvCache) : Prop where
  le : c.length ≤ c'.length
  all : ran = .ok () → CountedAll geom c appends c'

/-- **A forward's effects** on the counters of every cache. -/
theorem runEffects_counts (effects : List (ForwardEffect α)) :
    ∀ (caches : List PagedKvCache) (s : SharedPool α),
      (runEffects effects caches s).Ensures fun r =>
        r.2.2.pool.geom = s.pool.geom ∧ r.2.1.length = caches.length ∧
          ∀ (b : Nat) c, caches[b]? = some c → ∃ c', r.2.1[b]? = some c' ∧
            Ran s.pool.geom c (appendsTo b effects) r.1 c' := by
  induction effects with
  | nil =>
      intro caches s
      exact ensures_pure ⟨rfl, rfl, fun b c hc => ⟨c, hc, le_refl _, fun _ => .nil _ c⟩⟩
  | cons effect rest ih =>
      intro caches s
      cases effect with
      | other u =>
          rw [runEffects]
          refine Ensures.bind (s.use_geom u) fun s' hs' => (ih caches s').mono ?_
          rintro r ⟨hgeom, hlen, hran⟩
          rw [hs'] at hgeom hran
          exact ⟨hgeom, hlen, hran⟩
      | append member layer k v =>
          rw [runEffects]
          cases hc : caches[member]? with
          | none =>
              simp only
              refine (ih caches s).mono ?_
              rintro r ⟨hgeom, hlen, hran⟩
              refine ⟨hgeom, hlen, fun b c hb => ?_⟩
              have hne : member ≠ b := by
                rintro rfl
                rw [hc] at hb
                cases hb
              rw [appendsTo, if_neg hne]
              exact hran b c hb
          | some c =>
              have hlt : member < caches.length := (List.getElem?_eq_some_iff.mp hc).1
              refine Ensures.bind (c.append_counts ⟨layer, k, v⟩ s.pool) ?_
              rintro ⟨appended, c', pool⟩ ⟨hgeom, happ⟩
              simp only at hgeom happ ⊢
              cases appended with
              | error status =>
                  refine ensures_pure ⟨hgeom, List.length_set, fun b d hb => ?_⟩
                  by_cases hbm : b = member
                  · subst hbm
                    rw [hc] at hb
                    cases hb
                    exact ⟨c', List.getElem?_set_self hlt, happ.length.ge, fun h => by cases h⟩
                  · refine ⟨d, (List.getElem?_set_ne (Ne.symm hbm)).trans hb, le_refl _, ?_⟩
                    intro h
                    cases h
              | ok _ =>
                  refine (ih (caches.set member c') ⟨pool, s.others⟩).mono ?_
                  rintro r ⟨hgeom', hlen, hran⟩
                  rw [hgeom] at hgeom' hran
                  refine ⟨hgeom', hlen.trans List.length_set, fun b d hb => ?_⟩
                  by_cases hbm : b = member
                  · subst hbm
                    rw [hc] at hb
                    cases hb
                    obtain ⟨c'', hc'', hle, hall⟩ := hran b c' (List.getElem?_set_self hlt)
                    refine ⟨c'', hc'', ?_, fun hok => ?_⟩
                    · exact le_trans (by rw [happ.length]; exact Nat.le_add_right _ _) hle
                    · rw [appendsTo, if_pos rfl]
                      exact .cons happ (hall hok)
                  · rw [appendsTo, if_neg (Ne.symm hbm)]
                    exact hran b d ((List.getElem?_set_ne (Ne.symm hbm)).trans hb)

/-- A standalone forward that is stopped for want of room was stopped at a layer 0. -/
theorem runEffects_exhausted (effects : List (ForwardEffect α)) :
    ∀ (c : PagedKvCache) (s : SharedPool α), (runEffects effects [c] s).Ensures fun r =>
      ∀ status, r.1 = .error status → status.code = .resourceExhausted →
        ∃ done a rest c', appendsTo 0 effects = done ++ a :: rest ∧ a.layer = 0 ∧ r.2.1 = [c'] ∧
          CountedAll s.pool.geom c done c' := by
  induction effects with
  | nil => exact fun c s => ensures_pure fun status h => by cases h
  | cons effect rest ih =>
      intro c s
      cases effect with
      | other u =>
          rw [runEffects]
          refine Ensures.bind (s.use_geom u) fun s' hs' => (ih c s').mono fun r h => ?_
          rw [hs'] at h
          exact h
      | append member layer k v =>
          rw [runEffects, appendsTo]
          cases member with
          | succ member => exact ih c s
          | zero =>
              refine Ensures.bind (c.append_counts ⟨layer, k, v⟩ s.pool) ?_
              rintro ⟨appended, c', pool⟩ ⟨hgeom, happ⟩
              simp only at hgeom happ ⊢
              rw [if_pos trivial]
              cases appended with
              | error status =>
                  refine ensures_pure fun status' h hcode => ?_
                  cases h
                  exact ⟨[], _, _, c', rfl, happ.layer hcode, rfl,
                    happ.length, happ.nextLayer⟩
              | ok _ =>
                  refine (ih c' ⟨pool, s.others⟩).mono fun r h status hr hcode => ?_
                  obtain ⟨done, a, more, c'', hsplit, hlayer, hcaches, hall⟩ := h status hr hcode
                  rw [hgeom] at hall
                  exact ⟨_ :: done, a, more, c'', by rw [hsplit]; rfl, hlayer, hcaches,
                    .cons happ hall⟩

/-! ### A call of a model that keeps its contract

The layers of a member come in order, so its tokens are counted once and the next forward starts
at layer 0 again. -/

/-- All the layers of one forward count its tokens, and lead back to layer 0. -/
theorem Layered.counts {geom : CacheGeometry} {tokens : Nat} {appends : List (LayerAppend α)}
    (h : Layered geom tokens appends) (hlen : (appends.length : Int) = geom.numLayers)
    (hpos : 0 < geom.numLayers) (next : Int) :
    countOf appends = tokens ∧ expectedAfter geom next appends = 0 := by
  have hne : appends ≠ [] := by
    rintro rfl
    simp at hlen
    omega
  refine ⟨?_, ?_⟩
  · obtain ⟨a, rest, rfl⟩ := List.exists_cons_of_ne_nil hne
    have hfirst : a.layer = 0 := h.layer 0 a rfl
    have hrest : (rest.map fun a => if a.layer = 0 then a.k.dim 0 else 0).sum = 0 := by
      refine List.sum_eq_zero fun n hn => ?_
      obtain ⟨b, hb, rfl⟩ := List.mem_map.mp hn
      obtain ⟨i, hi⟩ := List.mem_iff_getElem?.mp hb
      have hlayer : b.layer = (i + 1 : Nat) := h.layer (i + 1) b (by simpa using hi)
      rw [if_neg (by omega)]
    rw [countOf, List.map_cons, List.sum_cons, hrest, if_pos hfirst, Nat.add_zero]
    exact h.tokens a (by simp)
  · obtain ⟨front, last, rfl⟩ := (List.eq_nil_or_concat appends).resolve_left hne
    rw [List.concat_eq_append] at hlen h ⊢
    have hlast : last.layer = front.length := h.layer front.length last (by simp)
    have hend : last.layer + 1 = geom.numLayers := by
      rw [hlast, ← hlen]
      simp
    rw [expectedAfter, List.foldl_append]
    show (last.layer + 1).tmod geom.numLayers = 0
    rw [hend]
    exact Int.tmod_self

/-- What a call leaves of the counters of its caches. -/
structure CallCounts (m : Model σ α) (request : ForwardRequest) (s : SharedPool α)
    (called : Model.Called σ α) : Prop where
  geom : called.shared.pool.geom = s.pool.geom
  caches : called.caches.length = request.seqs.length
  le : ∀ (b : Nat) fs, request.seqs[b]? = some fs → ∃ c, called.caches[b]? = some c ∧
    fs.cache.length ≤ c.length
  answered : ∀ logits, called.logits = .ok logits → ∀ (b : Nat) fs, request.seqs[b]? = some fs →
    ∃ c, called.caches[b]? = some c ∧ c.nextLayer = 0 ∧
      c.length = fs.cache.length + fs.tokenIds.length
  exhausted : ∀ fs status, request = ⟨false, [fs]⟩ → called.logits = .error status →
    status.code = .resourceExhausted → ∃ c, called.caches = [c] ∧ c.nextLayer = 0 ∧
      c.length = fs.cache.length

/-- **A call of a model that keeps its contract** counts every token of an answered forward, and
nothing of a standalone one that is refused for want of room. -/
theorem Model.call_counts [Zero α] {may : Answers α} {m : Model σ α} (hm : m.Contract may)
    (state : σ) (request : ForwardRequest) (s : SharedPool α)
    (hformed : ∀ fs ∈ request.seqs, fs.Formed) (hgeom : s.pool.geom = m.geometry)
    (hpos : 0 < m.geometry.numLayers) :
    (m.call state request s).Ensures (CallCounts m request s) := by
  intro called hcall
  unfold Model.call at hcall
  obtain ⟨⟨ran, caches, shared⟩, hrun, hrest⟩ := bind_eq_ok.mp hcall
  obtain ⟨hg, hlen, hran⟩ := runEffects_counts _ _ _ _ hrun
  simp only at hg hlen hran
  have hmem : ∀ (b : Nat) fs, request.seqs[b]? = some fs → ∃ c, caches[b]? = some c ∧
      Ran s.pool.geom fs.cache (appendsTo b (m.forward state request s.pool).1.effects) ran c := by
    intro b fs hb
    exact hran b fs.cache (by rw [List.getElem?_map, hb]; rfl)
  -- the call is the run of its effects, with the model's answer if they all succeed
  have hcalled : called.caches = caches ∧ called.shared = shared ∧
      ((∃ status, ran = .error status ∧ called.logits = .error status) ∨
        (ran = .ok () ∧ called.logits = (m.forward state request s.pool).1.logits)) := by
    cases ran with
    | error status => cases hrest; exact ⟨rfl, rfl, Or.inl ⟨status, rfl, rfl⟩⟩
    | ok _ => cases hrest; exact ⟨rfl, rfl, Or.inr ⟨rfl, rfl⟩⟩
  obtain ⟨rfl, rfl, hlogits⟩ := hcalled
  refine ⟨hg, by simpa using hlen, ?_, ?_, ?_⟩
  · intro b fs hb
    obtain ⟨c, hc, hr⟩ := hmem b fs hb
    exact ⟨c, hc, hr.le⟩
  · intro logits hans b fs hb
    rcases hlogits with ⟨status, _, herr⟩ | ⟨hok, heq⟩
    · rw [hans] at herr
      cases herr
    · obtain ⟨c, hc, hr⟩ := hmem b fs hb
      have hall := hr.all hok
      have hlay := hm.layered state request s.pool hformed b fs hb
      have hnum := (hm.answers state request s.pool logits hformed (heq ▸ hans) b fs hb).1
      obtain ⟨hcount, hnext⟩ := hlay.counts hnum hpos fs.cache.nextLayer
      refine ⟨c, hc, ?_, ?_⟩
      · rw [hall.nextLayer, hgeom, hnext]
      · rw [hall.length, hcount]
  · rintro fs status rfl hans hcode
    have hfs : fs.Formed := hformed fs (by simp)
    rcases hlogits with ⟨status', hrun', herr⟩ | ⟨hok, heq⟩
    · rw [hans] at herr
      cases herr
      obtain ⟨done, a, rest, c, hsplit, hlayer, hcaches, hall⟩ :=
        runEffects_exhausted _ fs.cache s _ hrun status hrun' hcode
      -- the appends go layer by layer, so one at layer 0 is the first
      have hlay := hm.layered state ⟨false, [fs]⟩ s.pool hformed 0 fs rfl
      rw [hsplit] at hlay
      have hzero : a.layer = done.length := hlay.layer done.length a (by simp)
      obtain rfl : done = [] := List.length_eq_zero_iff.mp (by omega)
      exact ⟨c, hcaches, hall.nextLayer.trans hfs.committed, hall.length⟩
    · obtain ⟨_, hnone⟩ := hm.refuses state fs s.pool status hfs (heq ▸ hans)
      obtain ⟨c, hc, hr⟩ := hmem 0 fs rfl
      have hall := hr.all hok
      rw [hnone hcode] at hall
      obtain ⟨c', hc'⟩ := List.length_eq_one_iff.mp (show called.caches.length = 1 from hlen)
      rw [hc'] at hc
      cases hc
      exact ⟨c, hc', hall.nextLayer.trans hfs.committed, hall.length⟩

end InferenceEngine
