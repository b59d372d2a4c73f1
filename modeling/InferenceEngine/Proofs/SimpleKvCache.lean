/-
The contiguous cache is a log.

Its stores have one cell for each (layer, head, position, coordinate), so an append writes
cells that no committed row of any layer uses, and a view reads back exactly the rows of
its layer.

The checks in front of an append are the same for both caches, so what they accept and
refuse is settled here, for any class name.
-/
import InferenceEngine.KvCache.KvLog
import Mathlib.Data.List.GetD
import Mathlib.Tactic.Ring
import Mathlib.Tactic.Linarith

namespace InferenceEngine

open FlatMemory

variable {α : Type} {geom : CacheGeometry} {layer : Int} {k v : Tensor α}

/-! ### What an append must look like

Both caches run the same checks in the same order.  `AppendShape` is what they let pass, and a
refusal changes nothing, because nothing has been written yet. -/

/-- A token-major block `[T >= 1, Hkv, d]`. -/
structure BlockShape (geom : CacheGeometry) (t : Tensor α) : Prop where
  rank : t.rank = 3
  contiguous : t.contiguous = true
  dtype : t.dtype = .float32
  tokens : 1 ≤ t.dim 0
  heads : (t.dim 1 : Int) = geom.numKvHeads
  dim : (t.dim 2 : Int) = geom.headDim

/-- The arguments every check accepts. -/
structure AppendShape (geom : CacheGeometry) (layer : Int) (k v : Tensor α) : Prop where
  layer_range : 0 ≤ layer ∧ layer < geom.numLayers
  keys : BlockShape geom k
  values : BlockShape geom v
  tokens : k.dim 0 = v.dim 0

theorem requireAppendBlock_ok {cls role : String} {t : Tensor α} (h : BlockShape geom t) :
    requireAppendBlock cls t geom role = .ok () := by
  unfold requireAppendBlock
  have := h.tokens
  rw [if_neg (by simp [h.rank]), if_neg (by simp [h.contiguous]), if_neg (by simp [h.dtype]),
    if_neg (by simp [h.heads, h.dim]; omega)]

theorem requireAppendBlock_rejects (cls role : String) {t : Tensor α} (h : ¬BlockShape geom t) :
    ∃ message, requireAppendBlock cls t geom role = .error (invalidArgumentError message) := by
  unfold requireAppendBlock
  split
  · exact ⟨_, rfl⟩
  · split
    · exact ⟨_, rfl⟩
    · split
      · exact ⟨_, rfl⟩
      · split
        · exact ⟨_, rfl⟩
        · rename_i hrank hcontig hdtype hdims
          refine absurd ⟨?_, ?_, ?_, ?_, ?_, ?_⟩ h
          · simpa using hrank
          · simpa using hcontig
          · simpa using hdtype
          · omega
          · omega
          · omega

theorem validateAppend_ok (cls : String) (h : AppendShape geom layer k v) :
    validateAppend cls geom layer k v = .ok () := by
  unfold validateAppend
  rw [requireAppendBlock_ok h.keys, requireAppendBlock_ok h.values]
  simp [h.layer_range, h.tokens, bind, Except.bind, pure, Except.pure]

theorem validateAppend_rejects (cls : String) (h : ¬AppendShape geom layer k v) :
    ∃ message, validateAppend cls geom layer k v = .error (invalidArgumentError message) := by
  unfold validateAppend
  by_cases hl : 0 ≤ layer ∧ layer < geom.numLayers
  · by_cases hk : BlockShape geom k
    · by_cases hv : BlockShape geom v
      · have ht : k.dim 0 ≠ v.dim 0 := fun ht => h ⟨hl, hk, hv, ht⟩
        rw [requireAppendBlock_ok hk, requireAppendBlock_ok hv]
        simp only [hl.1, hl.2, ht, decide_true, Bool.and_self, Bool.not_true,
          Bool.false_eq_true, if_false, ne_eq, not_false_eq_true, if_true, bind, Except.bind,
          pure, Except.pure]
        exact ⟨_, rfl⟩
      · obtain ⟨message, hm⟩ := requireAppendBlock_rejects cls "v" hv
        rw [requireAppendBlock_ok hk, hm]
        simp only [hl.1, hl.2, decide_true, Bool.and_self, Bool.not_true, Bool.false_eq_true,
          if_false, bind, Except.bind]
        exact ⟨_, rfl⟩
    · obtain ⟨message, hm⟩ := requireAppendBlock_rejects cls "k" hk
      rw [hm]
      simp only [hl.1, hl.2, decide_true, Bool.and_self, Bool.not_true, Bool.false_eq_true,
        if_false, bind, Except.bind]
      exact ⟨_, rfl⟩
  · have hl' : (decide (0 ≤ layer) && decide (layer < geom.numLayers)) = false := by
      simpa using hl
    simp only [hl', Bool.not_false, if_true, bind, Except.bind, throw, throwThe,
      MonadExceptOf.throw]
    exact ⟨_, rfl⟩

/-- What `view` accepts is a layer of the geometry. -/
theorem validateViewLayer_ok (cls : String) (h : 0 ≤ layer ∧ layer < geom.numLayers) :
    validateViewLayer cls geom layer = .ok () := by
  simp [validateViewLayer, h]

theorem validateViewLayer_rejects (cls : String) (h : ¬(0 ≤ layer ∧ layer < geom.numLayers)) :
    ∃ message, validateViewLayer cls geom layer = .error (invalidArgumentError message) := by
  have h' : (decide (0 ≤ layer) && decide (layer < geom.numLayers)) = false := by
    simpa using h
  simp only [validateViewLayer, h', Bool.not_false, if_true]
  exact ⟨_, rfl⟩

/-! ### Rows and views

A store is a flat array with one cell for each layer, head, position and coordinate.  The
offsets are injective, so a row that is written leaves every other row alone. -/

/-- **A view shows its elements.** Two tensors that are head-major for the same rows agree. -/
theorem IsHeadMajor.values_eq {rows : List (Int → Int → α)} {t t' : Tensor α}
    (hgeom : 0 ≤ geom.numKvHeads ∧ 0 < geom.headDim) (h : IsHeadMajor geom rows t)
    (h' : IsHeadMajor geom rows t') : t.dims = t'.dims ∧ t.values = t'.values := by
  have hdims : t.dims = t'.dims := h.dims.trans h'.dims.symm
  have hnumel : t.numel = t'.numel := by
    unfold Tensor.numel
    rw [hdims]
  refine ⟨hdims, ?_⟩
  unfold Tensor.values
  rw [hnumel]
  refine List.map_congr_left ?_
  intro i hi
  rw [mem_indices] at hi
  have hn : (t'.numel : Int) = geom.numKvHeads * rows.length * geom.headDim := by
    unfold Tensor.numel
    rw [h'.dims]
    simp only [List.prod_cons, List.prod_nil, Nat.mul_one, Nat.cast_mul]
    rw [Int.toNat_of_nonneg hgeom.1, Int.toNat_of_nonneg hgeom.2.le]
    ring
  rw [hn] at hi
  obtain ⟨row, e, hr0, hr, he0, he, rfl⟩ := radix_split hgeom.2 hi.1 hi.2
  have hlen : 0 < (rows.length : Int) := by
    rcases Nat.eq_zero_or_pos rows.length with hz | hp
    · rw [hz] at hr
      omega
    · omega
  obtain ⟨hd, pos, hd0, hdlt, hp0, hp, rfl⟩ := radix_split hlen hr0 hr
  obtain ⟨n, rfl⟩ := Int.eq_ofNat_of_zero_le hp0
  have hn' : n < rows.length := by omega
  rw [h.data hd ⟨hd0, hdlt⟩ e ⟨he0, he⟩ n hn', h'.data hd ⟨hd0, hdlt⟩ e ⟨he0, he⟩ n hn']

section

variable [Zero α]

theorem clip_congr {f g : Int → Int → α}
    (h : ∀ h, 0 ≤ h ∧ h < geom.numKvHeads → ∀ e, 0 ≤ e ∧ e < geom.headDim → f h e = g h e) :
    clip geom f = clip geom g := by
  funext a b
  unfold clip
  split
  · rename_i hab
    exact h a hab.1 b hab.2
  · rfl

theorem clip_apply {f : Int → Int → α} {h e : Int} (hh : 0 ≤ h ∧ h < geom.numKvHeads)
    (he : 0 ≤ e ∧ e < geom.headDim) : clip geom f h e = f h e :=
  if_pos ⟨hh, he⟩

end

namespace SimpleKvCache

variable {c : SimpleKvCache α}

/-- What holds of a contiguous cache however it is used. -/
structure Wf (c : SimpleKvCache α) : Prop where
  layers : c.fill.length = c.geom.numLayers.toNat
  layers_pos : 0 < c.geom.numLayers
  heads_pos : 0 < c.geom.numKvHeads
  dim_pos : 0 < c.geom.headDim
  fill_le : ∀ n ∈ c.fill, (n : Int) ≤ c.capacity

theorem create_wf [Zero α] {capacity : Int} (h : create geom capacity = .ok c) :
    Wf c ∧ c.geom = geom ∧ c.capacity = capacity ∧ (∀ layer, c.layerFill layer = 0) := by
  unfold create at h
  split at h
  · cases h
  · split at h
    · cases h
    · split at h
      · cases h
      · rename_i hgeom hcap _
        cases h
        refine ⟨⟨by simp, ?_, ?_, ?_, ?_⟩, rfl, rfl, ?_⟩
        · show 0 < geom.numLayers
          omega
        · show 0 < geom.numKvHeads
          omega
        · show 0 < geom.headDim
          omega
        · intro n hn
          rw [List.eq_of_mem_replicate hn]
          show (0 : Int) ≤ capacity
          omega
        · intro l
          show List.getD (List.replicate _ 0) _ 0 = 0
          rw [List.getD_eq_getElem?_getD, List.getElem?_replicate]
          split <;> rfl

/-- The offset of one element in a store. -/
def storeCell (c : SimpleKvCache α) (layer h pos e : Int) : Int :=
  ((layer * c.geom.numKvHeads + h) * c.capacity + pos) * c.geom.headDim + e

theorem storeCell_inj {l h pos e l' h' pos' e' : Int}
    (hh : 0 ≤ h ∧ h < c.geom.numKvHeads) (hh' : 0 ≤ h' ∧ h' < c.geom.numKvHeads)
    (hp : 0 ≤ pos ∧ pos < c.capacity) (hp' : 0 ≤ pos' ∧ pos' < c.capacity)
    (he : 0 ≤ e ∧ e < c.geom.headDim) (he' : 0 ≤ e' ∧ e' < c.geom.headDim)
    (heq : c.storeCell l h pos e = c.storeCell l' h' pos' e') :
    l = l' ∧ h = h' ∧ pos = pos' ∧ e = e' := by
  obtain ⟨h1, hee⟩ := radix_inj he.1 he.2 he'.1 he'.2 heq
  obtain ⟨h2, hpp⟩ := radix_inj hp.1 hp.2 hp'.1 hp'.2 h1
  obtain ⟨hll, hhh⟩ := radix_inj hh.1 hh.2 hh'.1 hh'.2 h2
  exact ⟨hll, hhh, hpp, hee⟩

private theorem storeCell_add (l h pos j : Int) :
    c.storeCell l h pos 0 + j = c.storeCell l h pos j := by
  unfold storeCell
  ring

private theorem scatter_eq (layer : Int) (tDim old : Nat) (src store : Int → α) :
    c.scatter layer tDim old src store
      = scatterRows (fun t h => c.storeCell layer h (old + t) 0) src tDim c.geom.numKvHeads
          c.geom.headDim store := by
  unfold scatter scatterRows
  simp only [copyLoop_eq_memcpy]
  unfold storeCell
  simp only [Int.add_zero]

private theorem storeCell_covered {l h pos e l' h' pos' : Int}
    (hh : 0 ≤ h ∧ h < c.geom.numKvHeads) (hh' : 0 ≤ h' ∧ h' < c.geom.numKvHeads)
    (hp : 0 ≤ pos ∧ pos < c.capacity) (hp' : 0 ≤ pos' ∧ pos' < c.capacity)
    (he : 0 ≤ e ∧ e < c.geom.headDim)
    (hlo : c.storeCell l' h' pos' 0 ≤ c.storeCell l h pos e)
    (hhi : c.storeCell l h pos e < c.storeCell l' h' pos' 0 + c.geom.headDim) :
    l' = l ∧ h' = h ∧ pos' = pos := by
  obtain ⟨j, hj⟩ : ∃ j, c.storeCell l h pos e = c.storeCell l' h' pos' 0 + j :=
    ⟨_, (add_sub_cancel _ _).symm⟩
  rw [hj] at hlo hhi
  rw [storeCell_add] at hj
  obtain ⟨hl, hhh, hpp, _⟩ := storeCell_inj hh hh' hp hp' he (by omega) hj
  exact ⟨hl.symm, hhh.symm, hpp.symm⟩

/-- The copy writes row `t` of the source at position `old + t`. -/
private theorem scatter_new {tDim old : Nat} {src store : Int → α} {t : Nat} {h e : Int}
    (hfit : ((old + tDim : Nat) : Int) ≤ c.capacity) (ht : t < tDim)
    (hh : 0 ≤ h ∧ h < c.geom.numKvHeads) (he : 0 ≤ e ∧ e < c.geom.headDim) :
    c.scatter layer tDim old src store (c.storeCell layer h (old + t : Nat) e)
      = src ((t * c.geom.numKvHeads + h) * c.geom.headDim + e) := by
  have hplace : c.storeCell layer h (old + t : Nat) e
      = c.storeCell layer h ((old : Int) + (t : Int)) 0 + e := by
    rw [storeCell_add, Nat.cast_add]
  rw [scatter_eq, hplace]
  refine scatterRows_at (by omega) hh he ?_
  intro t' ht' h' hh' hlo hhi
  rw [storeCell_add] at hlo hhi
  obtain ⟨_, hhh, hpp⟩ := storeCell_covered hh hh' (by omega) (by omega) he hlo hhi
  exact ⟨by omega, hhh⟩

/-- The copy leaves every other layer, and every earlier position of its own, alone. -/
private theorem scatter_old {tDim old : Nat} {src store : Int → α} {l pos h e : Int}
    (hfit : ((old + tDim : Nat) : Int) ≤ c.capacity) (hp : 0 ≤ pos ∧ pos < c.capacity)
    (hother : l ≠ layer ∨ pos < old)
    (hh : 0 ≤ h ∧ h < c.geom.numKvHeads) (he : 0 ≤ e ∧ e < c.geom.headDim) :
    c.scatter layer tDim old src store (c.storeCell l h pos e)
      = store (c.storeCell l h pos e) := by
  rw [scatter_eq]
  refine scatterRows_other ?_
  intro t ht h' hh' hcov
  obtain ⟨hl, _, hpp⟩ := storeCell_covered hh hh' hp (by omega) he hcov.1 hcov.2
  rcases hother with hne | hlt
  · exact hne hl.symm
  · omega

/-! ### The operations on the log

The log of a layer is the list of the rows it holds.  An append adds to it, a view shows it, and
a truncation shortens all of them to one length. -/

theorem layerFill_le (hw : c.Wf) (layer : Int) :
    c.layerFill layer = 0 ∨ (c.layerFill layer : Int) ≤ c.capacity := by
  unfold layerFill
  rw [List.getD_eq_getElem?_getD]
  cases hl : c.fill[layer.toNat]? with
  | none => exact Or.inl rfl
  | some n => exact Or.inr (hw.fill_le n (List.mem_of_getElem? hl))

theorem layerFill_set (hw : c.Wf) (hl : 0 ≤ layer ∧ layer < c.geom.numLayers) (n : Nat)
    {l : Int} (hl' : 0 ≤ l ∧ l < c.geom.numLayers) :
    (c.fill.set layer.toNat n).getD l.toNat 0 = if l = layer then n else c.layerFill l := by
  have hlen := hw.layers
  unfold layerFill
  rw [List.getD_eq_getElem?_getD, List.getElem?_set, List.getD_eq_getElem?_getD]
  by_cases h : l = layer
  · subst h
    rw [if_pos rfl, if_pos (by omega), if_pos rfl]
    rfl
  · rw [if_neg (by omega), if_neg h]

theorem length_le (hw : c.Wf) (hl : 0 ≤ layer ∧ layer < c.geom.numLayers) :
    c.length ≤ c.layerFill layer := by
  have hlt : layer.toNat < c.fill.length := by
    have := hw.layers
    omega
  unfold length layerFill
  rw [List.getD_eq_getElem _ _ hlt]
  cases hm : c.fill.min? with
  | none => exact Nat.zero_le _
  | some m => exact (List.min?_eq_some_iff.mp hm).2 _ (List.getElem_mem hlt)

/-- The length is the fill of some layer. -/
theorem exists_length_eq (hw : c.Wf) :
    ∃ l, (0 ≤ l ∧ l < c.geom.numLayers) ∧ c.length = c.layerFill l := by
  have hpos := hw.layers_pos
  have hlen := hw.layers
  have hne : c.fill ≠ [] := by
    intro hc
    rw [hc] at hlen
    simp only [List.length_nil] at hlen
    omega
  unfold length layerFill
  cases hm : c.fill.min? with
  | none => exact absurd (List.min?_eq_none_iff.mp hm) hne
  | some m =>
      obtain ⟨i, hi, hmi⟩ := List.getElem_of_mem (List.min?_eq_some_iff.mp hm).1
      refine ⟨i, by omega, ?_⟩
      rw [Int.toNat_natCast, List.getD_eq_getElem _ _ hi, hmi]
      rfl

theorem append_rejects (h : ¬AppendShape c.geom layer k v) :
    ∃ message, c.append layer k v = (.error (invalidArgumentError message), c) := by
  obtain ⟨message, hm⟩ := validateAppend_rejects "SimpleKvCache" h
  refine ⟨message, ?_⟩
  unfold append
  rw [hm]

/-- No append changes the capacity. -/
theorem append_capacity (layer : Int) (k v : Tensor α) :
    (c.append layer k v).2.capacity = c.capacity := by
  unfold append
  cases validateAppend "SimpleKvCache" c.geom layer k v with
  | error status => rfl
  | ok u =>
      by_cases h : c.capacity < ((c.layerFill layer + k.dim 0 : Nat) : Int)
      · simp only [if_pos h]
      · simp only [if_neg h]

theorem truncate_rejects {n : Int} (h : n < 0 ∨ (c.length : Int) < n) :
    ∃ message, c.truncate n = (.error (invalidArgumentError message), c) := by
  unfold truncate
  rw [if_pos h]
  exact ⟨_, rfl⟩

variable [Zero α]

theorem log_rows (hl : 0 ≤ layer ∧ layer < c.geom.numLayers) :
    c.log.rows layer = (List.range (c.layerFill layer)).map fun pos => c.rowAt layer pos :=
  if_pos hl

theorem log_length (hl : 0 ≤ layer ∧ layer < c.geom.numLayers) :
    (c.log.rows layer).length = c.layerFill layer := by
  rw [log_rows hl, List.length_map, List.length_range]

/-- **An append that fits extends the log of its layer.** -/
theorem append_ok (hw : c.Wf) (hs : AppendShape c.geom layer k v)
    (hfit : ((c.layerFill layer + k.dim 0 : Nat) : Int) ≤ c.capacity) :
    ∃ c', c.append layer k v = (.ok (), c') ∧ c'.Wf ∧ c'.geom = c.geom ∧
      c'.capacity = c.capacity ∧ c'.log = c.log.append layer (appendRows c.geom k v) := by
  have hnot : ¬c.capacity < ((c.layerFill layer + k.dim 0 : Nat) : Int) := by omega
  refine ⟨{ c with
      kStore := c.scatter layer (k.dim 0) (c.layerFill layer) k.data c.kStore
      vStore := c.scatter layer (k.dim 0) (c.layerFill layer) v.data c.vStore
      fill := c.fill.set layer.toNat (c.layerFill layer + k.dim 0) }, ?_, ?_, rfl, rfl, ?_⟩
  · unfold append
    rw [validateAppend_ok _ hs]
    simp only [if_neg hnot]
  · refine ⟨?_, hw.layers_pos, hw.heads_pos, hw.dim_pos, ?_⟩
    · rw [List.length_set]
      exact hw.layers
    · intro n hn
      rcases List.mem_or_eq_of_mem_set hn with hn | rfl
      · exact hw.fill_le n hn
      · exact hfit
  · unfold log KvLog.append
    congr 1
    funext l
    by_cases hl : 0 ≤ l ∧ l < c.geom.numLayers
    · simp only [if_pos hl]
      show (List.range ((c.fill.set layer.toNat _).getD l.toNat 0)).map _ = _
      rw [layerFill_set hw hs.layer_range _ hl]
      have hold : ∀ pos, pos < c.layerFill l → (l ≠ layer ∨ pos < c.layerFill layer) →
          (rowAt { c with
            kStore := c.scatter layer (k.dim 0) (c.layerFill layer) k.data c.kStore
            vStore := c.scatter layer (k.dim 0) (c.layerFill layer) v.data c.vStore
            fill := c.fill.set layer.toNat (c.layerFill layer + k.dim 0) } l pos)
            = c.rowAt l pos := by
        intro pos hpos hother
        have hcap : (pos : Int) < c.capacity := by
          rcases layerFill_le hw l with h0 | hle <;> omega
        unfold rowAt
        congr 1
        · refine clip_congr ?_
          intro h hh e he
          exact scatter_old hfit ⟨by omega, hcap⟩ (by omega) hh he
        · refine clip_congr ?_
          intro h hh e he
          exact scatter_old hfit ⟨by omega, hcap⟩ (by omega) hh he
      by_cases hll : l = layer
      · subst hll
        rw [if_pos rfl, if_pos rfl, List.range_add, List.map_append, List.map_map]
        congr 1
        · refine List.map_congr_left (fun pos hpos => ?_)
          have := List.mem_range.mp hpos
          exact hold pos this (Or.inr this)
        · unfold appendRows
          refine List.map_congr_left (fun t ht => ?_)
          have ht' := List.mem_range.mp ht
          show rowAt _ l (c.layerFill l + t) = _
          unfold rowAt
          congr 1
          · refine clip_congr ?_
            intro h hh e he
            exact scatter_new hfit ht' hh he
          · refine clip_congr ?_
            intro h hh e he
            exact scatter_new hfit ht' hh he
      · rw [if_neg hll, if_neg hll]
        refine List.map_congr_left (fun pos hpos => ?_)
        exact hold pos (List.mem_range.mp hpos) (Or.inl hll)
    · simp only [if_neg hl]
      rw [if_neg (fun hc : l = layer => hl (hc ▸ hs.layer_range))]

private theorem gather_at {fill : Nat} {store : Int → α} {h e : Int} {pos : Nat}
    (hh : 0 ≤ h ∧ h < c.geom.numKvHeads) (hpos : pos < fill)
    (he : 0 ≤ e ∧ e < c.geom.headDim) :
    c.gather layer fill store ((h * fill + pos) * c.geom.headDim + e)
      = store (c.storeCell layer h pos e) := by
  unfold gather
  simp only [copyLoop_eq_memcpy]
  have hrow : 0 ≤ pos * c.geom.headDim + e ∧
      pos * c.geom.headDim + e < fill * c.geom.headDim := by
    refine ⟨?_, radix_lt (by omega) he.2 (by omega)⟩
    have := Int.mul_nonneg (Int.natCast_nonneg pos) (show 0 ≤ c.geom.headDim by omega)
    omega
  have hi : (h * fill + pos) * c.geom.headDim + e
      = h * (fill * c.geom.headDim) + (pos * c.geom.headDim + e) := by ring
  refine foldl_memcpy_of_covered _ _ ⟨h, mem_indices.mpr hh, ?_⟩ ?_
  · rw [hi, Int.mul_assoc]
    omega
  · intro h' _ hlo hhi
    rw [hi, Int.mul_assoc] at hlo hhi
    -- only the copy of head `h` covers the offset
    have hx : h * (fill * c.geom.headDim) + (pos * c.geom.headDim + e)
        = h' * (fill * c.geom.headDim) + (h * (fill * c.geom.headDim)
            + (pos * c.geom.headDim + e) - h' * (fill * c.geom.headDim)) := by ring
    obtain ⟨rfl, _⟩ := radix_inj hrow.1 hrow.2 (by omega) (by omega) hx
    congr 1
    unfold storeCell
    ring

/-- **A view shows the log of its layer.** -/
theorem view_ok (hl : 0 ≤ layer ∧ layer < c.geom.numLayers) :
    ∃ view, c.view layer = .ok view ∧ IsView c.geom (c.log.rows layer) view := by
  refine ⟨_, by unfold view; rw [validateViewLayer_ok _ hl], ?_⟩
  have hmap : ∀ f : TokenRow α → Int → Int → α, (c.log.rows layer).map f
      = (List.range (c.layerFill layer)).map fun pos => f (c.rowAt layer pos) := by
    intro f
    rw [log_rows hl, List.map_map]
    rfl
  refine ⟨?_, ?_⟩
  · rw [hmap]
    refine ⟨by simp [headMajor], rfl, rfl, ?_⟩
    intro h hh e he pos hpos
    simp only [List.length_map, List.length_range, List.getElem_map, List.getElem_range] at hpos ⊢
    refine (gather_at hh hpos he).trans ?_
    exact (clip_apply (f := fun h e => c.kStore (c.storeCell layer h pos e)) hh he).symm
  · rw [hmap]
    refine ⟨by simp [headMajor], rfl, rfl, ?_⟩
    intro h hh e he pos hpos
    simp only [List.length_map, List.length_range, List.getElem_map, List.getElem_range] at hpos ⊢
    refine (gather_at hh hpos he).trans ?_
    exact (clip_apply (f := fun h e => c.vStore (c.storeCell layer h pos e)) hh he).symm

theorem view_rejects (hl : ¬(0 ≤ layer ∧ layer < c.geom.numLayers)) :
    ∃ message, c.view layer = .error (invalidArgumentError message) := by
  obtain ⟨message, hm⟩ := validateViewLayer_rejects "SimpleKvCache::view" hl
  refine ⟨message, ?_⟩
  unfold view
  rw [hm]

theorem truncate_ok {n : Nat} (hw : c.Wf) (hn : n ≤ c.length) :
    ∃ c', c.truncate n = (.ok (), c') ∧ c'.Wf ∧ c'.geom = c.geom ∧ c'.capacity = c.capacity ∧
      c'.log = c.log.truncate n := by
  refine ⟨{ c with fill := c.fill.map fun _ => n }, ?_, ?_, rfl, rfl, ?_⟩
  · unfold truncate
    rw [if_neg (by omega), Int.toNat_natCast]
  · refine ⟨by rw [List.length_map]; exact hw.layers, hw.layers_pos, hw.heads_pos, hw.dim_pos, ?_⟩
    intro m hm
    obtain ⟨m', hm', rfl⟩ := List.mem_map.mp hm
    obtain ⟨i, hi, rfl⟩ := List.getElem_of_mem hm'
    have h := length_le hw (show 0 ≤ (i : Int) ∧ (i : Int) < c.geom.numLayers by
      have := hw.layers
      have := hw.layers_pos
      omega)
    unfold layerFill at h
    rw [Int.toNat_natCast, List.getD_eq_getElem _ _ hi] at h
    have := hw.fill_le _ hm'
    show (n : Int) ≤ c.capacity
    omega
  · unfold log KvLog.truncate
    congr 1
    funext l
    by_cases hl : 0 ≤ l ∧ l < c.geom.numLayers
    · simp only [if_pos hl]
      have hlt : l.toNat < c.fill.length := by
        have := hw.layers
        omega
      have hfill : layerFill { c with fill := c.fill.map fun _ => n } l = n := by
        unfold layerFill
        rw [List.getD_eq_getElem _ _ (by rw [List.length_map]; exact hlt), List.getElem_map]
      rw [hfill, ← List.map_take, List.take_range, min_eq_left (hn.trans (length_le hw hl))]
      rfl
    · simp only [if_neg hl, List.take_nil]

end SimpleKvCache

end InferenceEngine
