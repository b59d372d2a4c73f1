/-
The draw from a row of probabilities.

The ids of an order fit their type when the row has at most `2 ^ 31` entries, and then every
read of the sorts is in bounds.  The nucleus keeps the first token of the sorted positive
ones, and the inverse transform returns a positive one whenever there is one.
-/
import InferenceEngine.Proofs.Stages
import Mathlib.Data.List.Nodup

namespace InferenceEngine

open Except

/-- The token is drawn with a positive probability. -/
def IsPositive (probs : List F32) (v : Nat) : Prop :=
  ∃ p, probs[v]? = some p ∧ F32.lt (.finite 0) p = true

theorem IsPositive.lt {probs : List F32} {v : Nat} (h : IsPositive probs v) : v < probs.length := by
  obtain ⟨p, hp, _⟩ := h
  exact (List.getElem?_eq_some_iff.mp hp).1

theorem toInt32_index {v : Nat} (h : v < 2 ^ 31) : toInt32 v = v :=
  toInt32_of_lt (by omega) (by exact_mod_cast h)

/-! ### Orders

The sorts move ids about, never outside the row.  So the reads of the sorted ids find their
entries. -/

theorem readAt_getD {values : List F32} {id : Int} (h0 : 0 ≤ id) (h : id < values.length) :
    readAt values id = .ok (values.getD id.toNat .nan) := by
  have hlt : id.toNat < values.length := by omega
  unfold readAt
  rw [if_pos h0, List.getD_eq_getElem?_getD, List.getElem?_eq_getElem hlt]
  rfl

theorem readOrder_ok (values : List F32) : ∀ ids : List Int,
    (∀ id ∈ ids, 0 ≤ id ∧ id < values.length) →
    readOrder values ids = .ok (ids.map fun id => (id, values.getD id.toNat .nan)) := by
  intro ids
  induction ids with
  | nil => intro _; rfl
  | cons id ids ih =>
      intro h
      obtain ⟨h0, hlt⟩ := h id (by simp)
      rw [readOrder, readAt_getD h0 hlt, ok_bind,
        ih fun other hother => h other (List.mem_cons_of_mem _ hother), ok_bind]
      rfl

theorem sortOrder_perm (order : List (Int × F32)) : (sortOrder order).Perm order :=
  List.mergeSort_perm order _

/-! ### The nucleus

It keeps the best tokens up to the threshold, the best one always, and zeroes the others. -/

theorem mem_positiveIds {probs : List F32} (hlen : probs.length ≤ 2 ^ 31) {id : Int} :
    id ∈ positiveIds probs ↔ 0 ≤ id ∧ IsPositive probs id.toNat := by
  unfold positiveIds
  rw [List.mem_map]
  constructor
  · intro h
    obtain ⟨v, hv, rfl⟩ := h
    rw [List.mem_filter, List.mem_range] at hv
    obtain ⟨hlt, hpos⟩ := hv
    rw [toInt32_index (by omega)]
    refine ⟨by omega, probs[v], ?_, ?_⟩
    · rw [Int.toNat_natCast]; exact List.getElem?_eq_getElem hlt
    · rw [List.getD_eq_getElem?_getD, List.getElem?_eq_getElem hlt] at hpos
      exact hpos
  · intro h
    obtain ⟨h0, hpos⟩ := h
    have hlt := hpos.lt
    obtain ⟨p, hp, hp0⟩ := hpos
    refine ⟨id.toNat, ?_, by rw [toInt32_index (by omega)]; omega⟩
    rw [List.mem_filter, List.mem_range, List.getD_eq_getElem?_getD, hp]
    exact ⟨hlt, hp0⟩

theorem positiveIds_nodup {probs : List F32} (hlen : probs.length ≤ 2 ^ 31) :
    (positiveIds probs).Nodup := by
  unfold positiveIds
  refine List.Nodup.map_on ?_ (List.nodup_range.filter _)
  intro a ha b hb hab
  rw [List.mem_filter, List.mem_range] at ha hb
  rw [toInt32_index (by omega), toInt32_index (by omega)] at hab
  exact_mod_cast hab

theorem zeroProbs_length : ∀ (order : List (Int × F32)) (probs : List F32),
    (zeroProbs order probs).length = probs.length := by
  intro order
  induction order with
  | nil => intro probs; rfl
  | cons entry order ih => intro probs; rw [zeroProbs, ih, List.length_set]

theorem zeroProbs_getElem? : ∀ (order : List (Int × F32)) (probs : List F32) (v : Nat),
    (zeroProbs order probs)[v]? = probs[v]? ∨
      (zeroProbs order probs)[v]? = some (F32.finite 0) := by
  intro order
  induction order with
  | nil => intro probs v; exact .inl rfl
  | cons entry order ih =>
      intro probs v
      rw [zeroProbs]
      rcases ih (probs.set entry.1.toNat (.finite 0)) v with h | h
      · rw [h, List.getElem?_set]
        by_cases heq : entry.1.toNat = v
        · rw [if_pos heq]
          by_cases hlt : entry.1.toNat < probs.length
          · exact .inr (if_pos hlt)
          · rw [if_neg hlt]
            exact .inl (List.getElem?_eq_none (by omega)).symm
        · rw [if_neg heq]; exact .inl rfl
      · exact .inr h

theorem zeroProbs_other : ∀ (order : List (Int × F32)) (probs : List F32) (v : Nat),
    (∀ entry ∈ order, entry.1.toNat ≠ v) → (zeroProbs order probs)[v]? = probs[v]? := by
  intro order
  induction order with
  | nil => intro probs v _; rfl
  | cons entry order ih =>
      intro probs v h
      rw [zeroProbs, ih _ _ fun other hother => h other (List.mem_cons_of_mem _ hother),
        List.getElem?_set_ne (h entry (by simp))]

/-- What `ApplyTopP` makes of a row with a positive probability. -/
structure Nucleus (probs kept : List F32) : Prop where
  length : kept.length = probs.length
  zeroed : ∀ v : Nat, kept[v]? = probs[v]? ∨ kept[v]? = some (F32.finite 0)
  nonempty : ∃ v, IsPositive kept v

variable {m : FloatModel}

theorem applyTopP_nucleus {probs : List F32} (hlen : probs.length ≤ 2 ^ 31)
    (hpos : ∃ v, IsPositive probs v) (topP : F32) :
    (applyTopP m probs topP).Returns (Nucleus probs) := by
  unfold applyTopP
  by_cases hone : F32.le (.finite 1) topP = true
  · rw [if_pos hone]
    exact returns_ok ⟨rfl, fun v => .inl rfl, hpos⟩
  · rw [if_neg hone]
    have hids : ∀ id ∈ positiveIds probs, 0 ≤ id ∧ id < probs.length := by
      intro id hid
      obtain ⟨h0, hp⟩ := (mem_positiveIds hlen).mp hid
      have := hp.lt
      omega
    rw [readOrder_ok probs _ hids, ok_bind]
    refine returns_pure ?_
    have hperm := sortOrder_perm
      ((positiveIds probs).map fun id => (id, probs.getD id.toNat .nan))
    generalize sortOrder _ = sorted at hperm ⊢
    have hfst : (sorted.map Prod.fst).Perm (positiveIds probs) := by
      have h := hperm.map Prod.fst
      rwa [List.map_map, show (Prod.fst ∘ fun id : Int => (id, probs.getD id.toNat .nan)) = id
        from rfl, List.map_id] at h
    have hmem : ∀ entry ∈ sorted, 0 ≤ entry.1 ∧ IsPositive probs entry.1.toNat := by
      intro entry hentry
      exact (mem_positiveIds hlen).mp (hfst.mem_iff.mp (List.mem_map_of_mem hentry))
    -- the first token of the order is kept, and no other entry is about it
    cases sorted with
    | nil =>
        obtain ⟨v, hv⟩ := hpos
        have hin : (v : Int) ∈ positiveIds probs :=
          (mem_positiveIds hlen).mpr ⟨by omega, by rwa [Int.toNat_natCast]⟩
        exact absurd (hfst.mem_iff.mpr hin) (by simp)
    | cons first rest =>
        refine ⟨zeroProbs_length _ _, zeroProbs_getElem? _ _, first.1.toNat, ?_⟩
        obtain ⟨h0, p, hp, hp0⟩ := hmem first (by simp)
        refine ⟨p, ?_, hp0⟩
        rw [zeroProbs_other _ _ _ ?_, hp]
        intro entry hentry heq
        have hnodup : ((first :: rest).map Prod.fst).Nodup :=
          hfst.nodup_iff.mpr (positiveIds_nodup hlen)
        have hdrop : entry ∈ rest := by
          unfold nucleusSize at hentry
          simp only at hentry
          split at hentry
          · exact hentry
          · rw [List.drop_succ_cons] at hentry
            exact List.mem_of_mem_drop hentry
        have hsame : entry.1 = first.1 := by
          have := (hmem entry (List.mem_cons_of_mem _ hdrop)).1
          omega
        rw [List.map_cons, List.nodup_cons] at hnodup
        exact hnodup.1 (hsame ▸ List.mem_map_of_mem hdrop)

/-- A row of probabilities without a number is left alone. -/
theorem applyTopP_nan {probs : List F32} (h : ∀ p ∈ probs, p = .nan) (topP : F32) :
    applyTopP m probs topP = .ok probs := by
  unfold applyTopP
  by_cases hone : F32.le (.finite 1) topP = true
  · rw [if_pos hone]
  · rw [if_neg hone]
    have hnone : positiveIds probs = [] := by
      unfold positiveIds
      rw [List.map_eq_nil_iff, List.filter_eq_nil_iff]
      intro v hv
      rw [List.mem_range] at hv
      rw [List.getD_eq_getElem?_getD, List.getElem?_eq_getElem hv, Option.getD_some,
        h _ (List.getElem_mem hv)]
      simp [F32.lt]
    rw [hnone, readOrder, ok_bind]
    simp only [sortOrder, List.mergeSort_nil, List.drop_nil, zeroProbs]
    rfl

/-! ### The inverse transform

The loop stops at the first token at which the running sum passes the target.  If rounding keeps
the sum below it, the last token with a positive probability is taken. -/

/-- The last positive token, or what was last before. -/
theorem lastPositive_spec (probs : List F32) : ∀ (rest : List F32) (v : Nat) (last : Int),
    (∀ k, rest[k]? = probs[v + k]?) →
    (lastPositive rest v last = last ∧ ∀ p ∈ rest, F32.lt (.finite 0) p = false) ∨
      ∃ w : Nat, lastPositive rest v last = toInt32 w ∧ IsPositive probs w := by
  intro rest
  induction rest with
  | nil => intro v last _; exact .inl ⟨rfl, by simp⟩
  | cons p rest ih =>
      intro v last hrest
      have htail : ∀ k, rest[k]? = probs[v + 1 + k]? := by
        intro k
        have h := hrest (k + 1)
        rwa [List.getElem?_cons_succ, ← Nat.add_assoc, Nat.add_right_comm] at h
      have hhead : probs[v]? = some p := (hrest 0).symm
      rw [lastPositive]
      by_cases hp : F32.lt (.finite 0) p = true
      · rw [if_pos hp]
        rcases ih (v + 1) (toInt32 v) htail with ⟨hlast, _⟩ | h
        · exact .inr ⟨v, hlast, p, hhead, hp⟩
        · exact .inr h
      · rw [if_neg hp]
        rcases ih (v + 1) last htail with ⟨hlast, hall⟩ | h
        · refine .inl ⟨hlast, ?_⟩
          intro q hq
          rcases List.mem_cons.mp hq with rfl | hq
          · simpa using hp
          · exact hall q hq
        · exact .inr h

theorem cdfLoop_spec (target : F32) (fallback : Int) (probs : List F32) :
    ∀ (rest : List F32) (v : Nat) (cumulative : F32), (∀ k, rest[k]? = probs[v + k]?) →
    cdfLoop m target fallback rest v cumulative = fallback ∨
      ∃ w : Nat, cdfLoop m target fallback rest v cumulative = toInt32 w ∧ IsPositive probs w := by
  intro rest
  induction rest with
  | nil => intro v cumulative _; exact .inl rfl
  | cons p rest ih =>
      intro v cumulative hrest
      have htail : ∀ k, rest[k]? = probs[v + 1 + k]? := by
        intro k
        have h := hrest (k + 1)
        rwa [List.getElem?_cons_succ, ← Nat.add_assoc, Nat.add_right_comm] at h
      rw [cdfLoop]
      by_cases hp : target.lt (cumulative.add m.double p) = true ∧ F32.lt (.finite 0) p = true
      · rw [if_pos hp]
        exact .inr ⟨v, rfl, p, (hrest 0).symm, hp.2⟩
      · rw [if_neg hp]
        exact ih (v + 1) _ htail

/-- The draw is a token with a positive probability when there is one. -/
theorem selectByCdf_positive {probs : List F32} (h : ∃ v, IsPositive probs v) (u : F32) :
    ∃ w : Nat, selectByCdf m probs u = toInt32 w ∧ IsPositive probs w := by
  have hall : ∀ k : Nat, probs[k]? = probs[0 + k]? := fun k => by rw [Nat.zero_add]
  unfold selectByCdf
  rcases cdfLoop_spec (m := m) (u.mul m.double (sumDoubles m probs)) (lastPositive probs 0 (-1))
    probs probs 0 (.finite 0) hall with hcdf | hcdf
  · rw [hcdf]
    rcases lastPositive_spec probs probs 0 (-1) hall with ⟨_, hnone⟩ | hlast
    · obtain ⟨v, p, hp, hp0⟩ := h
      rw [hnone p (List.mem_of_getElem? hp)] at hp0
      exact absurd hp0 (by simp)
    · exact hlast
  · exact hcdf

/-- Without a positive probability it is the fallback value. -/
theorem selectByCdf_none {probs : List F32} (h : ∀ v, ¬ IsPositive probs v) (u : F32) :
    selectByCdf m probs u = -1 := by
  have hall : ∀ k : Nat, probs[k]? = probs[0 + k]? := fun k => by rw [Nat.zero_add]
  unfold selectByCdf
  rcases cdfLoop_spec (m := m) (u.mul m.double (sumDoubles m probs)) (lastPositive probs 0 (-1))
    probs probs 0 (.finite 0) hall with hcdf | ⟨w, _, hw⟩
  · rw [hcdf]
    rcases lastPositive_spec probs probs 0 (-1) hall with ⟨hlast, _⟩ | ⟨w, _, hw⟩
    · exact hlast
    · exact absurd hw (h w)
  · exact absurd hw (h w)

/-! ### Log-probabilities

They are extracted behind the draw and cannot change it. -/

theorem logSoftmax_length (row : List F32) : (logSoftmax m row).length = row.length := by
  simp [logSoftmax]

theorem extractLogprobs_returns {lp : List F32} (hlen : lp.length ≤ 2 ^ 31) {chosen : Int}
    (h0 : 0 ≤ chosen) (hlt : chosen < lp.length) (topN : Int) :
    (extractLogprobs m lp chosen topN).Returns fun _ => True := by
  unfold extractLogprobs
  rw [readAt_getD h0 hlt, ok_bind]
  simp only
  split
  · exact returns_pure trivial
  · rw [readOrder_ok lp]
    · exact returns_pure trivial
    · intro id hid
      obtain ⟨v, hv, rfl⟩ := List.mem_map.mp hid
      rw [List.mem_range] at hv
      rw [toInt32_index (by omega)]
      omega

end InferenceEngine
