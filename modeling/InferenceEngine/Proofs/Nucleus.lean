/-
The nucleus of the code is the nucleus of the whole vocabulary.

Both are cuts of a list sorted by the same order, one of the tokens with a positive probability
and one of all tokens.  Whether a token is kept depends on the mass of the tokens before it in
that order, and tokens without probability have no mass.
-/
import InferenceEngine.Sampling.Exact
import InferenceEngine.Proofs.Draw
import Mathlib.Data.List.Perm.Basic

namespace InferenceEngine

open Except WeightedPrefix

/-! ### The order

Tokens are ordered by probability and then by id, and no two are equal in it.  The nucleus is
what comes before the threshold is reached. -/

/-- `a` comes before `b`. -/
def rankBefore (probs : List Rat) (a b : Nat) : Bool :=
  decide (probOf probs b < probOf probs a) || (probOf probs a == probOf probs b && decide (a < b))

/-- The mass of the tokens that come before `v`. -/
def massBefore (probs : List Rat) (v : Nat) : Rat :=
  mass (probOf probs) ((List.range probs.length).filter fun w => rankBefore probs w v)

section

variable {probs : List Rat}

theorem probOf_eq {v : Nat} (h : v < probs.length) : probOf probs v = probs[v] := by
  rw [probOf, List.getD_eq_getElem?_getD, List.getElem?_eq_getElem h, Option.getD_some]

theorem probOf_nonneg (hnonneg : ∀ p ∈ probs, 0 ≤ p) (v : Nat) : 0 ≤ probOf probs v := by
  by_cases h : v < probs.length
  · rw [probOf_eq h]
    exact hnonneg _ (List.getElem_mem h)
  · rw [probOf, List.getD_eq_getElem?_getD, List.getElem?_eq_none (by omega)]
    rfl

theorem rankBefore_asymm (a b : Nat) (h : rankBefore probs a b = true) :
    rankBefore probs b a = false := by
  unfold rankBefore at h ⊢
  simp only [Bool.or_eq_true, Bool.and_eq_true, decide_eq_true_eq, beq_iff_eq] at h
  simp only [Bool.or_eq_false_iff, Bool.and_eq_false_iff, decide_eq_false_iff_not,
    beq_eq_false_iff_ne]
  rcases h with h | ⟨heq, h⟩
  · exact ⟨not_lt.mpr (le_of_lt h), Or.inl (ne_of_lt h)⟩
  · exact ⟨by rw [heq]; exact lt_irrefl _, Or.inr (by omega)⟩

theorem rankLe_trans (a b c : Nat) (hab : rankLe probs a b = true) (hbc : rankLe probs b c = true) :
    rankLe probs a c = true := by
  unfold rankLe at hab hbc ⊢
  simp only [Bool.or_eq_true, Bool.and_eq_true, decide_eq_true_eq, beq_iff_eq] at hab hbc ⊢
  rcases hab with hab | ⟨hab, hle⟩
  · rcases hbc with hbc | ⟨hbc, _⟩
    · exact Or.inl (lt_trans hbc hab)
    · exact Or.inl (hbc ▸ hab)
  · rcases hbc with hbc | ⟨hbc, hle'⟩
    · exact Or.inl (hab ▸ hbc)
    · exact Or.inr ⟨hab.trans hbc, le_trans hle hle'⟩

theorem rankLe_total (a b : Nat) : (rankLe probs a b || rankLe probs b a) = true := by
  unfold rankLe
  simp only [Bool.or_eq_true, Bool.and_eq_true, decide_eq_true_eq, beq_iff_eq]
  rcases lt_trichotomy (probOf probs a) (probOf probs b) with h | h | h
  · exact Or.inr (Or.inl h)
  · rcases Nat.le_total a b with hab | hab
    · exact Or.inl (Or.inr ⟨h, hab⟩)
    · exact Or.inr (Or.inr ⟨h.symm, hab⟩)
  · exact Or.inl (Or.inl h)

/-- Tokens sorted by rank, each of which occurs once, are ordered. -/
theorem sorted_ordered {ids : List Nat} (hnodup : ids.Nodup) :
    (ids.mergeSort (rankLe probs)).Pairwise fun a b => rankBefore probs a b = true := by
  have hsorted : (ids.mergeSort (rankLe probs)).Pairwise fun a b => rankLe probs a b = true :=
    List.pairwise_mergeSort rankLe_trans rankLe_total ids
  have hne := (List.mergeSort_perm ids (rankLe probs)).nodup_iff.mpr hnodup
  refine (hsorted.and hne).imp ?_
  intro a b hab
  obtain ⟨hle, hne⟩ := hab
  unfold rankLe at hle
  unfold rankBefore
  simp only [Bool.or_eq_true, Bool.and_eq_true, decide_eq_true_eq, beq_iff_eq] at hle ⊢
  rcases hle with hlt | ⟨heq, hle⟩
  · exact Or.inl hlt
  · exact Or.inr ⟨heq, by omega⟩

/-- What a cut of the sorted tokens keeps, for a selection that has all the mass. -/
theorem mem_take_sorted {p : Nat → Bool} (hp : ∀ v, p v = false → probOf probs v = 0) {t : Rat}
    {n : Nat}
    (hcut : IsCut (probOf probs) t
      (((List.range probs.length).filter p).mergeSort (rankLe probs)) n) {v : Nat} :
    v ∈ (((List.range probs.length).filter p).mergeSort (rankLe probs)).take n ↔
      (v < probs.length ∧ p v = true) ∧ massBefore probs v < t := by
  have hperm := List.mergeSort_perm ((List.range probs.length).filter p) (rankLe probs)
  rw [hcut.mem_take rankBefore_asymm (sorted_ordered (List.nodup_range.filter _)), hperm.mem_iff,
    List.mem_filter, List.mem_range, mass_perm (hperm.filter _), List.filter_filter]
  unfold massBefore
  have hmass : mass (probOf probs)
        ((List.range probs.length).filter fun w => rankBefore probs w v && p w)
      = mass (probOf probs) ((List.range probs.length).filter fun w => rankBefore probs w v) := by
    have hcomm : (fun w => rankBefore probs w v && p w) = fun w => p w && rankBefore probs w v := by
      funext w
      exact Bool.and_comm _ _
    rw [hcomm, ← List.filter_filter]
    apply mass_filter
    exact fun w _ hw => hp w hw
  rw [hmass]

/-- **The nucleus**: the tokens before which `topP` is not reached. -/
theorem mem_nucleusIds (hnonneg : ∀ p ∈ probs, 0 ≤ p) {topP : Rat} {v : Nat} :
    v ∈ nucleusIds probs topP ↔ v < probs.length ∧ massBefore probs v < topP := by
  have hall : (List.range probs.length).filter (fun _ => true) = List.range probs.length :=
    List.filter_eq_self.mpr fun _ _ => rfl
  have hcut : IsCut (probOf probs) topP
      (((List.range probs.length).filter fun _ => true).mergeSort (rankLe probs))
      (shortestPrefix (probOf probs) topP (fullOrder probs)) := by
    rw [hall]
    exact shortestPrefix_isCut fun w _ => probOf_nonneg hnonneg w
  have hmem := mem_take_sorted (fun _ h => by cases h) hcut (v := v)
  rw [hall] at hmem
  simpa [nucleusIds, fullOrder] using hmem

theorem mass_range (probs : List Rat) :
    mass (probOf probs) (List.range probs.length) = probs.sum := by
  unfold mass
  congr 1
  refine List.ext_getElem (by simp) fun v h1 h2 => ?_
  rw [List.getElem_map, List.getElem_range, probOf_eq h2]

/-- A token and those before it have no more than all the mass. -/
theorem massBefore_add_le (hnonneg : ∀ p ∈ probs, 0 ≤ p) {v : Nat} (hv : v < probs.length) :
    massBefore probs v + probOf probs v ≤ probs.sum := by
  have hperm := List.mergeSort_perm (List.range probs.length) (rankLe probs)
  have hmem : v ∈ fullOrder probs := hperm.mem_iff.mpr (List.mem_range.mpr hv)
  obtain ⟨before, after, hsplit⟩ := List.append_of_mem hmem
  have hordered : (fullOrder probs).Pairwise fun a b => rankBefore probs a b = true :=
    sorted_ordered List.nodup_range
  rw [hsplit] at hordered
  have hbefore : massBefore probs v = mass (probOf probs) before := by
    unfold massBefore
    rw [← mass_perm (hperm.filter _)]
    show mass (probOf probs) ((fullOrder probs).filter fun w => rankBefore probs w v) = _
    rw [hsplit, filter_before rankBefore_asymm hordered]
  have hall : mass (probOf probs) before + (probOf probs v + mass (probOf probs) after)
      = probs.sum := by
    rw [← mass_range, ← mass_perm hperm]
    show _ = mass (probOf probs) (fullOrder probs)
    rw [hsplit, mass_append]
    simp [mass]
  have hafter : 0 ≤ mass (probOf probs) after := mass_nonneg fun w _ => probOf_nonneg hnonneg w
  rw [hbefore]
  linarith

/-! ### The walk of the code

The code sorts the positive tokens only and walks until the mass is there.  The tokens it leaves
out have no mass. -/

/-- The tokens with a positive probability. -/
def positives (probs : List Rat) : List Nat :=
  (List.range probs.length).filter fun v => decide (0 < probOf probs v)

/-- The positive tokens as the code sorts them. -/
def sortedPositives (probs : List Rat) : List Nat :=
  (positives probs).mergeSort (rankLe probs)

/-- A token and its probability, as the sort of the code has them. -/
def rankEntry (probs : List Rat) (v : Nat) : Int × F32 := ((v : Int), .finite (probOf probs v))

theorem getElem?_finite {v : Nat} (h : v < probs.length) :
    (probs.map F32.finite)[v]? = some (.finite (probOf probs v)) := by
  rw [List.getElem?_map, List.getElem?_eq_getElem h, probOf_eq h]
  rfl

theorem positiveIds_finite (hlen : probs.length ≤ 2 ^ 31) :
    positiveIds (probs.map F32.finite) = (positives probs).map fun v : Nat => (v : Int) := by
  unfold positiveIds positives
  rw [List.length_map]
  have hfilter : ((List.range probs.length).filter fun v =>
        F32.lt (.finite 0) ((probs.map F32.finite).getD v .nan))
      = (List.range probs.length).filter fun v => decide (0 < probOf probs v) := by
    refine List.filter_congr fun v hv => ?_
    rw [List.getD_eq_getElem?_getD, getElem?_finite (List.mem_range.mp hv)]
    rfl
  rw [hfilter]
  refine List.map_congr_left fun v hv => ?_
  have hlt := List.mem_range.mp (List.mem_filter.mp hv).1
  exact toInt32_index (by omega)

theorem readOrder_positives (hlen : probs.length ≤ 2 ^ 31) :
    readOrder (probs.map F32.finite) (positiveIds (probs.map F32.finite))
      = .ok ((positives probs).map (rankEntry probs)) := by
  have hlt : ∀ v ∈ positives probs, v < probs.length := fun v hv =>
    List.mem_range.mp (List.mem_filter.mp hv).1
  rw [positiveIds_finite hlen, readOrder_ok, List.map_map]
  · congr 1
    refine List.map_congr_left fun v hv => ?_
    show ((v : Int), (probs.map F32.finite).getD (v : Int).toNat .nan) = rankEntry probs v
    rw [Int.toNat_natCast, List.getD_eq_getElem?_getD, getElem?_finite (hlt v hv)]
    rfl
  · intro id hid
    obtain ⟨v, hv, rfl⟩ := List.mem_map.mp hid
    have := hlt v hv
    rw [List.length_map]
    omega

/-- The comparison of the code is the rank. -/
theorem rankLe_eq (a b : Nat) :
    rankLe probs a b = !beforeById (rankEntry probs b) (rankEntry probs a) := by
  unfold rankLe beforeById rankEntry
  rcases lt_trichotomy (probOf probs a) (probOf probs b) with h | h | h
  · simp [F32.lt, h, ne_of_lt h, (ne_of_lt h).symm, not_lt.mpr (le_of_lt h)]
  · rw [Bool.eq_iff_iff]
    simp [h]
  · simp [F32.lt, h, ne_of_lt h, not_lt.mpr (le_of_lt h)]

theorem sortOrder_positives :
    sortOrder ((positives probs).map (rankEntry probs))
      = (sortedPositives probs).map (rankEntry probs) := by
  unfold sortOrder sortedPositives
  exact (List.map_mergeSort fun a _ b _ => rankLe_eq a b).symm

variable {e : Rat → Rat} {log : F32 → F32}

/-- The walk, from the mass `c` that was there before. -/
theorem lt_nucleusSize (hnonneg : ∀ p ∈ probs, 0 ≤ p) {t : Rat} : ∀ {ids : List Nat} {c : Rat},
    c < t → ∀ k, k < nucleusSize (exactFloats e log) (.finite t) (ids.map (rankEntry probs))
        (.finite c) ↔
      k < ids.length ∧ c + mass (probOf probs) (ids.take k) < t := by
  intro ids
  induction ids with
  | nil => intro c _ k; simp [nucleusSize]
  | cons v rest ih =>
      intro c hc k
      have hwalk : nucleusSize (exactFloats e log) (.finite t) ((v :: rest).map (rankEntry probs))
          (.finite c)
          = if t ≤ c + probOf probs v then 1
            else nucleusSize (exactFloats e log) (.finite t) (rest.map (rankEntry probs))
              (.finite (c + probOf probs v)) + 1 := by
        rw [List.map_cons, nucleusSize]
        simp [rankEntry, F32.add, F32.le, exactFloats]
      rw [hwalk]
      cases k with
      | zero =>
          have hpos : 0 < (if t ≤ c + probOf probs v then 1
            else nucleusSize (exactFloats e log) (.finite t) (rest.map (rankEntry probs))
              (.finite (c + probOf probs v)) + 1) := by
            split <;> omega
          simpa [mass, hc] using hpos
      | succ k =>
          have hsplit : mass (probOf probs) ((v :: rest).take (k + 1))
              = probOf probs v + mass (probOf probs) (rest.take k) := by simp [mass]
          rw [hsplit, ← add_assoc, List.length_cons]
          by_cases hreached : t ≤ c + probOf probs v
          · rw [if_pos hreached]
            have hrest : 0 ≤ mass (probOf probs) (rest.take k) :=
              mass_nonneg fun w _ => probOf_nonneg hnonneg w
            constructor
            · intro h
              omega
            · intro h
              linarith [h.2]
          · rw [if_neg hreached]
            have hrun := ih (not_le.mp hreached) k
            constructor
            · intro h
              have := hrun.mp (by omega)
              exact ⟨by omega, this.2⟩
            · intro h
              have := hrun.mpr ⟨by omega, h.2⟩
              omega

theorem nucleusSize_isCut (hnonneg : ∀ p ∈ probs, 0 ≤ p) {t : Rat} (ht : 0 < t) (ids : List Nat) :
    IsCut (probOf probs) t ids (nucleusSize (exactFloats e log) (.finite t)
      (ids.map (rankEntry probs)) (.finite 0)) := by
  intro k
  rw [lt_nucleusSize hnonneg ht, zero_add]

/-- The zeroing reaches every token of the order. -/
theorem zeroProbs_zeroed : ∀ {order : List (Int × F32)} {row : List F32} {v : Nat},
    (∃ entry ∈ order, entry.1.toNat = v) → v < row.length →
    (zeroProbs order row)[v]? = some (.finite 0) := by
  intro order
  induction order with
  | nil =>
      intro row v h _
      obtain ⟨entry, hentry, _⟩ := h
      cases hentry
  | cons first rest ih =>
      intro row v h hv
      rw [zeroProbs]
      by_cases hrest : ∃ entry ∈ rest, entry.1.toNat = v
      · exact ih hrest (by rw [List.length_set]; exact hv)
      · obtain ⟨entry, hentry, heq⟩ := h
        have hfirst : first.1.toNat = v := by
          rcases List.mem_cons.mp hentry with rfl | hin
          · exact heq
          · exact absurd ⟨entry, hin, heq⟩ hrest
        rw [zeroProbs_other _ _ _ fun other hother hsame => hrest ⟨other, hother, hsame⟩, hfirst,
          List.getElem?_set_self hv]

/-! ### The result

What stands behind the cut is zeroed, in whatever order the loop comes to it. -/

theorem mem_sortedPositives {v : Nat} :
    v ∈ sortedPositives probs ↔ v < probs.length ∧ 0 < probOf probs v := by
  unfold sortedPositives positives
  rw [(List.mergeSort_perm _ _).mem_iff, List.mem_filter, List.mem_range, decide_eq_true_eq]

theorem sortedPositives_nodup : (sortedPositives probs).Nodup :=
  (List.mergeSort_perm _ _).nodup_iff.mpr (List.nodup_range.filter _)

/-- What the walk keeps of the positive tokens is what the nucleus has of them. -/
theorem mem_take_sortedPositives (hnonneg : ∀ p ∈ probs, 0 ≤ p) {t : Rat} {n : Nat}
    (hcut : IsCut (probOf probs) t (sortedPositives probs) n) {v : Nat} :
    v ∈ (sortedPositives probs).take n ↔ v ∈ nucleusIds probs t ∧ 0 < probOf probs v := by
  unfold sortedPositives positives at hcut ⊢
  rw [mem_take_sorted (p := fun v => decide (0 < probOf probs v)) ?_ hcut, mem_nucleusIds hnonneg,
    decide_eq_true_eq]
  · constructor
    · rintro ⟨⟨hlt, hpos⟩, hmass⟩
      exact ⟨⟨hlt, hmass⟩, hpos⟩
    · rintro ⟨⟨hlt, hmass⟩, hpos⟩
      exact ⟨⟨hlt, hpos⟩, hmass⟩
  · intro w hw
    have hle : ¬0 < probOf probs w := by simpa using hw
    exact le_antisymm (not_lt.mp hle) (probOf_nonneg hnonneg w)

theorem topPReference_getElem? {topP : Rat} {v : Nat} (hv : v < probs.length) :
    (topPReference probs topP)[v]? =
      some (if v ∈ nucleusIds probs topP then probOf probs v else 0) := by
  unfold topPReference
  rw [List.getElem?_mapIdx, List.getElem?_eq_getElem hv, probOf_eq hv]
  rfl

theorem topPReference_length (probs : List Rat) (topP : Rat) :
    (topPReference probs topP).length = probs.length :=
  List.length_mapIdx

/-- Zeroing what stands behind a cut of the sorted positives makes the reference. -/
theorem zeroProbs_reference (hnonneg : ∀ p ∈ probs, 0 ≤ p) {t : Rat} {n : Nat}
    (hcut : IsCut (probOf probs) t (sortedPositives probs) n) :
    zeroProbs (((sortedPositives probs).map (rankEntry probs)).drop n) (probs.map F32.finite)
      = (topPReference probs t).map F32.finite := by
  refine List.ext_getElem? fun v => ?_
  by_cases hv : v < probs.length
  case neg =>
    rw [List.getElem?_eq_none, List.getElem?_eq_none]
    · rw [List.length_map, topPReference_length]
      omega
    · rw [zeroProbs_length, List.length_map]
      omega
  have hbehind : (∃ entry ∈ ((sortedPositives probs).map (rankEntry probs)).drop n,
      entry.1.toNat = v) ↔ v ∈ (sortedPositives probs).drop n := by
    rw [← List.map_drop]
    constructor
    · rintro ⟨entry, hentry, rfl⟩
      obtain ⟨w, hw, rfl⟩ := List.mem_map.mp hentry
      exact hw
    · intro hin
      exact ⟨_, List.mem_map_of_mem hin, Int.toNat_natCast v⟩
  rw [List.getElem?_map, topPReference_getElem? hv]
  by_cases hdrop : v ∈ (sortedPositives probs).drop n
  · -- a positive token behind the cut is not in the nucleus
    have htake : v ∉ (sortedPositives probs).take n := by
      have hnodup : (sortedPositives probs).Nodup := sortedPositives_nodup
      rw [← List.take_append_drop n (sortedPositives probs)] at hnodup
      exact fun hin => (List.nodup_append.mp hnodup).2.2 v hin v hdrop rfl
    have hpos := (mem_sortedPositives.mp (List.mem_of_mem_drop hdrop)).2
    have hout : v ∉ nucleusIds probs t := fun hin =>
      htake ((mem_take_sortedPositives hnonneg hcut).mpr ⟨hin, hpos⟩)
    rw [zeroProbs_zeroed (hbehind.mpr hdrop) (by rw [List.length_map]; exact hv), if_neg hout]
    rfl
  · rw [zeroProbs_other _ _ _ fun entry hentry hsame => hdrop (hbehind.mp ⟨entry, hentry, hsame⟩),
      getElem?_finite hv]
    by_cases hpos : 0 < probOf probs v
    · have hin : v ∈ (sortedPositives probs).take n := by
        have hmem := mem_sortedPositives.mpr ⟨hv, hpos⟩
        rw [← List.take_append_drop n (sortedPositives probs)] at hmem
        exact (List.mem_append.mp hmem).resolve_right hdrop
      rw [if_pos ((mem_take_sortedPositives hnonneg hcut).mp hin).1]
      rfl
    · have hzero : probOf probs v = 0 :=
        le_antisymm (not_lt.mp hpos) (probOf_nonneg hnonneg v)
      rw [hzero, ite_self]
      rfl

/-- `ApplyTopP` below one makes the reference. -/
theorem applyTopP_eq_reference (hnonneg : ∀ p ∈ probs, 0 ≤ p) (hlen : probs.length ≤ 2 ^ 31)
    {topP : Rat} (h0 : 0 < topP) (h1 : topP < 1) :
    applyTopP (exactFloats e log) (probs.map F32.finite) (.finite topP)
      = .ok ((topPReference probs topP).map F32.finite) := by
  unfold applyTopP
  rw [if_neg (by simpa [F32.le] using h1), readOrder_positives hlen, ok_bind]
  simp only [sortOrder_positives]
  rw [zeroProbs_reference hnonneg (nucleusSize_isCut hnonneg h0 _)]
  rfl

/-! ### The buffer

The order is built in a buffer that earlier calls have used.  It is cleared first. -/

theorem pushPositive_spec (row : List F32) : ∀ (rest : List F32) (v : Nat) (order : List Int),
    (∀ k, rest[k]? = row[v + k]?) →
    pushPositive rest v order = order ++
      (((List.range' v rest.length).filter fun w => F32.lt (.finite 0) (row.getD w .nan)).map
        fun w : Nat => toInt32 w) := by
  intro rest
  induction rest with
  | nil => intro v order _; simp [pushPositive]
  | cons p rest ih =>
      intro v order hrest
      have htail : ∀ k, rest[k]? = row[v + 1 + k]? := by
        intro k
        have h := hrest (k + 1)
        rwa [List.getElem?_cons_succ, ← Nat.add_assoc, Nat.add_right_comm] at h
      have hhead : row.getD v .nan = p := by
        have h := hrest 0
        rw [List.getD_eq_getElem?_getD, ← Nat.add_zero v, ← h]
        rfl
      rw [pushPositive, ih _ _ htail, List.length_cons, List.range'_succ]
      by_cases hp : F32.lt (.finite 0) p = true
      · rw [if_pos hp, List.filter_cons_of_pos (by rw [hhead]; exact hp)]
        simp
      · rw [if_neg hp, List.filter_cons_of_neg (by rw [hhead]; exact hp)]

theorem pushPositive_eq (row : List F32) : pushPositive row 0 [] = positiveIds row := by
  rw [pushPositive_spec row row 0 [] fun k => by rw [Nat.zero_add], List.nil_append,
    ← List.range_eq_range']
  rfl

/-- What the buffer holds before the call does not matter. -/
theorem applyTopPInto_fst (m : FloatModel) (row : List F32) (topP : F32) (order : List Int) :
    (applyTopPInto m row topP order).map Prod.fst = applyTopP m row topP := by
  unfold applyTopPInto applyTopP
  by_cases hone : F32.le (.finite 1) topP = true
  · rw [if_pos hone, if_pos hone]
    rfl
  · rw [if_neg hone, if_neg hone]
    dsimp only
    rw [pushPositive_eq]
    cases readOrder row (positiveIds row) <;> rfl

/-- A positive token is kept. -/
theorem nucleusIds_positive (hnonneg : ∀ p ∈ probs, 0 ≤ p) (hpos : ∃ p ∈ probs, 0 < p) {t : Rat}
    (ht : 0 < t) : ∃ v ∈ nucleusIds probs t, 0 < probOf probs v := by
  obtain ⟨p, hp, hp0⟩ := hpos
  obtain ⟨v, hv, rfl⟩ := List.mem_iff_getElem.mp hp
  have hmem : v ∈ sortedPositives probs :=
    mem_sortedPositives.mpr ⟨hv, by rw [probOf_eq hv]; exact hp0⟩
  -- the cut keeps the first of the sorted positives
  have hcut := shortestPrefix_isCut (f := probOf probs) (t := t) (l := sortedPositives probs)
    fun w _ => probOf_nonneg hnonneg w
  have hfirst := (hcut 0).mpr ⟨List.length_pos_of_mem hmem, by simpa [mass] using ht⟩
  cases hsorted : sortedPositives probs with
  | nil =>
      rw [hsorted] at hmem
      cases hmem
  | cons first rest =>
      have hin : first ∈ (sortedPositives probs).take
          (shortestPrefix (probOf probs) t (sortedPositives probs)) := by
        generalize shortestPrefix (probOf probs) t (sortedPositives probs) = n at hfirst
        rw [hsorted]
        cases n with
        | zero => exact absurd hfirst (Nat.lt_irrefl 0)
        | succ n => simp
      exact ⟨first, (mem_take_sortedPositives hnonneg hcut).mp hin⟩

/-- **Top-p over the positive tokens is top-p over the whole vocabulary**: whatever the buffer
holds, the call makes the reference; a token with a positive probability is kept, those that are
kept are unchanged, and a larger `topP` keeps them too. -/
theorem applyTopPInto_reference (e : Rat → Rat) (log : F32 → F32) (probs : List Rat)
    (hnonneg : ∀ p ∈ probs, 0 ≤ p) (hpos : ∃ p ∈ probs, 0 < p) (hlen : probs.length ≤ 2 ^ 31)
    (topP : Rat) (h0 : 0 < topP) (h1 : topP < 1) (order : List Int) :
    (applyTopPInto (exactFloats e log) (probs.map F32.finite) (.finite topP) order).Returns
        (fun result => result.1 = (topPReference probs topP).map F32.finite) ∧
      (∃ v ∈ nucleusIds probs topP, 0 < probOf (topPReference probs topP) v) ∧
      (∀ v ∈ nucleusIds probs topP, (topPReference probs topP)[v]? = probs[v]?) ∧
      ∀ topP' : Rat, topP ≤ topP' → nucleusIds probs topP ⊆ nucleusIds probs topP' := by
  have hkept : ∀ v ∈ nucleusIds probs topP, (topPReference probs topP)[v]? = probs[v]? := by
    intro v hv
    have hlt := ((mem_nucleusIds hnonneg).mp hv).1
    rw [topPReference_getElem? hlt, if_pos hv, probOf_eq hlt, List.getElem?_eq_getElem hlt]
  refine ⟨?_, ?_, hkept, ?_⟩
  · have hfst := applyTopPInto_fst (exactFloats e log) (probs.map F32.finite) (.finite topP) order
    rw [applyTopP_eq_reference hnonneg hlen h0 h1] at hfst
    cases hrun : applyTopPInto (exactFloats e log) (probs.map F32.finite) (.finite topP) order with
    | error fault =>
        rw [hrun] at hfst
        cases hfst
    | ok result =>
        rw [hrun] at hfst
        exact returns_ok (Except.ok.inj hfst)
  · obtain ⟨v, hv, hvpos⟩ := nucleusIds_positive hnonneg hpos h0
    refine ⟨v, hv, ?_⟩
    unfold probOf at hvpos ⊢
    rw [List.getD_eq_getElem?_getD, hkept v hv]
    exact hvpos
  · intro topP' hle v hv
    obtain ⟨hlt, hmass⟩ := (mem_nucleusIds hnonneg).mp hv
    exact (mem_nucleusIds hnonneg).mpr ⟨hlt, lt_of_lt_of_le hmass hle⟩

end

/-- Two tokens of the same probability, of which the first one is enough. -/
theorem applyTopPInto_reference_tie :
    (applyTopPInto (exactFloats id id) ([1 / 2, 0, 1 / 2].map F32.finite) (.finite (1 / 2))
        [7]).Returns
        (fun result => result.1 = (topPReference [1 / 2, 0, 1 / 2] (1 / 2)).map F32.finite) ∧
      (∃ v ∈ nucleusIds [1 / 2, 0, 1 / 2] (1 / 2),
        0 < probOf (topPReference [1 / 2, 0, 1 / 2] (1 / 2)) v) ∧
      (∀ v ∈ nucleusIds [1 / 2, 0, 1 / 2] (1 / 2),
        (topPReference [1 / 2, 0, 1 / 2] (1 / 2))[v]? = [1 / 2, 0, 1 / 2][v]?) ∧
      ∀ topP' : Rat, 1 / 2 ≤ topP' →
        nucleusIds [1 / 2, 0, 1 / 2] (1 / 2) ⊆ nucleusIds [1 / 2, 0, 1 / 2] topP' :=
  applyTopPInto_reference id id [1 / 2, 0, 1 / 2] (by decide +kernel) (by decide +kernel)
    (by decide) (1 / 2) (by decide +kernel) (by decide +kernel) [7]

end InferenceEngine
