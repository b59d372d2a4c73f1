/-
The sampling stages on a row without a NaN.

What decides everything is the maximum of the row.  If it is finite (`Peaked`), its weight in
the softmax is one, so the token that has it keeps a positive probability through the nucleus
and the draw finds a token.  If it is an infinity, the shift by it makes a NaN, the NaN takes
the whole row of probabilities with it, and the draw finds none.
-/
import InferenceEngine.Sampling.SampleRow
import InferenceEngine.Proofs.Float
import Mathlib.Data.List.Perm.Basic

namespace InferenceEngine

open Except

/-- A row of logits: numbers, one at least, and masked entries. -/
structure IsLogits (row : List F32) : Prop where
  masked_or_finite : ∀ x ∈ row, x = .infinity true ∨ ∃ y, x = .finite y
  some_finite : ∃ y, F32.finite y ∈ row

theorem IsLogits.number {row : List F32} (h : IsLogits row) : ∀ x ∈ row, x ≠ .nan := by
  intro x hx hnan
  rcases h.masked_or_finite x hx with rfl | ⟨y, rfl⟩ <;> cases hnan

/-- The row has the finite maximum `top`. -/
structure Peaked (row : List F32) (top : Rat) : Prop where
  mem : F32.finite top ∈ row
  le : ∀ x ∈ row, x = .infinity true ∨ ∃ y ≤ top, x = .finite y

/-- The row has no NaN, and its maximum is an infinity. -/
structure Unpeaked (row : List F32) : Prop where
  nonempty : row ≠ []
  number : ∀ x ∈ row, x ≠ .nan
  top : F32.infinity false ∈ row ∨ ∀ x ∈ row, x = .infinity true

/-! ### The maximum

Without a NaN the values are totally ordered, and `std::max` folds to the greatest of them. 
From there on there are two cases. -/

theorem F32.le_refl {x : F32} (h : x ≠ .nan) : x.le x = true := by
  cases x with
  | nan => exact absurd rfl h
  | infinity s => cases s <;> rfl
  | finite a => simp [F32.le]

theorem F32.le_trans {x y z : F32} (hxy : x.le y = true) (hyz : y.le z = true) :
    x.le z = true := by
  cases x <;> cases y <;> cases z <;> simp only [F32.le, Bool.or_eq_true, Bool.not_eq_true',
    decide_eq_true_eq, Bool.false_eq_true] at hxy hyz ⊢
  case infinity.infinity.infinity a b c => cases a <;> cases b <;> simp_all
  case finite.finite.finite a b c => exact Rat.le_trans hxy hyz
  all_goals simp_all

theorem F32.lt_eq_not_le {x y : F32} (hx : x ≠ .nan) (hy : y ≠ .nan) : x.lt y = !y.le x := by
  cases x with
  | nan => exact absurd rfl hx
  | infinity s =>
      cases y with
      | nan => exact absurd rfl hy
      | infinity s' => cases s <;> cases s' <;> rfl
      | finite b => cases s <;> rfl
  | finite a =>
      cases y with
      | nan => exact absurd rfl hy
      | infinity s' => cases s' <;> rfl
      | finite b =>
          rw [Bool.eq_iff_iff]
          simp [F32.lt, F32.le]

theorem F32.le_of_lt {x y : F32} (hx : x ≠ .nan) (hy : y ≠ .nan) (h : x.lt y = true) :
    x.le y = true := by
  cases x with
  | nan => exact absurd rfl hx
  | infinity s =>
      cases y with
      | nan => exact absurd rfl hy
      | infinity s' => cases s <;> cases s' <;> first | rfl | exact h
      | finite b => exact h
  | finite a =>
      cases y with
      | nan => exact absurd rfl hy
      | infinity s' => exact h
      | finite b =>
          simp only [F32.lt, F32.le, decide_eq_true_eq] at h ⊢
          exact h.le

theorem F32.max_spec {a b : F32} (ha : a ≠ .nan) (hb : b ≠ .nan) :
    (F32.max a b = a ∨ F32.max a b = b) ∧ a.le (F32.max a b) = true ∧
      b.le (F32.max a b) = true := by
  unfold F32.max
  by_cases h : a.lt b = true
  · rw [if_pos h]
    exact ⟨.inr rfl, F32.le_of_lt ha hb h, F32.le_refl hb⟩
  · rw [if_neg h]
    refine ⟨.inl rfl, F32.le_refl ha, ?_⟩
    rw [F32.lt_eq_not_le ha hb] at h
    simpa using h

/-- The fold of `std::max` is one of the values and above all of them. -/
theorem foldl_max_spec : ∀ (row : List F32) (a : F32), a ≠ .nan → (∀ x ∈ row, x ≠ .nan) →
    (row.foldl F32.max a = a ∨ row.foldl F32.max a ∈ row) ∧
      a.le (row.foldl F32.max a) = true ∧ ∀ x ∈ row, x.le (row.foldl F32.max a) = true := by
  intro row
  induction row with
  | nil => intro a ha _; exact ⟨.inl rfl, F32.le_refl ha, by simp⟩
  | cons x row ih =>
      intro a ha hrow
      have hx : x ≠ .nan := hrow x (by simp)
      obtain ⟨hone, hamax, hxmax⟩ := F32.max_spec ha hx
      have hmax : F32.max a x ≠ .nan := by
        rcases hone with h | h <;> rw [h] <;> assumption
      obtain ⟨hmem, hle, hall⟩ :=
        ih (F32.max a x) hmax fun z hz => hrow z (List.mem_cons_of_mem _ hz)
      rw [List.foldl_cons]
      refine ⟨?_, F32.le_trans hamax hle, ?_⟩
      · rcases hmem with h | h
        · rw [h]
          rcases hone with h' | h'
          · exact .inl h'
          · rw [h']; exact .inr (by simp)
        · exact .inr (List.mem_cons_of_mem _ h)
      · intro z hz
        rcases List.mem_cons.mp hz with rfl | h
        · exact F32.le_trans hxmax hle
        · exact hall z h

theorem Peaked.number {row : List F32} {top : Rat} (h : Peaked row top) :
    ∀ x ∈ row, x ≠ .nan := by
  intro x hx hnan
  rcases h.le x hx with rfl | ⟨y, _, rfl⟩ <;> cases hnan

theorem Peaked.max_eq {row : List F32} {top : Rat} (h : Peaked row top) :
    maxLogit row = .finite top := by
  obtain ⟨hmem, _, hall⟩ := foldl_max_spec row (.infinity true) nofun h.number
  have htop := hall _ h.mem
  unfold maxLogit
  rcases hmem with hm | hm
  · rw [hm] at htop
    exact absurd htop (by simp [F32.le])
  · rcases h.le _ hm with hinf | ⟨y, hy, hfin⟩
    · rw [hinf] at htop
      exact absurd htop (by simp [F32.le])
    · rw [hfin] at htop ⊢
      simp only [F32.le, decide_eq_true_eq] at htop
      rw [le_antisymm hy htop]

/-- An unpeaked row has an entry whose shift by the maximum is no number. -/
theorem Unpeaked.shift {row : List F32} (h : Unpeaked row) (round : Rat → F32) :
    ∃ x ∈ row, x.sub round (maxLogit row) = .nan := by
  obtain ⟨hmem, _, hall⟩ := foldl_max_spec row (.infinity true) nofun h.number
  unfold maxLogit
  rcases h.top with hinf | hlow
  · refine ⟨_, hinf, ?_⟩
    have hle := hall _ hinf
    generalize row.foldl F32.max (.infinity true) = top at hle ⊢
    cases top with
    | nan => rfl
    | finite y => exact absurd hle (by simp [F32.le])
    | infinity s => cases s with
      | false => rfl
      | true => exact absurd hle (by simp [F32.le])
  · obtain ⟨x, hx⟩ := List.exists_mem_of_ne_nil row h.nonempty
    refine ⟨x, hx, ?_⟩
    have htop : row.foldl F32.max (.infinity true) = .infinity true := by
      rcases hmem with hm | hm
      · exact hm
      · exact hlow _ hm
    rw [htop, hlow x hx]
    rfl

/-! ### Top-k

The filter never masks an entry with the greatest value. -/

theorem applyTopK_cases (row : List F32) (k : Int) :
    applyTopK row k = row ∨ ∃ threshold ∈ row,
      applyTopK row k = row.map fun x => if x.lt threshold then .infinity true else x := by
  unfold applyTopK
  by_cases h : k ≤ 0 ∨ (row.length : Int) ≤ k
  · rw [if_pos h]; exact .inl rfl
  · rw [if_neg h]
    refine .inr ⟨_, ?_, rfl⟩
    have hlen : (k - 1).toNat < (row.mergeSort fun a b => !a.lt b).length := by
      rw [List.length_mergeSort]; omega
    rw [List.getD_eq_getElem?_getD, List.getElem?_eq_getElem hlen, Option.getD_some]
    exact (List.mergeSort_perm row _).mem_iff.mp (List.getElem_mem hlen)

theorem applyTopK_length (row : List F32) (k : Int) : (applyTopK row k).length = row.length := by
  rcases applyTopK_cases row k with h | ⟨threshold, _, h⟩ <;> rw [h]
  exact List.length_map _

/-- The filter keeps a logit or masks it. -/
theorem applyTopK_getElem? (row : List F32) (k : Int) (v : Nat) :
    (applyTopK row k)[v]? = row[v]? ∨ (applyTopK row k)[v]? = some (.infinity true) := by
  rcases applyTopK_cases row k with h | ⟨threshold, _, h⟩
  · exact .inl (by rw [h])
  · rw [h, List.getElem?_map]
    cases row[v]? with
    | none => exact .inl rfl
    | some x =>
        by_cases hlt : x.lt threshold = true
        · exact .inr (by simp [hlt])
        · exact .inl (by simp [hlt])

/-- An entry above all others stays, and every entry is masked or stays. -/
theorem applyTopK_mem {row : List F32} {x : F32} (hx : x ∈ row) (k : Int)
    (habove : ∀ y ∈ row, x.lt y = false) : x ∈ applyTopK row k := by
  rcases applyTopK_cases row k with h | ⟨threshold, hmem, h⟩
  · rw [h]; exact hx
  · rw [h, List.mem_map]
    exact ⟨x, hx, by rw [if_neg]; simp [habove threshold hmem]⟩

theorem mem_applyTopK {row : List F32} {x : F32} {k : Int} (h : x ∈ applyTopK row k) :
    x ∈ row ∨ x = .infinity true := by
  rcases applyTopK_cases row k with hk | ⟨threshold, _, hk⟩
  · rw [hk] at h; exact .inl h
  · rw [hk, List.mem_map] at h
    obtain ⟨y, hy, rfl⟩ := h
    by_cases hlt : y.lt threshold = true
    · exact .inr (if_pos hlt)
    · rw [if_neg hlt]; exact .inl hy

theorem Peaked.topK {row : List F32} {top : Rat} (h : Peaked row top) (k : Int) :
    Peaked (applyTopK row k) top where
  mem := by
    refine applyTopK_mem h.mem k fun y hy => ?_
    rcases h.le y hy with rfl | ⟨z, hz, rfl⟩
    · rfl
    · simp only [F32.lt, decide_eq_false_iff_not, not_lt]; exact hz
  le := by
    intro x hx
    rcases mem_applyTopK hx with hrow | hinf
    · exact h.le x hrow
    · exact .inl hinf

theorem Unpeaked.topK {row : List F32} (h : Unpeaked row) (k : Int) :
    Unpeaked (applyTopK row k) where
  nonempty := by
    intro hnil
    have hlen := applyTopK_length row k
    rw [hnil] at hlen
    exact h.nonempty (List.length_eq_zero_iff.mp hlen.symm)
  number := by
    intro x hx
    rcases mem_applyTopK hx with hrow | hinf
    · exact h.number x hrow
    · rw [hinf]; nofun
  top := by
    rcases h.top with hinf | hlow
    · refine .inl (applyTopK_mem hinf k fun y hy => ?_)
      cases y with
      | nan => exact absurd rfl (h.number _ hy)
      | infinity s => cases s <;> rfl
      | finite y => rfl
    · refine .inr fun x hx => ?_
      rcases mem_applyTopK hx with hrow | hinf
      · exact hlow x hrow
      · exact hinf

/-! ### Softmax

For a peaked row the weight of the maximum is one, and no sum is zero.  For the others the shift
by an infinity gives a NaN at the maximum itself. -/

variable {m : FloatModel}

/-- A weight of the softmax. -/
def IsWeight (w : F32) : Prop := ∃ q, w = .finite q ∧ 0 ≤ q ∧ q ≤ 2

theorem sumDoubles_finite (hm : m.Lawful) : ∀ (weights : List F32) (acc : Rat), 0 ≤ acc →
    acc + 2 * weights.length ≤ 2 ^ 64 → (∀ w ∈ weights, IsWeight w) →
    ∃ s, weights.foldl (F32.add m.double) (.finite acc) = .finite s ∧ acc ≤ s ∧
      s ≤ acc + 2 * weights.length ∧ ∀ q, F32.finite q ∈ weights → q ≤ s := by
  intro weights
  induction weights with
  | nil => intro acc _ _ _; exact ⟨acc, rfl, le_refl _, by simp, by simp⟩
  | cons w weights ih =>
      intro acc hacc hlen hall
      obtain ⟨q, rfl, hq0, hq2⟩ := hall w (by simp)
      rw [List.length_cons] at hlen
      push_cast at hlen
      have hcount : (0 : Rat) ≤ weights.length := Nat.cast_nonneg _
      have hsum : |acc + q| ≤ 2 ^ 64 := by
        rw [abs_of_nonneg (by linarith)]
        linarith
      obtain ⟨s, hfold, hle, hbound, hmem⟩ := ih (acc + q) (by linarith) (by linarith)
        fun z hz => hall z (List.mem_cons_of_mem _ hz)
      refine ⟨s, ?_, by linarith, ?_, ?_⟩
      · rw [List.foldl_cons, show F32.add m.double (.finite acc) (.finite q) = .finite (acc + q)
          from hm.double_exact _ hsum, hfold]
      · rw [List.length_cons]
        push_cast
        linarith
      · intro r hr
        rcases List.mem_cons.mp hr with h | h
        · cases h; linarith
        · exact hmem r h

theorem sumDoubles_nan : ∀ (weights : List F32) (acc : F32), acc = .nan ∨ F32.nan ∈ weights →
    weights.foldl (F32.add m.double) acc = .nan := by
  intro weights
  induction weights with
  | nil => intro acc h; exact h.resolve_right (by simp)
  | cons w weights ih =>
      intro acc h
      rw [List.foldl_cons]
      rcases h with rfl | h
      · exact ih _ (.inl (by cases w <;> rfl))
      · rcases List.mem_cons.mp h with rfl | h
        · exact ih _ (.inl (by cases acc <;> rfl))
        · exact ih _ (.inr h)

theorem Peaked.weight {row : List F32} {top : Rat} (h : Peaked row top) (hm : m.Lawful) {x : F32}
    (hx : x ∈ row) : IsWeight (m.exp (x.sub m.single (maxLogit row))) := by
  rw [h.max_eq]
  rcases h.le x hx with rfl | ⟨y, hy, rfl⟩
  · exact ⟨0, hm.exp_negInf, le_refl _, by norm_num⟩
  · rcases hm.single_nonpos (y - top) (by linarith) with hs | ⟨z, hz, hs⟩
    · refine ⟨0, ?_, le_refl _, by norm_num⟩
      rw [show F32.sub m.single (.finite y) (.finite top) = .infinity true from hs]
      exact hm.exp_negInf
    · obtain ⟨w, hw, hw0, hw2⟩ := hm.exp_nonpos z hz
      refine ⟨w, ?_, hw0, hw2⟩
      rw [show F32.sub m.single (.finite y) (.finite top) = .finite z from hs, hw]

theorem Peaked.weight_top {row : List F32} {top : Rat} (h : Peaked row top) (hm : m.Lawful) :
    m.exp (F32.sub m.single (.finite top) (maxLogit row)) = .finite 1 := by
  rw [h.max_eq, show F32.sub m.single (.finite top) (.finite top) = .finite 0 by
    show m.single (top - top) = .finite 0
    rw [sub_self, hm.single_zero]]
  exact hm.exp_zero

/-- The softmax of a peaked row: every entry is a weight over one sum. -/
theorem softmax_peaked {row : List F32} {top : Rat} (h : Peaked row top) (hm : m.Lawful)
    (hlen : row.length ≤ 2 ^ 31) : ∃ s : Rat, 0 < s ∧ ∀ x ∈ row, ∃ q : Rat,
      m.exp (x.sub m.single (maxLogit row)) = .finite q ∧
      (m.exp (x.sub m.single (maxLogit row))).mul m.double
        (F32.div m.double (.finite 1) (sumDoubles m (expShifted m row))) = .finite (q / s) := by
  have hweights : ∀ w ∈ expShifted m row, IsWeight w := by
    intro w hw
    obtain ⟨x, hx, rfl⟩ := List.mem_map.mp hw
    exact h.weight hm hx
  have hone : F32.finite 1 ∈ expShifted m row :=
    List.mem_map.mpr ⟨_, h.mem, h.weight_top hm⟩
  have hcount : ((expShifted m row).length : Rat) ≤ 2 ^ 31 := by
    rw [expShifted, List.length_map]
    exact_mod_cast hlen
  obtain ⟨s, hsum, _, _, hmem⟩ := sumDoubles_finite hm (expShifted m row) 0 (le_refl _)
    (by linarith) hweights
  have hs1 : 1 ≤ s := hmem 1 hone
  have hinv : F32.div m.double (.finite 1) (sumDoubles m (expShifted m row))
      = .finite (1 / s) := by
    unfold sumDoubles
    rw [hsum]
    refine (if_neg (by linarith)).trans (hm.double_exact _ ?_)
    rw [abs_of_nonneg (by positivity)]
    exact le_trans ((div_le_one (by linarith)).mpr hs1) (by norm_num)
  refine ⟨s, by linarith, ?_⟩
  intro x hx
  obtain ⟨q, hq, hq0, hq2⟩ := h.weight hm hx
  refine ⟨q, hq, ?_⟩
  rw [hinv, hq]
  have hdiv : |q * (1 / s)| ≤ 2 ^ 64 := by
    rw [abs_of_nonneg (mul_nonneg hq0 (by positivity))]
    calc q * (1 / s) ≤ 2 * 1 :=
          mul_le_mul hq2 ((div_le_one (by linarith)).mpr hs1) (by positivity) (by norm_num)
      _ ≤ 2 ^ 64 := by norm_num
  refine (hm.double_exact _ hdiv).trans ?_
  rw [mul_one_div]

theorem softmax_length (row : List F32) : (softmax m row).length = row.length := by
  simp [softmax, expShifted]

/-- Some token has a positive probability. -/
theorem Peaked.softmax_pos {row : List F32} {top : Rat} (h : Peaked row top) (hm : m.Lawful)
    (hlen : row.length ≤ 2 ^ 31) : ∃ p ∈ softmax m row, F32.lt (.finite 0) p = true := by
  obtain ⟨s, hs, hall⟩ := softmax_peaked h hm hlen
  obtain ⟨q, hq, hp⟩ := hall _ h.mem
  rw [h.weight_top hm] at hq
  cases hq
  refine ⟨.finite (1 / s), ?_, ?_⟩
  · exact List.mem_map.mpr ⟨_, List.mem_map.mpr ⟨_, h.mem, rfl⟩, hp⟩
  · simp only [F32.lt, decide_eq_true_eq]
    positivity

/-- A token with a positive probability is not masked. -/
theorem Peaked.not_masked {row : List F32} {top : Rat} (h : Peaked row top) (hm : m.Lawful)
    (hlen : row.length ≤ 2 ^ 31) {v : Nat} {p : F32} (hv : (softmax m row)[v]? = some p)
    (hp : F32.lt (.finite 0) p = true) : row[v]? ≠ some (.infinity true) := by
  intro hmask
  obtain ⟨s, hs, hall⟩ := softmax_peaked h hm hlen
  obtain ⟨q, hq, hmul⟩ := hall _ (List.mem_of_getElem? hmask)
  rw [h.max_eq] at hq
  have hzero : m.exp (.infinity true) = .finite q := hq
  rw [hm.exp_negInf] at hzero
  cases hzero
  unfold softmax expShifted at hv
  rw [List.getElem?_map, List.getElem?_map, hmask] at hv
  simp only [Option.map_some, Option.some.injEq] at hv
  rw [← hv, show row.map (fun x => m.exp (x.sub m.single (maxLogit row))) = expShifted m row
    from rfl, hmul] at hp
  simp [F32.lt] at hp

/-- The softmax of an unpeaked row has no number in it. -/
theorem Unpeaked.softmax_nan {row : List F32} (h : Unpeaked row) (hm : m.Lawful) :
    ∀ p ∈ softmax m row, p = .nan := by
  obtain ⟨x, hx, hshift⟩ := h.shift m.single
  have hmem : F32.nan ∈ expShifted m row :=
    List.mem_map.mpr ⟨x, hx, by rw [hshift, hm.exp_nan]⟩
  intro p hp
  unfold softmax at hp
  obtain ⟨w, _, rfl⟩ := List.mem_map.mp hp
  unfold sumDoubles
  rw [sumDoubles_nan _ _ (.inr hmem)]
  cases w <;> rfl

end InferenceEngine
