/-
Choices by weight: prefixes of an ordered list that reach a mass, and the index at which a
running sum crosses a value.

A cut of a list is the number of its items whose predecessors have not reached the threshold.
In a strictly ordered list the predecessors of an item can be named without the list, as the
items that come before it in the order, so two lists of the same items are cut alike, and items
without weight do not matter.  The crossing index of a running sum is unique, and as a function
of the value it divides the line into one interval for each weight, as long as the weight.
-/
import Mathlib.Algebra.BigOperators.Group.List.Basic
import Mathlib.Algebra.Order.BigOperators.Group.List
import Mathlib.Algebra.Order.Field.Basic
import Mathlib.Data.List.Nodup
import Mathlib.Tactic.Linarith

/-! ### Prefixes

The mass of the prefixes of a list does not go down, so there is a shortest one that reaches a
threshold. -/

namespace WeightedPrefix

variable {ι α : Type}

section

variable [AddCommMonoid α]

/-- The mass of some items. -/
def mass (f : ι → α) (l : List ι) : α := (l.map f).sum

theorem mass_perm {f : ι → α} {l l' : List ι} (h : l.Perm l') : mass f l = mass f l' :=
  (h.map f).sum_eq

theorem mass_append (f : ι → α) (l l' : List ι) : mass f (l ++ l') = mass f l + mass f l' := by
  simp [mass]

/-- Items without weight add nothing. -/
theorem mass_filter {f : ι → α} {p : ι → Bool} : ∀ {l : List ι},
    (∀ i ∈ l, p i = false → f i = 0) → mass f (l.filter p) = mass f l := by
  intro l
  induction l with
  | nil => intro _; rfl
  | cons i rest ih =>
      intro h
      have hrest := ih fun j hj => h j (List.mem_cons_of_mem _ hj)
      unfold mass at hrest ⊢
      cases hp : p i with
      | true => simp [hp, hrest]
      | false => simp [hp, hrest, h i (by simp) hp]

end

/-- `n` cuts `l` at the threshold `t`: it counts the items that `t` is not reached before. -/
def IsCut [AddCommMonoid α] [LinearOrder α] (f : ι → α) (t : α) (l : List ι) (n : Nat) : Prop :=
  ∀ k, k < n ↔ k < l.length ∧ mass f (l.take k) < t

section

variable [AddCommMonoid α] [LinearOrder α] [IsOrderedAddMonoid α] {f : ι → α} {t : α}
  {l : List ι}

/-- The length of the shortest prefix that reaches `t`; the whole length if none does. -/
def shortestPrefix (f : ι → α) (t : α) (l : List ι) : Nat :=
  ((List.range l.length).find? fun k => t ≤ mass f (l.take k)).getD l.length

theorem mass_nonneg (hf : ∀ i ∈ l, 0 ≤ f i) : 0 ≤ mass f l := by
  refine List.sum_nonneg fun x hx => ?_
  obtain ⟨i, hi, rfl⟩ := List.mem_map.mp hx
  exact hf i hi

theorem mass_take_mono (hf : ∀ i ∈ l, 0 ≤ f i) {j k : Nat} (h : j ≤ k) :
    mass f (l.take j) ≤ mass f (l.take k) := by
  have hsplit : l.take k = l.take j ++ (l.take k).drop j := by
    conv_lhs => rw [← List.take_append_drop j (l.take k)]
    rw [List.take_take, Nat.min_eq_left h]
  rw [hsplit, mass_append]
  refine le_add_of_nonneg_right (mass_nonneg fun i hi => hf i ?_)
  exact List.mem_of_mem_take (List.mem_of_mem_drop hi)

theorem shortestPrefix_isCut (hf : ∀ i ∈ l, 0 ≤ f i) : IsCut f t l (shortestPrefix f t l) := by
  intro k
  unfold shortestPrefix
  cases hfind : (List.range l.length).find? fun k => decide (t ≤ mass f (l.take k)) with
  | none =>
      rw [Option.getD_none]
      refine ⟨fun hk => ⟨hk, ?_⟩, fun h => h.1⟩
      have hnot := List.find?_eq_none.mp hfind k (List.mem_range.mpr hk)
      simpa using hnot
  | some n =>
      rw [Option.getD_some]
      obtain ⟨hn, hmem, hbefore⟩ := List.find?_range_eq_some.mp hfind
      have hreached : t ≤ mass f (l.take n) := by simpa using hn
      constructor
      · intro hk
        have hnot := hbefore k hk
        exact ⟨by have := List.mem_range.mp hmem; omega, by simpa using hnot⟩
      · intro h
        by_contra hle
        have hmono := mass_take_mono hf (Nat.le_of_not_lt hle)
        exact absurd (lt_of_le_of_lt (le_trans hreached hmono) h.2) (lt_irrefl t)

end

section

variable [AddCommMonoid α] [LinearOrder α] {f : ι → α} {t : α} {l : List ι}
  {r : ι → ι → Bool}

/-- In an ordered list the items that come before one stand in front of it. -/
theorem filter_before (hasymm : ∀ i j, r i j = true → r j i = false) {before after : List ι}
    {i : ι} (hordered : (before ++ i :: after).Pairwise fun i j => r i j = true) :
    (before ++ i :: after).filter (fun j => r j i) = before := by
  obtain ⟨_, htail, hcross⟩ := List.pairwise_append.mp hordered
  have hself : r i i = false := by
    by_contra hr
    exact hr (hasymm i i (by simpa using hr))
  have hbefore : (before.filter fun j => r j i) = before := by
    rw [List.filter_eq_self]
    exact fun j hj => hcross j hj i (by simp)
  have hbehind : (after.filter fun j => r j i) = [] := by
    rw [List.filter_eq_nil_iff]
    intro j hj
    rw [hasymm _ _ ((List.pairwise_cons.mp htail).1 j hj)]
    simp
  rw [List.filter_append, hbefore, List.filter_cons_of_neg (by rw [hself]; simp), hbehind,
    List.append_nil]

/-- **An item stands in front of the cut exactly when the items before it do not reach the
threshold.** -/
theorem IsCut.mem_take {n : Nat} (h : IsCut f t l n)
    (hasymm : ∀ i j, r i j = true → r j i = false)
    (hordered : l.Pairwise fun i j => r i j = true) {i : ι} :
    i ∈ l.take n ↔ i ∈ l ∧ mass f (l.filter fun j => r j i) < t := by
  have hbefore : ∀ k, l[k]? = some i → (l.filter fun j => r j i) = l.take k := by
    intro k hk
    obtain ⟨hlt, hget⟩ := List.getElem?_eq_some_iff.mp hk
    have hsplit : l.take k ++ i :: l.drop (k + 1) = l := by
      rw [← hget, List.cons_getElem_drop_succ, List.take_append_drop]
    rw [← hsplit] at hordered
    have hfilter := filter_before hasymm hordered
    rwa [hsplit] at hfilter
  constructor
  · intro hi
    obtain ⟨k, hk⟩ := List.mem_iff_getElem?.mp hi
    have hkn : k < n := by
      have hlt := (List.getElem?_eq_some_iff.mp hk).1
      rw [List.length_take] at hlt
      omega
    rw [List.getElem?_take_of_lt hkn] at hk
    refine ⟨List.mem_of_getElem? hk, ?_⟩
    rw [hbefore k hk]
    exact ((h k).mp hkn).2
  · intro hi
    obtain ⟨hmem, hmass⟩ := hi
    obtain ⟨k, hk⟩ := List.mem_iff_getElem?.mp hmem
    rw [hbefore k hk] at hmass
    have hkn := (h k).mpr ⟨(List.getElem?_eq_some_iff.mp hk).1, hmass⟩
    refine List.mem_of_getElem? (i := k) ?_
    rw [List.getElem?_take_of_lt hkn]
    exact hk

end

end WeightedPrefix

/-! ### Crossing

An index is chosen for the thresholds between the sums before it and after it: an interval as
long as its weight. -/

namespace RunningSum

variable {α : Type}

/-- The running sum of `weights` crosses `t` at the index `v`. -/
def Crosses [AddCommMonoid α] [LinearOrder α] (weights : List α) (t : α) (v : Nat) : Prop :=
  (weights.take v).sum ≤ t ∧ t < (weights.take (v + 1)).sum

/-- The weight by which a running sum grows. -/
theorem sum_take_succ [AddCommMonoid α] {weights : List α} {v : Nat} {w : α}
    (hv : weights[v]? = some w) :
    (weights.take (v + 1)).sum = (weights.take v).sum + w := by
  rw [List.take_add_one, hv]
  simp

theorem crosses_cons_zero [AddCommMonoid α] [LinearOrder α] {weights : List α} {t w : α}
    (h0 : 0 ≤ t) (h : t < w) : Crosses (w :: weights) t 0 :=
  ⟨by simpa using h0, by simpa using h⟩

theorem interval_length [Field α] {weights : List α} {v : Nat} {w : α}
    (hv : weights[v]? = some w) :
    (weights.take (v + 1)).sum / weights.sum - (weights.take v).sum / weights.sum
      = w / weights.sum := by
  rw [sum_take_succ hv, ← sub_div, add_sub_cancel_left]

variable [Field α] [LinearOrder α] [IsStrictOrderedRing α] {weights : List α} {t : α} {v : Nat}

theorem sum_take_mono (hw : ∀ w ∈ weights, 0 ≤ w) {j k : Nat} (h : j ≤ k) :
    (weights.take j).sum ≤ (weights.take k).sum := by
  have hmono := WeightedPrefix.mass_take_mono (f := id) hw h
  unfold WeightedPrefix.mass at hmono
  rwa [List.map_id, List.map_id] at hmono

theorem Crosses.pos (h : Crosses weights t v) : ∃ w, weights[v]? = some w ∧ 0 < w := by
  obtain ⟨hle, hlt⟩ := h
  cases hv : weights[v]? with
  | none =>
      have hlen := List.getElem?_eq_none_iff.mp hv
      rw [List.take_of_length_le (by omega)] at hle hlt
      exact absurd (lt_of_le_of_lt hle hlt) (lt_irrefl _)
  | some w =>
      rw [sum_take_succ hv] at hlt
      exact ⟨w, rfl, by linarith⟩

/-- **A running sum crosses a value once.** -/
theorem Crosses.unique (hw : ∀ w ∈ weights, 0 ≤ w) {v' : Nat} (h : Crosses weights t v)
    (h' : Crosses weights t v') : v = v' := by
  rcases Nat.lt_trichotomy v v' with hlt | heq | hgt
  · exact absurd (lt_of_le_of_lt (le_trans (sum_take_mono hw hlt) h'.1) h.2) (lt_irrefl _)
  · exact heq
  · exact absurd (lt_of_le_of_lt (le_trans (sum_take_mono hw hgt) h.1) h'.2) (lt_irrefl _)

theorem crosses_cons_succ {w : α} (h : Crosses weights (t - w) v) :
    Crosses (w :: weights) t (v + 1) := by
  obtain ⟨hle, hlt⟩ := h
  refine ⟨?_, ?_⟩
  · rw [List.take_succ_cons, List.sum_cons]
    linarith
  · rw [List.take_succ_cons, List.sum_cons]
    linarith

/-- **Each index is crossed for the values of one interval, as long as its weight.** -/
theorem crosses_mul_iff {u : α} (hsum : 0 < weights.sum) :
    Crosses weights (u * weights.sum) v ↔
      (weights.take v).sum / weights.sum ≤ u ∧ u < (weights.take (v + 1)).sum / weights.sum := by
  unfold Crosses
  rw [div_le_iff₀ hsum, lt_div_iff₀ hsum]

end RunningSum
