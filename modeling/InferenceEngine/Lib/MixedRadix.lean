/-
Numbers in a mixed radix, most significant digit first.

Digits are bounded by radices, and each digit has a weight.  Under the weights the radices
themselves give, digits and the numbers below the product of the radices correspond one to
one; under other weights a digit list still names a number, and the last section says when
that is the same number.  Counting up is an odometer: it carries from the last digit.
-/
import Mathlib.Algebra.Order.BigOperators.Group.List
import Mathlib.Algebra.Order.BigOperators.GroupWithZero.List
import Mathlib.Data.List.Forall2
import Mathlib.Tactic.Ring

namespace MixedRadix

/-- What one unit of each digit is worth. -/
def strides : List Nat → List Nat
  | [] => []
  | _ :: ds => ds.prod :: strides ds

/-- The number that digits make under given weights. -/
def offset : List Nat → List Nat → Nat
  | i :: is, s :: ss => i * s + offset is ss
  | _, _ => 0

/-- Every digit is below its radix. -/
abbrev Within (is ds : List Nat) : Prop := List.Forall₂ (· < ·) is ds

/-- All digit lists, the last digit running fastest. -/
def indices : List Nat → List (List Nat)
  | [] => [[]]
  | d :: ds => (List.range d).flatMap fun i => (indices ds).map (i :: ·)

/-- The digits of zero. -/
def zeros (ds : List Nat) : List Nat := ds.map fun _ => 0

@[simp] theorem length_strides (ds : List Nat) : (strides ds).length = ds.length := by
  induction ds with
  | nil => rfl
  | cons d ds ih => simp [strides, ih]

@[simp] theorem offset_cons (i s : Nat) (is ss : List Nat) :
    offset (i :: is) (s :: ss) = i * s + offset is ss := rfl

theorem Within.of_le {is ds ps : List Nat} (h : Within is ds)
    (hle : List.Forall₂ (· ≤ ·) ds ps) : Within is ps := by
  induction h generalizing ps with
  | nil =>
      cases hle
      exact .nil
  | cons hi _ ih =>
      cases hle with
      | cons hd hrest => exact .cons (Nat.lt_of_lt_of_le hi hd) (ih hrest)

theorem Within.prod_pos {is ds : List Nat} (h : Within is ds) : 0 < ds.prod := by
  induction h with
  | nil => simp
  | cons hi _ ih =>
      rw [List.prod_cons]
      exact Nat.mul_pos (by omega) ih

theorem mem_indices {is ds : List Nat} : is ∈ indices ds ↔ Within is ds := by
  induction ds generalizing is with
  | nil =>
      rw [indices, List.mem_singleton]
      constructor
      · rintro rfl
        exact .nil
      · intro h
        cases h
        rfl
  | cons d ds ih =>
      simp only [indices, List.mem_flatMap, List.mem_range, List.mem_map, ih]
      constructor
      · rintro ⟨i, hi, js, hjs, rfl⟩
        exact .cons hi hjs
      · intro h
        cases h with
        | cons hi hrest => exact ⟨_, hi, _, hrest, rfl⟩

theorem zeros_within {ds : List Nat} (h : ds.prod ≠ 0) : Within (zeros ds) ds := by
  induction ds with
  | nil => exact .nil
  | cons d ds ih =>
      rw [List.prod_cons] at h
      exact .cons (Nat.pos_of_ne_zero (left_ne_zero_of_mul h)) (ih (right_ne_zero_of_mul h))

@[simp] theorem offset_zeros (ds ss : List Nat) : offset (zeros ds) ss = 0 := by
  induction ds generalizing ss with
  | nil => cases ss <;> rfl
  | cons d ds ih =>
      cases ss with
      | nil => rfl
      | cons s ss => simpa [zeros] using ih ss

/-! ### Digits and numbers

A list of digits below their radices is a number below the product of the radices, and each such
number is one list. -/

theorem offset_lt {is ds : List Nat} (h : Within is ds) :
    offset is (strides ds) < ds.prod := by
  induction h with
  | nil => simp [offset]
  | @cons i d is ds hi _ ih =>
      rw [strides, offset_cons, List.prod_cons]
      calc i * ds.prod + offset is (strides ds)
          < i * ds.prod + ds.prod := by omega
        _ = (i + 1) * ds.prod := by ring
        _ ≤ d * ds.prod := Nat.mul_le_mul_right _ hi

/-- **Digits are determined by the number they make.** -/
theorem offset_inj {is js ds : List Nat} (hi : Within is ds) (hj : Within js ds)
    (h : offset is (strides ds) = offset js (strides ds)) : is = js := by
  induction hi generalizing js with
  | nil =>
      cases hj
      rfl
  | @cons i d is ds hid hrest ih =>
      cases hj with
      | @cons j _ js _ hjd hjs =>
          rw [strides, offset_cons, offset_cons] at h
          have hilt := offset_lt hrest
          have hjlt := offset_lt hjs
          have hij : i = j := by
            have hi' := Nat.add_mul_div_right (offset is (strides ds)) i (Within.prod_pos hrest)
            have hj' := Nat.add_mul_div_right (offset js (strides ds)) j (Within.prod_pos hrest)
            rw [Nat.div_eq_of_lt hilt] at hi'
            rw [Nat.div_eq_of_lt hjlt] at hj'
            rw [Nat.add_comm] at hi' hj'
            rw [h] at hi'
            omega
          subst hij
          rw [ih hjs (by omega)]

/-- **The lists come in the order of their numbers.** -/
theorem map_offset_indices (ds : List Nat) :
    (indices ds).map (offset · (strides ds)) = List.range ds.prod := by
  induction ds with
  | nil => rfl
  | cons d ds ih =>
      rw [indices, List.map_flatMap, List.prod_cons]
      have hrow : ∀ i, (List.map (i :: ·) (indices ds)).map (offset · (strides (d :: ds)))
          = (List.range ds.prod).map (i * ds.prod + ·) := by
        intro i
        rw [← ih, List.map_map, List.map_map]
        rfl
      simp only [hrow]
      clear hrow
      induction d with
      | zero => simp
      | succ d ihd =>
          rw [List.range_succ, List.flatMap_append, ihd, Nat.succ_mul, List.range_add]
          simp

theorem length_indices (ds : List Nat) : (indices ds).length = ds.prod := by
  rw [← List.length_map (offset · (strides ds)), map_offset_indices, List.length_range]

theorem exists_offset {ds : List Nat} {k : Nat} (h : k < ds.prod) :
    ∃ is, Within is ds ∧ offset is (strides ds) = k := by
  have hk : k ∈ (indices ds).map (offset · (strides ds)) := by
    rw [map_offset_indices]
    exact List.mem_range.mpr h
  obtain ⟨is, his, hk⟩ := List.mem_map.mp hk
  exact ⟨is, mem_indices.mp his, hk⟩

/-- Two enumerations of the same numbers are the same list. -/
theorem eq_indices {l : List (List Nat)} {ds : List Nat} (hin : ∀ is ∈ l, Within is ds)
    (hoff : l.map (offset · (strides ds)) = List.range ds.prod) : l = indices ds := by
  have hmap := hoff.trans (map_offset_indices ds).symm
  have hlen : l.length = (indices ds).length := by
    simpa using congrArg List.length hmap
  refine List.ext_getElem hlen ?_
  intro k hk hk'
  have hval : offset l[k] (strides ds) = offset (indices ds)[k] (strides ds) := by
    have := List.getElem_of_eq hmap (i := k) (by simpa using hk)
    simpa using this
  exact offset_inj (hin _ (List.getElem_mem hk)) (mem_indices.mp (List.getElem_mem hk')) hval

/-! ### The odometer

Counting up the last digit, with a carry to the left, goes through the lists in the order of
their numbers. -/

/-- One step up, and whether it ran over. -/
def step : List Nat → List Nat → List Nat × Bool
  | d :: ds, i :: is =>
      match step ds is with
      | (is', false) => (i :: is', false)
      | (is', true) => if i + 1 < d then ((i + 1) :: is', false) else (0 :: is', true)
  | _, _ => ([], true)

/-- The digits from `is` on, `n` of them. -/
def walk (ds : List Nat) : Nat → List Nat → List (List Nat)
  | 0, _ => []
  | n + 1, is => is :: walk ds n (step ds is).1

theorem step_spec {is ds : List Nat} (h : Within is ds) :
    Within (step ds is).1 ds ∧
      offset (step ds is).1 (strides ds) + (if (step ds is).2 then ds.prod else 0)
        = offset is (strides ds) + 1 := by
  induction h with
  | nil => exact ⟨.nil, rfl⟩
  | @cons i d is ds hid hrest ih =>
      obtain ⟨hin, hval⟩ := ih
      rw [step]
      generalize step ds is = r at hin hval
      obtain ⟨is', carry⟩ := r
      cases carry with
      | false =>
          refine ⟨.cons hid hin, ?_⟩
          simp only [strides, offset_cons, Bool.false_eq_true, if_false] at hval ⊢
          omega
      | true =>
          simp only [if_true] at hval
          by_cases hlast : i + 1 < d
          · simp only [if_pos hlast]
            refine ⟨.cons hlast hin, ?_⟩
            simp only [strides, offset_cons, Bool.false_eq_true, if_false, Nat.succ_mul]
            omega
          · simp only [if_neg hlast]
            refine ⟨.cons (by omega) hin, ?_⟩
            have hd : d = i + 1 := by omega
            subst hd
            simp only [strides, offset_cons, if_true, List.prod_cons, Nat.succ_mul]
            omega

theorem walk_spec (ds : List Nat) (n : Nat) :
    ∀ is, Within is ds → offset is (strides ds) + n ≤ ds.prod →
      (∀ js ∈ walk ds n is, Within js ds) ∧
        (walk ds n is).map (offset · (strides ds))
          = List.range' (offset is (strides ds)) n := by
  induction n with
  | zero => intro is _ _; exact ⟨by simp [walk], rfl⟩
  | succ n ih =>
      intro is hin hroom
      obtain ⟨hstep, hval⟩ := step_spec hin
      rw [walk, List.map_cons, List.range'_succ]
      cases n with
      | zero => exact ⟨by simpa [walk] using hin, rfl⟩
      | succ n =>
          -- with another digit list to come the odometer has not run over
          have hnext : offset (step ds is).1 (strides ds) = offset is (strides ds) + 1 := by
            split at hval
            · omega
            · exact hval
          obtain ⟨hall, hmap⟩ := ih _ hstep (by omega)
          refine ⟨?_, ?_⟩
          · intro js hjs
            rcases List.mem_cons.mp hjs with rfl | hjs
            · exact hin
            · exact hall js hjs
          · rw [hmap, hnext]

/-- **From zero the odometer shows every digit list once, in order.** -/
theorem walk_zeros (ds : List Nat) : walk ds ds.prod (zeros ds) = indices ds := by
  by_cases h : ds.prod = 0
  · rw [h]
    exact (List.eq_nil_of_length_eq_zero ((length_indices ds).trans h)).symm
  · obtain ⟨hall, hmap⟩ := walk_spec ds ds.prod (zeros ds) (zeros_within h) (by simp)
    refine eq_indices hall ?_
    rw [hmap, offset_zeros, List.range_eq_range']

/-! ### Other weights

A digit may have another weight than the product of the radices behind it.  Where the numbers
nevertheless come out the same, only a digit whose radix is one can have a weight of its own. -/

/-- The weights give every digit list the number the radices give it. -/
def Dense : List Nat → List Nat → Prop
  | d :: ds, s :: ss => (d = 1 ∨ s = ds.prod) ∧ Dense ds ss
  | [], [] => True
  | _, _ => False

theorem dense_strides (ds : List Nat) : Dense ds (strides ds) := by
  induction ds with
  | nil => trivial
  | cons d ds ih => exact ⟨.inr rfl, ih⟩

theorem Dense.offset_eq {ds ss is : List Nat} (h : Dense ds ss) (hin : Within is ds) :
    offset is ss = offset is (strides ds) := by
  induction hin generalizing ss with
  | nil => cases ss <;> rfl
  | @cons i d is ds hid hrest ih =>
      cases ss with
      | nil => exact absurd h id
      | cons s ss =>
          rw [strides, offset_cons, offset_cons, ih h.2]
          rcases h.1 with rfl | rfl
          · rw [show i = 0 by omega, Nat.zero_mul, Nat.zero_mul]
          · rfl

theorem dense_of_offset_eq {ds ss : List Nat} (hpos : ds.prod ≠ 0)
    (hlen : ss.length = ds.length)
    (h : ∀ is, Within is ds → offset is ss = offset is (strides ds)) : Dense ds ss := by
  induction ds generalizing ss with
  | nil =>
      rw [List.length_nil, List.length_eq_zero_iff] at hlen
      subst hlen
      trivial
  | cons d ds ih =>
      cases ss with
      | nil => cases hlen
      | cons s ss =>
          rw [List.prod_cons] at hpos
          have hd : d ≠ 0 := left_ne_zero_of_mul hpos
          have hrest : ds.prod ≠ 0 := right_ne_zero_of_mul hpos
          refine ⟨?_, ih hrest (by simpa using hlen) ?_⟩
          · by_cases hone : d = 1
            · exact .inl hone
            · -- the digit list with a single one compares this weight
              have hunit := h (1 :: zeros ds) (.cons (by omega) (zeros_within hrest))
              exact .inr (by simpa [strides] using hunit)
          · intro is his
            have hzero := h (0 :: is) (.cons (by omega) his)
            simpa [strides] using hzero

theorem Within.set {is ds : List Nat} {k a d : Nat} (h : Within is (ds.set k d))
    (hk : k < is.length) (hkd : k < ds.length) (hd : a + d ≤ ds[k]) :
    Within (is.set k (is[k] + a)) ds := by
  obtain ⟨hlen, hall⟩ := List.forall₂_iff_get.mp h
  rw [List.length_set] at hlen
  refine List.forall₂_iff_get.mpr ⟨by simpa using hlen, ?_⟩
  intro j hj hj'
  have hdigit := hall j (by simpa using hj) (by simpa using hj')
  simp only [List.get_eq_getElem, List.getElem_set] at hdigit ⊢
  by_cases hkj : k = j
  · subst hkj
    rw [if_pos rfl] at hdigit ⊢
    omega
  · rw [if_neg hkj] at hdigit ⊢
    exact hdigit

theorem forall₂_le_set {ds ps : List Nat} {k d : Nat} (h : List.Forall₂ (· ≤ ·) ds ps)
    (hk : k < ds.length) (hd : d ≤ ds[k]) : List.Forall₂ (· ≤ ·) (ds.set k d) ps := by
  obtain ⟨hlen, hall⟩ := List.forall₂_iff_get.mp h
  refine List.forall₂_iff_get.mpr ⟨by simpa using hlen, ?_⟩
  intro j hj hj'
  have hle := hall j (by simpa using hj) hj'
  simp only [List.get_eq_getElem, List.getElem_set] at hle ⊢
  by_cases hkj : k = j
  · subst hkj
    rw [if_pos rfl]
    omega
  · rw [if_neg hkj]
    exact hle

/-- Adding to one digit adds that many of its weight. -/
theorem offset_set {is ss : List Nat} {k a : Nat} (hk : k < is.length) (hs : k < ss.length) :
    offset (is.set k (is[k] + a)) ss = offset is ss + a * ss[k] := by
  induction k generalizing is ss with
  | zero =>
      cases is with
      | nil => simp at hk
      | cons i is =>
          cases ss with
          | nil => simp at hs
          | cons s ss =>
              simp only [List.getElem_cons_zero, List.set_cons_zero, offset_cons]
              ring
  | succ k ih =>
      cases is with
      | nil => simp at hk
      | cons i is =>
          cases ss with
          | nil => simp at hs
          | cons s ss =>
              simp only [List.getElem_cons_succ, List.set_cons_succ, offset_cons]
              rw [ih (by simpa using hk) (by simpa using hs)]
              ring

/-- A weight times its radix is at most the product. -/
theorem mul_strides_le {ps : List Nat} (hpos : 0 < ps.prod) {k : Nat} (hk : k < ps.length)
    (hs : k < (strides ps).length) : ps[k] * (strides ps)[k] ≤ ps.prod := by
  induction ps generalizing k with
  | nil => simp at hk
  | cons p ps ih =>
      rw [List.prod_cons] at hpos
      have hp : 0 < p := Nat.pos_of_mul_pos_right hpos
      have hrest : 0 < ps.prod := Nat.pos_of_mul_pos_left hpos
      cases k with
      | zero => simp [strides]
      | succ k =>
          have hk' : k < ps.length := by simpa using hk
          have hs' : k < (strides ps).length := by simpa using hk
          have hle := ih hrest hk' hs'
          simp only [strides, List.getElem_cons_succ, List.prod_cons]
          calc ps[k] * (strides ps)[k] ≤ ps.prod := hle
            _ ≤ p * ps.prod := Nat.le_mul_of_pos_left _ hp

end MixedRadix
