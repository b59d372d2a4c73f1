/-
Tilings of an interval.

A list of half-open ranges partitions an interval when each of its points is in exactly one
of them, and the empty ranges, which have no points, stand between others and not inside
one.  This does not depend on the order of the list.  In the order of their beginnings, and
of their ends where these agree, such ranges follow one another without a gap.
-/
import Mathlib.Data.List.Count
import Mathlib.Data.List.Sort
import Mathlib.Tactic.Linarith

namespace Tiling

/-- The point is in the range. -/
def covers (x : Nat) (r : Nat × Nat) : Bool := r.1 ≤ x && x < r.2

/-- The ranges partition `[c, d)`. -/
structure Partition (rs : List (Nat × Nat)) (c d : Nat) : Prop where
  within : ∀ r ∈ rs, c ≤ r.1 ∧ r.1 ≤ r.2 ∧ r.2 ≤ d
  once : ∀ x, c ≤ x → x < d → rs.countP (covers x) = 1
  /-- An empty range is not inside another one. -/
  between : ∀ r ∈ rs, r.1 = r.2 → ∀ s ∈ rs, ¬(s.1 < r.1 ∧ r.1 < s.2)

/-- Each range begins where the one before it ended. -/
def Tiles : Nat → List (Nat × Nat) → Nat → Prop
  | c, [], d => c = d
  | c, r :: rs, d => r.1 = c ∧ Tiles r.2 rs d

/-- Ordered by beginning, then by end. -/
def Ordered (r s : Nat × Nat) : Prop := r.1 < s.1 ∨ r.1 = s.1 ∧ r.2 ≤ s.2

theorem covers_iff {x : Nat} {r : Nat × Nat} : covers x r = true ↔ r.1 ≤ x ∧ x < r.2 := by
  simp [covers]

theorem Partition.perm {rs rs' : List (Nat × Nat)} {c d : Nat} (h : Partition rs c d)
    (hp : rs.Perm rs') : Partition rs' c d where
  within := fun r hr => h.within r (hp.mem_iff.mpr hr)
  once := by
    intro x hc hd
    rw [← hp.countP_eq]
    exact h.once x hc hd
  between := fun r hr he s hs => h.between r (hp.mem_iff.mpr hr) he s (hp.mem_iff.mpr hs)

theorem Tiles.le {rs : List (Nat × Nat)} {c d : Nat} (h : Tiles c rs d)
    (hle : ∀ r ∈ rs, r.1 ≤ r.2) : c ≤ d := by
  induction rs generalizing c with
  | nil => exact Nat.le_of_eq h
  | cons r rs ih =>
      obtain ⟨hbegin, hrest⟩ := h
      have hr := hle r (by simp)
      have := ih hrest fun s hs => hle s (List.mem_cons_of_mem _ hs)
      omega

theorem Tiles.begin_le {rs : List (Nat × Nat)} {c d : Nat} (h : Tiles c rs d)
    (hle : ∀ r ∈ rs, r.1 ≤ r.2) : ∀ r ∈ rs, c ≤ r.1 ∧ r.2 ≤ d := by
  induction rs generalizing c with
  | nil => simp
  | cons s rs ih =>
      obtain ⟨hbegin, hrest⟩ := h
      have hs := hle s (by simp)
      have hle' : ∀ r ∈ rs, r.1 ≤ r.2 := fun r hr => hle r (List.mem_cons_of_mem _ hr)
      intro r hr
      rcases List.mem_cons.mp hr with rfl | hr
      · exact ⟨by omega, hrest.le hle'⟩
      · have := ih hrest hle' r hr
        exact ⟨by omega, this.2⟩

/-- **Ranges that follow one another partition what they span.** -/
theorem Tiles.partition {rs : List (Nat × Nat)} {c d : Nat} (h : Tiles c rs d)
    (hle : ∀ r ∈ rs, r.1 ≤ r.2) : Partition rs c d := by
  induction rs generalizing c with
  | nil =>
      rw [Tiles] at h
      exact ⟨by simp, fun x _ _ => by omega, by simp⟩
  | cons s rs ih =>
      have hall := h.begin_le hle
      obtain ⟨hbegin, hrest⟩ := h
      have hs := hle s (by simp)
      have hle' : ∀ r ∈ rs, r.1 ≤ r.2 := fun r hr => hle r (List.mem_cons_of_mem _ hr)
      have htail := ih hrest hle'
      have hafter := hrest.begin_le hle'
      refine ⟨fun r hr => ⟨(hall r hr).1, hle r hr, (hall r hr).2⟩, ?_, ?_⟩
      · intro x hc hd
        rw [List.countP_cons]
        by_cases hx : x < s.2
        · have hnone : rs.countP (covers x) = 0 := by
            rw [List.countP_eq_zero]
            intro r hr
            rw [covers_iff]
            have := hafter r hr
            omega
          rw [hnone, if_pos (covers_iff.mpr ⟨by omega, hx⟩)]
        · rw [htail.once x (by omega) hd, if_neg]
          rw [covers_iff]
          omega
      · -- an empty range and one around it: neither can be the first
        intro r hr he t ht
        rcases List.mem_cons.mp hr with rfl | hrrest
        · rcases List.mem_cons.mp ht with rfl | htrest
          · omega
          · have := hafter t htrest
            omega
        · rcases List.mem_cons.mp ht with rfl | htrest
          · have := hafter r hrrest
            omega
          · exact htail.between r hrrest he t htrest

/-- **A partition in order is a sequence of ranges that follow one another.** -/
theorem Partition.tiles {rs : List (Nat × Nat)} {c d : Nat} (h : Partition rs c d)
    (hord : rs.Pairwise Ordered) (hcd : c ≤ d) : Tiles c rs d := by
  induction rs generalizing c with
  | nil =>
      by_contra hne
      have := h.once c (Nat.le_refl c) (by rw [Tiles] at hne; omega)
      simp at this
  | cons s rs ih =>
      obtain ⟨hhead, htail⟩ := List.pairwise_cons.mp hord
      obtain ⟨hsc, hsle, hsd⟩ := h.within s (by simp)
      have hbegin : s.1 = c := by
        -- otherwise nothing covers the first point
        by_contra hne
        have hpos : 0 < (s :: rs).countP (covers c) := by
          rw [h.once c (Nat.le_refl c) (by omega)]
          decide
        obtain ⟨r, hr, hcov⟩ := List.countP_pos_iff.mp hpos
        rw [covers_iff] at hcov
        rcases List.mem_cons.mp hr with rfl | hr
        · omega
        · rcases hhead r hr with hlt | ⟨heq, _⟩ <;> omega
      have hafter : ∀ r ∈ rs, s.2 ≤ r.1 := by
        intro r hr
        by_contra hlt
        obtain ⟨hrc, hrle, hrd⟩ := h.within r (List.mem_cons_of_mem _ hr)
        by_cases he : r.1 = r.2
        · have := h.between r (List.mem_cons_of_mem _ hr) he s (by simp)
          rcases hhead r hr with hlt' | ⟨heq, hle⟩ <;> omega
        · -- both ranges cover the point the second begins at
          have hone := h.once r.1 hrc (by omega)
          have hpos : 0 < rs.countP (covers r.1) :=
            List.countP_pos_iff.mpr ⟨r, hr, covers_iff.mpr ⟨Nat.le_refl _, by omega⟩⟩
          rw [List.countP_cons, if_pos (covers_iff.mpr ⟨by omega, by omega⟩)] at hone
          omega
      refine ⟨hbegin, ih ⟨?_, ?_, ?_⟩ htail hsd⟩
      · intro r hr
        obtain ⟨_, hrle, hrd⟩ := h.within r (List.mem_cons_of_mem _ hr)
        exact ⟨hafter r hr, hrle, hrd⟩
      · intro x hx hxd
        have hone := h.once x (by omega) hxd
        rw [List.countP_cons, if_neg] at hone
        · simpa using hone
        · rw [covers_iff]
          omega
      · exact fun r hr he t ht =>
          h.between r (List.mem_cons_of_mem _ hr) he t (List.mem_cons_of_mem _ ht)

/-- **Ranges partition an interval exactly when, in order, they tile it.** -/
theorem partition_iff_tiles {rs sorted : List (Nat × Nat)} {d : Nat} (hp : sorted.Perm rs)
    (hord : sorted.Pairwise Ordered) (hle : ∀ r ∈ rs, r.1 ≤ r.2) :
    Partition rs 0 d ↔ Tiles 0 sorted d := by
  constructor
  · intro h
    exact (h.perm hp.symm).tiles hord (Nat.zero_le d)
  · intro h
    exact (h.partition fun r hr => hle r (hp.mem_iff.mp hr)).perm hp

end Tiling
