/-
Segments of a list.

A list that is made of pieces may be cut anywhere: a segment of the whole consists of a segment of
every piece, the bounds being shifted by what lies in front of the piece.  Segments that partition
the positions of a list have, one after the other, the elements of the list in some order.
-/
import InferenceEngine.Lib.Stores

namespace Segments

open Stores

universe u

variable {α : Type u}

/-- The elements at the positions `lo, …, hi - 1`. -/
def segment (xs : List α) (lo hi : Nat) : List α := (xs.take hi).drop lo

theorem segment_nil (lo hi : Nat) : segment ([] : List α) lo hi = [] := by
  rw [segment, List.take_nil, List.drop_nil]

/-- **A segment of two lists in a row.** -/
theorem segment_append (xs ys : List α) (lo hi : Nat) :
    segment (xs ++ ys) lo hi =
      segment xs lo hi ++ segment ys (lo - xs.length) (hi - xs.length) := by
  rw [segment, segment, segment, List.take_append, List.drop_append, List.length_take]
  by_cases h : hi ≤ xs.length
  · rw [Nat.sub_eq_zero_of_le h, List.take_zero, List.drop_nil, List.drop_nil]
  · rw [Nat.min_eq_right (by omega)]

/-- A segment of many lists in a row. -/
theorem segment_flatMap_range (piece : Nat → List α) (n lo hi : Nat) :
    segment ((List.range n).flatMap piece) lo hi =
      (List.range n).flatMap fun b =>
        segment (piece b) (lo - ((List.range b).flatMap piece).length)
          (hi - ((List.range b).flatMap piece).length) := by
  induction n with
  | zero => exact segment_nil lo hi
  | succ n ih =>
      rw [List.range_succ, List.flatMap_append, segment_append, ih, List.flatMap_append,
        List.flatMap_singleton, List.flatMap_singleton]

theorem segment_map_range (f : Nat → α) (n lo hi : Nat) :
    segment ((List.range n).map f) lo hi = (span lo (min hi n)).map f := by
  rw [segment, ← List.map_take, ← List.map_drop]
  congr 1
  rw [List.take_range, List.range_eq_range', List.drop_range', span]
  congr 1
  omega

/-- **Segments that partition the positions of a list make up the list.** -/
theorem segments_perm {xs : List α} {cut : List (Nat × Nat)}
    (h : (cut.flatMap fun r => span r.1 r.2).Perm (List.range xs.length))
    (hle : ∀ r ∈ cut, r.2 ≤ xs.length) :
    (cut.flatMap fun r => segment xs r.1 r.2).Perm xs := by
  cases xs with
  | nil =>
      have hnone : (cut.flatMap fun r => segment ([] : List α) r.1 r.2) = [] :=
        List.flatMap_eq_nil_iff.mpr fun r _ => segment_nil _ _
      rw [hnone]
  | cons x rest =>
      have hxs : x :: rest = (List.range (x :: rest).length).map fun i =>
          (x :: rest)[i]?.getD x := by
        refine List.ext_getElem (by simp) fun i h₁ h₂ => ?_
        rw [List.getElem_map, List.getElem_range, List.getElem?_eq_getElem h₁]
        rfl
      have hcut : ∀ r ∈ cut, segment (x :: rest) r.1 r.2 =
          (span r.1 r.2).map fun i => (x :: rest)[i]?.getD x := by
        intro r hr
        conv_lhs => rw [hxs]
        rw [segment_map_range, Nat.min_eq_left (hle r hr)]
      rw [List.flatMap_congr hcut, ← List.map_flatMap]
      exact (h.map _).trans (List.Perm.of_eq hxs.symm)

end Segments
