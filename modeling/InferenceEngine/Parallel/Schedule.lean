/-
How the parallel loops of a kernel are cut up.

The body of a region gets sub-ranges and walks each from its beginning to its end.  However the
units were cut into sub-ranges, and in whatever order these run, each unit is walked once.

A kernel is judged whatever the sub-ranges are that `parallel_for` passes to its body, and in
whatever order they run: a schedule names them for every loop.  Every pool has one.
-/
import InferenceEngine.Lib.Stores
import InferenceEngine.Parallel.ParallelFor
import InferenceEngine.Proofs.ParallelFor
import Mathlib.Data.List.Nodup

namespace InferenceEngine.Parallel

/-- The loop `for (i = begin; i < end; ++i)`. -/
def unitsOf (r : Int × Int) : List Nat := List.range' r.1.toNat (r.2.toNat - r.1.toNat)

/-- The units in the order in which the sub-ranges walk them. -/
def units (calls : List (Int × Int)) : List Nat := calls.flatMap unitsOf

variable {n : Int} {calls : List (Int × Int)}

theorem Partition.bounds (h : Partition n calls) {r : Int × Int} (hr : r ∈ calls) :
    0 ≤ r.1 ∧ r.2 ≤ n := by
  have hlt := h.nonempty r hr
  have hfirst := (h.cover r.1).mpr ⟨r, hr, by omega, hlt⟩
  have hlast := (h.cover (r.2 - 1)).mpr ⟨r, hr, by omega, by omega⟩
  omega

theorem Partition.mem_unitsOf (h : Partition n calls) {r : Int × Int} (hr : r ∈ calls) {i : Nat} :
    i ∈ unitsOf r ↔ r.1 ≤ i ∧ i < r.2 := by
  have := h.bounds hr
  have := h.nonempty r hr
  rw [unitsOf, List.mem_range'_1]
  omega

/-- The sub-ranges may run in the opposite order. -/
theorem Partition.reverse (h : Partition n calls) : Partition n calls.reverse where
  nonempty r hr := h.nonempty r (List.mem_reverse.mp hr)
  disjoint := List.pairwise_reverse.mpr (h.disjoint.imp Or.symm)
  cover i := by
    rw [h.cover i]
    simp only [List.mem_reverse]

/-- **Each unit is walked once.** -/
theorem Partition.units_perm (h : Partition n calls) :
    (units calls).Perm (List.range n.toNat) := by
  have hnodup : (units calls).Nodup := by
    rw [units, List.nodup_flatMap]
    refine ⟨fun r _ => List.nodup_range', h.disjoint.imp_of_mem ?_⟩
    intro r r' hr hr' hdisj i hi hi'
    rw [h.mem_unitsOf hr] at hi
    rw [h.mem_unitsOf hr'] at hi'
    omega
  refine (List.perm_ext_iff_of_nodup hnodup List.nodup_range).mpr fun i => ?_
  rw [units, List.mem_flatMap, List.mem_range]
  constructor
  · intro hi
    obtain ⟨r, hr, hi⟩ := hi
    rw [h.mem_unitsOf hr] at hi
    have := (h.cover i).mpr ⟨r, hr, hi⟩
    omega
  · intro hi
    obtain ⟨r, hr, hir⟩ := (h.cover i).mp ⟨by omega, by omega⟩
    exact ⟨r, hr, (h.mem_unitsOf hr).mpr hir⟩

end InferenceEngine.Parallel

namespace InferenceEngine

open Except Stores

/-- The sub-ranges of every parallel loop, given the number of its units and its grain. -/
structure Schedule where
  cut : (n grain : Nat) → List (Int × Int)
  partition : ∀ n grain : Nat, 1 ≤ grain → Parallel.Partition n (cut n grain)

/-- One chunk after the other. -/
def Schedule.inOrder : Schedule where
  cut n grain := Parallel.subRanges n grain
  partition _ _ hg := Parallel.subRanges_partition (by omega)

namespace Parallel

variable {γ : Type} {n grain : Nat}

/-- The units of a loop in the order in which it comes to them. -/
def order (schedule : Schedule) (n grain : Nat) : List Nat := units (schedule.cut n grain)

theorem order_perm (schedule : Schedule) (hg : 1 ≤ grain) :
    (order schedule n grain).Perm (List.range n) :=
  (schedule.partition n grain hg).units_perm

theorem mem_order_iff {schedule : Schedule} (hg : 1 ≤ grain) {i : Nat} :
    i ∈ order schedule n grain ↔ i < n := by
  rw [(order_perm schedule hg).mem_iff, List.mem_range]

/-- `parallel_for` with a body that stores. -/
def region (schedule : Schedule) (n grain : Nat) (body : Nat → Nat → Checked (List γ)) :
    Checked (List γ) :=
  forEach (schedule.cut n grain) fun r => body r.1.toNat r.2.toNat

/-- A region whose body does the same for a unit whatever sub-range the unit is in. -/
theorem region_ok {schedule : Schedule} (hg : 1 ≤ grain) {body : Nat → Nat → Checked (List γ)}
    {g : Nat → List γ}
    (h : ∀ lo hi, hi ≤ n → body lo hi = .ok ((span lo hi).flatMap g)) :
    region schedule n grain body = .ok ((order schedule n grain).flatMap g) := by
  have hpart := schedule.partition n grain hg
  have hbody : ∀ r ∈ schedule.cut n grain,
      body r.1.toNat r.2.toNat = .ok ((unitsOf r).flatMap g) := by
    intro r hr
    have := hpart.bounds hr
    exact h _ _ (by omega)
  rw [region, forEach_ok hbody, order, units, List.flatMap_assoc]

theorem flatMap_order_perm {schedule : Schedule} (hg : 1 ≤ grain) (g : Nat → List γ) :
    ((order schedule n grain).flatMap g).Perm ((List.range n).flatMap g) :=
  (order_perm schedule hg).flatMap_right g

end Parallel

/-! ### The schedules of pools

The one place where the size of a pool shows is how many sub-ranges it makes. -/

namespace ThreadPool

open Parallel

/-- The sub-ranges that a pool makes of a loop. -/
def subRangesOf (pool : ThreadPool) (n grain : Nat) : List (Int × Int) :=
  (parallelFor pool false n grain).toOption.getD []

/-- The sub-ranges that a pool makes, as long as counting them stays within 64 bits. -/
def schedule (pool : ThreadPool) : Schedule where
  cut n grain :=
    if (n : Int) + max (grain : Int) (pool.numThreads : Int) < 2 ^ 63 then
      pool.subRangesOf n grain
    else Schedule.inOrder.cut n grain
  partition n grain hg := by
    split
    · obtain ⟨calls, hcalls, hperm⟩ :=
        parallelFor_spec (show 0 ≤ (n : Int) by omega) (show 1 ≤ (grain : Int) by omega) pool
          (by omega)
      rw [subRangesOf, hcalls]
      exact (subRanges_partition (by omega)).of_perm hperm
    · exact Schedule.inOrder.partition n grain hg

end ThreadPool

end InferenceEngine
