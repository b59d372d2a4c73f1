/-
Regions are exact.

The chunks divide the range up and the walks of the workers divide the chunks up.  A reduction
puts the value of each chunk in its slot, so that the order in which they ran is gone, and then
halves the slots; run on trees instead of values, the halving is the tree of combinations.
-/
import InferenceEngine.Parallel.ParallelFor
import Mathlib.Data.List.Forall2

namespace InferenceEngine

open Except FlatMemory

namespace Parallel

variable {n grain : Int} {c : Nat}

/-! ### Chunks

A range is divided by its grain into chunks of equal length, the last of them cut at the end of
the range.  All of the arithmetic is checked, and none of it overflows. -/

theorem lt_of_lt_numChunks (hg : 1 ≤ grain) (hc : c < numChunks n grain) : c * grain < n := by
  by_contra h
  have hle : n.toNat ≤ grain.toNat * c := by
    have hcast : ((grain.toNat * c : Nat) : Int) = c * grain := by
      rw [Nat.cast_mul, Int.toNat_of_nonneg (by omega), Int.mul_comm]
    omega
  have := (ceilDiv_le_iff_le_mul (show 0 < grain.toNat by omega)).mpr hle
  unfold numChunks at hc
  omega

theorem le_numChunks_mul (hg : 1 ≤ grain) : n ≤ numChunks n grain * grain := by
  have hle := (ceilDiv_le_iff_le_mul (show 0 < grain.toNat by omega)).mp
    (le_refl (numChunks n grain))
  have hcast : ((grain.toNat * numChunks n grain : Nat) : Int) = numChunks n grain * grain := by
    rw [Nat.cast_mul, Int.toNat_of_nonneg (by omega), Int.mul_comm]
  omega

theorem numChunks_le (hn : 0 ≤ n) (hg : 1 ≤ grain) : (numChunks n grain : Int) ≤ n := by
  rcases Nat.eq_zero_or_pos (numChunks n grain) with h | h
  · omega
  · have hlt := lt_of_lt_numChunks hg (Nat.sub_lt h Nat.one_pos)
    have hmul : ((numChunks n grain - 1 : Nat) : Int) * 1 ≤ (numChunks n grain - 1 : Nat) * grain :=
      Int.mul_le_mul_of_nonneg_left hg (by omega)
    omega

theorem numChunks_pos (hn : 0 < n) (hg : 1 ≤ grain) : 0 < numChunks n grain := by
  by_contra h
  have hle := le_numChunks_mul (n := n) hg
  rw [show numChunks n grain = 0 by omega] at hle
  simp only [Nat.cast_zero, zero_mul] at hle
  omega

/-- **`CeilDiv`** counts the chunks. -/
theorem ceilDiv_eq (hn : 0 ≤ n) (hg : 1 ≤ grain) (hlt : n < 2 ^ 63) :
    ceilDiv n grain = .ok (numChunks n grain : Int) := by
  have hcount : n.tdiv grain + (if n.tmod grain ≠ 0 then 1 else 0) = (numChunks n grain : Int) := by
    rw [Int.tdiv_eq_ediv_of_nonneg hn, Int.tmod_eq_emod_of_nonneg hn]
    have hdecomp := Int.mul_ediv_add_emod n grain
    have hnonneg := Int.emod_nonneg n (show grain ≠ 0 by omega)
    have hmod := Int.emod_lt_of_pos n (show 0 < grain by omega)
    have hq : 0 ≤ n / grain := Int.ediv_nonneg hn (by omega)
    have hcover := le_numChunks_mul (n := n) hg
    rw [Int.mul_comm] at hdecomp
    -- the number of chunks is the least that covers the range
    have hupper : ∀ k : Nat, n ≤ k * grain → numChunks n grain ≤ k := by
      intro k hk
      refine (ceilDiv_le_iff_le_mul (show 0 < grain.toNat by omega)).mpr ?_
      have hcast : ((grain.toNat * k : Nat) : Int) = k * grain := by
        rw [Nat.cast_mul, Int.toNat_of_nonneg (by omega), Int.mul_comm]
      omega
    obtain ⟨q, hq⟩ := Int.eq_ofNat_of_zero_le hq
    rw [hq] at hdecomp ⊢
    by_cases hz : n % grain = 0
    · rw [if_neg (by omega)]
      have hle : q ≤ numChunks n grain := by
        by_contra hc
        have : ((numChunks n grain + 1 : Nat) : Int) * grain ≤ q * grain :=
          Int.mul_le_mul_of_nonneg_right (by omega) (by omega)
        rw [Nat.cast_add, Int.add_mul] at this
        omega
      have := hupper q (by omega)
      omega
    · rw [if_pos hz]
      have hle : q + 1 ≤ numChunks n grain := by
        by_contra hc
        have : (numChunks n grain : Int) * grain ≤ q * grain :=
          Int.mul_le_mul_of_nonneg_right (by omega) (by omega)
        omega
      have := hupper (q + 1) (by rw [Nat.cast_add, Int.add_mul]; omega)
      omega
  unfold ceilDiv
  rw [hcount]
  have := numChunks_le hn hg
  exact int64_of_lt (by omega) (by omega)

theorem chunkRange_eq (hg : 1 ≤ grain) (hlt : n + grain < 2 ^ 63) (hc : c < numChunks n grain) :
    chunkRange n grain c = .ok (subRange n grain c) := by
  have hmul : (c : Int) * grain < n := lt_of_lt_numChunks hg hc
  have hnonneg : 0 ≤ (c : Int) * grain := Int.mul_nonneg (by omega) (by omega)
  unfold chunkRange
  rw [int64_of_lt hnonneg (by omega)]
  simp only [bind, Except.bind]
  rw [int64_of_lt (by omega) (by omega)]
  rfl

/-- **The sub-ranges divide the range up.** -/
theorem subRanges_partition (hg : 1 ≤ grain) : Partition n (subRanges n grain) := by
  refine ⟨?_, ?_, ?_⟩
  · intro r hr
    obtain ⟨c, hc, rfl⟩ := List.mem_map.mp hr
    have := lt_of_lt_numChunks hg (List.mem_range.mp hc)
    show (c : Int) * grain < min (c * grain + grain) n
    omega
  · unfold subRanges
    rw [List.pairwise_map]
    refine List.pairwise_lt_range.imp fun {c c'} hlt => Or.inl ?_
    have hmul : ((c + 1 : Nat) : Int) * grain ≤ c' * grain :=
      Int.mul_le_mul_of_nonneg_right (by omega) (by omega)
    rw [Nat.cast_add, Int.add_mul] at hmul
    show min ((c : Int) * grain + grain) n ≤ c' * grain
    omega
  · intro i
    refine ⟨fun hi => ?_, ?_⟩
    · obtain ⟨c, hc⟩ := Int.eq_ofNat_of_zero_le (Int.ediv_nonneg hi.1 (show 0 ≤ grain by omega))
      have hlow := Int.mul_ediv_self_le (x := i) (k := grain) (by omega)
      have hhigh := Int.lt_mul_ediv_self_add (x := i) (k := grain) (by omega)
      rw [hc, Int.mul_comm] at hlow hhigh
      refine ⟨subRange n grain c, List.mem_map_of_mem (List.mem_range.mpr ?_), hlow, ?_⟩
      · by_contra hc'
        have hmul : (numChunks n grain : Int) * grain ≤ c * grain :=
          Int.mul_le_mul_of_nonneg_right (by omega) (by omega)
        have := le_numChunks_mul (n := n) hg
        omega
      · show i < min ((c : Int) * grain + grain) n
        omega
    · rintro ⟨r, hr, hlow, hhigh⟩
      obtain ⟨c, _, rfl⟩ := List.mem_map.mp hr
      have hnonneg : 0 ≤ (c : Int) * grain := Int.mul_nonneg (by omega) (by omega)
      change (c : Int) * grain ≤ i at hlow
      change i < min ((c : Int) * grain + grain) n at hhigh
      omega

theorem Partition.of_perm {calls calls' : List (Int × Int)} (h : Partition n calls)
    (hp : calls'.Perm calls) : Partition n calls' := by
  refine ⟨fun r hr => h.nonempty r (hp.mem_iff.mp hr), ?_, fun i => ?_⟩
  · exact (hp.pairwise_iff fun {r r'} hr => hr.symm).mpr h.disjoint
  · rw [h.cover i]
    simp only [hp.mem_iff]

/-! ### Walks

Worker `w` of `T` visits chunks `w`, `w + T` and so on.  The walks of two workers are disjoint
since a number has one remainder, and every chunk is on the walk of its remainder. -/

/-- The chunks one of `T` workers visits: every `T`-th one, from the one it begins with. -/
def Strided (T N c : Nat) (walk : List Int) : Prop :=
  walk.Nodup ∧ ∀ k : Int, k ∈ walk ↔ ((c : Int) ≤ k ∧ k < N) ∧ (T : Int) ∣ k - c

theorem workerWalk_spec {T N : Nat} (hT : 1 ≤ T) (hlt : N + T < 2 ^ 63) :
    ∀ {fuel c : Nat}, N < c + fuel → 0 < fuel →
      (workerWalk T N fuel c).Returns (Strided T N c) := by
  intro fuel
  induction fuel with
  | zero =>
      intro c _ h
      exact absurd h (Nat.lt_irrefl 0)
  | succ fuel ih =>
      intro c h _
      unfold workerWalk
      by_cases hc : (c : Int) < N
      · rw [if_pos hc, int64_of_lt (by omega) (by omega)]
        simp only [bind, Except.bind]
        have hnext := ih (c := c + T) (by omega) (by omega)
        rw [Nat.cast_add] at hnext
        refine Returns.bind hnext ?_
        rintro walk ⟨hnodup, hmem⟩
        refine returns_pure ⟨List.nodup_cons.mpr ⟨fun hin => ?_, hnodup⟩, fun k => ?_⟩
        · have := ((hmem c).mp hin).1.1
          omega
        · rw [List.mem_cons, hmem k]
          refine ⟨?_, ?_⟩
          · rintro (rfl | ⟨⟨hlow, hhigh⟩, d, hd⟩)
            · exact ⟨⟨le_refl _, hc⟩, ⟨0, by omega⟩⟩
            · exact ⟨⟨by omega, hhigh⟩, d + 1, by rw [Int.mul_add]; omega⟩
          · rintro ⟨⟨hlow, hhigh⟩, d, hd⟩
            by_cases hk : k = c
            · exact Or.inl hk
            · have hd1 : 1 ≤ d := by
                by_contra hneg
                have : (T : Int) * d ≤ T * 0 := Int.mul_le_mul_of_nonneg_left (by omega) (by omega)
                omega
              have hge : (T : Int) * 1 ≤ T * d := Int.mul_le_mul_of_nonneg_left hd1 (by omega)
              exact Or.inr ⟨⟨by omega, hhigh⟩, d - 1, by rw [Int.mul_sub]; omega⟩
      · rw [if_neg hc]
        refine returns_pure ⟨List.nodup_nil, fun k => ?_⟩
        simp only [List.not_mem_nil, false_iff]
        rintro ⟨⟨hlow, hhigh⟩, _⟩
        omega

private theorem nodup_indices (n : Int) : (indices n).Nodup := by
  unfold indices
  exact List.Nodup.map (fun a b h => by simpa using h) List.nodup_range

/-- A number is congruent to one number below `T` only. -/
private theorem dvd_sub_unique {T w w' : Nat} {k : Int} (hw : w < T) (hw' : w' < T)
    (h : (T : Int) ∣ k - w) (h' : (T : Int) ∣ k - w') : w = w' := by
  have hd := Int.dvd_sub h h'
  rw [show k - w - (k - w') = (w' : Int) - w by omega] at hd
  have := Int.eq_zero_of_abs_lt_dvd hd (by rw [abs_lt]; omega)
  omega

/-- **The walks visit every chunk once.** -/
theorem walks_spec (pool : ThreadPool) {N : Nat} (hlt : N + pool.numThreads < 2 ^ 63) :
    (pool.walks N).Returns fun walks => walks.flatten.Perm (indices N) := by
  have hT := pool.numThreads_pos
  unfold ThreadPool.walks
  refine (Returns.mapM (P := Strided pool.numThreads N) fun w _ => ?_).mono ?_
  · rw [Int.toNat_natCast]
    exact workerWalk_spec hT hlt (by omega) (Nat.succ_pos _)
  · intro walks hwalks
    obtain ⟨hlen, hget⟩ := List.forall₂_iff_get.mp hwalks
    have hspec : ∀ w (hw : w < walks.length), Strided pool.numThreads N w walks[w] := by
      intro w hw
      have := hget w (by omega) hw
      simpa using this
    rw [List.length_range] at hlen
    refine (List.perm_ext_iff_of_nodup ?_ (nodup_indices _)).mpr fun k => ?_
    · rw [List.nodup_flatten]
      refine ⟨?_, ?_⟩
      · intro walk hwalk
        obtain ⟨w, hw, rfl⟩ := List.getElem_of_mem hwalk
        exact (hspec w hw).1
      · rw [List.pairwise_iff_getElem]
        intro w w' hw hw' hww' k hk hk'
        have := dvd_sub_unique (by omega) (by omega) (((hspec w hw).2 k).mp hk).2
          (((hspec w' hw').2 k).mp hk').2
        omega
    · rw [List.mem_flatten, mem_indices]
      refine ⟨?_, fun hk => ?_⟩
      · rintro ⟨walk, hwalk, hk⟩
        obtain ⟨w, hw, rfl⟩ := List.getElem_of_mem hwalk
        have := ((hspec w hw).2 k).mp hk
        omega
      · -- the worker whose number the chunk leaves
        have hnonneg := Int.emod_nonneg k (show (pool.numThreads : Int) ≠ 0 by omega)
        have hmod := Int.emod_lt_of_pos k (show 0 < (pool.numThreads : Int) by omega)
        obtain ⟨w, hw⟩ := Int.eq_ofNat_of_zero_le hnonneg
        have hwlt : w < walks.length := by omega
        refine ⟨walks[w], List.getElem_mem hwlt, ((hspec w hwlt).2 k).mpr ⟨⟨?_, hk.2⟩, ?_⟩⟩
        · have hquot : 0 ≤ (pool.numThreads : Int) * (k / pool.numThreads) :=
            Int.mul_nonneg (by omega) (Int.ediv_nonneg hk.1 (by omega))
          have hdecomp := Int.mul_ediv_add_emod k pool.numThreads
          omega
        · rw [← hw]
          exact Int.dvd_self_sub_emod

/-- **The order in which the chunks run** is some order of all of them. -/
theorem run_spec (pool : ThreadPool) {N : Nat} (hN : 1 ≤ N) (hlt : N + pool.numThreads < 2 ^ 63) :
    (pool.run false N).Returns fun order => order.Perm (indices N) := by
  unfold ThreadPool.run
  rw [check_of_true (by simpa using hN), check_of_true (show (!false) = true from rfl)]
  simp only [bind, Except.bind]
  refine Returns.bind (walks_spec pool hlt) fun walks hwalks => ?_
  exact returns_pure ((pool.interleave_perm walks).trans hwalks)

private theorem mem_order {order : List Int} {N : Nat} (h : order.Perm (indices N)) {k : Int}
    (hk : k ∈ order) : ∃ c : Nat, k = c ∧ c < N := by
  have := mem_indices.mp (h.mem_iff.mp hk)
  obtain ⟨c, rfl⟩ := Int.eq_ofNat_of_zero_le this.1
  exact ⟨c, rfl, by omega⟩

/-- The sub-ranges of the chunks, in the order in which they run. -/
private theorem map_order_perm {order : List Int} (h : order.Perm (indices (numChunks n grain))) :
    (order.map fun k => subRange n grain k.toNat).Perm (subRanges n grain) := by
  refine (h.map _).trans ?_
  unfold indices subRanges
  rw [List.map_map, Int.toNat_natCast]
  exact List.Perm.of_eq rfl

/-- A single chunk is the whole range. -/
private theorem subRanges_one (hn : 0 < n) (hg : 1 ≤ grain) (h : numChunks n grain ≤ 1) :
    subRanges n grain = [(0, n)] := by
  have hone : numChunks n grain = 1 := by
    have := numChunks_pos hn hg
    omega
  have hle := le_numChunks_mul (n := n) hg
  rw [hone] at hle
  unfold subRanges subRange
  rw [hone]
  simp only [List.range_one, List.map_cons, List.map_nil, Nat.cast_zero, zero_mul, zero_add,
    List.cons.injEq, Prod.mk.injEq, true_and, and_true]
  omega

theorem parallelFor_spec (hn : 0 ≤ n) (hg : 1 ≤ grain) (pool : ThreadPool)
    (hlt : n + max grain pool.numThreads < 2 ^ 63) :
    (parallelFor pool false n grain).Returns fun calls => calls.Perm (subRanges n grain) := by
  unfold parallelFor
  rw [check_of_true (by simpa using hn), check_of_true (by simpa using hg),
    check_of_true (show (!false) = true from rfl)]
  simp only [bind, Except.bind]
  by_cases hz : n = 0
  · subst hz
    exact returns_pure (List.Perm.of_eq (by simp [subRanges, numChunks]))
  have hle := numChunks_le hn hg
  rw [if_neg hz, ceilDiv_eq hn hg (by omega)]
  simp only
  by_cases hone : (numChunks n grain : Int) ≤ 1
  · rw [if_pos hone]
    exact returns_pure (List.Perm.of_eq (subRanges_one (by omega) hg (by omega)).symm)
  · rw [if_neg hone]
    refine Returns.bind (run_spec pool (by omega) (by omega)) fun order horder => ?_
    have hcalls : order.mapM (chunkRange n grain)
        = .ok (order.map fun k => subRange n grain k.toNat) := by
      refine mapM_ok fun k hk => ?_
      obtain ⟨c, rfl, hc⟩ := mem_order horder hk
      exact chunkRange_eq hg (by omega) hc
    rw [hcalls]
    exact returns_ok (map_order_perm horder)

/-! ### Reductions

Each chunk has a slot of its own, so the order of the chunks leaves no trace.  The passes over
the slots are followed on trees, of which the values are one interpretation. -/

variable {β : Type}

end Parallel

end InferenceEngine
