/-
Flat memories and block copies.

A memory is a function from offsets to values.  Loops of block copies are all of one
kind: each copy overwrites an interval and leaves the rest.  What a whole loop leaves at
an offset is settled by two rules, one for the offsets no copy covers and one for those
where every covering copy writes the same value; disjointness of the copies is the
usual reason for the second, but it is not needed.

Offsets are usually computed from several coordinates, `(a * n + b) * m + c` and so on.
The last section says that such a number determines its coordinates.
-/
import Mathlib.Data.List.Basic
import Mathlib.Logic.Function.Basic
import Mathlib.Tactic.Linarith

namespace FlatMemory

variable {α ι : Type*}

/-- `std::memcpy(dst + dstOff, src + srcOff, n)`, the unit being one element. -/
def memcpy (dst : Int → α) (dstOff : Int) (src : Int → α) (srcOff n : Int) : Int → α :=
  fun i => if dstOff ≤ i ∧ i < dstOff + n then src (srcOff + (i - dstOff)) else dst i

theorem memcpy_inside {dst src : Int → α} {dstOff srcOff n j : Int} (h0 : 0 ≤ j) (h : j < n) :
    memcpy dst dstOff src srcOff n (dstOff + j) = src (srcOff + j) := by
  unfold memcpy
  rw [if_pos (by omega)]
  congr 1
  omega

theorem memcpy_outside {dst src : Int → α} {dstOff srcOff n i : Int}
    (h : ¬(dstOff ≤ i ∧ i < dstOff + n)) : memcpy dst dstOff src srcOff n i = dst i :=
  if_neg h

/-- The integers `0, …, n - 1`; none when `n` is negative. -/
def indices (n : Int) : List Int := (List.range n.toNat).map fun i : Nat => (i : Int)

@[simp] theorem mem_indices {n i : Int} : i ∈ indices n ↔ 0 ≤ i ∧ i < n := by
  simp only [indices, List.mem_map, List.mem_range]
  constructor
  · rintro ⟨a, ha, rfl⟩
    omega
  · intro h
    exact ⟨i.toNat, by omega, by omega⟩

/-- `for (e = 0; e < n; ++e) dst[dstOff + e] = src[srcOff + e]`. -/
def copyLoop (dst : Int → α) (dstOff : Int) (src : Int → α) (srcOff n : Int) : Int → α :=
  (indices n).foldl (fun m e => Function.update m (dstOff + e) (src (srcOff + e))) dst

/-- **A loop of element copies is a block copy.** -/
theorem copyLoop_eq_memcpy (dst : Int → α) (dstOff : Int) (src : Int → α) (srcOff n : Int) :
    copyLoop dst dstOff src srcOff n = memcpy dst dstOff src srcOff n := by
  have hnat : ∀ m : Nat, copyLoop dst dstOff src srcOff m = memcpy dst dstOff src srcOff m := by
    intro m
    induction m with
    | zero =>
        funext i
        rw [memcpy_outside (by omega)]
        rfl
    | succ m ih =>
        have hsplit : indices ((m + 1 : Nat) : Int) = indices m ++ [(m : Int)] := by
          unfold indices
          rw [Int.toNat_natCast, Int.toNat_natCast, List.range_succ, List.map_append]
          rfl
        unfold copyLoop at ih ⊢
        rw [hsplit, List.foldl_append, ih]
        funext i
        show Function.update _ _ _ i = _
        by_cases hi : i = dstOff + m
        · subst hi
          rw [Function.update_self]
          exact (memcpy_inside (by omega) (by omega)).symm
        · rw [Function.update_of_ne hi]
          unfold memcpy
          by_cases hin : dstOff ≤ i ∧ i < dstOff + m
          · rw [if_pos hin, if_pos (by omega)]
          · rw [if_neg hin, if_neg (by omega)]
  by_cases h : 0 ≤ n
  · obtain ⟨m, rfl⟩ := Int.eq_ofNat_of_zero_le h
    exact hnat m
  · have hnone : indices n = [] := by
      unfold indices
      rw [Int.toNat_of_nonpos (by omega)]
      rfl
    funext i
    unfold copyLoop
    rw [hnone, memcpy_outside (by omega)]
    rfl

/-! ### Loops of copies

What a loop of copies leaves at an offset is decided by the copies that cover it; if all of them
write the same there, their order does not matter. -/

/-- An offset that no copy of the loop covers keeps its value. -/
theorem foldl_memcpy_of_not_covered {src : Int → α} {at_ from_ len : ι → Int} {i : Int} :
    ∀ (l : List ι) (mem : Int → α),
      (∀ u ∈ l, ¬(at_ u ≤ i ∧ i < at_ u + len u)) →
      l.foldl (fun m u => memcpy m (at_ u) src (from_ u) (len u)) mem i = mem i := by
  intro l
  induction l with
  | nil => intro mem _; rfl
  | cons u rest ih =>
      intro mem h
      rw [List.foldl_cons, ih _ (fun w hw => h w (List.mem_cons_of_mem _ hw))]
      exact memcpy_outside (h u (by simp))

/-- An offset that some copy covers, and to which every covering copy writes `x`, holds `x`. -/
theorem foldl_memcpy_of_covered {src : Int → α} {at_ from_ len : ι → Int} {i : Int} {x : α} :
    ∀ (l : List ι) (mem : Int → α),
      (∃ u ∈ l, at_ u ≤ i ∧ i < at_ u + len u) →
      (∀ u ∈ l, at_ u ≤ i → i < at_ u + len u → src (from_ u + (i - at_ u)) = x) →
      l.foldl (fun m u => memcpy m (at_ u) src (from_ u) (len u)) mem i = x := by
  intro l
  induction l with
  | nil => rintro mem ⟨u, hu, _⟩ _; simp at hu
  | cons u rest ih =>
      intro mem hcov hall
      rw [List.foldl_cons]
      by_cases hr : ∃ w ∈ rest, at_ w ≤ i ∧ i < at_ w + len w
      · exact ih _ hr (fun w hw => hall w (List.mem_cons_of_mem _ hw))
      · -- no later copy covers the offset, so the first one must have written it
        obtain ⟨w, hw, hlo, hhi⟩ := hcov
        rcases List.mem_cons.mp hw with rfl | hw
        · rw [foldl_memcpy_of_not_covered rest _ (fun v hv hc => hr ⟨v, hv, hc⟩)]
          unfold memcpy
          rw [if_pos ⟨hlo, hhi⟩]
          exact hall w (by simp) hlo hhi
        · exact absurd ⟨w, hw, hlo, hhi⟩ hr

/-- Copies within one memory that write nothing any of them reads may as well read the
memory as it was. -/
theorem foldl_memcpy_self {at_ from_ len : ι → Int} {mem : Int → α} {l : List ι}
    (hdisj : ∀ u ∈ l, ∀ v ∈ l, ∀ i, at_ u ≤ i → i < at_ u + len u →
      ¬(from_ v ≤ i ∧ i < from_ v + len v)) :
    l.foldl (fun m u => memcpy m (at_ u) m (from_ u) (len u)) mem
      = l.foldl (fun m u => memcpy m (at_ u) mem (from_ u) (len u)) mem := by
  -- the invariant is that what is still to be read is as it was
  suffices hrest : ∀ (rest : List ι) (m : Int → α), (∀ u ∈ rest, u ∈ l) →
      (∀ v ∈ l, ∀ i, from_ v ≤ i ∧ i < from_ v + len v → m i = mem i) →
      rest.foldl (fun m u => memcpy m (at_ u) m (from_ u) (len u)) m
        = rest.foldl (fun m u => memcpy m (at_ u) mem (from_ u) (len u)) m from
    hrest l mem (fun _ h => h) (fun _ _ _ _ => rfl)
  intro rest
  induction rest with
  | nil => intro m _ _; rfl
  | cons u rest ih =>
      intro m hmem hsame
      have hu := hmem u (by simp)
      have hstep : memcpy m (at_ u) m (from_ u) (len u)
          = memcpy m (at_ u) mem (from_ u) (len u) := by
        funext i
        unfold memcpy
        by_cases hin : at_ u ≤ i ∧ i < at_ u + len u
        · rw [if_pos hin, if_pos hin]
          exact hsame u hu _ ⟨by omega, by omega⟩
        · rw [if_neg hin, if_neg hin]
      rw [List.foldl_cons, List.foldl_cons, hstep]
      refine ih _ (fun v hv => hmem v (List.mem_cons_of_mem _ hv)) ?_
      intro v hv i hi
      rw [memcpy_outside fun hin => hdisj u hu v hv i hin.1 hin.2 hi]
      exact hsame v hv i hi

/-! ### Scattering rows

A source of `n * heads` rows of `d` elements, in order, is copied to computed places.
-/

/-- Row `(t, h)` of the source goes to `place t h`. -/
def scatterRows (place : Int → Int → Int) (src : Int → α) (n heads d : Int) (mem : Int → α) :
    Int → α :=
  (indices n).foldl (fun m t =>
    (indices heads).foldl (fun m h => memcpy m (place t h) src ((t * heads + h) * d) d) m) mem

/-- The pairs of a token and a head, in order. -/
private def units (n heads : Int) : List (Int × Int) :=
  (indices n).flatMap fun t => (indices heads).map fun h => (t, h)

private theorem mem_units {n heads t h : Int} :
    (t, h) ∈ units n heads ↔ (0 ≤ t ∧ t < n) ∧ 0 ≤ h ∧ h < heads := by
  unfold units
  rw [List.mem_flatMap]
  simp only [List.mem_map, mem_indices, Prod.mk.injEq]
  refine ⟨?_, ?_⟩
  · intro hc
    obtain ⟨t', ht', h', hh', rfl, rfl⟩ := hc
    exact ⟨ht', hh'⟩
  · intro hc
    exact ⟨t, hc.1, h, hc.2, rfl, rfl⟩

private theorem scatterRows_eq_foldl (place : Int → Int → Int) (src : Int → α) (n heads d : Int)
    (mem : Int → α) :
    scatterRows place src n heads d mem
      = (units n heads).foldl (fun m u =>
          memcpy m (place u.1 u.2) src ((u.1 * heads + u.2) * d) d) mem := by
  unfold scatterRows units
  rw [List.foldl_flatMap]
  refine congrArg (fun f => List.foldl f mem (indices n)) ?_
  funext m t
  rw [List.foldl_map]

/-- What no row covers is kept. -/
theorem scatterRows_other {place : Int → Int → Int} {src mem : Int → α} {n heads d i : Int}
    (h : ∀ t, 0 ≤ t ∧ t < n → ∀ h, 0 ≤ h ∧ h < heads →
      ¬(place t h ≤ i ∧ i < place t h + d)) :
    scatterRows place src n heads d mem i = mem i := by
  rw [scatterRows_eq_foldl]
  refine foldl_memcpy_of_not_covered _ _ ?_
  rintro ⟨t, h'⟩ hu
  obtain ⟨ht, hh⟩ := mem_units.mp hu
  exact h t ht h' hh

/-- **An element only one row covers holds that row's element.** -/
theorem scatterRows_at {place : Int → Int → Int} {src mem : Int → α} {n heads d t h e : Int}
    (ht : 0 ≤ t ∧ t < n) (hh : 0 ≤ h ∧ h < heads) (he : 0 ≤ e ∧ e < d)
    (hinj : ∀ t', 0 ≤ t' ∧ t' < n → ∀ h', 0 ≤ h' ∧ h' < heads →
      place t' h' ≤ place t h + e → place t h + e < place t' h' + d → t' = t ∧ h' = h) :
    scatterRows place src n heads d mem (place t h + e) = src ((t * heads + h) * d + e) := by
  rw [scatterRows_eq_foldl]
  refine foldl_memcpy_of_covered _ _ ⟨(t, h), mem_units.mpr ⟨ht, hh⟩, ?_⟩ ?_
  · show place t h ≤ _ ∧ _ < place t h + d
    omega
  · rintro ⟨t', h'⟩ hu hlo hhi
    obtain ⟨ht', hh'⟩ := mem_units.mp hu
    obtain ⟨rfl, rfl⟩ := hinj t' ht' h' hh' hlo hhi
    congr 1
    show (t' * heads + h') * d + (place t' h' + e - place t' h') = _
    omega

/-! ### Positions in a mixed radix

The coordinates of an element and its position determine each other. -/

/-- The last coordinate and the rest are determined by the number they make. -/
theorem radix_inj {n a b a' b' : Int} (hb : 0 ≤ b) (hbn : b < n) (hb' : 0 ≤ b')
    (hbn' : b' < n) (h : a * n + b = a' * n + b') : a = a' ∧ b = b' := by
  have hn : 0 < n := by omega
  have ha : a = a' := by
    have h1 : (a * n + b) / n = a := by
      rw [Int.add_comm, Int.add_mul_ediv_right _ _ (by omega), Int.ediv_eq_zero_of_lt hb hbn]
      omega
    have h2 : (a' * n + b') / n = a' := by
      rw [Int.add_comm, Int.add_mul_ediv_right _ _ (by omega), Int.ediv_eq_zero_of_lt hb' hbn']
      omega
    rw [← h1, h, h2]
  subst ha
  omega

/-- Every number below `m * n` has such coordinates. -/
theorem radix_split {m n i : Int} (hn : 0 < n) (h0 : 0 ≤ i) (h : i < m * n) :
    ∃ a b, 0 ≤ a ∧ a < m ∧ 0 ≤ b ∧ b < n ∧ i = a * n + b := by
  refine ⟨i / n, i % n, Int.ediv_nonneg h0 hn.le, Int.ediv_lt_of_lt_mul hn h,
    Int.emod_nonneg _ hn.ne', Int.emod_lt_of_pos _ hn, ?_⟩
  rw [Int.mul_comm]
  exact (Int.mul_ediv_add_emod i n).symm

theorem radix_lt {m n a b : Int} (ha : a < m) (hbn : b < n) (hn : 0 ≤ n) :
    a * n + b < m * n := by
  have h : (a + 1) * n ≤ m * n := Int.mul_le_mul_of_nonneg_right (by omega) hn
  linarith [Int.add_mul a 1 n]

end FlatMemory
