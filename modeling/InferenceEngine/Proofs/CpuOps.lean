/-
What the reference operations leave in memory.

Each of them is a loop over rows that run in any order, and each row is a few loops over its
elements.  A row reads its own part of the inputs only, so an output may lie where an input does.
-/
import InferenceEngine.Kernels.CpuOps
import Mathlib.Data.List.GetD

namespace InferenceEngine

open Except Parallel Stores Cells
open Attention (Floats)

variable {β : Type}

/-! ### Memory

Tensors are ranges of cells in one memory.  An operation is given ranges that hold values, and
leaves a list of cells written. -/

/-- The cells from `p` on hold these values. -/
def HoldsFloats (m : Memory β) (p : Int) (n : Nat) (X : Nat → β) : Prop :=
  ∀ i < n, m (p + i) = some (X i)

/-- `n` cells from `x` on and `k` cells from `y` on have nothing in common. -/
def Apart (x : Int) (n : Nat) (y : Int) (k : Nat) : Prop := x + n ≤ y ∨ y + k ≤ x

variable {m m' : Memory β} {p x y : Int} {n k : Nat} {X Y : Nat → β}

theorem HoldsFloats.load (h : HoldsFloats m p n X) {i : Nat} (hi : i < n) :
    loadFloat m (p + i) = .ok (X i) :=
  load_ok (h i hi)

/-- A part of the cells. -/
theorem HoldsFloats.sub (h : HoldsFloats m p n X) {a b : Nat} (hab : a + b ≤ n) :
    HoldsFloats m (p + a) b fun i => X (a + i) := by
  intro i hi
  have hcell := h (a + i) (by omega)
  rwa [Int.natCast_add, ← Int.add_assoc] at hcell

/-- The cells from `y` on, with values to be stored there. -/
def cellsAt (y : Int) (n : Nat) (Y : Nat → β) : List (Int × β) :=
  (List.range n).map fun j : Nat => (y + j, Y j)

theorem mem_cellsAt {c : Int × β} : c ∈ cellsAt y n Y ↔ ∃ j < n, c = (y + j, Y j) := by
  simp only [cellsAt, List.mem_map, List.mem_range]
  constructor
  · rintro ⟨j, hj, rfl⟩
    exact ⟨j, hj, rfl⟩
  · rintro ⟨j, hj, rfl⟩
    exact ⟨j, hj, rfl⟩

theorem HoldsFloats.has (h : HoldsFloats m y n X) (Y : Nat → β) : Has m (cellsAt y n Y) := by
  intro c hc
  obtain ⟨j, hj, rfl⟩ := mem_cellsAt.mp hc
  show (m (y + j)).isSome
  rw [h j hj]
  rfl

theorem wrote_holds (h : Wrote m m' (cellsAt y n Y)) : HoldsFloats m' y n Y :=
  fun j hj => h.inside (y + j, Y j) (mem_cellsAt.mpr ⟨j, hj, rfl⟩)

/-! ### Loops

A parallel loop runs its rows in some order.  If no row writes what another one reads or writes,
it leaves what the rows leave one after the other. -/

/-- The rows of a parallel loop, in the order in which they come. -/
theorem regionM_spans {σ : Type} (schedule : Schedule) (n grain : Nat)
    (f : σ → Nat → Checked σ) (s : σ) :
    regionM schedule n grain (fun first last s => (span first last).foldlM f s) s =
      (order schedule n grain).foldlM f s := by
  rw [order, units, foldlM_flatMap]
  rfl

/-- **Rows that run in any order.**  Row `r` reads some cells and writes its own. -/
theorem rowsLoop_ok (schedule : Schedule) {rows grain : Nat} (hg : 1 ≤ grain)
    {f : Memory β → Nat → Checked (Memory β)} (writes : Nat → List (Int × β))
    (reads : Nat → Int → Prop)
    (hdisj : ∀ r < rows, ∀ r' < rows, r ≠ r' → ∀ c ∈ writes r, ∀ c' ∈ writes r', c.1 ≠ c'.1)
    (hapart : ∀ r < rows, ∀ r' < rows, r ≠ r' → ∀ c ∈ writes r, ¬reads r' c.1)
    (step : ∀ r < rows, ∀ m', (∀ p, reads r p → m' p = m p) → Has m' (writes r) →
      (f m' r).Returns fun m'' => Wrote m' m'' (writes r))
    (halloc : ∀ r < rows, Has m (writes r)) :
    (regionM schedule rows grain (fun first last m => (span first last).foldlM f m) m).Returns
      fun m' => Wrote m m' ((List.range rows).flatMap writes) := by
  have hlt : ∀ r ∈ order schedule rows grain, r < rows := fun r hr =>
    (mem_order_iff hg).mp hr
  have hnodup : (order schedule rows grain).Nodup :=
    (order_perm schedule hg).nodup_iff.mpr List.nodup_range
  rw [regionM_spans]
  refine (loop_ok (fun m : Memory β => m) (fun _ _ => True) writes reads
    (hnodup.pairwise_of_forall_ne fun r hr r' hr' hne =>
      hdisj r (hlt r hr) r' (hlt r' hr') hne)
    (hnodup.pairwise_of_forall_ne fun r hr r' hr' hne =>
      hapart r (hlt r hr) r' (hlt r' hr') hne) ?_ trivial ?_).mono ?_
  · intro visited r rest m' hl _ hreads hhas
    have hr : r ∈ order schedule rows grain := by
      rw [hl]
      simp
    exact (step r (hlt r hr) m' hreads hhas).mono fun m'' hm'' => ⟨trivial, hm''⟩
  · intro c hc
    obtain ⟨r, hr, hc⟩ := List.mem_flatMap.mp hc
    exact halloc r (hlt r hr) c hc
  · rintro m' ⟨-, hwrote⟩
    exact hwrote.perm ((order_perm schedule hg).flatMap_right writes)

/-- A loop whose turn `j` writes the cell `y + j`, with a value carried along. -/
theorem cellsLoop_ok {σ : Type} (mem : σ → Memory β) (I : Nat → σ → Prop)
    {f : σ → Nat → Checked σ} (Y : Nat → β) (reads : Nat → Int → Prop) {s : σ}
    (hapart : ∀ i < n, ∀ j < n, i ≠ j → ¬reads j (y + i))
    (step : ∀ j < n, ∀ s', I j s' → (∀ p, reads j p → mem s' p = mem s p) →
      (mem s' (y + j)).isSome → (f s' j).Returns fun s'' => I (j + 1) s'' ∧
        Wrote (mem s') (mem s'') [(y + j, Y j)])
    (hI : I 0 s) (hhas : Has (mem s) (cellsAt y n Y)) :
    ((List.range n).foldlM f s).Returns fun s' => I n s' ∧
      Wrote (mem s) (mem s') (cellsAt y n Y) := by
  have hcells : (List.range n).flatMap (fun j : Nat => [(y + (j : Int), Y j)]) =
      cellsAt y n Y := List.map_eq_flatMap.symm
  have hloop := loop_ok mem (fun visited s' => I visited.length s') (f := f) (l := List.range n)
    (fun j : Nat => [(y + (j : Int), Y j)]) reads (s := s)
    (List.nodup_range.pairwise_of_forall_ne fun i hi j hj hne => by
      intro c hc c' hc' heq
      rw [List.mem_singleton.mp hc, List.mem_singleton.mp hc'] at heq
      have heq : y + (i : Int) = y + j := heq
      omega)
    (List.nodup_range.pairwise_of_forall_ne fun i hi j hj hne => by
      intro c hc
      rw [List.mem_singleton.mp hc]
      exact hapart i (List.mem_range.mp hi) j (List.mem_range.mp hj) hne)
    (by
      intro visited j rest s' hl hs' hreads hhas'
      have hvisited : visited.length = j ∧ j < n := by
        have hlen := congrArg List.length hl
        have hget : (List.range n)[visited.length]? = some j := by
          rw [hl]
          simp
        rw [List.getElem?_eq_some_iff] at hget
        obtain ⟨hlt, hget⟩ := hget
        rw [List.getElem_range] at hget
        rw [List.length_range] at hlt
        exact ⟨hget, by omega⟩
      rw [List.length_append, List.length_singleton, hvisited.1]
      rw [hvisited.1] at hs'
      exact step j hvisited.2 s' hs' hreads (hhas' (y + (j : Int), Y j) (by simp)))
    hI (by rwa [hcells])
  rw [hcells, List.length_range] at hloop
  exact hloop

namespace Cpu

/-! ### Softmax

A row is read three times and written twice.  The second and third passes read what the second
has written, so the output may be the input itself. -/

section

variable [LT β] [DecidableLT β] (F : Floats β) (exp : β → β)

/-- The maximum of a row. -/
def rowMaxOf (X : Nat → β) (n : Nat) : β := (span 1 n).foldl (fun a j => stdMax a (X j)) (X 0)

/-- The exponential of an element of a row. -/
def expAt (X : Nat → β) (n j : Nat) : β := exp (F.sub (X j) (rowMaxOf X n))

/-- The sum of the first `k` exponentials of a row. -/
def expSum (X : Nat → β) (n k : Nat) : β :=
  (List.range k).foldl (fun s j => F.add s (expAt F exp X n j)) F.zero

/-- An element of the softmax of a row. -/
def softmaxAt (X : Nat → β) (n j : Nat) : β :=
  F.mul (expAt F exp X n j) (F.div F.one (expSum F exp X n n))

theorem softmaxRow_ok (hn : 1 ≤ n) (hx : HoldsFloats m x n X) (hy : Has m (cellsAt y n Y))
    (hplace : x = y ∨ Apart x n y n) :
    (softmaxRow F exp n x y m).Returns fun m' =>
      Wrote m m' (cellsAt y n (softmaxAt F exp X n)) := by
  have hcells : ∀ (Z : Nat → β) {m' : Memory β}, Has m' (cellsAt y n Y) →
      Has m' (cellsAt y n Z) := by
    intro Z m' h c hc
    obtain ⟨j, hj, rfl⟩ := mem_cellsAt.mp hc
    exact h (y + j, Y j) (mem_cellsAt.mpr ⟨j, hj, rfl⟩)
  have hfirst : loadFloat m x = .ok (X 0) := by
    have h0 := hx.load (i := 0) (by omega)
    rwa [Int.natCast_zero, Int.add_zero] at h0
  have hmax : (span 1 n).foldlM (fun rowMax (j : Nat) => do
      let xj ← loadFloat m (x + j)
      pure (stdMax rowMax xj)) (X 0) = .ok (rowMaxOf X n) := by
    refine foldlM_ok (fun j hj a => ?_) _
    have hj := mem_span.mp hj
    rw [hx.load (by omega)]
    rfl
  rw [softmaxRow, hfirst, ok_bind, hmax, ok_bind]
  refine Returns.bind (cellsLoop_ok (y := y) (n := n) Prod.fst
    (fun k s => s.2 = expSum F exp X n k) (expAt F exp X n) (fun j p => p = x + j) ?_ ?_ rfl
    (hcells _ hy)) ?_
  · intro i hi j hj hne heq
    rcases hplace with rfl | hlt | hlt <;> omega
  · rintro j hj ⟨m', sum⟩ hsum hreads hhas
    have hload : loadFloat m' (x + j) = .ok (X j) :=
      load_ok ((hreads _ rfl).trans (hx j hj))
    dsimp only at hsum ⊢
    rw [hload, ok_bind]
    refine Returns.bind (store_wrote _ hhas _) fun m'' hm'' => returns_pure ⟨?_, hm''⟩
    rw [expSum, List.range_succ, List.foldl_append, List.foldl_cons, List.foldl_nil, hsum]
    rfl
  · rintro ⟨m₁, sum⟩ ⟨hsum, hwrote⟩
    dsimp only at hsum hwrote ⊢
    have hholds := wrote_holds hwrote
    refine (cellsLoop_ok (y := y) (n := n) (fun m : Memory β => m) (fun _ _ => True)
      (softmaxAt F exp X n) (fun j p => p = y + j) ?_ ?_ trivial
      (hcells _ (hwrote.has hy))).mono ?_
    · intro i hi j hj hne heq
      omega
    · intro j hj m' _ hreads hhas
      have hload : loadFloat m' (y + j) = .ok (expAt F exp X n j) :=
        load_ok ((hreads _ rfl).trans (hholds j hj))
      rw [hload, ok_bind]
      refine (store_wrote _ hhas _).mono fun m'' hm'' => ⟨trivial, ?_⟩
      rw [softmaxAt, ← hsum]
      exact hm''
    · rintro m' ⟨-, hm'⟩
      refine hwrote.again hm' fun c hc => ?_
      obtain ⟨j, hj, rfl⟩ := mem_cellsAt.mp hc
      exact ⟨(y + j, softmaxAt F exp X n j), mem_cellsAt.mpr ⟨j, hj, rfl⟩, rfl⟩

theorem row_le {r rows : Nat} (n : Nat) (h : r < rows) : r * n + n ≤ rows * n := by
  have hle := Nat.mul_le_mul_right n h
  rwa [Nat.succ_mul] at hle

/-- Two rows have nothing in common. -/
theorem rows_apart {r r' : Nat} (n : Nat) (hne : r ≠ r') :
    r * n + n ≤ r' * n ∨ r' * n + n ≤ r * n := by
  rcases Nat.lt_or_gt_of_ne hne with hlt | hlt
  · exact Or.inl (row_le n hlt)
  · exact Or.inr (row_le n hlt)

/-- The cells of some rows. -/
def rowCells (y : Int) (rows n : Nat) (Y : Nat → Nat → β) : List (Int × β) :=
  (List.range rows).flatMap fun r => cellsAt (y + (r * n : Nat)) n (Y r)

/-- Rows of softmax in any order. -/
theorem softmaxRows_ok (schedule : Schedule) {rows : Nat} {X : Nat → Nat → β} (hn : 1 ≤ n)
    (hx : ∀ r < rows, HoldsFloats m (x + (r * n : Nat)) n (X r)) (hy : HoldsFloats m y (rows * n) Y)
    (hplace : x = y ∨ Apart x (rows * n) y (rows * n)) :
    (regionM schedule rows 1 (fun first last m => (span first last).foldlM (fun m r =>
      softmaxRow F exp n (x + (r * n : Nat)) (y + (r * n : Nat)) m) m) m).Returns fun m' =>
      Wrote m m' (rowCells y rows n fun r => softmaxAt F exp (X r) n) := by
  refine rowsLoop_ok schedule le_rfl _
    (fun r p => ∃ j < n, p = x + (r * n : Nat) + (j : Int)) ?_ ?_ ?_ ?_
  · intro r hr r' hr' hne c hc c' hc' heq
    obtain ⟨j, hj, rfl⟩ := mem_cellsAt.mp hc
    obtain ⟨j', hj', rfl⟩ := mem_cellsAt.mp hc'
    have heq : y + ((r * n : Nat) : Int) + j = y + ((r' * n : Nat) : Int) + j' := heq
    have := rows_apart n hne
    omega
  · rintro r hr r' hr' hne c hc ⟨j', hj', heq⟩
    obtain ⟨j, hj, rfl⟩ := mem_cellsAt.mp hc
    have heq : y + ((r * n : Nat) : Int) + j = x + ((r' * n : Nat) : Int) + j' := heq
    have h1 := rows_apart n hne
    have h2 := row_le n hr
    have h3 := row_le n hr'
    rcases hplace with rfl | hlt | hlt <;> omega
  · intro r hr m' hreads hhas
    have h2 := row_le n hr
    refine softmaxRow_ok F exp hn ?_ hhas ?_
    · intro j hj
      rw [hreads _ ⟨j, hj, rfl⟩]
      exact hx r hr j hj
    · rcases hplace with rfl | hlt | hlt
      · exact Or.inl rfl
      · refine Or.inr (Or.inl ?_)
        omega
      · refine Or.inr (Or.inr ?_)
        omega
  · intro r hr
    exact (hy.sub (row_le n hr)).has _

end

/-! ### RoPE

The two halves of a head are turned against each other, in place.  A pair reads the two cells
that it writes, and the tables lie elsewhere. -/

section

variable (F : Floats β) {half heads : Nat} {C S : Nat → β} {cosRow sinRow v : Int}

/-- An element of a rotated head. -/
def rotated (half : Nat) (C S X : Nat → β) (e : Nat) : β :=
  if e < half then F.sub (F.mul (X e) (C e)) (F.mul (X (e + half)) (S e))
  else F.add (F.mul (X e) (C (e - half))) (F.mul (X (e - half)) (S (e - half)))

/-- The two cells of a pair. -/
def pairCells (half : Nat) (v : Int) (Y : Nat → β) (j : Nat) : List (Int × β) :=
  [(v + j, Y j), (v + j + half, Y (j + half))]

theorem mem_pairCells {Y : Nat → β} (c : Int × β) :
    c ∈ (List.range half).flatMap (pairCells half v Y) ↔ c ∈ cellsAt v (2 * half) Y := by
  rw [mem_cellsAt, List.mem_flatMap]
  constructor
  · rintro ⟨j, hj, hc⟩
    have hj := List.mem_range.mp hj
    rcases List.mem_cons.mp hc with rfl | hc
    · exact ⟨j, by omega, rfl⟩
    · rw [List.mem_singleton.mp hc]
      exact ⟨j + half, by omega, by rw [Int.natCast_add, Int.add_assoc]⟩
  · rintro ⟨j, hj, rfl⟩
    by_cases hlow : j < half
    · exact ⟨j, List.mem_range.mpr hlow, List.mem_cons_self⟩
    · refine ⟨j - half, List.mem_range.mpr (by omega), List.mem_cons_of_mem _ ?_⟩
      rw [Nat.sub_add_cancel (by omega), Int.add_assoc, ← Int.natCast_add,
        Nat.sub_add_cancel (by omega)]
      exact List.mem_singleton.mpr rfl

/-- One pair, its values still there. -/
theorem ropePair_ok {c s lo hi : β} {j : Nat} (hj : j < half) (hc : m (cosRow + j) = some c)
    (hs : m (sinRow + j) = some s) (hlo : m (v + j) = some lo) (hhi : m (v + j + half) = some hi) :
    (ropePair F half cosRow sinRow v m j).Returns fun m' =>
      Wrote m m' [(v + j, F.sub (F.mul lo c) (F.mul hi s)),
        (v + j + half, F.add (F.mul hi c) (F.mul lo s))] := by
  unfold ropePair
  have hcos : loadFloat m (cosRow + j) = .ok c := load_ok hc
  have hsin : loadFloat m (sinRow + j) = .ok s := load_ok hs
  have hlow : loadFloat m (v + j) = .ok lo := load_ok hlo
  have hhigh : loadFloat m (v + j + half) = .ok hi := load_ok hhi
  rw [hcos, ok_bind, hsin, ok_bind, hlow, ok_bind, hhigh, ok_bind]
  refine (store_wrote _ (by rw [hlo]; rfl) _).bind fun m₁ h₁ => ?_
  have hother : v + (j : Int) + half ≠ v + j := by omega
  have hstill : (m₁ (v + j + half)).isSome := by
    rw [h₁.outside _ fun c hc => by rw [List.mem_singleton.mp hc]; exact hother, hhi]
    rfl
  refine (store_wrote _ hstill _).mono fun m₂ h₂ => h₁.append h₂ fun c hc c' hc' => ?_
  rw [List.mem_singleton.mp hc, List.mem_singleton.mp hc']
  exact hother.symm

/-- **A head is rotated in place.** -/
theorem ropeHead_ok {X : Nat → β} (hC : HoldsFloats m cosRow half C)
    (hS : HoldsFloats m sinRow half S) (hX : HoldsFloats m v (2 * half) X)
    (hcos : Apart cosRow half v (2 * half)) (hsin : Apart sinRow half v (2 * half)) :
    ((List.range half).foldlM (ropePair F half cosRow sinRow v) m).Returns fun m' =>
      Wrote m m' (cellsAt v (2 * half) (rotated F half C S X)) := by
  have haway : ∀ {row : Int}, Apart row half v (2 * half) → ∀ i < half, ∀ j < half,
      v + (i : Int) ≠ row + j ∧ v + (i : Int) + half ≠ row + j := by
    intro row hrow i hi j hj
    rcases hrow with hlt | hlt <;> omega
  refine (loop_ok (fun m : Memory β => m) (fun _ _ => True)
    (pairCells half v (rotated F half C S X))
    (fun j p => p = cosRow + j ∨ p = sinRow + j ∨ p = v + j ∨ p = v + j + half)
    (List.nodup_range.pairwise_of_forall_ne fun i hi j hj hne => ?_)
    (List.nodup_range.pairwise_of_forall_ne fun i hi j hj hne => ?_) ?_ trivial ?_).mono ?_
  · have hi := List.mem_range.mp hi
    have hj := List.mem_range.mp hj
    simp only [pairCells, List.forall_mem_cons, List.not_mem_nil, false_imp_iff, implies_true,
      and_true]
    omega
  · have hi := List.mem_range.mp hi
    have hj := List.mem_range.mp hj
    have hc := haway hcos i hi j hj
    have hs := haway hsin i hi j hj
    simp only [pairCells, List.forall_mem_cons, List.not_mem_nil, false_imp_iff, implies_true,
      and_true]
    omega
  · rintro visited j rest m' hl - hreads -
    have hj : j < half := List.mem_range.mp (by
      rw [hl]
      simp)
    have hlow := hX j (by omega)
    have hhigh := hX (j + half) (by omega)
    rw [Int.natCast_add, ← Int.add_assoc] at hhigh
    refine (ropePair_ok F hj ((hreads _ (Or.inl rfl)).trans (hC j hj))
      ((hreads _ (Or.inr (Or.inl rfl))).trans (hS j hj))
      ((hreads _ (Or.inr (Or.inr (Or.inl rfl)))).trans hlow)
      ((hreads _ (Or.inr (Or.inr (Or.inr rfl)))).trans hhigh)).mono fun m'' hm'' => ⟨trivial, ?_⟩
    have hfirst : rotated F half C S X j
        = F.sub (F.mul (X j) (C j)) (F.mul (X (j + half)) (S j)) := if_pos hj
    have hsecond : rotated F half C S X (j + half)
        = F.add (F.mul (X (j + half)) (C j)) (F.mul (X j) (S j)) := by
      unfold rotated
      rw [if_neg (by omega), Nat.add_sub_cancel]
    rw [pairCells, hfirst, hsecond]
    exact hm''
  · intro c hc
    obtain ⟨e, he, rfl⟩ := mem_cellsAt.mp ((mem_pairCells c).mp hc)
    show (m (v + e)).isSome
    rw [hX e he]
    rfl
  · rintro m' ⟨-, hm'⟩
    exact hm'.congr mem_pairCells

/-- All heads of a token. -/
theorem ropeToken_ok {X : Nat → Nat → β} {cos sin x p : Int}
    (hC : HoldsFloats m (cos + p * half) half C) (hS : HoldsFloats m (sin + p * half) half S)
    (hX : ∀ h < heads, HoldsFloats m (x + (h * (2 * half) : Nat)) (2 * half) (X h))
    (hcos : Apart (cos + p * half) half x (heads * (2 * half)))
    (hsin : Apart (sin + p * half) half x (heads * (2 * half))) :
    (ropeToken F heads (2 * half) cos sin x p m).Returns fun m' =>
      Wrote m m' (rowCells x heads (2 * half) fun h => rotated F half C S (X h)) := by
  have hpart : ∀ {row : Int}, Apart row half x (heads * (2 * half)) → ∀ h < heads,
      Apart row half (x + (h * (2 * half) : Nat)) (2 * half) := by
    intro row haway h hh
    have := row_le (2 * half) hh
    rcases haway with hlt | hlt
    · exact Or.inl (by omega)
    · exact Or.inr (by omega)
  unfold ropeToken
  rw [Nat.mul_div_cancel_left half (by decide)]
  refine (loop_ok (fun m : Memory β => m) (fun _ _ => True)
    (fun h => cellsAt (x + (h * (2 * half) : Nat)) (2 * half) (rotated F half C S (X h)))
    (fun h p' => (∃ j < half, p' = cos + p * half + (j : Int)) ∨
      (∃ j < half, p' = sin + p * half + (j : Int)) ∨
      ∃ e < 2 * half, p' = x + (h * (2 * half) : Nat) + (e : Int))
    (List.nodup_range.pairwise_of_forall_ne fun h hh h' hh' hne => ?_)
    (List.nodup_range.pairwise_of_forall_ne fun h hh h' hh' hne => ?_) ?_ trivial ?_).mono ?_
  · intro c hc c' hc' heq
    obtain ⟨e, he, rfl⟩ := mem_cellsAt.mp hc
    obtain ⟨e', he', rfl⟩ := mem_cellsAt.mp hc'
    have heq : x + ((h * (2 * half) : Nat) : Int) + e
      = x + ((h' * (2 * half) : Nat) : Int) + e' := heq
    have := rows_apart (2 * half) hne
    omega
  · intro c hc hreads
    obtain ⟨e, he, rfl⟩ := mem_cellsAt.mp hc
    have hh := row_le (2 * half) (List.mem_range.mp hh)
    have hapart := rows_apart (2 * half) hne
    rcases hreads with ⟨j, hj, heq⟩ | ⟨j, hj, heq⟩ | ⟨e', he', heq⟩
    · have heq : x + ((h * (2 * half) : Nat) : Int) + e = cos + p * half + j := heq
      rcases hcos with hlt | hlt <;> omega
    · have heq : x + ((h * (2 * half) : Nat) : Int) + e = sin + p * half + j := heq
      rcases hsin with hlt | hlt <;> omega
    · have heq : x + ((h * (2 * half) : Nat) : Int) + e
          = x + ((h' * (2 * half) : Nat) : Int) + e' := heq
      omega
  · rintro visited h rest m' hl - hreads -
    have hh : h < heads := List.mem_range.mp (by
      rw [hl]
      simp)
    refine (ropeHead_ok F (fun j hj => ?_) (fun j hj => ?_) (fun e he => ?_) (hpart hcos h hh)
      (hpart hsin h hh)).mono fun m'' hm'' => ⟨trivial, hm''⟩
    · exact (hreads _ (Or.inl ⟨j, hj, rfl⟩)).trans (hC j hj)
    · exact (hreads _ (Or.inr (Or.inl ⟨j, hj, rfl⟩))).trans (hS j hj)
    · exact (hreads _ (Or.inr (Or.inr ⟨e, he, rfl⟩))).trans (hX h hh e he)
  · intro c hc
    obtain ⟨h, hh, hc⟩ := List.mem_flatMap.mp hc
    exact (hX h (List.mem_range.mp hh)).has _ c hc
  · rintro m' ⟨-, hm'⟩
    exact hm'

theorem mem_rowCells {rows : Nat} {Y : Nat → Nat → β} {c : Int × β}
    (hc : c ∈ rowCells y rows n Y) : ∃ e < rows * n, c.1 = y + (e : Int) := by
  obtain ⟨r, hr, hc⟩ := List.mem_flatMap.mp hc
  obtain ⟨j, hj, rfl⟩ := mem_cellsAt.mp hc
  have hle := row_le n (List.mem_range.mp hr)
  refine ⟨r * n + j, by omega, ?_⟩
  rw [Int.natCast_add, ← Int.add_assoc]

/-- What the checks of `rope_apply` establish. -/
structure RopeShapes (x : PlacedTensor) (positions : List Int) (cos : PlacedTensor) : Prop where
  even : x.dim 2 % 2 = 0
  length : positions.length = x.dim 0
  range : ∀ p ∈ positions, 0 ≤ p ∧ p < cos.dim 0

/-- A check that has been passed, and what comes behind it. -/
theorem ite_error {bad : Prop} [Decidable bad] {x y : StatusOr Unit} {status : Status}
    (h : (if bad then (throw status : StatusOr PUnit) >>= fun _ => x else y) = .ok ()) :
    ¬bad ∧ y = .ok () := by
  by_cases hbad : bad
  · rw [if_pos hbad] at h
    cases h
  · rw [if_neg hbad] at h
    exact ⟨hbad, h⟩

theorem ropeShapes_of_ok {x cos sin : PlacedTensor} {positions : List Int}
    (h : requireRope x positions cos sin = .ok ()) : RopeShapes x positions cos := by
  unfold requireRope at h
  obtain ⟨_, -, h⟩ := bind_eq_ok.mp h
  obtain ⟨_, -, h⟩ := bind_eq_ok.mp h
  obtain ⟨_, -, h⟩ := bind_eq_ok.mp h
  obtain ⟨_, -, h⟩ := bind_eq_ok.mp h
  obtain ⟨_, -, h⟩ := bind_eq_ok.mp h
  obtain ⟨_, -, h⟩ := bind_eq_ok.mp h
  obtain ⟨-, h⟩ := ite_error h
  obtain ⟨heven, h⟩ := ite_error h
  obtain ⟨-, h⟩ := ite_error h
  obtain ⟨-, h⟩ := ite_error h
  obtain ⟨hlength, h⟩ := ite_error h
  refine ⟨not_not.mp heven, not_not.mp hlength, fun p hp => ?_⟩
  obtain ⟨t, ht, rfl⟩ := List.getElem_of_mem hp
  have hcheck := forM_eq_ok.mp h (positions[t], t) (List.mem_zipIdx_iff_getElem?.mpr (by simp))
  dsimp only at hcheck
  split at hcheck
  · cases hcheck
  next hin => omega

/-- **`rope_apply` in any schedule.**  The tables hold a row for every position, and lie apart
from the tensor that is rotated. -/
theorem ropeApply_ok (schedule : Schedule) {x cos sin : PlacedTensor} {positions : List Int}
    {X : Nat → β} {CT ST : Nat → β} (hchecks : requireRope x positions cos sin = .ok ())
    (hhalf : x.dim 2 / 2 = half) (hheads : x.dim 1 = heads)
    (hC : HoldsFloats m cos.data (cos.dim 0 * half) CT)
    (hS : HoldsFloats m sin.data (cos.dim 0 * half) ST)
    (hX : HoldsFloats m x.data (x.dim 0 * (heads * (2 * half))) X)
    (hcos : Apart cos.data (cos.dim 0 * half) x.data (x.dim 0 * (heads * (2 * half))))
    (hsin : Apart sin.data (cos.dim 0 * half) x.data (x.dim 0 * (heads * (2 * half)))) :
    (ropeApply F schedule x positions cos sin m).Returns fun r => ∃ m', r = .ok m' ∧
      Wrote m m' ((List.range (x.dim 0)).flatMap fun t =>
        rowCells (x.data + (t * (heads * (2 * half)) : Nat)) heads (2 * half) fun h =>
          let row := (positions.getD t 0).toNat * half
          rotated F half (fun j => CT (row + j)) (fun j => ST (row + j))
            (fun e => X (t * (heads * (2 * half)) + (h * (2 * half) + e)))) := by
  obtain ⟨heven, hlength, hrange⟩ := ropeShapes_of_ok hchecks
  have hd : x.dim 2 = 2 * half := by omega
  have hrow : ∀ t < x.dim 0, ∃ p : Nat, readAt positions (t : Nat) = .ok (p : Int) ∧
      (positions.getD t 0).toNat = p ∧ p < cos.dim 0 := by
    intro t ht
    have hlt : t < positions.length := hlength ▸ ht
    have hp := hrange _ (List.getElem_mem hlt)
    refine ⟨positions[t].toNat, ?_, ?_, by omega⟩
    · rw [Int.toNat_of_nonneg hp.1]
      exact readAt_natCast hlt
    · rw [List.getD_eq_getElem _ _ hlt]
  have htable : ∀ {m' : Memory β} {base : Int} {T : Nat → β} {p : Nat}, p < cos.dim 0 →
      HoldsFloats m' base (cos.dim 0 * half) T →
      HoldsFloats m' (base + (p : Int) * half) half fun j => T (p * half + j) := by
    intro m' base T p hp hT
    have hsub := hT.sub (row_le half hp)
    rwa [Int.natCast_mul] at hsub
  have haway : ∀ {base : Int} {p t : Nat}, p < cos.dim 0 → t < x.dim 0 →
      Apart base (cos.dim 0 * half) x.data (x.dim 0 * (heads * (2 * half))) →
      Apart (base + (p : Int) * half) half (x.data + (t * (heads * (2 * half)) : Nat))
        (heads * (2 * half)) := by
    intro base p t hp ht hapart
    have h1 := row_le half hp
    have h2 := row_le (heads * (2 * half)) ht
    have h3 : ((p : Int) * half) = ((p * half : Nat) : Int) := (Int.natCast_mul ..).symm
    rw [h3]
    rcases hapart with hlt | hlt
    · exact Or.inl (by omega)
    · exact Or.inr (by omega)
  unfold ropeApply
  rw [hchecks]
  dsimp only
  rw [hheads, hd]
  refine Returns.bind (rowsLoop_ok schedule le_rfl _
    (fun t p => (∃ j < cos.dim 0 * half, p = cos.data + (j : Int)) ∨
      (∃ j < cos.dim 0 * half, p = sin.data + (j : Int)) ∨
      ∃ e < heads * (2 * half), p = x.data + (t * (heads * (2 * half)) : Nat) + (e : Int))
    ?_ ?_ ?_ ?_) fun m' hm' => returns_pure ⟨m', rfl, hm'⟩
  · intro t ht t' ht' hne c hc c' hc' heq
    obtain ⟨e, he, hc⟩ := mem_rowCells hc
    obtain ⟨e', he', hc'⟩ := mem_rowCells hc'
    have := rows_apart (heads * (2 * half)) hne
    omega
  · intro t ht t' ht' hne c hc hreads
    obtain ⟨e, he, hc⟩ := mem_rowCells hc
    have hle := row_le (heads * (2 * half)) ht
    have hapart := rows_apart (heads * (2 * half)) hne
    rcases hreads with ⟨j, hj, heq⟩ | ⟨j, hj, heq⟩ | ⟨e', he', heq⟩
    · rcases hcos with hlt | hlt <;> omega
    · rcases hsin with hlt | hlt <;> omega
    · omega
  · intro t ht m' hreads _
    obtain ⟨p, hread, hp, hlt⟩ := hrow t ht
    have hplace : x.data + ((t * heads * (2 * half) : Nat) : Int)
        = x.data + ((t * (heads * (2 * half)) : Nat) : Int) := by rw [Nat.mul_assoc]
    rw [hread, ok_bind, hplace, hp]
    refine ropeToken_ok F (htable hlt fun j hj => ?_) (htable hlt fun j hj => ?_)
      (fun h hh e he => ?_) (haway hlt ht hcos) (haway hlt ht hsin)
    · exact (hreads _ (Or.inl ⟨j, hj, rfl⟩)).trans (hC j hj)
    · exact (hreads _ (Or.inr (Or.inl ⟨j, hj, rfl⟩))).trans (hS j hj)
    · have hle := row_le (2 * half) hh
      have hcell := hX.sub (row_le (heads * (2 * half)) ht) (h * (2 * half) + e) (by omega)
      rw [Int.natCast_add, ← Int.add_assoc] at hcell
      refine (hreads _ (Or.inr (Or.inr ⟨h * (2 * half) + e, by omega, ?_⟩))).trans hcell
      rw [Int.natCast_add, ← Int.add_assoc]
  · intro t ht c hc
    obtain ⟨e, he, hc⟩ := mem_rowCells hc
    have hcell := hX.sub (row_le (heads * (2 * half)) ht) e he
    rw [hc, hcell]
    rfl

end

/-! ### Activations

An element of the output is computed from the two elements at its own place, so either input may
lie where the output does. -/

section

variable {f : β → β → β} {A B : Nat → β} {a b t : PlacedTensor}

/-- **An elementwise operation**, in any schedule. -/
theorem binaryOp_ok (schedule : Schedule) (hcols : 1 ≤ a.dim 1) (hn : a.dim 0 * a.dim 1 = n)
    (hA : HoldsFloats m a.data n A) (hB : HoldsFloats m b.data n B)
    (hY : HoldsFloats m t.data n Y) (ha : a.data = t.data ∨ Apart a.data n t.data n)
    (hb : b.data = t.data ∨ Apart b.data n t.data n) :
    (binaryOp schedule f a b t (.ok ()) m).Returns fun r => ∃ m', r = .ok m' ∧
      Wrote m m' (cellsAt t.data n fun i => f (A i) (B i)) := by
  unfold binaryOp
  dsimp only
  rw [hn]
  refine Returns.bind (rowsLoop_ok schedule (by rwa [kRowGrain, Nat.mul_one])
    (fun i : Nat => [(t.data + (i : Int), f (A i) (B i))])
    (fun i p => p = a.data + (i : Int) ∨ p = b.data + (i : Int)) ?_ ?_ ?_ ?_)
    fun m' hm' => returns_pure ⟨m', rfl, ?_⟩
  · intro i hi j hj hne c hc c' hc' heq
    rw [List.mem_singleton.mp hc, List.mem_singleton.mp hc'] at heq
    have heq : t.data + (i : Int) = t.data + j := heq
    omega
  · intro i hi j hj hne c hc hreads
    rw [List.mem_singleton.mp hc] at hreads
    rcases hreads with heq | heq
    · have heq : t.data + (i : Int) = a.data + j := heq
      rcases ha with h | h | h <;> omega
    · have heq : t.data + (i : Int) = b.data + j := heq
      rcases hb with h | h | h <;> omega
  · intro i hi m' hreads hhas
    have hai : loadFloat m' (a.data + i) = .ok (A i) :=
      load_ok ((hreads _ (Or.inl rfl)).trans (hA i hi))
    have hbi : loadFloat m' (b.data + i) = .ok (B i) :=
      load_ok ((hreads _ (Or.inr rfl)).trans (hB i hi))
    unfold binaryElement
    rw [hai, ok_bind, hbi, ok_bind]
    exact store_wrote _ (hhas _ (List.mem_singleton.mpr rfl)) _
  · intro i hi c hc
    rw [List.mem_singleton.mp hc]
    show (m (t.data + (i : Int))).isSome
    rw [hY i hi]
    rfl
  · rwa [← List.map_eq_flatMap] at hm'

/-- A shape that passes its checks has columns. -/
theorem requireBinary_columns {op roleA roleB dims : String}
    (h : requireBinary a b t op roleA roleB dims = .ok ()) : 1 ≤ a.dim 1 := by
  unfold requireBinary at h
  obtain ⟨_, -, h⟩ := bind_eq_ok.mp h
  obtain ⟨_, -, h⟩ := bind_eq_ok.mp h
  by_contra hnone
  rw [if_pos (Or.inr (by omega))] at h
  cases h

theorem siluMul_ok (F : Floats β) (neg : β → β) (schedule : Schedule)
    (hchecks : requireBinary a b t "cpu::silu_mul" "gate" "up" "[T>=1, I>=1]" = .ok ())
    (hn : a.dim 0 * a.dim 1 = n) (hA : HoldsFloats m a.data n A) (hB : HoldsFloats m b.data n B)
    (hY : HoldsFloats m t.data n Y) (ha : a.data = t.data ∨ Apart a.data n t.data n)
    (hb : b.data = t.data ∨ Apart b.data n t.data n) :
    (siluMul F neg schedule a b t m).Returns fun r => ∃ m', r = .ok m' ∧
      Wrote m m' (cellsAt t.data n fun i => F.mul (silu F F.exp neg (A i)) (B i)) := by
  unfold siluMul
  rw [hchecks]
  exact binaryOp_ok schedule (requireBinary_columns hchecks) hn hA hB hY ha hb

theorem add_ok (F : Floats β) (schedule : Schedule)
    (hchecks : requireBinary a b t "cpu::add" "a" "b" "[T>=1, E>=1]" = .ok ())
    (hn : a.dim 0 * a.dim 1 = n) (hA : HoldsFloats m a.data n A) (hB : HoldsFloats m b.data n B)
    (hY : HoldsFloats m t.data n Y) (ha : a.data = t.data ∨ Apart a.data n t.data n)
    (hb : b.data = t.data ∨ Apart b.data n t.data n) :
    (add F schedule a b t m).Returns fun r => ∃ m', r = .ok m' ∧
      Wrote m m' (cellsAt t.data n fun i => F.add (A i) (B i)) := by
  unfold add
  rw [hchecks]
  exact binaryOp_ok schedule (requireBinary_columns hchecks) hn hA hB hY ha hb

end

end Cpu

end InferenceEngine
