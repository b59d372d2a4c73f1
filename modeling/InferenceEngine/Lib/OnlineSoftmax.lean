/-
Averages with exponential weights.

The weight of a score is its exponential, taken relative to some reference; which reference does
not matter, as both the total weight and the weighted sum change by one and the same factor when
it is replaced.  So the reference may be raised while the scores come in, as long as what has been
added up so far is brought along.
-/
import Mathlib.Algebra.BigOperators.Field
import Mathlib.Algebra.Order.BigOperators.Group.Finset
import Mathlib.Algebra.Order.Field.Basic

namespace OnlineSoftmax

universe u

/-- A positive function that takes sums to products. -/
structure Exponential (K : Type u) [Field K] [LinearOrder K] where
  exp : K → K
  pos : ∀ x, 0 < exp x
  add : ∀ x y, exp (x + y) = exp x * exp y

variable {K : Type u} [Field K] [LinearOrder K] (E : Exponential K)

/-- The total weight of the first `n` scores, relative to `m`. -/
def mass (x : Nat → K) (m : K) (n : Nat) : K := ∑ i ∈ Finset.range n, E.exp (x i - m)

/-- The weighted sum of the first `n` values. -/
def moment (x v : Nat → K) (m : K) (n : Nat) : K :=
  ∑ i ∈ Finset.range n, E.exp (x i - m) * v i

/-- The weighted average. -/
def average (x v : Nat → K) (m : K) (n : Nat) : K := moment E x v m n / mass E x m n

variable {x v : Nat → K} {m : K} {n : Nat}

theorem exp_rebase (a m m' : K) : E.exp (a - m) * E.exp (m - m') = E.exp (a - m') := by
  rw [← E.add, sub_add_sub_cancel]

/-- **The reference may be changed.** -/
theorem mass_rebase (m' : K) : mass E x m n * E.exp (m - m') = mass E x m' n := by
  rw [mass, Finset.sum_mul]
  exact Finset.sum_congr rfl fun i _ => exp_rebase E (x i) m m'

theorem moment_rebase (m' : K) : moment E x v m n * E.exp (m - m') = moment E x v m' n := by
  rw [moment, Finset.sum_mul]
  refine Finset.sum_congr rfl fun i _ => ?_
  rw [mul_right_comm, exp_rebase]

/-- Further scores are added with the same reference. -/
theorem mass_append (k : Nat) :
    mass E x m (n + k) = mass E x m n + ∑ i ∈ Finset.range k, E.exp (x (n + i) - m) :=
  Finset.sum_range_add _ n k

theorem moment_append (k : Nat) :
    moment E x v m (n + k) =
      moment E x v m n + ∑ i ∈ Finset.range k, E.exp (x (n + i) - m) * v (n + i) :=
  Finset.sum_range_add _ n k

theorem mass_pos [IsStrictOrderedRing K] (hn : 0 < n) : 0 < mass E x m n :=
  Finset.sum_pos (fun _ _ => E.pos _) ⟨0, Finset.mem_range.mpr hn⟩

/-- **The average does not depend on the reference.** -/
theorem average_rebase (m' : K) : average E x v m n = average E x v m' n := by
  rw [average, average, ← mass_rebase E m', ← moment_rebase E m',
    mul_div_mul_right _ _ (E.pos (m - m')).ne']

end OnlineSoftmax
