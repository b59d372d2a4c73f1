/-
The recurrence of a query over a field.

With the exponential of a field in the place of single precision arithmetic, what a query has
accumulated is a weighted sum of the values it has taken in, and its denominator is the total
weight; the running maximum is the reference of the weights.  Minus infinity is an extra element
below the field, whose exponential is zero.
-/
import InferenceEngine.Lib.OnlineSoftmax
import InferenceEngine.Proofs.AttentionUnits
import Mathlib.Algebra.Order.Monoid.Unbundled.WithTop

namespace InferenceEngine

open OnlineSoftmax Stores

namespace Attention

variable {K : Type} [Field K] [LinearOrder K]

/-- An operation on numbers; it is not used on minus infinity. -/
def lift₂ (op : K → K → K) (a b : WithBot K) : WithBot K := WithBot.map₂ op a b

/-- The numbers of a field and minus infinity. -/
def fieldFloats (E : Exponential K) : Floats (WithBot K) where
  zero := (0 : K)
  one := (1 : K)
  negInf := ⊥
  add := lift₂ (· + ·)
  sub := lift₂ (· - ·)
  mul := lift₂ (· * ·)
  div := lift₂ (· / ·)
  exp a := (a.recBotCoe 0 E.exp : K)
  expF32Scalar a := (a.recBotCoe 0 E.exp : K)

section

variable (E : Exponential K)

@[simp] theorem fieldFloats_add (a b : K) :
    (fieldFloats E).add (a : WithBot K) b = (a + b : K) := rfl
@[simp] theorem fieldFloats_sub (a b : K) :
    (fieldFloats E).sub (a : WithBot K) b = (a - b : K) := rfl
@[simp] theorem fieldFloats_mul (a b : K) :
    (fieldFloats E).mul (a : WithBot K) b = (a * b : K) := rfl
@[simp] theorem fieldFloats_div (a b : K) :
    (fieldFloats E).div (a : WithBot K) b = (a / b : K) := rfl
@[simp] theorem fieldFloats_exp (a : K) : (fieldFloats E).exp (a : WithBot K) = (E.exp a : K) :=
  rfl
@[simp] theorem fieldFloats_expF32 (a : K) :
    (fieldFloats E).expF32Scalar (a : WithBot K) = (E.exp a : K) := rfl
@[simp] theorem fieldFloats_sub_bot (b : WithBot K) : (fieldFloats E).sub ⊥ b = ⊥ := rfl
@[simp] theorem fieldFloats_exp_bot : (fieldFloats E).exp ⊥ = (0 : K) := rfl
@[simp] theorem fieldFloats_expF32_bot : (fieldFloats E).expF32Scalar ⊥ = (0 : K) := rfl

/-- A sum that is added up from left to right. -/
theorem foldl_add (f : Nat → K) (s : K) (k : Nat) :
    (List.range k).foldl (fun a j => (fieldFloats E).add a (f j : K)) (s : WithBot K) =
      (s + ∑ j ∈ Finset.range k, f j : K) := by
  induction k with
  | zero => simp
  | succ k ih =>
      rw [List.range_succ, List.foldl_append, ih, List.foldl_cons, List.foldl_nil,
        fieldFloats_add, Finset.sum_range_succ, add_assoc]

omit [Field K] in
/-- The larger one of a number and anything is a number. -/
theorem larger_coe (x : K) (m : WithBot K) : ∃ M : K, larger (x : WithBot K) m = M := by
  rw [larger]
  by_cases h : m < x
  · exact ⟨x, if_pos h⟩
  · rw [if_neg h]
    cases m with
    | bot => exact absurd (WithBot.bot_lt_coe x) h
    | coe y => exact ⟨y, rfl⟩

/-- A block of numbers has a number as its maximum. -/
theorem rowMax_coe {k : Nat} (hk : 0 < k) (x : Nat → K) :
    ∃ M : K, rowMax (scalarOps (fieldFloats E)) ((List.range k).map fun i => (x i : WithBot K)) =
      M := by
  obtain ⟨k, rfl⟩ := Nat.exists_eq_add_one_of_ne_zero (by omega : k ≠ 0)
  rw [rowMax, List.range_succ, List.map_append, List.foldl_append, List.map_singleton,
    List.foldl_cons, List.foldl_nil]
  exact larger_coe _ _

/-- A row of numbers. -/
def realRow (d : Nat) (f : Nat → K) : List (WithBot K) :=
  (List.range d).map fun e => (f e : WithBot K)

/-! ### The invariant

With respect to some reference, a query holds the sum of its weights and the weighted sum of its
values.  A new maximum changes the reference, and both sums by one factor. -/

/-- **What a query has accumulated** when it has taken in `n` keys with the scores `x` and the
values `v`. -/
def Averages (x : Nat → K) (v : Nat → Nat → K) (d n : Nat) (a : Pass (WithBot K)) : Prop :=
  (n = 0 ∧ a.run = ⟨⊥, (0 : K)⟩ ∧ a.row = realRow d fun _ => 0) ∨
    ∃ m : K, a.run = ⟨m, (mass E x m n : K)⟩ ∧ a.row = realRow d fun e => moment E x (v · e) m n

variable {x : Nat → K} {v : Nat → Nat → K} {d n : Nat} {a : Pass (WithBot K)}

theorem averages_begin (x : Nat → K) (v : Nat → Nat → K) (d : Nat) :
    Averages E x v d 0 (Pass.begin (scalarOps (fieldFloats E)) d) := by
  refine Or.inl ⟨rfl, rfl, ?_⟩
  show List.replicate d _ = _
  rw [realRow, List.map_const', List.length_range]
  rfl

/-- What has been accumulated, brought to a new reference. -/
theorem averages_rescaled (h : Averages E x v d n a) (M : K) :
    (scalarOps (fieldFloats E)).mul a.run.den
      ((scalarOps (fieldFloats E)).expF32Scalar ((scalarOps (fieldFloats E)).sub a.run.max M)) =
        (mass E x M n : K) ∧
    (scalarOps (fieldFloats E)).scaleRow a.row
      ((scalarOps (fieldFloats E)).expF32Scalar ((scalarOps (fieldFloats E)).sub a.run.max M)) =
        realRow d fun e => moment E x (v · e) M n := by
  rcases h with ⟨rfl, hrun, hrow⟩ | ⟨m, hrun, hrow⟩
  · rw [hrun, hrow]
    refine ⟨?_, ?_⟩
    · show ((0 * 0 : K) : WithBot K) = _
      simp [mass]
    · show (realRow d fun _ => (0 : K)).map _ = _
      rw [realRow, realRow, List.map_map]
      refine List.map_congr_left fun e _ => ?_
      show ((0 * 0 : K) : WithBot K) = _
      simp [moment]
  · rw [hrun, hrow]
    refine ⟨?_, ?_⟩
    · show ((mass E x m n * E.exp (m - M) : K) : WithBot K) = _
      rw [mass_rebase]
    · show (realRow d fun e => moment E x (v · e) m n).map _ = _
      rw [realRow, realRow, List.map_map]
      refine List.map_congr_left fun e _ => ?_
      show ((moment E x (v · e) m n * E.exp (m - M) : K) : WithBot K) = _
      rw [moment_rebase]

/-- Rows that are added with their weights. -/
theorem foldl_weigh_row (w : Nat → K) (u : Nat → Nat → K) (k : Nat) (f : Nat → K)
    (hrow : a.row = realRow d f) :
    (((List.range k).map fun i => ((w i : WithBot K), realRow d (u i))).foldl
      (Pass.weigh (scalarOps (fieldFloats E))) a).row =
        realRow d fun e => f e + ∑ i ∈ Finset.range k, w i * u i e := by
  induction k with
  | zero => simp [hrow]
  | succ k ih =>
      rw [List.range_succ, List.map_append, List.foldl_append, List.map_singleton,
        List.foldl_cons, List.foldl_nil]
      show List.zipWith _ _ (realRow d (u k)) = _
      rw [ih, realRow, realRow, realRow, List.zipWith_map, List.zipWith_self]
      refine List.map_congr_left fun e _ => ?_
      show ((_ + w k * u k e : K) : WithBot K) = _
      rw [Finset.sum_range_succ, add_assoc]

/-- **A block is taken in.** -/
theorem averages_takeIn (h : Averages E x v d n a) {k : Nat} (hk : 0 < k) :
    Averages E x v d (n + k) (a.takeIn (scalarOps (fieldFloats E))
      (rowMax (scalarOps (fieldFloats E)) ((List.range k).map fun i => (x (n + i) : WithBot K)))
      ((List.range k).map fun i => (x (n + i) : WithBot K))
      ((List.range k).map fun i => realRow d (v (n + i)))) := by
  obtain ⟨R, hR⟩ := rowMax_coe E hk fun i => x (n + i)
  obtain ⟨M, hM⟩ := larger_coe R a.run.max
  rw [hR]
  have hmax : a.newMax (R : WithBot K) = M := by
    rw [Pass.newMax, hM]
  have hweights : a.weights (scalarOps (fieldFloats E)) R
      ((List.range k).map fun i => (x (n + i) : WithBot K)) =
        (List.range k).map fun i => (E.exp (x (n + i) - M) : WithBot K) := by
    rw [Pass.weights, hmax]
    show ((List.range k).map _).map _ = _
    rw [List.map_map]
    rfl
  have hsum : ((scalarOps (fieldFloats E)).expRowSum
      ((List.range k).map fun i => (x (n + i) : WithBot K)) M).2 =
        ((∑ i ∈ Finset.range k, E.exp (x (n + i) - M) : K) : WithBot K) := by
    show (((List.range k).map _).map _).foldl _ _ = _
    rw [List.map_map, List.foldl_map]
    have hfold := foldl_add E (fun i => E.exp (x (n + i) - M)) 0 k
    rw [zero_add] at hfold
    exact hfold
  obtain ⟨hden, hrow⟩ := averages_rescaled E h M
  refine Or.inr ⟨M, ?_, ?_⟩
  · rw [takeIn_run, Pass.rescaled, hmax, hden, hsum]
    show (⟨(M : WithBot K), _⟩ : Run (WithBot K)) = _
    rw [mass_append]
    rfl
  · rw [Pass.takeIn, hweights]
    have hzip : ((List.range k).map fun i => (E.exp (x (n + i) - M) : WithBot K)).zip
        ((List.range k).map fun i => realRow d (v (n + i))) =
        (List.range k).map fun i => ((E.exp (x (n + i) - M) : WithBot K), realRow d (v (n + i))) :=
      List.zip_map' ..
    rw [hzip, foldl_weigh_row E (fun i => E.exp (x (n + i) - M)) (fun i => v (n + i)) k
      (fun e => moment E x (v · e) M n) (by rw [← hrow, Pass.rescaled, hmax])]
    congr 1
    funext e
    rw [moment_append]

/-! ### Whole queries

The quotient of the two sums does not depend on the reference. -/

namespace Query

variable (q : Query (WithBot K))

/-- The scores and the values of a query are numbers. -/
structure Real (x : Nat → K) (v : Nat → Nat → K) (d : Nat) : Prop where
  scores : ∀ s < q.count, (scalarOps (fieldFloats E)).score q.q (q.k s) q.scale = x s
  values : ∀ s < q.count, q.v s = realRow d (v s)

variable {q}

/-- The blocks that have been taken in. -/
theorem pass_averages (hq : q.Real E x v d) :
    ∀ b ≤ blocks q.count kAttnKb, Averages E x v d (min (b * kAttnKb) q.count)
      (q.pass (scalarOps (fieldFloats E)) (rowMax (scalarOps (fieldFloats E))) d
        ((List.range b).map (· * kAttnKb))) := by
  intro b
  induction b with
  | zero =>
      intro _
      rw [Nat.zero_mul, Nat.zero_min]
      exact averages_begin E x v d
  | succ b ih =>
      intro hb
      have hlt : b * kAttnKb < q.count := lt_blocks hb
      have hwidth : 0 < q.width (b * kAttnKb) := by
        rw [width]
        have : 0 < kAttnKb := by decide
        omega
      have hfit : b * kAttnKb + q.width (b * kAttnKb) ≤ q.count := by
        rw [width]
        omega
      have hscores : q.scores (scalarOps (fieldFloats E)) (b * kAttnKb) =
          (List.range (q.width (b * kAttnKb))).map fun i =>
            (x (b * kAttnKb + i) : WithBot K) := by
        refine List.map_congr_left fun i hi => hq.scores _ ?_
        have := List.mem_range.mp hi
        omega
      have hvalues : q.ofBlock q.v (b * kAttnKb) =
          (List.range (q.width (b * kAttnKb))).map fun i => realRow d (v (b * kAttnKb + i)) := by
        refine List.map_congr_left fun i hi => hq.values _ ?_
        have := List.mem_range.mp hi
        omega
      have hbefore := ih (by omega)
      rw [Nat.min_eq_left hlt.le] at hbefore
      have hafter := averages_takeIn E hbefore hwidth
      have hcount : min ((b + 1) * kAttnKb) q.count = b * kAttnKb + q.width (b * kAttnKb) := by
        rw [width, Nat.succ_mul]
        omega
      rw [hcount, List.range_succ, List.map_append, pass, List.foldl_append, List.map_singleton,
        List.foldl_cons, List.foldl_nil, hscores, hvalues]
      exact hafter

/-- **What a query comes to** is the average of its values, and it is divided by a positive
weight at the end. -/
theorem result_averages [IsStrictOrderedRing K] (hq : q.Real E x v d) (hcount : 0 < q.count)
    (m : K) :
    (q.result (scalarOps (fieldFloats E)) (rowMax (scalarOps (fieldFloats E))) d).row =
        realRow d (fun e => average E x (v · e) m q.count) ∧
      ∃ (den : K) (calls : List (Call (WithBot K))) (row : List (WithBot K)), 0 < den ∧
        (q.result (scalarOps (fieldFloats E)) (rowMax (scalarOps (fieldFloats E))) d).calls =
          calls ++ [.scaleRow row ((fieldFloats E).div (1 : K) den)] := by
  have hpass := pass_averages E hq (blocks q.count kAttnKb) le_rfl
  rw [Nat.min_eq_right (blocks_mul_ge q.count (by decide))] at hpass
  rcases hpass with ⟨hzero, -, -⟩ | ⟨m₁, hrun, hrow⟩
  · omega
  have hpos : 0 < mass E x m₁ q.count := mass_pos E hcount
  have hresult : q.result (scalarOps (fieldFloats E)) (rowMax (scalarOps (fieldFloats E))) d =
      (q.pass (scalarOps (fieldFloats E)) (rowMax (scalarOps (fieldFloats E))) d
        ((List.range (blocks q.count kAttnKb)).map (· * kAttnKb))).finish
          (scalarOps (fieldFloats E)) := rfl
  generalize q.pass (scalarOps (fieldFloats E)) (rowMax (scalarOps (fieldFloats E))) d
    ((List.range (blocks q.count kAttnKb)).map (· * kAttnKb)) = a at hrun hrow hresult
  rw [hresult]
  refine ⟨?_, mass E x m₁ q.count, a.calls, a.row, hpos, ?_⟩
  · show a.row.map _ = _
    rw [hrow, hrun, realRow, realRow, List.map_map]
    refine List.map_congr_left fun e _ => ?_
    show ((moment E x (v · e) m₁ q.count * (1 / mass E x m₁ q.count) : K) : WithBot K) = _
    rw [mul_one_div, average_rebase E m₁]
    rfl
  · rw [Pass.finish, hrun]
    rfl

end Query

end

end Attention

end InferenceEngine
