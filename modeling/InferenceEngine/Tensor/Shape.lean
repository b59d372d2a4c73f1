/-
Shapes and strides: `tensor/shape.h`.

A shape is built from data by `FromDims`, which returns a status, or from a literal by the
constructor, which ends the process; both validate the same way.
-/
import InferenceEngine.Core.Integer
import InferenceEngine.Lib.MixedRadix
import InferenceEngine.Tensor.Tensor

namespace InferenceEngine

/-- `kMaxRank`. -/
def maxRank : Nat := 8

/-- `detail::ShapeDefect`. -/
inductive ShapeDefect where
  | none
  | rankTooLarge
  | negativeDim
  | numelOverflow
deriving DecidableEq, Repr

/-- `detail::DimsValidation`. -/
structure DimsValidation where
  defect : ShapeDefect := .none
  index : Nat := 0
  numel : Int := 1
deriving DecidableEq, Repr

/-- The loop of `ValidateDims`, from dim `i` on. -/
def validateDimsFrom (i : Nat) (hasZero : Bool) (product : Int) : List Int → DimsValidation
  | [] => { numel := if hasZero then 0 else product }
  | dim :: rest =>
      if dim < 0 then { defect := .negativeDim, index := i }
      else if dim = 0 then validateDimsFrom (i + 1) true product rest
      else
        match mulOverflow product dim with
        | none => { defect := .numelOverflow }
        | some product => validateDimsFrom (i + 1) hasZero product rest

/-- `detail::ValidateDims`. -/
def validateDims (dims : List Int) : DimsValidation :=
  if dims.length > maxRank then { defect := .rankTooLarge }
  else validateDimsFrom 0 false 1 dims

/-- The product of the dims that are not zero. -/
def nonZeroProduct (dims : List Nat) : Nat := (dims.map (max · 1)).prod

theorem nonZeroProduct_cons (d : Nat) (ds : List Nat) :
    nonZeroProduct (d :: ds) = max d 1 * nonZeroProduct ds := by
  simp [nonZeroProduct]

theorem nonZeroProduct_pos (dims : List Nat) : 0 < nonZeroProduct dims := by
  induction dims with
  | nil => simp [nonZeroProduct]
  | cons d ds ih =>
      rw [nonZeroProduct_cons]
      exact Nat.mul_pos (by omega) ih

/-- What the loop accepts, and the count it returns. -/
theorem validateDimsFrom_spec (dims : List Int) :
    ∀ (i : Nat) (hasZero : Bool) (product : Nat), product < 2 ^ 63 →
      ((validateDimsFrom i hasZero product dims).defect = .none ↔
        (∀ d ∈ dims, 0 ≤ d) ∧ product * nonZeroProduct (dims.map Int.toNat) < 2 ^ 63) ∧
      ((validateDimsFrom i hasZero product dims).defect = .none →
        (validateDimsFrom i hasZero product dims).numel
          = if hasZero then 0 else ((product * (dims.map Int.toNat).prod : Nat) : Int)) := by
  induction dims with
  | nil =>
      intro i hasZero product hlt
      simpa [validateDimsFrom, nonZeroProduct] using hlt
  | cons d ds ih =>
      intro i hasZero product hlt
      rw [validateDimsFrom]
      by_cases hneg : d < 0
      · rw [if_pos hneg]
        refine ⟨⟨by simp, fun h => absurd (h.1 d (by simp)) (by omega)⟩, by simp⟩
      · obtain ⟨n, rfl⟩ := Int.eq_ofNat_of_zero_le (by omega : 0 ≤ d)
        rw [if_neg hneg, List.map_cons, Int.toNat_natCast, nonZeroProduct_cons, List.prod_cons]
        by_cases hzero : (n : Int) = 0
        · obtain rfl : n = 0 := by omega
          obtain ⟨hiff, hnumel⟩ := ih (i + 1) true product hlt
          rw [if_pos hzero]
          refine ⟨by simpa using hiff, ?_⟩
          intro h
          rw [hnumel h]
          simp
        · rw [if_neg hzero, mulOverflow_natCast, show max n 1 = n by omega,
            ← Nat.mul_assoc, ← Nat.mul_assoc]
          by_cases hfits : product * n < 2 ^ 63
          · rw [if_pos hfits]
            obtain ⟨hiff, hnumel⟩ := ih (i + 1) hasZero (product * n) hfits
            exact ⟨by simpa using hiff, hnumel⟩
          · rw [if_neg hfits]
            have hpos := nonZeroProduct_pos (ds.map Int.toNat)
            have hle := Nat.le_mul_of_pos_right (product * n) hpos
            refine ⟨⟨by simp, fun h => absurd h.2 (by omega)⟩, by simp⟩

/-- **`ValidateDims` accepts exactly the dims a shape may have.** -/
theorem validateDims_iff (dims : List Int) :
    (validateDims dims).defect = .none ↔
      dims.length ≤ maxRank ∧ (∀ d ∈ dims, 0 ≤ d) ∧
        nonZeroProduct (dims.map Int.toNat) < 2 ^ 63 := by
  unfold validateDims
  by_cases hrank : dims.length > maxRank
  · rw [if_pos hrank]
    exact ⟨by simp, fun h => absurd h.1 (by omega)⟩
  · rw [if_neg hrank]
    have hspec := (validateDimsFrom_spec dims 0 false 1 (by decide)).1
    rw [Nat.one_mul] at hspec
    exact ⟨fun h => ⟨by omega, hspec.mp h⟩, fun h => hspec.mpr h.2⟩

theorem validateDims_numel {dims : List Int} (h : (validateDims dims).defect = .none) :
    (validateDims dims).numel.toNat = (dims.map Int.toNat).prod := by
  have hrank : ¬dims.length > maxRank := by
    have := ((validateDims_iff dims).mp h).1
    omega
  unfold validateDims at h ⊢
  rw [if_neg hrank] at h ⊢
  have hnumel := (validateDimsFrom_spec dims 0 false 1 (by decide)).2 h
  rw [Nat.cast_one] at hnumel
  rw [hnumel, if_neg Bool.false_ne_true, Int.toNat_natCast, Nat.one_mul]

/-- `tensor::Shape`: the dims and their product, which is kept with them. -/
@[ext]
structure Shape where
  dims : List Nat
  numel : Nat
  rank_le : dims.length ≤ maxRank
  nonZeroProduct_lt : nonZeroProduct dims < 2 ^ 63
  numel_eq : numel = dims.prod
deriving DecidableEq, Repr

namespace Shape

/-- `rank()`. -/
def rank (shape : Shape) : Nat := shape.dims.length

/-- `Shape::FromDims`. -/
def fromDims (dims : List Int) : StatusOr Shape :=
  match h : (validateDims dims).defect with
  | .rankTooLarge => .error (invalidArgumentError
      s!"rank {dims.length} exceeds kMaxRank ({maxRank})")
  | .negativeDim => .error (invalidArgumentError
      s!"negative dim {dims.getD (validateDims dims).index 0} at index {(validateDims dims).index}")
  | .numelOverflow => .error (invalidArgumentError
      s!"dim product overflows int64_t for dims {formatInts dims}")
  | .none => .ok {
      dims := dims.map Int.toNat
      numel := (validateDims dims).numel.toNat
      rank_le := by
        rw [List.length_map]
        exact ((validateDims_iff dims).mp h).1
      nonZeroProduct_lt := ((validateDims_iff dims).mp h).2.2
      numel_eq := validateDims_numel h }
where
  formatInts (dims : List Int) : String := "[" ++ ", ".intercalate (dims.map toString) ++ "]"

/-- `Shape(std::initializer_list<std::int64_t>)`, the constructor for dims written as literals. -/
def literal (dims : List Int) : Checked Shape :=
  match h : (validateDims dims).defect with
  | .rankTooLarge => .error (.checkFailed s!"rank {dims.length} exceeds kMaxRank ({maxRank})")
  | .negativeDim => .error (.checkFailed
      s!"negative dim {dims.getD (validateDims dims).index 0} at index {(validateDims dims).index}")
  | .numelOverflow => .error (.checkFailed "dim product overflows int64_t")
  | .none => .ok {
      dims := dims.map Int.toNat
      numel := (validateDims dims).numel.toNat
      rank_le := by
        rw [List.length_map]
        exact ((validateDims_iff dims).mp h).1
      nonZeroProduct_lt := ((validateDims_iff dims).mp h).2.2
      numel_eq := validateDims_numel h }

/-- **A literal ends the process exactly where `FromDims` would return a status.** -/
theorem literal_iff (dims : List Int) :
    (∃ shape, literal dims = .ok shape ∧ shape.dims = dims.map Int.toNat) ↔
      dims.length ≤ maxRank ∧ (∀ d ∈ dims, 0 ≤ d) ∧
        nonZeroProduct (dims.map Int.toNat) < 2 ^ 63 := by
  rw [← validateDims_iff]
  constructor
  · rintro ⟨shape, hok, _⟩
    unfold literal at hok
    split at hok
    case h_4 h => exact h
    all_goals cases hok
  · intro hdefect
    unfold literal
    split
    case h_4 => exact ⟨_, rfl, rfl⟩
    all_goals simp_all

end Shape

/-- The loop of `RowMajorStrides`: the strides and `running` after them. -/
def rowMajorStridesFrom : List Nat → Checked (List Nat × Nat)
  | [] => pure ([], 1)
  | dim :: rest => do
      let (strides, running) ← rowMajorStridesFrom rest
      let next ← int64Nat (running * max dim 1)
      pure (running :: strides, next)

/-- `RowMajorStrides`. -/
def rowMajorStrides (shape : Shape) : Checked (List Nat) := do
  let (strides, _) ← rowMajorStridesFrom shape.dims
  pure strides

/-- The loop of `IsContiguous`: `expected` after these dims, or `none` once a stride differs
from it. -/
def isContiguousFrom : List Nat → List Nat → Checked (Option Nat)
  | dim :: dims, stride :: strides => do
      match ← isContiguousFrom dims strides with
      | none => pure none
      | some expected =>
          -- a dim of one is never stepped over
          if dim = 1 then pure (some expected)
          else if stride ≠ expected then pure none
          else do
            let expected ← int64Nat (expected * dim)
            pure (some expected)
  | _, _ => pure (some 1)

/-- `IsContiguous`. -/
def isContiguous (shape : Shape) (strides : List Nat) : Checked Bool := do
  check (strides.length = shape.rank)
    s!"strides rank {strides.length} != shape rank {shape.rank}"
  if shape.numel = 0 then pure true
  else do
    let expected ← isContiguousFrom shape.dims strides
    pure expected.isSome

end InferenceEngine
