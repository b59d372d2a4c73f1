/-
Arithmetic at 64 bits.

The code computes sizes in `std::int64_t`, where leaving the range is undefined, and in
`size_t` and `std::uint64_t`, which wrap; where it minds, it asks the compiler's overflow
builtins.  Values that cannot be negative are kept as natural numbers.
-/
import InferenceEngine.Core.Status

namespace InferenceEngine

/-- `__builtin_mul_overflow` at 64 bits; `none` when the product does not fit. -/
def mulOverflow (a b : Int) : Option Int :=
  if -(2 ^ 63) ≤ a * b ∧ a * b < 2 ^ 63 then some (a * b) else none

/-- `__builtin_mul_overflow` at `std::uint64_t`. -/
def mulOverflowUnsigned (a b : Nat) : Option Nat :=
  if a * b < 2 ^ 64 then some (a * b) else none

/-- `__builtin_add_overflow` at `std::uint64_t`. -/
def addOverflowUnsigned (a b : Nat) : Option Nat :=
  if a + b < 2 ^ 64 then some (a + b) else none

/-- The result of an operation on `std::int64_t` that is not negative. -/
def int64Nat (x : Nat) : Checked Nat :=
  if x < 2 ^ 63 then .ok x else .error .signedOverflow

/-- The result of an operation on `std::int32_t` that is not negative. -/
def int32Nat (x : Nat) : Checked Nat :=
  if x < 2 ^ 31 then .ok x else .error .signedOverflow

/-- The result of an operation on `std::uint64_t`, where it is to be exact. -/
def uint64 (x : Int) : Checked Nat :=
  if 0 ≤ x ∧ x < 2 ^ 64 then .ok x.toNat else .error .unsignedWrap

/-- `a + b` in a `size_t`. -/
def addSize (a b : Nat) : Nat := (a + b) % 2 ^ 64

/-- `a - b` in a `size_t`. -/
def subSize (a b : Nat) : Nat := (a + (2 ^ 64 - b % 2 ^ 64)) % 2 ^ 64

/-- `a * b` in a `size_t`. -/
def mulSize (a b : Nat) : Nat := a * b % 2 ^ 64

theorem mulOverflow_natCast {a b : Nat} :
    mulOverflow a b = if a * b < 2 ^ 63 then some ((a * b : Nat) : Int) else none := by
  unfold mulOverflow
  have hcast : (a : Int) * b = ((a * b : Nat) : Int) := by simp
  rw [hcast]
  by_cases h : a * b < 2 ^ 63
  · rw [if_pos h, if_pos (by omega)]
  · rw [if_neg h, if_neg (by omega)]

theorem int64Nat_of_lt {x : Nat} (h : x < 2 ^ 63) : int64Nat x = .ok x := if_pos h

theorem int32Nat_of_lt {x : Nat} (h : x < 2 ^ 31) : int32Nat x = .ok x := if_pos h

theorem int32Nat_of_not_lt {x : Nat} (h : ¬x < 2 ^ 31) : int32Nat x = .error .signedOverflow :=
  if_neg h

theorem uint64_natCast {x : Nat} (h : x < 2 ^ 64) : uint64 x = .ok x := by
  rw [uint64, if_pos ⟨by omega, by omega⟩, Int.toNat_natCast]

theorem uint64_sub {a b : Nat} (hle : b ≤ a) (h : a < 2 ^ 64) :
    uint64 ((a : Int) - b) = .ok (a - b) := by
  rw [show (a : Int) - b = ((a - b : Nat) : Int) by omega]
  exact uint64_natCast (by omega)

theorem addSize_of_lt {a b : Nat} (h : a + b < 2 ^ 64) : addSize a b = a + b :=
  Nat.mod_eq_of_lt h

theorem mulSize_of_lt {a b : Nat} (h : a * b < 2 ^ 64) : mulSize a b = a * b :=
  Nat.mod_eq_of_lt h

end InferenceEngine
