/-
Errors: `core/status.h` and `core/check.h`.

The code fails in two ways and the model keeps them apart.  A `Status` is a value the
caller handles; a failed CHECK, a null dereference or an access outside a container
ends the process, and is an `Except.error` of `Fault` in the model.  A model function
that can do both returns `Checked (StatusOr α)`.
-/
import InferenceEngine.Lib.Returns
import Mathlib.Algebra.Group.Int.Defs
import Mathlib.Algebra.Group.Nat.Defs

namespace InferenceEngine

/-- `core::StatusCode`. -/
inductive StatusCode where
  | ok
  | cancelled
  | invalidArgument
  | notFound
  | alreadyExists
  | failedPrecondition
  | outOfRange
  | resourceExhausted
  | outOfMemory
  | unimplemented
  | unavailable
  | internal
deriving DecidableEq, Repr

/-- `core::Status`: a code and, when it is not `ok`, a message. -/
structure Status where
  code : StatusCode
  message : String
deriving DecidableEq, Repr

/-- `core::OkStatus`. -/
def okStatus : Status := ⟨.ok, ""⟩

/-- `core::StatusOr`; a `Status` result without a value is `StatusOr Unit`. -/
abbrev StatusOr (α : Type) := Except Status α

/-- `core::InvalidArgumentError`. -/
def invalidArgumentError (message : String) : Status := ⟨.invalidArgument, message⟩

/-- `core::ResourceExhaustedError`. -/
def resourceExhaustedError (message : String) : Status := ⟨.resourceExhausted, message⟩

/-- `core::NotFoundError`. -/
def notFoundError (message : String) : Status := ⟨.notFound, message⟩

/-- `core::UnimplementedError`. -/
def unimplementedError (message : String) : Status := ⟨.unimplemented, message⟩

/-- `core::FailedPreconditionError`. -/
def failedPreconditionError (message : String) : Status := ⟨.failedPrecondition, message⟩

/-- `core::InternalError`. -/
def internalError (message : String) : Status := ⟨.internal, message⟩

/-- The code a call reports. -/
def StatusOr.code {α : Type} : StatusOr α → StatusCode
  | .ok _ => .ok
  | .error s => s.code

/-- What ends the process instead of being reported. -/
inductive Fault where
  /-- a CHECK that does not hold -/
  | checkFailed (message : String)
  /-- `unordered_map::at` on an absent key -/
  | missingKey
  /-- `*p` or `p->` on a null pointer or an empty optional -/
  | nullDereference
  /-- an access outside a vector, `back()` of an empty one included -/
  | outOfBounds
  /-- a loop of the code that the model bounds ran past its bound -/
  | outOfFuel
  /-- arithmetic on a signed integer that leaves its range -/
  | signedOverflow
  /-- arithmetic on an unsigned integer that leaves its range, where the model stops: the
  code goes on with the wrapped value -/
  | unsignedWrap
  /-- `std::length_error`: a vector is asked to hold more than its type can -/
  | lengthError
deriving DecidableEq, Repr

/-- A computation that may end the process. -/
abbrev Checked (α : Type) := Except Fault α

/-- `CHECK(cond, message)`. -/
def check (cond : Bool) (message : String) : Checked Unit :=
  if cond then .ok () else .error (.checkFailed message)

/-- An indexed read of a `std::vector`. -/
def readAt {α : Type} (xs : List α) (i : Int) : Checked α :=
  if 0 ≤ i then
    match xs[i.toNat]? with
    | some x => .ok x
    | none => .error .outOfBounds
  else .error .outOfBounds

/-- An indexed write to a `std::vector`. -/
def writeAt {α : Type} (xs : List α) (i : Int) (x : α) : Checked (List α) :=
  if 0 ≤ i ∧ i < xs.length then .ok (xs.set i.toNat x) else .error .outOfBounds

/-- The result of an operation on `std::int64_t`. -/
def int64 (x : Int) : Checked Int :=
  if -(2 ^ 63) ≤ x ∧ x < 2 ^ 63 then .ok x else .error .signedOverflow

/-- `static_cast<std::int32_t>` of a wider integer. -/
def toInt32 (x : Int) : Int := Int.bmod x (2 ^ 32)

theorem check_of_true {cond : Bool} {message : String} (h : cond = true) :
    check cond message = .ok () := by
  simp [check, h]

theorem readAt_natCast {α : Type} {xs : List α} {i : Nat} (h : i < xs.length) :
    readAt xs i = .ok xs[i] := by
  simp [readAt, h]

theorem writeAt_natCast {α : Type} {xs : List α} {i : Nat} (h : i < xs.length) (x : α) :
    writeAt xs i x = .ok (xs.set i x) := by
  simp [writeAt, h]

theorem int64_of_lt {x : Int} (h0 : 0 ≤ x) (h : x < 2 ^ 63) : int64 x = .ok x :=
  if_pos ⟨by omega, h⟩

theorem toInt32_of_lt {x : Int} (h0 : 0 ≤ x) (h : x < 2 ^ 31) : toInt32 x = x := by
  unfold toInt32
  exact Int.bmod_eq_of_le (by omega) (by omega)

end InferenceEngine
