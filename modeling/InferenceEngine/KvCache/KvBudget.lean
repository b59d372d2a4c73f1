/-
The memory budget of the key/value cache: `kvcache/kv_budget.cpp`.

A `double` is taken to be the number it stands for.  What remains are the borders of the types:
`std::stod` throws at a number that is out of its range, and `std::llround` of a number that is
out of the range of `std::int64_t` may return anything.
-/
import InferenceEngine.Lib.Numeral
import InferenceEngine.Tokenizer.Bpe
import Mathlib.Data.List.DropRight
import Mathlib.Data.Rat.Floor

namespace InferenceEngine

/-- What the standard leaves to the library. -/
structure FloatLibrary where
  /-- the numbers at which `std::stod` throws `std::out_of_range` -/
  outOfRange : ℚ → Bool
  /-- what `std::llround` returns where it has no result -/
  stray : ℚ → Int
  stray_int64 : ∀ q, -(2 ^ 63) ≤ stray q ∧ stray q < 2 ^ 63

/-- `std::stod`: what is read and how many characters that takes; none where it throws. -/
def stod (outOfRange : ℚ → Bool) (t : Text) : Option (Numeral.Reading × Nat) :=
  match Numeral.strtod t with
  | none => none
  | some (.finite v, rest) =>
      if outOfRange v then none else some (.finite v, t.length - rest.length)
  | some (d, rest) => some (d, t.length - rest.length)

/-- To the nearest integer, away from zero at a half. -/
def roundHalfAway (q : ℚ) : Int := if 0 ≤ q then ⌊q + 1 / 2⌋ else ⌈q - 1 / 2⌉

/-- `std::llround`. -/
def FloatLibrary.llround (lib : FloatLibrary) (q : ℚ) : Int :=
  if -(2 ^ 63) ≤ roundHalfAway q ∧ roundHalfAway q < 2 ^ 63 then roundHalfAway q else lib.stray q

namespace KvBudget

/-- `Trim`. -/
def trim (s : Text) : Text := (s.dropWhile Numeral.isSpace).rdropWhile Numeral.isSpace

/-- `EndsWithIgnoreCase`. -/
def endsWithIgnoreCase (s suffix : Text) : Bool :=
  if s.length < suffix.length then false
  else (s.drop (s.length - suffix.length)).map Numeral.toLower = suffix.map Numeral.toLower

/-- `Unit`. -/
structure ByteUnit where
  multiplier : Nat
  length : Nat
deriving DecidableEq

/-- `MatchUnit`. -/
def matchUnit (s : Text) : ByteUnit :=
  if endsWithIgnoreCase s (ascii "GiB") then ⟨1024 * 1024 * 1024, 3⟩
  else if endsWithIgnoreCase s (ascii "MiB") then ⟨1024 * 1024, 3⟩
  else if endsWithIgnoreCase s (ascii "KiB") then ⟨1024, 3⟩
  else if endsWithIgnoreCase s (ascii "GB") then ⟨1000 * 1000 * 1000, 2⟩
  else if endsWithIgnoreCase s (ascii "MB") then ⟨1000 * 1000, 2⟩
  else if endsWithIgnoreCase s (ascii "KB") then ⟨1000, 2⟩
  else if endsWithIgnoreCase s (ascii "B") then ⟨1, 1⟩
  else ⟨0, 0⟩

/-- `ParseNonNegativeDouble`. -/
def parseNonNegativeDouble (outOfRange : ℚ → Bool) (s : Text) : StatusOr ℚ :=
  if s = [] then .error (invalidArgumentError "--kv-cache-memory: empty numeric value")
  else
    match stod outOfRange s with
    | none => .error (invalidArgumentError s!"--kv-cache-memory: '{s.show}' is not a number")
    | some (value, consumed) =>
        if consumed ≠ s.length then
          .error (invalidArgumentError
            s!"--kv-cache-memory: '{s.show}' has trailing characters")
        else
          match value with
          | .finite v =>
              if 0 ≤ v then .ok v
              else .error (invalidArgumentError
                s!"--kv-cache-memory: '{s.show}' is not a finite non-negative number")
          | _ => .error (invalidArgumentError
              s!"--kv-cache-memory: '{s.show}' is not a finite non-negative number")

/-- `KvCacheMemorySpec::Kind`. -/
inductive Kind where
  | absoluteBytes
  | fraction
deriving DecidableEq

/-- `KvCacheMemorySpec`. -/
structure Spec where
  kind : Kind
  bytes : Int
  fraction : ℚ
deriving DecidableEq

/-- `ParseKvCacheMemory`. -/
def parseKvCacheMemory (lib : FloatLibrary) (text : Text) : StatusOr Spec := do
  let s := trim text
  if s = [] then
    throw (invalidArgumentError "--kv-cache-memory: empty value")
  let unit := matchUnit s
  if unit.multiplier ≠ 0 then
    let num := trim (s.take (s.length - unit.length))
    let value ← parseNonNegativeDouble lib.outOfRange num
    let bytes := value * unit.multiplier
    if ¬1 ≤ bytes then
      throw (invalidArgumentError
        s!"--kv-cache-memory: '{text.show}' is a non-positive byte budget")
    pure ⟨.absoluteBytes, lib.llround bytes, 0⟩
  else if 46 ∈ s then
    let fraction ← parseNonNegativeDouble lib.outOfRange s
    if ¬0 < fraction ∨ 1 < fraction then
      throw (invalidArgumentError
        s!"--kv-cache-memory: fraction '{text.show}' must be in (0, 1]")
    pure ⟨.fraction, 0, fraction⟩
  else
    let value ← parseNonNegativeDouble lib.outOfRange s
    if ¬1 ≤ value then
      throw (invalidArgumentError
        s!"--kv-cache-memory: '{text.show}' is a non-positive byte budget")
    pure ⟨.absoluteBytes, lib.llround value, 0⟩

/-- `KvBudgetInputs`. -/
structure Inputs where
  hostRamBytes : Int
  weightsBytes : Int
  workspaceBytes : Int

/-- `std::format` with `{:.3f}` of a number that is not negative: half to even. -/
def formatFixed3 (q : ℚ) : String :=
  let whole := ⌊q * 1000⌋
  let left := q * 1000 - whole
  let n := if left < 1 / 2 ∨ (left = 1 / 2 ∧ whole % 2 = 0) then whole else whole + 1
  let digits := (n % 1000).toNat.repr
  s!"{n / 1000}." ++ String.ofList (List.replicate (3 - digits.length) '0') ++ digits

/-- `ResolveKvBudgetBytes`. -/
def resolveKvBudgetBytes (lib : FloatLibrary) (spec : Spec) (inputs : Inputs) :
    Checked (StatusOr Int) :=
  if spec.kind = .absoluteBytes then pure (.ok spec.bytes)
  else if inputs.hostRamBytes ≤ 0 then
    pure (.error (failedPreconditionError
      ("--kv-cache-memory: host RAM is unknown on this platform; pass an " ++
        "absolute budget (e.g. 2GiB) instead of a fraction")))
  else do
    let ceiling := spec.fraction * inputs.hostRamBytes
    let left ← int64 (lib.llround ceiling - inputs.weightsBytes)
    let budget ← int64 (left - inputs.workspaceBytes)
    if budget ≤ 0 then
      pure (.error (resourceExhaustedError
        (s!"--kv-cache-memory: fraction {formatFixed3 spec.fraction} of " ++
          s!"{inputs.hostRamBytes} B host RAM leaves nothing " ++
          s!"for KV after {inputs.weightsBytes} B weights + " ++
          s!"{inputs.workspaceBytes} B workspace")))
    else pure (.ok budget)

/-! ### What a budget text says

Beside the parser stands the reading it is to agree with, as a relation that does not say how a
text is taken apart. -/

/-- The units, in small letters. -/
def units : List (Text × Nat) :=
  [(ascii "gib", 1024 ^ 3), (ascii "mib", 1024 ^ 2), (ascii "kib", 1024),
    (ascii "gb", 1000 ^ 3), (ascii "mb", 1000 ^ 2), (ascii "kb", 1000), (ascii "b", 1)]

/-- Trimmed, the text is a number, spaces, and at most one unit in any letters. -/
def Says (text : Text) (value : ℚ) (multiplier : Nat) : Prop :=
  ∃ number spaces unit, trim text = number ++ spaces ++ unit ∧ Numeral.IsNumber number value ∧
    (∀ c ∈ spaces, Numeral.isSpace c = true) ∧
    ((unit = [] ∧ multiplier = 1) ∨ (unit.map Numeral.toLower, multiplier) ∈ units)

/-- The budget that is parsed is the one the text says, and it resolves to a positive one. -/
structure Sound (lib : FloatLibrary) (text : Text) (spec : Spec) : Prop where
  absolute : spec.kind = .absoluteBytes → ∃ value multiplier, Says text value multiplier ∧
    1 ≤ spec.bytes ∧ spec.bytes = roundHalfAway (value * multiplier)
  fraction : spec.kind = .fraction → 0 < spec.fraction ∧ spec.fraction ≤ 1
  resolves : ∀ inputs : Inputs, inputs.hostRamBytes < 2 ^ 63 → 0 ≤ inputs.weightsBytes →
    0 ≤ inputs.workspaceBytes → inputs.weightsBytes + inputs.workspaceBytes < 2 ^ 62 →
    (resolveKvBudgetBytes lib spec inputs).Returns fun r => ∀ budget, r = .ok budget → 0 < budget

/-- The number in front of the unit. -/
def numberPart (s : Text) : Text :=
  if (matchUnit s).multiplier ≠ 0 then trim (s.take (s.length - (matchUnit s).length)) else s

/-- As bytes, what the text says fits 64 bits: the number times the unit rounds to less than
`2 ^ 63`.  A fraction and what is no number say nothing of bytes. -/
def FitsInt64 (outOfRange : ℚ → Bool) (text : Text) : Prop :=
  ∀ value, parseNonNegativeDouble outOfRange (numberPart (trim text)) = .ok value →
    ((matchUnit (trim text)).multiplier = 0 → 46 ∉ trim text →
      roundHalfAway value < 2 ^ 63) ∧
    ((matchUnit (trim text)).multiplier ≠ 0 →
      roundHalfAway (value * (matchUnit (trim text)).multiplier) < 2 ^ 63)

end KvBudget

end InferenceEngine
