/-
What a budget text says is what it is taken for, within 64 bits.

Trimming and the match of the unit cut the text in a number, spaces and a unit, and the reader
takes the whole number.  The bytes are bounded from below before they become a 64-bit integer, but
not from above: beyond that border they may be anything.
-/
import InferenceEngine.KvCache.KvBudget
import Mathlib.Tactic.NormNum
import Mathlib.Tactic.Linarith
import Mathlib.Tactic.Positivity
import Mathlib.Algebra.Order.Floor.Ring

namespace InferenceEngine

open Except

/-! ### Rounding

`llround` rounds half away from zero and is defined where the result fits.  Bounds on the result
are bounds on the argument, half a unit apart. -/

theorem roundHalfAway_nonneg {q : ℚ} (h : 0 ≤ q) : roundHalfAway q = ⌊q + 1 / 2⌋ := if_pos h

theorem one_le_roundHalfAway {q : ℚ} (h : 1 ≤ q) : 1 ≤ roundHalfAway q := by
  rw [roundHalfAway_nonneg (by linarith), Int.le_floor]
  push_cast
  linarith

theorem roundHalfAway_pos {q : ℚ} (h : 0 ≤ q) : 0 ≤ roundHalfAway q := by
  rw [roundHalfAway_nonneg h, Int.le_floor]
  push_cast
  linarith

theorem roundHalfAway_le {q : ℚ} {n : Int} (h0 : 0 ≤ q) (h : q ≤ n) : roundHalfAway q ≤ n := by
  rw [roundHalfAway_nonneg h0]
  refine Int.lt_add_one_iff.mp (Int.floor_lt.mpr ?_)
  push_cast
  linarith

/-- What rounds to more than one is at least one. -/
theorem one_le_of_roundHalfAway {q : ℚ} (h0 : 0 ≤ q) (h : 2 ≤ roundHalfAway q) : 1 ≤ q := by
  by_contra hlt
  have := roundHalfAway_le (n := 1) h0 (by push_cast; linarith)
  omega

theorem llround_of_lt (lib : FloatLibrary) {q : ℚ} (h0 : 0 ≤ q) (h : roundHalfAway q < 2 ^ 63) :
    lib.llround q = roundHalfAway q := by
  have := roundHalfAway_pos h0
  exact if_pos ⟨by omega, h⟩

theorem llround_of_le (lib : FloatLibrary) {q : ℚ} (h : 2 ^ 63 ≤ roundHalfAway q) :
    lib.llround q = lib.stray q := by
  refine if_neg fun hc => ?_
  omega

namespace KvBudget

open Numeral

/-! ### Trimming

Whitespace at either end of the text does not matter, nor does it between the number and its
unit. -/

theorem dropWhile_trim (s : Text) : (trim s).dropWhile isSpace = trim s := by
  rw [List.dropWhile_eq_self_iff]
  intro hpos hspace
  have hpre : trim s <+: s.dropWhile isSpace := List.rdropWhile_prefix isSpace _
  have hlong : 0 < (s.dropWhile isSpace).length := hpos.trans_le hpre.length_le
  have hself : (s.dropWhile isSpace).dropWhile isSpace = s.dropWhile isSpace :=
    List.dropWhile_idempotent isSpace _
  refine List.dropWhile_eq_self_iff.mp hself hlong ?_
  rwa [hpre.getElem hpos] at hspace

/-- A beginning of a text without leading spaces has none. -/
theorem dropWhile_of_append {a b : Text} (h : (a ++ b).dropWhile isSpace = a ++ b) :
    a.dropWhile isSpace = a := by
  cases a with
  | nil => rfl
  | cons c a =>
      rw [List.dropWhile_eq_self_iff]
      intro _ hspace
      exact List.dropWhile_eq_self_iff.mp h (by simp) hspace

/-- Trimming what has no leading spaces cuts off the trailing ones. -/
theorem trim_append {a : Text} (h : a.dropWhile isSpace = a) :
    ∃ spaces, a = trim a ++ spaces ∧ ∀ c ∈ spaces, isSpace c = true := by
  refine ⟨a.rtakeWhile isSpace, ?_, fun c hc => List.mem_rtakeWhile_imp hc⟩
  rw [trim, h]
  exact List.rdropWhile_append_rtakeWhile.symm

/-! ### The unit

The longest units are tried first, without regard to case. -/

theorem endsWithIgnoreCase_tail {s suffix : Text} (h : endsWithIgnoreCase s suffix = true) :
    ∃ tail, s = s.take (s.length - suffix.length) ++ tail ∧
      tail.map toLower = suffix.map toLower := by
  unfold endsWithIgnoreCase at h
  by_cases hshort : s.length < suffix.length
  · rw [if_pos hshort] at h
    cases h
  · rw [if_neg hshort] at h
    exact ⟨_, (List.take_append_drop _ s).symm, of_decide_eq_true h⟩

/-- **A matched unit is one of the units.** -/
theorem matchUnit_tail {s : Text} (h : (matchUnit s).multiplier ≠ 0) :
    ∃ tail, s = s.take (s.length - (matchUnit s).length) ++ tail ∧
      (tail.map toLower, (matchUnit s).multiplier) ∈ units := by
  unfold matchUnit at h ⊢
  have htail : ∀ {suffix low : Text} {m : Nat}, endsWithIgnoreCase s suffix = true →
      suffix.map toLower = low → (low, m) ∈ units →
      ∃ tail, s = s.take (s.length - suffix.length) ++ tail ∧
        (tail.map toLower, m) ∈ units := by
    intro suffix low m hends hlow hmem
    obtain ⟨tail, hs, hlower⟩ := endsWithIgnoreCase_tail hends
    exact ⟨tail, hs, by rwa [hlower, hlow]⟩
  split_ifs at h ⊢ with h1 h2 h3 h4 h5 h6 h7
  · exact htail h1 rfl (by decide)
  · exact htail h2 rfl (by decide)
  · exact htail h3 rfl (by decide)
  · exact htail h4 rfl (by decide)
  · exact htail h5 rfl (by decide)
  · exact htail h6 rfl (by decide)
  · exact htail h7 rfl (by decide)
  · exact absurd rfl h

/-! ### The number

The reader must use up all of the text in front of the unit, so a text says at most one number. -/

variable {outOfRange : ℚ → Bool} {s text : Text} {value : ℚ}

theorem parseNonNegativeDouble_sound (h : parseNonNegativeDouble outOfRange s = .ok value) :
    s ≠ [] ∧ 0 ≤ value ∧ IsNumber (s.dropWhile isSpace) value := by
  unfold parseNonNegativeDouble at h
  by_cases hempty : s = []
  · rw [if_pos hempty] at h
    cases h
  rw [if_neg hempty] at h
  cases hread : strtod s with
  | none =>
      rw [stod, hread] at h
      cases h
  | some found =>
      obtain ⟨reading, rest⟩ := found
      cases reading with
      | infinite negative =>
          rw [stod, hread] at h
          dsimp only at h
          split at h <;> cases h
      | nan =>
          rw [stod, hread] at h
          dsimp only at h
          split at h <;> cases h
      | finite v =>
          rw [stod, hread] at h
          dsimp only at h
          by_cases hrange : outOfRange v = true
          · rw [if_pos hrange] at h
            cases h
          rw [if_neg hrange] at h
          dsimp only at h
          by_cases hall : s.length - rest.length ≠ s.length
          · rw [if_pos hall] at h
            cases h
          rw [if_neg hall] at h
          by_cases hneg : 0 ≤ v
          · rw [if_pos hneg] at h
            cases h
            obtain ⟨number, hnumber, his⟩ := strtod_sound hread
            have hpos : 0 < s.length := List.length_pos_of_ne_nil hempty
            have hrest : rest = [] := List.length_eq_zero_iff.mp (by omega)
            rw [hrest, List.append_nil] at hnumber
            exact ⟨hempty, hneg, by rwa [hnumber]⟩
          · rw [if_neg hneg] at h
            cases h

/-- The text is cut in the number, spaces and the unit, if there is one. -/
theorem says_of_parse
    (h : parseNonNegativeDouble outOfRange (numberPart (trim text)) = .ok value) :
    Says text value (if (matchUnit (trim text)).multiplier ≠ 0
      then (matchUnit (trim text)).multiplier else 1) := by
  obtain ⟨-, -, hnumber⟩ := parseNonNegativeDouble_sound h
  have htrim := dropWhile_trim text
  unfold numberPart at hnumber
  by_cases hunit : (matchUnit (trim text)).multiplier ≠ 0
  · rw [if_pos hunit] at hnumber ⊢
    obtain ⟨tail, hcut, hmem⟩ := matchUnit_tail hunit
    rw [hcut] at htrim
    obtain ⟨spaces, hfront, hspaces⟩ := trim_append (dropWhile_of_append htrim)
    rw [dropWhile_trim] at hnumber
    refine ⟨_, spaces, tail, ?_, hnumber, hspaces, Or.inr hmem⟩
    rw [← hfront, ← hcut]
  · rw [if_neg hunit] at hnumber ⊢
    rw [htrim] at hnumber
    exact ⟨_, [], [], by simp, hnumber, fun c hc => absurd hc List.not_mem_nil, Or.inl ⟨rfl, rfl⟩⟩

/-! ### The budget

With a unit the number is scaled and rounded.  Without one it is a fraction if it is written
with a point, and a number of bytes otherwise. -/

variable {lib : FloatLibrary} {spec : Spec}

/-- The budget of a number of bytes. -/
def bytesSpec (lib : FloatLibrary) (bytes : ℚ) : Spec := ⟨.absoluteBytes, lib.llround bytes, 0⟩

theorem parse_unit (hs : trim text ≠ []) (hunit : (matchUnit (trim text)).multiplier ≠ 0)
    (hvalue : parseNonNegativeDouble lib.outOfRange (numberPart (trim text)) = .ok value) :
    parseKvCacheMemory lib text =
      if 1 ≤ value * (matchUnit (trim text)).multiplier then
        .ok (bytesSpec lib (value * (matchUnit (trim text)).multiplier))
      else .error (invalidArgumentError
        s!"--kv-cache-memory: '{text.show}' is a non-positive byte budget") := by
  rw [numberPart, if_pos hunit] at hvalue
  unfold parseKvCacheMemory
  simp only [if_neg hs, if_pos hunit, hvalue, ok_bind]
  by_cases hone : 1 ≤ value * ((matchUnit (trim text)).multiplier : ℚ)
  · rw [if_pos hone]
    simp only [not_true_eq_false, if_false, hone]
    rfl
  · rw [if_neg hone]
    simp only [not_false_eq_true, if_true, hone]
    rfl

theorem parse_bare (hs : trim text ≠ []) (hunit : (matchUnit (trim text)).multiplier = 0)
    (hpoint : 46 ∉ trim text)
    (hvalue : parseNonNegativeDouble lib.outOfRange (numberPart (trim text)) = .ok value) :
    parseKvCacheMemory lib text =
      if 1 ≤ value then .ok (bytesSpec lib value)
      else .error (invalidArgumentError
        s!"--kv-cache-memory: '{text.show}' is a non-positive byte budget") := by
  have hunit' : ¬(matchUnit (trim text)).multiplier ≠ 0 := not_not.mpr hunit
  rw [numberPart, if_neg hunit'] at hvalue
  unfold parseKvCacheMemory
  simp only [if_neg hs, if_neg hunit', if_neg hpoint, hvalue, ok_bind]
  by_cases hone : 1 ≤ value
  · rw [if_pos hone]
    simp only [not_true_eq_false, if_false, hone]
    rfl
  · rw [if_neg hone]
    simp only [not_false_eq_true, if_true, hone]
    rfl

theorem parse_fraction (hs : trim text ≠ []) (hunit : (matchUnit (trim text)).multiplier = 0)
    (hpoint : 46 ∈ trim text)
    (hvalue : parseNonNegativeDouble lib.outOfRange (numberPart (trim text)) = .ok value) :
    parseKvCacheMemory lib text =
      if 0 < value ∧ value ≤ 1 then .ok ⟨.fraction, 0, value⟩
      else .error (invalidArgumentError
        s!"--kv-cache-memory: fraction '{text.show}' must be in (0, 1]") := by
  have hunit' : ¬(matchUnit (trim text)).multiplier ≠ 0 := not_not.mpr hunit
  rw [numberPart, if_neg hunit'] at hvalue
  unfold parseKvCacheMemory
  simp only [if_neg hs, if_neg hunit', if_pos hpoint, hvalue, ok_bind]
  by_cases hin : 0 < value ∧ value ≤ 1
  · have hout : ¬(¬0 < value ∨ 1 < value) := by
      rw [not_or, not_not, not_lt]
      exact hin
    rw [if_pos hin]
    simp only [hout, if_false]
    rfl
  · have hout : ¬0 < value ∨ 1 < value := by
      rw [not_and_or, not_le] at hin
      exact hin
    rw [if_neg hin]
    simp only [hout, if_true]
    rfl

/-- What is accepted has a number in front of its unit. -/
theorem number_of_parse (h : parseKvCacheMemory lib text = .ok spec) :
    trim text ≠ [] ∧
      ∃ value, parseNonNegativeDouble lib.outOfRange (numberPart (trim text)) = .ok value := by
  unfold parseKvCacheMemory at h
  by_cases hs : trim text = []
  · simp only [if_pos hs] at h
    cases h
  refine ⟨hs, ?_⟩
  simp only [if_neg hs] at h
  unfold numberPart
  by_cases hunit : (matchUnit (trim text)).multiplier ≠ 0
  · rw [if_pos hunit]
    simp only [if_pos hunit] at h
    obtain ⟨value, hvalue, -⟩ := bind_eq_ok.mp h
    exact ⟨value, hvalue⟩
  · rw [if_neg hunit]
    simp only [if_neg hunit] at h
    by_cases hpoint : 46 ∈ trim text
    · simp only [if_pos hpoint] at h
      obtain ⟨value, hvalue, -⟩ := bind_eq_ok.mp h
      exact ⟨value, hvalue⟩
    · simp only [if_neg hpoint] at h
      obtain ⟨value, hvalue, -⟩ := bind_eq_ok.mp h
      exact ⟨value, hvalue⟩

/-! ### Resolving

A fraction is taken of the host's memory once that is known. -/

theorem resolve_absolute (hkind : spec.kind = .absoluteBytes) (hpos : 0 < spec.bytes)
    (inputs : Inputs) : (resolveKvBudgetBytes lib spec inputs).Returns fun r =>
      ∀ budget, r = .ok budget → 0 < budget := by
  rw [resolveKvBudgetBytes, if_pos hkind]
  refine returns_pure fun budget hbudget => ?_
  cases hbudget
  exact hpos

/-- **A fraction of the host's memory** fits 64 bits, and what is left of it is not handed out
unless it is positive. -/
theorem resolve_fraction (hkind : spec.kind = .fraction) (h0 : 0 < spec.fraction)
    (h1 : spec.fraction ≤ 1) {inputs : Inputs} (hhost : inputs.hostRamBytes < 2 ^ 63)
    (hweights : 0 ≤ inputs.weightsBytes) (hworkspace : 0 ≤ inputs.workspaceBytes)
    (hsum : inputs.weightsBytes + inputs.workspaceBytes < 2 ^ 62) :
    (resolveKvBudgetBytes lib spec inputs).Returns fun r =>
      ∀ budget, r = .ok budget → 0 < budget := by
  have hnot : ¬spec.kind = .absoluteBytes := by rw [hkind]; exact Kind.noConfusion
  rw [resolveKvBudgetBytes, if_neg hnot]
  by_cases hunknown : inputs.hostRamBytes ≤ 0
  · rw [if_pos hunknown]
    refine returns_pure fun budget hbudget => ?_
    cases hbudget
  rw [if_neg hunknown]
  have hram : (0 : ℚ) < inputs.hostRamBytes := by exact_mod_cast not_le.mp hunknown
  have hceil0 : 0 ≤ spec.fraction * inputs.hostRamBytes := by positivity
  have hceil1 : spec.fraction * inputs.hostRamBytes ≤ inputs.hostRamBytes := by nlinarith
  have hround := roundHalfAway_le hceil0 hceil1
  have hround0 := roundHalfAway_pos hceil0
  have hll := llround_of_lt lib hceil0 (by omega)
  have hleft : int64 (lib.llround (spec.fraction * inputs.hostRamBytes) - inputs.weightsBytes) =
      .ok (lib.llround (spec.fraction * inputs.hostRamBytes) - inputs.weightsBytes) := by
    rw [hll]
    exact if_pos (by omega)
  have hbudget : int64 (lib.llround (spec.fraction * inputs.hostRamBytes) - inputs.weightsBytes -
      inputs.workspaceBytes) = .ok (lib.llround (spec.fraction * inputs.hostRamBytes) -
      inputs.weightsBytes - inputs.workspaceBytes) := by
    rw [hll]
    exact if_pos (by omega)
  simp only [hleft, hbudget, ok_bind]
  split
  · refine returns_pure fun budget hbudget => ?_
    cases hbudget
  · rename_i hpos
    refine returns_pure fun budget hbudget => ?_
    cases hbudget
    omega

/-! ### Sound budgets

The text says a number of bytes.  The budget holds the same number exactly when it fits. -/

theorem bytesSpec_sound {bytes : ℚ} {multiplier : Nat} (hsaid : Says text value multiplier)
    (hbytes : bytes = value * multiplier) (hone : 1 ≤ bytes)
    (hfits : roundHalfAway bytes < 2 ^ 63) : Sound lib text (bytesSpec lib bytes) := by
  have hll : lib.llround bytes = roundHalfAway bytes := llround_of_lt lib (by linarith) hfits
  have hpos := one_le_roundHalfAway hone
  refine ⟨fun _ => ⟨value, multiplier, hsaid, ?_, ?_⟩, fun hkind => ?_, fun inputs _ _ _ _ => ?_⟩
  · show 1 ≤ lib.llround bytes
    omega
  · show lib.llround bytes = _
    rw [hll, hbytes]
  · cases hkind
  · refine resolve_absolute rfl ?_ inputs
    show 0 < lib.llround bytes
    omega

theorem sound_of_fits (hfits : FitsInt64 lib.outOfRange text)
    (h : parseKvCacheMemory lib text = .ok spec) : Sound lib text spec := by
  obtain ⟨hs, value, hvalue⟩ := number_of_parse h
  have hsaid := says_of_parse hvalue
  obtain ⟨hbare, hmult⟩ := hfits value hvalue
  by_cases hunit : (matchUnit (trim text)).multiplier ≠ 0
  · rw [if_pos hunit] at hsaid
    rw [parse_unit hs hunit hvalue] at h
    by_cases hone : 1 ≤ value * ((matchUnit (trim text)).multiplier : ℚ)
    · rw [if_pos hone] at h
      cases h
      exact bytesSpec_sound hsaid rfl hone (hmult hunit)
    · rw [if_neg hone] at h
      cases h
  · rw [if_neg hunit] at hsaid
    have hunit := not_not.mp hunit
    by_cases hpoint : 46 ∈ trim text
    · rw [parse_fraction hs hunit hpoint hvalue] at h
      by_cases hin : 0 < value ∧ value ≤ 1
      · rw [if_pos hin] at h
        cases h
        refine ⟨fun hkind => ?_, fun _ => hin, fun inputs hhost hw hws hsum => ?_⟩
        · cases hkind
        · exact resolve_fraction rfl hin.1 hin.2 hhost hw hws hsum
      · rw [if_neg hin] at h
        cases h
    · rw [parse_bare hs hunit hpoint hvalue] at h
      by_cases hone : 1 ≤ value
      · rw [if_pos hone] at h
        cases h
        exact bytesSpec_sound hsaid (by simp) hone (hbare hunit hpoint)
      · rw [if_neg hone] at h
        cases h

/-- Beyond 64 bits the bytes may be anything, zero for one. -/
theorem fits_of_sound (hzero : ∀ q, lib.stray q = 0)
    (h : ∀ spec, parseKvCacheMemory lib text = .ok spec → Sound lib text spec) :
    FitsInt64 lib.outOfRange text := by
  have hlarge : ∀ {bytes : ℚ}, 0 ≤ bytes → 2 ^ 63 ≤ roundHalfAway bytes →
      (1 ≤ bytes → parseKvCacheMemory lib text = .ok (bytesSpec lib bytes)) → False := by
    intro bytes h0 hbig hparse
    have hsound := h _ (hparse (one_le_of_roundHalfAway h0 (by omega)))
    obtain ⟨_, _, _, hone, _⟩ := hsound.absolute rfl
    have hbytes : (bytesSpec lib bytes).bytes = 0 := (llround_of_le lib hbig).trans (hzero bytes)
    omega
  intro value hvalue
  obtain ⟨hne, h0, -⟩ := parseNonNegativeDouble_sound hvalue
  have hs : trim text ≠ [] := by
    intro hempty
    rw [hempty] at hne
    exact hne (by decide)
  refine ⟨fun hunit hpoint => ?_, fun hunit => ?_⟩
  · by_contra hbig
    refine hlarge h0 (not_lt.mp hbig) fun hone => ?_
    rw [parse_bare hs hunit hpoint hvalue, if_pos hone]
  · by_contra hbig
    refine hlarge (by positivity) (not_lt.mp hbig) fun hone => ?_
    rw [parse_unit hs hunit hvalue, if_pos hone]

theorem sound_iff (outOfRange : ℚ → Bool) (text : Text) :
    (∀ lib : FloatLibrary, lib.outOfRange = outOfRange → ∀ spec,
      parseKvCacheMemory lib text = .ok spec → Sound lib text spec) ↔
    FitsInt64 outOfRange text := by
  constructor
  · intro h
    refine fits_of_sound ?_ (h ⟨outOfRange, fun _ => 0, fun _ => by norm_num⟩ rfl)
    exact fun _ => rfl
  · intro hfits lib hlib spec hspec
    subst hlib
    exact sound_of_fits hfits hspec

/-- **A budget text is not turned into a wrong size** if what it says fits 64 bits, and only
then, whatever the library does where the standard leaves it free. -/
theorem budget_sound (outOfRange : ℚ → Bool) (text : Text) :
    (∀ lib : FloatLibrary, lib.outOfRange = outOfRange → ∀ spec,
      parseKvCacheMemory lib text = .ok spec → Sound lib text spec) ↔
    FitsInt64 outOfRange text := sound_iff outOfRange text

/-- `std::llround` on x86 answers with the least integer. -/
def x86Library : FloatLibrary :=
  ⟨fun v => decide (2 ^ 1024 ≤ v), fun _ => -(2 ^ 63), fun _ => by norm_num⟩

/-- The text that says `2 ^ 63` bytes. -/
theorem budget_unsound : ∃ spec,
    parseKvCacheMemory x86Library (ascii "9223372036854775808") = .ok spec ∧
      ¬Sound x86Library (ascii "9223372036854775808") spec := by
  have hread : parseNonNegativeDouble x86Library.outOfRange
      (numberPart (trim (ascii "9223372036854775808"))) = .ok (2 ^ 63) := by
    decide +kernel
  refine ⟨_, (parse_bare (by decide) (by decide) (by decide) hread).trans
    (if_pos (by norm_num)), ?_⟩
  intro hsound
  obtain ⟨_, _, _, hone, _⟩ := hsound.absolute rfl
  have hbig : (2 : Int) ^ 63 ≤ roundHalfAway (2 ^ 63) := by
    rw [roundHalfAway_nonneg (by positivity), Int.le_floor]
    push_cast
    linarith
  have hone : 1 ≤ x86Library.llround (2 ^ 63) := hone
  rw [llround_of_le x86Library hbig] at hone
  have hneg : (1 : Int) ≤ -(2 ^ 63) := hone
  omega

end KvBudget

end InferenceEngine
