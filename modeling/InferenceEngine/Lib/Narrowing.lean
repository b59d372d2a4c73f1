/-
Rounding words of one binary format to words of a smaller one.

A word is read as a rational number, as an infinity with its sign, or as no number.  `Rounded` is
what a correctly rounded result is, and it is stated on readings alone.  `Narrows` is what has to
be known of a function on the words without sign, and is stated on the grid of the smaller format;
correct rounding, monotonicity and the return of exact numbers follow from it.
-/
import InferenceEngine.Lib.BinaryFormat
import Mathlib.Tactic.FieldSimp

namespace BinaryFormat

/-- What a word stands for. -/
inductive Datum where
  | finite (x : ℚ)
  | infinity (negative : Bool)
  | nan
deriving DecidableEq

/-- The order of what is no NaN. -/
def Datum.Le : Datum → Datum → Prop
  | .finite x, .finite y => x ≤ y
  | .finite _, .infinity negative => negative = false
  | .infinity negative, .finite _ => negative = true
  | .infinity negative, .infinity negative' => negative = true ∨ negative' = false
  | _, _ => False

/-- A number with a sign. -/
def signed (negative : Bool) (x : ℚ) : ℚ := if negative then -x else x

variable (f : BinaryFormat)

/-- The number at a place of the numbering, whether or not it is finite in the format. -/
def number (a : Nat) : ℚ := f.scaled a * f.least

/-- What a word of the format stands for. -/
def read (w : Nat) : Datum :=
  if f.magnitude w < f.infinity then
    .finite (signed (f.negative w) (f.number (f.magnitude w)))
  else if f.magnitude w = f.infinity then .infinity (f.negative w)
  else .nan

/-- Half way from the largest finite number to the next one there would be. -/
def overflow : ℚ := (f.number (f.infinity - 1) + f.number f.infinity) / 2

/-- `w` is finite, and no finite word is nearer to `x`; of two numbers it is the even one. -/
def Nearest (x : ℚ) (w : Nat) : Prop :=
  ∃ y, f.read w = .finite y ∧ ∀ w' y', f.read w' = .finite y' →
    |y - x| ≤ |y' - x| ∧ (|y' - x| = |y - x| → y' = y ∨ Even w)

/-- `w` is `x` to nearest, ties to even, with the sign of `x`. -/
structure Rounded (x : Datum) (negative : Bool) (w : Nat) : Prop where
  sign : f.negative w = negative
  nearest : ∀ q, x = .finite q → |q| < f.overflow → f.Nearest q w
  overflow : ∀ q, x = .finite q → f.overflow ≤ |q| → f.read w = .infinity negative
  infinity : ∀ s, x = .infinity s → f.read w = .infinity s

/-! ### Readings and their order

A word is read as a number, as an infinity or as no number.  Taken as integers, with the sign in
front, the words are in the order of their readings. -/

variable {f}

theorem least_pos : 0 < f.least := zpow_pos (by norm_num) _

theorem number_le_iff {a b : Nat} : f.number a ≤ f.number b ↔ a ≤ b := by
  unfold number
  rw [mul_le_mul_iff_left₀ least_pos, Nat.cast_le, f.scaled_strictMono.le_iff_le]

theorem number_zero : f.number 0 = 0 := by
  unfold number
  rw [f.scaled_of_le (Nat.zero_le _), Nat.cast_zero, zero_mul]

theorem number_nonneg (a : Nat) : 0 ≤ f.number a := by
  rw [← number_zero (f := f), number_le_iff]
  exact Nat.zero_le a

theorem read_of_lt {w : Nat} (h : f.magnitude w < f.infinity) :
    f.read w = .finite (signed (f.negative w) (f.number (f.magnitude w))) := if_pos h

theorem read_of_eq {w : Nat} (h : f.magnitude w = f.infinity) :
    f.read w = .infinity (f.negative w) := by
  unfold read
  rw [if_neg (by omega), if_pos h]

theorem read_nan_iff {w : Nat} : f.read w = .nan ↔ f.infinity < f.magnitude w := by
  unfold read
  split
  · exact ⟨fun h => (nomatch h), fun h => by omega⟩
  · split
    · exact ⟨fun h => (nomatch h), fun h => by omega⟩
    · exact ⟨fun _ => by omega, fun _ => rfl⟩

theorem read_eq_finite {w : Nat} {y : ℚ} (h : f.read w = .finite y) :
    f.magnitude w < f.infinity ∧ y = signed (f.negative w) (f.number (f.magnitude w)) := by
  unfold read at h
  split at h
  · cases h
    exact ⟨‹_›, rfl⟩
  · split at h
    · cases h
    · cases h

theorem read_eq_infinity {w : Nat} {s : Bool} (h : f.read w = .infinity s) :
    f.magnitude w = f.infinity ∧ f.negative w = s := by
  unfold read at h
  split at h
  · cases h
  · split at h
    · cases h
      exact ⟨‹_›, rfl⟩
    · cases h

/-- A word as an integer. -/
def key (f : BinaryFormat) (w : Nat) : Int :=
  if f.negative w then -(f.magnitude w : Int) else f.magnitude w

theorem signed_le_iff {s s' : Bool} {a b : Nat} :
    signed s (f.number a) ≤ signed s' (f.number b) ↔
      (if s then -(a : Int) else a) ≤ (if s' then -(b : Int) else b) := by
  have ha := number_nonneg (f := f) a
  have hb := number_nonneg (f := f) b
  have hab := number_le_iff (f := f) (a := a) (b := b)
  have hba := number_le_iff (f := f) (a := b) (b := a)
  have ha0 := number_le_iff (f := f) (a := a) (b := 0)
  have hb0 := number_le_iff (f := f) (a := b) (b := 0)
  rw [number_zero] at ha0 hb0
  unfold signed
  cases s with
  | false =>
      cases s' with
      | false =>
          simp only [Bool.false_eq_true, if_false]
          rw [hab]
          omega
      | true =>
          simp only [Bool.false_eq_true, if_false, if_true]
          constructor
          · intro h
            have h1 := ha0.mp (by linarith)
            have h2 := hb0.mp (by linarith)
            omega
          · intro h
            have h1 := ha0.mpr (by omega)
            have h2 := hb0.mpr (by omega)
            linarith
  | true =>
      cases s' with
      | false =>
          simp only [Bool.false_eq_true, if_false, if_true]
          exact ⟨fun _ => by omega, fun _ => by linarith⟩
      | true =>
          simp only [if_true]
          rw [neg_le_neg_iff, hba]
          omega

/-- **Readings are ordered as the words are, with their signs.** -/
theorem read_le_iff (hf : 0 < f.infinity) {w v : Nat} (hw : f.magnitude w ≤ f.infinity)
    (hv : f.magnitude v ≤ f.infinity) : (f.read w).Le (f.read v) ↔ f.key w ≤ f.key v := by
  unfold key
  rcases Nat.lt_or_eq_of_le hw with hw | hw
  · rw [read_of_lt hw]
    rcases Nat.lt_or_eq_of_le hv with hv | hv
    · rw [read_of_lt hv]
      exact signed_le_iff
    · rw [read_of_eq hv]
      show f.negative v = false ↔ _
      cases f.negative v <;> cases f.negative w <;> simp <;> omega
  · rw [read_of_eq hw]
    rcases Nat.lt_or_eq_of_le hv with hv | hv
    · rw [read_of_lt hv]
      show f.negative w = true ↔ _
      cases f.negative v <;> cases f.negative w <;> simp <;> omega
    · rw [read_of_eq hv]
      show f.negative w = true ∨ f.negative v = false ↔ _
      cases f.negative v <;> cases f.negative w <;> simp <;> omega

/-! ### Distances

The distance of two signed numbers is that of their magnitudes where the signs are the same, and
their sum where they are not. -/

theorem abs_signed_sub (s : Bool) (x y : ℚ) : |signed s x - signed s y| = |x - y| := by
  unfold signed
  cases s with
  | false => rfl
  | true =>
      simp only [if_true]
      rw [neg_sub_neg, abs_sub_comm]

theorem abs_signed_sub_not (s : Bool) (x y : ℚ) : |signed (!s) x - signed s y| = |x + y| := by
  unfold signed
  cases s with
  | false =>
      simp only [Bool.not_false, if_true, Bool.false_eq_true, if_false]
      rw [← abs_neg, neg_sub, sub_neg_eq_add, add_comm]
  | true =>
      simp only [Bool.not_true, if_true, Bool.false_eq_true, if_false]
      rw [sub_neg_eq_add]

theorem abs_signed (s : Bool) {x : ℚ} (h : 0 ≤ x) : |signed s x| = x := by
  unfold signed
  cases s with
  | false => exact abs_of_nonneg h
  | true => simp [abs_of_nonneg h]

/-! ### Narrowing

To round a signed number it is enough to round its magnitude: the sign goes over. -/

/-- `narrow` takes words of `g` without sign to words of `f`, and rounds to nearest; the least
number of `f` is `2 ^ k` of those of `g`. -/
structure Narrows (g f : BinaryFormat) (k : Nat) (narrow : Nat → Nat) : Prop where
  exponentBits_pos : 0 < f.exponentBits
  fractionBits_pos : 0 < f.fractionBits
  least : f.least = 2 ^ k * g.least
  le_infinity : ∀ a ≤ g.infinity, narrow a ≤ f.infinity
  infinity : narrow g.infinity = f.infinity
  lower : ∀ a ≤ g.infinity, Grid.Lower (f.grid k) (g.scaled a) (narrow a)
  upper : ∀ a ≤ g.infinity, narrow a < f.infinity → Grid.Upper (f.grid k) (g.scaled a) (narrow a)

namespace Narrows

variable {g : BinaryFormat} {k : Nat} {narrow : Nat → Nat} {a b p w w' v v' : Nat}

theorem infinity_even (h : Narrows g f k narrow) : Even f.infinity := by
  have hpos := h.fractionBits_pos
  unfold BinaryFormat.infinity
  rw [show f.fractionBits = f.fractionBits - 1 + 1 by omega, Nat.pow_succ]
  exact ⟨(2 ^ f.exponentBits - 1) * 2 ^ (f.fractionBits - 1), by ring⟩

theorem infinity_pos (h : Narrows g f k narrow) : 0 < f.infinity := by
  have hexp : 2 ≤ 2 ^ f.exponentBits :=
    Nat.pow_le_pow_right (by decide : 0 < 2) h.exponentBits_pos
  exact Nat.mul_pos (by omega) (Nat.two_pow_pos _)

theorem number_eq (h : Narrows g f k narrow) (q : Nat) :
    f.number q = (f.grid k q : ℚ) * g.least := by
  unfold BinaryFormat.number grid
  rw [h.least]
  push_cast
  ring

/-- What rounds to infinity is at or past the last midpoint. -/
theorem lt_infinity_iff (h : Narrows g f k narrow) (ha : a ≤ g.infinity) :
    narrow a < f.infinity ↔
      2 * g.scaled a < f.grid k (f.infinity - 1) + f.grid k f.infinity := by
  have hpos := h.infinity_pos
  constructor
  · intro hlt
    obtain ⟨hmid, heven⟩ := h.upper a ha hlt
    have h1 : f.grid k (narrow a) ≤ f.grid k (f.infinity - 1) :=
      (f.grid_strictMono k).monotone (by omega)
    have h2 : f.grid k (narrow a + 1) ≤ f.grid k f.infinity :=
      (f.grid_strictMono k).monotone (by omega)
    by_contra hge
    -- the word below infinity is odd, so it does not win the last tie
    have hlast : narrow a = f.infinity - 1 := (f.grid_strictMono k).injective (by omega)
    have hodd := heven (by omega)
    have hinf := h.infinity_even
    rw [show f.infinity = f.infinity - 1 + 1 by omega, Nat.even_add_one, ← hlast] at hinf
    exact hinf hodd
  · intro hmid
    by_contra hge
    have heq : narrow a = f.infinity := by
      have := h.le_infinity a ha
      omega
    have hlow := (h.lower a ha (f.infinity - 1) (by omega)).1
    rw [heq] at hlow
    omega

/-- A number of the smaller format is its own rounding. -/
theorem exact (h : Narrows g f k narrow) (ha : a ≤ g.infinity) (hp : p ≤ f.infinity)
    (heq : g.scaled a = f.grid k p) : narrow a = p := by
  have hG := f.grid_strictMono k
  have hle := h.le_infinity a ha
  have hlow := h.lower a ha
  rw [heq] at hlow
  have hup : narrow a ≤ p := hlow.le_of_upper hG (Grid.upper_self hG p) (le_refl _)
  rcases Nat.lt_or_eq_of_le hle with hlt | hinf
  · have hhigh := h.upper a ha hlt
    rw [heq] at hhigh
    have hdown : p ≤ narrow a := (Grid.lower_self hG p).le_of_upper hG hhigh (le_refl _)
    omega
  · omega

theorem mono (h : Narrows g f k narrow) (hab : a ≤ b) (hb : b ≤ g.infinity) :
    narrow a ≤ narrow b := by
  rcases Nat.lt_or_eq_of_le (h.le_infinity b hb) with hlt | heq
  · exact (h.lower a (by omega)).le_of_upper (f.grid_strictMono k) (h.upper b hb hlt)
      (g.scaled_strictMono.monotone hab)
  · rw [heq]
    exact h.le_infinity a (by omega)

theorem zero (h : Narrows g f k narrow) : narrow 0 = 0 := by
  refine h.exact (Nat.zero_le _) (Nat.zero_le _) ?_
  unfold grid
  rw [f.scaled_of_le (Nat.zero_le _), g.scaled_of_le (Nat.zero_le _), Nat.zero_mul]

theorem abs_lt_overflow_iff (h : Narrows g f k narrow) (s : Bool) (ha : a ≤ g.infinity) :
    |signed s (g.number a)| < f.overflow ↔ narrow a < f.infinity := by
  rw [abs_signed s (number_nonneg a), h.lt_infinity_iff ha]
  unfold BinaryFormat.overflow
  rw [h.number_eq, h.number_eq, ← add_mul]
  unfold BinaryFormat.number
  rw [mul_div_right_comm, mul_lt_mul_iff_left₀ least_pos, lt_div_iff₀ (by norm_num), mul_comm,
    ← Nat.cast_ofNat, ← Nat.cast_mul, ← Nat.cast_add, Nat.cast_lt]

/-- The word that keeps the sign and rounds the rest is nearest. -/
theorem nearest (h : Narrows g f k narrow) (ha : g.magnitude w ≤ g.infinity)
    (hlt : narrow (g.magnitude w) < f.infinity)
    (hmagnitude : f.magnitude w' = narrow (g.magnitude w)) (hsign : f.negative w' = g.negative w)
    (heven : Even (f.magnitude w') → Even w') :
    f.Nearest (signed (g.negative w) (g.number (g.magnitude w))) w' := by
  have hG := f.grid_strictMono k
  have hgrid := Grid.nearest hG (h.lower _ ha) (h.upper _ ha hlt)
  have hunit := least_pos (f := g)
  rw [← hmagnitude] at hgrid hlt
  refine ⟨_, read_of_lt hlt, ?_⟩
  intro v y hy
  obtain ⟨_, rfl⟩ := read_eq_finite hy
  rw [hsign, abs_signed_sub, h.number_eq, h.number_eq]
  unfold BinaryFormat.number
  generalize g.scaled (g.magnitude w) = X at hgrid ⊢
  generalize f.magnitude w' = r at *
  generalize f.magnitude v = q at *
  rw [← sub_mul, abs_mul, abs_of_pos hunit]
  by_cases hside : f.negative v = g.negative w
  · obtain ⟨hle, htie⟩ := hgrid q
    rw [hside, abs_signed_sub, ← sub_mul, abs_mul, abs_of_pos hunit]
    refine ⟨mul_le_mul_of_nonneg_right hle hunit.le, fun heq => ?_⟩
    rcases htie (mul_right_cancel₀ hunit.ne' heq) with hqr | hr
    · exact Or.inl (by rw [hqr])
    · exact Or.inr (heven hr)
  · -- on the other side of zero nothing is nearer than zero is
    obtain ⟨hle, htie⟩ := hgrid 0
    have hflip : f.negative v = !g.negative w := Bool.eq_not_iff.mpr hside
    have hzero : (f.grid k 0 : ℚ) = 0 := by
      unfold grid
      rw [f.scaled_of_le (Nat.zero_le _), Nat.zero_mul, Nat.cast_zero]
    have hX : (0 : ℚ) ≤ X := Nat.cast_nonneg X
    have hq : (0 : ℚ) ≤ f.grid k q := Nat.cast_nonneg _
    rw [hzero, zero_sub, abs_neg, abs_of_nonneg hX] at hle htie
    rw [hflip, abs_signed_sub_not, ← add_mul, abs_mul, abs_of_pos hunit,
      abs_of_nonneg (by linarith : (0 : ℚ) ≤ f.grid k q + X)]
    refine ⟨mul_le_mul_of_nonneg_right (by linarith) hunit.le, fun heq => ?_⟩
    have hdist := mul_right_cancel₀ hunit.ne' heq
    have hq0 : (f.grid k q : ℚ) = 0 := by linarith
    rcases htie (by linarith) with hr | hr
    · refine Or.inl ?_
      rw [hq0, ← hr, hzero]
      unfold signed
      simp
    · exact Or.inr (heven hr)

/-- **The word that keeps the sign and rounds the rest is correctly rounded.** -/
theorem rounded (h : Narrows g f k narrow) (ha : g.magnitude w ≤ g.infinity)
    (hmagnitude : f.magnitude w' = narrow (g.magnitude w)) (hsign : f.negative w' = g.negative w)
    (heven : Even (f.magnitude w') → Even w') : f.Rounded (g.read w) (g.negative w) w' where
  sign := hsign
  nearest := by
    intro q hq hlt
    obtain ⟨_, rfl⟩ := read_eq_finite hq
    exact h.nearest ha ((h.abs_lt_overflow_iff _ ha).mp hlt) hmagnitude hsign heven
  overflow := by
    intro q hq hge
    obtain ⟨_, rfl⟩ := read_eq_finite hq
    have hnot := mt (h.abs_lt_overflow_iff (g.negative w) ha).mpr (not_lt.mpr hge)
    have hle := h.le_infinity _ ha
    rw [read_of_eq (by omega), hsign]
  infinity := by
    intro s hs
    obtain ⟨hinf, rfl⟩ := read_eq_infinity hs
    rw [read_of_eq (by rw [hmagnitude, hinf, h.infinity]), hsign]

/-- **Rounding keeps the order of the readings.** -/
theorem read_le (h : Narrows g f k narrow) (hg : 0 < g.infinity)
    (hw : g.magnitude w ≤ g.infinity) (hv : g.magnitude v ≤ g.infinity)
    (hmagnitude : f.magnitude w' = narrow (g.magnitude w)) (hsign : f.negative w' = g.negative w)
    (hmagnitude' : f.magnitude v' = narrow (g.magnitude v)) (hsign' : f.negative v' = g.negative v)
    (hle : (g.read w).Le (g.read v)) : (f.read w').Le (f.read v') := by
  rw [read_le_iff hg hw hv] at hle
  rw [read_le_iff h.infinity_pos (by rw [hmagnitude]; exact h.le_infinity _ hw)
    (by rw [hmagnitude']; exact h.le_infinity _ hv)]
  unfold key at hle ⊢
  rw [hsign, hsign', hmagnitude, hmagnitude']
  have hmono : g.magnitude w ≤ g.magnitude v → narrow (g.magnitude w) ≤ narrow (g.magnitude v) :=
    fun hle => h.mono hle hv
  have hmono' : g.magnitude v ≤ g.magnitude w → narrow (g.magnitude v) ≤ narrow (g.magnitude w) :=
    fun hle => h.mono hle hw
  have hzero := h.zero
  generalize g.negative w = s at hle ⊢
  generalize g.negative v = s' at hle ⊢
  cases s with
  | false =>
      cases s' with
      | false =>
          have := hmono (by simpa using hle)
          simpa using this
      | true =>
          -- only zero is at once not below and not above zero
          have hw0 : g.magnitude w = 0 := by
            simp only [Bool.false_eq_true, if_false, if_true] at hle
            omega
          have hv0 : g.magnitude v = 0 := by
            simp only [Bool.false_eq_true, if_false, if_true] at hle
            omega
          rw [hw0, hv0, hzero]
          simp
  | true =>
      cases s' with
      | false =>
          simp only [Bool.false_eq_true, if_false, if_true]
          omega
      | true =>
          have := hmono' (by simpa using hle)
          simpa using this

/-- A word with the same sign at the place of the same number reads as the same. -/
theorem read_eq (h : Narrows g f k narrow) (hsign : g.negative w = f.negative w')
    (hw : g.magnitude w < g.infinity) (hw' : f.magnitude w' < f.infinity)
    (heq : g.scaled (g.magnitude w) = f.grid k (f.magnitude w')) : g.read w = f.read w' := by
  rw [read_of_lt hw, read_of_lt hw', hsign, h.number_eq, ← heq]
  rfl

end Narrows

theorem Datum.Le.not_nan {x y : Datum} (h : x.Le y) : x ≠ .nan ∧ y ≠ .nan := by
  cases x with
  | nan => cases h
  | finite q =>
      cases y with
      | nan => cases h
      | finite q' => exact ⟨nofun, nofun⟩
      | infinity s' => exact ⟨nofun, nofun⟩
  | infinity s =>
      cases y with
      | nan => cases h
      | finite q' => exact ⟨nofun, nofun⟩
      | infinity s' => exact ⟨nofun, nofun⟩

end BinaryFormat
