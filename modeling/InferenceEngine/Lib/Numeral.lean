/-
Reading a number from the front of a text, as C's `strtod` does.

A numeral is a sign, digits with at most one point among them, and an exponent; it is decimal, or
hexadecimal behind `0x`.  The reader takes the longest numeral it finds and leaves the rest.  Its
value is exact: no rounding is part of the reading.  Texts are lists of bytes.
-/
import Mathlib.Data.List.TakeWhile
import Mathlib.Data.Rat.Defs
import Mathlib.Data.UInt
import Mathlib.Algebra.Order.Field.Rat

namespace Numeral

/-- What a text may say of a number. -/
inductive Reading where
  | finite (value : ℚ)
  | infinite (negative : Bool)
  | nan
deriving DecidableEq

/-- The base of the digits, the letter in front of the exponent, and what it is an exponent of. -/
structure Radix where
  base : Nat
  mark : UInt8
  scale : Nat

/-- Digits `0` to `9`; `e` stands for a power of ten. -/
def decimal : Radix := ⟨10, 101, 10⟩

/-- Digits `0` to `f`; `p` stands for a power of two. -/
def hexadecimal : Radix := ⟨16, 112, 2⟩

/-- The white space of the C locale. -/
def isSpace (c : UInt8) : Bool := c = 32 || (9 ≤ c && c ≤ 13)

/-- A letter in lower case. -/
def toLower (c : UInt8) : UInt8 := if 65 ≤ c ∧ c ≤ 90 then c + 32 else c

/-- The value of a digit; letters count on from ten, and what is neither is no digit anywhere. -/
def digitValue (c : UInt8) : Nat :=
  if 48 ≤ c ∧ c ≤ 57 then c.toNat - 48
  else if 97 ≤ toLower c ∧ toLower c ≤ 122 then (toLower c).toNat - 87
  else 36

/-- A digit of the base. -/
def isDigit (base : Nat) (c : UInt8) : Bool := digitValue c < base

/-- The number that some digits write. -/
def natOf (base : Nat) (digits : List UInt8) : Nat :=
  digits.foldl (fun n c => n * base + digitValue c) 0

/-! ### The numerals

The grammar as relations between a text and what it writes, in the order of its rules. -/

/-- An optional sign, and whether it is a minus. -/
def Sign (t : List UInt8) (negative : Bool) : Prop :=
  (t = [] ∧ negative = false) ∨ (t = [43] ∧ negative = false) ∨ (t = [45] ∧ negative = true)

/-- Digits, at least one, with at most one point among them. -/
def Mantissa (r : Radix) (t : List UInt8) (v : ℚ) : Prop :=
  ∃ whole frac, (∀ c ∈ whole ++ frac, isDigit r.base c = true) ∧ whole ++ frac ≠ [] ∧
    (t = whole ++ 46 :: frac ∨ t = whole ∧ frac = []) ∧
    v = natOf r.base (whole ++ frac) / (r.base : ℚ) ^ frac.length

/-- An exponent, or nothing. -/
def Exponent (r : Radix) (t : List UInt8) (e : Int) : Prop :=
  (t = [] ∧ e = 0) ∨
    ∃ c sign digits negative, t = c :: (sign ++ digits) ∧ toLower c = r.mark ∧
      Sign sign negative ∧ digits ≠ [] ∧ (∀ d ∈ digits, isDigit 10 d = true) ∧
      e = if negative then -(natOf 10 digits : Int) else natOf 10 digits

/-- A mantissa with its exponent, and the number they write. -/
def Magnitude (r : Radix) (t : List UInt8) (v : ℚ) : Prop :=
  ∃ mantissa exponent y e, t = mantissa ++ exponent ∧ Mantissa r mantissa y ∧
    Exponent r exponent e ∧ v = y * (r.scale : ℚ) ^ e

/-- `t` is a number and nothing else. -/
def IsNumber (t : List UInt8) (v : ℚ) : Prop :=
  ∃ sign rest negative y, t = sign ++ rest ∧ Sign sign negative ∧
    v = (if negative then -y else y) ∧
    (Magnitude decimal rest y ∨
      ∃ x digits, rest = 48 :: x :: digits ∧ toLower x = 120 ∧ Magnitude hexadecimal digits y)

/-! ### The reader

The reader takes the longest numeral at the front of a text, one part after the other, and hands
back what it left. -/

/-- A sign, if there is one, and the rest. -/
def scanSign : List UInt8 → Bool × List UInt8
  | [] => (false, [])
  | c :: t => if c = 43 then (false, t) else if c = 45 then (true, t) else (false, c :: t)

/-- The number that the digits on the two sides of a point write. -/
def mantissaValue (r : Radix) (whole frac : List UInt8) : ℚ :=
  natOf r.base (whole ++ frac) / (r.base : ℚ) ^ frac.length

/-- The longest mantissa, its value and the rest. -/
def scanMantissa (r : Radix) (t : List UInt8) : Option (ℚ × List UInt8) :=
  let whole := t.takeWhile (isDigit r.base)
  let rest := t.dropWhile (isDigit r.base)
  if rest.head? = some 46 then
    let frac := rest.tail.takeWhile (isDigit r.base)
    if whole ++ frac = [] then none
    else some (mantissaValue r whole frac, rest.tail.dropWhile (isDigit r.base))
  else if whole = [] then none
  else some (mantissaValue r whole [], rest)

/-- A letter without digits behind it is no exponent. -/
def scanExponent (r : Radix) : List UInt8 → Int × List UInt8
  | [] => (0, [])
  | c :: t =>
      if toLower c = r.mark then
        let s := scanSign t
        let digits := s.2.takeWhile (isDigit 10)
        if digits = [] then (0, c :: t)
        else (if s.1 then -(natOf 10 digits : Int) else natOf 10 digits,
          s.2.dropWhile (isDigit 10))
      else (0, c :: t)

/-- The longest mantissa with its exponent, their value and the rest. -/
def scanMagnitude (r : Radix) (t : List UInt8) : Option (ℚ × List UInt8) :=
  (scanMantissa r t).map fun m =>
    let e := scanExponent r m.2
    (m.1 * (r.scale : ℚ) ^ e.1, e.2)

/-- The text behind a word, in whatever letters the word is written. -/
def afterWord (word t : List UInt8) : Option (List UInt8) :=
  if (t.take word.length).map toLower = word then some (t.drop word.length) else none

/-- Behind `nan` there may be more of it in brackets. -/
def afterBrackets (t : List UInt8) : List UInt8 :=
  let inside := t.tail.dropWhile fun c => isDigit 36 c || c = 95
  if t.head? = some 40 ∧ inside.head? = some 41 then inside.tail else t

/-- A word for infinity or for no number, whichever is longest. -/
def scanWord (t : List UInt8) : Option (Reading × List UInt8) :=
  match afterWord [105, 110, 102, 105, 110, 105, 116, 121] t with
  | some rest => some (.infinite false, rest)
  | none =>
      match afterWord [105, 110, 102] t with
      | some rest => some (.infinite false, rest)
      | none => (afterWord [110, 97, 110] t).map fun rest => (.nan, afterBrackets rest)

/-- The digits behind `0x`, if there are any. -/
def scanHexadecimal : List UInt8 → Option (ℚ × List UInt8)
  | z :: x :: t => if z = 48 ∧ toLower x = 120 then scanMagnitude hexadecimal t else none
  | _ => none

/-- What follows the sign. -/
def scanUnsigned (t : List UInt8) : Option (Reading × List UInt8) :=
  match scanHexadecimal t with
  | some (v, rest) => some (.finite v, rest)
  | none =>
      match scanMagnitude decimal t with
      | some (v, rest) => some (.finite v, rest)
      | none => scanWord t

/-- The same reading under a minus sign. -/
def negate : Reading → Reading
  | .finite v => .finite (-v)
  | .infinite negative => .infinite !negative
  | .nan => .nan

/-- What is read, and the text behind it. -/
def strtod (t : List UInt8) : Option (Reading × List UInt8) :=
  let s := scanSign (t.dropWhile isSpace)
  (scanUnsigned s.2).map fun u => (if s.1 then negate u.1 else u.1, u.2)

/-! ### What the reader finds is a numeral

Each part of the reader splits its text into a word of its rule and the rest. -/

variable {r : Radix} {t rest : List UInt8} {v : ℚ}

theorem scanSign_sound (t : List UInt8) :
    ∃ sign, t = sign ++ (scanSign t).2 ∧ Sign sign (scanSign t).1 := by
  cases t with
  | nil => exact ⟨[], rfl, Or.inl ⟨rfl, rfl⟩⟩
  | cons c t =>
      rw [scanSign]
      by_cases hplus : c = 43
      · rw [if_pos hplus, hplus]
        exact ⟨[43], rfl, Or.inr (Or.inl ⟨rfl, rfl⟩)⟩
      · rw [if_neg hplus]
        by_cases hminus : c = 45
        · rw [if_pos hminus, hminus]
          exact ⟨[45], rfl, Or.inr (Or.inr ⟨rfl, rfl⟩)⟩
        · rw [if_neg hminus]
          exact ⟨[], rfl, Or.inl ⟨rfl, rfl⟩⟩

theorem isDigit_of_mem_takeWhile {base : Nat} {c : UInt8}
    (h : c ∈ t.takeWhile (isDigit base)) : isDigit base c = true :=
  List.mem_takeWhile_imp h

theorem scanMantissa_sound (h : scanMantissa r t = some (v, rest)) :
    ∃ m, t = m ++ rest ∧ Mantissa r m v := by
  unfold scanMantissa at h
  dsimp only at h
  have hsplit := List.takeWhile_append_dropWhile (p := isDigit r.base) (l := t)
  by_cases hpoint : (t.dropWhile (isDigit r.base)).head? = some 46
  · rw [if_pos hpoint] at h
    obtain ⟨tail, htail⟩ := List.head?_eq_some_iff.mp hpoint
    rw [htail, List.tail_cons] at h
    by_cases hnone : t.takeWhile (isDigit r.base) ++ tail.takeWhile (isDigit r.base) = []
    · rw [if_pos hnone] at h
      cases h
    · rw [if_neg hnone] at h
      cases h
      refine ⟨t.takeWhile (isDigit r.base) ++ 46 :: tail.takeWhile (isDigit r.base), ?_,
        _, _, fun c hc => ?_, hnone, Or.inl rfl, rfl⟩
      · rw [List.append_assoc, List.cons_append, List.takeWhile_append_dropWhile, ← htail, hsplit]
      · rcases List.mem_append.mp hc with hc | hc
        · exact isDigit_of_mem_takeWhile hc
        · exact isDigit_of_mem_takeWhile hc
  · rw [if_neg hpoint] at h
    by_cases hnone : t.takeWhile (isDigit r.base) = []
    · rw [if_pos hnone] at h
      cases h
    · rw [if_neg hnone] at h
      cases h
      refine ⟨_, hsplit.symm, _, [], fun c hc => ?_, by rwa [List.append_nil],
        Or.inr ⟨rfl, rfl⟩, rfl⟩
      rw [List.append_nil] at hc
      exact isDigit_of_mem_takeWhile hc

theorem scanExponent_sound (r : Radix) (t : List UInt8) :
    ∃ x, t = x ++ (scanExponent r t).2 ∧ Exponent r x (scanExponent r t).1 := by
  cases t with
  | nil => exact ⟨[], rfl, Or.inl ⟨rfl, rfl⟩⟩
  | cons c t =>
      rw [scanExponent]
      dsimp only
      by_cases hmark : toLower c = r.mark
      · rw [if_pos hmark]
        by_cases hnone : (scanSign t).2.takeWhile (isDigit 10) = []
        · rw [if_pos hnone]
          exact ⟨[], rfl, Or.inl ⟨rfl, rfl⟩⟩
        · rw [if_neg hnone]
          obtain ⟨sign, hsign, hneg⟩ := scanSign_sound t
          refine ⟨c :: (sign ++ (scanSign t).2.takeWhile (isDigit 10)), ?_,
            Or.inr ⟨c, sign, _, _, rfl, hmark, hneg, hnone,
              fun d hd => isDigit_of_mem_takeWhile hd, rfl⟩⟩
          rw [List.cons_append, List.append_assoc, List.takeWhile_append_dropWhile, ← hsign]
      · rw [if_neg hmark]
        exact ⟨[], rfl, Or.inl ⟨rfl, rfl⟩⟩

theorem scanMagnitude_sound (h : scanMagnitude r t = some (v, rest)) :
    ∃ m, t = m ++ rest ∧ Magnitude r m v := by
  obtain ⟨⟨y, rest'⟩, hm, heq⟩ := Option.map_eq_some_iff.mp h
  cases heq
  obtain ⟨m, hm, hmantissa⟩ := scanMantissa_sound hm
  obtain ⟨x, hx, hexponent⟩ := scanExponent_sound r rest'
  refine ⟨m ++ x, ?_, m, x, y, _, rfl, hmantissa, hexponent, rfl⟩
  rw [List.append_assoc, ← hx, hm]

theorem scanHexadecimal_sound (h : scanHexadecimal t = some (v, rest)) :
    ∃ x digits, t = 48 :: x :: digits ++ rest ∧ toLower x = 120 ∧
      Magnitude hexadecimal digits v := by
  unfold scanHexadecimal at h
  split at h
  · rename_i z x u
    by_cases hzero : z = 48 ∧ toLower x = 120
    · rw [if_pos hzero] at h
      obtain ⟨digits, hdigits, hmagnitude⟩ := scanMagnitude_sound h
      exact ⟨x, digits, by rw [hzero.1, hdigits]; rfl, hzero.2, hmagnitude⟩
    · rw [if_neg hzero] at h
      cases h
  · cases h

theorem scanWord_infinite {d : Reading} (h : scanWord t = some (d, rest)) : d ≠ .finite v := by
  unfold scanWord at h
  split at h
  · cases h
    exact Reading.noConfusion
  · split at h
    · cases h
      exact Reading.noConfusion
    · obtain ⟨u, -, heq⟩ := Option.map_eq_some_iff.mp h
      cases heq
      exact Reading.noConfusion

theorem scanUnsigned_sound (h : scanUnsigned t = some (.finite v, rest)) :
    ∃ m, t = m ++ rest ∧ (Magnitude decimal m v ∨
      ∃ x digits, m = 48 :: x :: digits ∧ toLower x = 120 ∧ Magnitude hexadecimal digits v) := by
  unfold scanUnsigned at h
  split at h
  · rename_i hhex
    cases h
    obtain ⟨x, digits, ht, hx, hmagnitude⟩ := scanHexadecimal_sound hhex
    exact ⟨48 :: x :: digits, ht, Or.inr ⟨x, digits, rfl, hx, hmagnitude⟩⟩
  · split at h
    · rename_i hdec
      cases h
      obtain ⟨m, ht, hmagnitude⟩ := scanMagnitude_sound hdec
      exact ⟨m, ht, Or.inl hmagnitude⟩
    · exact absurd rfl (scanWord_infinite h)

/-- **What is read as a finite number is a numeral of it**, behind spaces. -/
theorem strtod_sound (h : strtod t = some (.finite v, rest)) :
    ∃ number, t.dropWhile isSpace = number ++ rest ∧ IsNumber number v := by
  unfold strtod at h
  obtain ⟨⟨d, rest'⟩, hu, heq⟩ := Option.map_eq_some_iff.mp h
  obtain ⟨sign, hsign, hneg⟩ := scanSign_sound (t.dropWhile isSpace)
  have hrest : rest' = rest := congrArg Prod.snd heq
  have hd : (if (scanSign (t.dropWhile isSpace)).1 then negate d else d) = .finite v :=
    congrArg Prod.fst heq
  subst hrest
  have hfinite : ∃ y, d = .finite y ∧ v = if (scanSign (t.dropWhile isSpace)).1 then -y else y := by
    cases d with
    | finite y =>
        refine ⟨y, rfl, ?_⟩
        by_cases hs : (scanSign (t.dropWhile isSpace)).1 = true
        · rw [if_pos hs] at hd ⊢
          exact (Reading.finite.inj hd).symm
        · rw [if_neg hs] at hd ⊢
          exact (Reading.finite.inj hd).symm
    | infinite negative =>
        by_cases hs : (scanSign (t.dropWhile isSpace)).1 = true
        · rw [if_pos hs] at hd
          cases hd
        · rw [if_neg hs] at hd
          cases hd
    | nan =>
        by_cases hs : (scanSign (t.dropWhile isSpace)).1 = true
        · rw [if_pos hs] at hd
          cases hd
        · rw [if_neg hs] at hd
          cases hd
  obtain ⟨y, rfl, hv⟩ := hfinite
  obtain ⟨m, hm, hmagnitude⟩ := scanUnsigned_sound hu
  refine ⟨sign ++ m, ?_, sign, m, _, y, rfl, hneg, hv, hmagnitude⟩
  rw [List.append_assoc, ← hm, ← hsign]

end Numeral
