/-
Regular expressions as a backtracking matcher reads them.

The matcher tries the sides of a choice in order and a repetition with as many turns as it can
before fewer.  `ends` lists the places where it may stop, in the order it comes to them, and
the match is the first of them.  What an expression names a class of characters by, and what
a group may do to the characters it reads, is left to a `Reading`.
-/
import Mathlib.Data.List.Basic
import Mathlib.Data.List.TakeWhile

/-- Expressions over class names `κ` and group modes `μ`. -/
inductive Regex (κ μ : Type*) where
  /-- a character of a class -/
  | one (k : κ)
  | seq (a b : Regex κ μ)
  | alt (a b : Regex κ μ)
  /-- at least `lo` and at most `hi` turns, greedy -/
  | rep (a : Regex κ μ) (lo : Nat) (hi : Option Nat)
  /-- negative lookahead -/
  | notAhead (a : Regex κ μ)
  /-- a group that reads its characters through a mode -/
  | under (m : μ) (a : Regex κ μ)

namespace Regex

variable {κ μ α : Type*}

/-- What the names of classes and modes mean. -/
structure Reading (κ μ α : Type*) where
  mem : κ → α → Bool
  fold : μ → α → α

/-! ### Where a match may end

An expression is what it may leave of a text, in order of preference, as a backtracking matcher
would try it.  The first of these is the match. -/

/-- A number of turns, all of them. -/
def turns (f : List α → List (List α)) : Nat → List α → List (List α)
  | 0, s => [s]
  | n + 1, s => (f s).flatMap (turns f n)

/-- Up to a number of turns, more before fewer. -/
def upTo (f : List α → List (List α)) : Nat → List α → List (List α)
  | 0, s => [s]
  | n + 1, s => (f s).flatMap (upTo f n) ++ [s]

/-- A turn that consumes something. -/
def progress (f : List α → List (List α)) (s : List α) : List (List α) :=
  (f s).filter fun t => t.length < s.length

/-- What is left after each way to match a beginning of the text, in order of preference. -/
def ends (rd : Reading κ μ α) : Regex κ μ → List α → List (List α)
  | one _, [] => []
  | one k, x :: s => if rd.mem k x then [s] else []
  | seq a b, s => (ends rd a s).flatMap (ends rd b)
  | alt a b, s => ends rd a s ++ ends rd b s
  | rep a lo (some hi), s => (turns (ends rd a) lo s).flatMap (upTo (ends rd a) (hi - lo))
  | rep a lo none, s =>
      (turns (ends rd a) lo s).flatMap fun t => upTo (progress (ends rd a)) t.length t
  | notAhead a, s => if (ends rd a s).isEmpty then [s] else []
  | under m a, s => ends { rd with mem := fun k x => rd.mem k (rd.fold m x) } a s

section

variable (rd : Reading κ μ α) (f : List α → List (List α)) (a b : Regex κ μ) (k : κ) (s : List α)

@[simp] theorem turns_zero : turns f 0 s = [s] := rfl

theorem turns_succ (n : Nat) : turns f (n + 1) s = (f s).flatMap (turns f n) := rfl

@[simp] theorem upTo_zero : upTo f 0 s = [s] := rfl

theorem upTo_succ (n : Nat) : upTo f (n + 1) s = (f s).flatMap (upTo f n) ++ [s] := rfl

@[simp] theorem ends_one_nil : ends rd (one k) [] = [] := rfl

theorem ends_one_cons (x : α) :
    ends rd (one k) (x :: s) = if rd.mem k x then [s] else [] := rfl

theorem ends_seq : ends rd (seq a b) s = (ends rd a s).flatMap (ends rd b) := rfl

theorem ends_alt : ends rd (alt a b) s = ends rd a s ++ ends rd b s := rfl

theorem ends_rep_some (lo hi : Nat) : ends rd (rep a lo (some hi)) s
    = (turns (ends rd a) lo s).flatMap (upTo (ends rd a) (hi - lo)) := rfl

theorem ends_rep_none (lo : Nat) : ends rd (rep a lo none) s
    = (turns (ends rd a) lo s).flatMap fun t => upTo (progress (ends rd a)) t.length t := rfl

theorem ends_notAhead :
    ends rd (notAhead a) s = if (ends rd a s).isEmpty then [s] else [] := rfl

end

/-- What the match leaves. -/
def first (rd : Reading κ μ α) (r : Regex κ μ) (s : List α) : Option (List α) :=
  (ends rd r s).head?

/-- A text cut into matches, each taken where the one before it ended. -/
inductive Splits (rd : Reading κ μ α) (r : Regex κ μ) : List α → List (List α) → Prop
  | nil : Splits rd r [] []
  | cons {span rest : List α} {spans : List (List α)} (hne : span ≠ [])
      (h : first rd r (span ++ rest) = some rest) (tail : Splits rd r rest spans) :
      Splits rd r (span ++ rest) (span :: spans)

/-! ### The first match, by the shape of the expression

An alternative is looked at only if those before it fail, and a look ahead consumes nothing. -/

section

variable {rd : Reading κ μ α} {a b : Regex κ μ} {k : κ} {s : List α} {x : α}

theorem first_alt (s : List α) : first rd (alt a b) s = (first rd a s).or (first rd b s) := by
  show (ends rd (alt a b) s).head? = (ends rd a s).head?.or (ends rd b s).head?
  rw [ends_alt, List.head?_append]

theorem ends_notAhead_one_nil : ends rd (notAhead (one k) : Regex κ μ) [] = [[]] := by
  rw [ends_notAhead, ends_one_nil]
  rfl

theorem ends_notAhead_one_cons :
    ends rd (notAhead (one k) : Regex κ μ) (x :: s) = if rd.mem k x then [] else [x :: s] := by
  rw [ends_notAhead, ends_one_cons]
  by_cases h : rd.mem k x = true <;> simp [h]

/-- The first match of a sequence, when the first match of its head goes on to one. -/
theorem head?_flatMap_of_head? {β : Type*} {l : List α} {f : α → List β} {y : β}
    (hl : l.head? = some x) (hf : (f x).head? = some y) : (l.flatMap f).head? = some y := by
  cases l with
  | nil => exact absurd hl (by simp)
  | cons z l =>
      cases hl
      rw [List.flatMap_cons, List.head?_append, hf]
      rfl

/-! ### Runs of a class

A star over one class is the commonest expression; it may end anywhere inside the run, and
prefers the end. -/

/-- The places inside a run, from its end down. -/
def runEnds (p : α → Bool) : List α → List (List α)
  | [] => [[]]
  | x :: s => if p x then runEnds p s ++ [x :: s] else [x :: s]

theorem head?_runEnds (p : α → Bool) (s : List α) :
    (runEnds p s).head? = some (s.dropWhile p) := by
  induction s with
  | nil => rfl
  | cons x s ih =>
      by_cases h : p x = true
      · rw [runEnds, if_pos h, List.head?_append, ih, List.dropWhile_cons_of_pos h]
        rfl
      · rw [runEnds, if_neg h, List.dropWhile_cons_of_neg h]
        rfl

private theorem upTo_progress_one : ∀ (n : Nat) (s : List α), s.length ≤ n →
    upTo (progress (ends rd (one k : Regex κ μ))) n s = runEnds (rd.mem k) s := by
  intro n
  induction n with
  | zero =>
      intro s hs
      rw [List.length_eq_zero_iff.mp (Nat.le_zero.mp hs)]
      rfl
  | succ n ih =>
      intro s hs
      rw [upTo_succ, progress]
      cases s with
      | nil => simp [runEnds]
      | cons x s =>
          rw [ends_one_cons, runEnds]
          by_cases h : rd.mem k x = true
          · rw [if_pos h, if_pos h]
            rw [List.filter_cons_of_pos (by simp), List.filter_nil,
              List.flatMap_cons, List.flatMap_nil, List.append_nil,
              ih s (by simpa using hs)]
          · rw [if_neg h, if_neg h]
            rfl

/-- `k*` -/
theorem ends_star_one (s : List α) :
    ends rd (rep (one k) 0 none : Regex κ μ) s = runEnds (rd.mem k) s := by
  rw [ends_rep_none, turns_zero, List.flatMap_cons, List.flatMap_nil, List.append_nil]
  exact upTo_progress_one _ _ (le_refl _)

theorem ends_plus_one_nil : ends rd (rep (one k) 1 none : Regex κ μ) [] = [] := by
  rw [ends_rep_none, turns_succ, ends_one_nil]
  rfl

/-- `k+` -/
theorem ends_plus_one_cons : ends rd (rep (one k) 1 none : Regex κ μ) (x :: s)
    = if rd.mem k x then runEnds (rd.mem k) s else [] := by
  rw [ends_rep_none, turns_succ, ends_one_cons]
  by_cases h : rd.mem k x = true
  · rw [if_pos h, if_pos h]
    simp only [List.flatMap_cons, List.flatMap_nil, List.append_nil, turns_zero]
    exact upTo_progress_one _ _ (le_refl _)
  · rw [if_neg h, if_neg h]
    rfl

/-- `k?` -/
theorem ends_optional_one_cons : ends rd (rep (one k) 0 (some 1) : Regex κ μ) (x :: s)
    = if rd.mem k x then [s, x :: s] else [x :: s] := by
  rw [ends_rep_some, turns_zero]
  simp only [List.flatMap_cons, List.flatMap_nil, List.append_nil, Nat.sub_zero, upTo_succ,
    ends_one_cons]
  by_cases h : rd.mem k x = true <;> simp [h]

/-- A run of bounded length, from its longest part down. -/
theorem head?_upTo_one : ∀ (n : Nat) (s : List α),
    (upTo (ends rd (one k : Regex κ μ)) n s).head?
      = some (s.drop (min n (s.takeWhile (rd.mem k)).length)) := by
  intro n
  induction n with
  | zero =>
      intro s
      simp
  | succ n ih =>
      intro s
      rw [upTo_succ]
      cases s with
      | nil => simp
      | cons x s =>
          rw [ends_one_cons]
          by_cases h : rd.mem k x = true
          · rw [if_pos h, List.flatMap_cons, List.flatMap_nil, List.append_nil,
              List.head?_append, ih s, List.takeWhile_cons_of_pos h, List.length_cons,
              Nat.succ_min_succ]
            rfl
          · rw [if_neg h, List.takeWhile_cons_of_neg h]
            rfl

end

end Regex
