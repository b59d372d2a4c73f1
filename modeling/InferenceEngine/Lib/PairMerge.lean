/-
Merging neighbours by rank.

Some pairs of symbols have a rank.  A list of symbols is merged by joining, again and again,
the two neighbours of the lowest rank, the leftmost of them where there are several, until no
two neighbours have one.  The procedure always ends and leaves no choice.
-/
import Mathlib

namespace PairMerge

variable {α ρ : Type*} {rank : α → α → Option ρ} {join : α → α → α}

/-- No two neighbours have a rank. -/
def Settled (rank : α → α → Option ρ) (symbols : List α) : Prop :=
  ∀ before x y after, symbols = before ++ x :: y :: after → rank x y = none

theorem neighbours_cons {x y a b : α} {rest before after : List α}
    (h : x :: y :: rest = before ++ a :: b :: after) :
    (before = [] ∧ a = x ∧ b = y ∧ after = rest) ∨
      ∃ before', before = x :: before' ∧ y :: rest = before' ++ a :: b :: after := by
  cases before with
  | nil =>
      cases h
      exact Or.inl ⟨rfl, rfl, rfl, rfl⟩
  | cons z before =>
      obtain ⟨rfl, hrest⟩ := List.cons.inj h
      exact Or.inr ⟨before, rfl, hrest⟩

theorem settled_of_length_le {symbols : List α} (h : symbols.length ≤ 1) :
    Settled rank symbols := by
  intro before x y after hs
  rw [hs, List.length_append, List.length_cons, List.length_cons] at h
  omega

theorem Settled.cons {x y : α} {rest : List α} (h : rank x y = none)
    (hrest : Settled rank (y :: rest)) : Settled rank (x :: y :: rest) := by
  intro before a b after hs
  rcases neighbours_cons hs with ⟨-, rfl, rfl, -⟩ | ⟨before', -, hs⟩
  · exact h
  · exact hrest before' a b after hs

/-! ### The lowest rank

The neighbours to be merged are those of the lowest rank, and the leftmost of these. -/

section Order

variable [LinearOrder ρ]

/-- `a` and `b` after `before` are the leftmost neighbours of the lowest rank, which is `r`. -/
structure Lowest (rank : α → α → Option ρ) (symbols before : List α) (a b : α) (after : List α)
    (r : ρ) : Prop where
  split : symbols = before ++ a :: b :: after
  ranked : rank a b = some r
  lowest : ∀ before' x y after' s, symbols = before' ++ x :: y :: after' → rank x y = some s →
    r ≤ s ∧ (before'.length < before.length → r < s)

/-- The procedure on some symbols, with the ranks of its merges and what it ends with. -/
inductive Run (rank : α → α → Option ρ) (join : α → α → α) : List α → List ρ → List α → Prop
  | done {symbols : List α} (h : Settled rank symbols) : Run rank join symbols [] symbols
  | merge {symbols before after result : List α} {a b : α} {r : ρ} {ranks : List ρ}
      (h : Lowest rank symbols before a b after r)
      (hrest : Run rank join (before ++ join a b :: after) ranks result) :
      Run rank join symbols (r :: ranks) result

/-- The first neighbours are the ones, if none of the others have a lower rank. -/
theorem Lowest.head {x y : α} {rest : List α} {r : ρ} (h : rank x y = some r)
    (hrest : ∀ before a b after s, y :: rest = before ++ a :: b :: after →
      rank a b = some s → r ≤ s) : Lowest rank (x :: y :: rest) [] x y rest r := by
  refine ⟨rfl, h, ?_⟩
  intro before a b after s hs hrank
  refine ⟨?_, fun hlt => absurd hlt (Nat.not_lt_zero _)⟩
  rcases neighbours_cons hs with ⟨-, rfl, rfl, -⟩ | ⟨before', -, hs⟩
  · rw [h] at hrank
    cases hrank
    exact le_refl _
  · exact hrest before' a b after s hs hrank

/-- Neighbours further on are the ones, if the first ones have no rank or a higher one. -/
theorem Lowest.tail {x y a b : α} {rest before after : List α} {r : ρ}
    (h : Lowest rank (y :: rest) before a b after r) (hfirst : ∀ s, rank x y = some s → r < s) :
    Lowest rank (x :: y :: rest) (x :: before) a b after r := by
  refine ⟨by rw [h.split]; rfl, h.ranked, ?_⟩
  intro before₂ a₂ b₂ after₂ s hs hrank
  rcases neighbours_cons hs with ⟨rfl, rfl, rfl, -⟩ | ⟨before', rfl, hs'⟩
  · exact ⟨le_of_lt (hfirst s hrank), fun _ => hfirst s hrank⟩
  · obtain ⟨hle, hlt⟩ := h.lowest before' a₂ b₂ after₂ s hs' hrank
    refine ⟨hle, fun hshort => hlt ?_⟩
    simpa using hshort

/-- **Some neighbours are the ones, or none have a rank.** -/
theorem settled_or_lowest (rank : α → α → Option ρ) (symbols : List α) :
    Settled rank symbols ∨ ∃ before a b after r, Lowest rank symbols before a b after r := by
  induction symbols with
  | nil => exact Or.inl (settled_of_length_le (Nat.zero_le _))
  | cons x symbols ih =>
      cases symbols with
      | nil => exact Or.inl (settled_of_length_le (Nat.le_refl 1))
      | cons y rest =>
          cases hxy : rank x y with
          | none =>
              rcases ih with hsettled | ⟨before, a, b, after, r, h⟩
              · exact Or.inl (hsettled.cons hxy)
              · exact Or.inr ⟨_, _, _, _, _, h.tail fun s hs => by rw [hxy] at hs; cases hs⟩
          | some s =>
              rcases ih with hsettled | ⟨before, a, b, after, r, h⟩
              · refine Or.inr ⟨_, _, _, _, _, .head hxy ?_⟩
                intro before a b after t hs hrank
                rw [hsettled before a b after hs] at hrank
                cases hrank
              · by_cases hlt : r < s
                · refine Or.inr ⟨_, _, _, _, _, h.tail fun t ht => ?_⟩
                  rw [hxy] at ht
                  cases ht
                  exact hlt
                · refine Or.inr ⟨_, _, _, _, _, .head hxy ?_⟩
                  intro before' a' b' after' t hs hrank
                  exact (not_lt.mp hlt).trans (h.lowest before' a' b' after' t hs hrank).1

/-- **There is one place to merge.** -/
theorem Lowest.unique {symbols before before' after after' : List α} {a a' b b' : α} {r r' : ρ}
    (h : Lowest rank symbols before a b after r)
    (h' : Lowest rank symbols before' a' b' after' r') :
    before = before' ∧ a = a' ∧ b = b' ∧ after = after' ∧ r = r' := by
  obtain ⟨hle, hlt⟩ := h.lowest before' a' b' after' r' h'.split h'.ranked
  obtain ⟨hle', hlt'⟩ := h'.lowest before a b after r h.split h.ranked
  obtain rfl := le_antisymm hle hle'
  have hlength : before.length = before'.length := by
    rcases lt_trichotomy before.length before'.length with hshort | heq | hshort
    · exact absurd (hlt' hshort) (lt_irrefl r)
    · exact heq
    · exact absurd (hlt hshort) (lt_irrefl r)
  obtain ⟨rfl, hrest⟩ := List.append_inj (h.split.symm.trans h'.split) hlength
  cases hrest
  exact ⟨rfl, rfl, rfl, rfl, rfl⟩

theorem Lowest.not_settled {symbols before after : List α} {a b : α} {r : ρ}
    (h : Lowest rank symbols before a b after r) : ¬Settled rank symbols := by
  intro hsettled
  have hnone := hsettled before a b after h.split
  rw [h.ranked] at hnone
  cases hnone

/-! ### Runs

Each merge leaves one symbol less and there is one place for it, so the procedure ends, and in
one way. -/

/-- **The procedure ends.** -/
theorem Run.exists (rank : α → α → Option ρ) (join : α → α → α) (symbols : List α) :
    ∃ ranks result, Run rank join symbols ranks result := by
  induction hlen : symbols.length using Nat.strong_induction_on generalizing symbols with
  | _ n ih =>
      rcases settled_or_lowest rank symbols with h | ⟨before, a, b, after, r, h⟩
      · exact ⟨[], symbols, .done h⟩
      · have hshort : (before ++ join a b :: after).length < n := by
          rw [← hlen, h.split]
          simp only [List.length_append, List.length_cons]
          omega
        obtain ⟨ranks, result, hrest⟩ := ih _ hshort _ rfl
        exact ⟨r :: ranks, result, .merge h hrest⟩

/-- **The procedure leaves no choice.** -/
theorem Run.unique {symbols result result' : List α} {ranks ranks' : List ρ}
    (h : Run rank join symbols ranks result) (h' : Run rank join symbols ranks' result') :
    ranks = ranks' ∧ result = result' := by
  induction h generalizing ranks' result' with
  | done hsettled =>
      cases h' with
      | done _ => exact ⟨rfl, rfl⟩
      | merge hlowest _ => exact absurd hsettled hlowest.not_settled
  | merge hlowest _ ih =>
      cases h' with
      | done hsettled => exact absurd hsettled hlowest.not_settled
      | merge hlowest' hrest' =>
          obtain ⟨rfl, rfl, rfl, rfl, rfl⟩ := hlowest.unique hlowest'
          obtain ⟨rfl, rfl⟩ := ih hrest'
          exact ⟨rfl, rfl⟩

/-- **No two neighbours of the result have a rank.** -/
theorem Run.settled {symbols result : List α} {ranks : List ρ}
    (h : Run rank join symbols ranks result) : Settled rank result := by
  induction h with
  | done hsettled => exact hsettled
  | merge _ _ ih => exact ih

end Order

end PairMerge
