/-
Rules for programs that either return a value or abort.

`x.Returns P` says that `x` does not abort and that what it returns satisfies `P`.
It is the only notion of correctness the development needs of an abortable program,
so the rules below are those of a total-correctness logic: return, sequencing,
consequence, and one rule for a loop over a list, whose invariant may speak about
the elements still to come.
-/
import Mathlib.Data.List.Basic

namespace Except

universe u v w

variable {ε : Type u} {α β σ : Type v} {γ : Type w}

/-- `x` does not abort, and its value satisfies `P`. -/
def Returns (x : Except ε α) (P : α → Prop) : Prop :=
  ∃ a, x = .ok a ∧ P a

theorem returns_ok {P : α → Prop} {a : α} (h : P a) : Returns (.ok a : Except ε α) P :=
  ⟨a, rfl, h⟩

theorem returns_pure {P : α → Prop} {a : α} (h : P a) : Returns (pure a : Except ε α) P :=
  ⟨a, rfl, h⟩

theorem ok_bind (a : α) (f : α → Except ε β) : (Except.ok a >>= f) = f a := rfl

theorem Returns.mono {x : Except ε α} {P Q : α → Prop} (h : x.Returns P)
    (hPQ : ∀ a, P a → Q a) : x.Returns Q := by
  obtain ⟨a, hx, ha⟩ := h
  exact ⟨a, hx, hPQ a ha⟩

theorem Returns.bind {x : Except ε α} {f : α → Except ε β} {P : α → Prop} {Q : β → Prop}
    (h : x.Returns P) (hf : ∀ a, P a → (f a).Returns Q) : (x >>= f).Returns Q := by
  obtain ⟨a, rfl, ha⟩ := h
  exact hf a ha

/-- What a returning program returns is what it was seen to return. -/
theorem Returns.of_eq {x : Except ε α} {P : α → Prop} {a : α} (h : x.Returns P)
    (hx : x = .ok a) : P a := by
  obtain ⟨b, hb, hP⟩ := h
  rw [hx] at hb
  cases hb
  exact hP

theorem bind_eq_ok {x : Except ε α} {f : α → Except ε β} {b : β} :
    x >>= f = .ok b ↔ ∃ a, x = .ok a ∧ f a = .ok b := by
  cases x with
  | error e => simp [bind, Except.bind]
  | ok a =>
      constructor
      · intro h
        exact ⟨a, rfl, h⟩
      · rintro ⟨a', h, hf⟩
        cases h
        exact hf

/-- The loop rule: the invariant carries the elements still to be visited. -/
theorem Returns.foldlM {f : σ → γ → Except ε σ} (I : List γ → σ → Prop)
    (step : ∀ b rest s, I (b :: rest) s → (f s b).Returns (I rest)) :
    ∀ (l : List γ) (s : σ), I l s → (l.foldlM f s).Returns (I []) := by
  intro l
  induction l with
  | nil => intro s h; exact returns_pure h
  | cons b rest ih =>
      intro s h
      rw [List.foldlM_cons]
      exact Returns.bind (step b rest s h) ih

/-- A loop that collects what its turns return. -/
theorem Returns.mapM {f : γ → Except ε β} {P : γ → β → Prop} :
    ∀ {l : List γ}, (∀ x ∈ l, (f x).Returns (P x)) →
      (l.mapM f).Returns fun ys => List.Forall₂ P l ys := by
  intro l
  induction l with
  | nil => intro _; exact returns_pure .nil
  | cons x rest ih =>
      intro h
      rw [List.mapM_cons]
      refine Returns.bind (h x (by simp)) fun y hy => ?_
      refine Returns.bind (ih fun z hz => h z (List.mem_cons_of_mem _ hz)) fun ys hys => ?_
      exact returns_pure (.cons hy hys)

/-- A loop whose every turn succeeds collects what the turns return. -/
theorem mapM_ok {f : γ → Except ε β} {g : γ → β} :
    ∀ {l : List γ}, (∀ x ∈ l, f x = .ok (g x)) → l.mapM f = .ok (l.map g) := by
  intro l
  induction l with
  | nil => intro _; rfl
  | cons x rest ih =>
      intro h
      rw [List.mapM_cons, h x (by simp), ih (fun y hy => h y (List.mem_cons_of_mem _ hy))]
      rfl

/-- A loop whose every turn succeeds is a fold. -/
theorem foldlM_ok {f : σ → γ → Except ε σ} {g : σ → γ → σ} :
    ∀ {l : List γ}, (∀ x ∈ l, ∀ s, f s x = .ok (g s x)) →
      ∀ s, l.foldlM f s = .ok (l.foldl g s) := by
  intro l
  induction l with
  | nil => intro _ s; rfl
  | cons x rest ih =>
      intro h s
      rw [List.foldlM_cons, h x (by simp), ok_bind, List.foldl_cons]
      exact ih (fun y hy => h y (List.mem_cons_of_mem _ hy)) (g s x)

end Except
