/-
Rules for what a program returns, if it returns.

`x.Ensures P` says that whatever `x` returns satisfies `P`; it says nothing of a program that
aborts.  Where `Returns` is a total-correctness logic, this is its partial-correctness
companion: the same rules, with nothing to prove about the branches that abort.
-/
import InferenceEngine.Lib.Returns

namespace Except

universe u v w

variable {ε : Type u} {α β σ : Type v} {γ : Type w}

/-- If `x` returns, its value satisfies `P`. -/
def Ensures (x : Except ε α) (P : α → Prop) : Prop :=
  ∀ a, x = .ok a → P a

theorem ensures_ok {P : α → Prop} {a : α} (h : P a) : Ensures (.ok a : Except ε α) P := by
  intro b hb
  cases hb
  exact h

theorem ensures_pure {P : α → Prop} {a : α} (h : P a) : Ensures (pure a : Except ε α) P :=
  ensures_ok h

theorem ensures_error {P : α → Prop} (err : ε) : Ensures (.error err : Except ε α) P := by
  intro a ha
  cases ha

theorem ensures_throw {P : α → Prop} (err : ε) : Ensures (throw err : Except ε α) P :=
  ensures_error err

/-- A program ensures that it has returned what it returned. -/
theorem ensures_self (x : Except ε α) : x.Ensures fun a => x = .ok a := fun _ h => h

theorem Ensures.mono {x : Except ε α} {P Q : α → Prop} (h : x.Ensures P)
    (hPQ : ∀ a, P a → Q a) : x.Ensures Q := fun a ha => hPQ a (h a ha)

theorem Ensures.bind {x : Except ε α} {f : α → Except ε β} {P : α → Prop} {Q : β → Prop}
    (h : x.Ensures P) (hf : ∀ a, P a → (f a).Ensures Q) : (x >>= f).Ensures Q := by
  intro b hb
  obtain ⟨a, hx, hfa⟩ := bind_eq_ok.mp hb
  exact hf a (h a hx) b hfa

/-- A program that is seen to return something that passes a test. -/
theorem exists_of_test (x : Except ε α) (test : α → Bool)
    (h : (match x with | .ok a => test a | .error _ => false) = true) :
    ∃ a, x = .ok a ∧ test a = true := by
  cases x with
  | error err => cases h
  | ok a => exact ⟨a, rfl, h⟩

/-- The loop rule: the invariant carries the elements still to be visited. -/
theorem Ensures.foldlM {f : σ → γ → Except ε σ} (I : List γ → σ → Prop)
    (step : ∀ b rest s, I (b :: rest) s → (f s b).Ensures (I rest)) :
    ∀ (l : List γ) (s : σ), I l s → (l.foldlM f s).Ensures (I []) := by
  intro l
  induction l with
  | nil => intro s h; exact ensures_pure h
  | cons b rest ih =>
      intro s h
      rw [List.foldlM_cons]
      exact Ensures.bind (step b rest s h) ih

/-- A loop that keeps an invariant. -/
theorem Ensures.foldlM_invariant {f : σ → γ → Except ε σ} {I : σ → Prop}
    (step : ∀ s b, I s → (f s b).Ensures I) (l : List γ) {s : σ} (h : I s) :
    (l.foldlM f s).Ensures I :=
  Ensures.foldlM (fun _ => I) (fun b _ s hs => step s b hs) l s h

/-- A loop that collects what its turns return. -/
theorem Ensures.mapM {f : γ → Except ε β} {P : γ → β → Prop} :
    ∀ {l : List γ}, (∀ x ∈ l, (f x).Ensures (P x)) →
      (l.mapM f).Ensures fun ys => List.Forall₂ P l ys := by
  intro l
  induction l with
  | nil => intro _; exact ensures_pure .nil
  | cons x rest ih =>
      intro h
      rw [List.mapM_cons]
      refine Ensures.bind (h x (by simp)) fun y hy => ?_
      refine Ensures.bind (ih fun z hz => h z (List.mem_cons_of_mem _ hz)) fun ys hys => ?_
      exact ensures_pure (.cons hy hys)

/-- A filter whose test may abort keeps, in order, some elements that passed it. -/
theorem Ensures.filterM {γ : Type} {f : γ → Except ε Bool} (l : List γ) :
    (l.filterM f).Ensures fun kept => kept.Sublist l ∧ ∀ x ∈ kept, f x = .ok true := by
  have haux : ∀ (l acc : List γ), (List.filterAuxM f l acc).Ensures fun l' => ∃ kept : List γ,
      kept.Sublist l ∧ (∀ x ∈ kept, f x = .ok true) ∧ l' = kept.reverse ++ acc := by
    intro l
    induction l with
    | nil => exact fun acc => ensures_pure ⟨[], List.Sublist.refl _, by simp, rfl⟩
    | cons x rest ih =>
        intro acc
        refine Ensures.bind (ensures_self (f x)) fun b hb => (ih _).mono ?_
        rintro l' ⟨kept, hsub, hkept, rfl⟩
        cases b with
        | false => exact ⟨kept, hsub.cons x, hkept, rfl⟩
        | true =>
            refine ⟨x :: kept, hsub.cons_cons x, ?_, by simp⟩
            intro y hy
            rcases List.mem_cons.mp hy with rfl | hy
            · exact hb
            · exact hkept y hy
  refine Ensures.bind (haux l []) ?_
  rintro l' ⟨kept, hsub, hkept, rfl⟩
  refine ensures_pure ?_
  rw [List.append_nil, List.reverse_reverse]
  exact ⟨hsub, hkept⟩

end Except
