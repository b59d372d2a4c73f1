/-
Loops over a list, with an invariant that speaks about the elements already visited.
-/
import InferenceEngine.Lib.Returns

namespace Except

universe u v w

variable {ε : Type u} {σ : Type v} {γ : Type w}

private theorem Returns.foldlM_append {f : σ → γ → Except ε σ} (I : List γ → σ → Prop)
    {l : List γ}
    (step : ∀ visited b rest s, l = visited ++ b :: rest → I visited s →
      (f s b).Returns (I (visited ++ [b]))) :
    ∀ (rest visited : List γ) (s : σ), l = visited ++ rest → I visited s →
      (rest.foldlM f s).Returns (I l) := by
  intro rest
  induction rest with
  | nil =>
      intro visited s hl h
      rw [hl, List.append_nil]
      exact returns_pure h
  | cons b rest ih =>
      intro visited s hl h
      rw [List.foldlM_cons]
      refine Returns.bind (step visited b rest s hl h) fun s' hs' => ?_
      exact ih (visited ++ [b]) s' (by rw [hl, List.append_assoc, List.singleton_append]) hs'

/-- **The loop rule with the elements that have been visited.** -/
theorem Returns.foldlM_visited {f : σ → γ → Except ε σ} (I : List γ → σ → Prop) {l : List γ}
    (step : ∀ visited b rest s, l = visited ++ b :: rest → I visited s →
      (f s b).Returns (I (visited ++ [b]))) {s : σ} (h : I [] s) :
    (l.foldlM f s).Returns (I l) :=
  Returns.foldlM_append I step l [] s rfl h

/-- The rule for a loop that counts. -/
theorem Returns.foldlM_range {f : σ → Nat → Except ε σ} (I : Nat → σ → Prop) {n : Nat}
    (step : ∀ i < n, ∀ s, I i s → (f s i).Returns (I (i + 1))) {s : σ} (h : I 0 s) :
    ((List.range n).foldlM f s).Returns (I n) := by
  induction n with
  | zero => exact returns_pure h
  | succ n ih =>
      rw [List.range_succ, List.foldlM_append]
      refine Returns.bind (ih fun i hi => step i (by omega)) fun s' hs' => ?_
      refine Returns.bind (step n (by omega) s' hs') fun s'' hs'' => ?_
      exact returns_pure hs''

/-- A loop of checks passes exactly when each of them does. -/
theorem forM_eq_ok {f : γ → Except ε PUnit} {l : List γ} :
    l.forM f = .ok ⟨⟩ ↔ ∀ x ∈ l, f x = .ok ⟨⟩ := by
  induction l with
  | nil => exact ⟨fun _ x hx => (by cases hx), fun _ => rfl⟩
  | cons x rest ih =>
      rw [List.forM, bind_eq_ok, List.forall_mem_cons, ← ih]
      constructor
      · rintro ⟨⟨⟩, h, hrest⟩
        exact ⟨h, hrest⟩
      · rintro ⟨h, hrest⟩
        exact ⟨⟨⟩, h, hrest⟩

/-- A loop that collects depends on its turns only. -/
theorem mapM_congr {α : Type v} {f g : γ → Except ε α} :
    ∀ {l : List γ}, (∀ x ∈ l, f x = g x) → l.mapM f = l.mapM g := by
  intro l
  induction l with
  | nil => intro _; rfl
  | cons x rest ih =>
      intro h
      rw [List.mapM_cons, List.mapM_cons, h x (by simp),
        ih fun y hy => h y (List.mem_cons_of_mem _ hy)]

/-- A loop depends on its turns only. -/
theorem foldlM_congr {f g : σ → γ → Except ε σ} {l : List γ} (h : ∀ x ∈ l, ∀ s, f s x = g s x)
    (s : σ) : l.foldlM f s = l.foldlM g s := by
  induction l generalizing s with
  | nil => rfl
  | cons x rest ih =>
      rw [List.foldlM_cons, List.foldlM_cons, h x (by simp)]
      congr 1
      funext s'
      exact ih (fun y hy => h y (List.mem_cons_of_mem _ hy)) s'

/-- Loops one in the other are one loop. -/
theorem foldlM_flatMap {ι : Type w} {f : σ → γ → Except ε σ} (g : ι → List γ) (l : List ι)
    (s : σ) : (l.flatMap g).foldlM f s = l.foldlM (fun s i => (g i).foldlM f s) s := by
  induction l generalizing s with
  | nil => rfl
  | cons i rest ih =>
      rw [List.flatMap_cons, List.foldlM_append, List.foldlM_cons]
      congr 1
      funext s'
      exact ih s'

/-- A filter whose every test succeeds keeps the elements that pass it. -/
theorem filterM_ok {γ : Type} {f : γ → Except ε Bool} {g : γ → Bool} :
    ∀ {l : List γ}, (∀ x ∈ l, f x = .ok (g x)) → l.filterM f = .ok (l.filter g) := by
  have haux : ∀ (l acc : List γ), (∀ x ∈ l, f x = .ok (g x)) →
      List.filterAuxM f l acc = .ok ((l.filter g).reverse ++ acc) := by
    intro l
    induction l with
    | nil => exact fun _ _ => rfl
    | cons x rest ih =>
        intro acc h
        have hrest := fun acc' => ih acc' fun y hy => h y (List.mem_cons_of_mem _ hy)
        rw [List.filterAuxM, h x List.mem_cons_self, ok_bind, hrest, List.filter_cons]
        cases g x <;> simp
  intro l h
  rw [List.filterM, haux l [] h, ok_bind, List.append_nil, List.reverse_reverse]
  rfl

end Except
