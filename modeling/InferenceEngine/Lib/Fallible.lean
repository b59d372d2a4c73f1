/-
Programs that fail.

A `Fallible` program works on a state; it returns a value, or fails and leaves the state as
it is at that moment, or aborts.  There is no rollback.
-/
import InferenceEngine.Lib.Returns
import Mathlib.Data.List.Basic

/-- A program over `σ` that aborts with `φ`, fails with `ε` or returns an `α`. -/
def Fallible (φ ε σ α : Type) : Type := σ → Except φ (Except ε α × σ)

namespace Fallible

variable {φ ε σ α β γ : Type}

/-- Sequencing: a failure keeps the state it happened in. -/
def andThen (x : Fallible φ ε σ α) (f : α → Fallible φ ε σ β) : Fallible φ ε σ β := fun s =>
  match x s with
  | .error fault => .error fault
  | .ok (.error e, s') => .ok (.error e, s')
  | .ok (.ok a, s') => f a s'

instance : Monad (Fallible φ ε σ) where
  pure a := fun s => .ok (.ok a, s)
  bind := andThen

/-- The state. -/
def get : Fallible φ ε σ σ := fun s => .ok (.ok s, s)

/-- A change of the state. -/
def modify (f : σ → σ) : Fallible φ ε σ Unit := fun s => .ok (.ok (), f s)

/-- The outcome of a computation that has no state. -/
def ofExcept (x : Except ε α) : Fallible φ ε σ α := fun s => .ok (x, s)

/-- A computation that may abort. -/
def ofChecked (x : Except φ α) : Fallible φ ε σ α := fun s =>
  match x with
  | .ok a => .ok (.ok a, s)
  | .error fault => .error fault

/-- A failure under another description. -/
def mapError (g : ε → ε) (x : Fallible φ ε σ α) : Fallible φ ε σ α := fun s =>
  match x s with
  | .error fault => .error fault
  | .ok (.error e, s') => .ok (.error (g e), s')
  | .ok (.ok a, s') => .ok (.ok a, s')

/-- A loop over a list that carries a value. -/
def fold (f : γ → β → Fallible φ ε σ γ) : List β → γ → Fallible φ ε σ γ
  | [], c => pure c
  | b :: rest, c => do
      let c ← f c b
      fold f rest c

/-- A loop over a list. -/
def each (l : List β) (f : β → Fallible φ ε σ Unit) : Fallible φ ε σ Unit :=
  fold (fun _ b => f b) l ()

theorem bind_of_ok {x : Fallible φ ε σ α} {f : α → Fallible φ ε σ β} {s s' : σ} {a : α}
    (h : x s = .ok (.ok a, s')) : (x >>= f) s = f a s' := by
  show andThen x f s = _
  unfold andThen
  rw [h]

theorem bind_of_error {x : Fallible φ ε σ α} {f : α → Fallible φ ε σ β} {s s' : σ} {e : ε}
    (h : x s = .ok (.error e, s')) : (x >>= f) s = .ok (.error e, s') := by
  show andThen x f s = _
  unfold andThen
  rw [h]

/-- What a sequence that returns went through. -/
theorem of_bind {x : Fallible φ ε σ α} {f : α → Fallible φ ε σ β} {s s'' : σ} {b : β}
    (h : (x >>= f) s = .ok (.ok b, s'')) :
    ∃ a s', x s = .ok (.ok a, s') ∧ f a s' = .ok (.ok b, s'') := by
  cases hx : x s with
  | error fault =>
      change andThen x f s = _ at h
      unfold andThen at h
      rw [hx] at h
      cases h
  | ok r =>
      obtain ⟨r, s'⟩ := r
      cases r with
      | error e =>
          rw [bind_of_error hx] at h
          cases h
      | ok a =>
          rw [bind_of_ok hx] at h
          exact ⟨a, s', rfl, h⟩

/-- A loop over two lists, the first of which it gets through. -/
theorem fold_append_of_ok {f : γ → β → Fallible φ ε σ γ} {l' : List β} {c' : γ} {s' : σ} :
    ∀ {l : List β} {c : γ} {s : σ}, fold f l c s = .ok (.ok c', s') →
      fold f (l ++ l') c s = fold f l' c' s' := by
  intro l
  induction l with
  | nil =>
      intro c s h
      cases h
      rfl
  | cons b rest ih =>
      intro c s h
      unfold fold at h
      obtain ⟨c₁, s₁, hf, h⟩ := of_bind h
      rw [List.cons_append, fold, bind_of_ok hf]
      exact ih h

/-- **The loop rule**: the invariant speaks of the value carried and of what is still to come. -/
theorem fold_returns {f : γ → β → Fallible φ ε σ γ} {I : List β → γ → σ → Prop}
    (step : ∀ b rest c s c' s', I (b :: rest) c s → f c b s = .ok (.ok c', s') → I rest c' s') :
    ∀ {l : List β} {c : γ} {s : σ} {c' : γ} {s' : σ}, I l c s →
      fold f l c s = .ok (.ok c', s') → I [] c' s' := by
  intro l
  induction l with
  | nil =>
      intro c s c' s' hI h
      cases h
      exact hI
  | cons b rest ih =>
      intro c s c' s' hI h
      unfold fold at h
      obtain ⟨c₁, s₁, hf, h⟩ := of_bind h
      exact ih (step b rest c s c₁ s₁ hI hf) h

/-! ### Programs that do not abort

`x.Safe I Q` says that from every state in `I` the program comes to an end without aborting, leaves
a state in `I` whether it returns or fails, and that what it returns is in `Q`.  A failure is as
good as a value here: the rules ask nothing of the steps after it. -/

/-- `x` keeps `I` and does not abort, and its value satisfies `Q`. -/
def Safe (I : σ → Prop) (x : Fallible φ ε σ α) (Q : α → Prop) : Prop :=
  ∀ s, I s → ∃ r s', x s = .ok (r, s') ∧ I s' ∧ ∀ a, r = .ok a → Q a

variable {I : σ → Prop} {x : Fallible φ ε σ α} {Q : α → Prop}

theorem Safe.mono {Q' : α → Prop} (h : x.Safe I Q) (hQ : ∀ a, Q a → Q' a) : x.Safe I Q' := by
  intro s hs
  obtain ⟨r, s', hx, hI, hr⟩ := h s hs
  exact ⟨r, s', hx, hI, fun a ha => hQ a (hr a ha)⟩

theorem safe_pure {a : α} (h : Q a) : (pure a : Fallible φ ε σ α).Safe I Q := by
  intro s hs
  refine ⟨.ok a, s, rfl, hs, ?_⟩
  intro b hb
  cases hb
  exact h

theorem safe_get : (get : Fallible φ ε σ σ).Safe I I := by
  intro s hs
  refine ⟨.ok s, s, rfl, hs, ?_⟩
  intro b hb
  cases hb
  exact hs

theorem safe_modify {f : σ → σ} (h : ∀ s, I s → I (f s)) :
    (modify f : Fallible φ ε σ Unit).Safe I fun _ => True :=
  fun s hs => ⟨.ok (), f s, rfl, h s hs, fun _ _ => trivial⟩

theorem safe_ofExcept {y : Except ε α} (h : ∀ a, y = .ok a → Q a) :
    (ofExcept y : Fallible φ ε σ α).Safe I Q :=
  fun s hs => ⟨y, s, rfl, hs, h⟩

theorem safe_ofChecked {y : Except φ α} (h : y.Returns Q) :
    (ofChecked y : Fallible φ ε σ α).Safe I Q := by
  obtain ⟨a, rfl, ha⟩ := h
  intro s hs
  refine ⟨.ok a, s, rfl, hs, ?_⟩
  intro b hb
  cases hb
  exact ha

theorem Safe.bind {f : α → Fallible φ ε σ β} {R : β → Prop} (h : x.Safe I Q)
    (hf : ∀ a, Q a → (f a).Safe I R) : (x >>= f).Safe I R := by
  intro s hs
  obtain ⟨r, s', hx, hI, hr⟩ := h s hs
  cases r with
  | error e => exact ⟨.error e, s', bind_of_error hx, hI, fun a ha => by cases ha⟩
  | ok a =>
      rw [bind_of_ok hx]
      exact hf a (hr a rfl) s' hI

/-- **The loop rule**: each turn is safe. -/
theorem safe_fold {f : γ → β → Fallible φ ε σ γ} {R : γ → Prop} :
    ∀ {l : List β} {c : γ}, R c → (∀ b ∈ l, ∀ c, R c → (f c b).Safe I R) →
      (fold f l c).Safe I R := by
  intro l
  induction l with
  | nil => intro c hc _; exact safe_pure hc
  | cons b rest ih =>
      intro c hc h
      rw [fold]
      refine (h b (by simp) c hc).bind fun c' hc' => ?_
      exact ih hc' fun b' hb' => h b' (List.mem_cons_of_mem _ hb')

/-- What a safe program comes to. -/
theorem Safe.returns (h : x.Safe I Q) {s : σ} (hs : I s) : ∃ r, x s = .ok r := by
  obtain ⟨r, s', hx, -⟩ := h s hs
  exact ⟨(r, s'), hx⟩

end Fallible
