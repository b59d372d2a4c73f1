/-
What a program asks for before it fails.

Whether a program without rollback fails is often decided by counters alone: it makes *demands*,
one after the other, and the first one that is refused ends it.  `Obeys` says that a list of
demands is what a program makes, and `Keeps` that it keeps an invariant besides.  What follows is
the result about programs without rollback: a failure leaves things as they were if and only if
no demand that changes them was granted before the one that was refused.
-/
import InferenceEngine.Lib.Fallible
import InferenceEngine.Lib.Returns

/-! ### Demands

A program may ask for things one after the other, and each may be refused.  Whether one is
granted depends on counters that the granted ones move. -/

/-- What decides about the demands `δ`: counters `β`, and which demands change something. -/
structure Meter (δ β : Type) where
  grant : δ → β → Option β
  changes : δ → Bool

/-- How far some demands get: whether all are granted, the counters behind those that are, and
whether one of these changes something. -/
structure Metered (β : Type) where
  granted : Bool
  counters : β
  changed : Bool

namespace Meter

variable {δ β : Type} (m : Meter δ β)

/-- Some demands in order, up to the first that is refused. -/
def run : List δ → β → Metered β
  | [], b => ⟨true, b, false⟩
  | d :: ds, b =>
      match m.grant d b with
      | none => ⟨false, b, false⟩
      | some b' =>
          ⟨(run ds b').granted, (run ds b').counters, m.changes d || (run ds b').changed⟩

theorem run_cons_granted {d : δ} {ds : List δ} {b b' : β} (h : m.grant d b = some b') :
    m.run (d :: ds) b
      = ⟨(m.run ds b').granted, (m.run ds b').counters,
          m.changes d || (m.run ds b').changed⟩ := by
  rw [run]
  simp only [h]

theorem run_cons_refused {d : δ} {ds : List δ} {b : β} (h : m.grant d b = none) :
    m.run (d :: ds) b = ⟨false, b, false⟩ := by
  rw [run]
  simp only [h]

theorem run_append_granted {ds ds' : List δ} : ∀ {b : β}, (m.run ds b).granted = true →
    m.run (ds ++ ds') b
      = ⟨(m.run ds' (m.run ds b).counters).granted, (m.run ds' (m.run ds b).counters).counters,
          (m.run ds b).changed || (m.run ds' (m.run ds b).counters).changed⟩ := by
  induction ds with
  | nil =>
      intro b _
      simp only [List.nil_append, run, Bool.false_or]
  | cons d ds ih =>
      intro b h
      rw [List.cons_append]
      cases hd : m.grant d b with
      | none =>
          rw [run_cons_refused m hd] at h
          cases h
      | some b' =>
          rw [run_cons_granted m hd] at h ⊢
          rw [run_cons_granted m hd, ih h]
          simp only [Bool.or_assoc]

theorem run_append_refused {ds ds' : List δ} : ∀ {b : β}, (m.run ds b).granted = false →
    m.run (ds ++ ds') b = m.run ds b := by
  induction ds with
  | nil => intro b h; cases h
  | cons d ds ih =>
      intro b h
      rw [List.cons_append]
      cases hd : m.grant d b with
      | none => rw [run_cons_refused m hd, run_cons_refused m hd]
      | some b' =>
          rw [run_cons_granted m hd] at h
          rw [run_cons_granted m hd, run_cons_granted m hd, ih h]

end Meter

/-! ### Programs that make demands

A program obeys a list of demands when that list decides whether it fails and how far it gets. 
The rules below give the demands of a program from those of its parts. -/

/-- How the states of a program are read: their counters, and two relations between a state and
a later one, that nothing has changed and that something has. -/
structure Metering (δ σ β : Type) extends Meter δ β where
  counters : σ → β
  same : σ → σ → Prop
  grown : σ → σ → Prop
  same_refl : ∀ s, same s s
  same_trans : ∀ {s s' s''}, same s s' → same s' s'' → same s s''
  same_grown : ∀ {s s' s''}, same s s' → grown s' s'' → grown s s''
  grown_same : ∀ {s s' s''}, grown s s' → same s' s'' → grown s s''
  grown_trans : ∀ {s s' s''}, grown s s' → grown s' s'' → grown s s''
  not_same : ∀ {s s'}, grown s s' → ¬same s s'

namespace Metering

variable {φ ε σ δ β α α' γ ι : Type} (M : Metering δ σ β)

/-- What the flag of a run says about the state it leads to. -/
def Moved (changed : Bool) (s s' : σ) : Prop :=
  if changed = true then M.grown s s' else M.same s s'

theorem Moved.trans {c c' : Bool} {s s' s'' : σ} (h : M.Moved c s s') (h' : M.Moved c' s' s'') :
    M.Moved (c || c') s s'' := by
  unfold Moved at h h' ⊢
  cases c with
  | true =>
      cases c' with
      | true => exact M.grown_trans h h'
      | false => exact M.grown_same h h'
  | false =>
      cases c' with
      | true => exact M.same_grown h h'
      | false => exact M.same_trans h h'

theorem Moved.grown {c : Bool} {s s' : σ} (h : M.Moved c s s') (hc : c = true) :
    M.grown s s' := by
  subst hc
  exact h

/-- What a program does whose demands are all granted. -/
def Succeeds (r : Metered β) (x : Fallible φ ε σ α) (Q : α → σ → Prop) (s : σ) : Prop :=
  ∃ a s', x s = .ok (.ok a, s') ∧ Q a s' ∧ M.counters s' = r.counters ∧ M.Moved r.changed s s'

/-- What a program does one of whose demands is refused. -/
def Fails (r : Metered β) (x : Fallible φ ε σ α) (s : σ) : Prop :=
  ∃ e s', x s = .ok (.error e, s') ∧ M.Moved r.changed s s'

/-- From a state in `P`, `x` demands `ds`: it returns in `Q` if they are granted, and fails where
one is refused. -/
def Obeys (P : σ → Prop) (ds : List δ) (x : Fallible φ ε σ α) (Q : α → σ → Prop) : Prop :=
  ∀ s, P s →
    ((M.run ds (M.counters s)).granted = true → M.Succeeds (M.run ds (M.counters s)) x Q s) ∧
    ((M.run ds (M.counters s)).granted = false → M.Fails (M.run ds (M.counters s)) x s)

variable {M} {P : σ → Prop} {ds ds' : List δ} {x : Fallible φ ε σ α} {Q : α → σ → Prop}

theorem Obeys.mono {P' : σ → Prop} {Q' : α → σ → Prop} (h : M.Obeys P ds x Q)
    (hP : ∀ s, P' s → P s) (hQ : ∀ a s, Q a s → Q' a s) : M.Obeys P' ds x Q' := by
  intro s hs
  refine ⟨fun hg => ?_, (h s (hP s hs)).2⟩
  obtain ⟨a, s', hx, ha, hrest⟩ := (h s (hP s hs)).1 hg
  exact ⟨a, s', hx, hQ a s' ha, hrest⟩

/-- A program that demands nothing returns, and what is read of the state stays. -/
theorem obeys_nil (h : ∀ s, P s → ∃ a s', x s = .ok (.ok a, s') ∧ Q a s' ∧
    M.counters s' = M.counters s ∧ M.same s s') : M.Obeys P [] x Q := by
  intro s hs
  refine ⟨fun _ => ?_, fun hg => (by cases hg)⟩
  obtain ⟨a, s', hx, ha, hc, hsame⟩ := h s hs
  exact ⟨a, s', hx, ha, hc, hsame⟩

/-- A program does what one does that runs alike. -/
theorem Obeys.congr {y : Fallible φ ε σ α} (h : ∀ s, P s → x s = y s) (hy : M.Obeys P ds y Q) :
    M.Obeys P ds x Q := by
  intro s hs
  unfold Succeeds Fails
  rw [h s hs]
  exact hy s hs

/-- A single demand. -/
theorem obeys_demand {d : δ}
    (hg : ∀ s, P s → ∀ b, M.grant d (M.counters s) = some b →
      ∃ a s', x s = .ok (.ok a, s') ∧ Q a s' ∧ M.counters s' = b ∧ M.Moved (M.changes d) s s')
    (hr : ∀ s, P s → M.grant d (M.counters s) = none →
      ∃ e s', x s = .ok (.error e, s') ∧ M.same s s') :
    M.Obeys P [d] x Q := by
  intro s hs
  cases hd : M.grant d (M.counters s) with
  | some b =>
      rw [Meter.run_cons_granted _ hd]
      refine ⟨fun _ => ?_, fun hf => (by cases hf)⟩
      obtain ⟨a, s', hx, ha, hc, hm⟩ := hg s hs b hd
      refine ⟨a, s', hx, ha, hc, ?_⟩
      show M.Moved (M.changes d || false) s s'
      rw [Bool.or_false]
      exact hm
  | none =>
      rw [Meter.run_cons_refused _ hd]
      refine ⟨fun hf => (by cases hf), fun _ => ?_⟩
      obtain ⟨e, s', hx, hsame⟩ := hr s hs hd
      exact ⟨e, s', hx, hsame⟩

theorem Obeys.bind {f : α → Fallible φ ε σ α'} {R : α' → σ → Prop} (h : M.Obeys P ds x Q)
    (hf : ∀ a, M.Obeys (Q a) ds' (f a) R) : M.Obeys P (ds ++ ds') (x >>= f) R := by
  intro s hs
  cases hg : (M.run ds (M.counters s)).granted with
  | true =>
      obtain ⟨a, s₁, hx, ha, hc, hm⟩ := (h s hs).1 hg
      rw [Meter.run_append_granted _ hg, ← hc]
      unfold Succeeds Fails
      rw [Fallible.bind_of_ok hx]
      refine ⟨fun hg' => ?_, fun hr' => ?_⟩
      · obtain ⟨a', s₂, hx', ha', hc', hm'⟩ := (hf a s₁ ha).1 hg'
        exact ⟨a', s₂, hx', ha', hc', hm.trans M hm'⟩
      · obtain ⟨e, s₂, hx', hm'⟩ := (hf a s₁ ha).2 hr'
        exact ⟨e, s₂, hx', hm.trans M hm'⟩
  | false =>
      obtain ⟨e, s₁, hx, hm⟩ := (h s hs).2 hg
      rw [Meter.run_append_refused _ hg]
      refine ⟨fun hg' => absurd hg' (by rw [hg]; simp), fun _ => ?_⟩
      exact ⟨e, s₁, Fallible.bind_of_error hx, hm⟩

theorem Obeys.mapError {g : ε → ε} (h : M.Obeys P ds x Q) : M.Obeys P ds (x.mapError g) Q := by
  intro s hs
  refine ⟨fun hg => ?_, fun hr => ?_⟩
  · obtain ⟨a, s', hx, hrest⟩ := (h s hs).1 hg
    refine ⟨a, s', ?_, hrest⟩
    unfold Fallible.mapError
    rw [hx]
  · obtain ⟨e, s', hx, hrest⟩ := (h s hs).2 hr
    refine ⟨g e, s', ?_, hrest⟩
    unfold Fallible.mapError
    rw [hx]

theorem Obeys.returns (h : M.Obeys P ds x Q) {s : σ} (hs : P s) : ∃ r, x s = .ok r := by
  cases hg : (M.run ds (M.counters s)).granted with
  | true =>
      obtain ⟨a, s', hx, _⟩ := (h s hs).1 hg
      exact ⟨_, hx⟩
  | false =>
      obtain ⟨e, s', hx, _⟩ := (h s hs).2 hg
      exact ⟨_, hx⟩

/-! ### Programs that keep an invariant

Most parts of a program start from any state in which some invariant holds, and leave it so. 
For those the rules need no states in between. -/

variable {I : σ → Prop} {R : α → Prop} {R' : α' → Prop}

variable (M) in
/-- From every state in `I`, `x` demands `ds`; it returns into `I`, and its value is in `R`. -/
def Keeps (I : σ → Prop) (ds : List δ) (x : Fallible φ ε σ α) (R : α → Prop) : Prop :=
  M.Obeys I ds x fun a s => I s ∧ R a

theorem Keeps.mono {S : α → Prop} (h : M.Keeps I ds x R) (hR : ∀ a, R a → S a) :
    M.Keeps I ds x S :=
  Obeys.mono h (fun _ hs => hs) fun a _ ha => ⟨ha.1, hR a ha.2⟩

theorem Keeps.mapError {g : ε → ε} (h : M.Keeps I ds x R) : M.Keeps I ds (x.mapError g) R :=
  Obeys.mapError h

theorem keeps_pure {a : α} (h : R a) : M.Keeps I [] (pure a : Fallible φ ε σ α) R :=
  obeys_nil fun s hs => ⟨a, s, rfl, ⟨hs, h⟩, rfl, M.same_refl s⟩

theorem keeps_get : M.Keeps I [] (Fallible.get : Fallible φ ε σ σ) I :=
  obeys_nil fun s hs => ⟨s, s, rfl, ⟨hs, hs⟩, rfl, M.same_refl s⟩

theorem keeps_modify {f : σ → σ} (h : ∀ s, I s →
    I (f s) ∧ M.counters (f s) = M.counters s ∧ M.same s (f s)) :
    M.Keeps I [] (Fallible.modify f : Fallible φ ε σ Unit) fun _ => True := by
  refine obeys_nil fun s hs => ?_
  obtain ⟨hI, hcounters, hsame⟩ := h s hs
  exact ⟨(), f s, rfl, ⟨hI, trivial⟩, hcounters, hsame⟩

theorem keeps_ofChecked {y : Except φ α} (h : y.Returns R) :
    M.Keeps I [] (Fallible.ofChecked y : Fallible φ ε σ α) R := by
  obtain ⟨a, rfl, ha⟩ := h
  exact obeys_nil fun s hs => ⟨a, s, rfl, ⟨hs, ha⟩, rfl, M.same_refl s⟩

theorem keeps_ofExcept {y : Except ε α} (h : y.Returns R) :
    M.Keeps I [] (Fallible.ofExcept y : Fallible φ ε σ α) R := by
  obtain ⟨a, rfl, ha⟩ := h
  exact obeys_nil fun s hs => ⟨a, s, rfl, ⟨hs, ha⟩, rfl, M.same_refl s⟩

/-- A demand that changes nothing. -/
theorem keeps_demand {d : δ} (hd : M.changes d = false)
    (hg : ∀ s, I s → ∀ b, M.grant d (M.counters s) = some b →
      ∃ a s', x s = .ok (.ok a, s') ∧ (I s' ∧ R a) ∧ M.counters s' = b ∧ M.same s s')
    (hr : ∀ s, I s → M.grant d (M.counters s) = none →
      ∃ e s', x s = .ok (.error e, s') ∧ M.same s s') :
    M.Keeps I [d] x R := by
  refine obeys_demand (fun s hs b hb => ?_) hr
  obtain ⟨a, s', hx, ha, hc, hsame⟩ := hg s hs b hb
  refine ⟨a, s', hx, ha, hc, ?_⟩
  unfold Moved
  rw [hd]
  exact hsame

/-- A program that keeps an invariant, and one that starts from it. -/
theorem Keeps.bindObeys {f : α → Fallible φ ε σ α'} {Q' : α' → σ → Prop} (h : M.Keeps I ds x R)
    (hf : ∀ a, R a → M.Obeys I ds' (f a) Q') : M.Obeys I (ds ++ ds') (x >>= f) Q' := by
  refine Obeys.bind h fun a s hs => ?_
  exact hf a hs.2 s hs.1

theorem Keeps.bind {f : α → Fallible φ ε σ α'} (h : M.Keeps I ds x R)
    (hf : ∀ a, R a → M.Keeps I ds' (f a) R') : M.Keeps I (ds ++ ds') (x >>= f) R' :=
  h.bindObeys hf

/-- A program that starts by demanding nothing. -/
theorem Keeps.after {f : α → Fallible φ ε σ α'} (h : M.Keeps I [] x R)
    (hf : ∀ a, R a → M.Keeps I ds (f a) R') : M.Keeps I ds (x >>= f) R' :=
  h.bind hf

/-- A program that ends by demanding nothing. -/
theorem Keeps.andThen {f : α → Fallible φ ε σ α'} (h : M.Keeps I ds x R)
    (hf : ∀ a, R a → M.Keeps I [] (f a) R') : M.Keeps I ds (x >>= f) R' := by
  have hbind := h.bind hf
  rwa [List.append_nil] at hbind

/-- **The loop rule**: a loop demands what its turns demand, one after the other. -/
theorem keeps_fold {f : γ → ι → Fallible φ ε σ γ} {demands : ι → List δ} {S : γ → Prop}
    {l : List ι} (h : ∀ i ∈ l, ∀ c, S c → M.Keeps I (demands i) (f c i) S) :
    ∀ {c : γ}, S c → M.Keeps I (l.flatMap demands) (Fallible.fold f l c) S := by
  induction l with
  | nil => exact fun hc => keeps_pure hc
  | cons i rest ih =>
      intro c hc
      rw [List.flatMap_cons]
      unfold Fallible.fold
      refine (h i (by simp) c hc).bind fun c' hc' => ?_
      exact ih (fun j hj => h j (List.mem_cons_of_mem _ hj)) hc'

theorem keeps_each {f : ι → Fallible φ ε σ Unit} {demands : ι → List δ} {l : List ι}
    (h : ∀ i ∈ l, M.Keeps I (demands i) (f i) fun _ => True) :
    M.Keeps I (l.flatMap demands) (Fallible.each l f) fun _ => True :=
  keeps_fold (fun i hi _ _ => h i hi) trivial

end Metering
