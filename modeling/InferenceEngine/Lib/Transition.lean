/-
Labelled transition systems and their invariants.

A system is the states it may start in and a step relation.  An invariant is proved by
showing that it holds at the start and that a step from a reachable state keeps it; the
induction over the run is done once, here.
-/
import Mathlib.Init

/-- A system with states `σ` and step labels `ι`. -/
structure Transition (σ ι : Type*) where
  init : σ → Prop
  step : σ → ι → σ → Prop

namespace Transition

variable {σ ι : Type*} {T : Transition σ ι}

/-- Reachable from an initial state. -/
inductive Reachable (T : Transition σ ι) : σ → Prop
  | init {s : σ} (h : T.init s) : Reachable T s
  | step {s s' : σ} {l : ι} (h : Reachable T s) (hstep : T.step s l s') : Reachable T s'

/-- **What holds at the start and survives every step holds of every reachable state.** -/
theorem Reachable.invariant {I : σ → Prop} (h0 : ∀ s, T.init s → I s)
    (hstep : ∀ s l s', T.Reachable s → I s → T.step s l s' → I s') {s : σ}
    (h : T.Reachable s) : I s := by
  induction h with
  | init h => exact h0 _ h
  | step h hs ih => exact hstep _ _ _ h ih hs

/-- Where a list of calls leads, when each call that `next` carries out is a step. -/
theorem Reachable.of_foldlM {next : σ → ι → Option σ}
    (hstep : ∀ s l s', next s l = some s' → T.step s l s') {calls : List ι} {s s' : σ}
    (h : T.Reachable s) (hrun : calls.foldlM next s = some s') : T.Reachable s' := by
  induction calls generalizing s with
  | nil =>
      rw [List.foldlM_nil] at hrun
      cases hrun
      exact h
  | cons call calls ih =>
      rw [List.foldlM_cons] at hrun
      obtain ⟨s₁, hs₁, hrest⟩ := Option.bind_eq_some_iff.mp hrun
      exact ih (h.step (hstep s call s₁ hs₁)) hrest

/-- The system whose steps all meet a condition on the state before the step. -/
def restrict (T : Transition σ ι) (C : σ → ι → Prop) : Transition σ ι where
  init := T.init
  step := fun s l s' => C s l ∧ T.step s l s'

theorem Reachable.of_restrict {C : σ → ι → Prop} {s : σ} (h : (T.restrict C).Reachable s) :
    T.Reachable s := by
  induction h with
  | init h => exact .init h
  | step _ hs ih => exact .step ih hs.2

/-- The calls that meet the condition, carried out. -/
def restricted (next : σ → ι → Option σ) (C : σ → ι → Prop) [∀ s, DecidablePred (C s)] (s : σ)
    (l : ι) : Option σ :=
  if C s l then next s l else none

theorem restricted_step {next : σ → ι → Option σ} {C : σ → ι → Prop} [∀ s, DecidablePred (C s)]
    (hstep : ∀ s l s', next s l = some s' → T.step s l s') {s s' : σ} {l : ι}
    (h : restricted next C s l = some s') : (T.restrict C).step s l s' := by
  unfold restricted at h
  split at h
  · exact ⟨by assumption, hstep s l s' h⟩
  · cases h

/-- The system, from a given state on. -/
def after (T : Transition σ ι) (s : σ) : Transition σ ι where
  init := fun t => t = s
  step := T.step

end Transition
