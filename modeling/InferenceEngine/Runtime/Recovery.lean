/-
The refusals of a recovery: the moments at which `RecoverForwardFailure` has to choose.

A decode pass whose batched forward has failed is run again member by member.  A member is
refused when the pool has no block for its token; the recovery then evicts a running sequence
and tries the member again, or gives the member up.  What is named here is every state in
which that choice is made, in the next step of an engine, and what the choice should be.
-/
import InferenceEngine.Runtime.EngineSystem

namespace InferenceEngine

namespace EngineLoop

variable {σ α : Type}

/-- The decode pass of the next step, and the state it is built in. -/
structure DecodePass (S : Services σ α) (commands : List Command) (e : EngineLoop σ α)
    (pass : List Nat) (e' : EngineLoop σ α) : Prop where
  reached : ∃ e₁ out e₂, retireCancelled S (e.drainCommands commands) = .ok e₁ ∧
    e₁.beforePasses = .ok (out, e₂) ∧ runBatchPass S true (out.prefill.map (·.id)) e₂ = .ok e' ∧
    e'.decodeMembers out.decode = .ok pass

/-- The turn of a member in the recovery of a decode pass: the members before it have had
theirs, and its cache has been cut back. -/
structure RecoveryTurn (S : Services σ α) (pass : List Nat) (e : EngineLoop σ α) (id : Nat)
    (e' : EngineLoop σ α) : Prop where
  reached : ∃ seqs inputs preLen status e₁ before after e₂ entry cache cut,
    pass.mapM (e.buildPassInput false) = .ok seqs ∧
    BatchAssembler.flatten true seqs = .ok inputs ∧
    pass.mapM e.cacheLength = .ok preLen ∧
    e.forward S pass inputs.makeForwardRequest = .ok (.error status, e₁) ∧
    pass = before ++ id :: after ∧
    before.foldlM (recoverOne S false pass preLen) e₁ = .ok e₂ ∧
    e₂.requests.lookup id = some entry ∧ entry.seq.state = .running ∧
    entry.seq.cache = some cache ∧
    cache.truncate (preForwardLength pass preLen id) e₂.shared.pool = .ok cut ∧
    e' = { e₂ with shared := { e₂.shared with pool := cut.2.2 } }.setCache id cut.2.1

/-- The refusals of a member, from its first try on. -/
inductive RefusedFrom (S : Services σ α) (id : Nat) : EngineLoop σ α → EngineLoop σ α → Prop
  | refused {e e' : EngineLoop σ α} (h : e.executeAndDeliver S false id = .ok (false, e')) :
      RefusedFrom S id e e'
  | again {e e₁ e₂ e' : EngineLoop σ α} {victim : Nat}
      (h : e.executeAndDeliver S false id = .ok (false, e₁))
      (hvictim : e₁.pickPreemptionVictim id = .ok victim) (hne : victim ≠ 0)
      (hevict : e₁.preemptSequence victim = .ok e₂) (hrest : RefusedFrom S id e₂ e') :
      RefusedFrom S id e e'

/-- A member stands refused, at some moment of the next step. -/
structure Refused (S : Services σ α) (commands : List Command) (e : EngineLoop σ α) (id : Nat)
    (e' : EngineLoop σ α) : Prop where
  reached : ∃ pass e₁ e₂, DecodePass S commands e pass e₁ ∧ RecoveryTurn S pass e₁ id e₂ ∧
    RefusedFrom S id e₂ e'

/-! ### The choice

What is chosen, and what the order of arrival would have chosen. -/

/-- A running sequence. -/
def Runs (e : EngineLoop σ α) (id : Nat) : Prop :=
  ∃ entry, e.requests.lookup id = some entry ∧ entry.seq.state = .running

/-- A running sequence that arrived later than another one. -/
def Younger (e : EngineLoop σ α) (id v : Nat) : Prop :=
  ∃ entry entryᵥ, e.requests.lookup id = some entry ∧ e.requests.lookup v = some entryᵥ ∧
    entryᵥ.seq.state = .running ∧ entry.request.arrivalIndex < entryᵥ.request.arrivalIndex

/-- A refused member is to be tried again once `v` is evicted. -/
def Evicts (e : EngineLoop σ α) (id v : Nat) : Prop := e.pickPreemptionVictim id = .ok v ∧ v ≠ 0

/-- A refused member is to fail. -/
def GivesUp (e : EngineLoop σ α) (id : Nat) : Prop := e.pickPreemptionVictim id = .ok 0

/-- The choice respects the order of arrival: whoever is evicted is younger than the member it
is evicted for, and the member is given up exactly when nobody younger runs. -/
structure RespectsArrival (e : EngineLoop σ α) (id : Nat) : Prop where
  victim : ∀ v, e.Evicts id v → e.Younger id v
  last : e.GivesUp id ↔ ∀ v, ¬e.Younger id v

end EngineLoop

end InferenceEngine
