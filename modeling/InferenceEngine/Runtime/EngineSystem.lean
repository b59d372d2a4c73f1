/-
The engine and everybody who uses it.

Clients submit and cancel, a thread steps the engine and may stop it, and the block pool may
have other users.  A submit or cancel that arrives while a step runs only joins the queue,
which the step has already swapped out, so it may as well arrive after the step.
-/
import InferenceEngine.Model.Contract
import InferenceEngine.Runtime.Engine

namespace InferenceEngine

/-- What can happen to an engine; a submit comes with the seed that would be drawn for it. -/
inductive EngineCall where
  | submit (request : Request) (drawnSeed : Nat)
  | cancel (id : Nat)
  | step
  | stop
  | use (use : PoolUse)

variable {σ α : Type}

/-- One call. -/
def Engine.run (S : Services σ α) (e : Engine σ α) : EngineCall → Checked (Engine σ α)
  | .submit request drawnSeed => pure (e.submit request drawnSeed).2
  | .cancel id => pure (e.cancel id)
  | .step => do
      let (_, e) ← e.step S
      pure e
  | .stop => e.stop S
  | .use u => do
      let shared ← e.loop.shared.use u
      pure { e with loop := { e.loop with shared := shared } }

/-- Every interleaving of calls on a new engine. -/
def engineSystem (S : Services σ α) (state : σ) (pool : BlockPool α) (config : EngineConfig) :
    Transition (Engine σ α) EngineCall where
  init := fun e => Engine.create S state pool config = .ok e
  step := fun e call e' => e.run S call = .ok e'

/-! ### What it means for a run to be safe

Besides that nothing ends the process: what is true of the lists and the channels between two
calls, and of the passes within one. -/

/-- Nothing happens to a channel after it has been closed. -/
def ClosedOnce (ops : List ChannelOp) : Prop :=
  ∀ before id info after, ops = before ++ .close id info :: after → ∀ op ∈ after, op.id ≠ id

namespace EngineLoop

/-- Every live request is in exactly one list, once, in a state that belongs there. -/
structure Placed (e : EngineLoop σ α) : Prop where
  once : (e.waiting ++ e.running).Nodup
  live : ∀ id, id ∈ e.waiting ++ e.running ↔ id ∈ e.requests
  waiting : ∀ id ∈ e.waiting, ∃ entry, e.requests.lookup id = some entry ∧
    (entry.seq.state = .waiting ∨ entry.seq.state = .preempted)
  running : ∀ id ∈ e.running, ∃ entry, e.requests.lookup id = some entry ∧
    entry.seq.state = .running

/-- A member that a pass can be built with. -/
structure Member (e : EngineLoop σ α) (prefill : Bool) (id : Nat) : Prop where
  present : ∃ entry cache, e.requests.lookup id = some entry ∧ entry.seq.state = .running ∧
    entry.seq.cache = some cache ∧ (prefill = false → entry.seq.generatedIds ≠ [])

/-- Every pass of a step is built of members it can be built with. -/
structure PassesBuilt (S : Services σ α) (commands : List Command) (e : EngineLoop σ α) :
    Prop where
  prefill : ∀ e₁ out e₂, retireCancelled S (e.drainCommands commands) = .ok e₁ →
    e₁.beforePasses = .ok (out, e₂) → ∀ id ∈ out.prefill.map (·.id), e₂.Member true id
  decode : ∀ e₁ out e₂ e₃ pass, retireCancelled S (e.drainCommands commands) = .ok e₁ →
    e₁.beforePasses = .ok (out, e₂) → runBatchPass S true (out.prefill.map (·.id)) e₂ = .ok e₃ →
    e₃.decodeMembers out.decode = .ok pass → ∀ id ∈ pass, e₃.Member false id

/-- First come, first served: what waits is in the order of arrival, behind whatever runs. -/
structure FirstCome (e : EngineLoop σ α) : Prop where
  waiting : e.waiting.Pairwise fun id id' => ∀ entry entry', e.requests.lookup id = some entry →
    e.requests.lookup id' = some entry' →
      entry.request.arrivalIndex < entry'.request.arrivalIndex
  running : ∀ id ∈ e.running, ∀ id' ∈ e.waiting, ∀ entry entry',
    e.requests.lookup id = some entry → e.requests.lookup id' = some entry' →
      entry.request.arrivalIndex < entry'.request.arrivalIndex

/-- The counter of every running sequence is the length of its cache. -/
def CountsAgree (e : EngineLoop σ α) : Prop :=
  ∀ id entry, e.requests.lookup id = some entry → entry.seq.state = .running →
    ∃ c, entry.seq.cache = some c ∧ entry.seq.numComputedTokens = c.length

end EngineLoop

/-- A step admits sequences of one token only. -/
def OneTokenPrefills (S : Services σ α) (e : Engine σ α) (call : EngineCall) : Prop :=
  call = .step → ∀ e₁ out, EngineLoop.retireCancelled S (e.loop.drainCommands e.queue.commands)
    = .ok e₁ → e₁.scheduleStep = .ok out → ∀ p ∈ out.prefill, p.numTokens = 1

/-- The plan that the next step makes. -/
def Engine.nextPlan (S : Services σ α) (e : Engine σ α) : Checked SchedulerOutput := do
  let e₁ ← EngineLoop.retireCancelled S (e.loop.drainCommands e.queue.commands)
  e₁.scheduleStep

/-- A step whose plan evicts some sequences and admits others: what the victims give back is
there for whoever waits. -/
def EvictsAndAdmits (S : Services σ α) (e : Engine σ α) (call : EngineCall) : Prop :=
  call = .step ∧ ∃ out, e.nextPlan S = .ok out ∧ out.preempt ≠ [] ∧ out.prefill ≠ []

/-- What is asked of an engine between two calls: whatever is called next, nothing ends the
process. -/
structure Engine.Safe (S : Services σ α) (e : Engine σ α) : Prop where
  runs : ∀ call, ∃ e', e.run S call = .ok e'
  channels : ClosedOnce e.loop.outbox
  placed : e.loop.Placed
  passes : e.loop.PassesBuilt S e.queue.commands

end InferenceEngine
