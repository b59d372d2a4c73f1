/-
Clients and the engine thread: `Engine::Start`, `Stop` and `Run`, and `RequestHandle`.

Every critical section of the code is one event: a submit, a cancel, one operation on a channel.
The engine thread owns its state, so a step comes to two things that the clients can see: it
swaps the command queue out at its start, and after that makes its operations on the channels
one by one, in the order in which the engine lists them.  Clients may act between any two.
-/
import InferenceEngine.Runtime.EngineSystem
import Mathlib.Data.Prod.Lex

namespace InferenceEngine

/-- Where the thread is that owns the engine's state. -/
inductive EngineThread where
  /-- `Start` has not been called. -/
  | unstarted
  /-- At the head of the loop of `Run`. -/
  | looping
  | stepping
  /-- In a step, which will answer whether there is more to do. -/
  | delivering (more : Bool)
  /-- Waiting for a command. -/
  | idle
  /-- `Run` has returned. -/
  | returned
  /-- `Stop` has joined the thread and runs `Shutdown`. -/
  | closing
  /-- `Stop` has returned. -/
  | stopped
deriving DecidableEq, Repr

/-- An engine with its thread and its clients: the operations the thread still has to make on
the channels, the channels, the handles that were given out, and what the consumer of each
channel has received. -/
structure Service (σ α : Type) where
  engine : Engine σ α
  thread : EngineThread
  pending : List ChannelOp
  channels : Nat → OutputChannel
  handles : List Nat
  received : Nat → List OutputItem

/-- What can happen; those from `look` to `wake` are the engine thread's own. -/
inductive ServiceEvent where
  | submit (request : Request) (drawnSeed : Nat)
  | cancel (id : Nat)
  | nextToken (id : Nat)
  | tryNextToken (id : Nat)
  | awaitCompletion (id : Nat)
  | use (use : PoolUse)
  | start
  | requestStop
  | look
  | step
  | deliver
  | wake
  | shutdown

namespace Service

variable {σ α : Type}

/-- A service before any client has called. -/
def new (engine : Engine σ α) : Service σ α where
  engine := engine
  thread := .unstarted
  pending := []
  channels := fun _ => .new
  handles := []
  received := fun _ => []

/-- The channel of a request is replaced. -/
def setChannel (s : Service σ α) (id : Nat) (channel : OutputChannel) : Service σ α :=
  { s with channels := Function.update s.channels id channel }

/-- A consumer takes what its channel answers. -/
def receive (s : Service σ α) (id : Nat) (answer : Option OutputItem × OutputChannel) :
    Service σ α :=
  { s.setChannel id answer.2 with
    received := Function.update s.received id (s.received id ++ answer.1.toList) }

/-- One operation of the engine thread on a channel. -/
def perform (s : Service σ α) : ChannelOp → Checked (Service σ α)
  | .push id item => do
      let channel ← (s.channels id).push item
      pure (s.setChannel id channel)
  | .close id info => pure (s.setChannel id ((s.channels id).close info).2)

/-- The engine after a step or a shutdown, whose operations on the channels are still to come. -/
def resume (s : Service σ α) (thread : EngineThread) (engine : Engine σ α) : Service σ α :=
  { s with
    engine := engine
    thread := thread
    pending := engine.loop.outbox.drop s.engine.loop.outbox.length }

/-- No thread runs: `thread_.joinable()` is false, or a join returns at once. -/
def threadless (s : Service σ α) : Bool :=
  s.thread = .unstarted || s.thread = .returned || s.thread = .stopped

/-- What the thread does with the next of its operations, or after the last. -/
def deliver (s : Service σ α) : Option (Checked (Service σ α)) :=
  match s.pending with
  | op :: rest =>
      if s.thread = .closing || s.thread = .delivering true || s.thread = .delivering false then
        some do
          let s ← s.perform op
          pure { s with pending := rest }
      else none
  | [] =>
      match s.thread with
      | .delivering true => some (pure { s with thread := .looping })
      | .delivering false => some (pure { s with thread := .idle })
      | .closing => some (pure { s with thread := .stopped })
      | _ => none

/-- One event: `none` for one that has to wait, or cannot happen here. -/
def act (S : Services σ α) (s : Service σ α) : ServiceEvent → Option (Checked (Service σ α))
  | .submit request drawnSeed =>
      let (id, engine) := s.engine.submit request drawnSeed
      let handle := match id with
        | .ok id => [id]
        | .error _ => []
      some (pure { s with engine := engine, handles := s.handles ++ handle })
  | .cancel id => some (pure { s with engine := s.engine.cancel id })
  | .nextToken id =>
      if id ∈ s.handles then
        match (s.channels id).next with
        | some answer => some (pure (s.receive id answer))
        | none => none
      else none
  | .tryNextToken id =>
      if id ∈ s.handles then some (pure (s.receive id (s.channels id).tryNext)) else none
  | .awaitCompletion id =>
      if id ∈ s.handles then
        match (s.channels id).awaitFinish with
        | some answer => some do
            let _ ← answer
            pure s
        | none => none
      else none
  | .use u => some do
      let shared ← s.engine.loop.shared.use u
      pure { s with
        engine := { s.engine with loop := { s.engine.loop with shared := shared } } }
  | .start => some do
      check (s.thread = .unstarted || s.thread = .stopped)
        "Engine::Start called on a running engine"
      pure { s with thread := .looping }
  | .requestStop =>
      some (pure { s with
        engine := { s.engine with queue := { s.engine.queue with stopRequested := true } } })
  | .look =>
      if s.thread = .looping then
        some (pure { s with
          thread := if s.engine.queue.stopRequested then .returned else .stepping })
      else none
  | .step =>
      if s.thread = .stepping then some do
        let (more, engine) ← s.engine.step S
        pure (s.resume (.delivering more) engine)
      else none
  | .deliver => s.deliver
  | .wake =>
      if s.thread = .idle ∧ (s.engine.queue.commands ≠ [] ∨ s.engine.queue.stopRequested) then
        some (pure { s with
          thread := if s.engine.queue.stopRequested then .returned else .looping })
      else none
  | .shutdown =>
      if s.engine.queue.stopRequested && s.threadless then some do
        let engine ← s.engine.stop S
        pure (s.resume .closing engine)
      else none

/-! ### Stopping

The thread has some phases and some operations left before `Stop` returns.  The countdown orders
these pairs lexicographically. -/

/-- How many phases lie between a thread and the end of `Stop`. -/
def phasesLeft : EngineThread → Nat
  | .unstarted => 6
  | .stepping => 5
  | .delivering _ => 4
  | .looping | .idle => 3
  | .returned => 2
  | .closing => 1
  | .stopped => 0

/-- The phases left, and what is left of this one. -/
def countdown (s : Service σ α) : ℕ ×ₗ ℕ := toLex (phasesLeft s.thread, s.pending.length)

end Service

/-- The events that are the thread's own, or those of the caller of `Stop`. -/
def ServiceEvent.ofThread : ServiceEvent → Bool
  | .look | .step | .deliver | .wake | .shutdown => true
  | _ => false

/-- Every interleaving of clients with the engine thread. -/
def serviceSystem {σ α : Type} (S : Services σ α) (state : σ) (pool : BlockPool α)
    (config : EngineConfig) : Transition (Service σ α) ServiceEvent where
  init := fun s => ∃ engine, Engine.create S state pool config = .ok engine ∧ s = .new engine
  step := fun s event s' => s.act S event = some (.ok s')

/-! ### What the protocol promises

All that is promised is about the operations that have been made on the channels, in their
order. -/

/-- The items pushed on a channel, in order. -/
def pushed (ops : List ChannelOp) (id : Nat) : List OutputItem :=
  ops.filterMap fun
    | .push k item => if k = id then some item else none
    | .close _ _ => none

/-- The descriptors a channel was closed with. -/
def finishes (ops : List ChannelOp) (id : Nat) : List FinishInfo :=
  ops.filterMap fun
    | .push _ _ => none
    | .close k info => if k = id then some info else none

namespace Service

variable {σ α : Type}

/-- The operations that have been made on the channels. -/
def performed (s : Service σ α) : List ChannelOp :=
  s.engine.loop.outbox.take (s.engine.loop.outbox.length - s.pending.length)

/-- What is asked of a service in any state. -/
structure Protocol (S : Services σ α) (s : Service σ α) : Prop where
  /-- Whatever can happen next does not end the process. -/
  returns : ∀ event result, s.act S event = some result →
    (event = .start → s.thread = .unstarted ∨ s.thread = .stopped) → ∃ s', result = .ok s'
  /-- Handles are numbered as they are given out. -/
  handles : s.handles = List.range' 1 s.handles.length
  /-- The arrival index of a request is its position among the submits that were accepted. -/
  arrivals : ∀ id entry, s.engine.loop.requests.lookup id = some entry →
    s.handles[entry.request.arrivalIndex]? = some id
  queued : ∀ entry, .submit entry ∈ s.engine.queue.commands →
    s.handles[entry.request.arrivalIndex]? = some entry.request.id
  /-- A consumer gets the items pushed for it, each once and in order. -/
  fifo : ∀ id, pushed s.performed id = s.received id ++ (s.channels id).queue
  /-- A channel is closed once at most. -/
  closes : ∀ id, (finishes s.engine.loop.outbox id).length ≤ 1
  /-- `AwaitFinish` answers with the descriptor of that close, and not before it. -/
  finish : ∀ id info, (s.channels id).awaitFinish = some (.ok info) ↔
    finishes s.performed id = [info]
  /-- `Next` says that a channel has ended only after its close and its last item. -/
  ended : ∀ id channel, (s.channels id).next = some (none, channel) →
    (∃ info, finishes s.performed id = [info]) ∧ s.received id = pushed s.engine.loop.outbox id
  /-- A handle waits in the queue, is live, or has been closed. -/
  kept : ∀ id ∈ s.handles, id ∈ s.engine.loop.requests ∨
    (∃ entry, .submit entry ∈ s.engine.queue.commands ∧ entry.request.id = id) ∨
      ∃ info, finishes s.engine.loop.outbox id = [info]
  /-- After `Stop` has returned every channel is closed. -/
  stopped : s.thread = .stopped → ∀ id ∈ s.handles, (s.channels id).closed = true

/-- What is asked of a service that has been told to stop. -/
structure Stopping (S : Services σ α) (s : Service σ α) : Prop where
  /-- The thread never waits for a client. -/
  goes : ∃ event s', event.ofThread = true ∧ s.act S event = some (.ok s')
  /-- Whatever it does, it comes closer to its end. -/
  lowers : ∀ event s', event.ofThread = true → s.act S event = some (.ok s') →
    s'.countdown < s.countdown
  /-- No client holds it up. -/
  keeps : ∀ event s', s.act S event = some (.ok s') →
    s'.engine.queue.stopRequested = true ∧ s'.countdown ≤ s.countdown

end Service

end InferenceEngine
