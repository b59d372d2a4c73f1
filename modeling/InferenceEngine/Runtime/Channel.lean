/-
Output channels: `runtime/channel.h` and `channel.cpp`.

Each operation is one critical section of the code.  A consumer that would have to wait is
not enabled: `next` and `awaitFinish` answer `none` then.
-/
import InferenceEngine.Runtime.Request

namespace InferenceEngine

/-- `runtime::OutputItem`. -/
structure OutputItem where
  tokenId : Int
  textDelta : Text
  logprobs : Option StepLogprobs
deriving DecidableEq, Repr

/-- `runtime::OutputChannel`. -/
structure OutputChannel where
  queue : List OutputItem
  closed : Bool
  finish : Option FinishInfo
deriving DecidableEq, Repr

namespace OutputChannel

/-- A channel that has been given nothing. -/
def new : OutputChannel := ⟨[], false, none⟩

/-- `OutputChannel::Push`. -/
def push (c : OutputChannel) (item : OutputItem) : Checked OutputChannel := do
  check (!c.closed) "Push on a closed OutputChannel"
  pure { c with queue := c.queue ++ [item] }

/-- `OutputChannel::Close`: whether this call closed it. -/
def close (c : OutputChannel) (info : FinishInfo) : Bool × OutputChannel :=
  if c.closed then (false, c) else (true, { c with closed := true, finish := some info })

/-- `OutputChannel::Next`: `none` while it waits, `some none` once closed and drained. -/
def next (c : OutputChannel) : Option (Option OutputItem × OutputChannel) :=
  match c.queue with
  | item :: rest => some (some item, { c with queue := rest })
  | [] => if c.closed then some (none, c) else none

/-- `OutputChannel::TryNext`. -/
def tryNext (c : OutputChannel) : Option OutputItem × OutputChannel :=
  match c.queue with
  | item :: rest => (some item, { c with queue := rest })
  | [] => (none, c)

/-- `OutputChannel::AwaitFinish`: `none` while it waits. -/
def awaitFinish (c : OutputChannel) : Option (Checked FinishInfo) :=
  if c.closed then
    match c.finish with
    | some info => some (.ok info)
    | none => some (.error (.checkFailed "a closed channel must carry a FinishInfo"))
  else none

end OutputChannel

/-- What the engine thread does to the channel of a request. -/
inductive ChannelOp where
  | push (id : Nat) (item : OutputItem)
  | close (id : Nat) (info : FinishInfo)
deriving DecidableEq, Repr

namespace ChannelOp

/-- The channel an operation is made on. -/
def id : ChannelOp → Nat
  | .push id _ => id
  | .close id _ => id

/-- Whether an operation is a close. -/
def isClose : ChannelOp → Bool
  | .push _ _ => false
  | .close _ _ => true

end ChannelOp

end InferenceEngine
