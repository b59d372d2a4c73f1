/-
Clients, their channels and the engine thread.

The engine lists what it does to the channels; the thread makes those operations one by one.
So the state of a channel, with what its consumer has taken from it, is at any moment a function
of the operations made so far: `Follows`.  That nothing is listed after a close is the engine's
own invariant, and that every handle waits, lives or is closed is kept by every call on it.
-/
import InferenceEngine.Proofs.EngineChannels
import InferenceEngine.Runtime.Clients

namespace InferenceEngine

open Except EngineLoop

/-! ### Logs of operations

A log is the pushes and closes of all channels.  What concerns one of them is found by
filtering, and nothing follows a close. -/

variable {ops ops' : List ChannelOp} {op : ChannelOp} {id : Nat} {item : OutputItem}
  {info : FinishInfo}

@[simp] theorem pushed_append (ops ops' : List ChannelOp) (id : Nat) :
    pushed (ops ++ ops') id = pushed ops id ++ pushed ops' id := List.filterMap_append

@[simp] theorem finishes_append (ops ops' : List ChannelOp) (id : Nat) :
    finishes (ops ++ ops') id = finishes ops id ++ finishes ops' id := List.filterMap_append

@[simp] theorem pushed_push (id : Nat) (item : OutputItem) :
    pushed [.push id item] id = [item] := by
  simp [pushed]

@[simp] theorem pushed_close (id k : Nat) (info : FinishInfo) :
    pushed [.close k info] id = [] := rfl

@[simp] theorem finishes_push (id k : Nat) (item : OutputItem) :
    finishes [.push k item] id = [] := rfl

@[simp] theorem finishes_close (id : Nat) (info : FinishInfo) :
    finishes [.close id info] id = [info] := by
  simp [finishes]

theorem pushed_of_ne (h : op.id ≠ id) : pushed [op] id = [] := by
  cases op with
  | push k item => exact List.filterMap_cons_none (if_neg h)
  | close k info => rfl

theorem finishes_of_ne (h : op.id ≠ id) : finishes [op] id = [] := by
  cases op with
  | push k item => rfl
  | close k info => exact List.filterMap_cons_none (if_neg h)

theorem mem_finishes : info ∈ finishes ops id ↔ .close id info ∈ ops := by
  unfold finishes
  rw [List.mem_filterMap]
  constructor
  · rintro ⟨op, hop, hinfo⟩
    cases op with
    | push k item => cases hinfo
    | close k info' =>
        dsimp only at hinfo
        by_cases hk : k = id
        · rw [if_pos hk] at hinfo
          cases hinfo
          rw [← hk]
          exact hop
        · rw [if_neg hk] at hinfo
          cases hinfo
  · intro hop
    exact ⟨.close id info, hop, if_pos rfl⟩

theorem finishes_eq_nil (h : ∀ op ∈ ops, op.id ≠ id) : finishes ops id = [] := by
  refine List.eq_nil_iff_forall_not_mem.mpr fun info hinfo => ?_
  exact h _ (mem_finishes.mp hinfo) rfl

theorem pushed_eq_nil (h : ∀ op ∈ ops, op.id ≠ id) : pushed ops id = [] := by
  induction ops with
  | nil => rfl
  | cons op rest ih =>
      rw [List.forall_mem_cons] at h
      rw [← List.singleton_append, pushed_append, pushed_of_ne h.1, ih h.2, List.nil_append]

/-- What is pushed on a channel and what it is closed with are read off its own operations. -/
theorem pushed_filter (ops : List ChannelOp) (id : Nat) :
    pushed (ops.filter (·.id = id)) id = pushed ops id := by
  induction ops with
  | nil => rfl
  | cons op rest ih =>
      rw [← List.singleton_append, List.filter_append, pushed_append, pushed_append, ih]
      by_cases hid : op.id = id
      · simp [hid]
      · rw [pushed_of_ne hid]
        simp [hid, pushed]

theorem finishes_filter (ops : List ChannelOp) (id : Nat) :
    finishes (ops.filter (·.id = id)) id = finishes ops id := by
  induction ops with
  | nil => rfl
  | cons op rest ih =>
      rw [← List.singleton_append, List.filter_append, finishes_append, finishes_append, ih]
      by_cases hid : op.id = id
      · simp [hid]
      · rw [finishes_of_ne hid]
        simp [hid, finishes]

theorem ClosedOnce.tail (h : ClosedOnce (op :: ops)) : ClosedOnce ops :=
  fun before id info after heq => h (op :: before) id info after (by rw [heq]; rfl)

/-- **A channel is closed once at most.** -/
theorem ClosedOnce.finishes_le (h : ClosedOnce ops) (id : Nat) : (finishes ops id).length ≤ 1 := by
  induction ops with
  | nil => exact Nat.zero_le _
  | cons op rest ih =>
      rw [← List.singleton_append, finishes_append, List.length_append]
      by_cases hid : op.id = id
      · cases op with
        | push k item => simpa using ih h.tail
        | close k info =>
            -- nothing on this channel follows its close
            have hrest := h [] k info rest rfl
            have hk : k = id := hid
            rw [hk] at hrest ⊢
            rw [finishes_eq_nil hrest]
            simp
      · rw [finishes_of_ne hid]
        simpa using ih h.tail

/-- What is done to a channel is done before it is closed. -/
theorem ClosedOnce.open_before (h : ClosedOnce (ops ++ op :: ops')) : finishes ops op.id = [] := by
  refine List.eq_nil_iff_forall_not_mem.mpr fun info hinfo => ?_
  obtain ⟨before, after, rfl⟩ := List.append_of_mem (mem_finishes.mp hinfo)
  refine h before op.id info (after ++ op :: ops') (by simp) op ?_ rfl
  exact List.mem_append_right _ List.mem_cons_self

/-- What is done to a channel before it is seen to be closed is all that is ever done to it. -/
theorem ClosedOnce.pushed_all (h : ClosedOnce (ops ++ ops')) (hc : finishes ops id ≠ []) :
    pushed (ops ++ ops') id = pushed ops id := by
  obtain ⟨info, hinfo⟩ := List.exists_mem_of_ne_nil _ hc
  obtain ⟨before, after, rfl⟩ := List.append_of_mem (mem_finishes.mp hinfo)
  have hafter := h before id info (after ++ ops') (by simp)
  rw [pushed_append, pushed_eq_nil fun op hop => hafter op (List.mem_append_right _ hop),
    List.append_nil]

namespace OutputChannel

/-! ### One channel

The state of a channel, with what has been taken from it, is a function of the operations made
on it.  A consumer that takes an item moves it from the one to the other. -/

/-- A channel on which some operations have been made, and some items taken from it. -/
structure Follows (ops : List ChannelOp) (id : Nat) (got : List OutputItem) (c : OutputChannel) :
    Prop where
  items : pushed ops id = got ++ c.queue
  finish : finishes ops id = c.finish.toList
  closed : c.closed = c.finish.isSome

variable {c c' : OutputChannel} {got : List OutputItem}

theorem Follows.init (id : Nat) : Follows [] id [] .new := ⟨rfl, rfl, rfl⟩

theorem Follows.open_iff (h : Follows ops id got c) : c.finish = none ↔ finishes ops id = [] := by
  rw [h.finish]
  cases c.finish <;> simp

theorem Follows.push (h : Follows ops id got c) (hopen : finishes ops id = []) (item : OutputItem) :
    (c.push item).Returns (Follows (ops ++ [.push id item]) id got) := by
  have hclosed : c.closed = false := by
    rw [h.closed, h.open_iff.mpr hopen]
    rfl
  refine ⟨{ c with queue := c.queue ++ [item] }, ?_, ?_, ?_, h.closed⟩
  · unfold OutputChannel.push
    rw [hclosed]
    rfl
  · rw [pushed_append, pushed_push, h.items, List.append_assoc]
  · rw [finishes_append, finishes_push, List.append_nil]
    exact h.finish

theorem Follows.close (h : Follows ops id got c) (hopen : finishes ops id = [])
    (info : FinishInfo) :
    Follows (ops ++ [.close id info]) id got (c.close info).2 := by
  have hclosed : c.closed = false := by
    rw [h.closed, h.open_iff.mpr hopen]
    rfl
  unfold OutputChannel.close
  rw [hclosed, if_neg Bool.false_ne_true]
  refine ⟨?_, ?_, rfl⟩
  · rw [pushed_append, pushed_close, List.append_nil]
    exact h.items
  · rw [finishes_append, finishes_close, hopen]
    rfl

theorem Follows.other (h : Follows ops id got c) (hne : op.id ≠ id) :
    Follows (ops ++ [op]) id got c := by
  refine ⟨?_, ?_, h.closed⟩
  · rw [pushed_append, pushed_of_ne hne, List.append_nil]
    exact h.items
  · rw [finishes_append, finishes_of_ne hne, List.append_nil]
    exact h.finish

theorem Follows.tryNext (h : Follows ops id got c) :
    Follows ops id (got ++ c.tryNext.1.toList) c.tryNext.2 := by
  have hitems := h.items
  unfold OutputChannel.tryNext
  cases hq : c.queue with
  | nil =>
      rw [hq] at hitems
      refine ⟨?_, h.finish, h.closed⟩
      rw [hq]
      simpa using hitems
  | cons item rest =>
      rw [hq] at hitems
      refine ⟨?_, h.finish, h.closed⟩
      simpa using hitems

/-- What `Next` answers when it need not wait is what `TryNext` answers. -/
theorem next_eq {answer : Option OutputItem × OutputChannel} (h : c.next = some answer) :
    answer = c.tryNext := by
  unfold OutputChannel.next at h
  unfold OutputChannel.tryNext
  cases hq : c.queue with
  | nil =>
      rw [hq] at h
      by_cases hc : c.closed = true
      · simpa [hc] using h.symm
      · simp [hc] at h
  | cons item rest =>
      rw [hq] at h
      simpa using h.symm

/-- `Next` ends on a channel that is closed and drained. -/
theorem next_ended (h : c.next = some (none, c')) : c.queue = [] ∧ c.closed = true := by
  unfold OutputChannel.next at h
  cases hq : c.queue with
  | nil =>
      rw [hq] at h
      by_cases hc : c.closed = true
      · exact ⟨rfl, hc⟩
      · simp [hc] at h
  | cons item rest =>
      rw [hq] at h
      simp at h

theorem Follows.awaitFinish_iff (h : Follows ops id got c) :
    c.awaitFinish = some (.ok info) ↔ finishes ops id = [info] := by
  unfold OutputChannel.awaitFinish
  rw [h.closed, h.finish]
  cases c.finish <;> simp

/-- `AwaitFinish` finds the descriptor. -/
theorem Follows.awaitFinish_returns (h : Follows ops id got c) {answer : Checked FinishInfo}
    (ha : c.awaitFinish = some answer) : ∃ info, answer = .ok info := by
  unfold OutputChannel.awaitFinish at ha
  rw [h.closed] at ha
  cases hf : c.finish with
  | none => simp [hf] at ha
  | some info =>
      simp only [hf, Option.isSome_some, if_true, Option.some.injEq] at ha
      exact ⟨info, ha.symm⟩

end OutputChannel

/-! ### Calls on the engine

Handles are numbered as they are given out.  A request behind a handle waits in the queue, is
live, or has been closed, and no call loses it. -/

namespace Engine

variable {σ α : Type} {S : Services σ α} {e : Engine σ α}

/-- An engine at rest that has lost no request and numbers them as they arrive. -/
structure Served (S : Services σ α) (e : Engine σ α) : Prop extends e.AtRest S where
  counted : e.queue.nextArrival + 1 = e.queue.nextId
  arriving : ∀ entry, .submit entry ∈ e.queue.commands →
    entry.request.arrivalIndex + 1 = entry.request.id
  arrived : ∀ id entry, e.loop.requests.lookup id = some entry →
    entry.request.arrivalIndex + 1 = id
  kept : ∀ id, 0 < id → id < e.queue.nextId →
    id ∈ e.loop.requests ∨ id ∈ submitted e.queue.commands ∨ e.loop.closed id = true

theorem submitted_append (commands : List Command) (entry : Entry) :
    submitted (commands ++ [.submit entry]) = submitted commands ++ [entry.request.id] := by
  simp [submitted]

theorem submitted_cancel (commands : List Command) (id : Nat) :
    submitted (commands ++ [.cancel id]) = submitted commands := by
  simp [submitted]

/-- A submit that is accepted takes the next number. -/
theorem Served.submit (h : e.Served S) (request : Request) (drawnSeed : Nat) :
    (∃ status, e.submit request drawnSeed = (.error status, e)) ∨
      ∃ entry, e.submit request drawnSeed = (.ok e.queue.nextId, { e with
        queue := { e.queue with
          commands := e.queue.commands ++ [.submit entry]
          nextId := e.queue.nextId + 1
          nextArrival := e.queue.nextArrival + 1 } }) ∧
        e.queue.stopRequested = false ∧ Served S (e.submit request drawnSeed).2 := by
  have hrest := h.toAtRest.submit request drawnSeed
  revert hrest
  unfold Engine.submit
  cases hseq : validateSubmit e.loop request drawnSeed with
  | error status => exact fun _ => Or.inl ⟨status, rfl⟩
  | ok seq =>
      simp only
      by_cases hstop : e.queue.stopRequested = true
      · rw [if_pos hstop]
        exact fun _ => Or.inl ⟨_, rfl⟩
      · rw [if_neg hstop]
        refine fun hrest => Or.inr ⟨_, rfl, by simpa using hstop, hrest, ?_, ?_, h.arrived, ?_⟩
        · exact congrArg (· + 1) h.counted
        · intro entry hin
          rcases List.mem_append.mp hin with hin | hin
          · exact h.arriving entry hin
          · cases List.mem_singleton.mp hin
            exact h.counted
        · intro id hpos hlt
          rcases Nat.lt_succ_iff_lt_or_eq.mp hlt with hlt | rfl
          · rcases h.kept id hpos hlt with hid | hid | hid
            · exact Or.inl hid
            · refine Or.inr (Or.inl ?_)
              rw [submitted_append]
              exact List.mem_append_left _ hid
            · exact Or.inr (Or.inr hid)
          · refine Or.inr (Or.inl ?_)
            rw [submitted_append]
            exact List.mem_append_right _ (List.mem_singleton.mpr rfl)

theorem Served.cancel (h : e.Served S) (id : Nat) : (e.cancel id).Served S := by
  refine ⟨h.toAtRest.cancel id, h.counted, fun entry hin => ?_, h.arrived, fun id' hpos hlt => ?_⟩
  · refine h.arriving entry ((List.mem_append.mp hin).resolve_right fun hc => ?_)
    cases List.mem_singleton.mp hc
  · show _ ∨ id' ∈ submitted (e.queue.commands ++ [.cancel id]) ∨ _
    rw [submitted_cancel]
    exact h.kept id' hpos hlt

/-- The stop flag concerns submits only. -/
theorem Served.requestStop (h : e.Served S) :
    Served S { e with queue := { e.queue with stopRequested := true } } :=
  ⟨⟨⟨h.listed, h.queued, h.geom, h.nextId, h.below⟩, h.settled, h.prompted, h.asked, h.posted⟩,
    h.counted, h.arriving, h.arrived, h.kept⟩

theorem create_new {state : σ} {pool : BlockPool α} {config : EngineConfig}
    (h : Engine.create S state pool config = .ok e) :
    e.queue.nextArrival = 0 ∧ e.loop.outbox = [] := by
  unfold Engine.create at h
  simp only [bind, Except.bind] at h
  split at h
  · cases h
  · split at h
    · cases h
    · split at h
      · cases h
      · split at h
        · cases h
        · split at h
          · cases h
          · cases h
            exact ⟨rfl, rfl⟩

variable [Zero α]

theorem Served.create {geom : CacheGeometry} {blockSize numBlocks : Int} {state : σ}
    {pool : BlockPool α} {config : EngineConfig}
    (hpool : BlockPool.create geom blockSize numBlocks = .ok pool) (hids : numBlocks ≤ 2 ^ 31)
    (h : Engine.create S state pool config = .ok e) : e.Served S := by
  have hrest := AtRest.create hpool hids h
  obtain ⟨_, _, hreq, _, _, hcmd, hnext⟩ := create_ensures S state pool config e h
  refine ⟨hrest, by rw [(create_new h).1, hnext], fun entry hin => ?_, fun id entry hl => ?_,
    fun id hpos hlt => ?_⟩
  · rw [hcmd] at hin
    exact absurd hin List.not_mem_nil
  · rw [hreq] at hl
    exact absurd (IdMap.mem_of_lookup hl) (AList.notMem_empty id)
  · rw [hnext] at hlt
    omega

/-- What a call of the engine thread leaves. -/
structure Called (S : Services σ α) (e e' : Engine σ α) : Prop extends Served S e' where
  ids : e'.queue.nextId = e.queue.nextId
  swapped : e'.queue.commands = []
  posts : ∃ ops, e'.loop.outbox = e.loop.outbox ++ ops

/-- **A step loses no request.** -/
theorem Served.step (hS : S.model.Shaped) (h : e.Served S) :
    (e.step S).Returns fun r => Called S e r.2 ∧
      r.2.queue.stopRequested = e.queue.stopRequested := by
  obtain ⟨⟨more, loop⟩, hr, hrest⟩ := h.toAtRest.step hS
  have hframe : Framed (e.loop.drainCommands e.queue.commands) loop :=
    step_framed S _ _ _ hr
  have htracked : Tracked (e.loop.drainCommands e.queue.commands) loop :=
    step_tracked S _ _ _ hr
  refine ⟨(more, ⟨{ e.queue with commands := [] }, loop⟩), ?_,
    ⟨⟨hrest, h.counted, fun entry hin => absurd hin List.not_mem_nil, fun id entry hl => ?_,
      fun id hpos hlt => ?_⟩, rfl, rfl, ?_⟩, rfl⟩
  · unfold Engine.step
    rw [hr]
    rfl
  · obtain ⟨entry₁, hl₁, hr₁⟩ := hframe.request id entry hl
    rw [hr₁]
    rcases drainCommands_request _ _ id entry₁ hl₁ with ⟨entry₂, hl₂, hr₂⟩ | ⟨entry₂, hin, hid, hr₂⟩
    · rw [hr₂]
      exact h.arrived id entry₂ hl₂
    · rw [hr₂, hid]
      exact h.arriving entry₂ hin
  · rcases h.kept id hpos hlt with hid | hid | hid
    · exact (htracked.tracked id (mem_drained _ _ (Or.inl hid))).imp_right Or.inr
    · exact (htracked.tracked id (mem_drained _ _ (Or.inr hid))).imp_right Or.inr
    · refine Or.inr (Or.inr (hframe.closed ?_))
      unfold EngineLoop.closed
      rw [drainCommands_outbox]
      exact hid
  · obtain ⟨ops, hout, _⟩ := hframe.posts
    rw [drainCommands_outbox] at hout
    exact ⟨ops, hout⟩

/-- **A shutdown closes every channel.** -/
theorem Served.stop (hS : S.model.Shaped) (h : e.Served S) :
    (e.stop S).Returns fun e' => Called S e e' ∧ e'.queue.stopRequested = true ∧
      ∀ id, id ∉ e'.loop.requests := by
  obtain ⟨loop, hr, _, hclosed⟩ := h.settled.shutdown S h.queued h.open_of_submitted
  obtain ⟨hempty, _⟩ := shutdown_empty S _ _ loop hr
  obtain ⟨ops, hout, _⟩ := shutdown_posts S _ _ loop hr
  have hrun : e.stop S
      = .ok ⟨{ e.queue with commands := [], stopRequested := true }, loop⟩ := by
    unfold Engine.stop
    rw [hr]
    rfl
  refine ⟨_, hrun, ⟨⟨(h.toAtRest.run hS .stop).of_eq hrun, h.counted,
    fun entry hin => absurd hin List.not_mem_nil,
    fun id entry hl => absurd (IdMap.mem_of_lookup hl) (hempty id), fun id hpos hlt => ?_⟩,
    rfl, rfl, ops, hout⟩, rfl, hempty⟩
  refine Or.inr (Or.inr ?_)
  rcases h.kept id hpos hlt with hid | hid | hid
  · exact hclosed id (Or.inl hid)
  · exact hclosed id (Or.inr hid)
  · obtain ⟨info, hin⟩ := closed_iff.mp hid
    refine closed_iff.mpr ⟨info, ?_⟩
    rw [hout]
    exact List.mem_append_left _ hin

theorem Served.use (hS : S.model.Shaped) (h : e.Served S) (u : PoolUse) :
    (e.loop.shared.use u).Returns fun shared =>
      Served S { e with loop := { e.loop with shared := shared } } := by
  obtain ⟨shared, hshared, _⟩ := h.settled.sound.use u
  have hrun : e.run S (.use u) = .ok { e with loop := { e.loop with shared := shared } } := by
    show (e.loop.shared.use u >>= _) = _
    rw [hshared]
    rfl
  exact ⟨shared, hshared, (h.toAtRest.run hS (.use u)).of_eq hrun, h.counted, h.arriving,
    h.arrived, h.kept⟩

/-- Every call but one of another user of the pool. -/
theorem Served.run (hS : S.model.Shaped) (h : e.Served S) (hcall : ∀ use, call ≠ .use use)
    (hrun : e.run S call = .ok e') : e'.Served S := by
  cases call with
  | submit request drawnSeed =>
      cases hrun
      rcases h.submit request drawnSeed with ⟨status, heq⟩ | ⟨entry, _, _, hserved⟩
      · rw [heq]
        exact h
      · exact hserved
  | cancel id =>
      cases hrun
      exact h.cancel id
  | step =>
      obtain ⟨⟨more, e₁⟩, hstep, heq⟩ := bind_eq_ok.mp hrun
      cases heq
      exact ((h.step hS).of_eq hstep).1.toServed
  | stop => exact ((h.stop hS).of_eq hrun).1.toServed
  | use u => exact absurd rfl (hcall u)

end Engine

end InferenceEngine
