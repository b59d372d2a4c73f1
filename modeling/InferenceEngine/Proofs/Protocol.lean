/-
The protocol between clients and the engine, over every interleaving.

The engine's log of channel operations is split at the point the thread has reached.  Up to
there every channel is what the operations make of it, whatever its consumer has taken; beyond
there the operations wait, and only a thread that is in a step or in a shutdown has any.  Each
event moves that point, or takes from a channel, or is a call on the engine.

Two promises are about what comes later.  A service that has been told to stop stops: the phases
its thread goes through are in order, and clients cannot take it back.  A request that is
cancelled while it is live is closed as cancelled by the step that drains the cancel, and its
channel is left alone from there on.
-/
import InferenceEngine.Proofs.Clients

namespace InferenceEngine

open Except EngineLoop

namespace Service

variable {σ α : Type} {S : Services σ α} {s : Service σ α} {id : Nat}

/-- What holds of a service between two events. -/
structure Consistent (S : Services σ α) (s : Service σ α) : Prop where
  served : s.engine.Served S
  handles : s.handles = List.range' 1 (s.engine.queue.nextId - 1)
  follows : ∃ done, s.engine.loop.outbox = done ++ s.pending ∧
    ∀ id, OutputChannel.Follows done id (s.received id) (s.channels id)
  quiet : s.pending ≠ [] → s.thread = .closing ∨ ∃ more, s.thread = .delivering more
  shut : s.thread = .closing ∨ s.thread = .stopped → s.engine.queue.stopRequested = true ∧
    (∀ id, id ∉ s.engine.loop.requests) ∧ submitted s.engine.queue.commands = []

/-! ### Events that leave the channels alone

A call on the engine that makes no operation, or the thread going from one place to the next. -/

/-- A thread that has nothing left to do to the channels may go on. -/
theorem Consistent.turn (h : s.Consistent S) (hp : s.pending = []) {thread : EngineThread}
    {rest : List ChannelOp} (hrest : rest = [])
    (hthread : thread ≠ .closing ∧ thread ≠ .stopped) :
    Consistent S { s with thread := thread, pending := rest } := by
  subst hrest
  refine ⟨h.served, h.handles, hp ▸ h.follows, fun hne => absurd rfl hne, ?_⟩
  rintro (hc | hc)
  · exact absurd hc hthread.1
  · exact absurd hc hthread.2

/-- The thread has nothing left to do unless it is in a step or in a shutdown. -/
theorem Consistent.pending_nil (h : s.Consistent S) (hclosing : s.thread ≠ .closing)
    (hstep : ∀ more, s.thread ≠ .delivering more) : s.pending = [] := by
  by_contra hne
  rcases h.quiet hne with hc | ⟨more, hc⟩
  · exact hclosing hc
  · exact hstep more hc

/-- A call that makes no operation on a channel and gives out no handle. -/
theorem Consistent.call (h : s.Consistent S) {engine : Engine σ α} (hserved : engine.Served S)
    (hids : engine.queue.nextId = s.engine.queue.nextId)
    (hout : engine.loop.outbox = s.engine.loop.outbox)
    (hreq : ∀ id, id ∈ engine.loop.requests → id ∈ s.engine.loop.requests)
    (hstop : s.engine.queue.stopRequested = true → engine.queue.stopRequested = true)
    (hsub : submitted engine.queue.commands = submitted s.engine.queue.commands) :
    Consistent S { s with engine := engine } := by
  refine ⟨hserved, ?_, ?_, h.quiet, fun hthread => ?_⟩
  · show s.handles = _
    rw [hids]
    exact h.handles
  · show ∃ done, engine.loop.outbox = _ ∧ _
    rw [hout]
    exact h.follows
  · obtain ⟨hs, hnone, hnil⟩ := h.shut hthread
    exact ⟨hstop hs, fun id hid => hnone id (hreq id hid), hsub.trans hnil⟩

theorem Consistent.submit (h : s.Consistent S) {request : Request} {drawnSeed : Nat}
    {result : Checked (Service σ α)} (ha : s.act S (.submit request drawnSeed) = some result) :
    result.Returns (Consistent S) := by
  unfold Service.act at ha
  dsimp only at ha
  rcases h.served.submit request drawnSeed with ⟨status, hsub⟩ | ⟨entry, hsub, hopen, hserved⟩
  · rw [hsub] at ha
    cases ha
    refine returns_pure ⟨h.served, ?_, h.follows, h.quiet, h.shut⟩
    show s.handles ++ [] = _
    rw [List.append_nil]
    exact h.handles
  · rw [hsub] at ha hserved
    cases ha
    refine returns_pure ⟨hserved, ?_, h.follows, h.quiet, fun hthread => ?_⟩
    · have hpos := h.served.nextId
      show s.handles ++ [s.engine.queue.nextId] = List.range' 1 (s.engine.queue.nextId + 1 - 1)
      rw [h.handles, show s.engine.queue.nextId + 1 - 1 = s.engine.queue.nextId - 1 + 1 by omega,
        List.range'_1_concat, show 1 + (s.engine.queue.nextId - 1) = s.engine.queue.nextId by omega]
    · have hstop := (h.shut hthread).1
      rw [hopen] at hstop
      cases hstop

/-! ### Operations on the channels

A consumer takes from the front of its own channel.  The thread adds at the end of one channel,
and that channel has not been closed before. -/

/-- A consumer takes an item, or learns that there is none. -/
theorem Consistent.receive (h : s.Consistent S) (id : Nat) :
    (s.receive id (s.channels id).tryNext).Consistent S := by
  obtain ⟨done, hout, hfollows⟩ := h.follows
  refine ⟨h.served, h.handles, ⟨done, hout, fun id' => ?_⟩, h.quiet, h.shut⟩
  show OutputChannel.Follows done id' (Function.update s.received id _ id')
    (Function.update s.channels id _ id')
  by_cases hne : id' = id
  · subst hne
    rw [Function.update_self, Function.update_self]
    exact (hfollows id').tryNext
  · rw [Function.update_of_ne hne, Function.update_of_ne hne]
    exact hfollows id'

/-- **The thread makes its next operation**: the channel is open. -/
theorem Consistent.perform (h : s.Consistent S) {op : ChannelOp} {rest : List ChannelOp}
    (hp : s.pending = op :: rest) :
    (s.perform op).Returns fun s' => Consistent S { s' with pending := rest } := by
  obtain ⟨done, hout, hfollows⟩ := h.follows
  rw [hp] at hout
  have honce := h.served.settled.sound.channels
  rw [hout] at honce
  have hopen := honce.open_before
  have hsplit : s.engine.loop.outbox = (done ++ [op]) ++ rest := by
    rw [hout, List.append_assoc, List.singleton_append]
  have hquiet : s.thread = .closing ∨ ∃ more, s.thread = .delivering more :=
    h.quiet (by rw [hp]; exact List.cons_ne_nil _ _)
  -- the other channels do not notice
  have hset : ∀ channel, OutputChannel.Follows (done ++ [op]) op.id (s.received op.id) channel →
      Consistent S { s.setChannel op.id channel with pending := rest } := by
    refine fun channel hchannel => ⟨h.served, h.handles, ⟨_, hsplit, fun id' => ?_⟩,
      fun _ => hquiet, h.shut⟩
    show OutputChannel.Follows _ id' _ (Function.update s.channels op.id channel id')
    by_cases hne : id' = op.id
    · subst hne
      rw [Function.update_self]
      exact hchannel
    · rw [Function.update_of_ne hne]
      exact (hfollows id').other (Ne.symm hne)
  cases op with
  | push id item =>
      refine Returns.bind ((hfollows id).push hopen item) fun channel hchannel => ?_
      exact returns_pure (hset channel hchannel)
  | close id info => exact returns_pure (hset _ ((hfollows id).close hopen info))

/-- The engine thread comes back from a call with operations to make. -/
theorem Consistent.resume (h : s.Consistent S) (hp : s.pending = []) {engine : Engine σ α}
    (hcalled : Engine.Called S s.engine engine) {thread : EngineThread}
    (hquiet : thread = .closing ∨ ∃ more, thread = .delivering more)
    (hshut : thread = .closing ∨ thread = .stopped → engine.queue.stopRequested = true ∧
      ∀ id, id ∉ engine.loop.requests) : (s.resume thread engine).Consistent S := by
  obtain ⟨done, hout, hfollows⟩ := h.follows
  obtain ⟨ops, hops⟩ := hcalled.posts
  rw [hp, List.append_nil] at hout
  refine ⟨hcalled.toServed, ?_, ⟨done, ?_, hfollows⟩, fun _ => hquiet, fun hthread => ?_⟩
  · show s.handles = List.range' 1 (engine.queue.nextId - 1)
    rw [hcalled.ids]
    exact h.handles
  · show engine.loop.outbox = done ++ engine.loop.outbox.drop s.engine.loop.outbox.length
    rw [hops, List.drop_left, hout]
  · obtain ⟨hstop, hnone⟩ := hshut hthread
    refine ⟨hstop, hnone, ?_⟩
    show submitted engine.queue.commands = []
    rw [hcalled.swapped]
    rfl

theorem Consistent.deliver (h : s.Consistent S) {result : Checked (Service σ α)}
    (ha : s.deliver = some result) : result.Returns (Consistent S) := by
  unfold Service.deliver at ha
  cases hp : s.pending with
  | cons op rest =>
      rw [hp] at ha
      dsimp only at ha
      split at ha
      · cases ha
        refine Returns.bind (h.perform hp) fun s' hs' => returns_pure hs'
      · cases ha
  | nil =>
      rw [hp] at ha
      dsimp only at ha
      split at ha
      · cases ha
        exact returns_pure (h.turn hp rfl (by simp))
      · cases ha
        exact returns_pure (h.turn hp rfl (by simp))
      · rename_i hthread
        cases ha
        exact returns_pure ⟨h.served, h.handles, hp ▸ h.follows, fun hne => absurd rfl hne,
          fun _ => h.shut (Or.inl hthread)⟩
      · cases ha

/-! ### What a consistent service shows

The numbers of the handles, and what has been done to the channels so far. -/

theorem performed_eq {done : List ChannelOp} (hout : s.engine.loop.outbox = done ++ s.pending) :
    s.performed = done := by
  unfold performed
  rw [hout, List.length_append, Nat.add_sub_cancel, List.take_left]

/-- The handle with a given arrival index. -/
theorem Consistent.handle_at (h : s.Consistent S) {id index : Nat} (hindex : index + 1 = id)
    (hid : id < s.engine.queue.nextId) : s.handles[index]? = some id := by
  rw [h.handles, List.getElem?_range' (by omega)]
  congr 1
  omega

theorem Consistent.mem_handles (h : s.Consistent S) :
    id ∈ s.handles ↔ 0 < id ∧ id < s.engine.queue.nextId := by
  have hpos := h.served.nextId
  rw [h.handles, List.mem_range'_1]
  omega

/-- A channel that the engine has closed has one descriptor. -/
theorem Consistent.finishes_of_closed (h : s.Consistent S)
    (hc : s.engine.loop.closed id = true) :
    ∃ info, finishes s.engine.loop.outbox id = [info] := by
  obtain ⟨info, hin⟩ := closed_iff.mp hc
  have hle := h.served.settled.sound.channels.finishes_le id
  have hmem := mem_finishes.mpr hin
  obtain ⟨info', hinfo⟩ := List.length_eq_one_iff.mp
    (le_antisymm hle (List.length_pos_of_mem hmem))
  exact ⟨info', hinfo⟩

/-! ### Every event

One lemma for each event that asks for an argument.  An event that is not enabled is no step. -/

/-- An engine that was started was not running. -/
theorem start_ok {s' : Service σ α} (ha : s.act S .start = some (.ok s')) :
    s.thread = .unstarted ∨ s.thread = .stopped := by
  unfold Service.act at ha
  dsimp only at ha
  by_cases hcheck : (s.thread = .unstarted || s.thread = .stopped) = true
  · simpa using hcheck
  · rw [Bool.not_eq_true] at hcheck
    rw [hcheck] at ha
    cases ha

variable {result : Checked (Service σ α)}

/-- `NextToken` returns to a consumer that is not kept waiting. -/
theorem Consistent.nextToken (h : s.Consistent S) (ha : s.act S (.nextToken id) = some result) :
    result.Returns (Consistent S) := by
  unfold Service.act at ha
  dsimp only at ha
  split at ha
  · cases hn : (s.channels id).next with
    | none =>
        rw [hn] at ha
        cases ha
    | some answer =>
        rw [hn] at ha
        cases ha
        rw [OutputChannel.next_eq hn]
        exact returns_pure (h.receive id)
  · cases ha

theorem Consistent.tryNextToken (h : s.Consistent S)
    (ha : s.act S (.tryNextToken id) = some result) : result.Returns (Consistent S) := by
  unfold Service.act at ha
  dsimp only at ha
  split at ha
  · cases ha
    exact returns_pure (h.receive id)
  · cases ha

/-- `AwaitCompletion` finds the descriptor that the channel has been closed with. -/
theorem Consistent.awaitCompletion (h : s.Consistent S)
    (ha : s.act S (.awaitCompletion id) = some result) : result.Returns (Consistent S) := by
  unfold Service.act at ha
  dsimp only at ha
  split at ha
  · cases hf : (s.channels id).awaitFinish with
    | none =>
        rw [hf] at ha
        cases ha
    | some answer =>
        obtain ⟨done, _, hfollows⟩ := h.follows
        obtain ⟨info, rfl⟩ := (hfollows id).awaitFinish_returns hf
        rw [hf] at ha
        cases ha
        exact returns_pure h
  · cases ha

/-- `Start` of an engine that does not run. -/
theorem Consistent.start (h : s.Consistent S) (ha : s.act S .start = some result)
    (hthread : s.thread = .unstarted ∨ s.thread = .stopped) : result.Returns (Consistent S) := by
  cases ha
  have hp : s.pending = [] := by
    refine h.pending_nil ?_ ?_
    · rcases hthread with hc | hc <;> simp [hc]
    · rcases hthread with hc | hc <;> simp [hc]
  have hcheck : (s.thread = .unstarted || s.thread = .stopped) = true := by
    rcases hthread with hc | hc <;> simp [hc]
  rw [hcheck]
  exact returns_pure (h.turn hp hp (by simp))

/-- The thread looks whether it is to stop. -/
theorem Consistent.look (h : s.Consistent S) (ha : s.act S .look = some result) :
    result.Returns (Consistent S) := by
  unfold Service.act at ha
  dsimp only at ha
  split at ha
  · next hthread =>
    cases ha
    have hp := h.pending_nil (by simp [hthread]) (by simp [hthread])
    refine returns_pure (h.turn hp hp ?_)
    split <;> simp
  · cases ha

/-- The thread wakes from its wait for work. -/
theorem Consistent.wake (h : s.Consistent S) (ha : s.act S .wake = some result) :
    result.Returns (Consistent S) := by
  unfold Service.act at ha
  dsimp only at ha
  split at ha
  · next hcond =>
    cases ha
    have hp := h.pending_nil (by simp [hcond.1]) (by simp [hcond.1])
    refine returns_pure (h.turn hp hp ?_)
    split <;> simp
  · cases ha

variable [Zero α]

/-- A step leaves its operations to be made. -/
theorem Consistent.onStep (hS : S.model.Shaped) (h : s.Consistent S)
    (ha : s.act S .step = some result) : result.Returns (Consistent S) := by
  unfold Service.act at ha
  dsimp only at ha
  split at ha
  · next hthread =>
    cases ha
    have hp := h.pending_nil (by simp [hthread]) (by simp [hthread])
    refine Returns.bind (h.served.step hS) ?_
    rintro ⟨more, engine⟩ ⟨hcalled, _⟩
    refine returns_pure (h.resume hp hcalled (Or.inr ⟨more, rfl⟩) ?_)
    rintro (hc | hc) <;> cases hc
  · cases ha

/-- A shutdown leaves no request behind. -/
theorem Consistent.shutdown (hS : S.model.Shaped) (h : s.Consistent S)
    (ha : s.act S .shutdown = some result) : result.Returns (Consistent S) := by
  unfold Service.act at ha
  dsimp only at ha
  split at ha
  · next hcond =>
    cases ha
    have hp : s.pending = [] := by
      unfold threadless at hcond
      refine h.pending_nil (fun hc => ?_) (fun more hc => ?_)
      · simp [hc] at hcond
      · simp [hc] at hcond
    refine Returns.bind (h.served.stop hS) ?_
    rintro engine ⟨hcalled, hstop, hnone⟩
    exact returns_pure (h.resume hp hcalled (Or.inl rfl) fun _ => ⟨hstop, hnone⟩)
  · cases ha

/-- **No event ends the process**, unless the engine is started while it runs. -/
theorem Consistent.act (hS : S.model.Shaped) (h : s.Consistent S) {event : ServiceEvent}
    {result : Checked (Service σ α)} (ha : s.act S event = some result)
    (hstart : event = .start → s.thread = .unstarted ∨ s.thread = .stopped) :
    result.Returns (Consistent S) := by
  cases event with
  | submit request drawnSeed => exact h.submit ha
  | cancel id =>
      cases ha
      exact returns_pure (h.call (h.served.cancel id) rfl rfl (fun _ hid => hid) (fun hs => hs)
        (Engine.submitted_cancel _ id))
  | nextToken id => exact h.nextToken ha
  | tryNextToken id => exact h.tryNextToken ha
  | awaitCompletion id => exact h.awaitCompletion ha
  | use u =>
      cases ha
      refine Returns.bind (h.served.use hS u) fun shared hserved => ?_
      exact returns_pure (h.call hserved rfl rfl (fun _ hid => hid) (fun hs => hs) rfl)
  | start => exact h.start ha (hstart rfl)
  | requestStop =>
      cases ha
      exact returns_pure (h.call h.served.requestStop rfl rfl (fun _ hid => hid) (fun _ => rfl) rfl)
  | look => exact h.look ha
  | step => exact h.onStep hS ha
  | deliver => exact h.deliver ha
  | wake => exact h.wake ha
  | shutdown => exact h.shutdown hS ha

theorem Consistent.step (hS : S.model.Shaped) (h : s.Consistent S) {event : ServiceEvent}
    {s' : Service σ α} (ha : s.act S event = some (.ok s')) : s'.Consistent S :=
  (h.act hS ha fun he => start_ok (he ▸ ha)).of_eq rfl

/-! ### The protocol

What is consistent keeps the protocol, every service is consistent in the beginning, and every
event keeps it so. -/

/-- **What is consistent keeps the protocol.** -/
theorem Consistent.protocol (hS : S.model.Shaped) (h : s.Consistent S) : s.Protocol S := by
  obtain ⟨done, hout, hfollows⟩ := h.follows
  have hdone := performed_eq hout
  have honce := h.served.settled.sound.channels
  refine ⟨fun event result ha hstart => ?_, ?_, fun id entry hl => ?_, fun entry hin => ?_,
    fun id => ?_, honce.finishes_le, fun id info => ?_, fun id channel hn => ?_,
    fun id hid => ?_, fun hthread id hid => ?_⟩
  · obtain ⟨s', hresult, _⟩ := h.act hS ha hstart
    exact ⟨s', hresult⟩
  · rw [h.handles, List.length_range']
  · exact h.handle_at (h.served.arrived id entry hl)
      (h.served.below id (Or.inl (IdMap.mem_of_lookup hl)))
  · refine h.handle_at (h.served.arriving entry hin) (h.served.below _ (Or.inr ?_))
    exact List.mem_filterMap.mpr ⟨_, hin, rfl⟩
  · rw [hdone]
    exact (hfollows id).items
  · rw [hdone]
    exact (hfollows id).awaitFinish_iff
  · obtain ⟨hempty, hclosed⟩ := OutputChannel.next_ended hn
    rw [hdone]
    rw [(hfollows id).closed] at hclosed
    obtain ⟨info, hinfo⟩ := Option.isSome_iff_exists.mp hclosed
    have hfinish : finishes done id = [info] := by
      rw [(hfollows id).finish, hinfo]
      rfl
    refine ⟨⟨info, hfinish⟩, ?_⟩
    rw [hout] at honce ⊢
    rw [honce.pushed_all (by rw [hfinish]; exact List.cons_ne_nil _ _), (hfollows id).items, hempty,
      List.append_nil]
  · obtain ⟨hpos, hlt⟩ := h.mem_handles.mp hid
    rcases h.served.kept id hpos hlt with hlive | hsub | hc
    · exact Or.inl hlive
    · obtain ⟨c, hin, hc⟩ := List.mem_filterMap.mp hsub
      cases c with
      | submit entry =>
          cases hc
          exact Or.inr (Or.inl ⟨entry, hin, rfl⟩)
      | cancel k => cases hc
    · exact Or.inr (Or.inr (h.finishes_of_closed hc))
  · obtain ⟨hpos, hlt⟩ := h.mem_handles.mp hid
    obtain ⟨_, hnone, hnil⟩ := h.shut (Or.inr hthread)
    have hp : s.pending = [] := h.pending_nil (by simp [hthread]) (by simp [hthread])
    rw [hp, List.append_nil] at hout
    have hc : s.engine.loop.closed id = true := by
      rcases h.served.kept id hpos hlt with hid | hid | hc
      · exact absurd hid (hnone id)
      · rw [hnil] at hid
        exact absurd hid List.not_mem_nil
      · exact hc
    obtain ⟨info, hinfo⟩ := h.finishes_of_closed hc
    rw [hout, (hfollows id).finish] at hinfo
    rw [(hfollows id).closed]
    cases hf : (s.channels id).finish with
    | none =>
        rw [hf] at hinfo
        cases hinfo
    | some info => rfl

variable {geom : CacheGeometry} {blockSize numBlocks : Int} {state : σ} {pool : BlockPool α}
  {config : EngineConfig}

theorem Consistent.init (hpool : BlockPool.create geom blockSize numBlocks = .ok pool)
    (hids : numBlocks ≤ 2 ^ 31) {engine : Engine σ α}
    (h : Engine.create S state pool config = .ok engine) :
    (Service.new engine).Consistent S := by
  obtain ⟨_, _, _, _, _, _, hnext⟩ := Engine.create_ensures S state pool config engine h
  refine ⟨Engine.Served.create hpool hids h, ?_,
    ⟨[], (Engine.create_new h).2, fun id => OutputChannel.Follows.init id⟩,
    fun hne => absurd rfl hne, ?_⟩
  · show [] = List.range' 1 (engine.queue.nextId - 1)
    rw [hnext]
    rfl
  · rintro (hc | hc) <;> cases hc

theorem reachable_consistent (hS : S.model.Shaped)
    (hpool : BlockPool.create geom blockSize numBlocks = .ok pool) (hids : numBlocks ≤ 2 ^ 31)
    (h : (serviceSystem S state pool config).Reachable s) : s.Consistent S := by
  refine h.invariant ?_ fun s₁ event s₂ _ h₁ hstep => h₁.step hS hstep
  rintro s₀ ⟨engine, hcreate, rfl⟩
  exact .init hpool hids hcreate

/-- **The protocol, over every interleaving of clients and engine thread.** -/
theorem reachable_protocol (hS : S.model.Shaped)
    (hpool : BlockPool.create geom blockSize numBlocks = .ok pool) (hids : numBlocks ≤ 2 ^ 31)
    (h : (serviceSystem S state pool config).Reachable s) : s.Protocol S :=
  (reachable_consistent hS hpool hids h).protocol hS

end Service

namespace Service

variable {σ α : Type} {S : Services σ α} {s : Service σ α} {id : Nat}

/-! ### The step that cancels

The step of the engine is known to close the channel.  Here it is seen from the service, before
the operations are made. -/

/-- The step that drains the cancel of a live request. -/
theorem Consistent.step_cancels (h : s.Consistent S)
    (hcancel : CancelsLive s.engine.queue.commands s.engine.loop id) {s' : Service σ α}
    (hstep : s.act S .step = some (.ok s')) :
    pushed s'.engine.loop.outbox id = pushed s.engine.loop.outbox id ∧
      finishes s'.engine.loop.outbox id
        = finishes s.engine.loop.outbox id ++ [{ terminal := .cancelled }] := by
  unfold Service.act at hstep
  dsimp only at hstep
  split at hstep
  · obtain ⟨r, hr, hs'⟩ := bind_eq_ok.mp (Option.some.inj hstep)
    cases hs'
    obtain ⟨⟨more, loop⟩, hloop, hr'⟩ := bind_eq_ok.mp hr
    cases hr'
    have hrest := h.served.toAtRest
    obtain ⟨_, hops⟩ := hrest.settled.step_cancels hrest.queued hrest.open_of_submitted hcancel
      _ hloop
    show pushed loop.outbox id = _ ∧ finishes loop.outbox id = _
    unfold opsOf at hops
    rw [← pushed_filter loop.outbox, ← finishes_filter loop.outbox, hops, pushed_append,
      finishes_append, pushed_filter, finishes_filter, pushed_close, finishes_close,
        List.append_nil]
    exact ⟨rfl, rfl⟩
  · cases hstep

/-! ### Where a run goes

Every event has a direction: the log grows, the stop flag stays set, and with the flag set the
phases of the thread go on in one order. -/

/-- What an event does to the engine's log, the stop flag and the countdown. -/
structure Onward (event : ServiceEvent) (s s' : Service σ α) : Prop where
  posts : ∃ ops, s'.engine.loop.outbox = s.engine.loop.outbox ++ ops
  stops : s.engine.queue.stopRequested = true → s'.engine.queue.stopRequested = true
  nears : s.engine.queue.stopRequested = true → s.thread ≠ .stopped →
    s'.countdown ≤ s.countdown ∧ (event.ofThread = true → s'.countdown < s.countdown)

/-- A thread in a later phase is nearer to its end. -/
theorem countdown_phase {s' : Service σ α} (h : phasesLeft s'.thread < phasesLeft s.thread) :
    s'.countdown < s.countdown :=
  Prod.Lex.toLex_lt_toLex.mpr (Or.inl h)

/-- The events of the clients move no phase. -/
theorem Onward.still {event : ServiceEvent} {s' : Service σ α}
    (hout : s'.engine.loop.outbox = s.engine.loop.outbox)
    (hstop : s.engine.queue.stopRequested = true → s'.engine.queue.stopRequested = true)
    (hcount : s'.countdown = s.countdown) (hevent : event.ofThread = false) :
    Onward event s s' := by
  refine ⟨⟨[], by rw [hout, List.append_nil]⟩, hstop, fun _ _ => ⟨hcount.le, fun hc => ?_⟩⟩
  rw [hevent] at hc
  cases hc

/-- The events of the thread that leave the engine alone. -/
theorem Onward.turn {event : ServiceEvent} {s' : Service σ α} (hengine : s'.engine = s.engine)
    (hlt : s.engine.queue.stopRequested = true → s.thread ≠ .stopped →
      s'.countdown < s.countdown) : Onward event s s' := by
  refine ⟨⟨[], by rw [hengine, List.append_nil]⟩, fun hs => hengine ▸ hs, fun hs hne => ?_⟩
  exact ⟨(hlt hs hne).le, fun _ => hlt hs hne⟩

theorem Onward.deliver {s' : Service σ α} (ha : s.deliver = some (.ok s')) :
    Onward .deliver s s' := by
  unfold Service.deliver at ha
  cases hp : s.pending with
  | cons op rest =>
      rw [hp] at ha
      dsimp only at ha
      split at ha
      · obtain ⟨s₁, hs₁, hs'⟩ := bind_eq_ok.mp (Option.some.inj ha)
        cases hs'
        have hkeep : s₁.engine = s.engine ∧ s₁.thread = s.thread := by
          cases op with
          | push id item =>
              obtain ⟨channel, _, hset⟩ := bind_eq_ok.mp hs₁
              cases hset
              exact ⟨rfl, rfl⟩
          | close id info =>
              cases hs₁
              exact ⟨rfl, rfl⟩
        refine .turn hkeep.1 fun _ _ => Prod.Lex.toLex_lt_toLex.mpr (Or.inr ⟨?_, ?_⟩)
        · exact congrArg phasesLeft hkeep.2
        · show rest.length < s.pending.length
          rw [hp]
          exact Nat.lt_succ_self _
      · cases ha
  | nil =>
      rw [hp] at ha
      dsimp only at ha
      split at ha
      all_goals first
        | (rename_i hthread
           cases ha
           exact .turn rfl fun _ _ => countdown_phase (by simp [hthread, phasesLeft]))
        | cases ha

/-- A consumer that takes from a channel, or waits at it, leaves the engine alone. -/
theorem Onward.consumer {event : ServiceEvent} {s' : Service σ α}
    (hevent : event = .nextToken id ∨ event = .tryNextToken id ∨ event = .awaitCompletion id)
    (ha : s.act S event = some (.ok s')) : Onward event s s' := by
  rcases hevent with rfl | rfl | rfl <;> unfold Service.act at ha <;> dsimp only at ha
  · split at ha
    · split at ha
      · cases ha
        exact .still rfl (fun hs => hs) rfl rfl
      · cases ha
    · cases ha
  · split at ha
    · cases ha
      exact .still rfl (fun hs => hs) rfl rfl
    · cases ha
  · split at ha
    · split at ha
      · obtain ⟨info, _, hs'⟩ := bind_eq_ok.mp (Option.some.inj ha)
        cases hs'
        exact .still rfl (fun hs => hs) rfl rfl
      · cases ha
    · cases ha

theorem Onward.start {s' : Service σ α} (ha : s.act S .start = some (.ok s')) :
    Onward .start s s' := by
  have hthread := start_ok ha
  obtain ⟨_, _, hs'⟩ := bind_eq_ok.mp (Option.some.inj ha)
  cases hs'
  refine .turn rfl fun _ hne => countdown_phase ?_
  rw [hthread.resolve_right hne]
  exact (by decide : phasesLeft .looping < phasesLeft .unstarted)

/-- A thread that looks, told to stop, goes on to the shutdown. -/
theorem Onward.look {s' : Service σ α} (ha : s.act S .look = some (.ok s')) :
    Onward .look s s' := by
  unfold Service.act at ha
  dsimp only at ha
  split at ha
  · next hthread =>
    cases ha
    exact .turn rfl fun hs _ => countdown_phase (by simp [hthread, hs, phasesLeft])
  · cases ha

theorem Onward.wake {s' : Service σ α} (ha : s.act S .wake = some (.ok s')) :
    Onward .wake s s' := by
  unfold Service.act at ha
  dsimp only at ha
  split at ha
  · next hcond =>
    cases ha
    exact .turn rfl fun hs _ => countdown_phase (by simp [hcond.1, hs, phasesLeft])
  · cases ha

variable [Zero α]

/-- A step keeps the order to stop, and its thread is in a later phase. -/
theorem Onward.step {s' : Service σ α} (hS : S.model.Shaped) (h : s.Consistent S)
    (ha : s.act S .step = some (.ok s')) : Onward .step s s' := by
  unfold Service.act at ha
  dsimp only at ha
  split at ha
  · next hthread =>
    obtain ⟨r, hr, hs'⟩ := bind_eq_ok.mp (Option.some.inj ha)
    cases hs'
    obtain ⟨hcalled, hsame⟩ := (h.served.step hS).of_eq hr
    have hlt : (s.resume (.delivering r.1) r.2).countdown < s.countdown :=
      countdown_phase (by rw [hthread]; exact Nat.lt_succ_self _)
    exact ⟨hcalled.posts, fun hs => hsame.trans hs, fun _ _ => ⟨hlt.le, fun _ => hlt⟩⟩
  · cases ha

/-- A shutdown gives the order to stop by itself. -/
theorem Onward.shutdown {s' : Service σ α} (hS : S.model.Shaped) (h : s.Consistent S)
    (ha : s.act S .shutdown = some (.ok s')) : Onward .shutdown s s' := by
  unfold Service.act at ha
  dsimp only at ha
  split at ha
  · next hcond =>
    obtain ⟨engine, hr, hs'⟩ := bind_eq_ok.mp (Option.some.inj ha)
    cases hs'
    obtain ⟨hcalled, hstop, _⟩ := (h.served.stop hS).of_eq hr
    refine ⟨hcalled.posts, fun _ => hstop, fun _ hne => ?_⟩
    have hlt : (s.resume .closing engine).countdown < s.countdown := by
      refine countdown_phase ?_
      unfold threadless at hcond
      show 1 < phasesLeft s.thread
      cases hthread : s.thread with
      | unstarted => decide
      | returned => decide
      | stopped => exact absurd hthread hne
      | _ => simp [hthread] at hcond
    exact ⟨hlt.le, fun _ => hlt⟩
  · cases ha

omit [Zero α] in
theorem Onward.submit {request : Request} {drawnSeed : Nat} {s' : Service σ α}
    (h : s.Consistent S) (ha : s.act S (.submit request drawnSeed) = some (.ok s')) :
    Onward (.submit request drawnSeed) s s' := by
  unfold Service.act at ha
  dsimp only at ha
  rcases h.served.submit request drawnSeed with ⟨status, hsub⟩ | ⟨entry, hsub, -, -⟩
  · rw [hsub] at ha
    cases ha
    exact .still rfl (fun hs => hs) rfl rfl
  · rw [hsub] at ha
    cases ha
    exact .still rfl (fun hs => hs) rfl rfl

/-- **Every event goes on** from where the service is. -/
theorem Consistent.onward (hS : S.model.Shaped) (h : s.Consistent S) {event : ServiceEvent}
    {s' : Service σ α} (ha : s.act S event = some (.ok s')) : Onward event s s' := by
  cases event with
  | submit request drawnSeed => exact .submit h ha
  | cancel id =>
      cases ha
      exact .still rfl (fun hs => hs) rfl rfl
  | nextToken id => exact .consumer (Or.inl rfl) ha
  | tryNextToken id => exact .consumer (Or.inr (Or.inl rfl)) ha
  | awaitCompletion id => exact .consumer (Or.inr (Or.inr rfl)) ha
  | use u =>
      obtain ⟨shared, _, hs'⟩ := bind_eq_ok.mp (Option.some.inj ha)
      cases hs'
      exact .still rfl (fun hs => hs) rfl rfl
  | start => exact .start ha
  | requestStop =>
      cases ha
      exact .still rfl (fun _ => rfl) rfl rfl
  | look => exact .look ha
  | step => exact .step hS h ha
  | deliver => exact .deliver ha
  | wake => exact .wake ha
  | shutdown => exact .shutdown hS h ha

/-! ### Stopping

The thread is never stuck, and its phases can be counted down. -/

/-- A thread that has to stop can always go on. -/
theorem Consistent.goes (hS : S.model.Shaped) (h : s.Consistent S)
    (hstop : s.engine.queue.stopRequested = true) (hne : s.thread ≠ .stopped) :
    ∃ event s', event.ofThread = true ∧ s.act S event = some (.ok s') := by
  have hgoes : ∀ event result, event.ofThread = true → s.act S event = some result →
      ∃ event s', event.ofThread = true ∧ s.act S event = some (.ok s') := by
    intro event result hevent ha
    obtain ⟨s', rfl, _⟩ := h.act hS ha fun hc => by rw [hc] at hevent; cases hevent
    exact ⟨event, s', hevent, ha⟩
  cases hthread : s.thread with
  | unstarted =>
      exact hgoes .shutdown _ rfl (if_pos (by simp [hstop, threadless, hthread]))
  | looping => exact hgoes .look _ rfl (if_pos hthread)
  | stepping => exact hgoes .step _ rfl (if_pos hthread)
  | delivering more =>
      refine hgoes .deliver (s.deliver.getD (pure s)) rfl ?_
      show s.deliver = _
      unfold Service.deliver
      cases hp : s.pending <;> cases more <;> simp [hthread]
  | idle => exact hgoes .wake _ rfl (if_pos ⟨hthread, Or.inr hstop⟩)
  | returned =>
      exact hgoes .shutdown _ rfl (if_pos (by simp [hstop, threadless, hthread]))
  | closing =>
      refine hgoes .deliver (s.deliver.getD (pure s)) rfl ?_
      show s.deliver = _
      unfold Service.deliver
      cases hp : s.pending <;> simp [hthread]
  | stopped => exact absurd hthread hne

variable {geom : CacheGeometry} {blockSize numBlocks : Int} {state : σ} {pool : BlockPool α}
  {config : EngineConfig}

/-- **A stop ends, whatever the clients do**: the thread can always go on, each of its events
brings it nearer to the end, and none of theirs takes it back. -/
theorem reachable_stopping (hS : S.model.Shaped)
    (hpool : BlockPool.create geom blockSize numBlocks = .ok pool) (hids : numBlocks ≤ 2 ^ 31)
    (h : (serviceSystem S state pool config).Reachable s)
    (hstop : s.engine.queue.stopRequested = true) (hne : s.thread ≠ .stopped) :
    s.Stopping S := by
  have hc := reachable_consistent hS hpool hids h
  refine ⟨hc.goes hS hstop hne, fun event s' hevent ha => ?_, fun event s' ha => ?_⟩
  · exact ((hc.onward hS ha).nears hstop hne).2 hevent
  · have honward := hc.onward hS ha
    exact ⟨honward.stops hstop, (honward.nears hstop hne).1⟩

/-! ### Cancelling

The close that the step has posted is the last operation on the channel.  The rest of the run
cannot add another. -/

/-- A log that has a close keeps what it says of the channel. -/
theorem Consistent.posts_after (hS : S.model.Shaped) (h : s.Consistent S) {s' : Service σ α}
    (hafter : ((serviceSystem S state pool config).after s).Reachable s') :
    s'.Consistent S ∧ ∃ ops, s'.engine.loop.outbox = s.engine.loop.outbox ++ ops := by
  induction hafter with
  | init heq =>
      rw [show _ = s from heq]
      exact ⟨h, [], (List.append_nil _).symm⟩
  | step _ hstep ih =>
      obtain ⟨h₁, ops₁, hops₁⟩ := ih
      obtain ⟨ops₂, hops₂⟩ := (h₁.onward hS hstep).posts
      exact ⟨h₁.step hS hstep, ops₁ ++ ops₂, by rw [hops₂, hops₁, List.append_assoc]⟩

/-- What a step that drains the cancel of a live request does to its channel, for good. -/
theorem Consistent.cancelled (hS : S.model.Shaped) (hc : s.Consistent S)
    (hcancel : CancelsLive s.engine.queue.commands s.engine.loop id) {s' s'' : Service σ α}
    (hstep : s.act S .step = some (.ok s'))
    (hafter : ((serviceSystem S state pool config).after s').Reachable s'') :
    id ∉ s''.engine.loop.requests ∧
      pushed s''.engine.loop.outbox id = pushed s.engine.loop.outbox id ∧
      finishes s''.engine.loop.outbox id = [{ terminal := .cancelled }] ∧
      (s''.pending = [] →
        (s''.channels id).awaitFinish = some (.ok { terminal := .cancelled })) := by
  have hc' := hc.step hS hstep
  obtain ⟨hpushed, hfinished⟩ := hc.step_cancels hcancel hstep
  obtain ⟨hc'', ops, hops⟩ := hc'.posts_after hS hafter
  have hle' := hc'.served.settled.sound.channels.finishes_le id
  have honce := hc''.served.settled.sound.channels
  have hle := honce.finishes_le id
  -- the channel was open, and one close is all it gets
  have hopen : finishes s.engine.loop.outbox id = [] := by
    rw [hfinished, List.length_append, List.length_singleton] at hle'
    exact List.length_eq_zero_iff.mp (by omega)
  rw [hopen, List.nil_append] at hfinished
  have hfinal : finishes s''.engine.loop.outbox id = [{ terminal := .cancelled }] := by
    rw [hops, finishes_append, hfinished] at hle ⊢
    rw [List.length_append, List.length_singleton] at hle
    rw [List.length_eq_zero_iff.mp (show (finishes ops id).length = 0 by omega), List.append_nil]
  refine ⟨fun hlive => ?_, ?_, hfinal, fun hp => ?_⟩
  · have hclosed : s''.engine.loop.closed id = true :=
      closed_iff.mpr ⟨_, mem_finishes.mp (by rw [hfinal]; exact List.mem_singleton_self _)⟩
    exact absurd ((hc''.served.settled.sound.closed id hlive).mp hclosed) List.not_mem_nil
  · rw [hops] at honce ⊢
    rw [honce.pushed_all (by rw [hfinished]; exact List.cons_ne_nil _ _), hpushed]
  · obtain ⟨done, hout, hfollows⟩ := hc''.follows
    rw [hp, List.append_nil] at hout
    rw [hout] at hfinal
    exact (hfollows id).awaitFinish_iff.mpr hfinal

/-- **A cancel is honoured**: once a step has drained the cancel of a live request, its channel
is closed as cancelled, and only so; the request is gone, and neither that step nor any later
event of any run pushes another item. -/
theorem reachable_cancelled (hS : S.model.Shaped)
    (hpool : BlockPool.create geom blockSize numBlocks = .ok pool) (hids : numBlocks ≤ 2 ^ 31)
    (h : (serviceSystem S state pool config).Reachable s)
    (hcancel : CancelsLive s.engine.queue.commands s.engine.loop id) {s' s'' : Service σ α}
    (hstep : s.act S .step = some (.ok s'))
    (hafter : ((serviceSystem S state pool config).after s').Reachable s'') :
    id ∉ s''.engine.loop.requests ∧
      pushed s''.engine.loop.outbox id = pushed s.engine.loop.outbox id ∧
      finishes s''.engine.loop.outbox id = [{ terminal := .cancelled }] ∧
      (s''.pending = [] →
        (s''.channels id).awaitFinish = some (.ok { terminal := .cancelled })) :=
  (reachable_consistent hS hpool hids h).cancelled hS hcancel hstep hafter

end Service

/-! ### Some runs

A run is written as a list of events and evaluated. -/

open Service

/-- One event of a run that ends at an event that has to wait. -/
def zeroAct (s : Service Unit Int) (event : ServiceEvent) : Checked (Service Unit Int) :=
  (s.act (zeroServices false) event).getD (.error (.checkFailed "the event has to wait"))

/-- A new service over `zeroPool`, after some events. -/
def zeroService (events : List ServiceEvent) : Checked (Service Unit Int) :=
  match Engine.create (zeroServices false) () zeroPool zeroConfig with
  | .error status => .error (.checkFailed status.message)
  | .ok e => events.foldlM zeroAct (.new e)

theorem zeroAct_eq {s s' : Service Unit Int} {event : ServiceEvent}
    (h : zeroAct s event = .ok s') : s.act (zeroServices false) event = some (.ok s') := by
  unfold zeroAct at h
  cases ha : s.act (zeroServices false) event with
  | none =>
      rw [ha] at h
      cases h
  | some result =>
      rw [ha] at h
      exact congrArg some h

theorem zeroService_reached (events : List ServiceEvent) :
    (zeroService events).Ensures
      (serviceSystem (zeroServices false) () zeroPool zeroConfig).Reachable := by
  unfold zeroService
  cases he : Engine.create (zeroServices false) () zeroPool zeroConfig with
  | error status => exact ensures_error _
  | ok e =>
      refine Ensures.foldlM_invariant (fun s event hs s' hs' => ?_) events (.init ⟨e, he, rfl⟩)
      exact .step hs (zeroAct_eq hs')

theorem zeroPool_created : BlockPool.create ⟨1, 1, 1, .float32⟩ 8 3 = .ok zeroPool := rfl

/-- Two requests, of which one is stopped after its first token and the other in the queue. -/
theorem reachable_protocol_stopped : ∃ s,
    (serviceSystem (zeroServices false) () zeroPool zeroConfig).Reachable s ∧
      (s.thread = .stopped ∧ s.handles = [1, 2] ∧ (s.received 1).length = 1) ∧
      s.Protocol (zeroServices false) := by
  obtain ⟨s, hrun, htest⟩ := exists_of_test (zeroService
    [.submit (zeroRequest 2) 0, .start, .look, .step, .deliver, .nextToken 1, .deliver,
      .submit (zeroRequest 1) 0, .requestStop, .look, .shutdown, .deliver, .deliver, .deliver])
    (fun s => s.thread = .stopped ∧ s.handles = [1, 2] ∧ (s.received 1).length = 1)
    (by decide +kernel)
  have hreach := zeroService_reached _ s hrun
  exact ⟨s, hreach, of_decide_eq_true htest,
    reachable_protocol (zeroModel_shaped false) zeroPool_created (by decide) hreach⟩

/-- A stop that comes in the middle of a step. -/
theorem reachable_stopping_step : ∃ s,
    (serviceSystem (zeroServices false) () zeroPool zeroConfig).Reachable s ∧
      s.thread = .delivering true ∧ s.Stopping (zeroServices false) := by
  obtain ⟨s, hrun, htest⟩ := exists_of_test (zeroService
    [.submit (zeroRequest 2) 0, .start, .look, .step, .requestStop])
    (fun s => s.thread = .delivering true ∧ s.engine.queue.stopRequested = true)
    (by decide +kernel)
  obtain ⟨hthread, hstop⟩ := of_decide_eq_true htest
  have hreach := zeroService_reached _ s hrun
  have hne : s.thread ≠ .stopped := by
    rw [hthread]
    exact EngineThread.noConfusion
  exact ⟨s, hreach, hthread,
    reachable_stopping (zeroModel_shaped false) zeroPool_created (by decide) hreach hstop hne⟩

/-- Whether the queue holds one command, a cancel. -/
def cancelsOnly (commands : List Command) (id : Nat) : Bool :=
  match commands with
  | [.cancel k] => k = id
  | _ => false

theorem cancelsOnly_eq {commands : List Command} {id : Nat} (h : cancelsOnly commands id = true) :
    commands = [.cancel id] := by
  unfold cancelsOnly at h
  split at h
  · rw [of_decide_eq_true h]
  · cases h

/-- A request that is cancelled after its first token. -/
theorem cancelled_running : ∃ s s',
    (serviceSystem (zeroServices false) () zeroPool zeroConfig).Reachable s ∧
      s.act (zeroServices false) .step = some (.ok s') ∧
      CancelsLive s.engine.queue.commands s.engine.loop 1 ∧
      (pushed s.engine.loop.outbox 1).length = 1 := by
  obtain ⟨⟨s, s'⟩, hrun, htest⟩ := exists_of_test
    (zeroService [.submit (zeroRequest 2) 0, .start, .look, .step, .deliver, .deliver, .cancel 1,
      .look] >>= fun s => zeroAct s .step >>= fun s' => pure (s, s'))
    (fun r => cancelsOnly r.1.engine.queue.commands 1 ∧ 1 ∈ r.1.engine.loop.requests ∧
      (pushed r.1.engine.loop.outbox 1).length = 1) (by decide +kernel)
  obtain ⟨s₀, hs₀, hrest⟩ := bind_eq_ok.mp hrun
  obtain ⟨s₁, hs₁, hpair⟩ := bind_eq_ok.mp hrest
  cases hpair
  obtain ⟨hcommands, hlive, hpushed⟩ := of_decide_eq_true htest
  exact ⟨s, s', zeroService_reached _ s hs₀, zeroAct_eq hs₁,
    ⟨[], [], cancelsOnly_eq hcommands, Or.inl hlive⟩, hpushed⟩

theorem reachable_cancelled_running : ∃ s s',
    (serviceSystem (zeroServices false) () zeroPool zeroConfig).Reachable s ∧
      s.act (zeroServices false) .step = some (.ok s') ∧
      (pushed s.engine.loop.outbox 1).length = 1 ∧
      pushed s'.engine.loop.outbox 1 = pushed s.engine.loop.outbox 1 ∧
      finishes s'.engine.loop.outbox 1 = [{ terminal := .cancelled }] := by
  obtain ⟨s, s', hreach, hstep, hcancel, hpushed⟩ := cancelled_running
  obtain ⟨_, hsame, hfinished, _⟩ := reachable_cancelled (zeroModel_shaped false) zeroPool_created
    (by decide) hreach hcancel hstep (.init rfl)
  exact ⟨s, s', hreach, hstep, hpushed, hsame, hfinished⟩

end InferenceEngine
