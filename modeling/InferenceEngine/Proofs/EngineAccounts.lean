/-
An engine that has its pool to itself, and its books.

Nothing is refused for want of room then, so with a model that keeps its contract a step is
known exactly: its plan, one turn for every member of its two passes, and the retirement of
what has ended.  `Executed` names the states in between.

No call moves the limits or the pool's shape, nobody else takes a block, and no append finds
the pool empty; so what an engine starts with it keeps.  Between two calls the blocks in use
are exactly those of the running sequences, each as many as its length needs.
-/
import InferenceEngine.Proofs.EngineCalls
import InferenceEngine.Proofs.EngineRoom

namespace InferenceEngine

open Except BlockPool

namespace EngineLoop

variable {σ α : Type} [Zero α] {e e' e₀ e₁ e₂ e₃ : EngineLoop σ α} {id : Nat} {entry : Entry}
  {S : Services σ α} {may : Answers α} {prefill : Bool} {ms : List (Nat × Entry)}
  {turn prefilled decoded : Nat → Turn} {evicted gone : List Nat} {out : SchedulerOutput}

/-- Whoever is no member of a pass and is not evicted stays as it was. -/
theorem Turning.untouched (h : Turning S may prefill e₀ ms turn evicted [] e)
    (hid : id ∉ ms.map (·.1)) (hgone : id ∉ evicted) (hl : e₀.requests.lookup id = some entry) :
    e.requests.lookup id = some entry ∧
      entry.seq.held.log e.shared.pool = entry.seq.held.log e₀.shared.pool := by
  obtain ⟨seq, hseq, ha⟩ := h.entry id entry hl
  have hwaits := h.outside id hid
  rw [hwaits] at ha
  obtain ⟨hcache, hlog⟩ := ha.idle hgone rfl List.not_mem_nil
  have hsame : seq = entry.seq := by
    have hkept := (ha.kept hgone).1
    rw [hcache] at hkept
    exact hkept
  rw [hsame] at hseq hlog
  exact ⟨hseq, hlog⟩

/-- What holds between two steps of an engine that has its pool to itself. -/
structure Alone (S : Services σ α) (e : EngineLoop σ α) : Prop where
  settled : e.Settled
  committed : e.AllCommitted
  prompted : e.Prompted
  sole : e.shared.others = []
  geometry : e.shared.pool.geom = S.model.geometry

/-- A step that has something to do: the plan `out` is carried out in `e₁`, the prefill pass
leaves `e₂`, the decode pass `e₃`, and `gone` is what has ended. -/
structure Executed (S : Services σ α) (may : Answers α) (e : EngineLoop σ α)
    (out : SchedulerOutput) (e₁ : EngineLoop σ α) (prefilled : Nat → Turn) (e₂ : EngineLoop σ α)
    (decoded : Nat → Turn) (evicted : List Nat) (e₃ : EngineLoop σ α) (gone : List Nat)
    (e' : EngineLoop σ α) : Prop where
  prepared : Prepared e out e₁
  prefill : ∃ ms, ms.map (·.1) = out.prefill.map (·.id) ∧ e₁.Members ms ∧
    Turning S may true e₁ ms prefilled [] [] e₂
  decode : ∃ ms, ms.map (·.1) = out.decode ∧ e₂.Members ms ∧
    Turning S may false e₂ ms decoded evicted [] e₃
  sound : e₃.Sound [] []
  nodup : gone.Nodup
  ended : ∀ id, id ∈ gone ↔ e₃.HasEnded id
  departed : Departed e₃ gone (gone.flatMap e₃.closeEnded) e'

omit [Zero α] in
/-- A member of the prefill pass, and what it was before. -/
theorem Prepared.taken (h : Prepared e out e₁) (hs : e.Settled)
    (hid : id ∈ out.prefill.map (·.id)) : ∃ entry, e.requests.lookup id = some entry ∧
      entry.seq.Parked ∧ e₁.requests.lookup id
        = some { entry with seq := { entry.seq.ensureCache with state := .running } } := by
  have hw : id ∈ e.waiting := h.plan.prefill.subset hid
  obtain ⟨entry, hl⟩ := hs.sound.entry_of_waiting hw
  have hnot : id ∉ out.preempt := fun hc => List.disjoint_of_nodup_append hs.sound.once hw
    (h.split.subset (List.mem_append_right _ hc))
  refine ⟨entry, hl, (hs.sound.parked id hw entry hl).resolve_left List.not_mem_nil, ?_⟩
  rw [h.arranged.lookup id, hl]
  simp only [Option.map_some, Entry.arrange, if_neg hnot, if_pos hid]

omit [Zero α] in
/-- A member of the decode pass is as it was. -/
theorem Prepared.kept (h : Prepared e out e₁) (hs : e.Settled) (hid : id ∈ out.decode) :
    ∃ entry, e.requests.lookup id = some entry ∧ entry.seq.Ready ∧
      e₁.requests.lookup id = some entry ∧ id ∉ out.prefill.map (·.id) := by
  have hrun : id ∈ e.running := h.split.subset (List.mem_append_left _ hid)
  obtain ⟨entry, hl, hready⟩ : ∃ entry, e.requests.lookup id = some entry ∧ entry.seq.Ready := by
    obtain ⟨entry, hl⟩ := hs.sound.entry_of_running hrun
    exact ⟨entry, hl, (hs.sound.running_of_state hl (hs.running id hrun entry hl)).2⟩
  have hnot : id ∉ out.prefill.map (·.id) := fun hc =>
    List.disjoint_of_nodup_append hs.sound.once (h.plan.prefill.subset hc) hrun
  refine ⟨entry, hl, hready, ?_, hnot⟩
  rw [h.arranged.lookup id, hl]
  simp only [Option.map_some, Entry.arrange, if_neg (h.not_victim hs.sound id hid), if_neg hnot]

/-- What is asked of the model by a prefill pass: every member has a new cache for its context. -/
theorem Prepared.prefill_lawful (h : Prepared e out e₁) (hm : S.model.Contract may)
    (halone : e.Alone S) (hms : ms.map (·.1) = out.prefill.map (·.id)) (hb : e₁.Batch true ms) :
    Lawfully S may (e.planGoal out) true e₁ ms := by
  refine ⟨hm, by rw [h.arranged.store.geom]; exact halone.geometry,
    h.fits halone.settled halone.sole, fun m hmem => ?_⟩
  have hid : m.1 ∈ out.prefill.map (·.id) := hms ▸ List.mem_map_of_mem hmem
  obtain ⟨entry, hl, hparked, hl₁⟩ := h.taken halone.settled hid
  rw [hb.entries m hmem] at hl₁
  have hentry : m.2 = { entry with seq := { entry.seq.ensureCache with state := .running } } :=
    Option.some.inj hl₁
  have hheld : m.2.seq.held = .new := by
    rw [hentry]
    show entry.seq.ensureCache.cache.getD .new = _
    rw [hparked.ensured]
    rfl
  refine ⟨by rw [hheld]; rfl, fun _ => by rw [hheld]; rfl, ?_⟩
  rw [hheld, planGoal_member (List.mem_append_right _ hid) hl, Entry.passTokens_true]
  have hcontext : m.2.context = entry.context := by
    rw [hentry]
    unfold Entry.context Sequence.ensureCache
    cases entry.seq.cache <;> rfl
  unfold Entry.target
  rw [if_neg, hcontext]
  · exact (Nat.zero_add _).le
  · rcases hparked with ⟨hst, _⟩ | ⟨hst, _⟩ <;> simp [hst]

/-- The members of the decode pass are untouched by the prefill pass before it. -/
theorem Prepared.decoding (h : Prepared e out e₁) (hs : e.Settled)
    (hms : ms.map (·.1) = out.prefill.map (·.id))
    (hturn : Turning S may true e₁ ms prefilled [] [] e₂) (hid : id ∈ out.decode) :
    ∃ entry, e.requests.lookup id = some entry ∧ entry.seq.Ready ∧
      e₂.requests.lookup id = some entry := by
  obtain ⟨entry, hl, hready, hl₁, hnot⟩ := h.kept hs hid
  exact ⟨entry, hl, hready, (hturn.untouched (by rw [hms]; exact hnot) List.not_mem_nil hl₁).1⟩

/-- What is asked of the model by a decode pass: every member has one token for a cache that
nobody has appended to. -/
theorem Prepared.decode_lawful {ms' : List (Nat × Entry)} (h : Prepared e out e₁)
    (hm : S.model.Contract may) (halone : e.Alone S) (hms : ms.map (·.1) = out.prefill.map (·.id))
    (hb : e₁.Batch true ms) (hturn : Turning S may true e₁ ms prefilled [] [] e₂)
    (hms' : ms'.map (·.1) = out.decode) (hb' : e₂.Batch false ms') :
    Lawfully S may (e.planGoal out) false e₂ ms' := by
  refine ⟨hm, ?_, hturn.toPassing.fits trivial (h.prefill_lawful hm halone hms hb) hb.toMembers
    (fun _ hc => absurd hc List.not_mem_nil) hturn.outside, fun m hmem => ?_⟩
  · rw [hturn.shape.geom, h.arranged.store.geom]
    exact halone.geometry
  · have hid : m.1 ∈ out.decode := hms' ▸ List.mem_map_of_mem hmem
    obtain ⟨entry, hl, hready, hl₂⟩ := h.decoding halone.settled hms hturn hid
    rw [hb'.entries m hmem] at hl₂
    obtain rfl : m.2 = entry := Option.some.inj hl₂
    obtain ⟨c, hc, hnext, _⟩ := (halone.committed m.1 m.2 hl).running hready.1
    have hheld : m.2.seq.held = c := by simp [Sequence.held, hc]
    refine ⟨by rw [hheld]; exact hnext, fun hc => by simp at hc, ?_⟩
    rw [planGoal_member (List.mem_append_left _ hid) hl,
      Entry.passTokens_false (hb'.tokens m hmem)]
    unfold Entry.target
    rw [if_pos hready.1]

omit [Zero α] in
/-- Whoever runs stays in the decode pass. -/
theorem decodeMembers_eq {ids : List Nat} (hall : ∀ id ∈ ids, ∃ entry,
    e.requests.lookup id = some entry ∧ entry.seq.state = .running) :
    e.decodeMembers ids = .ok ids := by
  have hall : ∀ id ∈ ids, (do
      let entry ← e.entry id
      pure (decide (entry.seq.state = .running)) : Checked Bool) = .ok true := by
    intro id hid
    obtain ⟨entry, hl, hrun⟩ := hall id hid
    rw [entry_eq hl, ok_bind, hrun]
    rfl
  unfold EngineLoop.decodeMembers
  rw [filterM_ok hall, List.filter_true]

/-- **A step of an engine that has its pool to itself.** -/
theorem Alone.executed (hm : S.model.Contract may) (h : e.Alone S) :
    (execute S e).Returns fun e' => e'.Settled ∧ ∃ out e₁ prefilled e₂ decoded evicted e₃ gone,
      Executed S may e out e₁ prefilled e₂ decoded evicted e₃ gone e' := by
  have hS := hm.shaped
  unfold EngineLoop.execute
  obtain ⟨⟨out, e₁⟩, hbefore, hprep⟩ := h.settled.beforePasses
  have hp₁ : e₁.Prompted := h.prompted.framed (beforePasses_retained e _ hbefore).toFramed
  have hprep : Prepared e out e₁ := hprep
  rw [hbefore, ok_bind]
  -- the prefill pass
  obtain ⟨ms, hms, hb⟩ := exists_batch true (hprep.plan.prefill_nodup h.settled)
    fun id hid => hprep.prefillMember hp₁ hid
  have hs₁ : e₁.Sound (owing true (ms.map (·.1))) [] := by
    rw [hms]
    exact hprep.sound
  obtain ⟨e₂, hpass, hs₂, prefilled, evicted₁, hturn₁⟩ :=
    hs₁.runBatchPass_turning hS hb (hprep.prefill_lawful hm h hms hb)
  have hspared := hturn₁.spared rfl
  subst hspared
  rw [hms] at hpass
  simp only
  rw [hpass, ok_bind]
  -- the decode pass
  have hkept := fun id (hid : id ∈ out.decode) => hprep.decoding h.settled hms hturn₁ hid
  rw [decodeMembers_eq fun id hid => by
    obtain ⟨entry, _, hready, hl₂⟩ := hkept id hid
    exact ⟨entry, hl₂, hready.1⟩, ok_bind]
  have hnd : out.decode.Nodup :=
    hprep.plan.decode.nodup (List.nodup_append.mp h.settled.sound.once).2.1
  obtain ⟨ms', hms', hb'⟩ := exists_batch false hnd fun id hid => by
    obtain ⟨entry, _, hready, hl₂⟩ := hkept id hid
    obtain ⟨hready', htok, hgen⟩ := hs₂.decodeMember hl₂ hready.1
    exact ⟨entry, hl₂, hready', htok, fun _ => hgen⟩
  have howing : e₂.Sound (owing false (ms'.map (·.1))) [] := hs₂
  have hdecode := howing.runBatchPass_turning hS hb'
    (hprep.decode_lawful hm h hms hb hturn₁ hms' hb')
  rw [hms'] at hdecode
  refine Returns.bind hdecode ?_
  rintro e₃ ⟨hs₃, decoded, evicted, hturn₂⟩
  refine hs₃.retireTerminal.mono ?_
  rintro e' ⟨hsettled, gone, hnodup, hended, hdep⟩
  exact ⟨hsettled, out, e₁, prefilled, e₂, decoded, evicted, e₃, gone, hprep,
    ⟨ms, hms, hb.toMembers, hturn₁⟩, ⟨ms', hms', hb'.toMembers, hturn₂⟩, hs₃, hnodup, hended, hdep⟩

end EngineLoop

/-! ### What a stop leaves of the pool

A stop gives the blocks back one cache after the other.  It moves no limit, and it appends
nothing. -/

section

variable {α : Type}

theorem BlockPool.release_ensures (p : BlockPool α) (block : Int) :
    (p.release block).Ensures fun p' => SameShape p p' ∧ p'.exhaustions = p.exhaustions := by
  unfold release
  refine Ensures.bind (ensures_self _) fun _ _ => Ensures.bind (ensures_self _) fun _ _ => ?_
  simp only
  split
  · exact ensures_pure ⟨⟨rfl, rfl, rfl⟩, rfl⟩
  · exact ensures_pure ⟨⟨rfl, rfl, rfl⟩, rfl⟩

theorem PagedKvCache.destroy_ensures (c : PagedKvCache) (p : BlockPool α) :
    (c.destroy p).Ensures fun p' => SameShape p p' ∧ p'.exhaustions = p.exhaustions := by
  unfold destroy BlockTable.freeAll
  refine Ensures.bind (Ensures.bind
    (Q := fun r => SameShape p r.2 ∧ r.2.exhaustions = p.exhaustions)
    (Ensures.foldlM_invariant (I := fun p' => SameShape p p' ∧ p'.exhaustions = p.exhaustions)
      (fun p' b h => (p'.release_ensures b).mono fun _ h' => ⟨h.1.trans h'.1, h'.2.trans h.2⟩) _
      ⟨SameShape.refl _, rfl⟩) fun p' h => ensures_pure h) fun r h => ensures_pure h

end

namespace EngineLoop

variable {σ α : Type} {e e' e'' : EngineLoop σ α} {id : Nat} {entry : Entry}
  {S : Services σ α} {commands : List Command}

/-- What no call on an engine that has its pool to itself moves. -/
structure Fixed (e e' : EngineLoop σ α) : Prop extends Quiet e e' where
  config : e'.config = e.config
  maxModelLen : e'.maxModelLen = e.maxModelLen
  shape : SameShape e.shared.pool e'.shared.pool

theorem Fixed.refl (e : EngineLoop σ α) : Fixed e e := ⟨⟨rfl, rfl⟩, rfl, rfl, SameShape.refl _⟩

theorem Fixed.trans (h : Fixed e e') (h' : Fixed e' e'') : Fixed e e'' :=
  ⟨h.toQuiet.trans h'.toQuiet, h'.config.trans h.config, h'.maxModelLen.trans h.maxModelLen,
    h.shape.trans h'.shape⟩

theorem Departed.fixed {gone : List Nat} {ops : List ChannelOp} (h : Departed e gone ops e') :
    Fixed e e' :=
  ⟨⟨h.others, h.exhaustions⟩, h.config, h.maxModelLen, h.store.shape⟩

theorem Arranged.fixed {victims taken : List Nat} (h : Arranged e victims taken e') :
    Fixed e e' :=
  ⟨⟨h.others, h.exhaustions⟩, h.config, h.maxModelLen, h.store.shape⟩

theorem drainCommands_fixed (commands : List Command) (e : EngineLoop σ α) :
    Fixed e (e.drainCommands commands) := by
  unfold drainCommands
  refine List.foldlRecOn (motive := fun e' => Fixed e e') (b := e) commands
    drainCommand (.refl e) ?_
  intro e₁ h c _
  cases c with
  | submit entry => exact h.trans ⟨⟨rfl, rfl⟩, rfl, rfl, SameShape.refl _⟩
  | cancel id =>
      unfold drainCommand
      cases hl : e₁.requests.lookup id with
      | none => simpa only [hl] using h
      | some entry =>
          simp only [hl]
          exact h.trans ⟨⟨rfl, rfl⟩, rfl, rfl, SameShape.refl _⟩

theorem releaseCache_fixed (e : EngineLoop σ α) (cache : Option PagedKvCache) :
    (e.releaseCache cache).Ensures (Fixed e) := by
  unfold releaseCache
  cases cache with
  | none => exact ensures_pure (.refl e)
  | some c =>
      refine Ensures.bind (c.destroy_ensures e.shared.pool) ?_
      rintro pool ⟨hshape, hexh⟩
      exact ensures_pure ⟨⟨rfl, hexh⟩, rfl, rfl, hshape⟩

theorem closeCancelled_fixed (e : EngineLoop σ α) (id : Nat) :
    (e.closeCancelled id).Ensures (Fixed e) := by
  unfold closeCancelled
  refine Ensures.bind (transition_ensures e id .cancelled) ?_
  rintro e' ⟨entry, _, _, rfl⟩
  exact ensures_pure ⟨⟨rfl, rfl⟩, rfl, rfl, SameShape.refl _⟩

/-- **A stop** leaves the limits and the pool's shape. -/
theorem shutdown_fixed (S : Services σ α) (commands : List Command) (e : EngineLoop σ α) :
    (shutdown S commands e).Ensures (Fixed e) := by
  unfold shutdown
  refine Ensures.bind (Ensures.foldlM_invariant (I := Fixed e) (fun e₁ c h => ?_) commands
    (.refl e)) fun e₁ h₁ => ?_
  · cases c with
    | submit entry =>
        refine Ensures.bind (ensures_self _) fun _ _ => ?_
        refine (releaseCache_fixed _ _).mono fun e₂ h₂ => h.trans (Fixed.trans ?_ h₂)
        exact ⟨⟨rfl, rfl⟩, rfl, rfl, SameShape.refl _⟩
    | cancel id => exact ensures_pure h
  refine Ensures.bind (Ensures.foldlM_invariant (I := Fixed e) (fun e₂ id h => ?_) _ h₁)
    fun e₂ h₂ => ?_
  · unfold shutdownRequest
    refine Ensures.bind (ensures_self _) fun entry _ => ?_
    by_cases hc : entry.seq.isTerminal = true
    · rw [if_pos hc]
      exact ensures_pure h
    · rw [if_neg hc]
      exact (closeCancelled_fixed e₂ id).mono fun _ h' => h.trans h'
  refine Ensures.bind (Ensures.foldlM_invariant (I := Fixed e) (fun e₃ id h => ?_) _ h₂)
    fun e₃ h₃ => ?_
  · unfold eraseRequest
    cases e₃.requests.lookup id with
    | none => exact ensures_pure h
    | some entry =>
        refine Ensures.bind (releaseCache_fixed e₃ entry.seq.cache) fun e₄ h₄ => ?_
        exact ensures_pure (h.trans (h₄.trans ⟨⟨rfl, rfl⟩, rfl, rfl, SameShape.refl _⟩))
  exact ensures_pure (h₃.trans ⟨⟨rfl, rfl⟩, rfl, rfl, SameShape.refl _⟩)

/-! ### A step

A step keeps the engine settled and its accounts in order; the plan has made room for whatever
its passes append. -/

variable [Zero α] {may : Answers α}

theorem Turning.fixed {prefill : Bool} {ms : List (Nat × Entry)} {turn : Nat → Turn}
    {evicted rest : List Nat} (h : Turning S may prefill e ms turn evicted rest e') :
    Fixed e e' :=
  ⟨h.quiet trivial, h.config, h.maxModelLen, h.shape⟩

theorem Executed.fixed {out : SchedulerOutput} {e₁ e₂ e₃ : EngineLoop σ α}
    {prefilled decoded : Nat → Turn} {evicted gone : List Nat}
    (h : Executed S may e out e₁ prefilled e₂ decoded evicted e₃ gone e') : Fixed e e' := by
  obtain ⟨_, _, _, hprefill⟩ := h.prefill
  obtain ⟨_, _, _, hdecode⟩ := h.decode
  exact h.prepared.arranged.fixed.trans
    (hprefill.fixed.trans (hdecode.fixed.trans h.departed.fixed))

/-- One step: the requests `cancelled` leave first, which gives `e₁`; then the engine is idle, or
it executes. -/
structure Round (S : Services σ α) (may : Answers α) (commands : List Command)
    (e : EngineLoop σ α) (cancelled : List Nat) (e₁ : EngineLoop σ α)
    (r : Bool × EngineLoop σ α) : Prop where
  retired : retireCancelled S (e.drainCommands commands) = .ok e₁
  nodup : cancelled.Nodup
  marked : ∀ id, id ∈ cancelled ↔ (e.drainCommands commands).Marked id
  departed : Departed (e.drainCommands commands) cancelled (cancelled.map closeAsCancelled) e₁
  alone : e₁.Alone S
  outcome : (r = (false, e₁) ∧ e₁.waiting = [] ∧ e₁.running = []) ∨
    (r.1 = true ∧ (e₁.waiting ≠ [] ∨ e₁.running ≠ []) ∧
      ∃ out e₂ prefilled e₃ decoded evicted e₄ gone,
        Executed S may e₁ out e₂ prefilled e₃ decoded evicted e₄ gone r.2)

theorem Round.fixed {cancelled : List Nat} {e₁ : EngineLoop σ α} {r : Bool × EngineLoop σ α}
    (h : Round S may commands e cancelled e₁ r) : Fixed e r.2 := by
  have hstart := (drainCommands_fixed commands e).trans h.departed.fixed
  rcases h.outcome with ⟨hr, _⟩ | ⟨_, _, out, e₂, prefilled, e₃, decoded, evicted, e₄, gone, hex⟩
  · rw [hr]
    exact hstart
  · exact hstart.trans hex.fixed

/-- **A step of an engine that has its pool to itself.** -/
theorem Alone.step (hm : S.model.Contract may) (h : e.Alone S) (hq : Queued commands e)
    (hnew : ∀ id ∈ submitted commands, e.closed id = false)
    (hp : (e.drainCommands commands).Prompted) :
    (EngineLoop.step S commands e).Returns fun r =>
      ∃ cancelled e₁, Round S may commands e cancelled e₁ r := by
  unfold EngineLoop.step
  obtain ⟨e₁, h₁, hs₁, cancelled, hnodup, hmarked, hdep⟩ :=
    (h.settled.drain hq hnew).retireCancelled S
  have hfixed := (drainCommands_fixed commands e).trans hdep.fixed
  have halone : e₁.Alone S := by
    refine ⟨hs₁, retireCancelled_committed S (drainCommands_committed hq h.committed).1 e₁ h₁,
      hp.framed (retireCancelled_framed S _ e₁ h₁), ?_, ?_⟩
    · rw [hfixed.others]
      exact h.sole
    · rw [hfixed.shape.geom]
      exact h.geometry
  rw [h₁, ok_bind]
  by_cases hidle : (e₁.waiting.isEmpty && e₁.running.isEmpty) = true
  · rw [if_pos hidle]
    rw [Bool.and_eq_true, List.isEmpty_iff, List.isEmpty_iff] at hidle
    exact returns_pure ⟨cancelled, e₁, h₁, hnodup, hmarked, hdep, halone, Or.inl ⟨rfl, hidle⟩⟩
  · rw [if_neg hidle]
    refine Returns.bind (halone.executed hm) ?_
    rintro e₂ ⟨_, hex⟩
    refine returns_pure ⟨cancelled, e₁, h₁, hnodup, hmarked, hdep, halone, Or.inr ⟨rfl, ?_, hex⟩⟩
    rw [Bool.and_eq_true, List.isEmpty_iff, List.isEmpty_iff, not_and_or] at hidle
    exact hidle

end EngineLoop

/-! ### Runs

Without other users of the pool each event is one of the calls, and each call keeps the
invariant. -/

/-- The runs in which nobody else uses the pool. -/
def aloneSystem {σ α : Type} (S : Services σ α) (state : σ) (pool : BlockPool α)
    (config : EngineConfig) : Transition (Engine σ α) EngineCall :=
  (engineSystem S state pool config).restrict fun _ call => ∀ use, call ≠ .use use

namespace Engine

open EngineLoop

variable {σ α : Type} [Zero α] {S : Services σ α} {may : Answers α} {e e' : Engine σ α}
  {geom : CacheGeometry} {blockSize numBlocks : Int} {state : σ} {pool : BlockPool α}
  {config : EngineConfig} {call : EngineCall}

/-- An engine between two calls that has its pool to itself. -/
structure Alone (S : Services σ α) (e : Engine σ α) : Prop extends e.AtRest S where
  committed : e.loop.AllCommitted
  sole : e.loop.shared.others = []

omit [Zero α] in
theorem Alone.loop (h : e.Alone S) : e.loop.Alone S :=
  ⟨h.settled, h.committed, h.prompted, h.sole, h.geom⟩

/-- The next step of an engine that has its pool to itself. -/
theorem Alone.round (hm : S.model.Contract may) (h : e.Alone S) :
    (EngineLoop.step S e.queue.commands e.loop).Returns fun r =>
      ∃ cancelled e₁, Round S may e.queue.commands e.loop cancelled e₁ r :=
  h.loop.step hm h.queued h.open_of_submitted h.drained

/-- No call moves the limits, and no append finds the pool empty. -/
theorem Alone.run_fixed (hm : S.model.Contract may) (h : e.Alone S)
    (halone : ∀ use, call ≠ .use use) (hrun : e.run S call = .ok e') :
    Fixed e.loop e'.loop := by
  cases call with
  | submit request drawnSeed =>
      have hsame : (e.submit request drawnSeed).2.loop = e.loop := by
        unfold Engine.submit
        cases validateSubmit e.loop request drawnSeed with
        | error status => rfl
        | ok seq => by_cases hstop : e.queue.stopRequested = true <;> simp [hstop]
      cases hrun
      rw [hsame]
      exact .refl _
  | cancel id =>
      cases hrun
      exact .refl _
  | step =>
      obtain ⟨⟨more, e₁⟩, hstep, heq⟩ := bind_eq_ok.mp hrun
      obtain ⟨⟨more', loop⟩, hloop, hpair⟩ := bind_eq_ok.mp hstep
      cases heq
      cases hpair
      obtain ⟨cancelled, e₁, hround⟩ := (h.round hm).of_eq hloop
      exact hround.fixed
  | stop =>
      obtain ⟨loop, hloop, heq⟩ := bind_eq_ok.mp hrun
      cases heq
      exact shutdown_fixed S _ _ loop hloop
  | use u => exact absurd rfl (halone u)

theorem Alone.run (hm : S.model.Contract may) (h : e.Alone S) (halone : ∀ use, call ≠ .use use)
    (hrun : e.run S call = .ok e') : e'.Alone S := by
  have hpos : 0 < S.model.geometry.numLayers := h.geom ▸ h.settled.sound.exclusive.layers_pos
  refine ⟨(h.toAtRest.run hm.shaped call).of_eq hrun,
    run_committed hm hpos h.toBooked h.committed call e' hrun, ?_⟩
  rw [(h.run_fixed hm halone hrun).others]
  exact h.sole

theorem Alone.create (hpool : BlockPool.create geom blockSize numBlocks = .ok pool)
    (hids : numBlocks ≤ 2 ^ 31) (h : Engine.create S state pool config = .ok e) : e.Alone S := by
  obtain ⟨_, hshared, _⟩ := create_ensures S state pool config e h
  exact ⟨AtRest.create hpool hids h, create_committed h, by rw [hshared]⟩

theorem reachable_alone (hm : S.model.Contract may)
    (hpool : BlockPool.create geom blockSize numBlocks = .ok pool) (hids : numBlocks ≤ 2 ^ 31)
    (h : (aloneSystem S state pool config).Reachable e) :
    e.Alone S ∧ e.loop.shared.pool.exhaustions = 0 := by
  refine h.invariant (I := fun e => e.Alone S ∧ e.loop.shared.pool.exhaustions = 0)
    (fun e he => ⟨Alone.create hpool hids he, ?_⟩) ?_
  · obtain ⟨_, hshared, _⟩ := create_ensures S state pool config e he
    rw [hshared, (BlockPool.create_ok hpool).pool_eq]
    rfl
  · rintro e call e' _ ⟨halone, hexh⟩ ⟨hcall, hrun⟩
    refine ⟨halone.run hm hcall hrun, ?_⟩
    rw [(halone.run_fixed hm hcall hrun).exhaustions]
    exact hexh

/-! ### The books

In a reachable state the owners of blocks are the running sequences, and each owns as many as
its length takes. -/

/-- The books of an engine between two calls. -/
structure Accounts (e : Engine σ α) : Prop where
  /-- no append has found the pool empty -/
  exhaustions : e.loop.shared.pool.exhaustions = 0
  used : e.loop.shared.pool.used = IdMap.total e.loop.requests fun _ entry =>
    if entry.seq.state = .running then entry.seq.held.length ⌈/⌉ e.loop.shared.pool.blockSize else 0
  waiting : ∀ id ∈ e.loop.waiting, ∀ entry, e.loop.requests.lookup id = some entry →
    entry.seq.blocks = 0
  running : ∀ id ∈ e.loop.running, ∀ entry, e.loop.requests.lookup id = some entry → ∃ c,
    entry.seq.cache = some c ∧
      c.length + 1 = entry.request.promptIds.length + entry.seq.generatedIds.length ∧
      c.table.blocks.length = c.length ⌈/⌉ e.loop.shared.pool.blockSize
  disjoint : ∀ id id' entry entry', id ≠ id' → e.loop.requests.lookup id = some entry →
    e.loop.requests.lookup id' = some entry' → Disjoint entry.seq.blocks entry'.seq.blocks
  refcount : ∀ id entry, e.loop.requests.lookup id = some entry → ∀ b ∈ entry.seq.blocks,
    e.loop.shared.pool.refcounts b = 1
  idle : (∀ id, id ∉ e.loop.requests) → e.loop.shared.pool.used = 0

omit [Zero α] in
/-- The blocks in use are those of the sequences that run, each as many as its length needs. -/
theorem Alone.used_eq (h : e.Alone S) : e.loop.shared.pool.used
    = IdMap.total e.loop.requests fun _ entry => if entry.seq.state = .running then
        entry.seq.held.length ⌈/⌉ e.loop.shared.pool.blockSize else 0 := by
  have hs := h.settled.sound
  have he := hs.exclusive
  rw [h.sole, Multiset.coe_nil, add_zero] at he
  have hused := he.owned.used_eq_card
  rw [Multiset.toFinset_card_of_nodup he.nodup] at hused
  have hcard : Multiset.card e.loop.owned = Multiset.cardHom e.loop.owned := rfl
  rw [hused, hcard, EngineLoop.owned, IdMap.map_total]
  refine IdMap.total_congr fun id entry hl => ?_
  show Multiset.card entry.seq.blocks = _
  by_cases hrun : entry.seq.state = .running
  · have hready := (hs.running_of_state hl hrun).2
    rw [if_pos hrun, Sequence.blocks_some hready.cache_eq, Multiset.coe_card,
      hs.held_blocks hl hready]
  · rw [if_neg hrun]
    rcases List.mem_append.mp ((hs.live id).mpr (IdMap.mem_of_lookup hl)) with hw | hr
    · rw [((hs.parked id hw entry hl).resolve_left List.not_mem_nil).blocks]
      rfl
    · exact absurd (h.settled.running id hr entry hl) hrun

omit [Zero α] in
theorem Alone.accounts (h : e.Alone S) (hexh : e.loop.shared.pool.exhaustions = 0) :
    e.Accounts := by
  have hs := h.settled.sound
  have he := hs.exclusive
  have hused := h.used_eq
  refine ⟨hexh, hused, fun id hid entry hl =>
    ((hs.parked id hid entry hl).resolve_left List.not_mem_nil).blocks, fun id hid entry hl => ?_,
    fun id id' entry entry' hne hl hl' => ?_, fun id entry hl b hb => ?_, fun hnone => ?_⟩
  · have hrun := h.settled.running id hid entry hl
    obtain ⟨c, hc, _, hlen⟩ := (h.committed id entry hl).running hrun
    exact ⟨c, hc, hlen, (hs.wf id entry c hl hc).sized⟩
  · have hnd := he.nodup
    rw [EngineLoop.owned, IdMap.total_erase hl, add_assoc] at hnd
    refine (Multiset.nodup_add.mp hnd).2.2.mono_right ?_
    refine le_trans ?_ (Multiset.le_add_right _ _)
    exact IdMap.le_total (IdMap.lookup_erase_iff.mpr ⟨hne.symm, hl'⟩)
      fun _ entry => entry.seq.blocks
  · rw [he.owned.refcount_eq]
    refine Multiset.count_eq_one_of_mem he.nodup (Multiset.mem_add.mpr (Or.inl ?_))
    exact Multiset.mem_of_le (IdMap.le_total hl fun _ entry => entry.seq.blocks) hb
  · rw [hused]
    have hempty : ∀ id entry, e.loop.requests.lookup id = some entry → False :=
      fun id entry hl => hnone id (IdMap.mem_of_lookup hl)
    rw [IdMap.total_congr (g := fun _ _ => 0) fun id entry hl => (hempty id entry hl).elim]
    unfold IdMap.total
    simp

/-- **The books of a reachable engine are exact.**  However submits, cancels, steps and stops
interleave, and whatever a model that keeps its contract answers, no append has found the pool
empty; the blocks in use are those of the running sequences, which hold all their tokens but the
last; no two sequences share a block; and an engine without requests holds none. -/
theorem reachable_accounted (hm : S.model.Contract may)
    (hpool : BlockPool.create geom blockSize numBlocks = .ok pool) (hids : numBlocks ≤ 2 ^ 31)
    (h : (aloneSystem S state pool config).Reachable e) : e.Accounts := by
  obtain ⟨halone, hexh⟩ := reachable_alone hm hpool hids h
  exact halone.accounts hexh

omit [Zero α] in
theorem alone_of_foldlM {calls : List EngineCall} (hcalls : ∀ call ∈ calls, ∀ use, call ≠ .use use)
    (h : (aloneSystem S state pool config).Reachable e) :
    (calls.foldlM (Engine.run S) e).Ensures (aloneSystem S state pool config).Reachable := by
  induction calls generalizing e with
  | nil => exact ensures_pure h
  | cons call rest ih =>
      rw [List.foldlM_cons]
      refine Ensures.bind (ensures_self _) fun e' hrun => ?_
      exact ih (fun c hc => hcalls c (List.mem_cons_of_mem _ hc))
        (.step h ⟨hcalls call List.mem_cons_self, hrun⟩)

/-- **Any list of submits, cancels, steps and stops on a new engine leaves the books exact.** -/
theorem run_accounted (hm : S.model.Contract may)
    (hpool : BlockPool.create geom blockSize numBlocks = .ok pool) (hids : numBlocks ≤ 2 ^ 31)
    (hcreate : Engine.create S state pool config = .ok e) (calls : List EngineCall)
    (hcalls : ∀ call ∈ calls, ∀ use, call ≠ .use use) :
    ∃ e', calls.foldlM (Engine.run S) e = .ok e' ∧ e'.Accounts := by
  obtain ⟨e', hrun, -⟩ := (AtRest.create hpool hids hcreate).runs hm.shaped calls
  have hreach : (aloneSystem S state pool config).Reachable e' :=
    alone_of_foldlM hcalls (.init hcreate) e' hrun
  obtain ⟨halone, hexh⟩ := reachable_alone hm hpool hids hreach
  exact ⟨e', hrun, halone.accounts hexh⟩

end Engine

/-! ### One run

Three blocks for two sequences: the second is evicted when the first needs the last block. -/

theorem zeroRun_alone {calls : List EngineCall} (hcalls : ∀ call ∈ calls, ∀ use, call ≠ .use use) :
    (zeroRun false calls).Ensures
      (aloneSystem (zeroServices false) () zeroPool zeroConfig).Reachable := by
  unfold zeroRun
  cases he : Engine.create (zeroServices false) () zeroPool zeroConfig with
  | error status => exact ensures_error _
  | ok e => exact Engine.alone_of_foldlM hcalls (.init he)

/-- Two sequences that outgrow three blocks: the second has been evicted. -/
theorem reachable_accounted_evicted : ∃ e,
    (aloneSystem (zeroServices false) () zeroPool zeroConfig).Reachable e ∧
      e.loop.preemptionCount = 1 ∧ e.loop.shared.pool.used = 2 ∧ e.Accounts := by
  obtain ⟨e, hrun, htest⟩ := exists_of_test (zeroRun false
    [.submit (zeroRequest 8) 0, .submit (zeroRequest 8) 0, .step, .step])
    (fun e => e.loop.preemptionCount = 1 && e.loop.shared.pool.used = 2) (by decide +kernel)
  rw [Bool.and_eq_true, decide_eq_true_eq, decide_eq_true_eq] at htest
  have hreach := zeroRun_alone (by simp) e hrun
  have hpool : BlockPool.create ⟨1, 1, 1, .float32⟩ 8 3 = .ok zeroPool := rfl
  exact ⟨e, hreach, htest.1, htest.2,
    Engine.reachable_accounted zeroModel_contract hpool (by decide) hreach⟩

/-- The calls of the same run; a stop behind them leaves the pool empty. -/
theorem run_accounted_stopped : ∃ e e',
    Engine.create (zeroServices false) () zeroPool zeroConfig = .ok e ∧
      [.submit (zeroRequest 8) 0, .submit (zeroRequest 8) 0, .step, .step, .stop].foldlM
        (Engine.run (zeroServices false)) e = .ok e' ∧
      e'.loop.preemptionCount = 1 ∧ e'.loop.shared.pool.used = 0 ∧ e'.Accounts := by
  obtain ⟨e', hrun, htest⟩ := exists_of_test (zeroRun false
    [.submit (zeroRequest 8) 0, .submit (zeroRequest 8) 0, .step, .step, .stop])
    (fun e => e.loop.preemptionCount = 1 && e.loop.shared.pool.used = 0) (by decide +kernel)
  rw [Bool.and_eq_true, decide_eq_true_eq, decide_eq_true_eq] at htest
  obtain ⟨e, hcreate, hcalls⟩ := zeroRun_created hrun
  have hpool : BlockPool.create ⟨1, 1, 1, .float32⟩ 8 3 = .ok zeroPool := rfl
  obtain ⟨e₁, hrun₁, hacc⟩ := Engine.run_accounted zeroModel_contract hpool (by decide) hcreate
    [.submit (zeroRequest 8) 0, .submit (zeroRequest 8) 0, .step, .step, .stop] (by simp)
  obtain rfl : e₁ = e' := Except.ok.inj (hrun₁.symm.trans hcalls)
  exact ⟨e, e₁, hcreate, hcalls, htest.1, htest.2, hacc⟩

end InferenceEngine
