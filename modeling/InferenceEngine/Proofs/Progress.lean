/-
The counter of a sequence over whole runs.

Every function keeps the caches of the running sequences one token short, so between two
calls a counter agrees with its cache exactly when it is one short of the tokens as well.
Nothing but an eviction and a delivered token touches the counter: a sequence is admitted with
its whole context uncounted, and stays that far behind until it is evicted or ends.
-/
import InferenceEngine.Proofs.Committed
import InferenceEngine.Proofs.Preemption

namespace InferenceEngine

open Except

namespace EngineLoop

variable {σ α : Type} {e e' e'' : EngineLoop σ α} {id : Nat} {entry : Entry} {S : Services σ α}
  {out : SchedulerOutput} {commands : List Command}

/-- Every live sequence is between two passes. -/
def AllCommitted (e : EngineLoop σ α) : Prop := e.Each fun _ entry => entry.Committed

/-! ### Requests that leave

Whoever is dropped is gone, and nothing else has changed. -/

/-- A part of a step that drops requests and leaves the others alone. -/
def Drops (e e' : EngineLoop σ α) : Prop :=
  ∀ id entry, e'.requests.lookup id = some entry → e.requests.lookup id = some entry

theorem Drops.each {P : Nat → Entry → Prop} (h : Drops e e') (hP : e.Each P) : e'.Each P :=
  fun id entry hl => hP id entry (h id entry hl)

theorem eraseRequest_drops (e : EngineLoop σ α) (id : Nat) :
    (e.eraseRequest id).Ensures (Drops e) := by
  refine (eraseRequest_ensures e id).mono ?_
  rintro e' ⟨pool, _, rfl⟩ id' entry hl
  exact (IdMap.lookup_erase_iff.mp hl).2

theorem drops_foldlM {f : EngineLoop σ α → Nat → Checked (EngineLoop σ α)}
    (step : ∀ e id, (f e id).Ensures (Drops e)) (ids : List Nat) (e : EngineLoop σ α) :
    (ids.foldlM f e).Ensures (Drops e) :=
  Ensures.foldlM_invariant (I := Drops e)
    (fun e₁ id h => (step e₁ id).mono fun _ h' id' entry hl => h id' entry (h' id' entry hl)) ids
    fun _ _ hl => hl

theorem retireTerminal_drops (e : EngineLoop σ α) : e.retireTerminal.Ensures (Drops e) := by
  unfold EngineLoop.retireTerminal
  refine Ensures.bind (P := fun er => er.1.requests = e.requests) ?_ ?_
  · refine Ensures.foldlM_invariant
      (I := fun er : EngineLoop σ α × List Nat => er.1.requests = e.requests) ?_ e.running rfl
    intro er id h
    unfold closeTerminal
    refine Ensures.bind (ensures_self _) fun entry _ => ?_
    by_cases hc : entry.seq.isTerminal = true
    · rw [if_pos hc]
      exact Ensures.bind (ensures_self _) fun info _ => ensures_pure h
    · rw [if_neg hc]
      exact ensures_pure h
  · rintro ⟨e₁, retired⟩ h₁
    refine (drops_foldlM (fun e₂ id => ?_) retired e₁).mono fun e₂ h₂ id entry hl => ?_
    · exact eraseRequest_drops _ id
    · have := h₂ id entry hl
      rwa [h₁] at this

theorem retireCancelled_committed (S : Services σ α) (h : e.AllCommitted) :
    (retireCancelled S e).Ensures AllCommitted := by
  unfold retireCancelled
  refine Ensures.bind (P := fun er => AllCommitted er.1) ?_ ?_
  · refine Ensures.foldlM_invariant
      (I := fun er : EngineLoop σ α × List Nat => AllCommitted er.1) ?_ _ h
    intro er id h₁
    unfold cancelOne
    refine Ensures.bind (ensures_self _) fun entry _ => ?_
    by_cases hc : (entry.cancelRequested && !entry.seq.isTerminal) = true
    · rw [if_pos hc]
      unfold closeCancelled
      refine Ensures.bind (Ensures.bind (transition_ensures er.1 id .cancelled)
        (Q := AllCommitted) ?_) fun e₂ h₂ => ensures_pure h₂
      rintro e₂ ⟨entry₁, _, _, rfl⟩
      refine ensures_pure fun id' entry' hl => ?_
      rcases lookup_setSeq.mp hl with ⟨_, rfl⟩ | ⟨_, hl⟩
      · exact Entry.committed_of_ended (Or.inr (Or.inr rfl))
      · exact h₁ id' entry' hl
    · rw [if_neg hc]
      exact ensures_pure h₁
  · rintro ⟨e₁, retired⟩ h₁
    refine (drops_foldlM (fun e₂ id => ?_) retired e₁).mono fun e₂ h₂ => h₂.each h₁
    exact eraseRequest_drops _ id

/-! ### Requests that arrive

A new request waits, has no cache and has counted nothing. -/

theorem drainCommands_committed (hq : Queued commands e) (h : e.AllCommitted) :
    (e.drainCommands commands).AllCommitted ∧ Kept e (e.drainCommands commands) := by
  refine drainCommands_induction (fun e' => e'.AllCommitted ∧ Kept e e') ?_ ?_ commands e hq
    ⟨h, .refl e⟩
  · rintro e₁ entry ⟨h₁, hkept⟩ _ _ hseq
    refine ⟨fun id' entry' hl => ?_, hkept.trans ⟨rfl, fun id' entry' hl hr => ?_⟩⟩
    · rcases IdMap.lookup_insert_iff.mp hl with ⟨_, rfl⟩ | ⟨_, hl⟩
      · exact Entry.committed_unstarted hseq
      · exact h₁ id' entry' hl
    · rcases IdMap.lookup_insert_iff.mp hl with ⟨_, rfl⟩ | ⟨_, hl⟩
      · rw [hseq.state] at hr
        cases hr
      · exact ⟨entry', hl, hr, rfl⟩
  · rintro e₁ id entry ⟨h₁, hkept⟩ hlook
    refine ⟨fun id' entry' hl => ?_, hkept.trans (revised_mark hlook).toKept⟩
    rcases IdMap.lookup_insert_iff.mp hl with ⟨_, rfl⟩ | ⟨_, hl⟩
    · exact ⟨(h₁ id entry hlook).running, (h₁ id entry hlook).waiting,
        (h₁ id entry hlook).preempted⟩
    · exact h₁ id' entry' hl

/-! ### Admission

An admitted sequence is given an empty cache and has its whole context to feed.  Its counter is
left where it was, which is where the counter and the cache part. -/

/-- Some plan has been made and its victims are evicted: what waited is as it was. -/
theorem preempt_committed (hl : e.Listed) (h : e.AllCommitted) (ids : List Nat) :
    (ids.foldlM preemptSequence e).Ensures fun e' => e'.AllCommitted ∧ Kept e e' ∧
      ∀ id ∈ e.waiting, e'.requests.lookup id = e.requests.lookup id := by
  refine Ensures.foldlM_invariant (I := fun e' => e'.AllCommitted ∧ Kept e e' ∧
    ∀ id ∈ e.waiting, e'.requests.lookup id = e.requests.lookup id) ?_ ids
    ⟨h, .refl e, fun _ _ => rfl⟩
  rintro e₁ v ⟨h₁, hkept, hwait⟩
  refine (preemptSequence_ensures e₁ v).mono ?_
  rintro e₂ ⟨entry, pool, hv, hrun, hgeom, rfl⟩
  refine ⟨h₁.evict (Entry.committed_evicted entry),
    hkept.trans (steady_evict hv hrun hgeom).toKept, fun id hid => ?_⟩
  have hne : id ≠ v := by
    rintro rfl
    have hw := hwait id hid
    rw [hv] at hw
    exact hl.idle id hid entry hw.symm hrun
  rw [← hwait id hid]
  exact AList.lookup_insert_ne hne

/-- The admission of a plan, with some prefills still to come. -/
structure Admitting (e : EngineLoop σ α) (prefill rest : List Prefill) (e' : EngineLoop σ α) :
    Prop where
  geom : e'.shared.pool.geom = e.shared.pool.geom
  due : ∀ p ∈ rest, e'.requests.lookup p.id = e.requests.lookup p.id
  outside : ∀ id entry, id ∉ prefill.map (·.id) → e'.requests.lookup id = some entry →
    entry.Committed
  seated : ∀ p ∈ prefill, p.id ∉ rest.map (·.id) → ∀ entry, e'.requests.lookup p.id = some entry →
    entry.Seated true
  running : ∀ id entry, e'.requests.lookup id = some entry → entry.seq.state = .running →
    (∃ old, e.requests.lookup id = some old ∧ old.seq.state = .running ∧
      entry.drift = old.drift) ∨
    ∃ p ∈ prefill, p.id = id ∧ entry.drift = -p.numTokens

theorem Admitting.step {prefill rest : List Prefill} {p : Prefill} (hc : e.AllCommitted)
    (hplan : ∀ q ∈ prefill, ∃ entry, e.requests.lookup q.id = some entry ∧
      q.numTokens = entry.context)
    (hp : p ∈ prefill) (h : Admitting e prefill (p :: rest) e')
    (hlook : e'.requests.lookup p.id = some entry)
    (hlegal : isLegalTransition entry.seq.state .running = true)
    (hrun : entry.seq.state ≠ .running) (hrest : p.id ∉ rest.map (·.id)) :
    Admitting e prefill rest (e'.admitted p.id entry) := by
  have hold : e.requests.lookup p.id = some entry := (h.due p List.mem_cons_self).symm.trans hlook
  have hstate : entry.seq.state = .waiting ∨ entry.seq.state = .preempted := by
    revert hlegal hrun
    cases entry.seq.state <;> simp [isLegalTransition]
  obtain ⟨hseated, hdrift⟩ := Entry.seated_admitted (hc p.id entry hold) hstate
  have hcases : ∀ {id entry'}, (e'.admitted p.id entry).requests.lookup id = some entry' →
      (id = p.id ∧ { entry with seq := { entry.seq.ensureCache with state := .running } } = entry')
        ∨ (id ≠ p.id ∧ e'.requests.lookup id = some entry') := fun hl => lookup_setSeq.mp hl
  refine ⟨h.geom, fun q hq => ?_, fun id entry' hid hl => ?_, fun q hq hid entry' hl => ?_,
    fun id entry' hl hr => ?_⟩
  · have hne : q.id ≠ p.id := fun heq => hrest (heq ▸ List.mem_map_of_mem hq)
    rw [← h.due q (List.mem_cons_of_mem _ hq)]
    exact AList.lookup_insert_ne hne
  · rcases hcases hl with ⟨rfl, _⟩ | ⟨_, hl⟩
    · exact absurd (List.mem_map_of_mem hp) hid
    · exact h.outside id entry' hid hl
  · rcases hcases hl with ⟨_, rfl⟩ | ⟨hne, hl⟩
    · exact hseated
    · refine h.seated q hq (fun hmem => ?_) entry' hl
      rw [List.map_cons, List.mem_cons] at hmem
      exact hmem.elim hne hid
  · rcases hcases hl with ⟨rfl, rfl⟩ | ⟨_, hl⟩
    · refine Or.inr ⟨p, hp, rfl, ?_⟩
      obtain ⟨entry', hl', hnum⟩ := hplan p hp
      rw [hold] at hl'
      cases hl'
      rw [hdrift, hnum]
    · exact h.running id entry' hl hr

/-- **A step up to its passes** leaves what is admitted seated and the rest committed. -/
theorem beforePasses_committed (hl : e.Listed) (h : e.AllCommitted) :
    e.beforePasses.Ensures fun r => Admitting e r.1.prefill [] r.2 := by
  refine (beforePasses_ensures e).mono ?_
  rintro ⟨out, e₂⟩ ⟨e₁, _, hplan, he₁, he₂⟩
  obtain ⟨hc, hkept, hwait⟩ := preempt_committed hl h out.preempt e₁ he₁
  obtain ⟨hsteady, hwaiting⟩ := preempt_foldlM_ensures out.preempt e _ he₁
  have hnd := hplan.prefill.nodup (List.nodup_append.mp hl.once).1
  have hmem : ∀ p ∈ out.prefill, p.id ∈ e.waiting := fun p hp =>
    hplan.prefill.subset (List.mem_map_of_mem hp)
  refine (admit_foldlM_ensures (fun rest e' => (∀ p ∈ rest, p ∈ out.prefill) ∧
    Admitting e out.prefill rest e') ?_ out.prefill e₁ ⟨fun _ hp => hp, hkept.geom,
      fun p hp => hwait _ (hmem p hp), fun id entry _ => hc id entry, fun p hp hno => ?_,
      fun id entry hlook hr => Or.inl (hkept.running id entry hlook hr)⟩ (hsteady.listed hl) hnd
      fun p hp => hwaiting _ (hmem p hp)).mono (fun _ h' => h'.2.2) _ he₂
  · rintro p rest e' entry ⟨hsub, hadm⟩ hl' hw hlook hlegal hrest
    refine ⟨fun q hq => hsub q (List.mem_cons_of_mem _ hq), ?_⟩
    exact hadm.step h hplan.numTokens (hsub p List.mem_cons_self) hlook hlegal
      (hl'.idle _ hw entry hlook) hrest
  · exact absurd (List.mem_map_of_mem hp) hno

/-! ### One step

The parts of a step are put together.  The counters are carried along from before the step, one
more for each token delivered. -/

/-- Where the counter of a sequence that runs after a step comes from. -/
def Carried (e : EngineLoop σ α) (out : SchedulerOutput) (e' : EngineLoop σ α) : Prop :=
  ∀ id entry, e'.requests.lookup id = some entry → entry.seq.state = .running →
    (∃ old, e.requests.lookup id = some old ∧ old.seq.state = .running ∧
      entry.drift = old.drift) ∨
    ∃ p ∈ out.prefill, p.id = id ∧ entry.drift = -p.numTokens

theorem Carried.kept (h : Carried e out e') (hk : Kept e' e'') : Carried e out e'' := by
  intro id entry hl hr
  obtain ⟨entry', hl', hr', hd⟩ := hk.running id entry hl hr
  rw [hd]
  exact h id entry' hl' hr'

section

variable [Zero α] {may : Answers α}

theorem Stepped.committed {e₁ e₂ e₃ : EngineLoop σ α} {pass : List Nat}
    (hm : S.model.Contract may) (hpos : 0 < S.model.geometry.numLayers)
    (h : Stepped S e out e₁ e₂ pass e₃ e') (hl : e.Listed) (hc : e.AllCommitted)
    (hgeom : e.shared.pool.geom = S.model.geometry) : e'.AllCommitted ∧ Carried e out e' := by
  have hadm := beforePasses_committed hl hc _ h.before
  obtain ⟨_, _, hplan, _⟩ := beforePasses_ensures e _ h.before
  simp only at hadm hplan
  have hnodup := List.nodup_append.mp hl.once
  -- the prefill pass
  have hboard : e₁.Each (Boarding true (out.prefill.map (·.id))) := by
    intro id entry hlook
    unfold Boarding
    by_cases hid : id ∈ out.prefill.map (·.id)
    · rw [if_pos hid]
      obtain ⟨p, hp, rfl⟩ := List.mem_map.mp hid
      exact hadm.seated p hp List.not_mem_nil entry hlook
    · rw [if_neg hid]
      exact hadm.outside id entry hid hlook
  have hgeom₁ : e₁.shared.pool.geom = S.model.geometry := hadm.geom.trans hgeom
  have h₂ := runBatchPass_committed hm hpos (hplan.prefill.nodup hnodup.1) hgeom₁ hboard _ h.prefill
  have hk₂ := (runBatchPass_steady S true _ e₁ _ h.prefill).toKept
  -- the decode pass
  obtain ⟨hsub, hmembers⟩ := Ensures.filterM out.decode _ h.members
  have hboard' : e₂.Each (Boarding false pass) := by
    intro id entry hlook
    unfold Boarding
    by_cases hid : id ∈ pass
    · rw [if_pos hid]
      have htest := hmembers id hid
      rw [entry_eq hlook, ok_bind] at htest
      exact (h₂ id entry hlook).seated (of_decide_eq_true (Except.ok.inj htest))
    · rw [if_neg hid]
      exact h₂ id entry hlook
  have hnd : pass.Nodup := (hsub.trans hplan.decode).nodup hnodup.2.1
  have h₃ := runBatchPass_committed hm hpos hnd (hk₂.geom.trans hgeom₁) hboard' _ h.decode
  have hk₃ := (runBatchPass_steady S false pass e₂ _ h.decode).toKept
  refine ⟨(retireTerminal_drops e₃ _ h.retire).each h₃, ?_⟩
  have hcarried : Carried e out e₁ := hadm.running
  exact hcarried.kept (hk₂.trans (hk₃.trans (retireTerminal_steady e₃ _ h.retire).toKept))

/-- **A step** keeps the caches one token short, and carries the counters. -/
theorem step_committed (hm : S.model.Contract may) (hpos : 0 < S.model.geometry.numLayers)
    (hl : e.Listed) (hq : Queued commands e) (hc : e.AllCommitted)
    (hgeom : e.shared.pool.geom = S.model.geometry) :
    (step S commands e).Ensures fun r => r.2.AllCommitted ∧ ∃ e₁, e₁.Listed ∧ Kept e e₁ ∧
      retireCancelled S (e.drainCommands commands) = .ok e₁ ∧
        (Kept e₁ r.2 ∨ ∃ out, e₁.scheduleStep = .ok out ∧ Carried e₁ out r.2) := by
  refine (step_ensures S commands e).mono ?_
  rintro r ⟨e₁, he₁, hr⟩
  obtain ⟨hdrained, hkept⟩ := drainCommands_committed hq hc
  have hc₁ := retireCancelled_committed S hdrained _ he₁
  have hl₁ := (retireCancelled_ordered hl hq _ he₁).listed
  have hk₁ := hkept.trans (retireCancelled_steady S _ _ he₁).toKept
  rcases hr with hr | hr
  · rw [hr]
    exact ⟨hc₁, e₁, hl₁, hk₁, he₁, Or.inl (.refl e₁)⟩
  · obtain ⟨out, e₂, e₃, pass, e₄, hstep⟩ := execute_ensures S e₁ _ hr
    obtain ⟨hc', hcarried⟩ := hstep.committed hm hpos hl₁ hc₁ (hk₁.geom.trans hgeom)
    obtain ⟨_, hout, _⟩ := beforePasses_ensures e₁ _ hstep.before
    exact ⟨hc', e₁, hl₁, hk₁, he₁, Or.inr ⟨out, hout, hcarried⟩⟩

end

end EngineLoop

/-! ### Runs

The invariant of a step is one of every run.  What decides about the counters is how many tokens
a sequence was admitted with. -/

/-- A counter agrees with its cache when it is one short of the tokens. -/
theorem Entry.Committed.agrees_iff {entry : Entry} (h : entry.Committed)
    (hrun : entry.seq.state = .running) :
    (∃ c, entry.seq.cache = some c ∧ entry.seq.numComputedTokens = c.length) ↔
      entry.drift = -1 := by
  obtain ⟨c, hc, _, hlen⟩ := h.running hrun
  unfold Entry.drift
  rw [← hlen]
  refine ⟨?_, fun hd => ⟨c, hc, ?_⟩⟩
  · rintro ⟨c', hc', hnum⟩
    rw [hc] at hc'
    cases hc'
    rw [hnum]
    push_cast
    omega
  · push_cast at hd
    omega

namespace Engine

open EngineLoop

variable {σ α : Type} [Zero α] {S : Services σ α} {e e' : Engine σ α} {may : Answers α}
  {state : σ} {pool : BlockPool α} {config : EngineConfig}

theorem run_committed (hm : S.model.Contract may) (hpos : 0 < S.model.geometry.numLayers)
    (hb : e.Booked S) (hc : e.loop.AllCommitted) (call : EngineCall) :
    (e.run S call).Ensures fun e' => e'.loop.AllCommitted := by
  cases call with
  | submit request drawnSeed =>
      refine ensures_pure ?_
      unfold Engine.submit
      cases validateSubmit e.loop request drawnSeed with
      | error status => exact hc
      | ok seq =>
          simp only
          by_cases hstop : e.queue.stopRequested = true
          · rw [if_pos hstop]
            exact hc
          · rw [if_neg hstop]
            exact hc
  | cancel id => exact ensures_pure hc
  | step =>
      refine Ensures.bind (Ensures.bind (step_committed hm hpos hb.listed hb.queued hc hb.geom)
        (Q := fun r => r.2.loop.AllCommitted) ?_) ?_
      · rintro ⟨more, loop⟩ ⟨hloop, _⟩
        exact ensures_pure hloop
      · rintro ⟨more, e'⟩ he'
        exact ensures_pure he'
  | stop =>
      refine Ensures.bind (shutdown_empty S e.queue.commands e.loop) ?_
      rintro loop ⟨hmem, _⟩
      exact ensures_pure fun id entry hl => absurd (IdMap.mem_of_lookup hl) (hmem id)
  | use u =>
      exact Ensures.bind (ensures_self _) fun shared _ => ensures_pure hc

omit [Zero α] in
theorem create_committed (h : Engine.create S state pool config = .ok e) :
    e.loop.AllCommitted := by
  obtain ⟨_, _, hreq, _⟩ := create_ensures S state pool config e h
  intro id entry hl
  rw [hreq] at hl
  exact absurd (IdMap.mem_of_lookup hl) (AList.notMem_empty id)

/-- **Between two calls the caches of the running sequences are one token short.** -/
theorem reachable_committed (hm : S.model.Contract may) (hpos : 0 < S.model.geometry.numLayers)
    (h : (engineSystem S state pool config).Reachable e) : e.loop.AllCommitted := by
  refine h.invariant (I := fun e => e.loop.AllCommitted) (fun _ => create_committed) ?_
  exact fun e call e' hreach hc hrun =>
    run_committed hm hpos (reachable_booked hreach) hc call e' hrun

/-- Every running sequence has counted all its tokens but one. -/
def OneShort (e : EngineLoop σ α) : Prop :=
  ∀ id entry, e.requests.lookup id = some entry → entry.seq.state = .running → entry.drift = -1

omit [Zero α] in
theorem OneShort.kept {e e' : EngineLoop σ α} (h : OneShort e) (hk : Kept e e') : OneShort e' := by
  intro id entry hl hr
  obtain ⟨old, hl', hr', hd⟩ := hk.running id entry hl hr
  exact hd.trans (h id old hl' hr')

theorem run_oneShort (hm : S.model.Contract may) (hpos : 0 < S.model.geometry.numLayers)
    (hb : e.Booked S) (hc : e.loop.AllCommitted) (h : OneShort e.loop) {call : EngineCall}
    (hplan : OneTokenPrefills S e call) : (e.run S call).Ensures fun e' => OneShort e'.loop := by
  cases call with
  | submit request drawnSeed =>
      refine ensures_pure ?_
      unfold Engine.submit
      cases validateSubmit e.loop request drawnSeed with
      | error status => exact h
      | ok seq =>
          simp only
          by_cases hstop : e.queue.stopRequested = true
          · rw [if_pos hstop]
            exact h
          · rw [if_neg hstop]
            exact h
  | cancel id => exact ensures_pure h
  | step =>
      refine Ensures.bind (Ensures.bind (step_committed hm hpos hb.listed hb.queued hc hb.geom)
        (Q := fun r => OneShort r.2.loop) ?_) fun r hr => ensures_pure hr
      rintro ⟨more, loop⟩ ⟨_, e₁, _, hk, he₁, hkept | ⟨out, hout, hcarried⟩⟩
      · exact ensures_pure (h.kept (hk.trans hkept))
      · refine ensures_pure fun id entry hl hr => ?_
        rcases hcarried id entry hl hr with ⟨old, hl', hr', hd⟩ | ⟨p, hp, _, hd⟩
        · exact hd.trans (h.kept hk id old hl' hr')
        · rw [hd, hplan rfl e₁ out he₁ hout p hp]
  | stop =>
      refine Ensures.bind (shutdown_empty S e.queue.commands e.loop) ?_
      rintro loop ⟨hmem, _⟩
      exact ensures_pure fun id entry hl => absurd (IdMap.mem_of_lookup hl) (hmem id)
  | use u =>
      exact Ensures.bind (ensures_self _) fun shared _ => ensures_pure h

/-- **A counter agrees with its cache** as long as every sequence is admitted with one token, and
a sequence that is admitted with more disagrees when the step ends. -/
theorem counts_agree {geom : CacheGeometry} {blockSize numBlocks : Int}
    (hm : S.model.Contract may) (hpool : BlockPool.create geom blockSize numBlocks = .ok pool) :
    (∀ e, ((engineSystem S state pool config).restrict (OneTokenPrefills S)).Reachable e →
      e.loop.CountsAgree) ∧
    ∀ e e' e₁ out, (engineSystem S state pool config).Reachable e → e.run S .step = .ok e' →
      retireCancelled S (e.loop.drainCommands e.queue.commands) = .ok e₁ →
      e₁.scheduleStep = .ok out → ∀ p ∈ out.prefill, ∀ entry,
        e'.loop.requests.lookup p.id = some entry → entry.seq.state = .running →
        ((∃ c, entry.seq.cache = some c ∧ entry.seq.numComputedTokens = c.length) ↔
          p.numTokens = 1) := by
  have hlayers : ∀ {e}, (engineSystem S state pool config).Reachable e →
      0 < S.model.geometry.numLayers := by
    intro e hreach
    have hgeom : pool.geom = S.model.geometry := by
      refine hreach.invariant (I := fun _ => pool.geom = S.model.geometry) ?_ fun _ _ _ _ h _ => h
      exact fun e₀ h₀ => (create_ensures S state pool config e₀ h₀).1
    have hcreated := BlockPool.create_ok hpool
    rw [← hgeom, hcreated.pool_eq]
    exact hcreated.layers_pos
  refine ⟨fun e hrestricted => ?_, fun e e' e₁ out hreach hrun he₁ hout p hp entry hl hr => ?_⟩
  · have hreach := hrestricted.of_restrict
    have hshort : OneShort e.loop := by
      refine hrestricted.invariant (I := fun e => OneShort e.loop) ?_ ?_
      · intro e₀ h₀ id entry hl
        rw [(create_ensures S state pool config e₀ h₀).2.2.1] at hl
        exact absurd (IdMap.mem_of_lookup hl) (AList.notMem_empty id)
      · rintro e₀ call e₂ hreach₀ h₀ ⟨hplan, hrun⟩
        have hr₀ := hreach₀.of_restrict
        exact run_oneShort hm (hlayers hr₀) (reachable_booked hr₀)
          (reachable_committed hm (hlayers hr₀) hr₀) h₀ hplan _ hrun
    have hc := reachable_committed hm (hlayers hreach) hreach
    exact fun id entry hl hr => ((hc id entry hl).agrees_iff hr).mpr (hshort id entry hl hr)
  · have hb := reachable_booked hreach
    have hpos := hlayers hreach
    have hc := reachable_committed hm hpos hreach
    have hc' := run_committed hm hpos hb hc .step e' hrun
    rw [(hc' p.id entry hl).agrees_iff hr]
    obtain ⟨r, hr₁, hrest⟩ := bind_eq_ok.mp hrun
    obtain ⟨r₂, hstep, hpure⟩ := bind_eq_ok.mp hr₁
    cases hpure
    cases hrest
    obtain ⟨_, e₁', hl₁, _, he₁', hkept⟩ :=
      step_committed hm hpos hb.listed hb.queued hc hb.geom _ hstep
    rw [he₁] at he₁'
    cases he₁'
    have hplan := scheduleStep_ensures e₁ out hout
    -- what is admitted was waiting, so it did not run before
    have hidle : ∀ old, e₁.requests.lookup p.id = some old → old.seq.state ≠ .running :=
      hl₁.idle p.id (hplan.prefill.subset (List.mem_map_of_mem hp))
    rcases hkept with hkept | ⟨out', hout', hcarried⟩
    · obtain ⟨old, hold, hrold, _⟩ := hkept.running p.id entry hl hr
      exact absurd hrold (hidle old hold)
    · rw [hout] at hout'
      cases hout'
      rcases hcarried p.id entry hl hr with ⟨old, hold, hrold, _⟩ | ⟨q, hq, hqp, hd⟩
      · exact absurd hrold (hidle old hold)
      · have hnd := hplan.prefill.nodup (List.nodup_append.mp hl₁.once).1
        obtain rfl : q = p := List.inj_on_of_nodup_map hnd hq hp hqp
        rw [hd]
        omega

end Engine

/-! ### Two runs

A prompt of one token, which is counted right, and one of two tokens, which is not. -/

theorem appendsTo_mapIdx (seqs : List ForwardSeq) (b k : Nat) :
    appendsTo b (seqs.mapIdx fun i s =>
      .append (i + k) 0 (zeroRows s.tokenIds.length) (zeroRows s.tokenIds.length))
      = if k ≤ b then (seqs[b - k]?).toList.map fun s =>
          ⟨0, zeroRows s.tokenIds.length, zeroRows s.tokenIds.length⟩ else [] := by
  induction seqs generalizing k with
  | nil => simp [appendsTo]
  | cons s rest ih =>
      rw [List.mapIdx_cons, appendsTo]
      have hshift : (fun (i : Nat) (s : ForwardSeq) => (.append (i + 1 + k) 0
          (zeroRows s.tokenIds.length) (zeroRows s.tokenIds.length) : ForwardEffect Int))
          = fun i s => .append (i + (k + 1)) 0 (zeroRows s.tokenIds.length)
            (zeroRows s.tokenIds.length) := by
        funext i s
        rw [Nat.add_right_comm, Nat.add_assoc]
      rw [hshift, ih (k + 1)]
      rcases Nat.lt_trichotomy k b with hlt | heq | hgt
      · obtain ⟨d, rfl⟩ := Nat.exists_eq_add_of_lt hlt
        rw [if_neg (by omega), if_pos (by omega), if_pos (by omega),
          show k + d + 1 - (k + 1) = d by omega, show k + d + 1 - k = d + 1 by omega]
        rfl
      · subst heq
        rw [if_pos (Nat.zero_add k), if_neg (by omega), if_pos le_rfl, Nat.sub_self]
        rfl
      · rw [if_neg (by omega), if_neg (by omega), if_neg (by omega)]

/-- The model that leaves the pool alone keeps what `model.h` promises, and never fails. -/
theorem zeroModel_contract :
    (zeroModel false).Contract fun _ _ answer => ∃ served, answer = .ok served := by
  have heffects : ∀ (request : ForwardRequest) (b : Nat) s, request.seqs[b]? = some s →
      appendsTo b (([] : List (ForwardEffect Int)) ++ request.seqs.mapIdx fun i s =>
        .append i 0 (zeroRows s.tokenIds.length) (zeroRows s.tokenIds.length))
        = [⟨0, zeroRows s.tokenIds.length, zeroRows s.tokenIds.length⟩] := by
    intro request b s hs
    rw [List.nil_append]
    refine (appendsTo_mapIdx request.seqs b 0).trans ?_
    rw [if_pos (Nat.zero_le b), Nat.sub_zero, hs]
    rfl
  refine ⟨⟨Int.one_pos, ?_⟩, ?_, ?_, ?_, ?_⟩
  · intro state request pool logits h
    cases h
    rfl
  · intro state request pool use h
    obtain ⟨i, hi, heq⟩ := List.mem_mapIdx.mp ((List.mem_append.mp h).resolve_left List.not_mem_nil)
    cases heq
  · intro state request pool hformed b s hs
    have hpos : 1 ≤ s.tokenIds.length :=
      List.length_pos_iff.mpr (hformed s (List.mem_of_getElem? hs)).tokens
    have hshape : BlockShape (zeroModel false).geometry (zeroRows s.tokenIds.length) :=
      ⟨rfl, rfl, rfl, hpos, rfl, rfl⟩
    show Layered _ _ (appendsTo b (([] : List (ForwardEffect Int)) ++ _))
    rw [heffects request b s hs]
    refine ⟨fun i a ha => ?_, fun a ha => ?_, fun a ha => ?_⟩
    · cases i with
      | zero =>
          cases ha
          rfl
      | succ i => simp at ha
    · rw [List.mem_singleton.mp ha]
      exact ⟨⟨le_rfl, Int.one_pos⟩, hshape, hshape, rfl⟩
    · rw [List.mem_singleton.mp ha]
      rfl
  · intro state request pool logits _ _ b s hs
    refine ⟨?_, _, rfl⟩
    show ((appendsTo b (([] : List (ForwardEffect Int)) ++ _)).length : Int) = _
    rw [heffects request b s hs]
    rfl
  · intro state s pool status _ h
    cases h

/-- An engine with one request, and what its first step plans and comes to. -/
def firstStep (length : Nat) : Checked (Engine Unit Int × SchedulerOutput × Engine Unit Int) :=
  match Engine.create (zeroServices false) () zeroPool zeroConfig with
  | .error status => .error (.checkFailed status.message)
  | .ok e => do
      let e ← e.run (zeroServices false) (.submit (zeroRequest length) 0)
      let e₁ ← EngineLoop.retireCancelled (zeroServices false)
        (e.loop.drainCommands e.queue.commands)
      let out ← e₁.scheduleStep
      let e' ← e.run (zeroServices false) .step
      pure (e, out, e')

theorem firstStep_reached (length : Nat) : (firstStep length).Ensures fun r =>
    ((engineSystem (zeroServices false) () zeroPool zeroConfig).restrict
      (OneTokenPrefills (zeroServices false))).Reachable r.1 ∧
    r.1.run (zeroServices false) .step = .ok r.2.2 ∧
    ∃ e₁, EngineLoop.retireCancelled (zeroServices false)
      (r.1.loop.drainCommands r.1.queue.commands) = .ok e₁ ∧ e₁.scheduleStep = .ok r.2.1 := by
  unfold firstStep
  cases he : Engine.create (zeroServices false) () zeroPool zeroConfig with
  | error status => exact ensures_error _
  | ok e₀ =>
      refine Ensures.bind (ensures_self _) fun e hsubmit => ?_
      refine Ensures.bind (ensures_self _) fun e₁ he₁ => ?_
      refine Ensures.bind (ensures_self _) fun out hout => ?_
      refine Ensures.bind (ensures_self _) fun e' hstep => ?_
      refine ensures_pure ⟨.step (.init he) ⟨fun hc => ?_, hsubmit⟩, hstep, e₁, he₁, hout⟩
      cases hc

/-- The state of a sequence, the length of its cache and its counter. -/
def EngineLoop.progress (e : EngineLoop Unit Int) (id : Nat) :
    Option (SeqState × Option Nat × Int) :=
  (e.requests.lookup id).map fun entry =>
    (entry.seq.state, entry.seq.cache.map (·.length), entry.seq.numComputedTokens)

/-- A prompt of one token is counted. -/
theorem counts_agree_one : ∃ e, ((engineSystem (zeroServices false) () zeroPool zeroConfig).restrict
    (OneTokenPrefills (zeroServices false))).Reachable e ∧
      e.loop.progress 1 = some (.running, some 1, 1) ∧ e.loop.CountsAgree := by
  obtain ⟨⟨e, out, e'⟩, hrun, htest⟩ := exists_of_test (firstStep 1)
    (fun r => r.2.1.prefill.all (·.numTokens = 1) &&
      r.2.2.loop.progress 1 = some (.running, some 1, 1)) (by decide +kernel)
  obtain ⟨hreach, hstep, e₁, he₁, hout⟩ := firstStep_reached 1 _ hrun
  simp only [Bool.and_eq_true, List.all_eq_true, decide_eq_true_eq] at htest
  have hplan : OneTokenPrefills (zeroServices false) e .step := by
    intro _ e₁' out' he₁' hout'
    rw [he₁] at he₁'
    cases he₁'
    rw [hout] at hout'
    cases hout'
    exact htest.1
  have hreach' : ((engineSystem (zeroServices false) () zeroPool zeroConfig).restrict
      (OneTokenPrefills (zeroServices false))).Reachable e' :=
    .step (l := .step) hreach ⟨hplan, hstep⟩
  have hpool : BlockPool.create ⟨1, 1, 1, .float32⟩ 8 3 = .ok zeroPool := rfl
  exact ⟨e', hreach', htest.2, (Engine.counts_agree zeroModel_contract hpool).1 e' hreach'⟩

/-- **A prompt of two tokens is counted as one**: the prefill commits both, and nobody sets the
counter. -/
theorem counts_disagree_two : ¬∀ e : Engine Unit Int,
    (engineSystem (zeroServices false) () zeroPool zeroConfig).Reachable e →
      e.loop.CountsAgree := by
  intro hall
  obtain ⟨⟨e, out, e'⟩, hrun, htest⟩ := exists_of_test (firstStep 2)
    (fun r => r.2.2.loop.progress 1 = some (.running, some 2, 1)) (by decide +kernel)
  obtain ⟨hreach, hstep, _⟩ := firstStep_reached 2 _ hrun
  obtain ⟨entry, hl, hentry⟩ := Option.map_eq_some_iff.mp (of_decide_eq_true htest)
  simp only [Prod.mk.injEq, Option.map_eq_some_iff] at hentry
  obtain ⟨hstate, ⟨c, hc, hlen⟩, hnum⟩ := hentry
  obtain ⟨c', hc', hnum'⟩ := hall e' (hreach.of_restrict.step hstep) 1 entry hl hstate
  rw [hc] at hc'
  cases hc'
  rw [hnum, hlen] at hnum'
  cases hnum'

end InferenceEngine
