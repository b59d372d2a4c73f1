/-
What no function of the engine changes.

The request of an entry is written once, when it is submitted.  The operations on the channels
are only ever added to, and every one that a function adds is on the channel of a request that
was live when the function was called.  `Framed` says both.  A function that erases no request
is `Retained`; only retirement erases.
-/
import InferenceEngine.Proofs.EngineRuns

namespace InferenceEngine

open Except

namespace EngineLoop

variable {σ α : Type} {e e' e'' : EngineLoop σ α} {id : Nat} {entry : Entry} {seq : Sequence}
  {S : Services σ α} {prefill : Bool} {pool : BlockPool α}

/-- Every request is as it was, and the channels that were used are those of live requests. -/
structure Framed (e e' : EngineLoop σ α) : Prop where
  request : ∀ id entry', e'.requests.lookup id = some entry' →
    ∃ entry, e.requests.lookup id = some entry ∧ entry'.request = entry.request
  posts : ∃ ops, e'.outbox = e.outbox ++ ops ∧ ∀ op ∈ ops, op.id ∈ e.requests

theorem Framed.refl (e : EngineLoop σ α) : Framed e e :=
  ⟨fun _ entry hl => ⟨entry, hl, rfl⟩, [], (List.append_nil _).symm, fun _ h => by simp at h⟩

theorem Framed.subset (h : Framed e e') : ∀ id, id ∈ e'.requests → id ∈ e.requests := by
  intro id hid
  obtain ⟨entry', hl'⟩ := IdMap.exists_of_mem hid
  obtain ⟨entry, hl, _⟩ := h.request id entry' hl'
  exact IdMap.mem_of_lookup hl

theorem Framed.trans (h : Framed e e') (h' : Framed e' e'') : Framed e e'' := by
  refine ⟨fun id entry'' hl'' => ?_, ?_⟩
  · obtain ⟨entry', hl', hr'⟩ := h'.request id entry'' hl''
    obtain ⟨entry, hl, hr⟩ := h.request id entry' hl'
    exact ⟨entry, hl, hr'.trans hr⟩
  · obtain ⟨ops, hops, hlive⟩ := h.posts
    obtain ⟨ops', hops', hlive'⟩ := h'.posts
    refine ⟨ops ++ ops', by rw [hops', hops, List.append_assoc], fun op hop => ?_⟩
    rcases List.mem_append.mp hop with hop | hop
    · exact hlive op hop
    · exact h.subset _ (hlive' op hop)

/-- A channel stays closed. -/
theorem Framed.closed (h : Framed e e') (hc : e.closed id = true) : e'.closed id = true := by
  obtain ⟨info, hin⟩ := closed_iff.mp hc
  obtain ⟨ops, hops, _⟩ := h.posts
  refine closed_iff.mpr ⟨info, ?_⟩
  rw [hops]
  exact List.mem_append_left _ hin

/-- A loop of turns that carry everything over does so. -/
theorem Framed.foldlM {γ : Type} {f : EngineLoop σ α → γ → Checked (EngineLoop σ α)}
    (step : ∀ e x, (f e x).Ensures (Framed e)) (l : List γ) (e : EngineLoop σ α) :
    (l.foldlM f e).Ensures (Framed e) :=
  Ensures.foldlM_invariant (I := Framed e)
    (fun e' x h => (step e' x).mono fun _ h' => h.trans h') l (.refl e)

/-- Everything is carried over, and no request is erased. -/
structure Retained (e e' : EngineLoop σ α) : Prop extends Framed e e' where
  mem : ∀ id, id ∈ e.requests → id ∈ e'.requests

theorem Retained.refl (e : EngineLoop σ α) : Retained e e := ⟨.refl e, fun _ h => h⟩

theorem Retained.trans (h : Retained e e') (h' : Retained e' e'') : Retained e e'' :=
  ⟨h.toFramed.trans h'.toFramed, fun id hid => h'.mem id (h.mem id hid)⟩

theorem Retained.mem_iff (h : Retained e e') : id ∈ e'.requests ↔ id ∈ e.requests :=
  ⟨h.subset id, h.mem id⟩

theorem Retained.foldlM {γ : Type} {f : EngineLoop σ α → γ → Checked (EngineLoop σ α)}
    (step : ∀ e x, (f e x).Ensures (Retained e)) (l : List γ) (e : EngineLoop σ α) :
    (l.foldlM f e).Ensures (Retained e) :=
  Ensures.foldlM_invariant (I := Retained e)
    (fun e' x h => (step e' x).mono fun _ h' => h.trans h') l (.refl e)

/-! ### Changes to one sequence

An entry may be replaced by another of the same request, and operations may be added on the
channels of live requests. -/

theorem retained_of_eq (hreq : e'.requests = e.requests) (hout : e'.outbox = e.outbox) :
    Retained e e' := by
  refine ⟨⟨fun id entry hl => ⟨entry, ?_, rfl⟩, [], ?_, fun _ h => by simp at h⟩, fun id hid => ?_⟩
  · rw [← hreq]
    exact hl
  · rw [hout, List.append_nil]
  · rw [hreq]
    exact hid

/-- Another entry for a live id, of the same request. -/
theorem retained_insert {entry' : Entry} (h : e.requests.lookup id = some entry)
    (hreq : entry'.request = entry.request) :
    Retained e { e with requests := e.requests.insert id entry' } := by
  refine ⟨⟨fun id' entry'' hl => ?_, [], (List.append_nil _).symm, fun _ h => by simp at h⟩,
    fun id' hid' => (AList.mem_insert _).mpr (Or.inr hid')⟩
  rcases IdMap.lookup_insert_iff.mp hl with ⟨rfl, rfl⟩ | ⟨_, hl⟩
  · exact ⟨entry, h, hreq⟩
  · exact ⟨entry'', hl, rfl⟩

theorem retained_setSeq (h : e.requests.lookup id = some entry) (seq : Sequence) :
    Retained e (e.setSeq id entry seq) :=
  retained_insert h rfl

/-- Operations on the channels of live requests. -/
theorem retained_post {ops : List ChannelOp} (h : ∀ op ∈ ops, op.id ∈ e.requests) :
    Retained e { e with outbox := e.outbox ++ ops } :=
  ⟨⟨fun _ entry hl => ⟨entry, hl, rfl⟩, ops, rfl, h⟩, fun _ hid => hid⟩

theorem retained_emit (h : id ∈ e.requests) (item : Option OutputItem) :
    Retained e (e.emit id item) := by
  refine retained_post fun op hop => ?_
  obtain ⟨item', _, rfl⟩ := List.mem_map.mp hop
  exact h

theorem retained_close (h : id ∈ e.requests) (info : FinishInfo) :
    Retained e (e.close id info) :=
  retained_post fun op hop => by rw [List.mem_singleton.mp hop]; exact h

theorem retained_shared (e : EngineLoop σ α) (shared : SharedPool α) :
    Retained e { e with shared := shared } :=
  retained_of_eq rfl rfl

theorem fail_retained (e : EngineLoop σ α) (id : Nat) (status : Status) :
    (e.fail id status).Ensures (Retained e) := by
  refine (fail_ensures e id status).mono ?_
  rintro e' ⟨entry, hl, rfl⟩
  exact retained_setSeq hl _

theorem deliverSampled_retained (e : EngineLoop σ α) (id : Nat) (next : SampleResult) :
    (e.deliverSampled id next).Ensures (Retained e) := by
  refine (deliverSampled_ensures e id next).mono ?_
  rintro e' ⟨entry, hl, rfl⟩
  exact (retained_emit (IdMap.mem_of_lookup hl) _).trans (retained_setSeq (e := e.emit id _) hl _)

theorem closeCancelled_retained (e : EngineLoop σ α) (id : Nat) :
    (e.closeCancelled id).Ensures (Retained e) := by
  unfold closeCancelled
  refine Ensures.bind (transition_ensures e id .cancelled) ?_
  rintro e' ⟨entry, hl, _, rfl⟩
  have hset := retained_setSeq hl { entry.seq with state := .cancelled }
  exact ensures_pure (hset.trans (retained_close (hset.mem id (IdMap.mem_of_lookup hl)) _))

/-! ### Forwards and evictions

They change caches, states and lists, and none of the requests. -/

theorem retained_afterForward (e : EngineLoop σ α) (members : List Nat)
    (called : Model.Called σ α) : Retained e (e.afterForward members called) := by
  refine ⟨⟨fun id entry' hl => ?_, [], (List.append_nil _).symm, fun _ h => by simp at h⟩,
    fun id hid => mem_writeBack.mpr hid⟩
  obtain ⟨entry, hentry, rfl | ⟨c, _, rfl⟩⟩ := lookup_writeBack_cases hl
  · exact ⟨entry', hentry, rfl⟩
  · exact ⟨entry, hentry, rfl⟩

theorem Attempt.retained {called : Model.Called σ α} {advanced : Bool}
    (h : Attempt S prefill e id entry called advanced e') : Retained e e' := by
  have hfwd := retained_afterForward e [id] called
  rcases h.outcome with ⟨_, _, rfl, _⟩ | ⟨_, ⟨status, hf⟩ | ⟨_, next, _, hd⟩⟩
  · exact hfwd
  · exact hfwd.trans (fail_retained _ id status _ hf)
  · exact hfwd.trans (deliverSampled_retained _ id next _ hd)

theorem retained_evict (h : e.requests.lookup id = some entry) :
    Retained e (e.evict id entry pool) :=
  (retained_setSeq h entry.seq.evicted).trans (retained_of_eq rfl rfl)

theorem preemptSequence_retained (e : EngineLoop σ α) (id : Nat) :
    (e.preemptSequence id).Ensures (Retained e) := by
  refine (preemptSequence_ensures e id).mono ?_
  rintro e' ⟨entry, pool, hl, _, _, rfl⟩
  exact retained_evict hl

theorem admitOne_retained (e : EngineLoop σ α) (p : Prefill) :
    (e.admitOne p).Ensures (Retained e) := by
  refine (admitOne_ensures e p).mono ?_
  rintro e' ⟨entry, hl, _, rfl⟩
  exact (retained_setSeq hl _).trans (retained_of_eq rfl rfl)

/-! ### Passes

A pass is composed of the above, and so frames as well. -/

theorem recoverMember_retained (S : Services σ α) (prefill : Bool) (id : Nat) :
    ∀ (fuel : Nat) (e : EngineLoop σ α),
      (recoverMember S prefill id fuel e).Ensures (Retained e) := by
  intro fuel
  induction fuel with
  | zero => exact fun e => ensures_throw _
  | succ fuel ih =>
      intro e
      rw [EngineLoop.recoverMember]
      refine Ensures.bind (executeAndDeliver_ensures S e prefill id) ?_
      rintro ⟨advanced, e₁⟩ ⟨entry, called, hat⟩
      have h₁ := hat.retained
      simp only at h₁ ⊢
      by_cases hadv : advanced = true
      · rw [if_pos hadv]
        exact ensures_pure h₁
      · rw [if_neg hadv]
        refine Ensures.bind (ensures_self _) fun victim _ => ?_
        by_cases hv : victim = 0
        · rw [if_pos hv]
          exact (fail_retained e₁ id _).mono fun _ h => h₁.trans h
        · rw [if_neg hv]
          refine Ensures.bind (preemptSequence_retained e₁ victim) fun e₂ h₂ => ?_
          exact (ih e₂).mono fun _ h₃ => h₁.trans (h₂.trans h₃)

theorem retained_setCache (e : EngineLoop σ α) (id : Nat) (c : PagedKvCache) :
    Retained e (e.setCache id c) := by
  unfold setCache
  cases hl : e.requests.lookup id with
  | none => exact .refl e
  | some entry => exact retained_setSeq hl _

theorem recoverOne_retained (S : Services σ α) (prefill : Bool) (pass preLen : List Nat)
    (e : EngineLoop σ α) (id : Nat) :
    (recoverOne S prefill pass preLen e id).Ensures (Retained e) := by
  refine (recoverOne_ensures S prefill pass preLen e id).mono ?_
  rintro e' ⟨entry, _, ⟨_, rfl⟩ | ⟨_, cache, r, _, _, hrec⟩⟩
  · exact .refl e'
  · have hcut := (retained_shared e { e.shared with pool := r.2.2 }).trans
      (retained_setCache _ id r.2.1)
    exact hcut.trans (recoverMember_retained S prefill id _ _ _ hrec)

theorem deliverRow_retained (e : EngineLoop σ α) (row : Nat × SampleResult × StatusOr Unit) :
    (e.deliverRow row).Ensures (Retained e) := by
  unfold deliverRow
  cases row.2.2 with
  | ok _ => exact deliverSampled_retained e _ _
  | error status => exact fail_retained e _ _

theorem runBatchPass_retained (S : Services σ α) (prefill : Bool) (pass : List Nat)
    (e : EngineLoop σ α) : (runBatchPass S prefill pass e).Ensures (Retained e) := by
  refine (runBatchPass_ensures S prefill pass e).mono ?_
  rintro e' (⟨_, rfl⟩ | ⟨seqs, inputs, preLen, called, hran⟩)
  · exact .refl e'
  · have hfwd := retained_afterForward e pass called
    rcases hran.outcome with ⟨_, hrec⟩ | ⟨_, rows, _, _, hrows⟩
    · exact hfwd.trans (Retained.foldlM (recoverOne_retained S prefill pass preLen) pass _ _ hrec)
    · exact hfwd.trans (Retained.foldlM deliverRow_retained _ _ _ hrows)

theorem beforePasses_retained (e : EngineLoop σ α) :
    e.beforePasses.Ensures fun r => Retained e r.2 := by
  refine (beforePasses_ensures e).mono ?_
  rintro ⟨out, e₂⟩ ⟨e₁, _, _, he₁, he₂⟩
  exact (Retained.foldlM preemptSequence_retained _ _ _ he₁).trans
    (Retained.foldlM admitOne_retained _ _ _ he₂)

/-! ### Retirement, and one whole step

Retirement erases, so from here on it is `Framed` that is carried. -/

theorem eraseRequest_framed (e : EngineLoop σ α) (id : Nat) :
    (e.eraseRequest id).Ensures (Framed e) := by
  refine (eraseRequest_ensures e id).mono ?_
  rintro e' ⟨pool, _, rfl⟩
  exact ⟨fun id' entry' hl => ⟨entry', (IdMap.lookup_erase_iff.mp hl).2, rfl⟩, [],
    (List.append_nil _).symm, fun _ h => by simp at h⟩

theorem retire_framed (e : EngineLoop σ α) (id : Nat) : (e.retire id).Ensures (Framed e) := by
  have hlists : Retained e { e with
      waiting := e.waiting.filter (· ≠ id)
      running := e.running.filter (· ≠ id) } := retained_of_eq rfl rfl
  exact (eraseRequest_framed _ id).mono fun _ h => hlists.toFramed.trans h

theorem retireRunning_framed (e : EngineLoop σ α) (id : Nat) :
    (e.retireRunning id).Ensures (Framed e) := by
  have hlist : Retained e { e with running := e.running.filter (· ≠ id) } :=
    retained_of_eq rfl rfl
  exact (eraseRequest_framed _ id).mono fun _ h => hlist.toFramed.trans h

theorem cancelOne_retained (er : EngineLoop σ α × List Nat) (id : Nat) :
    (cancelOne er id).Ensures fun er' => Retained er.1 er'.1 := by
  unfold cancelOne
  refine Ensures.bind (entry_ensures er.1 id) fun entry _ => ?_
  by_cases hc : (entry.cancelRequested && !entry.seq.isTerminal) = true
  · rw [if_pos hc]
    exact Ensures.bind (closeCancelled_retained er.1 id) fun e' h => ensures_pure h
  · rw [if_neg hc]
    exact ensures_pure (.refl _)

theorem closeTerminal_retained (er : EngineLoop σ α × List Nat) (id : Nat) :
    (closeTerminal er id).Ensures fun er' => Retained er.1 er'.1 := by
  unfold closeTerminal
  refine Ensures.bind (entry_ensures er.1 id) fun entry hl => ?_
  by_cases hc : entry.seq.isTerminal = true
  · rw [if_pos hc]
    exact Ensures.bind (ensures_self _) fun info _ =>
      ensures_pure (retained_close (IdMap.mem_of_lookup hl) info)
  · rw [if_neg hc]
    exact ensures_pure (.refl _)

theorem retireCancelled_framed (S : Services σ α) (e : EngineLoop σ α) :
    (retireCancelled S e).Ensures (Framed e) := by
  unfold retireCancelled
  refine Ensures.bind (Ensures.foldlM_invariant
    (I := fun er : EngineLoop σ α × List Nat => Retained e er.1)
    (fun er id h => (cancelOne_retained er id).mono fun _ h' => h.trans h') _ (.refl e)) ?_
  rintro ⟨e₁, retired⟩ h₁
  exact (Framed.foldlM retire_framed retired e₁).mono fun _ h₂ => h₁.toFramed.trans h₂

theorem retireTerminal_framed (e : EngineLoop σ α) : e.retireTerminal.Ensures (Framed e) := by
  unfold EngineLoop.retireTerminal
  refine Ensures.bind (Ensures.foldlM_invariant
    (I := fun er : EngineLoop σ α × List Nat => Retained e er.1)
    (fun er id h => (closeTerminal_retained er id).mono fun _ h' => h.trans h') _ (.refl e)) ?_
  rintro ⟨e₁, retired⟩ h₁
  exact (Framed.foldlM retireRunning_framed retired e₁).mono fun _ h₂ => h₁.toFramed.trans h₂

theorem Stepped.framed {out : SchedulerOutput} {e₁ e₂ e₃ : EngineLoop σ α} {pass : List Nat}
    (h : Stepped S e out e₁ e₂ pass e₃ e') : Framed e e' := by
  have hbefore := beforePasses_retained e _ h.before
  have hpasses := (runBatchPass_retained S true _ e₁ _ h.prefill).trans
    (runBatchPass_retained S false _ e₂ _ h.decode)
  exact (hbefore.trans hpasses).toFramed.trans (retireTerminal_framed e₃ _ h.retire)

/-- **A step** carries over the requests and touches the channels of live requests only. -/
theorem step_framed (S : Services σ α) (commands : List Command) (e : EngineLoop σ α) :
    (step S commands e).Ensures fun r => Framed (e.drainCommands commands) r.2 := by
  refine (step_ensures S commands e).mono ?_
  rintro r ⟨e₁, h₁, hr⟩
  have hretired := retireCancelled_framed S _ _ h₁
  rcases hr with hr | hr
  · rw [hr]
    exact hretired
  · obtain ⟨out, e₂, e₃, pass, e₄, hstep⟩ := execute_ensures S e₁ _ hr
    exact hretired.trans hstep.framed

end EngineLoop

end InferenceEngine
