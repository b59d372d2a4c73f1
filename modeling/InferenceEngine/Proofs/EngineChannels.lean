/-
What a step does to the channels.

A request leaves the engine only after its channel has been closed, so no id that was given out
is ever lost: it waits in the queue, it is live, or its channel is closed.  A request that is
cancelled while it is live is closed as cancelled by the step that drains the cancel, and by
nothing else in that step.
-/
import InferenceEngine.Proofs.EngineCalls

namespace InferenceEngine

open Except

namespace EngineLoop

variable {σ α : Type} {e e' e'' : EngineLoop σ α} {id : Nat} {entry : Entry}
  {S : Services σ α} {commands : List Command}

/-! ### Requests that leave

Retirement takes a list of ids that have been closed and erases them.  Nobody else is erased. -/

/-- Whoever leaves has been closed. -/
structure Tracked (e e' : EngineLoop σ α) : Prop extends Framed e e' where
  tracked : ∀ id ∈ e.requests, id ∈ e'.requests ∨ e'.closed id = true

theorem Tracked.refl (e : EngineLoop σ α) : Tracked e e := ⟨.refl e, fun _ hid => Or.inl hid⟩

theorem Tracked.trans (h : Tracked e e') (h' : Tracked e' e'') : Tracked e e'' := by
  refine ⟨h.toFramed.trans h'.toFramed, fun id hid => ?_⟩
  rcases h.tracked id hid with hid | hc
  · exact h'.tracked id hid
  · exact Or.inr (h'.toFramed.closed hc)

theorem Retained.tracked (h : Retained e e') : Tracked e e' :=
  ⟨h.toFramed, fun id hid => Or.inl (h.mem id hid)⟩

/-- An id that is erased, when its channel is closed. -/
theorem tracked_erase (hframe : Framed e e') (hreq : e'.requests = e.requests.erase id)
    (hc : e.closed id = true) : Tracked e e' := by
  refine ⟨hframe, fun id' hid' => ?_⟩
  by_cases hne : id' = id
  · rw [hne]
    exact Or.inr (hframe.closed hc)
  · rw [hreq]
    exact Or.inl (AList.mem_erase.mpr ⟨hne, hid'⟩)

/-- Closed requests are erased one by one. -/
theorem erase_foldlM_tracked {f : EngineLoop σ α → Nat → Checked (EngineLoop σ α)}
    (step : ∀ e id, e.closed id = true → (f e id).Ensures (Tracked e)) (retired : List Nat)
    (hc : ∀ id ∈ retired, e.closed id = true) : (retired.foldlM f e).Ensures (Tracked e) := by
  refine (Ensures.foldlM (fun rest e₁ => Tracked e e₁ ∧ ∀ id ∈ rest, e₁.closed id = true) ?_
    retired e ⟨.refl e, hc⟩).mono fun _ h => h.1
  rintro id rest e₁ ⟨h₁, hc₁⟩
  refine (step e₁ id (hc₁ id List.mem_cons_self)).mono fun e₂ h₂ => ?_
  exact ⟨h₁.trans h₂, fun id' hid' => h₂.toFramed.closed (hc₁ id' (List.mem_cons_of_mem _ hid'))⟩

theorem retire_tracked (e : EngineLoop σ α) (id : Nat) (hc : e.closed id = true) :
    (e.retire id).Ensures (Tracked e) := by
  intro e' he'
  obtain ⟨pool, _, rfl⟩ := eraseRequest_ensures _ id e' he'
  exact tracked_erase (retire_framed e id _ he') rfl hc

theorem retireRunning_tracked (e : EngineLoop σ α) (id : Nat) (hc : e.closed id = true) :
    (e.retireRunning id).Ensures (Tracked e) := by
  intro e' he'
  obtain ⟨pool, _, rfl⟩ := eraseRequest_ensures _ id e' he'
  exact tracked_erase (retireRunning_framed e id _ he') rfl hc

/-- What the turn of `RetireCancelled` that closes comes to. -/
theorem cancelOne_ensures (er : EngineLoop σ α × List Nat) (id : Nat) :
    (cancelOne er id).Ensures fun er' => ∃ entry, er.1.requests.lookup id = some entry ∧
      ((entry.cancelRequested && !entry.seq.isTerminal) = true ∧
          er' = ((er.1.setSeq id entry { entry.seq with state := .cancelled }).close id
            { terminal := .cancelled }, er.2 ++ [id]) ∨
        (entry.cancelRequested && !entry.seq.isTerminal) = false ∧ er' = er) := by
  unfold cancelOne
  refine Ensures.bind (entry_ensures er.1 id) fun entry hl => ?_
  by_cases hc : (entry.cancelRequested && !entry.seq.isTerminal) = true
  · rw [if_pos hc]
    refine Ensures.bind (P := fun e' => e' = (er.1.setSeq id entry
      { entry.seq with state := .cancelled }).close id { terminal := .cancelled }) ?_ ?_
    · refine Ensures.bind (transition_ensures er.1 id .cancelled) ?_
      rintro e' ⟨entry', hl', _, rfl⟩
      rw [hl] at hl'
      cases hl'
      exact ensures_pure rfl
    · rintro e' rfl
      exact ensures_pure ⟨entry, hl, Or.inl ⟨hc, rfl⟩⟩
  · rw [if_neg hc]
    exact ensures_pure ⟨entry, hl, Or.inr ⟨by simpa using hc, rfl⟩⟩

theorem closed_close (e : EngineLoop σ α) (id : Nat) (info : FinishInfo) :
    (e.close id info).closed id = true :=
  closed_close_iff.mpr (Or.inr rfl)

theorem retireCancelled_tracked (S : Services σ α) (e : EngineLoop σ α) :
    (retireCancelled S e).Ensures (Tracked e) := by
  unfold retireCancelled
  refine Ensures.bind (P := fun er => Retained e er.1 ∧ ∀ id ∈ er.2, er.1.closed id = true) ?_ ?_
  · refine Ensures.foldlM_invariant (I := fun er : EngineLoop σ α × List Nat =>
      Retained e er.1 ∧ ∀ id ∈ er.2, er.1.closed id = true) ?_ _
      ⟨.refl e, fun _ hid => absurd hid List.not_mem_nil⟩
    rintro er id ⟨hret, hclosed⟩ er' her'
    have hstep := cancelOne_retained er id er' her'
    refine ⟨hret.trans hstep, fun id' hid' => ?_⟩
    obtain ⟨entry, _, ⟨_, rfl⟩ | ⟨_, rfl⟩⟩ := cancelOne_ensures er id er' her'
    · rcases List.mem_append.mp hid' with hid' | hid'
      · exact hstep.toFramed.closed (hclosed id' hid')
      · rw [List.mem_singleton.mp hid']
        exact closed_close _ id _
    · exact hclosed id' hid'
  · rintro ⟨e₁, retired⟩ ⟨hret, hclosed⟩
    exact (erase_foldlM_tracked retire_tracked retired hclosed).mono fun _ h =>
      hret.tracked.trans h

theorem retireTerminal_tracked (e : EngineLoop σ α) : e.retireTerminal.Ensures (Tracked e) := by
  unfold EngineLoop.retireTerminal
  refine Ensures.bind (P := fun er => Retained e er.1 ∧ ∀ id ∈ er.2, er.1.closed id = true) ?_ ?_
  · refine Ensures.foldlM_invariant (I := fun er : EngineLoop σ α × List Nat =>
      Retained e er.1 ∧ ∀ id ∈ er.2, er.1.closed id = true) ?_ _
      ⟨.refl e, fun _ hid => absurd hid List.not_mem_nil⟩
    rintro er id ⟨hret, hclosed⟩
    unfold closeTerminal
    refine Ensures.bind (entry_ensures er.1 id) fun entry hl => ?_
    by_cases hterm : entry.seq.isTerminal = true
    · rw [if_pos hterm]
      refine Ensures.bind (ensures_self _) fun info _ => ensures_pure ?_
      have hclose := retained_close (IdMap.mem_of_lookup hl) info
      refine ⟨hret.trans hclose, fun id' hid' => ?_⟩
      rcases List.mem_append.mp hid' with hid' | hid'
      · exact hclose.toFramed.closed (hclosed id' hid')
      · rw [List.mem_singleton.mp hid']
        exact closed_close _ id info
    · rw [if_neg hterm]
      exact ensures_pure ⟨hret, hclosed⟩
  · rintro ⟨e₁, retired⟩ ⟨hret, hclosed⟩
    exact (erase_foldlM_tracked retireRunning_tracked retired hclosed).mono fun _ h =>
      hret.tracked.trans h

theorem Stepped.tracked {out : SchedulerOutput} {e₁ e₂ e₃ : EngineLoop σ α} {pass : List Nat}
    (h : Stepped S e out e₁ e₂ pass e₃ e') : Tracked e e' := by
  have hbefore := beforePasses_retained e _ h.before
  have hpasses := (runBatchPass_retained S true _ e₁ _ h.prefill).trans
    (runBatchPass_retained S false _ e₂ _ h.decode)
  exact (hbefore.trans hpasses).tracked.trans (retireTerminal_tracked e₃ _ h.retire)

/-- **A step loses nobody.** -/
theorem step_tracked (S : Services σ α) (commands : List Command) (e : EngineLoop σ α) :
    (step S commands e).Ensures fun r => Tracked (e.drainCommands commands) r.2 := by
  refine (step_ensures S commands e).mono ?_
  rintro r ⟨e₁, h₁, hr⟩
  have hretired := retireCancelled_tracked S _ _ h₁
  rcases hr with hr | hr
  · rw [hr]
    exact hretired
  · obtain ⟨out, e₂, e₃, pass, e₄, hstep⟩ := execute_ensures S e₁ _ hr
    exact hretired.trans hstep.tracked

/-! ### Requests that arrive

Draining makes the submitted live and marks the cancelled, in the order of the queue. -/

/-- Whoever is live or submitted is live once the queue is drained. -/
theorem mem_drained (commands : List Command) (e : EngineLoop σ α)
    (h : id ∈ e.requests ∨ id ∈ submitted commands) :
    id ∈ (e.drainCommands commands).requests := by
  induction commands generalizing e with
  | nil => exact h.resolve_right List.not_mem_nil
  | cons c rest ih =>
      rw [drainCommands, List.foldl_cons]
      refine ih _ ?_
      cases c with
      | submit entry =>
          have hsub : submitted (.submit entry :: rest) = entry.request.id :: submitted rest := rfl
          rw [hsub, List.mem_cons] at h
          unfold drainCommand
          simp only
          split
          · rename_i hin
            rcases h with hid | rfl | hid
            · exact Or.inl hid
            · exact Or.inl hin
            · exact Or.inr hid
          · rw [AList.mem_insert]
            rcases h with hid | rfl | hid
            · exact Or.inl (Or.inr hid)
            · exact Or.inl (Or.inl rfl)
            · exact Or.inr hid
      | cancel k =>
          refine h.imp (fun hid => ?_) fun hid => hid
          unfold drainCommand
          cases hl : e.requests.lookup k with
          | none => simpa only [hl] using hid
          | some entry =>
              simp only [hl]
              exact (AList.mem_insert _).mpr (Or.inr hid)

/-- A live request stays marked. -/
theorem marked_drain (commands : List Command) (e : EngineLoop σ α)
    (h : ∃ entry, e.requests.lookup id = some entry ∧ entry.cancelRequested = true) :
    ∃ entry, (e.drainCommands commands).requests.lookup id = some entry ∧
      entry.cancelRequested = true := by
  unfold drainCommands
  refine List.foldlRecOn (motive := fun e' => ∃ entry, e'.requests.lookup id = some entry ∧
    entry.cancelRequested = true) (b := e) commands drainCommand h ?_
  rintro e₁ ⟨entry, hl, hmark⟩ c _
  cases c with
  | submit new =>
      unfold drainCommand
      simp only
      split
      · exact ⟨entry, hl, hmark⟩
      · rename_i hfresh
        refine ⟨entry, ?_, hmark⟩
        rw [AList.lookup_insert_ne]
        · exact hl
        · rintro rfl
          exact hfresh (IdMap.mem_of_lookup hl)
  | cancel k =>
      unfold drainCommand
      cases hk : e₁.requests.lookup k with
      | none => exact ⟨entry, by simpa only [hk] using hl, hmark⟩
      | some other =>
          simp only [hk]
          by_cases hne : id = k
          · subst hne
            exact ⟨_, AList.lookup_insert _, rfl⟩
          · exact ⟨entry, (AList.lookup_insert_ne hne).trans hl, hmark⟩

/-- A cancel in the queue of a request that is live when its turn comes. -/
def CancelsLive (commands : List Command) (e : EngineLoop σ α) (id : Nat) : Prop :=
  ∃ before after, commands = before ++ .cancel id :: after ∧
    (id ∈ e.requests ∨ id ∈ submitted before)

theorem CancelsLive.marked (h : CancelsLive commands e id) :
    ∃ entry, (e.drainCommands commands).requests.lookup id = some entry ∧
      entry.cancelRequested = true := by
  obtain ⟨before, after, rfl, hid⟩ := h
  obtain ⟨entry, hl⟩ := IdMap.exists_of_mem (mem_drained before e hid)
  have hsplit : e.drainCommands (before ++ .cancel id :: after)
      = ((e.drainCommands before).drainCommand (.cancel id)).drainCommands after := by
    unfold drainCommands
    rw [List.foldl_append, List.foldl_cons]
  rw [hsplit]
  refine marked_drain after _ ⟨{ entry with cancelRequested := true }, ?_, rfl⟩
  unfold drainCommand
  simp only [hl]
  exact AList.lookup_insert _

/-! ### Requests that are cancelled

In the step that drains the cancel, the request is found marked and is closed before any pass. 
It is not there any more when the passes are built. -/

/-- The operations on the channel of a request. -/
def opsOf (e : EngineLoop σ α) (id : Nat) : List ChannelOp := e.outbox.filter (·.id = id)

theorem Framed.opsOf_eq (h : Framed e e') (hid : id ∉ e.requests) : e'.opsOf id = e.opsOf id := by
  obtain ⟨ops, hops, hlive⟩ := h.posts
  unfold opsOf
  have hnone : ops.filter (·.id = id) = [] :=
    List.filter_eq_nil_iff.mpr fun op hop hc => hid (of_decide_eq_true hc ▸ hlive op hop)
  rw [hops, List.filter_append, hnone, List.append_nil]

theorem opsOf_close (e : EngineLoop σ α) (id : Nat) (info : FinishInfo) :
    (e.close id info).opsOf id = e.opsOf id ++ [.close id info] := by
  unfold opsOf EngineLoop.close
  simp [ChannelOp.id]

theorem opsOf_close_ne {id' : Nat} (h : id' ≠ id) (info : FinishInfo) :
    (e.close id info).opsOf id' = e.opsOf id' := by
  unfold opsOf EngineLoop.close
  simp [ChannelOp.id, h.symm]

/-- A marked request that has not ended is closed as cancelled, and leaves. -/
theorem retireCancelled_marked (hl : e.requests.lookup id = some entry)
    (hmark : entry.cancelRequested = true) (hterm : entry.seq.isTerminal = false) :
    (retireCancelled S e).Ensures fun e' => id ∉ e'.requests ∧
      e'.opsOf id = e.opsOf id ++ [.close id { terminal := .cancelled }] := by
  have hkeys := S.order_perm e.requests.keys
  unfold retireCancelled
  refine Ensures.bind (P := fun er => id ∈ er.2 ∧
    er.1.opsOf id = e.opsOf id ++ [.close id { terminal := .cancelled }]) ?_ ?_
  · refine (Ensures.foldlM (fun rest (er : EngineLoop σ α × List Nat) => rest.Nodup ∧
      (id ∈ rest ∧ er.1.requests.lookup id = some entry ∧ er.1.opsOf id = e.opsOf id ∨
        id ∉ rest ∧ id ∈ er.2 ∧
          er.1.opsOf id = e.opsOf id ++ [.close id { terminal := .cancelled }])) ?_ _ (e, [])
      ⟨hkeys.nodup_iff.mpr e.requests.keys_nodup, Or.inl ⟨hkeys.mem_iff.mpr (AList.mem_keys.mpr
        (IdMap.mem_of_lookup hl)), hl, rfl⟩⟩).mono ?_
    · rintro k rest er ⟨hnd, hI⟩ er' her'
      obtain ⟨hk, hnd'⟩ := List.nodup_cons.mp hnd
      obtain ⟨entry', hl', hturn⟩ := cancelOne_ensures er k er' her'
      refine ⟨hnd', ?_⟩
      rcases hI with ⟨hin, hlook, hops⟩ | ⟨hnot, hret, hops⟩
      · rcases List.mem_cons.mp hin with rfl | hin
        · rw [hlook] at hl'
          cases hl'
          rcases hturn with ⟨_, rfl⟩ | ⟨hc, _⟩
          · refine Or.inr ⟨hk, by simp, ?_⟩
            rw [opsOf_close]
            exact congrArg (· ++ _) hops
          · rw [hmark, hterm] at hc
            cases hc
        · have hne : id ≠ k := fun hc => hk (hc ▸ hin)
          refine Or.inl ⟨hin, ?_⟩
          rcases hturn with ⟨_, rfl⟩ | ⟨_, rfl⟩
          · refine ⟨(AList.lookup_insert_ne hne).trans hlook, ?_⟩
            rw [opsOf_close_ne hne]
            exact hops
          · exact ⟨hlook, hops⟩
      · rw [List.mem_cons, not_or] at hnot
        refine Or.inr ⟨hnot.2, ?_⟩
        rcases hturn with ⟨_, rfl⟩ | ⟨_, rfl⟩
        · refine ⟨List.mem_append_left _ hret, ?_⟩
          rw [opsOf_close_ne hnot.1]
          exact hops
        · exact ⟨hret, hops⟩
    · rintro er ⟨_, ⟨hin, _⟩ | ⟨_, h⟩⟩
      · exact absurd hin List.not_mem_nil
      · exact h
  · rintro ⟨e₁, retired⟩ ⟨hret, hops⟩
    refine (Ensures.foldlM (fun rest e₂ => (id ∈ rest ∨ id ∉ e₂.requests) ∧
      e₂.opsOf id = e₁.opsOf id) ?_ retired e₁ ⟨Or.inl hret, rfl⟩).mono ?_
    · rintro k rest e₂ ⟨hI, hsame⟩ e₃ he₃
      obtain ⟨pool, _, rfl⟩ := eraseRequest_ensures _ k e₃ he₃
      refine ⟨?_, hsame⟩
      rcases hI with hin | hnot
      · rcases List.mem_cons.mp hin with rfl | hin
        · exact Or.inr fun hc => (AList.mem_erase.mp hc).1 rfl
        · exact Or.inl hin
      · exact Or.inr fun hc => hnot (AList.mem_erase.mp hc).2
    · rintro e' ⟨hI, hsame⟩
      exact ⟨hI.resolve_left List.not_mem_nil, hsame.trans hops⟩

/-- **A cancel of a live request**: the step that drains it closes the channel as cancelled, does
nothing else to it, and the request is gone. -/
theorem Settled.step_cancels (h : e.Settled) (hq : Queued commands e)
    (hnew : ∀ id ∈ submitted commands, e.closed id = false) (hc : CancelsLive commands e id) :
    (EngineLoop.step S commands e).Ensures fun r => id ∉ r.2.requests ∧
      r.2.opsOf id = e.opsOf id ++ [.close id { terminal := .cancelled }] := by
  obtain ⟨entry, hl, hmark⟩ := hc.marked
  have hterm := (h.drain hq hnew).not_terminal hl
  have hout : (e.drainCommands commands).opsOf id = e.opsOf id := by
    unfold opsOf
    rw [drainCommands_outbox]
  refine (step_ensures S commands e).mono ?_
  rintro r ⟨e₁, h₁, hr⟩
  obtain ⟨hgone, hops⟩ := retireCancelled_marked hl hmark hterm e₁ h₁
  rw [hout] at hops
  rcases hr with hr | hr
  · rw [hr]
    exact ⟨hgone, hops⟩
  · obtain ⟨out, e₂, e₃, pass, e₄, hstep⟩ := execute_ensures S e₁ _ hr
    exact ⟨fun hc => hgone (hstep.framed.subset id hc), (hstep.framed.opsOf_eq hgone).trans hops⟩

end EngineLoop

end InferenceEngine
