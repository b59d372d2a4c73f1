/-
What the functions of the engine do, whenever they return.

Each function is inverted once: a step that returned changed the books in one of a few ways,
and two facts about those ways carry everything below.  The lists stay lists of the live
requests, each in one of them and at most once; and a sequence that runs was already running,
with as many tokens counted as it has been given since.  Neither depends on the model, on the
pool or on what the other users of the pool do.
-/
import InferenceEngine.Proofs.CacheCounts
import InferenceEngine.Proofs.EngineTurn

namespace InferenceEngine

open Except

variable {σ α : Type}

/-! ### Sequences

The state machine of a sequence, with its illegal edges refused.  A counter moves with a
delivered token and with nothing else. -/

theorem check_ensures (cond : Bool) (message : String) :
    (check cond message).Ensures fun _ => cond = true := by
  unfold check
  by_cases h : cond = true
  · rw [if_pos h]
    exact ensures_ok h
  · rw [if_neg h]
    exact ensures_error _

theorem Sequence.transition_ensures (s : Sequence) (next : SeqState) :
    (s.transition next).Ensures fun s' =>
      isLegalTransition s.state next = true ∧ s' = { s with state := next } :=
  Ensures.bind (check_ensures _ _) fun _ h => ensures_pure ⟨h, rfl⟩

/-- A sequence fails or is evicted from the running state only. -/
theorem running_of_legal {s : SeqState} {next : SeqState}
    (h : isLegalTransition s next = true) (hnext : next = .failed ∨ next = .preempted) :
    s = .running := by
  rcases hnext with rfl | rfl <;> cases s <;> simp [isLegalTransition] at h ⊢

/-- The tokens of a sequence: its prompt and what it has generated. -/
def Entry.context (entry : Entry) : Nat :=
  entry.request.promptIds.length + entry.seq.generatedIds.length

/-- How far the count of a sequence is from its tokens. -/
def Entry.drift (entry : Entry) : Int := entry.seq.numComputedTokens - entry.context

/-- A token delivered is counted once. -/
theorem Sequence.deliver_drift (entry : Entry) (next : SampleResult) :
    ({ entry with seq := (entry.seq.deliver next).1 } : Entry).drift = entry.drift := by
  have h : (entry.seq.deliver next).1.generatedIds = entry.seq.generatedIds ++ [next.token] ∧
      (entry.seq.deliver next).1.numComputedTokens = entry.seq.numComputedTokens + 1 := by
    unfold deliver
    simp only [appendGenerated, numGenerated]
    cases (entry.seq.stop.observe next.token
        ↑(entry.seq.generatedIds ++ [next.token]).length).1 with
    | error status => exact ⟨rfl, rfl⟩
    | ok step =>
        by_cases hf : step.finished = true
        · simp only [if_pos hf]
          exact ⟨rfl, rfl⟩
        · simp only [if_neg hf]
          exact ⟨trivial, trivial⟩
  unfold Entry.drift Entry.context
  rw [h.1, h.2, List.length_append, List.length_singleton]
  push_cast
  omega

/-- A sequence that runs after it was delivered a token was running. -/
theorem Sequence.deliver_state {s : Sequence} (next : SampleResult)
    (h : (s.deliver next).1.state = .running) : s.state = .running := by
  unfold deliver at h
  simp only [appendGenerated, numGenerated] at h
  revert h
  cases (s.stop.observe next.token ↑(s.generatedIds ++ [next.token]).length).1 with
  | error status => intro h; simp [failed] at h
  | ok step =>
      by_cases hf : step.finished = true
      · simp only [if_pos hf]
        intro h
        simp at h
      · simp only [if_neg hf]
        exact id

namespace EngineLoop

variable {e e' e'' : EngineLoop σ α} {id : Nat} {entry : Entry} {seq : Sequence}
  {S : Services σ α} {prefill : Bool}

/-! ### One function at a time

Each lemma says all that a function may have done if it returned.  Nothing further unfolds one
of these functions. -/

theorem entry_ensures (e : EngineLoop σ α) (id : Nat) :
    (e.entry id).Ensures fun entry => e.requests.lookup id = some entry := by
  unfold EngineLoop.entry
  cases h : e.requests.lookup id with
  | none => exact ensures_error _
  | some entry => exact ensures_ok rfl

theorem releaseCache_ensures (e : EngineLoop σ α) (cache : Option PagedKvCache) :
    (e.releaseCache cache).Ensures fun e' => ∃ pool, pool.geom = e.shared.pool.geom ∧
      e' = { e with shared := { e.shared with pool := pool } } := by
  unfold EngineLoop.releaseCache
  cases cache with
  | none => exact ensures_pure ⟨e.shared.pool, rfl, rfl⟩
  | some c => exact Ensures.bind (c.destroy_geom _) fun pool h => ensures_pure ⟨pool, h, rfl⟩

theorem eraseRequest_ensures (e : EngineLoop σ α) (id : Nat) :
    (e.eraseRequest id).Ensures fun e' => ∃ pool, pool.geom = e.shared.pool.geom ∧
      e' = { e with
        shared := { e.shared with pool := pool }
        requests := e.requests.erase id } := by
  unfold eraseRequest
  cases h : e.requests.lookup id with
  | none =>
      refine ensures_pure ⟨e.shared.pool, rfl, ?_⟩
      have hid : id ∉ e.requests := by
        rw [← AList.lookup_eq_none]
        exact h
      have herase : e.requests.erase id = e.requests := AList.ext (List.kerase_of_notMem_keys hid)
      rw [herase]
  | some entry =>
      refine Ensures.bind (releaseCache_ensures e _) ?_
      rintro e₁ ⟨pool, hgeom, rfl⟩
      exact ensures_pure ⟨pool, hgeom, rfl⟩

theorem transition_ensures (e : EngineLoop σ α) (id : Nat) (next : SeqState) :
    (e.transition id next).Ensures fun e' => ∃ entry, e.requests.lookup id = some entry ∧
      isLegalTransition entry.seq.state next = true ∧
      e' = e.setSeq id entry { entry.seq with state := next } := by
  unfold EngineLoop.transition
  refine Ensures.bind (entry_ensures e id) fun entry hl => ?_
  refine Ensures.bind (entry.seq.transition_ensures next) ?_
  rintro seq ⟨hlegal, rfl⟩
  exact ensures_pure ⟨entry, hl, hlegal, rfl⟩

theorem fail_ensures (e : EngineLoop σ α) (id : Nat) (status : Status) :
    (e.fail id status).Ensures fun e' => ∃ entry, e.requests.lookup id = some entry ∧
      e' = e.setSeq id entry (entry.seq.failed status) := by
  unfold EngineLoop.fail
  refine Ensures.bind (entry_ensures e id) fun entry hl => ?_
  refine Ensures.bind (Sequence.transition_ensures _ _) ?_
  rintro seq ⟨_, rfl⟩
  exact ensures_pure ⟨entry, hl, rfl⟩

theorem push_ensures (e : EngineLoop σ α) (id : Nat) (item : OutputItem) :
    (e.push id item).Ensures fun e' => e' = e.emit id (some item) :=
  Ensures.bind (check_ensures _ _) fun _ _ => ensures_pure rfl

theorem deliverSampled_ensures (e : EngineLoop σ α) (id : Nat) (next : SampleResult) :
    (e.deliverSampled id next).Ensures fun e' => ∃ entry, e.requests.lookup id = some entry ∧
      e' = (e.emit id (entry.seq.deliver next).2).setSeq id entry (entry.seq.deliver next).1 := by
  unfold deliverSampled
  refine Ensures.bind (entry_ensures e id) fun entry hl => ?_
  refine Ensures.mono (P := fun e' => e' = (e.emit id (entry.seq.deliver next).2).setSeq id entry
    (entry.seq.deliver next).1) ?_ fun e' h => ⟨entry, hl, h⟩
  unfold Sequence.deliver
  simp only
  cases ((entry.seq.appendGenerated next.token).stop.observe next.token
      ↑(entry.seq.appendGenerated next.token).numGenerated).1 with
  | error status =>
      simp only
      refine Ensures.bind (Sequence.transition_ensures _ _) ?_
      rintro seq ⟨_, rfl⟩
      refine ensures_pure ?_
      rw [emit_none]
      rfl
  | ok step =>
      by_cases hf : step.finished = true
      · simp only [if_pos hf]
        refine Ensures.bind (push_ensures e id _) ?_
        rintro e₁ rfl
        refine Ensures.bind (Sequence.transition_ensures _ _) ?_
        rintro seq ⟨_, rfl⟩
        exact ensures_pure rfl
      · simp only [if_neg hf]
        refine Ensures.bind (push_ensures e id _) ?_
        rintro e₁ rfl
        exact ensures_pure rfl

/-- The engine after a forward of some members. -/
def afterForward (e : EngineLoop σ α) (members : List Nat) (called : Model.Called σ α) :
    EngineLoop σ α :=
  { e with
    state := called.state
    shared := called.shared
    requests := writeBack e.requests (members.zip called.caches) }

theorem forward_ensures (S : Services σ α) (e : EngineLoop σ α) (members : List Nat)
    (request : ForwardRequest) :
    (e.forward S members request).Ensures fun r => ∃ called,
      S.model.call e.state request e.shared = .ok called ∧ r.1 = called.logits ∧
        r.2 = e.afterForward members called := by
  unfold EngineLoop.forward
  refine Ensures.bind (ensures_self _) fun called hcall => ensures_pure ⟨called, hcall, rfl, ?_⟩
  rw [foldl_setCache]
  rfl

theorem preemptSequence_ensures (e : EngineLoop σ α) (id : Nat) :
    (e.preemptSequence id).Ensures fun e' => ∃ entry pool, e.requests.lookup id = some entry ∧
      entry.seq.state = .running ∧ pool.geom = e.shared.pool.geom ∧ e' = e.evict id entry pool := by
  unfold preemptSequence
  refine Ensures.bind (entry_ensures e id) fun entry hl => ?_
  refine Ensures.bind (releaseCache_ensures e _) ?_
  rintro e₁ ⟨pool, hgeom, rfl⟩
  refine Ensures.bind (Sequence.transition_ensures _ _) ?_
  rintro seq ⟨hlegal, rfl⟩
  exact ensures_pure ⟨entry, pool, hl, running_of_legal hlegal (Or.inr rfl), hgeom, rfl⟩

theorem admitOne_ensures (e : EngineLoop σ α) (p : Prefill) :
    (e.admitOne p).Ensures fun e' => ∃ entry, e.requests.lookup p.id = some entry ∧
      isLegalTransition entry.seq.state .running = true ∧ e' = e.admitted p.id entry := by
  unfold admitOne
  refine Ensures.bind (entry_ensures e p.id) fun entry hl => ?_
  refine Ensures.bind (Sequence.transition_ensures _ _) ?_
  rintro seq ⟨hlegal, rfl⟩
  refine ensures_pure ⟨entry, hl, ?_, rfl⟩
  have hstate : entry.seq.ensureCache.state = entry.seq.state := by
    unfold Sequence.ensureCache
    cases entry.seq.cache <;> rfl
  rwa [hstate] at hlegal

/-- What a standalone turn came to: it is to be retried, or the member failed, or it was
delivered a token. -/
structure Attempt (S : Services σ α) (prefill : Bool) (e : EngineLoop σ α) (id : Nat)
    (entry : Entry) (called : Model.Called σ α) (advanced : Bool) (e' : EngineLoop σ α) :
    Prop where
  lookup : e.requests.lookup id = some entry
  cache : entry.seq.cache = some entry.seq.held
  generated : prefill = false → entry.seq.generatedIds ≠ []
  call : S.model.call e.state ⟨false, [entry.alone prefill]⟩ e.shared = .ok called
  outcome :
    (advanced = false ∧ prefill = false ∧ e' = e.afterForward [id] called ∧
      ∃ status, called.logits = .error status ∧ status.code = .resourceExhausted) ∨
    (advanced = true ∧
      ((∃ status, (e.afterForward [id] called).fail id status = .ok e') ∨
        ∃ logits next, called.logits = .ok logits ∧
          (e.afterForward [id] called).deliverSampled id next = .ok e'))

theorem executeAndDeliver_ensures (S : Services σ α) (e : EngineLoop σ α) (prefill : Bool)
    (id : Nat) : (e.executeAndDeliver S prefill id).Ensures fun r => ∃ entry called,
      Attempt S prefill e id entry called r.1 r.2 := by
  cases hl : e.requests.lookup id with
  | none =>
      unfold executeAndDeliver EngineLoop.entry
      rw [hl]
      exact ensures_error _
  | some entry =>
      cases hc : entry.seq.cache with
      | none =>
          unfold executeAndDeliver
          rw [entry_eq hl, ok_bind, hc]
          exact ensures_throw _
      | some cache =>
          have hheld : entry.seq.cache = some entry.seq.held := by simp [Sequence.held, hc]
          by_cases hgen : prefill = false → entry.seq.generatedIds ≠ []
          · rw [executeAndDeliver_eq hl hheld hgen]
            refine Ensures.bind (forward_ensures S e [id] _) ?_
            rintro ⟨logits, e₁⟩ ⟨called, hcall, hlogits, he₁⟩
            simp only at hlogits he₁
            subst hlogits he₁
            have hmk : ∀ {advanced e'}, _ → Attempt S prefill e id entry called advanced e' :=
              fun h => ⟨hl, hheld, hgen, hcall, h⟩
            have hfail : ∀ status, (do
                let e ← (e.afterForward [id] called).fail id status
                pure (true, e) : Checked (Bool × EngineLoop σ α)).Ensures fun r =>
                  ∃ entry called, Attempt S prefill e id entry called r.1 r.2 := fun status =>
              Ensures.bind (ensures_self _) fun e' h =>
                ensures_pure ⟨entry, called, hmk (Or.inr ⟨rfl, Or.inl ⟨status, h⟩⟩)⟩
            cases hans : called.logits with
            | error status =>
                simp only
                by_cases hretry : (!prefill && decide (status.code = .resourceExhausted)) = true
                · rw [if_pos hretry]
                  rw [Bool.and_eq_true, Bool.not_eq_true', decide_eq_true_eq] at hretry
                  exact ensures_pure ⟨entry, called,
                    hmk (Or.inl ⟨rfl, hretry.1, rfl, status, hans, hretry.2⟩)⟩
                · rw [if_neg hretry]
                  exact hfail status
            | ok logits =>
                refine Ensures.bind (ensures_self _) fun row _ => ?_
                cases entry.seq.sampler.sampleWithLogprobs S.sampleRow row
                    ⟨entry.request.promptIds, entry.seq.generatedIds⟩ with
                | error status => exact hfail status
                | ok next =>
                    refine Ensures.bind (ensures_self _) fun e' h => ?_
                    exact ensures_pure ⟨entry, called,
                      hmk (Or.inr ⟨rfl, Or.inr ⟨logits, next, hans, h⟩⟩)⟩
          · -- a decode of a sequence that has generated nothing reads past its tokens
            have hprefill : prefill = false := by
              by_contra hp
              exact hgen fun h => absurd h hp
            have hnil : entry.seq.generatedIds = [] := by
              by_contra hn
              exact hgen fun _ => hn
            subst hprefill
            unfold executeAndDeliver
            rw [entry_eq hl, ok_bind, hc]
            simp only [hnil, List.getLast?_nil]
            exact ensures_throw _

end EngineLoop

end InferenceEngine
