/-
The lists of the engine and the counters of its sequences, through every function.

`Listed` is what the lists and the map of requests have in common between two functions:
every live request is listed once, and nothing that waits runs.  `Kept` says of the
sequences that run after a function that they ran before it and have counted since what they
were given.  A function is `Steady` if it keeps both, and `Revised` if it also leaves the
lists alone.
-/
import InferenceEngine.Proofs.EngineMoves

namespace InferenceEngine

open Except

namespace EngineLoop

variable {σ α : Type} {e e' e'' : EngineLoop σ α} {id : Nat} {entry : Entry} {seq : Sequence}
  {S : Services σ α} {prefill : Bool} {pool : BlockPool α}

/-- Every live request is listed, once; ids are positive; and nothing that waits runs. -/
structure Listed (e : EngineLoop σ α) : Prop where
  once : (e.waiting ++ e.running).Nodup
  live : ∀ id, id ∈ e.waiting ++ e.running ↔ id ∈ e.requests
  positive : ∀ id ∈ e.requests, 0 < id
  idle : ∀ id ∈ e.waiting, ∀ entry, e.requests.lookup id = some entry →
    entry.seq.state ≠ .running

/-- Whatever runs ran before, and its count is as far from its tokens as it was. -/
structure Kept (e e' : EngineLoop σ α) : Prop where
  geom : e'.shared.pool.geom = e.shared.pool.geom
  running : ∀ id entry', e'.requests.lookup id = some entry' → entry'.seq.state = .running →
    ∃ entry, e.requests.lookup id = some entry ∧ entry.seq.state = .running ∧
      entry'.drift = entry.drift

theorem Kept.refl (e : EngineLoop σ α) : Kept e e :=
  ⟨rfl, fun _ entry hl hr => ⟨entry, hl, hr, rfl⟩⟩

theorem Kept.trans (h : Kept e e') (h' : Kept e' e'') : Kept e e'' := by
  refine ⟨h'.geom.trans h.geom, fun id entry'' hl'' hr'' => ?_⟩
  obtain ⟨entry', hl', hr', hd'⟩ := h'.running id entry'' hl'' hr''
  obtain ⟨entry, hl, hr, hd⟩ := h.running id entry' hl' hr'
  exact ⟨entry, hl, hr, hd'.trans hd⟩

/-- The same lists of the same requests, and whatever runs ran before. -/
structure Revised (e e' : EngineLoop σ α) : Prop extends Kept e e' where
  waitingEq : e'.waiting = e.waiting
  runningEq : e'.running = e.running
  mem : ∀ id, id ∈ e'.requests ↔ id ∈ e.requests

theorem Revised.refl (e : EngineLoop σ α) : Revised e e := ⟨.refl e, rfl, rfl, fun _ => Iff.rfl⟩

theorem Revised.trans (h : Revised e e') (h' : Revised e' e'') : Revised e e'' :=
  ⟨h.toKept.trans h'.toKept, h'.waitingEq.trans h.waitingEq, h'.runningEq.trans h.runningEq,
    fun id => (h'.mem id).trans (h.mem id)⟩

/-- What keeps the lists in order, and the counts, of no other requests. -/
structure Steady (e e' : EngineLoop σ α) : Prop extends Kept e e' where
  subset : ∀ id, id ∈ e'.requests → id ∈ e.requests
  listed : e.Listed → e'.Listed

theorem Steady.refl (e : EngineLoop σ α) : Steady e e := ⟨.refl e, fun _ h => h, id⟩

theorem Steady.trans (h : Steady e e') (h' : Steady e' e'') : Steady e e'' :=
  ⟨h.toKept.trans h'.toKept, fun id hid => h.subset id (h'.subset id hid),
    fun hl => h'.listed (h.listed hl)⟩

theorem Revised.steady (h : Revised e e') : Steady e e' := by
  refine ⟨h.toKept, fun id => (h.mem id).mp, fun hl => ⟨?_, ?_, ?_, ?_⟩⟩
  · rw [h.waitingEq, h.runningEq]
    exact hl.once
  · intro id
    rw [h.waitingEq, h.runningEq, h.mem]
    exact hl.live id
  · intro id hid
    exact hl.positive id ((h.mem id).mp hid)
  · intro id hid entry' hl' hrun
    rw [h.waitingEq] at hid
    obtain ⟨entry, hentry, hstate, _⟩ := h.running id entry' hl' hrun
    exact hl.idle id hid entry hentry hstate

/-- A loop of steady turns is steady. -/
theorem Steady.foldlM {γ : Type} {f : EngineLoop σ α → γ → Checked (EngineLoop σ α)}
    (step : ∀ e x, (f e x).Ensures (Steady e)) (l : List γ) (e : EngineLoop σ α) :
    (l.foldlM f e).Ensures (Steady e) :=
  Ensures.foldlM_invariant (I := Steady e)
    (fun e' x h => (step e' x).mono fun _ h' => h.trans h') l (.refl e)

theorem Listed.mem_of_running (h : e.Listed) (hid : id ∈ e.running) : id ∈ e.requests :=
  (h.live id).mp (List.mem_append_right _ hid)

/-! ### Changes to one sequence

Most of the engine changes one entry and posts on one channel.  As long as the entry does not
start to run, the lists are revised and nothing more. -/

theorem revised_setSeq (h : e.requests.lookup id = some entry)
    (hseq : seq.state = .running → entry.seq.state = .running ∧
      ({ entry with seq := seq } : Entry).drift = entry.drift) :
    Revised e (e.setSeq id entry seq) := by
  refine ⟨⟨rfl, fun id' entry' hl hr => ?_⟩, rfl, rfl, fun _ => mem_setSeq h⟩
  rcases lookup_setSeq.mp hl with ⟨rfl, rfl⟩ | ⟨_, hl⟩
  · exact ⟨entry, h, hseq hr⟩
  · exact ⟨entry', hl, hr, rfl⟩

theorem revised_emit (e : EngineLoop σ α) (id : Nat) (item : Option OutputItem) :
    Revised e (e.emit id item) :=
  ⟨⟨rfl, fun _ entry hl hr => ⟨entry, hl, hr, rfl⟩⟩, rfl, rfl, fun _ => Iff.rfl⟩

theorem revised_close (e : EngineLoop σ α) (id : Nat) (info : FinishInfo) :
    Revised e (e.close id info) :=
  ⟨⟨rfl, fun _ entry hl hr => ⟨entry, hl, hr, rfl⟩⟩, rfl, rfl, fun _ => Iff.rfl⟩

theorem revised_shared (e : EngineLoop σ α) (shared : SharedPool α)
    (h : shared.pool.geom = e.shared.pool.geom) : Revised e { e with shared := shared } :=
  ⟨⟨h, fun _ entry hl hr => ⟨entry, hl, hr, rfl⟩⟩, rfl, rfl, fun _ => Iff.rfl⟩

theorem fail_revised (e : EngineLoop σ α) (id : Nat) (status : Status) :
    (e.fail id status).Ensures (Revised e) := by
  refine (fail_ensures e id status).mono ?_
  rintro e' ⟨entry, hl, rfl⟩
  exact revised_setSeq hl fun hr => by simp [Sequence.failed] at hr

theorem deliverSampled_revised (e : EngineLoop σ α) (id : Nat) (next : SampleResult) :
    (e.deliverSampled id next).Ensures (Revised e) := by
  refine (deliverSampled_ensures e id next).mono ?_
  rintro e' ⟨entry, hl, rfl⟩
  refine (revised_emit e id _).trans (revised_setSeq (e := e.emit id _) hl fun hr => ?_)
  exact ⟨Sequence.deliver_state next hr, Sequence.deliver_drift entry next⟩

theorem closeCancelled_revised (e : EngineLoop σ α) (id : Nat) :
    (e.closeCancelled id).Ensures (Revised e) := by
  unfold closeCancelled
  refine Ensures.bind (transition_ensures e id .cancelled) ?_
  rintro e' ⟨entry, hl, _, rfl⟩
  refine ensures_pure ((revised_setSeq hl fun hr => ?_).trans (revised_close _ id _))
  simp at hr

/-! ### Forwards

A forward writes the caches of its members back.  Their states and counters are as before. -/

theorem lookup_writeBack_cases {m : IdMap Entry} {caches : List (Nat × PagedKvCache)}
    {entry' : Entry} (h : (writeBack m caches).lookup id = some entry') :
    ∃ entry, m.lookup id = some entry ∧
      (entry' = entry ∨ ∃ c, (id, c) ∈ caches ∧ entry' = entry.withCache c) := by
  induction caches generalizing m with
  | nil => exact ⟨entry', h, Or.inl rfl⟩
  | cons kc caches ih =>
      rw [writeBack_cons] at h
      obtain ⟨entry₁, h₁, hcases⟩ := ih h
      have hback : m.lookup id = some entry₁ → ∃ entry, m.lookup id = some entry ∧
          (entry' = entry ∨ ∃ c, (id, c) ∈ kc :: caches ∧ entry' = entry.withCache c) := by
        intro h₂
        refine ⟨entry₁, h₂, hcases.imp_right ?_⟩
        rintro ⟨c, hc, he⟩
        exact ⟨c, List.mem_cons_of_mem _ hc, he⟩
      cases hk : m.lookup kc.1 with
      | none =>
          simp only [hk] at h₁
          exact hback h₁
      | some old =>
          simp only [hk] at h₁
          rcases IdMap.lookup_insert_iff.mp h₁ with ⟨rfl, rfl⟩ | ⟨_, h₁⟩
          · refine ⟨old, hk, Or.inr ?_⟩
            rcases hcases with rfl | ⟨c, hc, rfl⟩
            · exact ⟨kc.2, List.mem_cons_self, rfl⟩
            · exact ⟨c, List.mem_cons_of_mem _ hc, rfl⟩
          · exact hback h₁

theorem mem_writeBack {m : IdMap Entry} {caches : List (Nat × PagedKvCache)} :
    id ∈ writeBack m caches ↔ id ∈ m := by
  induction caches generalizing m with
  | nil => rfl
  | cons kc caches ih =>
      rw [writeBack_cons, ih]
      cases hk : m.lookup kc.1 with
      | none => rfl
      | some old =>
          simp only
          rw [AList.mem_insert]
          refine ⟨?_, Or.inr⟩
          rintro (rfl | h)
          · exact IdMap.mem_of_lookup hk
          · exact h

theorem revised_afterForward (e : EngineLoop σ α) (members : List Nat)
    (called : Model.Called σ α) (hgeom : called.shared.pool.geom = e.shared.pool.geom) :
    Revised e (e.afterForward members called) := by
  refine ⟨⟨hgeom, fun id entry' hl hr => ?_⟩, rfl, rfl, fun _ => mem_writeBack⟩
  obtain ⟨entry, hentry, rfl | ⟨c, _, rfl⟩⟩ := lookup_writeBack_cases hl
  · exact ⟨entry', hentry, hr, rfl⟩
  · exact ⟨entry, hentry, hr, rfl⟩

theorem call_geom (S : Services σ α) (state : σ) (request : ForwardRequest) (s : SharedPool α) :
    (S.model.call state request s).Ensures fun called =>
      called.shared.pool.geom = s.pool.geom := by
  unfold Model.call
  refine Ensures.bind (runEffects_counts _ _ _) ?_
  rintro ⟨ran, caches, shared⟩ ⟨hgeom, _⟩
  cases ran <;> exact ensures_pure hgeom

theorem forward_revised (S : Services σ α) (e : EngineLoop σ α) (members : List Nat)
    (request : ForwardRequest) :
    (e.forward S members request).Ensures fun r => Revised e r.2 := by
  refine (forward_ensures S e members request).mono ?_
  rintro ⟨logits, e'⟩ ⟨called, hcall, _, rfl⟩
  exact revised_afterForward e members called (call_geom S _ _ _ _ hcall)

theorem Attempt.revised {called : Model.Called σ α} {advanced : Bool}
    (h : Attempt S prefill e id entry called advanced e') : Revised e e' := by
  have hfwd := revised_afterForward e [id] called (call_geom S _ _ _ _ h.call)
  rcases h.outcome with ⟨_, _, rfl, _⟩ | ⟨_, ⟨status, hf⟩ | ⟨_, next, _, hd⟩⟩
  · exact hfwd
  · exact hfwd.trans (fail_revised _ id status _ hf)
  · exact hfwd.trans (deliverSampled_revised _ id next _ hd)

/-! ### Eviction

The one change that moves a request between the lists in the middle of a step: it leaves the
running ones and goes to the front of the queue. -/

theorem Listed.running_of_state (h : e.Listed) (hl : e.requests.lookup id = some entry)
    (hrun : entry.seq.state = .running) : id ∈ e.running :=
  (List.mem_append.mp ((h.live id).mpr (IdMap.mem_of_lookup hl))).resolve_left fun hw =>
    h.idle id hw entry hl hrun

theorem steady_evict (h : e.requests.lookup id = some entry) (hrun : entry.seq.state = .running)
    (hgeom : pool.geom = e.shared.pool.geom) : Steady e (e.evict id entry pool) := by
  have hlook : ∀ {id' entry'}, (e.evict id entry pool).requests.lookup id' = some entry' →
      (id' = id ∧ { entry with seq := entry.seq.evicted } = entry') ∨
        (id' ≠ id ∧ e.requests.lookup id' = some entry') := fun hl => IdMap.lookup_insert_iff.mp hl
  have hmem : ∀ id', id' ∈ (e.evict id entry pool).requests ↔ id' ∈ e.requests :=
    fun _ => mem_evicted h
  refine ⟨⟨hgeom, fun id' entry' hl hr => ?_⟩, fun id' => (hmem id').mp, fun hs => ?_⟩
  · rcases hlook hl with ⟨rfl, rfl⟩ | ⟨_, hl⟩
    · simp [Sequence.evicted] at hr
    · exact ⟨entry', hl, hr, rfl⟩
  · have hrunning := hs.running_of_state h hrun
    have hperm := perm_evict hs.once hrunning
    refine ⟨hperm.nodup_iff.mpr hs.once, ?_, ?_, ?_⟩
    · intro id'
      exact hperm.mem_iff.trans ((hs.live id').trans (hmem id').symm)
    · intro id' hid
      exact hs.positive id' ((hmem id').mp hid)
    · intro id' hid entry' hl
      rcases hlook hl with ⟨rfl, rfl⟩ | ⟨hne, hl⟩
      · simp [Sequence.evicted]
      · exact hs.idle id' ((List.mem_cons.mp hid).resolve_left hne) entry' hl

theorem preemptSequence_steady (e : EngineLoop σ α) (id : Nat) :
    (e.preemptSequence id).Ensures (Steady e) := by
  refine (preemptSequence_ensures e id).mono ?_
  rintro e' ⟨entry, pool, hl, hrun, hgeom, rfl⟩
  exact steady_evict hl hrun hgeom

/-! ### Passes

A pass is a forward with deliveries, or a recovery with retries and evictions.  Both are steady,
by the rules for loops. -/

theorem recoverMember_steady (S : Services σ α) (prefill : Bool) (id : Nat) :
    ∀ (fuel : Nat) (e : EngineLoop σ α),
      (recoverMember S prefill id fuel e).Ensures (Steady e) := by
  intro fuel
  induction fuel with
  | zero => exact fun e => ensures_throw _
  | succ fuel ih =>
      intro e
      rw [EngineLoop.recoverMember]
      refine Ensures.bind (executeAndDeliver_ensures S e prefill id) ?_
      rintro ⟨advanced, e₁⟩ ⟨entry, called, hat⟩
      have h₁ := hat.revised.steady
      simp only at h₁ ⊢
      by_cases hadv : advanced = true
      · rw [if_pos hadv]
        exact ensures_pure h₁
      · rw [if_neg hadv]
        refine Ensures.bind (ensures_self _) fun victim _ => ?_
        by_cases hv : victim = 0
        · rw [if_pos hv]
          exact (fail_revised e₁ id _).mono fun _ h => h₁.trans h.steady
        · rw [if_neg hv]
          refine Ensures.bind (preemptSequence_steady e₁ victim) fun e₂ h₂ => ?_
          exact (ih e₂).mono fun _ h₃ => h₁.trans (h₂.trans h₃)

theorem revised_setCache (e : EngineLoop σ α) (id : Nat) (c : PagedKvCache) :
    Revised e (e.setCache id c) := by
  unfold setCache
  cases hl : e.requests.lookup id with
  | none => exact .refl e
  | some entry => exact revised_setSeq hl fun hr => ⟨hr, rfl⟩

theorem truncate_geom (c : PagedKvCache) (n : Int) (p : BlockPool α) :
    (c.truncate n p).Ensures fun r => r.2.2.geom = p.geom := by
  unfold PagedKvCache.truncate BlockTable.truncate
  refine Ensures.bind (P := fun r => r.2.2.geom = p.geom) ?_ ?_
  · by_cases h : n < 0 ∨ (c.table.numTokens : Int) < n
    · simp only [if_pos h]
      exact ensures_pure rfl
    · simp only [if_neg h]
      exact Ensures.bind (BlockTable.popBlocks_geom _ _ p) fun r h => ensures_pure h
  · rintro ⟨truncated, table, p'⟩ h
    cases truncated <;> exact ensures_pure h

/-- What a member's turn in a recovery starts from: its cache has been cut back. -/
theorem recoverOne_ensures (S : Services σ α) (prefill : Bool) (pass preLen : List Nat)
    (e : EngineLoop σ α) (id : Nat) :
    (recoverOne S prefill pass preLen e id).Ensures fun e' => ∃ entry,
      e.requests.lookup id = some entry ∧ ((entry.seq.state ≠ .running ∧ e' = e) ∨
        (entry.seq.state = .running ∧ ∃ cache r, entry.seq.cache = some cache ∧
          cache.truncate (preForwardLength pass preLen id) e.shared.pool = .ok r ∧
          recoverMember S prefill id e.running.length
            ({ e with shared := { e.shared with pool := r.2.2 } }.setCache id r.2.1)
              = .ok e')) := by
  unfold recoverOne
  refine Ensures.bind (entry_ensures e id) fun entry hl => ?_
  by_cases hrun : entry.seq.state = .running
  · rw [if_neg (fun h => h hrun)]
    cases hc : entry.seq.cache with
    | none => exact ensures_throw _
    | some cache =>
        refine Ensures.bind (ensures_self _) ?_
        rintro ⟨truncated, cache', pool⟩ hr e' he'
        simp only [(revised_setCache _ id cache').runningEq] at he'
        exact ⟨entry, hl, Or.inr ⟨hrun, cache, _, hc, hr, he'⟩⟩
  · rw [if_pos hrun]
    exact ensures_pure ⟨entry, hl, Or.inl ⟨hrun, rfl⟩⟩

theorem recoverOne_steady (S : Services σ α) (prefill : Bool) (pass preLen : List Nat)
    (e : EngineLoop σ α) (id : Nat) :
    (recoverOne S prefill pass preLen e id).Ensures (Steady e) := by
  refine (recoverOne_ensures S prefill pass preLen e id).mono ?_
  rintro e' ⟨entry, _, ⟨_, rfl⟩ | ⟨_, cache, r, _, hr, hrec⟩⟩
  · exact .refl e'
  · have hgeom := truncate_geom cache _ _ _ hr
    have hcut := (revised_shared e { e.shared with pool := r.2.2 } hgeom).trans
      (revised_setCache _ id r.2.1)
    exact hcut.steady.trans (recoverMember_steady S prefill id _ _ _ hrec)

theorem deliverRow_revised (e : EngineLoop σ α) (row : Nat × SampleResult × StatusOr Unit) :
    (e.deliverRow row).Ensures (Revised e) := by
  unfold deliverRow
  cases row.2.2 with
  | ok _ => exact deliverSampled_revised e _ _
  | error status => exact fail_revised e _ _

/-- A batch that is sampled has a result and a status for every row. -/
theorem sample_lengths {sampleRow : SampleRow} {logits : List F32} {vocab : Int}
    {rows : List BatchRow} {out results : List SampleResult}
    {rowStatus rowStatus' : List (StatusOr Unit)}
    (h : BatchedSampler.sample sampleRow logits vocab rows out rowStatus
      = (.ok (), results, rowStatus')) :
    results.length = out.length ∧ rowStatus'.length = out.length := by
  unfold BatchedSampler.sample at h
  split at h
  · cases h
  split at h
  · cases h
  rename_i hout
  split at h
  · cases h
  split at h
  · cases h
  split at h
  · cases h
  · cases h
    have hlen : out.length = rows.length := not_not.mp hout
    simp [hlen]

/-- What a pass that is not empty comes to. -/
structure Ran (S : Services σ α) (prefill : Bool) (pass : List Nat) (e : EngineLoop σ α)
    (seqs : List BatchSeqInput) (inputs : BatchInputs) (preLen : List Nat)
    (called : Model.Called σ α) (e' : EngineLoop σ α) : Prop where
  built : pass.mapM (e.buildPassInput prefill) = .ok seqs
  assembled : BatchAssembler.flatten (!prefill) seqs = .ok inputs
  lengths : pass.mapM e.cacheLength = .ok preLen
  call : S.model.call e.state inputs.makeForwardRequest e.shared = .ok called
  outcome : ((∃ status, called.logits = .error status) ∧
      recoverForwardFailure S prefill pass preLen (e.afterForward pass called) = .ok e') ∨
    ∃ logits rows, called.logits = .ok logits ∧ rows.length = pass.length ∧
      (pass.zip rows).foldlM deliverRow (e.afterForward pass called) = .ok e'

theorem runBatchPass_ensures (S : Services σ α) (prefill : Bool) (pass : List Nat)
    (e : EngineLoop σ α) :
    (runBatchPass S prefill pass e).Ensures fun e' => (pass = [] ∧ e' = e) ∨
      ∃ seqs inputs preLen called, Ran S prefill pass e seqs inputs preLen called e' := by
  unfold runBatchPass
  by_cases hempty : pass.isEmpty = true
  · rw [if_pos hempty]
    exact ensures_pure (Or.inl ⟨List.isEmpty_iff.mp hempty, rfl⟩)
  · rw [if_neg hempty]
    refine Ensures.bind (ensures_self _) fun seqs hseqs => ?_
    cases hflat : BatchAssembler.flatten (!prefill) seqs with
    | error status => exact ensures_throw _
    | ok inputs =>
        refine Ensures.bind (ensures_self _) fun preLen hpre => ?_
        refine Ensures.bind (forward_ensures S e pass _) ?_
        rintro ⟨logits, e₁⟩ ⟨called, hcall, hlogits, he₁⟩
        simp only at hlogits he₁
        subst hlogits he₁
        cases hans : called.logits with
        | error status =>
            exact fun e' h => Or.inr ⟨seqs, inputs, preLen, called, hseqs, hflat, hpre, hcall,
              Or.inl ⟨⟨status, hans⟩, h⟩⟩
        | ok logits =>
            refine Ensures.bind (ensures_self _) fun _ _ => ?_
            simp only
            generalize hsample : BatchedSampler.sample S.sampleRow logits.values S.model.vocabSize
              inputs.sampleRows (List.replicate pass.length {})
              (List.replicate pass.length (.ok ())) = sampled
            obtain ⟨sampled, results, rowStatus⟩ := sampled
            cases sampled with
            | error status => exact ensures_throw _
            | ok _ =>
                obtain ⟨hresults, hstatus⟩ := sample_lengths hsample
                rw [List.length_replicate] at hresults hstatus
                refine fun e' h => Or.inr ⟨seqs, inputs, preLen, called, hseqs, hflat, hpre, hcall,
                  Or.inr ⟨logits, _, hans, ?_, h⟩⟩
                rw [List.length_zip, hresults, hstatus, Nat.min_self]

theorem runBatchPass_steady (S : Services σ α) (prefill : Bool) (pass : List Nat)
    (e : EngineLoop σ α) : (runBatchPass S prefill pass e).Ensures (Steady e) := by
  refine (runBatchPass_ensures S prefill pass e).mono ?_
  rintro e' (⟨_, rfl⟩ | ⟨seqs, inputs, preLen, called, hran⟩)
  · exact .refl e'
  · have hfwd := revised_afterForward e pass called (call_geom S _ _ _ _ hran.call)
    rcases hran.outcome with ⟨_, hrec⟩ | ⟨_, rows, _, _, hrows⟩
    · exact hfwd.steady.trans
        (Steady.foldlM (recoverOne_steady S prefill pass preLen) pass _ _ hrec)
    · refine hfwd.steady.trans (Steady.foldlM (fun e row => ?_) _ _ _ hrows)
      exact (deliverRow_revised e row).mono fun _ h => h.steady

end EngineLoop

end InferenceEngine
