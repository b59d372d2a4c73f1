/-
What holds of an engine at every moment, and the operations that keep it.

Between two calls every live request is where its state says.  Within a step that is not so:
an admitted sequence has no token yet, and a request that has been closed is still listed
until its turn to be erased.  The invariant therefore carries two lists of exceptions,
`fresh` and `retired`, both empty between calls.
-/
import InferenceEngine.Proofs.Contract
import InferenceEngine.Runtime.EngineSystem
import InferenceEngine.Runtime.Turn

namespace InferenceEngine

open Except BlockPool

/-! ### Sequences

Between two calls a sequence waits or runs.  What it may hold, and what it has been given,
follows from which it is. -/

namespace Sequence

variable {sampleRow : SampleRow} {promptIds : List Int} {s : Sequence} {next : SampleResult}
  {row : List F32} {status : Status} {t : Turn} {c : Option PagedKvCache}

/-- The blocks of a sequence's cache. -/
def blocks (s : Sequence) : Multiset Int :=
  (s.cache.map fun c => (c.table.blocks : Multiset Int)).getD 0

theorem blocks_some {c : PagedKvCache} (h : s.cache = some c) : s.blocks = ↑c.table.blocks := by
  simp [blocks, h]

theorem blocks_none (h : s.cache = none) : s.blocks = 0 := by
  simp [blocks, h]

/-- A sequence that waits: never started, with an empty cache, or preempted, with none. -/
def Parked (s : Sequence) : Prop :=
  (s.state = .waiting ∧ s.cache = some .new) ∨ (s.state = .preempted ∧ s.cache = none)

/-- A sequence that can be a member of a pass. -/
def Ready (s : Sequence) : Prop := s.state = .running ∧ ∃ c, s.cache = some c

/-- A sequence that has ended and not been retired. -/
def Ended (s : Sequence) : Prop := s.state = .finished ∨ s.state = .failed

theorem Parked.blocks (h : s.Parked) : s.blocks = 0 := by
  rcases h with ⟨_, hc⟩ | ⟨_, hc⟩
  · rw [blocks_some hc]
    rfl
  · exact blocks_none hc

theorem transition_ok {next : SeqState} (h : isLegalTransition s.state next = true) :
    s.transition next = .ok { s with state := next } := by
  unfold transition
  rw [check_of_true h]
  rfl

/-- Delivering a token leaves the cache alone. -/
theorem deliver_cache (c : Option PagedKvCache) :
    ({ s with cache := c } : Sequence).deliver next
      = ({ (s.deliver next).1 with cache := c }, (s.deliver next).2) := by
  unfold deliver
  simp only [appendGenerated, numGenerated]
  cases (s.stop.observe next.token ↑(s.generatedIds ++ [next.token]).length).1 with
  | error status => rfl
  | ok step =>
      by_cases hf : step.finished = true
      · simp only [if_pos hf]
        rfl
      · simp only [if_neg hf]

theorem answer_cache (c : Option PagedKvCache) :
    ({ s with cache := c } : Sequence).answer sampleRow promptIds row
      = ({ (s.answer sampleRow promptIds row).1 with cache := c },
          (s.answer sampleRow promptIds row).2) := by
  unfold answer
  cases s.sampler.sampleWithLogprobs sampleRow row ⟨promptIds, s.generatedIds⟩ with
  | error status => rfl
  | ok next => exact deliver_cache c

/-- A token delivered leaves the sequence running, with one token more, or ends it. -/
theorem deliver_cases (h : s.state = .running) (next : SampleResult) :
    (s.deliver next).1.cache = s.cache ∧
      ((s.deliver next).1.generatedIds = s.generatedIds ++ [next.token]) ∧
      (((s.deliver next).1.state = .running ∧ ∃ item, (s.deliver next).2 = some item) ∨
        ((s.deliver next).1.state = .finished ∧ ∃ item, (s.deliver next).2 = some item) ∨
        ((s.deliver next).1.state = .failed ∧ (s.deliver next).2 = none)) := by
  unfold deliver
  simp only [appendGenerated, numGenerated]
  cases (s.stop.observe next.token ↑(s.generatedIds ++ [next.token]).length).1 with
  | error status => exact ⟨rfl, rfl, Or.inr (Or.inr ⟨rfl, rfl⟩)⟩
  | ok step =>
      by_cases hf : step.finished = true
      · simp only [if_pos hf]
        exact ⟨rfl, rfl, Or.inr (Or.inl ⟨trivial, _, rfl⟩)⟩
      · simp only [if_neg hf]
        exact ⟨trivial, trivial, Or.inl ⟨h, _, rfl⟩⟩

end Sequence

/-! ### Channels

A log is `ClosedOnce` if nothing follows a close on the same channel.  An operation may be added
while the channel is open. -/

theorem closedOnce_nil : ClosedOnce [] := by
  intro before id info after h
  simp at h

/-- An operation on a channel that is open may follow. -/
theorem ClosedOnce.snoc {ops : List ChannelOp} {op : ChannelOp} (h : ClosedOnce ops)
    (hopen : ∀ info, .close op.id info ∉ ops) : ClosedOnce (ops ++ [op]) := by
  intro before id info after heq op' hop'
  rcases List.eq_nil_or_concat after with rfl | ⟨front, last, rfl⟩
  · simp at hop'
  · rw [List.concat_eq_append] at heq hop'
    have hsplit : ops ++ [op] = (before ++ .close id info :: front) ++ [last] := by
      rw [heq]
      simp
    obtain ⟨hops, hlast⟩ := List.append_inj' hsplit rfl
    cases hlast
    rcases List.mem_append.mp hop' with hop' | hop'
    · exact h before id info front hops op' hop'
    · rw [List.mem_singleton.mp hop']
      intro hid
      refine hopen info ?_
      rw [hops, hid]
      simp

namespace EngineLoop

variable {σ α : Type} {e e' : EngineLoop σ α} {id : Nat} {entry : Entry} {seq : Sequence}
  {fresh retired : List Nat} {pool : BlockPool α}

theorem closed_iff : e.closed id = true ↔ ∃ info, .close id info ∈ e.outbox := by
  unfold closed
  rw [List.any_eq_true]
  refine ⟨?_, ?_⟩
  · intro h
    obtain ⟨op, hop, hcond⟩ := h
    cases op with
    | push j item => simp [ChannelOp.isClose] at hcond
    | close j info =>
        refine ⟨info, ?_⟩
        simp only [ChannelOp.isClose, ChannelOp.id, Bool.true_and] at hcond
        rw [← of_decide_eq_true hcond]
        exact hop
  · intro h
    obtain ⟨info, h⟩ := h
    exact ⟨_, h, by simp [ChannelOp.isClose, ChannelOp.id]⟩

theorem not_closed_iff : e.closed id = false ↔ ∀ info, .close id info ∉ e.outbox := by
  rw [← Bool.not_eq_true, closed_iff, not_exists]

theorem entry_eq (h : e.requests.lookup id = some entry) : e.entry id = .ok entry := by
  simp [EngineLoop.entry, h]

/-- What the channels are given, without a look at whether they are open. -/
def emit (e : EngineLoop σ α) (id : Nat) (item : Option OutputItem) : EngineLoop σ α :=
  { e with outbox := e.outbox ++ item.toList.map (.push id) }

/-- **`DeliverSampled`**, as what it makes of the sequence and what it pushes. -/
theorem deliverSampled_eq (h : e.requests.lookup id = some entry)
    (hrun : entry.seq.state = .running) (hopen : e.closed id = false) (next : SampleResult) :
    e.deliverSampled id next
      = .ok ((e.emit id (entry.seq.deliver next).2).setSeq id entry
          (entry.seq.deliver next).1) := by
  unfold deliverSampled Sequence.deliver push
  rw [entry_eq h]
  simp only [hopen, bind, Except.bind]
  cases hobs : ((entry.seq.appendGenerated next.token).stop.observe next.token
      ↑(entry.seq.appendGenerated next.token).numGenerated).1 with
  | error status =>
      simp only
      rw [Sequence.transition_ok (by simp [Sequence.setError, Sequence.appendGenerated, hrun,
        isLegalTransition])]
      simp [emit, Sequence.failed, Sequence.setError, pure, Except.pure]
  | ok step =>
      by_cases hf : step.finished = true
      · simp only [if_pos hf]
        rw [Sequence.transition_ok (by simp [Sequence.setFinish, Sequence.appendGenerated, hrun,
          isLegalTransition])]
        rfl
      · simp only [if_neg hf]
        rfl

/-- A failure, as what it makes of the sequence. -/
theorem fail_eq (h : e.requests.lookup id = some entry) (hrun : entry.seq.state = .running)
    (status : Status) : e.fail id status = .ok (e.setSeq id entry (entry.seq.failed status)) := by
  unfold fail
  rw [entry_eq h]
  simp only [bind, Except.bind]
  rw [Sequence.transition_ok (by simp [Sequence.setError, hrun, isLegalTransition])]
  rfl

/-! ### The invariant

Every live request is in one list, its state belongs there, its cache owns its blocks, and its
channel is open.  It is stated for the middle of a step, with the requests that have been closed
and wait to be erased. -/

/-- The blocks of every live sequence. -/
def owned (e : EngineLoop σ α) : Multiset Int := e.requests.total fun _ entry => entry.seq.blocks

/-- What holds of the engine thread's state at every moment. -/
structure Sound (e : EngineLoop σ α) (fresh retired : List Nat) : Prop where
  exclusive : Exclusive e.shared.pool (e.owned + ↑e.shared.others)
  wf : ∀ id entry c, e.requests.lookup id = some entry → entry.seq.cache = some c →
    c.Wf e.shared.pool
  maxNumSeqs : 0 < e.config.maxNumSeqs
  maxNumBatchedTokens : 0 < e.config.maxNumBatchedTokens
  once : (e.waiting ++ e.running).Nodup
  live : ∀ id, id ∈ e.waiting ++ e.running ↔ id ∈ e.requests
  positive : ∀ id ∈ e.requests, 0 < id
  parked : ∀ id ∈ e.waiting, ∀ entry, e.requests.lookup id = some entry →
    id ∈ retired ∨ entry.seq.Parked
  active : ∀ id ∈ e.running, ∀ entry, e.requests.lookup id = some entry →
    id ∈ retired ∨ entry.seq.Ended ∨
      (entry.seq.Ready ∧ (entry.seq.generatedIds ≠ [] ∨ id ∈ fresh))
  closed : ∀ id ∈ e.requests, e.closed id = true ↔ id ∈ retired
  channels : ClosedOnce e.outbox

theorem Sound.entry_of_running (hs : e.Sound fresh retired) (h : id ∈ e.running) :
    ∃ entry, e.requests.lookup id = some entry :=
  IdMap.exists_of_mem ((hs.live id).mp (List.mem_append_right _ h))

theorem Sound.entry_of_waiting (hs : e.Sound fresh retired) (h : id ∈ e.waiting) :
    ∃ entry, e.requests.lookup id = some entry :=
  IdMap.exists_of_mem ((hs.live id).mp (List.mem_append_left _ h))

theorem Sound.open_of_lookup (hs : e.Sound fresh []) (h : e.requests.lookup id = some entry) :
    e.closed id = false := by
  have := hs.closed id (IdMap.mem_of_lookup h)
  simpa using this

/-- A live sequence in the running state is in the running list, with a cache. -/
theorem Sound.running_of_state (hs : e.Sound fresh []) (h : e.requests.lookup id = some entry)
    (hrun : entry.seq.state = .running) : id ∈ e.running ∧ entry.seq.Ready := by
  rcases List.mem_append.mp ((hs.live id).mpr (IdMap.mem_of_lookup h)) with hw | hr
  · rcases hs.parked id hw entry h with hc | hp | hp
    · exact absurd hc List.not_mem_nil
    · rw [hrun] at hp
      exact absurd hp.1 (by decide)
    · rw [hrun] at hp
      exact absurd hp.1 (by decide)
  · refine ⟨hr, ?_⟩
    rcases hs.active id hr entry h with hc | hc | hc
    · exact absurd hc List.not_mem_nil
    · rcases hc with hc | hc <;> rw [hrun] at hc <;> exact absurd hc (by decide)
    · exact hc.1

theorem mem_setSeq (h : e.requests.lookup id = some entry) {id' : Nat} :
    id' ∈ (e.setSeq id entry seq).requests ↔ id' ∈ e.requests := by
  show id' ∈ e.requests.insert id _ ↔ _
  rw [AList.mem_insert]
  refine ⟨?_, Or.inr⟩
  rintro (rfl | h')
  · exact IdMap.mem_of_lookup h
  · exact h'

theorem lookup_setSeq {id' : Nat} {entry' : Entry} :
    (e.setSeq id entry seq).requests.lookup id' = some entry' ↔
      (id' = id ∧ { entry with seq := seq } = entry') ∨
        (id' ≠ id ∧ e.requests.lookup id' = some entry') :=
  IdMap.lookup_insert_iff

theorem owned_setSeq (h : e.requests.lookup id = some entry) (seq : Sequence) :
    (e.setSeq id entry seq).owned + entry.seq.blocks = e.owned + seq.blocks :=
  IdMap.total_insert_add h _

theorem mem_evicted (h : e.requests.lookup id = some entry) {id' : Nat} :
    id' ∈ e.requests.insert id { entry with seq := entry.seq.evicted } ↔ id' ∈ e.requests :=
  mem_setSeq h

/-- A running or a retired sequence may change in everything but its cache. -/
theorem Sound.setSeq {fresh' : List Nat} (hs : e.Sound fresh retired)
    (h : e.requests.lookup id = some entry) (hcache : seq.cache = entry.seq.cache)
    (hseq : id ∈ retired ∨ id ∈ e.running ∧
      (seq.Ended ∨ (seq.Ready ∧ (seq.generatedIds ≠ [] ∨ id ∈ fresh'))))
    (hfresh : ∀ x ∈ fresh, x ≠ id → x ∈ fresh') :
    (e.setSeq id entry seq).Sound fresh' retired := by
  have howned : (e.setSeq id entry seq).owned = e.owned := by
    have := owned_setSeq h seq
    rw [show seq.blocks = entry.seq.blocks by unfold Sequence.blocks; rw [hcache]] at this
    exact add_right_cancel this
  refine ⟨?_, ?_, hs.maxNumSeqs, hs.maxNumBatchedTokens, hs.once, ?_, ?_, ?_, ?_, ?_, hs.channels⟩
  · rw [howned]
    exact hs.exclusive
  · intro id' entry' c h' hc
    rcases lookup_setSeq.mp h' with ⟨rfl, rfl⟩ | ⟨_, h'⟩
    · exact hs.wf id' entry c h (hcache ▸ hc)
    · exact hs.wf id' entry' c h' hc
  · intro id'
    rw [mem_setSeq h]
    exact hs.live id'
  · intro id' hid'
    exact hs.positive id' ((mem_setSeq h).mp hid')
  · intro id' hid' entry' h'
    rcases lookup_setSeq.mp h' with ⟨rfl, rfl⟩ | ⟨_, h'⟩
    · refine hseq.elim Or.inl fun hr => ?_
      exact absurd hr.1 (List.disjoint_of_nodup_append hs.once hid')
    · exact hs.parked id' hid' entry' h'
  · intro id' hid' entry' h'
    rcases lookup_setSeq.mp h' with ⟨rfl, rfl⟩ | ⟨hne, h'⟩
    · exact hseq.imp_right And.right
    · rcases hs.active id' hid' entry' h' with hc | hc | ⟨hready, hgen⟩
      · exact Or.inl hc
      · exact Or.inr (Or.inl hc)
      · exact Or.inr (Or.inr ⟨hready, hgen.imp_right fun hf => hfresh id' hf hne⟩)
  · intro id' hid'
    exact hs.closed id' ((mem_setSeq h).mp hid')

/-- A push to a live channel. -/
theorem Sound.emit (hs : e.Sound fresh []) (h : e.requests.lookup id = some entry)
    (item : Option OutputItem) : (e.emit id item).Sound fresh [] := by
  have hopen := not_closed_iff.mp (hs.open_of_lookup h)
  have hsame : ∀ id' info, .close id' info ∈ (e.emit id item).outbox ↔
      .close id' info ∈ e.outbox := by
    intro id' info
    simp [EngineLoop.emit]
  refine ⟨hs.exclusive, hs.wf, hs.maxNumSeqs, hs.maxNumBatchedTokens, hs.once, hs.live, hs.positive,
    hs.parked, hs.active, ?_, ?_⟩
  · intro id' hid'
    rw [← hs.closed id' hid', closed_iff, closed_iff]
    simp only [hsame]
  · cases item with
    | none => simpa [EngineLoop.emit] using hs.channels
    | some item => exact hs.channels.snoc hopen

/-- A token delivered to a member of a pass. -/
theorem Sound.deliver (hs : e.Sound (id :: fresh) []) (h : e.requests.lookup id = some entry)
    (hrun : entry.seq.state = .running) (next : SampleResult) :
    ((e.emit id (entry.seq.deliver next).2).setSeq id entry (entry.seq.deliver next).1).Sound
      fresh [] := by
  obtain ⟨hmem, _, c, hc⟩ := hs.running_of_state h hrun
  obtain ⟨hcache, hgen, hcases⟩ := Sequence.deliver_cases hrun next
  refine (hs.emit h _).setSeq h hcache (Or.inr ⟨hmem, ?_⟩) ?_
  · rcases hcases with ⟨hst, _⟩ | ⟨hst, _⟩ | ⟨hst, _⟩
    · refine Or.inr ⟨⟨hst, c, hcache.trans hc⟩, Or.inl ?_⟩
      rw [hgen]
      simp
    · exact Or.inl (Or.inl hst)
    · exact Or.inl (Or.inr hst)
  · intro x hx hne
    exact (List.mem_cons.mp hx).resolve_left hne

theorem Sound.fail (hs : e.Sound (id :: fresh) []) (h : e.requests.lookup id = some entry)
    (hrun : entry.seq.state = .running) (status : Status) :
    (e.setSeq id entry (entry.seq.failed status)).Sound fresh [] :=
  hs.setSeq h rfl (Or.inr ⟨(hs.running_of_state h hrun).1, Or.inl (Or.inr rfl)⟩) fun _ hx hne =>
    (List.mem_cons.mp hx).resolve_left hne

theorem Sound.weaken {fresh' : List Nat} (hs : e.Sound fresh retired)
    (h : ∀ x ∈ fresh, x ∈ fresh') : e.Sound fresh' retired :=
  { hs with
    active := fun id hid entry hl => (hs.active id hid entry hl).imp_right
      (Or.imp_right fun hr => ⟨hr.1, hr.2.imp_right (h id)⟩) }

/-! ### Blocks that are given back

The owners are split into those of one sequence and the rest.  Destroying a cache removes its
part. -/

/-- The blocks of every live sequence but one. -/
def ownedBy (e : EngineLoop σ α) (id : Nat) : Multiset Int :=
  IdMap.total (e.requests.erase id) fun _ entry => entry.seq.blocks

theorem Sound.split (hs : e.Sound fresh retired) (h : e.requests.lookup id = some entry) :
    Exclusive e.shared.pool (entry.seq.blocks + (e.ownedBy id + ↑e.shared.others)) := by
  rw [← add_assoc]
  have := hs.exclusive
  rwa [owned, IdMap.total_erase h] at this

/-- The cache of a sequence is destroyed. -/
theorem releaseCache_returns {o : Multiset Int} {s : Sequence}
    (he : Exclusive e.shared.pool (s.blocks + o)) :
    (e.releaseCache s.cache).Returns fun e' => ∃ pool,
      e' = { e with shared := { e.shared with pool := pool } } ∧ SameStore e.shared.pool pool ∧
        pool.exhaustions = e.shared.pool.exhaustions ∧ Exclusive pool o := by
  unfold EngineLoop.releaseCache
  cases hc : s.cache with
  | none =>
      rw [Sequence.blocks_none hc, zero_add] at he
      exact returns_pure ⟨e.shared.pool, rfl, SameStore.refl _, rfl, he⟩
  | some c =>
      rw [Sequence.blocks_some hc] at he
      refine Returns.bind (PagedKvCache.destroy_ok he) ?_
      intro pool hpool
      exact returns_pure ⟨pool, rfl, hpool.2.1, hpool.2.2, hpool.1⟩

/-- An element of a list without repetitions, moved to the front. -/
private theorem filter_ne_perm {l : List Nat} (hnd : l.Nodup) (h : id ∈ l) :
    (id :: l.filter (· ≠ id)).Perm l := by
  have := List.perm_cons_erase h
  rw [hnd.erase_eq_filter] at this
  have hfilter : l.filter (fun x => x != id) = l.filter (· ≠ id) :=
    List.filter_congr fun x _ => by by_cases hx : x = id <;> simp [hx]
  rw [hfilter] at this
  exact this.symm

private theorem filter_ne_of_not_mem {l : List Nat} (h : id ∉ l) : l.filter (· ≠ id) = l := by
  refine List.filter_eq_self.mpr fun x hx => ?_
  simp only [decide_eq_true_eq]
  rintro rfl
  exact h hx

/-- The lists after an eviction hold what they held. -/
theorem perm_evict {waiting running : List Nat} (h : (waiting ++ running).Nodup)
    (hid : id ∈ running) :
    ((id :: waiting) ++ running.filter (· ≠ id)).Perm (waiting ++ running) := by
  rw [List.cons_append]
  refine List.perm_middle.symm.trans (List.Perm.append_left _ ?_)
  exact filter_ne_perm (List.nodup_append.mp h).2.1 hid

/-- The lists after an admission hold what they held. -/
theorem perm_admit {waiting running : List Nat} (h : (waiting ++ running).Nodup)
    (hid : id ∈ waiting) :
    (waiting.filter (· ≠ id) ++ (running ++ [id])).Perm (waiting ++ running) := by
  rw [← List.append_assoc]
  refine (List.perm_append_singleton id _).trans ?_
  rw [← List.cons_append]
  exact (filter_ne_perm (List.nodup_append.mp h).1 hid).append_right _

/-- A sequence evicted: what `PreemptSequence` leaves, with the pool it leaves. -/
def evict (e : EngineLoop σ α) (id : Nat) (entry : Entry) (pool : BlockPool α) :
    EngineLoop σ α :=
  { e with
    shared := { e.shared with pool := pool }
    requests := e.requests.insert id { entry with seq := entry.seq.evicted }
    running := e.running.filter (· ≠ id)
    waiting := id :: e.waiting
    preemptionCount := e.preemptionCount + 1 }

/-- **`PreemptSequence`** evicts. -/
theorem Sound.preempt (hs : e.Sound fresh []) (h : e.requests.lookup id = some entry)
    (hrun : entry.seq.state = .running) :
    (e.preemptSequence id).Returns fun e' => ∃ pool, e' = e.evict id entry pool ∧
      SameStore e.shared.pool pool ∧ pool.exhaustions = e.shared.pool.exhaustions ∧
      e'.Sound fresh [] := by
  have hmem := (hs.running_of_state h hrun).1
  unfold preemptSequence
  rw [entry_eq h]
  show Returns (e.releaseCache entry.seq.cache >>= _) _
  refine Returns.bind (releaseCache_returns (hs.split h)) ?_
  rintro e₁ ⟨pool, rfl, hstore, hexh, he⟩
  rw [Sequence.transition_ok (by simp [hrun, isLegalTransition])]
  refine returns_pure ⟨pool, rfl, hstore, hexh, ?_⟩
  have hperm := perm_evict hs.once hmem
  have hmemReq : ∀ id', id' ∈ e.requests.insert id { entry with seq := entry.seq.evicted } ↔
      id' ∈ e.requests := fun _ => mem_evicted h
  have hlook : ∀ id' entry', (e.requests.insert id { entry with seq := entry.seq.evicted }).lookup
      id' = some entry' → (id' = id ∧ { entry with seq := entry.seq.evicted } = entry') ∨
        (id' ≠ id ∧ e.requests.lookup id' = some entry') :=
    fun id' entry' h' => IdMap.lookup_insert_iff.mp h'
  refine ⟨?_, ?_, hs.maxNumSeqs, hs.maxNumBatchedTokens, hperm.nodup_iff.mpr hs.once, ?_,
    ?_, ?_, ?_,
    ?_, hs.channels⟩
  · show Exclusive pool (IdMap.total (e.requests.insert id _) _ + _)
    rw [IdMap.total_insert, Sequence.blocks_none rfl, zero_add]
    exact he
  · intro id' entry' c h' hc
    rcases hlook id' entry' h' with ⟨rfl, rfl⟩ | ⟨_, h'⟩
    · exact absurd hc (by simp [Sequence.evicted])
    · exact (hs.wf id' entry' c h' hc).of_shape hstore.shape
  · intro id'
    refine (hperm.mem_iff).trans ((hs.live id').trans (hmemReq id').symm)
  · intro id' hid'
    exact hs.positive id' ((hmemReq id').mp hid')
  · intro id' hid' entry' h'
    rcases hlook id' entry' h' with ⟨rfl, rfl⟩ | ⟨hne, h'⟩
    · exact Or.inr (Or.inr ⟨rfl, rfl⟩)
    · exact hs.parked id' ((List.mem_cons.mp hid').resolve_left hne) entry' h'
  · intro id' hid' entry' h'
    obtain ⟨hid', hne⟩ := List.mem_filter.mp hid'
    rcases hlook id' entry' h' with ⟨rfl, _⟩ | ⟨_, h'⟩
    · simp at hne
    · exact hs.active id' hid' entry' h'
  · intro id' hid'
    exact hs.closed id' ((hmemReq id').mp hid')

/-- An admitted sequence, with a cache if it had none. -/
def admitted (e : EngineLoop σ α) (id : Nat) (entry : Entry) : EngineLoop σ α :=
  { e.setSeq id entry { entry.seq.ensureCache with state := .running } with
    waiting := e.waiting.filter (· ≠ id)
    running := e.running ++ [id] }

theorem Sound.admitted (hs : e.Sound fresh []) (hw : id ∈ e.waiting)
    (h : e.requests.lookup id = some entry) (numTokens : Int) :
    e.admitOne ⟨id, numTokens⟩ = .ok (e.admitted id entry) ∧
      (e.admitted id entry).Sound (id :: fresh) [] := by
  have hp : entry.seq.Parked := (hs.parked id hw entry h).resolve_left List.not_mem_nil
  have hready : ({ entry.seq.ensureCache with state := .running } : Sequence).Ready := by
    refine ⟨rfl, ?_⟩
    unfold Sequence.ensureCache
    rcases hp with ⟨_, hc⟩ | ⟨_, hc⟩ <;> simp [hc]
  have hwf : ∀ c, entry.seq.ensureCache.cache = some c → c = .new := by
    intro c
    unfold Sequence.ensureCache
    rcases hp with ⟨_, hc⟩ | ⟨_, hc⟩ <;> simp [hc] <;> exact fun h => h.symm
  have hblocks : ({ entry.seq.ensureCache with state := .running } : Sequence).blocks = 0 := by
    obtain ⟨_, c, hc⟩ := hready
    rw [Sequence.blocks_some hc, hwf c hc]
    rfl
  have howned : (e.admitted id entry).owned = e.owned := by
    have := owned_setSeq h { entry.seq.ensureCache with state := .running }
    rw [hp.blocks, hblocks, add_zero, add_zero] at this
    exact this
  have hperm := perm_admit hs.once hw
  refine ⟨?_, ?_⟩
  · unfold admitOne
    rw [entry_eq h]
    simp only [bind, Except.bind]
    have hlegal : isLegalTransition entry.seq.ensureCache.state .running = true := by
      unfold Sequence.ensureCache
      rcases hp with ⟨hst, hc⟩ | ⟨hst, hc⟩ <;> simp [hc, hst, isLegalTransition]
    rw [Sequence.transition_ok hlegal]
    rfl
  · refine ⟨?_, ?_, hs.maxNumSeqs, hs.maxNumBatchedTokens, hperm.nodup_iff.mpr hs.once, ?_, ?_, ?_,
      ?_, ?_, hs.channels⟩
    · rw [howned]
      exact hs.exclusive
    · intro id' entry' c h' hc
      rcases lookup_setSeq.mp h' with ⟨rfl, rfl⟩ | ⟨_, h'⟩
      · rw [hwf c hc]
        exact PagedKvCache.new_wf hs.exclusive.layers_pos
      · exact hs.wf id' entry' c h' hc
    · intro id'
      exact hperm.mem_iff.trans ((hs.live id').trans (mem_setSeq h).symm)
    · intro id' hid'
      exact hs.positive id' ((mem_setSeq h).mp hid')
    · intro id' hid' entry' h'
      obtain ⟨hid', hne⟩ := List.mem_filter.mp hid'
      rcases lookup_setSeq.mp h' with ⟨rfl, _⟩ | ⟨_, h'⟩
      · simp at hne
      · exact hs.parked id' hid' entry' h'
    · intro id' hid' entry' h'
      rcases lookup_setSeq.mp h' with ⟨rfl, rfl⟩ | ⟨hne, h'⟩
      · exact Or.inr (Or.inr ⟨hready, Or.inr (by simp)⟩)
      · have hid' : id' ∈ e.running := by
          rcases List.mem_append.mp hid' with hid' | hid'
          · exact hid'
          · exact absurd (List.mem_singleton.mp hid') hne
        rcases hs.active id' hid' entry' h' with hc | hc | ⟨hr, hg⟩
        · exact Or.inl hc
        · exact Or.inr (Or.inl hc)
        · exact Or.inr (Or.inr ⟨hr, hg.imp_right (List.mem_cons_of_mem _)⟩)
    · intro id' hid'
      exact hs.closed id' ((mem_setSeq h).mp hid')

/-! ### Channels that are closed, requests that are retired

A request is first closed and then erased, and in between it is on the list of the retired. -/

theorem Sound.close (hs : e.Sound fresh retired) (h : e.requests.lookup id = some entry)
    (hid : id ∉ retired) (info : FinishInfo) : (e.close id info).Sound fresh (retired ++ [id]) := by
  have hopen : e.closed id = false := by
    have := hs.closed id (IdMap.mem_of_lookup h)
    simpa [hid] using this
  refine ⟨hs.exclusive, hs.wf, hs.maxNumSeqs, hs.maxNumBatchedTokens, hs.once, hs.live, hs.positive,
    ?_, ?_, ?_, hs.channels.snoc (not_closed_iff.mp hopen)⟩
  · intro id' hid' entry' h'
    exact (hs.parked id' hid' entry' h').imp_left (List.mem_append_left _)
  · intro id' hid' entry' h'
    exact (hs.active id' hid' entry' h').imp_left (List.mem_append_left _)
  · intro id' hid'
    have hsplit : (e.close id info).closed id' = true ↔ e.closed id' = true ∨ id' = id := by
      rw [closed_iff, closed_iff]
      simp only [EngineLoop.close, List.mem_append, List.mem_singleton, ChannelOp.close.injEq]
      refine ⟨?_, ?_⟩
      · rintro ⟨i, hi | ⟨rfl, _⟩⟩
        · exact Or.inl ⟨i, hi⟩
        · exact Or.inr rfl
      · rintro (⟨i, hi⟩ | rfl)
        · exact ⟨i, Or.inl hi⟩
        · exact ⟨info, Or.inr ⟨rfl, rfl⟩⟩
    rw [hsplit, hs.closed id' hid', List.mem_append, List.mem_singleton]

/-- A request that has left the engine: what `Retire` leaves, with the pool it leaves. -/
def without (e : EngineLoop σ α) (id : Nat) (pool : BlockPool α) : EngineLoop σ α :=
  { e with
    shared := { e.shared with pool := pool }
    requests := e.requests.erase id
    waiting := e.waiting.filter (· ≠ id)
    running := e.running.filter (· ≠ id) }

/-- **A retired request leaves with its blocks.** -/
theorem Sound.retire (hs : e.Sound fresh (id :: retired))
    (h : e.requests.lookup id = some entry) :
    (e.retire id).Returns fun e' => ∃ pool, e' = e.without id pool ∧ SameStore e.shared.pool pool ∧
      pool.exhaustions = e.shared.pool.exhaustions ∧ e'.Sound fresh retired := by
  unfold EngineLoop.retire eraseRequest
  rw [h]
  refine Returns.bind (releaseCache_returns (e := { e with
    waiting := e.waiting.filter (· ≠ id)
    running := e.running.filter (· ≠ id) }) (hs.split h)) ?_
  rintro e₁ ⟨pool, rfl, hstore, hexh, he⟩
  refine returns_pure ⟨pool, rfl, hstore, hexh, ?_⟩
  have hmem : ∀ id', id' ∈ e.requests.erase id ↔ id' ≠ id ∧ id' ∈ e.requests :=
    fun id' => AList.mem_erase
  refine ⟨he, ?_, hs.maxNumSeqs, hs.maxNumBatchedTokens, ?_, ?_, ?_, ?_, ?_, ?_, hs.channels⟩
  · intro id' entry' c h' hc
    exact (hs.wf id' entry' c (IdMap.lookup_erase_iff.mp h').2 hc).of_shape hstore.shape
  · rw [← List.filter_append]
    exact hs.once.filter _
  · intro id'
    rw [← List.filter_append, List.mem_filter, hs.live id', hmem]
    simp [and_comm]
  · intro id' hid'
    exact hs.positive id' ((hmem id').mp hid').2
  · intro id' hid' entry' h'
    obtain ⟨hne, h'⟩ := IdMap.lookup_erase_iff.mp h'
    refine (hs.parked id' (List.mem_of_mem_filter hid') entry' h').imp_left fun hr => ?_
    exact (List.mem_cons.mp hr).resolve_left hne
  · intro id' hid' entry' h'
    obtain ⟨hne, h'⟩ := IdMap.lookup_erase_iff.mp h'
    refine (hs.active id' (List.mem_of_mem_filter hid') entry' h').imp_left fun hr => ?_
    exact (List.mem_cons.mp hr).resolve_left hne
  · intro id' hid'
    obtain ⟨hne, hid'⟩ := (hmem id').mp hid'
    refine (hs.closed id' hid').trans ?_
    rw [List.mem_cons]
    simp [hne]

/-- A request that only runs is retired in the same way. -/
theorem retireRunning_eq (h : id ∉ e.waiting) : e.retireRunning id = e.retire id := by
  unfold EngineLoop.retireRunning EngineLoop.retire
  rw [filter_ne_of_not_mem h]

/-- The other users of the pool leave the engine as it is. -/
theorem Sound.use (hs : e.Sound fresh retired) (u : PoolUse) :
    (e.shared.use u).Returns fun shared => SameStore e.shared.pool shared.pool ∧
      ({ e with shared := shared } : EngineLoop σ α).Sound fresh retired := by
  have he := hs.exclusive
  rw [add_comm] at he
  refine (SharedPool.use_returns u he).mono ?_
  rintro shared ⟨he', hstore⟩
  rw [add_comm] at he'
  exact ⟨hstore, he', fun id entry c h hc => (hs.wf id entry c h hc).of_shape hstore.shape,
    hs.maxNumSeqs, hs.maxNumBatchedTokens, hs.once, hs.live, hs.positive, hs.parked, hs.active,
    hs.closed, hs.channels⟩

end EngineLoop

end InferenceEngine
