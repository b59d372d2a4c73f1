/-
A step of the engine, phase by phase, without a fault.

Between two calls every live request is where its state says, and whatever runs is in the
running state: the engine is `Settled`.  A step drains the queue, retires what was cancelled,
evicts and admits what the plan says, runs its two passes and retires what has ended, and each
phase hands the next one what it needs.

Here are the first phase and the two that retire.  Either way the channels are closed first and
the requests erased with their blocks after, and whatever stays is not touched.
-/
import InferenceEngine.Proofs.EnginePass
import InferenceEngine.Proofs.Scheduler

namespace InferenceEngine

open Except BlockPool

/-- A sequence that has not ended may be cancelled. -/
theorem Sequence.cancel_legal {s : Sequence} (h : s.isTerminal = false) :
    isLegalTransition s.state .cancelled = true := by
  unfold isTerminal at h
  cases hs : s.state <;> rw [hs] at h <;> simp [isLegalTransition] at h ⊢

namespace EngineLoop

variable {σ α : Type} {e e' : EngineLoop σ α} {id : Nat} {entry : Entry}
  {fresh retired : List Nat} {S : Services σ α} {commands : List Command}

/-- What holds of the engine thread's state between two calls. -/
structure Settled (e : EngineLoop σ α) : Prop where
  sound : e.Sound [] []
  running : ∀ id ∈ e.running, ∀ entry, e.requests.lookup id = some entry →
    entry.seq.state = .running

/-- Whatever runs and is not about to be retired is in the running state. -/
def Going (e : EngineLoop σ α) (retired : List Nat) : Prop :=
  ∀ id ∈ e.running, id ∉ retired → ∀ entry, e.requests.lookup id = some entry →
    entry.seq.state = .running

/-- Every live request has a prompt. -/
def Prompted (e : EngineLoop σ α) : Prop := e.Each fun _ entry => entry.request.promptIds ≠ []

theorem Prompted.framed (h : e.Prompted) (hc : Framed e e') : e'.Prompted := by
  intro id entry' hl'
  obtain ⟨entry, hl, hr⟩ := hc.request id entry' hl'
  rw [hr]
  exact h id entry hl

theorem Settled.going (h : e.Settled) : e.Going [] := fun id hid _ => h.running id hid

theorem Settled.placed (h : e.Settled) : e.Placed := by
  refine ⟨h.sound.once, h.sound.live, fun id hid => ?_, fun id hid => ?_⟩
  · obtain ⟨entry, hl⟩ := h.sound.entry_of_waiting hid
    refine ⟨entry, hl, ?_⟩
    rcases (h.sound.parked id hid entry hl).resolve_left List.not_mem_nil with hp | hp
    · exact Or.inl hp.1
    · exact Or.inr hp.1
  · obtain ⟨entry, hl⟩ := h.sound.entry_of_running hid
    exact ⟨entry, hl, h.running id hid entry hl⟩

/-! ### Draining the queue

The channels have no part in it, so the lists are followed with an empty record of them.
-/

theorem Sound.forget (h : e.Sound fresh []) :
    ({ e with outbox := [] } : EngineLoop σ α).Sound fresh [] :=
  ⟨h.exclusive, h.wf, h.maxNumSeqs, h.maxNumBatchedTokens, h.once, h.live, h.positive, h.parked,
    h.active, fun _ _ => by simp [EngineLoop.closed], closedOnce_nil⟩

theorem Sound.recall (h : ({ e with outbox := [] } : EngineLoop σ α).Sound fresh [])
    (hopen : ∀ id ∈ e.requests, e.closed id = false) (hch : ClosedOnce e.outbox) :
    e.Sound fresh [] :=
  ⟨h.exclusive, h.wf, h.maxNumSeqs, h.maxNumBatchedTokens, h.once, h.live, h.positive, h.parked,
    h.active, fun id hid => by simp [hopen id hid], hch⟩

theorem Sound.mark (hs : e.Sound fresh []) (h : e.requests.lookup id = some entry) :
    (e.mark id entry).Sound fresh [] := by
  have hlook : ∀ {id' entry'}, (e.mark id entry).requests.lookup id' = some entry' →
      ∃ old, e.requests.lookup id' = some old ∧ entry'.seq = old.seq := by
    intro id' entry' hl
    rcases IdMap.lookup_insert_iff.mp hl with ⟨rfl, rfl⟩ | ⟨_, hl⟩
    · exact ⟨entry, h, rfl⟩
    · exact ⟨entry', hl, rfl⟩
  have hmem : ∀ id', id' ∈ (e.mark id entry).requests ↔ id' ∈ e.requests :=
    (revised_mark h).mem
  have howned : (e.mark id entry).owned = e.owned := by
    have := IdMap.total_insert_add (w := { entry with cancelRequested := true }) h
      fun _ entry => entry.seq.blocks
    exact add_right_cancel this
  refine ⟨?_, ?_, hs.maxNumSeqs, hs.maxNumBatchedTokens, hs.once, ?_, ?_, ?_, ?_, ?_, hs.channels⟩
  · rw [howned]
    exact hs.exclusive
  · intro id' entry' c hl hc
    obtain ⟨old, hold, hseq⟩ := hlook hl
    exact hs.wf id' old c hold (hseq ▸ hc)
  · intro id'
    exact (hs.live id').trans (hmem id').symm
  · intro id' hid'
    exact hs.positive id' ((hmem id').mp hid')
  · intro id' hid' entry' hl
    obtain ⟨old, hold, hseq⟩ := hlook hl
    rw [hseq]
    exact hs.parked id' hid' old hold
  · intro id' hid' entry' hl
    obtain ⟨old, hold, hseq⟩ := hlook hl
    rw [hseq]
    exact hs.active id' hid' old hold
  · intro id' hid'
    exact hs.closed id' ((hmem id').mp hid')

/-- A new request is listed; nothing has been done to its channel. -/
theorem Sound.enlist (hs : e.Sound fresh []) (hfresh : entry.request.id ∉ e.requests)
    (hpos : 0 < entry.request.id) (hseq : Unstarted entry.seq)
    (hopen : e.closed entry.request.id = false) : (e.enlist entry).Sound fresh [] := by
  have hparked : entry.seq.Parked := Or.inl ⟨hseq.state, hseq.cache⟩
  have hlook : ∀ {id' entry'}, (e.enlist entry).requests.lookup id' = some entry' →
      (id' = entry.request.id ∧ entry = entry') ∨
        (id' ≠ entry.request.id ∧ e.requests.lookup id' = some entry') :=
    fun hl => IdMap.lookup_insert_iff.mp hl
  have hmem : ∀ id', id' ∈ (e.enlist entry).requests ↔ id' = entry.request.id ∨ id' ∈ e.requests :=
    fun _ => AList.mem_insert _
  have howned : (e.enlist entry).owned = e.owned := by
    show IdMap.total (e.requests.insert entry.request.id entry) _ = _
    rw [IdMap.total_insert_fresh hfresh, hparked.blocks, zero_add]
    rfl
  have hperm : ((e.waiting ++ [entry.request.id]) ++ e.running).Perm
      (entry.request.id :: (e.waiting ++ e.running)) := by
    rw [List.append_assoc]
    exact List.perm_middle
  have hnew : ∀ id' ∈ e.waiting ++ e.running, id' ≠ entry.request.id := by
    rintro id' hid' rfl
    exact hfresh ((hs.live _).mp hid')
  refine ⟨?_, ?_, hs.maxNumSeqs, hs.maxNumBatchedTokens, ?_, ?_, ?_, ?_, ?_, ?_, hs.channels⟩
  · rw [howned]
    exact hs.exclusive
  · intro id' entry' c hl hc
    rcases hlook hl with ⟨rfl, rfl⟩ | ⟨_, hl⟩
    · rw [hseq.cache] at hc
      cases hc
      exact PagedKvCache.new_wf hs.exclusive.layers_pos
    · exact hs.wf id' entry' c hl hc
  · refine hperm.nodup_iff.mpr (List.nodup_cons.mpr ⟨?_, hs.once⟩)
    rw [hs.live]
    exact hfresh
  · intro id'
    refine hperm.mem_iff.trans ?_
    rw [List.mem_cons, hs.live, hmem]
  · intro id' hid'
    rcases (hmem id').mp hid' with rfl | hid'
    · exact hpos
    · exact hs.positive id' hid'
  · intro id' hid' entry' hl
    rcases hlook hl with ⟨rfl, rfl⟩ | ⟨hne, hl⟩
    · exact Or.inr hparked
    · refine hs.parked id' ((List.mem_append.mp hid').resolve_right fun hc => ?_) entry' hl
      exact hne (List.mem_singleton.mp hc)
  · intro id' hid' entry' hl
    rcases hlook hl with ⟨rfl, _⟩ | ⟨_, hl⟩
    · exact absurd rfl (hnew _ (List.mem_append_right _ hid'))
    · exact hs.active id' hid' entry' hl
  · intro id' hid'
    rcases (hmem id').mp hid' with rfl | hid'
    · show e.closed _ = true ↔ _
      simp [hopen]
    · exact hs.closed id' hid'

theorem drainCommands_outbox (commands : List Command) (e : EngineLoop σ α) :
    (e.drainCommands commands).outbox = e.outbox := by
  unfold drainCommands
  refine List.foldlRecOn (motive := fun e' => e'.outbox = e.outbox) (b := e) commands
    drainCommand rfl ?_
  intro e₁ h c _
  cases c with
  | submit entry => exact h
  | cancel id =>
      unfold drainCommand
      cases hl : e₁.requests.lookup id with
      | none => simpa only [hl] using h
      | some entry => simpa only [hl] using h

/-- Every request of a drained engine was there or was submitted. -/
theorem drainCommands_request (commands : List Command) (e : EngineLoop σ α) :
    ∀ id entry', (e.drainCommands commands).requests.lookup id = some entry' →
      (∃ entry, e.requests.lookup id = some entry ∧ entry'.request = entry.request) ∨
        ∃ entry, .submit entry ∈ commands ∧ id = entry.request.id ∧
          entry'.request = entry.request := by
  unfold drainCommands
  refine List.foldlRecOn (motive := fun e' => ∀ id entry', e'.requests.lookup id = some entry' →
      (∃ entry, e.requests.lookup id = some entry ∧ entry'.request = entry.request) ∨
        ∃ entry, .submit entry ∈ commands ∧ id = entry.request.id ∧
          entry'.request = entry.request) (b := e) commands drainCommand
    (fun id entry' hl => Or.inl ⟨entry', hl, rfl⟩) ?_
  intro e₁ h c hc id entry' hl
  cases c with
  | submit entry =>
      unfold drainCommand at hl
      simp only at hl
      split at hl
      · exact h id entry' hl
      · rcases IdMap.lookup_insert_iff.mp hl with ⟨hid, rfl⟩ | ⟨_, hl⟩
        · exact Or.inr ⟨entry, hc, hid, rfl⟩
        · exact h id entry' hl
  | cancel k =>
      unfold drainCommand at hl
      cases hk : e₁.requests.lookup k with
      | none =>
          simp only [hk] at hl
          exact h id entry' hl
      | some entry =>
          simp only [hk] at hl
          rcases IdMap.lookup_insert_iff.mp hl with ⟨rfl, rfl⟩ | ⟨_, hl⟩
          · exact h id entry hk
          · exact h id entry' hl

/-- **Draining the queue** keeps the engine settled, if the channels of the new requests have
not been used. -/
theorem Settled.drain (h : e.Settled) (hq : Queued commands e)
    (hnew : ∀ id ∈ submitted commands, e.closed id = false) :
    (e.drainCommands commands).Settled := by
  have hlists : ({ e.drainCommands commands with outbox := [] } : EngineLoop σ α).Sound [] [] ∧
      (e.drainCommands commands).running = e.running ∧ ∀ id ∈ e.running, ∀ entry',
        (e.drainCommands commands).requests.lookup id = some entry' →
          entry'.seq.state = .running := by
    refine drainCommands_induction (fun e' =>
      ({ e' with outbox := [] } : EngineLoop σ α).Sound [] [] ∧ e'.running = e.running ∧
        ∀ id ∈ e.running, ∀ entry', e'.requests.lookup id = some entry' →
          entry'.seq.state = .running) ?_ ?_ commands e hq ⟨h.sound.forget, rfl, h.running⟩
    · rintro e₁ entry ⟨hs₁, hr₁, hrun₁⟩ hfresh hpos hseq
      refine ⟨Sound.enlist (e := { e₁ with outbox := [] }) hs₁ hfresh hpos hseq rfl, hr₁,
        fun id hid entry' hl => ?_⟩
      rcases IdMap.lookup_insert_iff.mp hl with ⟨rfl, _⟩ | ⟨_, hl⟩
      · exact absurd ((hs₁.live _).mp (List.mem_append_right _ (hr₁ ▸ hid))) hfresh
      · exact hrun₁ id hid entry' hl
    · rintro e₁ id entry ⟨hs₁, hr₁, hrun₁⟩ hl
      refine ⟨Sound.mark (e := { e₁ with outbox := [] }) hs₁ hl, hr₁, fun id' hid' entry' hl' => ?_⟩
      rcases IdMap.lookup_insert_iff.mp hl' with ⟨rfl, rfl⟩ | ⟨_, hl'⟩
      · exact hrun₁ _ hid' entry hl
      · exact hrun₁ id' hid' entry' hl'
  have hout := drainCommands_outbox commands e
  have hclosed : ∀ id, (e.drainCommands commands).closed id = e.closed id := by
    intro id
    unfold EngineLoop.closed
    rw [hout]
  refine ⟨hlists.1.recall (fun id hid => ?_) (hout ▸ h.sound.channels), fun id hid => ?_⟩
  · rw [hclosed]
    rcases mem_drainCommands commands e id hid with hid | hid
    · obtain ⟨entry, hl⟩ := IdMap.exists_of_mem hid
      exact h.sound.open_of_lookup hl
    · exact hnew id hid
  · rw [hlists.2.1] at hid
    exact hlists.2.2 id hid

end EngineLoop

/-- What `MakeFinishInfo` says of a sequence that has ended. -/
def Sequence.finishInfo (s : Sequence) : FinishInfo where
  terminal := s.state
  finishReason := s.finishReason
  stopTrigger := s.stopTrigger
  matchedStop := s.matchedStop
  error := s.error

theorem Sequence.makeFinishInfo_eq {s : Sequence} (h : s.isTerminal = true) :
    s.makeFinishInfo = .ok s.finishInfo := by
  unfold makeFinishInfo
  rw [check_of_true h]
  rfl

namespace EngineLoop

variable {σ α : Type} {e e' e'' : EngineLoop σ α} {id : Nat} {entry : Entry}
  {fresh retired gone : List Nat} {ops ops' : List ChannelOp} {S : Services σ α}

/-! ### What retirement leaves

A request leaves in two moves: its channel is closed and its blocks are given back, and later
its entry is erased.  In between it is listed but owns nothing. -/

/-- Some requests have left with their blocks, and their channels have been used. -/
structure Departed (e : EngineLoop σ α) (gone : List Nat) (ops : List ChannelOp)
    (e' : EngineLoop σ α) : Prop where
  config : e'.config = e.config
  maxModelLen : e'.maxModelLen = e.maxModelLen
  others : e'.shared.others = e.shared.others
  store : SameStore e.shared.pool e'.shared.pool
  exhaustions : e'.shared.pool.exhaustions = e.shared.pool.exhaustions
  waiting : e'.waiting = e.waiting.filter (· ∉ gone)
  running : e'.running = e.running.filter (· ∉ gone)
  lookup : ∀ id entry, e'.requests.lookup id = some entry ↔
    id ∉ gone ∧ e.requests.lookup id = some entry
  outbox : e'.outbox = e.outbox ++ ops

theorem Departed.refl (e : EngineLoop σ α) : Departed e [] [] e := by
  refine ⟨rfl, rfl, rfl, SameStore.refl _, rfl, ?_, ?_, fun id entry => ?_, ?_⟩ <;> simp

/-- One more leaves. -/
theorem Departed.without {pool : BlockPool α} (h : Departed e gone ops e')
    (hstore : SameStore e'.shared.pool pool)
    (hexh : pool.exhaustions = e'.shared.pool.exhaustions) :
    Departed e (gone ++ [id]) ops (e'.without id pool) := by
  have hfilter : ∀ l : List Nat,
      (l.filter (· ∉ gone)).filter (· ≠ id) = l.filter (· ∉ gone ++ [id]) := by
    intro l
    rw [List.filter_filter]
    refine List.filter_congr fun x _ => ?_
    simp only [List.mem_append, List.mem_singleton, not_or, Bool.decide_and]
    exact Bool.and_comm _ _
  refine ⟨h.config, h.maxModelLen, h.others, h.store.trans hstore, hexh.trans h.exhaustions, ?_, ?_,
    fun id' entry => ?_, h.outbox⟩
  · rw [← hfilter, ← h.waiting]
    rfl
  · rw [← hfilter, ← h.running]
    rfl
  · show (e'.requests.erase id).lookup id' = _ ↔ _
    rw [IdMap.lookup_erase_iff, h.lookup, List.mem_append, List.mem_singleton, not_or]
    tauto

/-- The channels of some requests have been closed; the requests are still listed. -/
structure Closing (e : EngineLoop σ α) (gone : List Nat) (ops : List ChannelOp)
    (e' : EngineLoop σ α) : Prop where
  config : e'.config = e.config
  maxModelLen : e'.maxModelLen = e.maxModelLen
  shared : e'.shared = e.shared
  waiting : e'.waiting = e.waiting
  running : e'.running = e.running
  lookup : ∀ id, id ∉ gone → e'.requests.lookup id = e.requests.lookup id
  outbox : e'.outbox = e.outbox ++ ops

theorem Closing.refl (e : EngineLoop σ α) : Closing e [] [] e :=
  ⟨rfl, rfl, rfl, rfl, rfl, fun _ _ => rfl, (List.append_nil _).symm⟩

theorem Closing.departed (h : Closing e gone ops e') (h' : Departed e' gone [] e'') :
    Departed e gone ops e'' := by
  refine ⟨h'.config.trans h.config, h'.maxModelLen.trans h.maxModelLen, ?_, ?_, ?_, ?_, ?_,
    fun id entry => ?_, ?_⟩
  · rw [h'.others, h.shared]
  · rw [← h.shared]
    exact h'.store
  · rw [h'.exhaustions, h.shared]
  · rw [h'.waiting, h.waiting]
  · rw [h'.running, h.running]
  · refine (h'.lookup id entry).trans (and_congr_right fun hid => ?_)
    rw [h.lookup id hid]
  · rw [h'.outbox, List.append_nil, h.outbox]

/-- A request that is closed: its entry may change with it. -/
theorem Closing.close (h : Closing e gone ops e') (id : Nat) (entry : Entry) (seq : Sequence)
    (info : FinishInfo) :
    Closing e (gone ++ [id]) (ops ++ [.close id info])
      ((e'.setSeq id entry seq).close id info) := by
  refine ⟨h.config, h.maxModelLen, h.shared, h.waiting, h.running, fun id' hid' => ?_, ?_⟩
  · rw [List.mem_append, not_or, List.mem_singleton] at hid'
    rw [← h.lookup id' hid'.1]
    exact AList.lookup_insert_ne hid'.2
  · show e'.outbox ++ _ = _
    rw [h.outbox, List.append_assoc]

/-! ### Erasing

Erasing the closed requests leaves an engine as if they had never been, save for their channels. -/

/-- A sequence that is about to be retired is closed as cancelled. -/
theorem Sound.closeCancelled (hs : e.Sound fresh retired) (h : e.requests.lookup id = some entry)
    (hid : id ∉ retired) (hterm : entry.seq.isTerminal = false) :
    e.closeCancelled id = .ok ((e.setSeq id entry { entry.seq with state := .cancelled }).close id
        { terminal := .cancelled }) ∧
      ((e.setSeq id entry { entry.seq with state := .cancelled }).close id
        { terminal := .cancelled }).Sound fresh (retired ++ [id]) := by
  refine ⟨?_, ?_⟩
  · unfold EngineLoop.closeCancelled EngineLoop.transition
    rw [entry_eq h, ok_bind, Sequence.transition_ok (Sequence.cancel_legal hterm)]
    rfl
  · have hclose := hs.close h hid { terminal := .cancelled }
    exact hclose.setSeq (e := e.close id _) h rfl (Or.inl (by simp)) fun _ hx _ => hx

/-- The requests that have been closed and wait to be erased. -/
structure Retiring (e : EngineLoop σ α) (retired : List Nat) : Prop where
  sound : e.Sound [] retired
  nodup : retired.Nodup
  live : ∀ id ∈ retired, id ∈ e.requests
  going : e.Going retired

theorem Settled.retiring (h : e.Settled) : e.Retiring [] :=
  ⟨h.sound, List.nodup_nil, fun _ hid => absurd hid List.not_mem_nil, h.going⟩

/-- Whatever is not about to be retired waits or runs. -/
theorem Retiring.not_terminal (h : e.Retiring retired) (hl : e.requests.lookup id = some entry)
    (hid : id ∉ retired) : entry.seq.isTerminal = false := by
  unfold Sequence.isTerminal
  rcases List.mem_append.mp ((h.sound.live id).mpr (IdMap.mem_of_lookup hl)) with hw | hr
  · rcases (h.sound.parked id hw entry hl).resolve_left hid with hp | hp <;> simp [hp.1]
  · simp [h.going id hr hid entry hl]

/-- A live request of a settled engine has not ended. -/
theorem Settled.not_terminal (h : e.Settled) (hl : e.requests.lookup id = some entry) :
    entry.seq.isTerminal = false :=
  h.retiring.not_terminal hl List.not_mem_nil

/-- A sequence that had not ended is cancelled and closed. -/
theorem Retiring.closeCancelled (h : e.Retiring retired) (hl : e.requests.lookup id = some entry)
    (hid : id ∉ retired) (hterm : entry.seq.isTerminal = false) :
    (e.closeCancelled id).Returns fun e' => e'.Retiring (retired ++ [id]) ∧
      e' = (e.setSeq id entry { entry.seq with state := .cancelled }).close id
        { terminal := .cancelled } := by
  obtain ⟨heq, hs⟩ := h.sound.closeCancelled hl hid hterm
  rw [heq]
  have hmem : ∀ id', id' ∈ ((e.setSeq id entry { entry.seq with state := .cancelled }).close id
      { terminal := .cancelled }).requests ↔ id' ∈ e.requests := fun _ => mem_setSeq hl
  refine returns_ok ⟨⟨hs, ?_, fun id' hid' => ?_, fun id' hid' hnot entry' hl' => ?_⟩, rfl⟩
  · refine List.nodup_append.mpr ⟨h.nodup, List.nodup_singleton _, ?_⟩
    rintro a ha b hb rfl
    exact hid (List.mem_singleton.mp hb ▸ ha)
  · rw [hmem]
    rcases List.mem_append.mp hid' with hid' | hid'
    · exact h.live id' hid'
    · rw [List.mem_singleton.mp hid']
      exact IdMap.mem_of_lookup hl
  · rw [List.mem_append, not_or, List.mem_singleton] at hnot
    have hl' := (lookup_setSeq.mp hl').resolve_left fun hc => hnot.2 hc.1
    exact h.going id' hid' hnot.1 entry' hl'.2

/-- The retired requests leave one by one. -/
theorem Retiring.retire (h : e.Retiring retired) :
    (retired.foldlM EngineLoop.retire e).Returns fun e' =>
      e'.Settled ∧ Departed e retired [] e' := by
  refine (Returns.foldlM (fun rest e' => e'.Retiring rest ∧ ∃ done, done ++ rest = retired ∧
    Departed e done [] e') ?_ retired e ⟨h, [], rfl, .refl e⟩).mono ?_
  · rintro id rest e₁ ⟨h₁, done, hdone, hd⟩
    obtain ⟨hid, hrest⟩ := List.nodup_cons.mp h₁.nodup
    obtain ⟨entry, hl⟩ := IdMap.exists_of_mem (h₁.live id List.mem_cons_self)
    refine (h₁.sound.retire hl).mono ?_
    rintro e₂ ⟨pool, rfl, hstore, hexh, hs₂⟩
    refine ⟨⟨hs₂, hrest, fun id' hid' => ?_, fun id' hid' hnot entry' hl' => ?_⟩, done ++ [id], ?_,
      hd.without hstore hexh⟩
    · exact AList.mem_erase.mpr ⟨fun hc => hid (hc ▸ hid'),
        h₁.live id' (List.mem_cons_of_mem _ hid')⟩
    · obtain ⟨hne, hl'⟩ := IdMap.lookup_erase_iff.mp hl'
      refine h₁.going id' (List.mem_of_mem_filter hid') ?_ entry' hl'
      rw [List.mem_cons, not_or]
      exact ⟨hne, hnot⟩
    · rw [List.append_assoc]
      exact hdone
  · rintro e' ⟨h', done, hdone, hd⟩
    rw [List.append_nil] at hdone
    exact ⟨⟨h'.sound, fun id hid => h'.going id hid List.not_mem_nil⟩, hdone ▸ hd⟩

/-! ### Collecting

Both retirements first collect ids in a loop and then go through what they have collected. -/

/-- A loop that collects the ids with a property: who has been taken has it, and who has it has
been taken or is still to come. -/
structure Collecting (P : Nat → Prop) (taken rest : List Nat) : Prop where
  sound : ∀ id ∈ taken, P id
  complete : ∀ id, P id → id ∈ taken ∨ id ∈ rest
  nodup : rest.Nodup
  apart : ∀ id ∈ rest, id ∉ taken

namespace Collecting

variable {P : Nat → Prop} {taken rest : List Nat}

theorem start (hnodup : rest.Nodup) (hall : ∀ id, P id → id ∈ rest) : Collecting P [] rest :=
  ⟨fun _ hid => absurd hid List.not_mem_nil, fun id hid => Or.inr (hall id hid), hnodup,
    fun _ _ => List.not_mem_nil⟩

theorem take (h : Collecting P taken (id :: rest)) (hid : P id) :
    Collecting P (taken ++ [id]) rest := by
  obtain ⟨hnot, hnodup⟩ := List.nodup_cons.mp h.nodup
  refine ⟨fun id' hid' => ?_, fun id' hid' => ?_, hnodup, fun id' hid' => ?_⟩
  · rcases List.mem_append.mp hid' with hid' | hid'
    · exact h.sound id' hid'
    · exact List.mem_singleton.mp hid' ▸ hid
  · rw [List.mem_append, List.mem_singleton]
    rcases h.complete id' hid' with hin | hin
    · exact Or.inl (Or.inl hin)
    · rcases List.mem_cons.mp hin with rfl | hin
      · exact Or.inl (Or.inr rfl)
      · exact Or.inr hin
  · rw [List.mem_append, not_or, List.mem_singleton]
    exact ⟨h.apart id' (List.mem_cons_of_mem _ hid'), fun hc => hnot (hc ▸ hid')⟩

theorem skip (h : Collecting P taken (id :: rest)) (hid : ¬P id) : Collecting P taken rest := by
  refine ⟨h.sound, fun id' hid' => ?_, (List.nodup_cons.mp h.nodup).2,
    fun id' hid' => h.apart id' (List.mem_cons_of_mem _ hid')⟩
  rcases h.complete id' hid' with hin | hin
  · exact Or.inl hin
  · rcases List.mem_cons.mp hin with rfl | hin
    · exact absurd hid' hid
    · exact Or.inr hin

theorem done (h : Collecting P taken []) (id : Nat) : id ∈ taken ↔ P id :=
  ⟨h.sound id, fun hid => (h.complete id hid).resolve_right List.not_mem_nil⟩

end Collecting

/-! ### What has been cancelled

A cancelled request may wait or run.  Whichever it is, it is closed as cancelled. -/

/-- The operation that closes a channel as cancelled. -/
def closeAsCancelled (id : Nat) : ChannelOp := .close id { terminal := .cancelled }

/-- A live request that somebody has cancelled. -/
def Marked (e : EngineLoop σ α) (id : Nat) : Prop :=
  ∃ entry, e.requests.lookup id = some entry ∧ entry.cancelRequested = true

/-- **`RetireCancelled`** closes what has been cancelled and nothing else. -/
theorem Settled.retireCancelled (h : e.Settled) (S : Services σ α) :
    (EngineLoop.retireCancelled S e).Returns fun e' => e'.Settled ∧ ∃ gone, gone.Nodup ∧
      (∀ id, id ∈ gone ↔ e.Marked id) ∧ Departed e gone (gone.map closeAsCancelled) e' := by
  have hkeys := S.order_perm e.requests.keys
  unfold EngineLoop.retireCancelled
  refine Returns.bind (Returns.foldlM (fun rest (er : EngineLoop σ α × List Nat) =>
    er.1.Retiring er.2 ∧ (∀ id ∈ rest, id ∈ er.1.requests) ∧
      Closing e er.2 (er.2.map closeAsCancelled) er.1 ∧ Collecting e.Marked er.2 rest) ?_
    (S.order e.requests.keys) (e, [])
    ⟨h.retiring, fun id hid => AList.mem_keys.mp (hkeys.mem_iff.mp hid), .refl e,
      .start (hkeys.nodup_iff.mpr e.requests.keys_nodup) fun id hid => ?_⟩) ?_
  · rintro id rest ⟨e₁, retired⟩ ⟨h₁, hrest, hclosing, hcoll⟩
    have hopen := hcoll.apart id List.mem_cons_self
    obtain ⟨entry, hl⟩ := IdMap.exists_of_mem (hrest id List.mem_cons_self)
    have hl₀ : e.requests.lookup id = some entry := by
      rw [← hclosing.lookup id hopen]
      exact hl
    have hothers : ∀ id' ∈ rest, id' ∈ e₁.requests := fun id' hid' =>
      hrest id' (List.mem_cons_of_mem _ hid')
    have hterm := h.not_terminal hl₀
    unfold cancelOne
    rw [entry_eq hl, ok_bind]
    by_cases hc : (entry.cancelRequested && !entry.seq.isTerminal) = true
    · rw [if_pos hc]
      rw [Bool.and_eq_true, Bool.not_eq_true'] at hc
      refine Returns.bind (h₁.closeCancelled hl hopen hterm) ?_
      rintro e₂ ⟨h₂, rfl⟩
      refine returns_pure ⟨h₂, fun id' hid' => (mem_setSeq hl).mpr (hothers id' hid'), ?_,
        hcoll.take ⟨entry, hl₀, hc.1⟩⟩
      rw [List.map_append]
      exact hclosing.close id entry _ _
    · rw [if_neg hc]
      refine returns_pure ⟨h₁, hothers, hclosing, hcoll.skip fun hmarked => hc ?_⟩
      obtain ⟨entry', hl', hmark⟩ := hmarked
      rw [hl₀] at hl'
      cases hl'
      rw [hmark, hterm]
      rfl
  · obtain ⟨entry, hl, _⟩ := hid
    exact hkeys.mem_iff.mpr (AList.mem_keys.mpr (IdMap.mem_of_lookup hl))
  · rintro ⟨e₁, retired⟩ ⟨h₁, _, hclosing, hcoll⟩
    refine h₁.retire.mono ?_
    rintro e₂ ⟨hs₂, hd⟩
    exact ⟨hs₂, retired, h₁.nodup, hcoll.done, hclosing.departed hd⟩

/-! ### What has ended

Only a running sequence can have ended, so the loop over those that run misses none. -/

/-- The operation that closes the channel of a sequence that has ended. -/
def closeEnded (e : EngineLoop σ α) (id : Nat) : List ChannelOp :=
  ((e.requests.lookup id).map fun entry => .close id entry.seq.finishInfo).toList

/-- A request whose sequence has ended. -/
def HasEnded (e : EngineLoop σ α) (id : Nat) : Prop :=
  ∃ entry, e.requests.lookup id = some entry ∧ entry.seq.isTerminal = true

/-- A sequence that has ended is still among those that run. -/
theorem Sound.running_of_terminal (hs : e.Sound [] []) (h : e.requests.lookup id = some entry)
    (hterm : entry.seq.isTerminal = true) : id ∈ e.running := by
  refine (List.mem_append.mp ((hs.live id).mpr (IdMap.mem_of_lookup h))).resolve_left fun hw => ?_
  unfold Sequence.isTerminal at hterm
  rcases (hs.parked id hw entry h).resolve_left List.not_mem_nil with hp | hp <;>
    simp [hp.1] at hterm

/-- What `RetireTerminal` has closed so far, with the ids that are still to be looked at. -/
structure Terminating (e : EngineLoop σ α) (rest : List Nat) (e₁ : EngineLoop σ α)
    (retired : List Nat) : Prop where
  sound : e₁.Sound [] retired
  nodup : retired.Nodup
  requests : e₁.requests = e.requests
  closing : Closing e retired (retired.flatMap e.closeEnded) e₁
  collecting : Collecting e.HasEnded retired rest
  running : ∀ id ∈ rest, id ∈ e.running

theorem Sound.terminating (hs : e.Sound [] []) : Terminating e e.running e [] := by
  refine ⟨hs, List.nodup_nil, rfl, .refl e, .start (List.nodup_append.mp hs.once).2.1 ?_,
    fun _ hid => hid⟩
  rintro id ⟨entry, hl, hterm⟩
  exact hs.running_of_terminal hl hterm

namespace Terminating

variable {e₁ : EngineLoop σ α} {rest : List Nat}

/-- One running sequence is closed if it has ended. -/
theorem step (hs : e.Sound [] []) (h : Terminating e (id :: rest) e₁ retired) :
    (closeTerminal (e₁, retired) id).Returns fun er => Terminating e rest er.1 er.2 := by
  have hopen := h.collecting.apart id List.mem_cons_self
  have hothers : ∀ id' ∈ rest, id' ∈ e.running := fun id' hid' =>
    h.running id' (List.mem_cons_of_mem _ hid')
  obtain ⟨entry, hl₀⟩ := hs.entry_of_running (h.running id List.mem_cons_self)
  have hl : e₁.requests.lookup id = some entry := by
    rw [h.requests]
    exact hl₀
  unfold closeTerminal
  rw [entry_eq hl, ok_bind]
  by_cases hterm : entry.seq.isTerminal = true
  · rw [if_pos hterm, Sequence.makeFinishInfo_eq hterm, ok_bind]
    refine returns_pure ⟨h.sound.close hl hopen _, ?_, h.requests, ?_,
      h.collecting.take ⟨entry, hl₀, hterm⟩, hothers⟩
    · refine List.nodup_append.mpr ⟨h.nodup, List.nodup_singleton _, ?_⟩
      rintro a ha b hb rfl
      exact hopen (List.mem_singleton.mp hb ▸ ha)
    · have hsame := h.closing.close id entry entry.seq entry.seq.finishInfo
      rw [List.flatMap_append,
        show [id].flatMap e.closeEnded = [.close id entry.seq.finishInfo] by
        simp [closeEnded, hl₀]]
      refine ⟨hsame.config, hsame.maxModelLen, hsame.shared, hsame.waiting, hsame.running,
        fun id' _ => ?_, hsame.outbox⟩
      show e₁.requests.lookup id' = _
      rw [h.requests]
  · rw [if_neg hterm]
    refine returns_pure ⟨h.sound, h.nodup, h.requests, h.closing, h.collecting.skip ?_, hothers⟩
    rintro ⟨entry', hl', hterm'⟩
    rw [hl₀] at hl'
    cases hl'
    exact hterm hterm'

/-- What has been closed waits to be erased, and the sequences left run. -/
theorem retiring (hs : e.Sound [] []) (h : Terminating e [] e₁ retired) : e₁.Retiring retired := by
  refine ⟨h.sound, h.nodup, fun id hid => ?_, fun id hid hnot entry hl => ?_⟩
  · obtain ⟨entry, hl, _⟩ := h.collecting.sound id hid
    rw [h.requests]
    exact IdMap.mem_of_lookup hl
  · have hid' : id ∈ e.running := h.closing.running ▸ hid
    have hl' : e.requests.lookup id = some entry := h.requests ▸ hl
    rcases hs.active id hid' entry hl' with hc | hc | hc
    · exact absurd hc List.not_mem_nil
    · refine absurd ((h.collecting.done id).mpr ⟨entry, hl', ?_⟩) hnot
      unfold Sequence.isTerminal
      rcases hc with hc | hc <;> simp [hc]
    · exact hc.1.1

theorem not_waiting (hs : e.Sound [] []) (h : Terminating e [] e₁ retired) :
    ∀ id ∈ retired, id ∉ e₁.waiting := by
  intro id hid hw
  obtain ⟨entry, hl, hterm⟩ := h.collecting.sound id hid
  have hw' : id ∈ e.waiting := h.closing.waiting ▸ hw
  exact List.disjoint_of_nodup_append hs.once hw' (hs.running_of_terminal hl hterm)

end Terminating

/-- Requests that only run are retired as any others. -/
theorem retireRunning_foldlM : ∀ {l : List Nat} {e : EngineLoop σ α}, (∀ id ∈ l, id ∉ e.waiting) →
    l.foldlM EngineLoop.retireRunning e = l.foldlM EngineLoop.retire e := by
  intro l
  induction l with
  | nil => exact fun _ => rfl
  | cons id rest ih =>
      intro e hw
      rw [List.foldlM_cons, List.foldlM_cons, retireRunning_eq (hw id List.mem_cons_self)]
      cases hr : e.retire id with
      | error err => rfl
      | ok e' =>
          rw [ok_bind, ok_bind]
          refine ih fun id' hid' hw' => hw id' (List.mem_cons_of_mem _ hid') ?_
          obtain ⟨pool, _, rfl⟩ := eraseRequest_ensures _ id e' hr
          exact List.mem_of_mem_filter hw'

/-- **`RetireTerminal`** closes and erases what has ended, and whatever is left runs. -/
theorem Sound.retireTerminal (hs : e.Sound [] []) :
    e.retireTerminal.Returns fun e' => e'.Settled ∧ ∃ gone, gone.Nodup ∧
      (∀ id, id ∈ gone ↔ e.HasEnded id) ∧ Departed e gone (gone.flatMap e.closeEnded) e' := by
  unfold EngineLoop.retireTerminal
  refine Returns.bind (Returns.foldlM (fun rest er => Terminating e rest er.1 er.2)
    (fun id rest er h => h.step hs) e.running (e, []) hs.terminating) ?_
  rintro ⟨e₁, retired⟩ h
  show Returns (retired.foldlM EngineLoop.retireRunning e₁) _
  rw [retireRunning_foldlM (h.not_waiting hs)]
  have hretiring := h.retiring hs
  refine hretiring.retire.mono ?_
  rintro e₂ ⟨hs₂, hd⟩
  exact ⟨hs₂, retired, hretiring.nodup, h.collecting.done, h.closing.departed hd⟩

end EngineLoop

end InferenceEngine
