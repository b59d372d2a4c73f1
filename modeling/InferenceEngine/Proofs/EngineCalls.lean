/-
Calls on the engine, and every run of it.

Between two calls the engine thread is settled, every request that is live or waits in the
queue has a prompt, and no operation has been made on the channel of an id that has not been
given out or has not been drained.  Each call keeps this and returns, so every reachable engine
is safe.
-/
import InferenceEngine.Proofs.EnginePlan
import InferenceEngine.Proofs.Progress

namespace InferenceEngine

open Except BlockPool EngineLoop

namespace EngineLoop

variable {σ α : Type} {e e' : EngineLoop σ α} {id : Nat} {entry : Entry}
  {fresh retired : List Nat} {S : Services σ α} {commands : List Command}

/-! ### Shutdown

The channels of the requests that were never drained are closed first, then those of the live
ones, and then every request is erased.  Nobody's channel is closed twice, because a request is
either queued or live. -/

/-- The channel of a request that is not live may be closed too. -/
theorem Sound.closeOther (hs : e.Sound fresh retired) (hid : id ∉ e.requests)
    (hopen : e.closed id = false) (info : FinishInfo) : (e.close id info).Sound fresh retired := by
  refine { hs with
    closed := fun id' hid' => ?_
    channels := hs.channels.snoc (not_closed_iff.mp hopen) }
  have hne : id' ≠ id := fun hc => hid (hc ▸ hid')
  rw [← hs.closed id' hid', closed_iff, closed_iff]
  simp [EngineLoop.close, hne]

/-- Another state of the pool's books in which the engine owns the same blocks. -/
theorem Sound.reshare {pool : BlockPool α} (hs : e.Sound fresh retired)
    (hstore : SameStore e.shared.pool pool)
    (he : Exclusive pool (e.owned + ↑e.shared.others)) :
    ({ e with shared := { e.shared with pool := pool } } : EngineLoop σ α).Sound fresh retired :=
  { hs with
    exclusive := he
    wf := fun id entry c hl hc => (hs.wf id entry c hl hc).of_shape hstore.shape }

theorem closed_close_iff {id' : Nat} {info : FinishInfo} :
    (e.close id info).closed id' = true ↔ e.closed id' = true ∨ id' = id := by
  rw [closed_iff, closed_iff]
  simp only [EngineLoop.close, List.mem_append, List.mem_singleton, ChannelOp.close.injEq]
  refine ⟨?_, ?_⟩
  · rintro ⟨i, hi | ⟨rfl, _⟩⟩
    · exact Or.inl ⟨i, hi⟩
    · exact Or.inr rfl
  · rintro (⟨i, hi⟩ | rfl)
    · exact ⟨i, Or.inl hi⟩
    · exact ⟨info, Or.inr ⟨rfl, rfl⟩⟩

/-- The submits that were never drained are closed. -/
theorem Settled.shutdownCommands (h : e.Settled) (hq : Queued commands e)
    (hnew : ∀ id ∈ submitted commands, e.closed id = false) :
    (commands.foldlM shutdownCommand e).Returns fun e' => e'.Settled ∧
      e'.requests = e.requests ∧ ∀ id ∈ submitted commands, e'.closed id = true := by
  refine (Returns.foldlM (fun rest e₁ => ((e₁.Settled ∧ Queued rest e₁) ∧
    ∀ id ∈ submitted rest, e₁.closed id = false) ∧ e₁.requests = e.requests ∧
      ∀ id ∈ submitted commands, id ∈ submitted rest ∨ e₁.closed id = true) ?_ commands e
    ⟨⟨⟨h, hq⟩, hnew⟩, rfl, fun _ hid => Or.inl hid⟩).mono fun e' h' => ⟨h'.1.1.1, h'.2.1,
      fun id hid => (h'.2.2 id hid).resolve_left List.not_mem_nil⟩
  rintro c rest e₁ ⟨⟨⟨h₁, hq₁⟩, hnew₁⟩, hreq₁, hdone₁⟩
  cases c with
  | cancel id =>
      have hsame : submitted (.cancel id :: rest) = submitted rest := rfl
      exact returns_pure ⟨⟨⟨h₁, hsame ▸ hq₁.distinct, hsame ▸ hq₁.positive, hsame ▸ hq₁.fresh,
        fun entry hin => hq₁.unstarted entry (List.mem_cons_of_mem _ hin)⟩, hsame ▸ hnew₁⟩,
        hreq₁, hsame ▸ hdone₁⟩
  | submit entry =>
      have hsub : submitted (.submit entry :: rest) = entry.request.id :: submitted rest := rfl
      have hseq := hq₁.unstarted entry List.mem_cons_self
      have hdistinct := hq₁.distinct
      rw [hsub, List.nodup_cons] at hdistinct
      rw [hsub] at hnew₁ hdone₁
      have hfresh := hq₁.fresh entry.request.id (by rw [hsub]; exact List.mem_cons_self)
      have hclose := h₁.sound.closeOther hfresh (hnew₁ _ List.mem_cons_self)
        { terminal := .cancelled }
      have hparked : entry.seq.Parked := Or.inl ⟨hseq.state, hseq.cache⟩
      have hclosed : ∀ id, (e₁.close entry.request.id { terminal := .cancelled }).closed id = true
          ↔ e₁.closed id = true ∨ id = entry.request.id := fun _ => closed_close_iff
      show Returns (entry.seq.transition .cancelled >>= fun _ => _) _
      rw [Sequence.transition_ok (by rw [hseq.state]; rfl), ok_bind]
      refine (releaseCache_returns (e := e₁.close entry.request.id { terminal := .cancelled })
        (s := entry.seq) (o := e₁.owned + ↑e₁.shared.others) ?_).mono ?_
      · rw [hparked.blocks, zero_add]
        exact h₁.sound.exclusive
      · rintro e₂ ⟨pool, rfl, hstore, _, he⟩
        refine ⟨⟨⟨⟨hclose.reshare hstore he, h₁.running⟩, hdistinct.2, fun id hid => ?_,
          fun id hid => ?_, fun entry' hin => hq₁.unstarted entry' (List.mem_cons_of_mem _ hin)⟩,
          fun id hid => ?_⟩, hreq₁, fun id hid => ?_⟩
        · exact hq₁.positive id (by rw [hsub]; exact List.mem_cons_of_mem _ hid)
        · exact hq₁.fresh id (by rw [hsub]; exact List.mem_cons_of_mem _ hid)
        · rw [← Bool.not_eq_true]
          refine fun hc => ?_
          rcases (hclosed id).mp hc with hc | rfl
          · rw [hnew₁ id (List.mem_cons_of_mem _ hid)] at hc
            cases hc
          · exact hdistinct.1 hid
        · rcases hdone₁ id hid with hin | hc
          · rcases List.mem_cons.mp hin with rfl | hin
            · exact Or.inr ((hclosed _).mpr (Or.inr rfl))
            · exact Or.inl hin
          · exact Or.inr ((hclosed id).mpr (Or.inl hc))

/-- The live requests are closed. -/
theorem Settled.shutdownRequests (h : e.Settled) (S : Services σ α) :
    ((S.order e.requests.keys).foldlM shutdownRequest e).Returns fun e' =>
      (∃ retired, e'.Sound [] retired) ∧ Framed e e' ∧ ∀ id ∈ e.requests, e'.closed id = true := by
  have hkeys := S.order_perm e.requests.keys
  refine (Returns.foldlM (fun rest e₁ => ∃ retired, (e₁.Retiring retired ∧ Retained e e₁) ∧
    rest.Nodup ∧ (∀ id ∈ rest, id ∈ e₁.requests ∧ id ∉ retired) ∧
      ∀ id ∈ e.requests, id ∈ rest ∨ id ∈ retired) ?_ (S.order e.requests.keys) e
    ⟨[], ⟨h.retiring, .refl e⟩, hkeys.nodup_iff.mpr e.requests.keys_nodup, fun id hid =>
      ⟨AList.mem_keys.mp (hkeys.mem_iff.mp hid), List.not_mem_nil⟩,
      fun id hid => Or.inl (hkeys.mem_iff.mpr (AList.mem_keys.mpr hid))⟩).mono ?_
  · rintro id rest e₁ ⟨retired, ⟨h₁, hret⟩, hnd, hrest, hdone⟩
    obtain ⟨hid, hnd'⟩ := List.nodup_cons.mp hnd
    obtain ⟨hlive, hopen⟩ := hrest id List.mem_cons_self
    obtain ⟨entry, hl⟩ := IdMap.exists_of_mem hlive
    have hterm := h₁.not_terminal hl hopen
    unfold EngineLoop.shutdownRequest
    rw [entry_eq hl, ok_bind, hterm, if_neg Bool.false_ne_true]
    obtain ⟨e₂, hclose, h₂, he₂⟩ := h₁.closeCancelled hl hopen hterm
    refine ⟨e₂, hclose, _, ⟨h₂, hret.trans (closeCancelled_retained e₁ id e₂ hclose)⟩, hnd',
      fun id' hid' => ?_, fun id' hid' => ?_⟩
    · obtain ⟨hlive', hopen'⟩ := hrest id' (List.mem_cons_of_mem _ hid')
      refine ⟨?_, ?_⟩
      · rw [he₂]
        exact (mem_setSeq hl).mpr hlive'
      · rw [List.mem_append, not_or, List.mem_singleton]
        exact ⟨hopen', fun hc => hid (hc ▸ hid')⟩
    · rcases hdone id' hid' with hin | hin
      · rcases List.mem_cons.mp hin with rfl | hin
        · exact Or.inr (by simp)
        · exact Or.inl hin
      · exact Or.inr (List.mem_append_left _ hin)
  · rintro e' ⟨retired, ⟨h', hret⟩, _, _, hdone⟩
    refine ⟨⟨retired, h'.sound⟩, hret.toFramed, fun id hid => ?_⟩
    exact (h'.sound.closed id (hret.mem id hid)).mpr ((hdone id hid).resolve_left List.not_mem_nil)

/-- A request is erased with its blocks, whatever is listed. -/
theorem eraseRequest_returns (he : Exclusive e.shared.pool (e.owned + ↑e.shared.others))
    (id : Nat) :
    (e.eraseRequest id).Returns fun e' => ∃ pool,
      e' = { e with
        shared := { e.shared with pool := pool }
        requests := e.requests.erase id } ∧
      Exclusive pool (e'.owned + ↑e.shared.others) := by
  unfold EngineLoop.eraseRequest
  cases hl : e.requests.lookup id with
  | none =>
      have hid : id ∉ e.requests := by
        rw [← AList.lookup_eq_none]
        exact hl
      have herase : e.requests.erase id = e.requests :=
        AList.ext (List.kerase_of_notMem_keys hid)
      exact returns_pure ⟨e.shared.pool, by rw [herase], he⟩
  | some entry =>
      rw [owned, IdMap.total_erase hl, add_assoc] at he
      refine Returns.bind (releaseCache_returns he) ?_
      rintro e₁ ⟨pool, rfl, _, _, he'⟩
      exact returns_pure ⟨pool, rfl, he'⟩

/-- **A shutdown** returns to an engine with no requests, and every channel is closed. -/
theorem Settled.shutdown (h : e.Settled) (S : Services σ α) (hq : Queued commands e)
    (hnew : ∀ id ∈ submitted commands, e.closed id = false) :
    (shutdown S commands e).Returns fun e' => e'.Settled ∧
      ∀ id, id ∈ e.requests ∨ id ∈ submitted commands → e'.closed id = true := by
  unfold EngineLoop.shutdown
  refine Returns.bind (h.shutdownCommands hq hnew) ?_
  rintro e₁ ⟨h₁, hreq₁, hclosed₁⟩
  refine Returns.bind (h₁.shutdownRequests S) ?_
  rintro e₂ ⟨⟨retired, hs₂⟩, hframe, hclosed₂⟩
  have hkeys := S.order_perm e₂.requests.keys
  refine Returns.bind (Returns.foldlM (fun rest e₃ =>
    (∀ id ∈ e₃.requests, id ∈ rest) ∧ e₃.config = e₂.config ∧ e₃.outbox = e₂.outbox ∧
      Exclusive e₃.shared.pool (e₃.owned + ↑e₃.shared.others)) ?_ (S.order e₂.requests.keys) e₂
    ⟨fun id hid => hkeys.mem_iff.mpr (AList.mem_keys.mpr hid), rfl, rfl, hs₂.exclusive⟩) ?_
  · rintro id rest e₃ ⟨hmem, hconfig, hout, he⟩
    refine (eraseRequest_returns he id).mono ?_
    rintro e₄ ⟨pool, rfl, he'⟩
    refine ⟨fun id' hid' => ?_, hconfig, hout, he'⟩
    obtain ⟨hne, hid'⟩ := AList.mem_erase.mp hid'
    exact (List.mem_cons.mp (hmem id' hid')).resolve_left hne
  · rintro e₃ ⟨hmem, hconfig, hout, he⟩
    have hnone : ∀ id, id ∉ e₃.requests := fun id hid => List.not_mem_nil (hmem id hid)
    refine returns_pure ⟨⟨⟨he, fun id entry c hl _ => absurd (IdMap.mem_of_lookup hl) (hnone id),
      ?_, ?_, List.nodup_nil, fun id => iff_of_false List.not_mem_nil (hnone id),
      fun id hid => absurd hid (hnone id), fun id hid => absurd hid List.not_mem_nil,
      fun id hid => absurd hid List.not_mem_nil, fun id hid => absurd hid (hnone id), ?_⟩,
      fun id hid => absurd hid List.not_mem_nil⟩, fun id hid => ?_⟩
    · show 0 < e₃.config.maxNumSeqs
      rw [hconfig]
      exact hs₂.maxNumSeqs
    · show 0 < e₃.config.maxNumBatchedTokens
      rw [hconfig]
      exact hs₂.maxNumBatchedTokens
    · show ClosedOnce e₃.outbox
      rw [hout]
      exact hs₂.channels
    · have hsame : ∀ id, e₂.closed id = true → ({ e₃ with waiting := [], running := [] } :
          EngineLoop σ α).closed id = true := by
        intro id hc
        rw [closed_iff] at hc ⊢
        show ∃ info, _ ∈ e₃.outbox
        rw [hout]
        exact hc
      rcases hid with hid | hid
      · exact hsame id (hclosed₂ id (hreq₁ ▸ hid))
      · exact hsame id (hframe.closed (hclosed₁ id hid))

/-- A shutdown uses the channels of live requests and of those that were never drained. -/
theorem shutdown_posts (S : Services σ α) (commands : List Command) (e : EngineLoop σ α) :
    (shutdown S commands e).Ensures fun e' => ∃ ops, e'.outbox = e.outbox ++ ops ∧
      ∀ op ∈ ops, op.id ∈ e.requests ∨ op.id ∈ submitted commands := by
  let Posts (e₁ : EngineLoop σ α) : Prop := (∀ id, id ∈ e₁.requests → id ∈ e.requests) ∧
    ∃ ops, e₁.outbox = e.outbox ++ ops ∧
      ∀ op ∈ ops, op.id ∈ e.requests ∨ op.id ∈ submitted commands
  have hframed : ∀ {e₁ e₂ : EngineLoop σ α}, Posts e₁ → Framed e₁ e₂ → Posts e₂ := by
    rintro e₁ e₂ ⟨hmem, ops, hout, hops⟩ hc
    obtain ⟨more, hmore, hlive⟩ := hc.posts
    refine ⟨fun id hid => hmem id (hc.subset id hid), ops ++ more, ?_, fun op hop => ?_⟩
    · rw [hmore, hout, List.append_assoc]
    · rcases List.mem_append.mp hop with hop | hop
      · exact hops op hop
      · exact Or.inl (hmem _ (hlive op hop))
  unfold EngineLoop.shutdown
  refine Ensures.bind (P := Posts) ?_ fun e₁ h₁ => ?_
  · refine (Ensures.foldlM (fun rest e₁ => Posts e₁ ∧ ∀ id ∈ submitted rest,
      id ∈ submitted commands) ?_ commands e
      ⟨⟨fun _ h => h, [], (List.append_nil _).symm, fun _ h => absurd h List.not_mem_nil⟩,
        fun _ h => h⟩).mono fun _ h => h.1
    rintro c rest e₁ ⟨h₁, hrest⟩
    cases c with
    | cancel id => exact ensures_pure ⟨h₁, hrest⟩
    | submit entry =>
        have hsub : submitted (.submit entry :: rest) = entry.request.id :: submitted rest := rfl
        rw [hsub] at hrest
        refine Ensures.bind (ensures_self _) fun _ _ => ?_
        refine (releaseCache_ensures _ _).mono ?_
        rintro e₂ ⟨pool, _, rfl⟩
        obtain ⟨hmem, ops, hout, hops⟩ := h₁
        refine ⟨⟨hmem, ops ++ [.close entry.request.id { terminal := .cancelled }], ?_,
          fun op hop => ?_⟩, fun id hid => hrest id (List.mem_cons_of_mem _ hid)⟩
        · show e₁.outbox ++ _ = _
          rw [hout, List.append_assoc]
        · rcases List.mem_append.mp hop with hop | hop
          · exact hops op hop
          · rw [List.mem_singleton.mp hop]
            exact Or.inr (hrest _ List.mem_cons_self)
  · refine Ensures.bind (P := Posts) ?_ fun e₂ h₂ => ?_
    · refine Ensures.foldlM_invariant (I := Posts) (fun e₂ id h₂ => ?_) _ h₁
      unfold EngineLoop.shutdownRequest
      refine Ensures.bind (entry_ensures e₂ id) fun entry _ => ?_
      by_cases hterm : entry.seq.isTerminal = true
      · rw [if_pos hterm]
        exact ensures_pure h₂
      · rw [if_neg hterm]
        exact (closeCancelled_retained e₂ id).mono fun _ h => hframed h₂ h.toFramed
    · refine Ensures.bind (Ensures.foldlM_invariant (I := Posts) (fun e₃ id h₃ =>
        (eraseRequest_framed e₃ id).mono fun _ h => hframed h₃ h) _ h₂) fun e₃ h₃ => ?_
      exact ensures_pure h₃.2

end EngineLoop

/-- A pool that has just been created belongs to nobody. -/
theorem BlockPool.Created.exclusive {α : Type} [Zero α] {geom : CacheGeometry}
    {blockSize numBlocks : Int} {pool : BlockPool α} (h : Created geom blockSize numBlocks pool)
    (hids : numBlocks ≤ 2 ^ 31) : Exclusive pool 0 := by
  rw [h.pool_eq]
  refine ⟨new_owned geom blockSize.toNat numBlocks.toNat (by omega), Multiset.nodup_zero, ?_,
    h.layers_pos, h.heads_pos, h.dim_pos⟩
  have := h.blockSize_pos
  show 0 < blockSize.toNat
  omega

/-! ### Calls

`AtRest` is what holds between two calls.  A submit adds to the queue, a cancel too, a step
settles everything, and what others do with the pool keeps the books. -/

namespace Engine

variable {σ α : Type} {S : Services σ α} {e e' : Engine σ α}

/-- An engine between two calls. -/
structure AtRest (S : Services σ α) (e : Engine σ α) : Prop extends e.Booked S where
  settled : e.loop.Settled
  prompted : e.loop.Prompted
  asked : ∀ entry, .submit entry ∈ e.queue.commands → entry.request.promptIds ≠ []
  posted : ∀ op ∈ e.loop.outbox, op.id < e.queue.nextId ∧ op.id ∉ submitted e.queue.commands

theorem AtRest.open_of_submitted (h : e.AtRest S) :
    ∀ id ∈ submitted e.queue.commands, e.loop.closed id = false := by
  intro id hid
  rw [not_closed_iff]
  intro info hin
  exact (h.posted _ hin).2 hid

theorem AtRest.drained (h : e.AtRest S) :
    (e.loop.drainCommands e.queue.commands).Prompted := by
  intro id entry' hl'
  rcases drainCommands_request _ _ id entry' hl' with ⟨entry, hl, hr⟩ | ⟨entry, hin, _, hr⟩
  · rw [hr]
    exact h.prompted id entry hl
  · rw [hr]
    exact h.asked entry hin

theorem validateSubmit_prompt (e : EngineLoop σ α) (request : Request) (drawnSeed : Nat) :
    (validateSubmit e request drawnSeed).Ensures fun _ => request.promptIds ≠ [] := by
  unfold validateSubmit
  by_cases hempty : request.promptIds.isEmpty = true
  · rw [if_pos hempty]
    exact ensures_error _
  · rw [if_neg hempty]
    refine fun _ _ hc => hempty ?_
    rw [hc]
    rfl

theorem AtRest.submit (h : e.AtRest S) (request : Request) (drawnSeed : Nat) :
    (e.submit request drawnSeed).2.AtRest S := by
  have hb := h.toBooked.submit request drawnSeed
  revert hb
  unfold Engine.submit
  cases hseq : validateSubmit e.loop request drawnSeed with
  | error status => exact fun _ => h
  | ok seq =>
      simp only
      by_cases hstop : e.queue.stopRequested = true
      · rw [if_pos hstop]
        exact fun _ => h
      · rw [if_neg hstop]
        refine fun hb => ⟨hb, h.settled, h.prompted, fun entry hin => ?_, fun op hop => ?_⟩
        · rcases List.mem_append.mp hin with hin | hin
          · exact h.asked entry hin
          · cases List.mem_singleton.mp hin
            exact validateSubmit_prompt e.loop request drawnSeed seq hseq
        · obtain ⟨hlt, hnot⟩ := h.posted op hop
          refine ⟨Nat.lt_succ_of_lt hlt, fun hc => ?_⟩
          simp only [submitted, List.filterMap_append, List.mem_append] at hc
          rcases hc with hc | hc
          · exact hnot hc
          · simp only [List.filterMap_cons, List.filterMap_nil, List.mem_singleton] at hc
            omega

theorem AtRest.cancel (h : e.AtRest S) (id : Nat) : (e.cancel id).AtRest S := by
  have hsame : submitted (e.queue.commands ++ [.cancel id]) = submitted e.queue.commands := by
    simp [submitted]
  refine ⟨h.toBooked.cancel id, h.settled, h.prompted, fun entry hin => ?_, fun op hop => ?_⟩
  · refine h.asked entry ((List.mem_append.mp hin).resolve_right fun hc => ?_)
    cases List.mem_singleton.mp hc
  · obtain ⟨hlt, hnot⟩ := h.posted op hop
    refine ⟨hlt, ?_⟩
    show op.id ∉ submitted (e.queue.commands ++ [.cancel id])
    rw [hsame]
    exact hnot

variable [Zero α]

theorem AtRest.create {geom : CacheGeometry} {blockSize numBlocks : Int} {state : σ}
    {pool : BlockPool α} {config : EngineConfig}
    (hpool : BlockPool.create geom blockSize numBlocks = .ok pool) (hids : numBlocks ≤ 2 ^ 31)
    (h : Engine.create S state pool config = .ok e) : e.AtRest S := by
  obtain ⟨_, hshared, hreq, hw, hr, hcmd, _⟩ := create_ensures S state pool config e h
  have hnone : ∀ id, id ∉ e.loop.requests := by
    intro id
    rw [hreq]
    exact AList.notMem_empty id
  have hconfig : 0 < e.loop.config.maxNumSeqs ∧ 0 < e.loop.config.maxNumBatchedTokens ∧
      e.loop.outbox = [] := by
    unfold Engine.create at h
    simp only [bind, Except.bind] at h
    split at h
    · cases h
    · rename_i hseqs
      split at h
      · cases h
      · rename_i htokens
        split at h
        · cases h
        · split at h
          · cases h
          · split at h
            · cases h
            · cases h
              exact ⟨not_le.mp hseqs, not_le.mp htokens, rfl⟩
  have howned : e.loop.owned = 0 := by
    unfold EngineLoop.owned
    rw [hreq]
    rfl
  refine ⟨Booked.create h, ⟨⟨?_, ?_, hconfig.1, hconfig.2.1, ?_, ?_, ?_, ?_, ?_, ?_, ?_⟩, ?_⟩,
    ?_, ?_, ?_⟩
  · rw [howned, hshared]
    exact (BlockPool.create_ok hpool).exclusive hids
  · exact fun id entry c hl _ => absurd (IdMap.mem_of_lookup hl) (hnone id)
  · rw [hw, hr]
    exact List.nodup_nil
  · intro id
    rw [hw, hr]
    exact iff_of_false List.not_mem_nil (hnone id)
  · exact fun id hid => absurd hid (hnone id)
  · intro id hid
    rw [hw] at hid
    exact absurd hid List.not_mem_nil
  · intro id hid
    rw [hr] at hid
    exact absurd hid List.not_mem_nil
  · exact fun id hid => absurd hid (hnone id)
  · rw [hconfig.2.2]
    exact closedOnce_nil
  · intro id hid
    rw [hr] at hid
    exact absurd hid List.not_mem_nil
  · exact fun id entry hl => absurd (IdMap.mem_of_lookup hl) (hnone id)
  · intro entry hin
    rw [hcmd] at hin
    exact absurd hin List.not_mem_nil
  · intro op hop
    rw [hconfig.2.2] at hop
    exact absurd hop List.not_mem_nil

/-- The step of a settled engine, with what it leaves of the requests and the channels. -/
theorem AtRest.step (hS : S.model.Shaped) (h : e.AtRest S) :
    (EngineLoop.step S e.queue.commands e.loop).Returns fun r =>
      Engine.AtRest S ⟨{ e.queue with commands := [] }, r.2⟩ := by
  obtain ⟨r, hr, hsettled⟩ := h.settled.step hS h.queued h.open_of_submitted h.drained
  have hc := step_framed S e.queue.commands e.loop r hr
  refine ⟨r, hr, h.toBooked.step r hr, hsettled, h.drained.framed hc,
    fun entry hin => absurd hin List.not_mem_nil, fun op hop => ⟨?_, List.not_mem_nil⟩⟩
  obtain ⟨ops, hout, hlive⟩ := hc.posts
  rw [drainCommands_outbox] at hout
  rw [show r.2.outbox = e.loop.outbox ++ ops from hout] at hop
  rcases List.mem_append.mp hop with hop | hop
  · exact (h.posted op hop).1
  · exact h.below op.id (mem_drainCommands _ _ _ (hlive op hop))

/-- **Every call returns**, and to an engine at rest. -/
theorem AtRest.run (hS : S.model.Shaped) (h : e.AtRest S) (call : EngineCall) :
    (e.run S call).Returns (Engine.AtRest S) := by
  cases call with
  | submit request drawnSeed => exact returns_pure (h.submit request drawnSeed)
  | cancel id => exact returns_pure (h.cancel id)
  | step =>
      refine Returns.bind (Returns.bind (h.step hS) (Q := fun r => Engine.AtRest S r.2) ?_) ?_
      · rintro ⟨more, loop⟩ hloop
        exact returns_pure hloop
      · rintro ⟨more, e'⟩ he'
        exact returns_pure he'
  | stop =>
      obtain ⟨loop, hloop, hsettled, _⟩ := h.settled.shutdown S h.queued h.open_of_submitted
      have hrun : e.run S .stop
          = .ok { queue := { e.queue with commands := [], stopRequested := true }
                  loop := loop } := by
        show Engine.stop S e = _
        unfold Engine.stop
        rw [hloop]
        rfl
      refine ⟨_, hrun, h.toBooked.run .stop _ hrun, hsettled, fun id entry hl => ?_,
        fun entry hin => absurd hin List.not_mem_nil, fun op hop => ⟨?_, List.not_mem_nil⟩⟩
      · have hempty := (shutdown_empty S _ _ loop hloop).1 id
        exact absurd (IdMap.mem_of_lookup hl) hempty
      · obtain ⟨ops, hout, hlive⟩ := shutdown_posts S _ _ loop hloop
        rw [show loop.outbox = _ from hout] at hop
        rcases List.mem_append.mp hop with hop | hop
        · exact (h.posted op hop).1
        · exact h.below op.id (hlive op hop)
  | use u =>
      obtain ⟨shared, hshared, hstore, hs⟩ := h.settled.sound.use u
      have hrun : e.run S (.use u)
          = .ok { e with loop := { e.loop with shared := shared } } := by
        show (e.loop.shared.use u >>= _) = _
        rw [hshared]
        rfl
      exact ⟨_, hrun, h.toBooked.run (.use u) _ hrun, ⟨hs, h.settled.running⟩, h.prompted, h.asked,
        h.posted⟩

/-- What a pass of a step is built of, when the engine is at rest. -/
theorem AtRest.passesBuilt (hS : S.model.Shaped) (h : e.AtRest S) :
    e.loop.PassesBuilt S e.queue.commands := by
  have hretired := ((h.settled.drain h.queued h.open_of_submitted).retireCancelled S).mono
    fun _ hd => hd.1
  refine ⟨fun e₁ out e₂ h₁ h₂ id hid => ?_, fun e₁ out e₂ e₃ pass h₁ h₂ h₃ h₄ id hid => ?_⟩
  · have hp₁ := h.drained.framed (retireCancelled_framed S _ e₁ h₁)
    have hprep := (hretired.of_eq h₁).beforePasses.of_eq h₂
    obtain ⟨entry, hl, hready, _, hgen⟩ := hprep.prefillMember
      (hp₁.framed (beforePasses_retained e₁ _ h₂).toFramed) hid
    exact ⟨entry, entry.seq.held, hl, hready.1, hready.cache_eq, fun hc => by simp at hc⟩
  · have hs₁ := hretired.of_eq h₁
    have hp₁ := h.drained.framed (retireCancelled_framed S _ e₁ h₁)
    have hprep := hs₁.beforePasses.of_eq h₂
    obtain ⟨ms, hms, hb⟩ := exists_batch true (hprep.plan.prefill_nodup hs₁)
      fun id hid => hprep.prefillMember
        (hp₁.framed (beforePasses_retained e₁ _ h₂).toFramed) hid
    have hs₂ : e₂.Sound (owing true (ms.map (·.1))) [] := by
      rw [hms]
      exact hprep.sound
    have hpass := hs₂.runBatchPass hS hb
    rw [hms] at hpass
    have hs₃ := hpass.of_eq h₃
    have hlive₃ : ∀ id ∈ out.decode, id ∈ e₃.requests := fun id hid =>
      (runBatchPass_retained S true _ e₂ e₃ h₃).mem id
        ((hprep.sound.live id).mp (List.mem_append_right _ (hprep.decode hs₁.sound id hid)))
    obtain ⟨_, hrunning⟩ := (decodeMembers_returns hlive₃).of_eq h₄
    obtain ⟨entry, hl, hrun⟩ := hrunning id hid
    obtain ⟨hready, _, hgen⟩ := hs₃.decodeMember hl hrun
    exact ⟨entry, entry.seq.held, hl, hrun, hready.cache_eq, fun _ => hgen⟩

/-! ### Runs

Every reachable engine is at rest, so the next call returns.  What is said of the passes is said
of any step from there. -/

variable {geom : CacheGeometry} {blockSize numBlocks : Int} {state : σ} {pool : BlockPool α}
  {config : EngineConfig}

theorem reachable_atRest (hS : S.model.Shaped)
    (hpool : BlockPool.create geom blockSize numBlocks = .ok pool) (hids : numBlocks ≤ 2 ^ 31)
    (h : (engineSystem S state pool config).Reachable e) : e.AtRest S := by
  refine h.invariant (fun _ => AtRest.create hpool hids) fun e₁ call e₂ _ h₁ hstep => ?_
  exact (h₁.run hS call).of_eq hstep

theorem AtRest.safe (hS : S.model.Shaped) (h : e.AtRest S) : e.Safe S := by
  refine ⟨fun call => ?_, h.settled.sound.channels, h.settled.placed, h.passesBuilt hS⟩
  obtain ⟨e', hrun, _⟩ := h.run hS call
  exact ⟨e', hrun⟩

/-- Any list of calls is carried out. -/
theorem AtRest.runs (hS : S.model.Shaped) (h : e.AtRest S) (calls : List EngineCall) :
    ∃ e', calls.foldlM (Engine.run S) e = .ok e' ∧ e'.AtRest S := by
  induction calls generalizing e with
  | nil => exact ⟨e, rfl, h⟩
  | cons call rest ih =>
      obtain ⟨e₁, hrun, hrest⟩ := h.run hS call
      obtain ⟨e', hruns, hlast⟩ := ih hrest
      refine ⟨e', ?_, hlast⟩
      rw [List.foldlM_cons, hrun]
      exact hruns

/-- **No run of the engine faults.**  However submits, cancels, steps, stops and other users of
the pool interleave, and whatever a model answers that answers with one row for each sequence,
the next call returns; nothing is done to a channel after it has been closed; every live request
is in one list, once; and every pass is built of running sequences with caches. -/
theorem reachable_safe (hS : S.model.Shaped)
    (hpool : BlockPool.create geom blockSize numBlocks = .ok pool) (hids : numBlocks ≤ 2 ^ 31)
    (h : (engineSystem S state pool config).Reachable e) : e.Safe S :=
  (reachable_atRest hS hpool hids h).safe hS

/-- **Any list of calls on a new engine is carried out to its end**, and leaves the engine safe:
every transition on the way was an edge, every key that was looked up was there, and nothing was
pushed to a closed channel. -/
theorem run_safe (hS : S.model.Shaped)
    (hpool : BlockPool.create geom blockSize numBlocks = .ok pool) (hids : numBlocks ≤ 2 ^ 31)
    (hcreate : Engine.create S state pool config = .ok e) (calls : List EngineCall) :
    ∃ e', calls.foldlM (Engine.run S) e = .ok e' ∧ e'.Safe S := by
  obtain ⟨e', hrun, hrest⟩ := (AtRest.create hpool hids hcreate).runs hS calls
  exact ⟨e', hrun, hrest.safe hS⟩

end Engine

/-! ### One run

Two sequences over a pool that cannot hold both to the end.  The model refuses a batched
forward, the older one is served alone, and the younger one is evicted for it. -/

theorem zeroModel_shaped (drains : Bool) : (zeroModel drains).Shaped := by
  refine ⟨Int.one_pos, fun state request pool logits h => ?_⟩
  cases h
  rfl

/-- A new engine over `zeroPool`, after some calls. -/
def zeroRun (drains : Bool) (calls : List EngineCall) : Checked (Engine Unit Int) :=
  match Engine.create (zeroServices drains) () zeroPool zeroConfig with
  | .error status => .error (.checkFailed status.message)
  | .ok e => calls.foldlM (Engine.run (zeroServices drains)) e

theorem zeroRun_reached (drains : Bool) (calls : List EngineCall) :
    (zeroRun drains calls).Ensures
      (engineSystem (zeroServices drains) () zeroPool zeroConfig).Reachable := by
  unfold zeroRun
  cases he : Engine.create (zeroServices drains) () zeroPool zeroConfig with
  | error status => exact ensures_error _
  | ok e => exact fun e' he' => Engine.reachable_of_foldlM (.init he) he'

/-- An engine that has evicted a sequence for another one, in the middle of a recovery. -/
theorem reachable_safe_evicted : ∃ e,
    (engineSystem (zeroServices true) () zeroPool zeroConfig).Reachable e ∧
      e.loop.preemptionCount = 1 ∧ e.Safe (zeroServices true) := by
  obtain ⟨e, hrun, htest⟩ := exists_of_test (zeroRun true
    [.submit (zeroRequest 8) 0, .submit (zeroRequest 1) 0, .step, .step])
    (fun e => e.loop.preemptionCount = 1) (by decide +kernel)
  have hreach := zeroRun_reached true _ e hrun
  have hpool : BlockPool.create ⟨1, 1, 1, .float32⟩ 8 3 = .ok zeroPool := rfl
  exact ⟨e, hreach, of_decide_eq_true htest,
    Engine.reachable_safe (zeroModel_shaped true) hpool (by decide) hreach⟩

/-- A run of `zeroRun` begins with a new engine. -/
theorem zeroRun_created {drains : Bool} {calls : List EngineCall} {e' : Engine Unit Int}
    (h : zeroRun drains calls = .ok e') : ∃ e,
      Engine.create (zeroServices drains) () zeroPool zeroConfig = .ok e ∧
        calls.foldlM (Engine.run (zeroServices drains)) e = .ok e' := by
  unfold zeroRun at h
  cases he : Engine.create (zeroServices drains) () zeroPool zeroConfig with
  | error status =>
      rw [he] at h
      cases h
  | ok e =>
      rw [he] at h
      exact ⟨e, rfl, h⟩

/-- The calls of the same run, and a cancel and a stop behind them. -/
theorem run_safe_evicted : ∃ e e',
    Engine.create (zeroServices true) () zeroPool zeroConfig = .ok e ∧
      [.submit (zeroRequest 8) 0, .submit (zeroRequest 1) 0, .step, .step, .cancel 1, .step,
        .stop].foldlM (Engine.run (zeroServices true)) e = .ok e' ∧
      e'.loop.preemptionCount = 1 ∧ e'.Safe (zeroServices true) := by
  obtain ⟨e', hrun, htest⟩ := exists_of_test (zeroRun true
    [.submit (zeroRequest 8) 0, .submit (zeroRequest 1) 0, .step, .step, .cancel 1, .step, .stop])
    (fun e => e.loop.preemptionCount = 1) (by decide +kernel)
  obtain ⟨e, hcreate, hcalls⟩ := zeroRun_created hrun
  have hpool : BlockPool.create ⟨1, 1, 1, .float32⟩ 8 3 = .ok zeroPool := rfl
  obtain ⟨e₁, hrun₁, hsafe⟩ :=
    Engine.run_safe (zeroModel_shaped true) hpool (by decide) hcreate _
  obtain rfl : e₁ = e' := Except.ok.inj (hrun₁.symm.trans hcalls)
  exact ⟨e, e₁, hcreate, hcalls, of_decide_eq_true htest, hsafe⟩

end InferenceEngine
