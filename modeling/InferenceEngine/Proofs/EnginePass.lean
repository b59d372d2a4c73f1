/-
A pass that is built of running sequences runs to its end.

Whatever the model answers, the pass is assembled, every row is delivered or, when the batched
forward fails, every member is served alone, and no check trips on the way.  A member that
has just been admitted owes a token; `owing` lists the members that have not had their turn.
-/
import InferenceEngine.Proofs.Committed
import InferenceEngine.Proofs.EngineFrame
import InferenceEngine.Proofs.EngineRecover

namespace InferenceEngine

open Except BlockPool

/-! ### What a pass is built of

Each member hands over the tokens it feeds and its cache.  The assembler checks what the
invariant already guarantees. -/

namespace Entry

/-- What a member hands to the assembler. -/
def staged (entry : Entry) (prefill : Bool) : BatchSeqInput :=
  ⟨entry.passTokens prefill, some entry.seq.held, some entry.seq.sampler,
    ⟨entry.request.promptIds, entry.seq.generatedIds⟩⟩

/-- A member's part of a batched forward. -/
def part (entry : Entry) (prefill : Bool) : ForwardSeq :=
  ⟨entry.passTokens prefill,
    positionsFrom entry.seq.held.length (entry.passTokens prefill).length, entry.seq.held⟩

end Entry

theorem flattenOne_staged {entry : Entry} {prefill : Bool} (h : entry.passTokens prefill ≠ [])
    (b : Nat) : BatchAssembler.flattenOne (!prefill) b (entry.staged prefill)
      = .ok (entry.part prefill) := by
  have hpos := List.length_pos_of_ne_nil h
  unfold BatchAssembler.flattenOne Entry.staged
  simp only [Option.isNone_some, Bool.false_eq_true, if_false]
  rw [if_neg (by omega), if_neg]
  · rfl
  · cases prefill with
    | true => simp
    | false => simp [Entry.passTokens_false h]

theorem flatten_staged {ms : List (Nat × Entry)} {prefill : Bool}
    (h : ∀ m ∈ ms, m.2.passTokens prefill ≠ []) :
    BatchAssembler.flatten (!prefill) (ms.map (·.2.staged prefill))
      = .ok ⟨ms.map (·.2.part prefill), ms.map fun m =>
          ⟨some m.2.seq.sampler, m.2.request.promptIds, m.2.seq.generatedIds⟩⟩ := by
  unfold BatchAssembler.flatten
  rw [List.mapIdx_eq_zipIdx_map, List.mapM_map, List.zipIdx_map, List.mapM_map]
  rw [mapM_ok (g := fun mb : (Nat × Entry) × Nat => mb.1.2.part prefill)]
  · have hparts : ms.zipIdx.map (fun mb => mb.1.2.part prefill)
        = ms.map (·.2.part prefill) := by
      rw [show (fun mb : (Nat × Entry) × Nat => mb.1.2.part prefill)
        = (fun m : Nat × Entry => m.2.part prefill) ∘ Prod.fst from rfl, ← List.map_map,
        List.zipIdx_map_fst]
    rw [hparts, ok_bind, List.map_map]
    rfl
  · intro mb hmb
    exact flattenOne_staged (h mb.1 (List.fst_mem_of_mem_zipIdx hmb)) mb.2

namespace EngineLoop

variable {σ α : Type} {e e' : EngineLoop σ α} {id : Nat} {entry : Entry}
  {fresh : List Nat} {S : Services σ α} {prefill : Bool} {ms : List (Nat × Entry)}

theorem Batch.inputs (hb : Batch prefill e ms) :
    (ms.map (·.1)).mapM (e.buildPassInput prefill) = .ok (ms.map (·.2.staged prefill)) := by
  rw [List.mapM_map]
  refine mapM_ok fun m hm => ?_
  show e.buildPassInput prefill m.1 = _
  unfold buildPassInput
  rw [entry_eq (hb.entries m hm), ok_bind]
  simp only [(hb.ready m hm).cache_eq]
  cases prefill with
  | true => rfl
  | false =>
      cases hlast : m.2.seq.generatedIds.getLast? with
      | none => exact absurd (List.getLast?_eq_none_iff.mp hlast) (hb.generated rfl m hm)
      | some token =>
          simp only [Bool.false_eq_true, if_false]
          unfold Entry.staged Entry.passTokens
          rw [hlast]
          rfl

theorem Batch.lengths (hb : Batch prefill e ms) :
    (ms.map (·.1)).mapM e.cacheLength = .ok (ms.map (·.2.seq.held.length)) := by
  rw [List.mapM_map]
  refine mapM_ok fun m hm => ?_
  show e.cacheLength m.1 = _
  unfold cacheLength
  rw [entry_eq (hb.entries m hm), ok_bind]
  simp only [(hb.ready m hm).cache_eq]
  rfl

/-- The members that owe a token: those of a prefill that have not had their turn. -/
def owing (prefill : Bool) (rest : List Nat) : List Nat := if prefill then rest else []

@[simp] theorem owing_nil (prefill : Bool) : owing prefill [] = [] := by
  cases prefill <;> rfl

theorem owing_subset (prefill : Bool) (id : Nat) (rest : List Nat) :
    ∀ x ∈ owing prefill (id :: rest), x ∈ id :: owing prefill rest := by
  intro x hx
  cases prefill with
  | true => exact hx
  | false => exact absurd hx List.not_mem_nil

/-- A member whose turn has come, if it still runs. -/
theorem Sound.generated_of_running {rest : List Nat} (hs : e.Sound (owing prefill rest) [])
    (h : e.requests.lookup id = some entry) (hrun : entry.seq.state = .running) :
    prefill = false → entry.seq.generatedIds ≠ [] := by
  rintro rfl
  obtain ⟨hmem, _⟩ := hs.running_of_state h hrun
  rcases hs.active id hmem entry h with hc | hc | ⟨_, hgen | hf⟩
  · exact absurd hc List.not_mem_nil
  · rcases hc with hc | hc <;> rw [hrun] at hc <;> cases hc
  · exact hgen
  · exact absurd hf List.not_mem_nil

/-! ### A failed forward

The members are cut back and tried one after the other.  A member that somebody else's retry has
evicted in the meantime is passed over. -/

variable [Zero α]

/-- A cache cut back to a length, and what it holds then. -/
structure Cut (p : BlockPool α) (c : PagedKvCache) (n : Nat) (c' : PagedKvCache)
    (p' : BlockPool α) : Prop where
  store : SameStore p p'
  exhaustions : p'.exhaustions = p.exhaustions
  length : c'.length = n
  nextLayer : c'.nextLayer = 0
  log : n ≤ c.base → c'.log p' = (c.log p).truncate n

/-- **A member's cache is cut back**, or left alone if it is shorter. -/
theorem Sound.truncate (hs : e.Sound fresh []) (h : e.requests.lookup id = some entry)
    (hr : entry.seq.Ready) (n : Nat) :
    (entry.seq.held.truncate n e.shared.pool).Returns fun r =>
      (({ e with shared := { e.shared with pool := r.2.2 } }).setCache id r.2.1).Sound fresh [] ∧
        (({ e with shared := { e.shared with pool := r.2.2 } }).setCache id r.2.1).requests.lookup
          id = some (entry.withCache r.2.1) ∧
        (n ≤ entry.seq.held.length → Cut e.shared.pool entry.seq.held n r.2.1 r.2.2) := by
  have hm := members_singleton h hr
  have hbooks := hs.poolBooks hm
  have hone : ∀ c : PagedKvCache, cacheBlocks [c] = ↑c.table.blocks := by
    intro c
    rw [cacheBlocks_cons]
    exact add_zero _
  have he : Exclusive e.shared.pool
      (↑entry.seq.held.table.blocks + (↑e.shared.others + e.bystanders [(id, entry)])) := by
    have := hbooks.exclusive
    rwa [List.map_singleton, hone] at this
  have hwf := hs.wf id entry entry.seq.held h hr.cache_eq
  -- either way the cache and the pool are those of a forward that appended nothing
  have hback : ∀ (c : PagedKvCache) (pool : BlockPool α), SameShape e.shared.pool pool →
      Exclusive pool (↑c.table.blocks + (↑e.shared.others + e.bystanders [(id, entry)])) →
      c.Wf pool →
      (({ e with shared := { e.shared with pool := pool } }).setCache id c).Sound fresh [] ∧
        (({ e with shared := { e.shared with pool := pool } }).setCache id c).requests.lookup id
          = some (entry.withCache c) := by
    intro c pool hshape hexcl hc
    have hset : ({ e with shared := { e.shared with pool := pool } }).setCache id c
        = e.forwarded [(id, entry)]
          ⟨.error okStatus, [c], { e.shared with pool := pool }, e.state⟩ :=
      foldl_setCache { e with shared := { e.shared with pool := pool } } [(id, c)]
    have hfwd : e.Forwarded [(id, entry)]
        ⟨.error okStatus, [c], { e.shared with pool := pool }, e.state⟩ := by
      refine ⟨⟨?_, fun c' hc' => ?_⟩, rfl, hshape⟩
      · rw [hone]
        exact hexcl
      · rw [List.mem_singleton.mp hc']
        exact hc
    rw [hset]
    exact ⟨hs.forwarded hm hfwd, hfwd.lookup_member hm (i := 0) rfl rfl⟩
  by_cases hn : n ≤ entry.seq.held.table.numTokens
  · refine (PagedKvCache.truncate_ok he hwf hn).mono ?_
    rintro r ⟨_, ht⟩
    obtain ⟨hs', hl'⟩ := hback r.2.1 r.2.2 ht.store.shape ht.exclusive ht.wf
    exact ⟨hs', hl', fun _ => ⟨ht.store, ht.exhaustions, by rw [ht.cache]; rfl,
      by rw [ht.cache], ht.log_eq he hwf⟩⟩
  · obtain ⟨message, hrej⟩ := PagedKvCache.truncate_rejected (c := entry.seq.held)
      (p := e.shared.pool) (n := n) (Or.inr (by omega))
    rw [hrej]
    obtain ⟨hs', hl'⟩ := hback _ _ (SameStore.refl _).shape he hwf
    exact returns_ok ⟨hs', hl', fun hc => absurd hc hn⟩

/-- The retries of a member end, whatever the model answers. -/
theorem Sound.retried (hS : S.model.Shaped) (hs : e.Sound (id :: fresh) [])
    (hl : e.requests.lookup id = some entry) (hr : entry.seq.Ready)
    (hgen : prefill = false → entry.seq.generatedIds ≠ []) :
    (EngineLoop.recoverMember S prefill id e.running.length e).Returns fun e' =>
      e'.Sound fresh [] := by
  -- nothing is known of the model here
  have hsilent : False → e.Servable S (fun _ _ _ => True) (fun _ => 0) prefill id entry :=
    False.elim
  refine (hs.recoverMember hS le_rfl hl hr hgen hsilent).mono ?_
  rintro e' ⟨t, c, victims, hrec⟩
  exact hrec.sound

/-- **The turn of a member in a recovery.** -/
theorem Sound.recoverOne {rest : List Nat} (pass preLen : List Nat) (hS : S.model.Shaped)
    (hs : e.Sound (owing prefill (id :: rest)) []) (hid : id ∈ e.requests) :
    (recoverOne S prefill pass preLen e id).Returns fun e' =>
      e'.Sound (owing prefill rest) [] := by
  obtain ⟨entry, hl⟩ := IdMap.exists_of_mem hid
  unfold EngineLoop.recoverOne
  rw [entry_eq hl, ok_bind]
  by_cases hrun : entry.seq.state = .running
  · have hr := (hs.running_of_state hl hrun).2
    have hgen := hs.generated_of_running hl hrun
    rw [if_neg (fun hc => hc hrun)]
    simp only [hr.cache_eq]
    refine Returns.bind ((hs.weaken (owing_subset prefill id rest)).truncate hl hr _) ?_
    rintro ⟨truncated, c, pool⟩ ⟨hs', hl', _⟩
    exact hs'.retried hS hl' ⟨hrun, c, rfl⟩ hgen
  · rw [if_pos hrun]
    refine returns_pure ?_
    cases prefill with
    | false => exact hs
    | true =>
        -- a member that was evicted or has ended owes nothing
        refine { hs with active := fun id' hid' entry' hl' => ?_ }
        rcases hs.active id' hid' entry' hl' with hc | hc | ⟨hready, hgen | hf⟩
        · exact Or.inl hc
        · exact Or.inr (Or.inl hc)
        · exact Or.inr (Or.inr ⟨hready, Or.inl hgen⟩)
        · rcases List.mem_cons.mp hf with rfl | hf
          · rw [hl] at hl'
            cases hl'
            exact absurd hready.1 hrun
          · exact Or.inr (Or.inr ⟨hready, Or.inr hf⟩)

theorem Sound.recoverForwardFailure {pass preLen : List Nat} (hS : S.model.Shaped)
    (hs : e.Sound (owing prefill pass) []) (hmem : ∀ id ∈ pass, id ∈ e.requests) :
    (recoverForwardFailure S prefill pass preLen e).Returns fun e' => e'.Sound [] [] := by
  refine (Returns.foldlM (fun rest e' => e'.Sound (owing prefill rest) [] ∧
    ∀ id ∈ rest, id ∈ e'.requests) ?_ pass e ⟨hs, hmem⟩).mono fun e' h => by simpa using h.1
  rintro id rest e₁ ⟨hs₁, hmem₁⟩
  obtain ⟨e₂, hturn, hs₂⟩ := hs₁.recoverOne pass preLen hS
    (hmem₁ id List.mem_cons_self)
  refine ⟨e₂, hturn, hs₂, fun id' hid' => ?_⟩
  exact (recoverOne_retained S prefill pass preLen e₁ id e₂ hturn).mem id'
    (hmem₁ id' (List.mem_cons_of_mem _ hid'))

/-! ### The rows of a forward that was answered

A row is delivered to its member, which may end with it.  The others are not concerned. -/

/-- The members that wait for their rows. -/
def Awaiting (e : EngineLoop σ α) (rest : List Nat) : Prop :=
  rest.Nodup ∧ ∀ id ∈ rest, ∃ entry, e.requests.lookup id = some entry ∧
    entry.seq.state = .running

omit [Zero α] in
theorem Sound.deliverRow {row : Nat × SampleResult × StatusOr Unit} {rest : List Nat}
    (hs : e.Sound (owing prefill (row.1 :: rest)) []) (hw : e.Awaiting (row.1 :: rest)) :
    (e.deliverRow row).Returns fun e' =>
      e'.Sound (owing prefill rest) [] ∧ e'.Awaiting rest := by
  obtain ⟨hnd, hrunning⟩ := hw
  obtain ⟨hid, hrest⟩ := List.nodup_cons.mp hnd
  obtain ⟨entry, hl, hrun⟩ := hrunning row.1 List.mem_cons_self
  have hs' := hs.weaken (owing_subset prefill row.1 rest)
  have hset : ∀ {e₁ : EngineLoop σ α} {seq : Sequence}, e₁.requests = e.requests →
      (e₁.setSeq row.1 entry seq).Awaiting rest := by
    intro e₁ seq hreq
    refine ⟨hrest, fun id' hid' => ?_⟩
    have hne : id' ≠ row.1 := fun hc => hid (hc ▸ hid')
    obtain ⟨entry', hl', hrun'⟩ := hrunning id' (List.mem_cons_of_mem _ hid')
    refine ⟨entry', lookup_setSeq.mpr (Or.inr ⟨hne, ?_⟩), hrun'⟩
    rw [hreq]
    exact hl'
  unfold EngineLoop.deliverRow
  cases row.2.2 with
  | ok _ =>
      show Returns (e.deliverSampled row.1 row.2.1) _
      rw [deliverSampled_eq hl hrun (hs'.open_of_lookup hl)]
      exact returns_ok ⟨hs'.deliver hl hrun row.2.1, hset rfl⟩
  | error status =>
      show Returns (e.fail row.1 status) _
      rw [fail_eq hl hrun]
      exact returns_ok ⟨hs'.fail hl hrun status, hset rfl⟩

omit [Zero α] in
theorem Sound.deliverRows {rows : List (Nat × SampleResult × StatusOr Unit)}
    (hs : e.Sound (owing prefill (rows.map (·.1))) []) (hw : e.Awaiting (rows.map (·.1))) :
    (rows.foldlM EngineLoop.deliverRow e).Returns fun e' => e'.Sound [] [] := by
  refine (Returns.foldlM (fun (rest : List (Nat × SampleResult × StatusOr Unit)) e' =>
    e'.Sound (owing prefill (rest.map (·.1))) [] ∧ e'.Awaiting (rest.map (·.1))) ?_ rows e
    ⟨hs, hw⟩).mono fun e' h => by simpa using h.1
  rintro row rest e₁ ⟨hs₁, hw₁⟩
  exact hs₁.deliverRow hw₁

/-! ### A pass

Building, forwarding and delivering are put together. -/

/-- The rows of a batch that was answered are sampled. -/
theorem sample_answered (sampleRow : SampleRow) {logits : Tensor F32} {vocab : Int}
    (rows : List BatchRow) (hvocab : 0 < vocab) (hdims : logits.dims = [rows.length, vocab.toNat])
    (hrows : ∀ r ∈ rows, r.sampler.isNone = false) :
    ∃ results rowStatus, results.length = rows.length ∧ rowStatus.length = rows.length ∧
      BatchedSampler.sample sampleRow logits.values vocab rows
        (List.replicate rows.length {}) (List.replicate rows.length (.ok ()))
        = (.ok (), results, rowStatus) := by
  have hlen : (logits.values.length : Int) = rows.length * vocab := by
    have hnum : logits.values.length = rows.length * vocab.toNat := by
      unfold Tensor.values FlatMemory.indices
      rw [List.length_map, List.length_map, List.length_range, Int.toNat_natCast]
      unfold Tensor.numel
      rw [hdims]
      simp
    rw [hnum]
    push_cast
    rw [Int.toNat_of_nonneg hvocab.le]
  have hnone : rows.findIdx? (fun r => r.sampler.isNone) = none := by
    rw [List.findIdx?_eq_none_iff]
    intro r hr
    simpa using hrows r hr
  unfold BatchedSampler.sample
  rw [if_neg (by omega), if_neg (by simp), if_neg (by simp), if_neg (by simpa using hlen), hnone]
  exact ⟨_, _, by simp, by simp, rfl⟩

/-- **A pass over running sequences runs to its end**, whatever the model answers. -/
theorem Sound.runBatchPass (hS : S.model.Shaped)
    (hs : e.Sound (owing prefill (ms.map (·.1))) []) (hb : Batch prefill e ms) :
    (runBatchPass S prefill (ms.map (·.1)) e).Returns fun e' => e'.Sound [] [] := by
  unfold EngineLoop.runBatchPass
  by_cases hempty : (ms.map (·.1)).isEmpty = true
  · rw [if_pos hempty]
    rw [List.isEmpty_iff.mp hempty, owing_nil] at hs
    exact returns_pure hs
  · rw [if_neg hempty, hb.inputs, ok_bind, flatten_staged hb.tokens]
    simp only
    rw [hb.lengths, ok_bind]
    have hreq : (ms.map (·.2.part prefill)).map (·.cache) = ms.map (·.2.seq.held) := by
      rw [List.map_map]
      rfl
    have hforward := hs.forward hb.toMembers S ⟨true, ms.map fun m => m.2.part prefill⟩ hreq
    refine Returns.bind hforward ?_
    rintro r ⟨called, hcall, rfl, hfwd, _, hlogits⟩
    have hs' := hs.forwarded hb.toMembers hfwd
    have hmem : ∀ id ∈ ms.map (·.1), id ∈ (e.forwarded ms called).requests := by
      intro id hid
      obtain ⟨m, hm, rfl⟩ := List.mem_map.mp hid
      exact (hfwd.mem_requests hb.toMembers).mpr (IdMap.mem_of_lookup (hb.entries m hm))
    have hrunning : ∀ id ∈ ms.map (·.1), ∃ entry,
        (e.forwarded ms called).requests.lookup id = some entry ∧
          entry.seq.state = .running := by
      intro id hid
      obtain ⟨entry, hl⟩ := IdMap.exists_of_mem (hmem id hid)
      refine ⟨entry, hl, ?_⟩
      rcases hfwd.lookup_cases hb.toMembers hl with ⟨i, m, c, hi, _, _, rfl⟩ | ⟨hnot, _⟩
      · exact (hb.ready m (List.mem_of_getElem? hi)).1
      · exact absurd hid hnot
    cases hans : called.logits with
    | error status => exact hs'.recoverForwardFailure hS hmem
    | ok logits =>
        have hdims := hS.dims _ _ _ _ (hlogits logits hans)
        rw [List.length_map] at hdims
        have hvocab := hS.vocab_pos
        have hnumel : (logits.numel : Int) = (ms.map (·.1)).length * S.model.vocabSize := by
          unfold Tensor.numel
          rw [hdims, List.length_map]
          simp [Int.toNat_of_nonneg hvocab.le]
        obtain ⟨results, rowStatus, hresults, hstatus, hsample⟩ :=
          sample_answered S.sampleRow (ms.map fun m =>
            ⟨some m.2.seq.sampler, m.2.request.promptIds, m.2.seq.generatedIds⟩) hvocab
            (by rw [List.length_map]; exact hdims) (by
              intro r hr
              obtain ⟨m, _, rfl⟩ := List.mem_map.mp hr
              rfl)
        simp only
        rw [check_of_true (by simpa using hnumel), ok_bind]
        rw [List.length_map] at hresults hstatus hsample ⊢
        rw [hsample]
        have hids : ((ms.map (·.1)).zip (results.zip rowStatus)).map (·.1) = ms.map (·.1) :=
          List.map_fst_zip (by simp [hresults, hstatus])
        rw [← hids] at hs'
        refine hs'.deliverRows ?_
        rw [hids]
        exact ⟨hb.nodup, hrunning⟩

end EngineLoop

end InferenceEngine
