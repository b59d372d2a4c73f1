/-
A forward, as the engine sees it.

The members of a forward are live sequences with caches.  The model works on their caches
and on nothing else of theirs, and what the engine reads afterwards is each entry with its
new cache.  The caches of the sequences that are not members, and what they hold, are as
they were.
-/
import InferenceEngine.Proofs.EngineBooks
import Mathlib.Data.Multiset.OrderedMonoid

namespace InferenceEngine

open Except BlockPool

variable {σ α : Type}

/-- The cache a sequence holds; an empty one if it holds none. -/
def Sequence.held (s : Sequence) : PagedKvCache := s.cache.getD .new

theorem Sequence.Ready.cache_eq {s : Sequence} (h : s.Ready) : s.cache = some s.held := by
  obtain ⟨_, c, hc⟩ := h
  simp [held, hc]

/-- An entry with another cache. -/
def Entry.withCache (entry : Entry) (c : PagedKvCache) : Entry :=
  { entry with seq := { entry.seq with cache := some c } }

/-! ### Writing caches back

A forward works on the caches of its members in place.  They are taken out of the entries and
put back, and no other entry changes. -/

/-- Some entries with other caches. -/
def writeBack (m : IdMap Entry) (caches : List (Nat × PagedKvCache)) : IdMap Entry :=
  caches.foldl (fun m kc => match m.lookup kc.1 with
    | none => m
    | some entry => m.insert kc.1 (entry.withCache kc.2)) m

theorem writeBack_cons (m : IdMap Entry) (kc : Nat × PagedKvCache)
    (caches : List (Nat × PagedKvCache)) :
    writeBack m (kc :: caches) = writeBack (match m.lookup kc.1 with
      | none => m
      | some entry => m.insert kc.1 (entry.withCache kc.2)) caches := rfl

theorem lookup_writeBack_of_not_mem {m : IdMap Entry} {caches : List (Nat × PagedKvCache)} {k : Nat}
    (h : k ∉ caches.map (·.1)) : (writeBack m caches).lookup k = m.lookup k := by
  induction caches generalizing m with
  | nil => rfl
  | cons kc caches ih =>
      rw [List.map_cons, List.mem_cons, not_or] at h
      rw [writeBack_cons, ih h.2]
      cases m.lookup kc.1 with
      | none => rfl
      | some entry => exact AList.lookup_insert_ne h.1

theorem lookup_writeBack {m : IdMap Entry} {caches : List (Nat × PagedKvCache)} {k : Nat}
    {c : PagedKvCache} {entry : Entry} (hnd : (caches.map (·.1)).Nodup) (hk : (k, c) ∈ caches)
    (h : m.lookup k = some entry) : (writeBack m caches).lookup k = some (entry.withCache c) := by
  induction caches generalizing m with
  | nil => simp at hk
  | cons kc caches ih =>
      rw [List.map_cons, List.nodup_cons] at hnd
      rw [writeBack_cons]
      rcases List.mem_cons.mp hk with rfl | hk
      · rw [lookup_writeBack_of_not_mem hnd.1, h]
        exact AList.lookup_insert _
      · refine ih hnd.2 hk ?_
        have hne : k ≠ kc.1 := by
          rintro rfl
          exact hnd.1 (List.mem_map.mpr ⟨_, hk, rfl⟩)
        cases m.lookup kc.1 with
        | none => exact h
        | some entry' =>
            rw [← h]
            exact AList.lookup_insert_ne hne

namespace EngineLoop

variable {e : EngineLoop σ α} {ms : List (Nat × Entry)} {fresh : List Nat}

theorem foldl_setCache (e : EngineLoop σ α) (caches : List (Nat × PagedKvCache)) :
    caches.foldl (fun e kc => e.setCache kc.1 kc.2) e
      = { e with requests := writeBack e.requests caches } := by
  induction caches generalizing e with
  | nil => rfl
  | cons kc caches ih =>
      rw [List.foldl_cons, ih, writeBack_cons]
      unfold setCache
      cases e.requests.lookup kc.1 <;> rfl

/-- The members of a pass, with their entries. -/
structure Members (e : EngineLoop σ α) (ms : List (Nat × Entry)) : Prop where
  entries : ∀ m ∈ ms, e.requests.lookup m.1 = some m.2
  nodup : (ms.map (·.1)).Nodup
  ready : ∀ m ∈ ms, m.2.seq.Ready

/-- The blocks of the sequences that are not members. -/
def bystanders (e : EngineLoop σ α) (ms : List (Nat × Entry)) : Multiset Int :=
  IdMap.total (IdMap.without e.requests (ms.map (·.1))) fun _ entry => entry.seq.blocks

private theorem cacheBlocks_held (hm : e.Members ms) :
    cacheBlocks (ms.map (·.2.seq.held)) = (ms.map fun m => m.2.seq.blocks).sum := by
  unfold cacheBlocks
  rw [List.map_map]
  refine congrArg List.sum (List.map_congr_left fun m hmem => ?_)
  exact (Sequence.blocks_some (hm.ready m hmem).cache_eq).symm

theorem Sound.poolBooks (hs : e.Sound fresh []) (hm : e.Members ms) :
    PoolBooks e.shared (ms.map (·.2.seq.held)) (e.bystanders ms) := by
  refine ⟨?_, ?_⟩
  · have he := hs.exclusive
    rw [owned, IdMap.total_without Prod.fst Prod.snd hm.nodup hm.entries,
      ← cacheBlocks_held hm, add_assoc] at he
    rw [add_comm (e.shared.others : Multiset Int)]
    exact he
  · intro c hc
    obtain ⟨m, hmem, rfl⟩ := List.mem_map.mp hc
    exact hs.wf m.1 m.2 _ (hm.entries m hmem) (hm.ready m hmem).cache_eq

/-! ### Room in the pool

If each running sequence has a length it is not to exceed, and the pool has room for all of
these, then a member always finds the blocks it needs, in whatever order the members append. -/

/-- Every sequence stays within its goal, and the pool has room for all the goals. -/
structure Fits (goal : Nat → Nat) (e : EngineLoop σ α) : Prop where
  length_le : ∀ id entry, e.requests.lookup id = some entry → entry.seq.held.length ≤ goal id
  room : IdMap.total e.requests (fun id entry =>
      if entry.seq.cache.isSome then goal id ⌈/⌉ e.shared.pool.blockSize else 0)
    + e.shared.others.length ≤ e.shared.pool.numBlocks

variable {goal : Nat → Nat} {id : Nat}

/-- A sequence within its goal holds no more blocks than its goal needs. -/
theorem Sound.card_blocks_le (hs : e.Sound fresh []) {entry : Entry}
    (h : e.requests.lookup id = some entry) (hle : entry.seq.held.length ≤ goal id) :
    Multiset.card entry.seq.blocks
      ≤ if entry.seq.cache.isSome then goal id ⌈/⌉ e.shared.pool.blockSize else 0 := by
  cases hc : entry.seq.cache with
  | none =>
      rw [Sequence.blocks_none hc]
      simp
  | some c =>
      have hheld : entry.seq.held = c := by simp [Sequence.held, hc]
      rw [hheld] at hle
      have hsized := (hs.wf id entry c h hc).sized
      unfold BlockTable.Sized at hsized
      rw [Sequence.blocks_some hc, Multiset.coe_card, hsized]
      exact BlockTable.ceilDiv_mono hle hs.exclusive.blockSize_pos

/-- **Sequences within their goals leave each member room for its tokens.** -/
theorem Fits.room_for (h : e.Fits goal) (hs : e.Sound fresh []) (hm : e.Members ms)
    (f : Nat × Entry → ForwardSeq) (hf : ∀ m ∈ ms, (f m).cache = m.2.seq.held)
    (hle : ∀ m ∈ ms, m.2.seq.held.length + (f m).tokenIds.length ≤ goal m.1) :
    Room e.shared (ms.map f) (e.bystanders ms) := by
  have hroom := h.room
  rw [IdMap.total_without Prod.fst Prod.snd hm.nodup hm.entries] at hroom
  have hmembers : ((ms.map f).map fun fs =>
        (fs.cache.length + fs.tokenIds.length) ⌈/⌉ e.shared.pool.blockSize).sum
      ≤ (ms.map fun m => if m.2.seq.cache.isSome
          then goal m.1 ⌈/⌉ e.shared.pool.blockSize else 0).sum := by
    rw [List.map_map]
    refine List.sum_le_sum fun m hmem => ?_
    rw [(hm.ready m hmem).cache_eq]
    simp only [Function.comp_apply, hf m hmem, Option.isSome_some, if_true]
    exact BlockTable.ceilDiv_mono (hle m hmem) hs.exclusive.blockSize_pos
  have hothers : Multiset.card (e.bystanders ms)
      ≤ IdMap.total (IdMap.without e.requests (ms.map (·.1))) fun id entry =>
        if entry.seq.cache.isSome then goal id ⌈/⌉ e.shared.pool.blockSize else 0 := by
    unfold bystanders
    show Multiset.cardHom _ ≤ _
    rw [IdMap.map_total]
    refine IdMap.total_le_of_lookup fun id entry hl => ⟨entry, hl, ?_⟩
    have hl' := (IdMap.lookup_without.mp hl).2
    exact hs.card_blocks_le hl' (h.length_le id entry hl')
  unfold Room
  have hnames : ms.map Prod.fst = ms.map (·.1) := rfl
  rw [hnames] at hroom
  omega

/-- The engine after a forward of some members. -/
def forwarded (e : EngineLoop σ α) (ms : List (Nat × Entry)) (called : Model.Called σ α) :
    EngineLoop σ α :=
  { e with
    state := called.state
    shared := called.shared
    requests := writeBack e.requests ((ms.map (·.1)).zip called.caches) }

/-- What every forward leaves, whatever the model. -/
structure Forwarded (e : EngineLoop σ α) (ms : List (Nat × Entry)) (called : Model.Called σ α) :
    Prop where
  books : PoolBooks called.shared called.caches (e.bystanders ms)
  length : called.caches.length = ms.length
  shape : SameShape e.shared.pool called.shared.pool

variable {called : Model.Called σ α} {i : Nat} {m : Nat × Entry} {c : PagedKvCache}

/-- A member's entry after a forward. -/
theorem Forwarded.lookup_member (h : e.Forwarded ms called) (hm : e.Members ms)
    (hi : ms[i]? = some m) (hc : called.caches[i]? = some c) :
    (e.forwarded ms called).requests.lookup m.1 = some (m.2.withCache c) := by
  have hlen := h.length
  refine lookup_writeBack ?_ ?_ (hm.entries m (List.mem_of_getElem? hi))
  · rw [List.map_fst_zip (by simp [hlen])]
    exact hm.nodup
  · refine List.mem_of_getElem? (i := i) ?_
    rw [List.getElem?_zip_eq_some]
    exact ⟨by simp [hi], hc⟩

/-- Everybody else's. -/
theorem Forwarded.lookup_other (h : e.Forwarded ms called) (hid : id ∉ ms.map (·.1)) :
    (e.forwarded ms called).requests.lookup id = e.requests.lookup id := by
  refine lookup_writeBack_of_not_mem ?_
  rwa [List.map_fst_zip (by simp [h.length])]

theorem Forwarded.lookup_cases (h : e.Forwarded ms called) (hm : e.Members ms) {entry : Entry}
    (hl : (e.forwarded ms called).requests.lookup id = some entry) :
    (∃ (i : Nat) (m : Nat × Entry) (c : PagedKvCache), ms[i]? = some m ∧
        called.caches[i]? = some c ∧ m.1 = id ∧ entry = m.2.withCache c) ∨
      (id ∉ ms.map (·.1) ∧ e.requests.lookup id = some entry) := by
  by_cases hid : id ∈ ms.map (·.1)
  · obtain ⟨m, hmem, rfl⟩ := List.mem_map.mp hid
    obtain ⟨i, hi⟩ := List.mem_iff_getElem?.mp hmem
    have hlt : i < called.caches.length := by
      rw [h.length]
      exact (List.getElem?_eq_some_iff.mp hi).1
    rw [h.lookup_member hm hi (List.getElem?_eq_getElem hlt)] at hl
    exact Or.inl ⟨i, m, _, hi, List.getElem?_eq_getElem hlt, rfl, (Option.some.inj hl).symm⟩
  · rw [h.lookup_other hid] at hl
    exact Or.inr ⟨hid, hl⟩

theorem Forwarded.mem_requests (h : e.Forwarded ms called) (hm : e.Members ms) :
    id ∈ (e.forwarded ms called).requests ↔ id ∈ e.requests := by
  by_cases hid : id ∈ ms.map (·.1)
  · obtain ⟨m, hmem, rfl⟩ := List.mem_map.mp hid
    obtain ⟨i, hi⟩ := List.mem_iff_getElem?.mp hmem
    have hlt : i < called.caches.length := by
      rw [h.length]
      exact (List.getElem?_eq_some_iff.mp hi).1
    have hnew := h.lookup_member hm hi (List.getElem?_eq_getElem hlt)
    exact iff_of_true (IdMap.mem_of_lookup hnew) (IdMap.mem_of_lookup (hm.entries m hmem))
  · rw [← AList.lookup_isSome, ← AList.lookup_isSome, h.lookup_other hid]

/-- The blocks after a forward: those of the new caches, and the bystanders'. -/
theorem Forwarded.owned_eq (h : e.Forwarded ms called) (hm : e.Members ms) :
    (e.forwarded ms called).owned = cacheBlocks called.caches + e.bystanders ms := by
  have hkeys : (ms.zip called.caches).map (fun mc => mc.1.1) = ms.map (·.1) := by
    have := congrArg (List.map fun m : Nat × Entry => m.1)
      (show (ms.zip called.caches).map Prod.fst = ms from List.map_fst_zip (by simp [h.length]))
    rwa [List.map_map] at this
  have hval : ∀ mc ∈ ms.zip called.caches,
      (e.forwarded ms called).requests.lookup mc.1.1 = some (mc.1.2.withCache mc.2) := by
    intro mc hmc
    obtain ⟨i, hi⟩ := List.mem_iff_getElem?.mp hmc
    rw [List.getElem?_zip_eq_some] at hi
    exact h.lookup_member hm hi.1 hi.2
  unfold owned
  rw [IdMap.total_without (fun mc : (Nat × Entry) × PagedKvCache => mc.1.1)
    (fun mc => mc.1.2.withCache mc.2) (by rw [hkeys]; exact hm.nodup) hval, hkeys]
  congr 1
  · have := congrArg cacheBlocks
      (show (ms.zip called.caches).map Prod.snd = called.caches from
        List.map_snd_zip (by simp [h.length]))
    rw [← this]
    unfold cacheBlocks
    rw [List.map_map]
    rfl
  · refine IdMap.total_of_lookup (fun k v => ?_) _
    rw [IdMap.lookup_without, IdMap.lookup_without]
    refine and_congr_right fun hk => ?_
    rw [h.lookup_other hk]

/-- **A forward keeps the invariant.** -/
theorem Sound.forwarded (hs : e.Sound fresh []) (hm : e.Members ms) (h : e.Forwarded ms called) :
    (e.forwarded ms called).Sound fresh [] := by
  refine ⟨?_, ?_, hs.maxNumSeqs, hs.maxNumBatchedTokens, hs.once, ?_, ?_, ?_, ?_, ?_, hs.channels⟩
  · rw [h.owned_eq hm]
    have := h.books.exclusive
    rw [add_comm (called.shared.others : Multiset Int), ← add_assoc] at this
    exact this
  · intro id entry c hl hc
    rcases h.lookup_cases hm hl with ⟨i, m, c', _, hc', _, rfl⟩ | ⟨_, hl⟩
    · cases hc
      exact h.books.wf _ (List.mem_of_getElem? hc')
    · exact (hs.wf id entry c hl hc).of_shape h.shape
  · intro id
    rw [h.mem_requests hm]
    exact hs.live id
  · intro id hid
    exact hs.positive id ((h.mem_requests hm).mp hid)
  · intro id hid entry hl
    rcases h.lookup_cases hm hl with ⟨i, m, _, hi, _, rfl, _⟩ | ⟨_, hl⟩
    · -- a member is running, so it does not wait
      have hmem := List.mem_of_getElem? hi
      have hrun := (hs.running_of_state (hm.entries m hmem) (hm.ready m hmem).1).1
      exact absurd hrun (List.disjoint_of_nodup_append hs.once hid)
    · exact hs.parked id hid entry hl
  · intro id hid entry hl
    rcases h.lookup_cases hm hl with ⟨i, m, c', hi, _, rfl, rfl⟩ | ⟨_, hl⟩
    · have hmem := List.mem_of_getElem? hi
      rcases hs.active m.1 hid m.2 (hm.entries m hmem) with hr | hr | ⟨hr, hg⟩
      · exact Or.inl hr
      · exact Or.inr (Or.inl hr)
      · exact Or.inr (Or.inr ⟨⟨hr.1, c', rfl⟩, hg⟩)
    · exact hs.active id hid entry hl
  · intro id hid
    exact hs.closed id ((h.mem_requests hm).mp hid)

variable [Zero α]

/-- **`model_.forward`**, whatever the model. -/
theorem Sound.forward (hs : e.Sound fresh []) (hm : e.Members ms) (S : Services σ α)
    (request : ForwardRequest) (hreq : request.seqs.map (·.cache) = ms.map (·.2.seq.held)) :
    (e.forward S (ms.map (·.1)) request).Returns fun r => ∃ called,
      S.model.call e.state request e.shared = .ok called ∧
        r = (called.logits, e.forwarded ms called) ∧ e.Forwarded ms called ∧
        LogsKept (e.bystanders ms) e.shared.pool called.shared.pool ∧
        ∀ logits, called.logits = .ok logits →
          (S.model.forward e.state request e.shared.pool).1.logits = .ok logits := by
  have hb := hs.poolBooks hm
  rw [← hreq] at hb
  obtain ⟨called, hcall, hbooks, hlen, hshape, hkept, hlogits⟩ :=
    S.model.call_returns e.state hb
  unfold EngineLoop.forward
  rw [hcall]
  refine returns_pure ⟨called, rfl, ?_, ⟨hbooks, ?_, hshape⟩, hkept, hlogits⟩
  · rw [foldl_setCache]
    rfl
  · have := congrArg List.length hreq
    simp only [List.length_map] at this
    rw [hlen, this]

omit [Zero α] in
/-- The cache of a sequence that is not a member is a bystander. -/
theorem blocks_le_bystanders {entry : Entry} (hid : id ∉ ms.map (·.1))
    (h : e.requests.lookup id = some entry) (hc : entry.seq.cache = some c) :
    (↑c.table.blocks : Multiset Int) ≤ e.bystanders ms := by
  rw [← Sequence.blocks_some hc]
  exact IdMap.le_total (IdMap.lookup_without.mpr ⟨hid, h⟩) fun _ entry => entry.seq.blocks

end EngineLoop

end InferenceEngine
