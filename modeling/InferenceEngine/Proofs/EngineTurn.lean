/-
One member's turn in a pass, when it is served alone.

A turn touches its own sequence and, when the pool has run dry, the sequences it evicts.
Everything that is said about the model's answer is said under `L`: it holds when the model
keeps its contract and is silent about any other model.
-/
import InferenceEngine.Proofs.EngineForward

namespace InferenceEngine

open Except BlockPool

variable {σ α : Type}

/-- The tokens a member contributes to a pass. -/
def Entry.passTokens (entry : Entry) (prefill : Bool) : List Int :=
  if prefill then entry.request.promptIds ++ entry.seq.generatedIds
  else entry.seq.generatedIds.getLast?.toList

/-- What a standalone forward of a member is asked. -/
def Entry.alone (entry : Entry) (prefill : Bool) : ForwardSeq :=
  ⟨entry.passTokens prefill,
    positionsFrom (if prefill then 0 else entry.seq.held.length) (entry.passTokens prefill).length,
    entry.seq.held⟩

/-- An entry's sequence after a turn. -/
def Entry.after (entry : Entry) (sampleRow : SampleRow) (t : Turn) : Sequence :=
  (entry.seq.turn sampleRow entry.request.promptIds t).1

/-- What the turn pushed. -/
def Entry.item (entry : Entry) (sampleRow : SampleRow) (t : Turn) : Option OutputItem :=
  (entry.seq.turn sampleRow entry.request.promptIds t).2

theorem Entry.after_withCache (entry : Entry) (sampleRow : SampleRow) (t : Turn)
    (c : PagedKvCache) :
    (entry.withCache c).after sampleRow t = { entry.after sampleRow t with cache := some c } := by
  cases t with
  | waits => rfl
  | answered row => exact congrArg Prod.fst (Sequence.answer_cache _)
  | refused status => rfl

theorem Entry.item_withCache (entry : Entry) (sampleRow : SampleRow) (t : Turn)
    (c : PagedKvCache) : (entry.withCache c).item sampleRow t = entry.item sampleRow t := by
  cases t with
  | waits => rfl
  | answered row =>
      show (({ entry.seq with cache := some c } : Sequence).answer sampleRow _ row).2 = _
      rw [Sequence.answer_cache]
      rfl
  | refused status => rfl

/-- A row of logits that was asked for alone. -/
theorem lastRow_eq {logits : Tensor F32} {vocab : Nat} (h : logits.dims = [1, vocab])
    (hpos : 0 < vocab) : lastRow logits = .ok (BatchedSampler.row logits.values vocab 0) := by
  unfold lastRow BatchedSampler.row Tensor.numel
  rw [h]
  simp [hpos.ne', Nat.div_self hpos]

/-- A cache with nothing in it holds the same in every pool. -/
theorem PagedKvCache.new_log [Zero α] (p p' : BlockPool α) :
    PagedKvCache.new.log p' = PagedKvCache.new.log p := by
  unfold PagedKvCache.log PagedKvCache.visible PagedKvCache.new BlockTable.empty
  simp

/-! ### What a turn touches

The turn of one member changes its own entry and, if it is evicted for, those of the victims. 
For everybody else nothing has happened. -/

namespace EngineLoop

variable {e e' e'' : EngineLoop σ α} {ids ids' : List Nat} {id : Nat} {entry : Entry}
  {fresh : List Nat}

variable [Zero α]

/-- Nothing but the requests `ids` has been touched. -/
structure Touched (ids : List Nat) (e e' : EngineLoop σ α) : Prop where
  config : e'.config = e.config
  maxModelLen : e'.maxModelLen = e.maxModelLen
  shape : SameShape e.shared.pool e'.shared.pool
  mem : ∀ id, id ∈ e'.requests ↔ id ∈ e.requests
  lookup : ∀ id, id ∉ ids → e'.requests.lookup id = e.requests.lookup id
  log : ∀ id, id ∉ ids → ∀ entry, e.requests.lookup id = some entry →
    entry.seq.held.log e'.shared.pool = entry.seq.held.log e.shared.pool
  outbox : ∀ id, id ∉ ids → e'.outbox.filter (·.id = id) = e.outbox.filter (·.id = id)

theorem Touched.refl (e : EngineLoop σ α) : e.Touched [] e :=
  ⟨rfl, rfl, SameShape.refl _, fun _ => Iff.rfl, fun _ _ => rfl, fun _ _ _ _ => rfl, fun _ _ => rfl⟩

theorem Touched.mono (h : Touched ids e e') (hsub : ∀ id ∈ ids, id ∈ ids') : Touched ids' e e' :=
  ⟨h.config, h.maxModelLen, h.shape, h.mem, fun id hid => h.lookup id fun hc => hid (hsub id hc),
    fun id hid => h.log id fun hc => hid (hsub id hc),
    fun id hid => h.outbox id fun hc => hid (hsub id hc)⟩

theorem Touched.trans (h : Touched ids e e') (h' : Touched ids e' e'') : Touched ids e e'' := by
  refine ⟨h'.config.trans h.config, h'.maxModelLen.trans h.maxModelLen, h.shape.trans h'.shape,
    fun id => (h'.mem id).trans (h.mem id),
      fun id hid => (h'.lookup id hid).trans (h.lookup id hid),
    fun id hid entry hl => ?_, fun id hid => (h'.outbox id hid).trans (h.outbox id hid)⟩
  exact (h'.log id hid entry ((h.lookup id hid).trans hl)).trans (h.log id hid entry hl)

/-- The pool has room for the goals as long as nobody outgrows his. -/
theorem Fits.touched {goal : Nat → Nat} (h : e.Fits goal) (ht : e.Touched ids e')
    (hothers : e'.shared.others = e.shared.others)
    (hids : ∀ id ∈ ids, ∀ entry', e'.requests.lookup id = some entry' →
      entry'.seq.held.length ≤ goal id ∧ ∃ entry, e.requests.lookup id = some entry ∧
        (entry'.seq.cache.isSome → entry.seq.cache.isSome)) : e'.Fits goal := by
  refine ⟨fun id entry' hl => ?_, ?_⟩
  · by_cases hid : id ∈ ids
    · exact (hids id hid entry' hl).1
    · exact h.length_le id entry' (by rw [← ht.lookup id hid]; exact hl)
  · have hle := h.room
    rw [ht.shape.blockSize, ht.shape.numBlocks, hothers]
    refine le_trans (Nat.add_le_add_right (IdMap.total_le_of_lookup fun id entry' hl => ?_) _) hle
    by_cases hid : id ∈ ids
    · obtain ⟨_, entry, he, himp⟩ := hids id hid entry' hl
      refine ⟨entry, he, ?_⟩
      by_cases hc : entry'.seq.cache.isSome = true
      · rw [if_pos hc, if_pos (himp hc)]
      · rw [if_neg hc]
        exact Nat.zero_le _
    · exact ⟨entry', by rw [← ht.lookup id hid]; exact hl, le_refl _⟩

theorem touched_setSeq (h : e.requests.lookup id = some entry) (seq : Sequence) :
    e.Touched [id] (e.setSeq id entry seq) := by
  refine ⟨rfl, rfl, SameShape.refl _, fun id' => mem_setSeq h, fun id' hid => ?_,
    fun _ _ _ _ => rfl, fun _ _ => rfl⟩
  exact AList.lookup_insert_ne (fun hc => hid (by simp [hc]))

theorem touched_emit (e : EngineLoop σ α) (id : Nat) (item : Option OutputItem) :
    e.Touched [id] (e.emit id item) := by
  refine ⟨rfl, rfl, SameShape.refl _, fun _ => Iff.rfl, fun _ _ => rfl, fun _ _ _ _ => rfl,
    fun id' hid => ?_⟩
  have hne : id ≠ id' := fun hc => hid (by simp [hc])
  cases item <;> simp [emit, ChannelOp.id, hne]

theorem touched_evict {pool : BlockPool α} (h : e.requests.lookup id = some entry)
    (hstore : SameStore e.shared.pool pool) : e.Touched [id] (e.evict id entry pool) := by
  refine ⟨rfl, rfl, hstore.shape, fun _ => mem_evicted h,
    fun id' hid => ?_, fun _ _ _ _ => PagedKvCache.log_of_store hstore, fun _ _ => rfl⟩
  exact AList.lookup_insert_ne (fun hc => hid (by simp [hc]))

variable {ms : List (Nat × Entry)} {called : Model.Called σ α}

/-- What the sequences that are not members hold survives a forward. -/
theorem touched_forwarded (hs : e.Sound fresh []) (hm : e.Members ms) (h : e.Forwarded ms called)
    (hk : LogsKept (e.bystanders ms) e.shared.pool called.shared.pool) :
    e.Touched (ms.map (·.1)) (e.forwarded ms called) := by
  refine ⟨rfl, rfl, h.shape, fun _ => h.mem_requests hm, fun _ hid => h.lookup_other hid,
    fun id hid entry hl => ?_, fun _ _ => rfl⟩
  show entry.seq.held.log called.shared.pool = _
  unfold Sequence.held
  cases hc : entry.seq.cache with
  | none => exact PagedKvCache.new_log _ _
  | some c => exact hk c (hs.wf id entry c hl hc) (blocks_le_bystanders hid hl hc)

/-! ### A turn

After the model's answer the rest of a turn is a function of the sequence. -/

omit [Zero α] in
theorem emit_none (e : EngineLoop σ α) (id : Nat) : e.emit id none = e := by
  simp [emit]

/-- The engine after a turn of one member. -/
def served (e : EngineLoop σ α) (sampleRow : SampleRow) (id : Nat) (entry : Entry) (t : Turn) :
    EngineLoop σ α :=
  (e.emit id (entry.item sampleRow t)).setSeq id entry (entry.after sampleRow t)

omit [Zero α] in
/-- Sampling a row and delivering or failing, as one turn. -/
theorem answer_eq {sampleRow : SampleRow} (h : e.requests.lookup id = some entry)
    (hrun : entry.seq.state = .running) (hopen : e.closed id = false) (row : List F32) :
    (match entry.seq.sampler.sampleWithLogprobs sampleRow row
        ⟨entry.request.promptIds, entry.seq.generatedIds⟩ with
      | .ok next => e.deliverSampled id next
      | .error status => e.fail id status)
      = .ok (e.served sampleRow id entry (.answered row)) := by
  unfold served Entry.item Entry.after
  cases hsample : entry.seq.sampler.sampleWithLogprobs sampleRow row
      ⟨entry.request.promptIds, entry.seq.generatedIds⟩ with
  | ok next =>
      simp only [Sequence.turn, Sequence.answer, hsample]
      exact deliverSampled_eq h hrun hopen next
  | error status =>
      simp only [Sequence.turn, Sequence.answer, hsample, emit_none]
      exact fail_eq h hrun status

omit [Zero α] in
theorem refuse_eq (sampleRow : SampleRow) (h : e.requests.lookup id = some entry)
    (hrun : entry.seq.state = .running) (status : Status) :
    e.fail id status = .ok (e.served sampleRow id entry (.refused status)) := by
  rw [fail_eq h hrun, served]
  simp only [Entry.item, Entry.after, Sequence.turn, emit_none]

omit [Zero α] in
theorem Sound.served {sampleRow : SampleRow} {t : Turn} (hs : e.Sound (id :: fresh) [])
    (h : e.requests.lookup id = some entry) (hrun : entry.seq.state = .running)
    (ht : t ≠ .waits) : (e.served sampleRow id entry t).Sound fresh [] := by
  cases t with
  | waits => exact absurd rfl ht
  | refused status =>
      unfold EngineLoop.served Entry.item Entry.after
      simp only [Sequence.turn, emit_none]
      exact hs.fail h hrun status
  | answered row =>
      unfold EngineLoop.served Entry.item Entry.after
      cases hsample : entry.seq.sampler.sampleWithLogprobs sampleRow row
          ⟨entry.request.promptIds, entry.seq.generatedIds⟩ with
      | ok next =>
          simp only [Sequence.turn, Sequence.answer, hsample]
          exact hs.deliver h hrun next
      | error status =>
          simp only [Sequence.turn, Sequence.answer, hsample, emit_none]
          exact hs.fail h hrun status

theorem touched_served {sampleRow : SampleRow} (h : e.requests.lookup id = some entry) (t : Turn) :
    e.Touched [id] (e.served sampleRow id entry t) :=
  (touched_emit e id _).trans (touched_setSeq (e := e.emit id _) h _)

omit [Zero α] in
theorem lookup_served {sampleRow : SampleRow} (t : Turn) :
    (e.served sampleRow id entry t).requests.lookup id
      = some { entry with seq := entry.after sampleRow t } :=
  AList.lookup_insert _

omit [Zero α] in
theorem outbox_served {sampleRow : SampleRow} (t : Turn) :
    (e.served sampleRow id entry t).outbox.filter (·.id = id)
      = e.outbox.filter (·.id = id) ++ (entry.item sampleRow t).toList.map (.push id) := by
  show (e.outbox ++ _).filter _ = _
  rw [List.filter_append]
  congr 1
  cases entry.item sampleRow t <;> simp [ChannelOp.id]

end EngineLoop

/-! ### What the model's answer says

A model that keeps its contract grows the cache by the tokens it was fed when it succeeds, and
may leave part of them when it fails. -/

section

variable [Zero α]

/-- The turn of a member that was served by a model that keeps its contract.  A decode that the
model refuses for want of room fails when there is nobody left to evict. -/
def Turn.Lawful (may : Answers α) (prefill : Bool) (g₀ : KvLog α) (tokens : List Int) :
    Turn → KvLog α → Prop
  | .waits, _ => True
  | .answered row, g => may g₀ tokens (.ok (row, g))
  | .refused status, _ => may g₀ tokens (.error status) ∨
      (prefill = false ∧ status = EngineLoop.noVictimError ∧
        ∃ s, s.code = .resourceExhausted ∧ may g₀ tokens (.error s))

/-- A member's cache after its turn, and what it holds. -/
structure Served (may : Answers α) (prefill : Bool) (entry : Entry) (g₀ : KvLog α) (t : Turn)
    (c : PagedKvCache) (g : KvLog α) : Prop where
  lawful : t.Lawful may prefill g₀ (entry.passTokens prefill) g
  length_le : c.length ≤ entry.seq.held.length + (entry.passTokens prefill).length
  committed : ∀ row, t = .answered row → c.nextLayer = 0 ∧
    c.length = entry.seq.held.length + (entry.passTokens prefill).length

end

namespace EngineLoop

variable [Zero α] {e e' e'' : EngineLoop σ α} {id : Nat} {entry : Entry} {fresh : List Nat}
  {S : Services σ α} {L : Prop} {may : Answers α} {goal : Nat → Nat} {prefill : Bool}

/-- Nobody else has used the pool, and no append has found it empty. -/
structure Quiet (e e' : EngineLoop σ α) : Prop where
  others : e'.shared.others = e.shared.others
  exhaustions : e'.shared.pool.exhaustions = e.shared.pool.exhaustions

omit [Zero α] in
theorem Quiet.trans (h : e.Quiet e') (h' : e'.Quiet e'') : e.Quiet e'' :=
  ⟨h'.others.trans h.others, h'.exhaustions.trans h.exhaustions⟩

/-- A member that a model which keeps its contract can serve alone. -/
structure Servable (S : Services σ α) (may : Answers α) (goal : Nat → Nat) (prefill : Bool)
    (e : EngineLoop σ α) (id : Nat) (entry : Entry) : Prop where
  contract : S.model.Contract may
  geometry : e.shared.pool.geom = S.model.geometry
  fits : e.Fits goal
  formed : (entry.alone prefill).Formed
  length_le : entry.seq.held.length + (entry.passTokens prefill).length ≤ goal id

/-- What one call of `ExecuteAndDeliver` leaves: the member has had its turn, or a decode that
the model refused for want of room is to be tried again. -/
structure Attempted (S : Services σ α) (L : Prop) (may : Answers α) (prefill : Bool)
    (e : EngineLoop σ α) (id : Nat) (entry : Entry) (fresh : List Nat)
    (advanced : Bool) (e' : EngineLoop σ α) : Prop where
  touched : e.Touched [id] e'
  waiting : e'.waiting = e.waiting
  running : e'.running = e.running
  quiet : L → e.Quiet e'
  outcome : (advanced = true ∧ ∃ t c, t ≠ .waits ∧ e'.Sound fresh [] ∧
      e'.requests.lookup id
        = some { entry with seq := { entry.after S.sampleRow t with cache := some c } } ∧
      e'.outbox.filter (·.id = id) = e.outbox.filter (·.id = id)
        ++ (entry.item S.sampleRow t).toList.map (.push id) ∧
      (L → Served may prefill entry (entry.seq.held.log e.shared.pool) t c
        (c.log e'.shared.pool))) ∨
    (advanced = false ∧ prefill = false ∧ ∃ c, e'.Sound (id :: fresh) [] ∧
      e'.requests.lookup id = some (entry.withCache c) ∧ e'.outbox = e.outbox ∧
      (L → c = entry.seq.held ∧ c.log e'.shared.pool = c.log e.shared.pool ∧
        ∃ s, s.code = .resourceExhausted ∧
          may (entry.seq.held.log e.shared.pool) (entry.passTokens prefill) (.error s)))

omit [Zero α] in
/-- The members of a standalone forward. -/
theorem members_singleton (h : e.requests.lookup id = some entry) (hr : entry.seq.Ready) :
    e.Members [(id, entry)] :=
  ⟨fun m hm => by rw [List.mem_singleton.mp hm]; exact h, List.nodup_singleton _,
    fun m hm => by rw [List.mem_singleton.mp hm]; exact hr⟩

omit [Zero α] in
/-- `ExecuteAndDeliver`, from the forward on. -/
theorem executeAndDeliver_eq (h : e.requests.lookup id = some entry)
    (hc : entry.seq.cache = some entry.seq.held)
    (hgen : prefill = false → entry.seq.generatedIds ≠ []) :
    e.executeAndDeliver S prefill id
      = (e.forward S [id] ⟨false, [entry.alone prefill]⟩ >>= fun r => match r.1 with
        | .error status =>
            if !prefill && status.code = .resourceExhausted then pure (false, r.2)
            else do
              let e ← r.2.fail id status
              pure (true, e)
        | .ok logits => do
            let row ← lastRow logits
            match entry.seq.sampler.sampleWithLogprobs S.sampleRow row
                ⟨entry.request.promptIds, entry.seq.generatedIds⟩ with
            | .error status => do
                let e ← r.2.fail id status
                pure (true, e)
            | .ok next => do
                let e ← r.2.deliverSampled id next
                pure (true, e)) := by
  unfold EngineLoop.executeAndDeliver Entry.alone Entry.passTokens
  rw [entry_eq h]
  simp only [bind, Except.bind]
  rw [hc]
  cases prefill with
  | true => rfl
  | false =>
      obtain ⟨token, htoken⟩ := List.getLast?_isSome.mpr (hgen rfl) |> Option.isSome_iff_exists.mp
      simp only [htoken]
      rfl

variable {called : Model.Called σ α}

/-- A forward of its own is lawful where the member is servable. -/
theorem Servable.lawful (hsv : e.Servable S may goal prefill id entry)
    (hs : e.Sound (id :: fresh) []) (hm : e.Members [(id, entry)])
    (hcall : S.model.call e.state ⟨false, [entry.alone prefill]⟩ e.shared = .ok called) :
    Lawful S.model e.state ⟨false, [entry.alone prefill]⟩ e.shared called := by
  have hroom := hsv.fits.room_for hs hm (fun m => m.2.alone prefill) (fun _ _ => rfl)
    fun m hmem => by rw [List.mem_singleton.mp hmem]; exact hsv.length_le
  exact (S.model.call_lawful hsv.contract e.state ⟨false, [entry.alone prefill]⟩
    (fun fs hfs => by rw [List.mem_singleton.mp hfs]; exact hsv.formed) hsv.geometry
    (hs.poolBooks hm) hroom).of_eq hcall

section

variable {c : PagedKvCache} (hs : e.Sound (id :: fresh) [])
  (h : e.requests.lookup id = some entry) (hr : entry.seq.Ready)
  (hfwd : e.Forwarded [(id, entry)] called)
  (hkept : LogsKept (e.bystanders [(id, entry)]) e.shared.pool called.shared.pool)
  (hquiet : L → e.Quiet (e.forwarded [(id, entry)] called)) (hc : called.caches[0]? = some c)

include hs h hr hfwd hkept hquiet hc

/-- **One turn**, whatever it came to, after a forward of its own. -/
theorem Attempted.turn {t : Turn} (ht : t ≠ .waits)
    (hserved : L → Served may prefill entry (entry.seq.held.log e.shared.pool) t c
      (c.log called.shared.pool)) :
    Attempted S L may prefill e id entry fresh true
      ((e.forwarded [(id, entry)] called).served S.sampleRow id (entry.withCache c) t) := by
  have hm := members_singleton h hr
  have hl : (e.forwarded [(id, entry)] called).requests.lookup id = some (entry.withCache c) :=
    hfwd.lookup_member hm (i := 0) (m := (id, entry)) rfl hc
  refine ⟨(touched_forwarded hs hm hfwd hkept).trans (touched_served hl t), rfl, rfl,
    fun hL => ⟨(hquiet hL).1, (hquiet hL).2⟩,
    Or.inl ⟨rfl, t, c, ht, (hs.forwarded hm hfwd).served hl hr.1 ht, ?_, ?_, hserved⟩⟩
  · rw [lookup_served, Entry.after_withCache]
    rfl
  · rw [outbox_served, Entry.item_withCache]
    rfl

/-- **The model has refused.**  A decode for which there is no room is tried again, and anything
else is the member's own failure. -/
theorem Attempted.onRefusal {status : Status} (hans : called.logits = .error status)
    (hL : L → e.Servable S may goal prefill id entry)
    (hlaw : L → Lawful S.model e.state ⟨false, [entry.alone prefill]⟩ e.shared called) :
    (if !prefill && status.code = .resourceExhausted then
        pure (false, e.forwarded [(id, entry)] called)
      else do
        let e ← (e.forwarded [(id, entry)] called).fail id status
        pure (true, e) : Checked (Bool × EngineLoop σ α)).Returns fun r =>
      Attempted S L may prefill e id entry fresh r.1 r.2 := by
  have hm := members_singleton h hr
  have hl : (e.forwarded [(id, entry)] called).requests.lookup id = some (entry.withCache c) :=
    hfwd.lookup_member hm (i := 0) (m := (id, entry)) rfl hc
  by_cases hretry : (!prefill && decide (status.code = .resourceExhausted)) = true
  · rw [if_pos hretry]
    rw [Bool.and_eq_true, Bool.not_eq_true', decide_eq_true_eq] at hretry
    refine returns_pure ⟨touched_forwarded hs hm hfwd hkept, rfl, rfl, hquiet,
      Or.inr ⟨rfl, hretry.1, c, hs.forwarded hm hfwd, hl, rfl, fun hL' => ?_⟩⟩
    obtain ⟨hmay, c', hc', _, hsame⟩ :=
      (hlaw hL').refused (hL hL').contract (hL hL').formed hans
    rw [hc] at hc'
    cases hc'
    obtain ⟨hcache, hlog⟩ := hsame hretry.2
    exact ⟨hcache, hlog, status, hretry.2, hmay⟩
  · rw [if_neg hretry, refuse_eq S.sampleRow hl hr.1]
    refine returns_pure (Attempted.turn hs h hr hfwd hkept hquiet hc (by simp) fun hL' => ?_)
    obtain ⟨hmay, c', hc', hle, _⟩ := (hlaw hL').refused (hL hL').contract (hL hL').formed hans
    rw [hc] at hc'
    cases hc'
    exact ⟨Or.inl hmay, hle, fun row hrow => by simp at hrow⟩

end

/-- **`ExecuteAndDeliver`** serves the member or asks for another try. -/
theorem Sound.executeAndDeliver (hS : S.model.Shaped) (hs : e.Sound (id :: fresh) [])
    (h : e.requests.lookup id = some entry) (hr : entry.seq.Ready)
    (hgen : prefill = false → entry.seq.generatedIds ≠ [])
    (hL : L → e.Servable S may goal prefill id entry) :
    (e.executeAndDeliver S prefill id).Returns fun r =>
      Attempted S L may prefill e id entry fresh r.1 r.2 := by
  have hm := members_singleton h hr
  rw [executeAndDeliver_eq h hr.cache_eq hgen]
  obtain ⟨r, hrun, called, hcall, rfl, hfwd, hkept, hlogits⟩ :=
    hs.forward hm S ⟨false, [entry.alone prefill]⟩ rfl
  have hrun' : e.forward S [id] ⟨false, [entry.alone prefill]⟩
      = .ok (called.logits, e.forwarded [(id, entry)] called) := hrun
  rw [hrun']
  -- the member's entry after the forward: the same sequence with another cache
  have hone : 0 < called.caches.length := by
    rw [hfwd.length]
    exact Nat.one_pos
  obtain ⟨c, hc⟩ : ∃ c, called.caches[0]? = some c := ⟨_, List.getElem?_eq_getElem hone⟩
  have hl : (e.forwarded [(id, entry)] called).requests.lookup id = some (entry.withCache c) :=
    hfwd.lookup_member hm (i := 0) (m := (id, entry)) rfl hc
  have hlaw := fun hl : L => (hL hl).lawful hs hm hcall
  have hquiet : L → e.Quiet (e.forwarded [(id, entry)] called) := fun hl =>
    ⟨(hlaw hl).others, (hlaw hl).exhaustions⟩
  show Returns (match called.logits with | .error status => _ | .ok logits => _) _
  cases hans : called.logits with
  | error status => exact Attempted.onRefusal hs h hr hfwd hkept hquiet hc hans hL hlaw
  | ok logits =>
      have hdims := hS.dims _ _ _ _ (hlogits logits hans)
      have hvocab : 0 < S.model.vocabSize.toNat := by
        have := hS.vocab_pos
        omega
      simp only
      rw [lastRow_eq hdims hvocab]
      have hanswer : (match entry.seq.sampler.sampleWithLogprobs S.sampleRow
          (BatchedSampler.row logits.values S.model.vocabSize.toNat 0)
          ⟨entry.request.promptIds, entry.seq.generatedIds⟩ with
        | .ok next => (e.forwarded [(id, entry)] called).deliverSampled id next
        | .error status => (e.forwarded [(id, entry)] called).fail id status) = .ok _ :=
        answer_eq hl hr.1 ((hs.forwarded hm hfwd).open_of_lookup hl) _
      have hat := Attempted.turn (S := S) hs h hr hfwd hkept hquiet hc
        (t := .answered (BatchedSampler.row logits.values S.model.vocabSize.toNat 0))
        (by simp) fun hl => by
          obtain ⟨c', hc', hmay, hnext, hlen⟩ := (hlaw hl).answered (hL hl).contract
            (fun fs hfs => by rw [List.mem_singleton.mp hfs]; exact (hL hl).formed)
            (hL hl).geometry hs.exclusive.layers_pos hans (b := 0) rfl
          rw [hc] at hc'
          cases hc'
          exact ⟨hmay, hlen.le, fun _ _ => ⟨hnext, hlen⟩⟩
      simp only [bind, Except.bind]
      revert hanswer
      cases entry.seq.sampler.sampleWithLogprobs S.sampleRow
          (BatchedSampler.row logits.values S.model.vocabSize.toNat 0)
          ⟨entry.request.promptIds, entry.seq.generatedIds⟩ with
      | error status =>
          intro hanswer
          simp only at hanswer ⊢
          rw [hanswer]
          exact returns_pure hat
      | ok next =>
          intro hanswer
          simp only at hanswer ⊢
          rw [hanswer]
          exact returns_pure hat

end EngineLoop

end InferenceEngine
