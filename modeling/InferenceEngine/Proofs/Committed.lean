/-
What a running sequence has committed.

Between two passes the cache of a running sequence holds all its tokens but the last: a
prefill commits the whole context, a decode commits the token that was delivered before it,
and each delivers one token more.  Within a pass the members are behind: one that is to be
served lacks exactly the tokens it feeds, and one whose batched forward has failed may hold
any number of them until its cache is cut back.
-/
import InferenceEngine.Proofs.EngineRuns

namespace InferenceEngine

open Except

variable {σ α : Type}

/-! ### Sequences

The states a member goes through in a pass, each with the number of its tokens that its cache
holds. -/

namespace Entry

variable {entry : Entry} {prefill : Bool} {preLen : Nat} {seq : Sequence}

/-- A sequence between two passes. -/
structure Committed (entry : Entry) : Prop where
  running : entry.seq.state = .running → ∃ c, entry.seq.cache = some c ∧ c.nextLayer = 0 ∧
    c.length + 1 = entry.context
  waiting : entry.seq.state = .waiting →
    entry.seq.cache = some .new ∧ entry.seq.numComputedTokens = 0
  preempted : entry.seq.state = .preempted →
    entry.seq.cache = none ∧ entry.seq.numComputedTokens = 0

/-- A member of a pass that is to be served: its cache lacks the tokens it feeds. -/
structure Due (entry : Entry) (prefill : Bool) : Prop where
  running : entry.seq.state = .running
  tokens : entry.passTokens prefill ≠ []
  cache : ∃ c, entry.seq.cache = some c ∧ c.nextLayer = 0 ∧
    c.length + (entry.passTokens prefill).length = entry.context

/-- A member of a pass that is not built yet. -/
structure Seated (entry : Entry) (prefill : Bool) : Prop where
  running : entry.seq.state = .running
  due : entry.passTokens prefill ≠ [] → entry.Due prefill

/-- A member whose forward has been answered: its cache holds every token it has. -/
structure Answered (entry : Entry) : Prop where
  running : entry.seq.state = .running
  cache : ∃ c, entry.seq.cache = some c ∧ c.nextLayer = 0 ∧ c.length = entry.context

/-- A member whose batched forward has failed, with the length it had before. -/
structure Opened (entry : Entry) (prefill : Bool) (preLen : Nat) : Prop where
  running : entry.seq.state = .running → entry.passTokens prefill ≠ [] ∧
    preLen + (entry.passTokens prefill).length = entry.context ∧
    ∃ c, entry.seq.cache = some c ∧ preLen ≤ c.length
  idle : entry.seq.state ≠ .running → entry.Committed

theorem committed_of_ended
    (h : entry.seq.state = .finished ∨ entry.seq.state = .failed ∨ entry.seq.state = .cancelled) :
    entry.Committed := by
  refine ⟨fun hs => ?_, fun hs => ?_, fun hs => ?_⟩ <;> rw [hs] at h <;> simp at h

theorem committed_evicted (entry : Entry) :
    ({ entry with seq := entry.seq.evicted } : Entry).Committed := by
  refine ⟨fun h => ?_, fun h => ?_, fun _ => ⟨rfl, rfl⟩⟩
  · cases h
  · cases h

theorem committed_failed (entry : Entry) (status : Status) :
    ({ entry with seq := entry.seq.failed status } : Entry).Committed :=
  committed_of_ended (Or.inr (Or.inl rfl))

theorem committed_unstarted (h : EngineLoop.Unstarted entry.seq) : entry.Committed := by
  refine ⟨fun hs => ?_, fun _ => ⟨h.cache, h.numComputedTokens⟩, fun hs => ?_⟩ <;>
    rw [h.state] at hs <;> cases hs

theorem passTokens_true (entry : Entry) : (entry.passTokens true).length = entry.context :=
  List.length_append

/-- A decode feeds one token. -/
theorem passTokens_false (h : entry.passTokens false ≠ []) :
    (entry.passTokens false).length = 1 := by
  unfold passTokens at h ⊢
  simp only [Bool.false_eq_true, if_false] at h ⊢
  cases hlast : entry.seq.generatedIds.getLast? with
  | none => rw [hlast] at h; exact absurd rfl h
  | some token => rfl

/-- A running sequence can be a member of a decode pass. -/
theorem Committed.seated (h : entry.Committed) (hrun : entry.seq.state = .running) :
    entry.Seated false := by
  obtain ⟨c, hc, hnext, hlen⟩ := h.running hrun
  refine ⟨hrun, fun htok => ⟨hrun, htok, c, hc, hnext, ?_⟩⟩
  rw [passTokens_false htok]
  exact hlen

/-- A sequence that was parked can be a member of a prefill pass. -/
theorem seated_admitted (h : entry.Committed)
    (hstate : entry.seq.state = .waiting ∨ entry.seq.state = .preempted) :
    ({ entry with seq := { entry.seq.ensureCache with state := .running } } : Entry).Seated true ∧
      ({ entry with seq := { entry.seq.ensureCache with state := .running } } : Entry).drift
        = -(entry.context : Int) := by
  have hcache : entry.seq.ensureCache = { entry.seq with cache := some .new } ∧
      entry.seq.numComputedTokens = 0 := by
    unfold Sequence.ensureCache
    rcases hstate with hs | hs
    · obtain ⟨hc, hzero⟩ := h.waiting hs
      rw [hc]
      refine ⟨?_, hzero⟩
      show entry.seq = _
      rw [← hc]
    · obtain ⟨hc, hzero⟩ := h.preempted hs
      rw [hc]
      exact ⟨rfl, hzero⟩
  rw [hcache.1]
  refine ⟨⟨rfl, fun htok => ⟨rfl, htok, .new, rfl, rfl, ?_⟩⟩, ?_⟩
  · rw [passTokens_true]
    exact Nat.zero_add _
  · unfold drift
    show entry.seq.numComputedTokens - (entry.context : Int) = _
    rw [hcache.2, zero_sub]

/-- A token delivered to a member that has been answered. -/
theorem Answered.deliver (h : entry.Answered) (next : SampleResult) :
    ({ entry with seq := (entry.seq.deliver next).1 } : Entry).Committed := by
  obtain ⟨c, hc, hnext, hlen⟩ := h.cache
  obtain ⟨hcache, hgen, hstate⟩ := Sequence.deliver_cases h.running next
  rcases hstate with ⟨hs, _⟩ | ⟨hs, _⟩ | ⟨hs, _⟩
  · refine ⟨fun _ => ⟨c, hcache.trans hc, hnext, ?_⟩, fun hw => ?_, fun hp => ?_⟩
    · unfold context at hlen ⊢
      rw [hgen, List.length_append, List.length_singleton, hlen, Nat.add_assoc]
    · rw [hs] at hw
      cases hw
    · rw [hs] at hp
      cases hp
  · exact committed_of_ended (Or.inl hs)
  · exact committed_of_ended (Or.inr (Or.inl hs))

theorem Due.held (h : entry.Due prefill) : entry.seq.cache = some entry.seq.held ∧
    entry.seq.held.nextLayer = 0 ∧
    entry.seq.held.length + (entry.passTokens prefill).length = entry.context := by
  obtain ⟨c, hc, hnext, hlen⟩ := h.cache
  have hheld : entry.seq.held = c := by simp [Sequence.held, hc]
  rw [hheld]
  exact ⟨hc, hnext, hlen⟩

/-- A prefill starts from an empty cache. -/
theorem Due.empty (h : entry.Due true) : entry.seq.held.length = 0 := by
  have := h.held.2.2
  rw [passTokens_true] at this
  omega

theorem Due.formed (h : entry.Due prefill) : (entry.alone prefill).Formed := by
  refine ⟨h.tokens, ?_, h.held.2.1⟩
  cases prefill with
  | true =>
      show positionsFrom 0 _ = positionsFrom entry.seq.held.length _
      rw [h.empty]
      rfl
  | false => rfl

end Entry

namespace EngineLoop

variable {e e' : EngineLoop σ α} {id : Nat} {entry : Entry} {S : Services σ α}
  {prefill : Bool} {called : Model.Called σ α}

/-! ### Lookups after a forward

A forward writes the caches of its members back and leaves every other entry alone. -/

theorem lookup_afterForward_of_not_mem {members : List Nat} (h : id ∉ members) :
    (e.afterForward members called).requests.lookup id = e.requests.lookup id := by
  refine lookup_writeBack_of_not_mem fun hc => h ?_
  obtain ⟨mc, hmc, rfl⟩ := List.mem_map.mp hc
  exact (List.of_mem_zip hmc).1

theorem lookup_afterForward {members : List Nat} {b : Nat} {c : PagedKvCache}
    (hnd : members.Nodup) (hlen : called.caches.length = members.length)
    (hid : members[b]? = some id) (hc : called.caches[b]? = some c)
    (h : e.requests.lookup id = some entry) :
    (e.afterForward members called).requests.lookup id = some (entry.withCache c) := by
  refine lookup_writeBack ?_ ?_ h
  · rw [List.map_fst_zip hlen.ge]
    exact hnd
  · refine List.mem_of_getElem? (i := b) ?_
    rw [List.getElem?_zip_eq_some]
    exact ⟨hid, hc⟩

/-! ### What a pass is built of

The tokens a member feeds and the length its cache had before are recorded when the pass is
built.  A recovery uses both. -/

private theorem forall₂_getElem? {γ δ : Type} {P : γ → δ → Prop} {l : List γ} {l' : List δ}
    (h : List.Forall₂ P l l') {b : Nat} {x : γ} (hx : l[b]? = some x) :
    ∃ y, l'[b]? = some y ∧ P x y := by
  induction h generalizing b with
  | nil => simp at hx
  | cons hxy _ ih =>
      cases b with
      | zero =>
          cases hx
          exact ⟨_, rfl, hxy⟩
      | succ b => exact ih hx

theorem buildPassInput_ensures (e : EngineLoop σ α) (prefill : Bool) (id : Nat) :
    (e.buildPassInput prefill id).Ensures fun s => ∃ entry, e.requests.lookup id = some entry ∧
      s.tokenIds = entry.passTokens prefill ∧ s.cache = entry.seq.cache := by
  unfold buildPassInput
  refine Ensures.bind (entry_ensures e id) fun entry hl => ?_
  cases prefill with
  | true => exact ensures_pure ⟨entry, hl, rfl, rfl⟩
  | false =>
      simp only [Bool.false_eq_true, if_false]
      cases hlast : entry.seq.generatedIds.getLast? with
      | none => exact ensures_throw _
      | some token =>
          refine ensures_pure ⟨entry, hl, ?_, rfl⟩
          simp [Entry.passTokens, hlast]

theorem cacheLength_ensures (e : EngineLoop σ α) (id : Nat) :
    (e.cacheLength id).Ensures fun n => ∃ entry cache, e.requests.lookup id = some entry ∧
      entry.seq.cache = some cache ∧ n = cache.length := by
  unfold cacheLength
  refine Ensures.bind (entry_ensures e id) fun entry hl => ?_
  cases hc : entry.seq.cache with
  | none => exact ensures_throw _
  | some cache => exact ensures_pure ⟨entry, cache, hl, hc, rfl⟩

/-- What a forward is asked of a sequence that has been staged. -/
def Staged (s : BatchSeqInput) (fs : ForwardSeq) : Prop :=
  ∃ cache, s.cache = some cache ∧ s.tokenIds ≠ [] ∧
    fs = ⟨s.tokenIds, positionsFrom cache.length s.tokenIds.length, cache⟩

theorem flattenOne_ensures (decode : Bool) (b : Nat) (s : BatchSeqInput) :
    (BatchAssembler.flattenOne decode b s).Ensures (Staged s) := by
  unfold BatchAssembler.flattenOne
  cases hc : s.cache with
  | none => exact ensures_error _
  | some cache =>
      simp only
      by_cases hs : s.sampler.isNone = true
      · rw [if_pos hs]
        exact ensures_error _
      · rw [if_neg hs]
        by_cases hlen : s.tokenIds.length < 1
        · rw [if_pos hlen]
          exact ensures_error _
        · rw [if_neg hlen]
          by_cases hd : (decode && decide (s.tokenIds.length ≠ 1)) = true
          · rw [if_pos hd]
            exact ensures_error _
          · rw [if_neg hd]
            refine ensures_ok ⟨cache, hc, ?_, rfl⟩
            rintro hnil
            rw [hnil] at hlen
            simp at hlen

theorem flatten_ensures (decode : Bool) (seqs : List BatchSeqInput) :
    (BatchAssembler.flatten decode seqs).Ensures fun inputs =>
      List.Forall₂ (fun bs fs => Staged bs.2 fs) (seqs.mapIdx fun b s => (b, s)) inputs.seqs :=
  Ensures.bind (Ensures.mapM fun bs _ => flattenOne_ensures decode bs.1 bs.2) fun _ h =>
    ensures_pure h

/-- A pass, member by member. -/
structure Built (e : EngineLoop σ α) (prefill : Bool) (pass : List Nat) (seqs : List ForwardSeq)
    (preLen : List Nat) : Prop where
  length : seqs.length = pass.length
  member : ∀ (b : Nat) id, pass[b]? = some id → ∃ entry cache, e.requests.lookup id = some entry ∧
    entry.seq.cache = some cache ∧ entry.passTokens prefill ≠ [] ∧
    preLen[b]? = some cache.length ∧
    seqs[b]? = some ⟨entry.passTokens prefill,
      positionsFrom cache.length (entry.passTokens prefill).length, cache⟩

theorem Ran.assembly {pass preLen : List Nat} {seqs : List BatchSeqInput} {inputs : BatchInputs}
    (h : Ran S prefill pass e seqs inputs preLen called e') :
    Built e prefill pass inputs.seqs preLen := by
  have hseqs := Ensures.mapM (fun id _ => buildPassInput_ensures e prefill id) _ h.built
  have hlens := Ensures.mapM (fun id _ => cacheLength_ensures e id) _ h.lengths
  have hstaged := flatten_ensures _ _ _ h.assembled
  refine ⟨?_, fun b id hid => ?_⟩
  · rw [← hstaged.length_eq, List.length_mapIdx, ← hseqs.length_eq]
  · obtain ⟨s, hs, entry, hl, htok, hcache⟩ := forall₂_getElem? hseqs hid
    obtain ⟨n, hn, entry', cache, hl', hc, rfl⟩ := forall₂_getElem? hlens hid
    obtain ⟨fs, hfs, cache', hc', hne, rfl⟩ := forall₂_getElem? hstaged (b := b) (x := (b, s))
      (by rw [List.getElem?_mapIdx, hs]; rfl)
    rw [hl] at hl'
    cases hl'
    rw [hcache, hc] at hc'
    cases hc'
    rw [htok] at hne hfs
    exact ⟨entry, cache, hl, hc, hne, hn, hfs⟩

/-- The length a recovery cuts a member's cache back to. -/
theorem Built.preForwardLength_eq {pass preLen : List Nat} {seqs : List ForwardSeq}
    (h : Built e prefill pass seqs preLen) (hid : id ∈ pass) :
    ∃ (b : Nat) (cache : PagedKvCache), pass[b]? = some id ∧ preLen[b]? = some cache.length ∧
      preForwardLength pass preLen id = cache.length := by
  cases hb : pass.idxOf? id with
  | none => exact absurd hid (List.idxOf?_eq_none_iff.mp hb)
  | some b =>
      obtain ⟨hlt, heq, _⟩ := List.idxOf?_eq_some_iff.mp hb
      have hget : pass[b]? = some id := by
        rw [List.getElem?_eq_getElem hlt, heq]
      obtain ⟨entry, cache, _, _, _, hpre, _⟩ := h.member b id hget
      refine ⟨b, cache, hget, hpre, ?_⟩
      unfold preForwardLength
      simp only [hb]
      rw [List.getD_eq_getElem?_getD, hpre]
      rfl

section

variable [Zero α] {may : Answers α}

/-! ### A member served alone

Every try either answers the member or leaves its cache as it was.  An eviction drops the cache
of somebody else, who is then parked. -/

/-- What one try leaves of the member, and of everybody else. -/
structure Tried (e : EngineLoop σ α) (prefill : Bool) (id : Nat) (advanced : Bool)
    (e' : EngineLoop σ α) : Prop where
  other : ∀ id', id' ≠ id → e'.requests.lookup id' = e.requests.lookup id'
  served : advanced = true → ∀ entry', e'.requests.lookup id = some entry' → entry'.Committed
  refused : advanced = false → ∃ entry', e'.requests.lookup id = some entry' ∧ entry'.Due prefill

theorem Attempt.tried {advanced : Bool} (hm : S.model.Contract may)
    (hpos : 0 < S.model.geometry.numLayers)
    (h : Attempt S prefill e id entry called advanced e')
    (hgeom : e.shared.pool.geom = S.model.geometry) (hdue : entry.Due prefill) :
    Tried e prefill id advanced e' := by
  have hcount := S.model.call_counts hm e.state ⟨false, [entry.alone prefill]⟩ e.shared
    (fun fs hfs => by rw [List.mem_singleton.mp hfs]; exact hdue.formed) hgeom hpos _ h.call
  have hlook : ∀ {c}, called.caches[0]? = some c →
      (e.afterForward [id] called).requests.lookup id = some (entry.withCache c) := fun hc =>
    lookup_afterForward (List.nodup_singleton id) hcount.caches rfl hc h.lookup
  have hother : ∀ id', id' ≠ id →
      (e.afterForward [id] called).requests.lookup id' = e.requests.lookup id' :=
    fun id' hne => lookup_afterForward_of_not_mem (by simp [hne])
  have hset : ∀ {e₁ : EngineLoop σ α} {entry₁ : Entry} {seq : Sequence} {id' : Nat}, id' ≠ id →
      (e₁.setSeq id entry₁ seq).requests.lookup id' = e₁.requests.lookup id' :=
    fun hne => AList.lookup_insert_ne hne
  obtain ⟨_, hnext, hlen⟩ := hdue.held
  have hself : ∀ {e₁ : EngineLoop σ α} {entry₁ entry' : Entry} {seq : Sequence},
      (e₁.setSeq id entry₁ seq).requests.lookup id = some entry' →
        ({ entry₁ with seq := seq } : Entry) = entry' :=
    fun hl => ((lookup_setSeq.mp hl).resolve_right fun hc => hc.1 rfl).2
  rcases h.outcome with ⟨rfl, _, rfl, status, hans, hcode⟩ | ⟨rfl, ⟨status, hfail⟩ | hdeliver⟩
  · refine ⟨hother, fun hc => absurd hc Bool.false_ne_true, fun _ => ?_⟩
    obtain ⟨c, hc, hnext', hlen'⟩ := hcount.exhausted _ status rfl hans hcode
    refine ⟨_, hlook (by rw [hc]; rfl), hdue.running, hdue.tokens, c, rfl, hnext', ?_⟩
    rw [hlen']
    exact hlen
  · obtain ⟨entry₁, _, rfl⟩ := fail_ensures _ id status _ hfail
    refine ⟨fun id' hne => (hset hne).trans (hother id' hne), fun _ entry' hl => ?_,
      fun hc => absurd hc.symm Bool.false_ne_true⟩
    rw [← hself hl]
    exact Entry.committed_failed entry₁ status
  · obtain ⟨logits, next, hans, hdel⟩ := hdeliver
    obtain ⟨entry₁, hl₁, rfl⟩ := deliverSampled_ensures _ id next _ hdel
    obtain ⟨c, hc, hnext', hlen'⟩ := hcount.answered logits hans 0 _ rfl
    rw [hlook hc] at hl₁
    cases hl₁
    refine ⟨fun id' hne => (hset hne).trans (hother id' hne), fun _ entry' hl => ?_,
      fun hc => absurd hc.symm Bool.false_ne_true⟩
    rw [← hself hl]
    have hanswered : (entry.withCache c).Answered :=
      ⟨hdue.running, c, rfl, hnext', hlen'.trans hlen⟩
    exact hanswered.deliver next

theorem executeAndDeliver_tried (hm : S.model.Contract may)
    (hpos : 0 < S.model.geometry.numLayers) (hgeom : e.shared.pool.geom = S.model.geometry)
    (hl : e.requests.lookup id = some entry) (hdue : entry.Due prefill) :
    (e.executeAndDeliver S prefill id).Ensures fun r =>
      Tried e prefill id r.1 r.2 ∧ r.2.shared.pool.geom = e.shared.pool.geom := by
  refine (executeAndDeliver_ensures S e prefill id).mono ?_
  rintro r ⟨entry', called, hat⟩
  have hl' := hat.lookup
  rw [hl] at hl'
  cases hl'
  exact ⟨hat.tried hm hpos hgeom hdue, hat.revised.geom⟩

omit [Zero α] in
theorem pickVictim_ne (e : EngineLoop σ α) (exclude : Nat) :
    (e.pickPreemptionVictim exclude).Ensures fun v => v = 0 ∨ v ≠ exclude := by
  unfold pickPreemptionVictim
  refine Ensures.bind (Ensures.foldlM_invariant (I := fun best : Nat × Nat =>
    best.1 = 0 ∨ best.1 ≠ exclude) ?_ e.running (Or.inl rfl)) fun best h => ensures_pure h
  intro best id h
  unfold scanVictim
  by_cases hex : id = exclude
  · rw [if_pos hex]
    exact ensures_pure h
  · rw [if_neg hex]
    refine Ensures.bind (ensures_self _) fun entry _ => ?_
    by_cases hrun : entry.seq.state = .running
    · rw [if_neg (fun hc => hc hrun)]
      by_cases hlate : best.1 = 0 ∨ best.2 < entry.request.arrivalIndex
      · simp only [if_pos hlate]
        exact ensures_pure (Or.inr hex)
      · simp only [if_neg hlate]
        exact ensures_pure h
    · rw [if_pos hrun]
      exact ensures_pure h

/-- Every live sequence satisfies a property that may depend on its id. -/
def Each (P : Nat → Entry → Prop) (e : EngineLoop σ α) : Prop :=
  ∀ id entry, e.requests.lookup id = some entry → P id entry

omit [Zero α] in
theorem Each.evict {P : Nat → Entry → Prop} {pool : BlockPool α} (h : e.Each P)
    (hP : P id { entry with seq := entry.seq.evicted }) : (e.evict id entry pool).Each P := by
  intro id' entry' hl
  rcases IdMap.lookup_insert_iff.mp hl with ⟨rfl, rfl⟩ | ⟨_, hl⟩
  · exact hP
  · exact h id' entry' hl

/-- **The tries of one member** leave it committed, and whatever they evict. -/
theorem recoverMember_each (hm : S.model.Contract may) (hpos : 0 < S.model.geometry.numLayers)
    {P : Nat → Entry → Prop} (hown : ∀ entry, entry.Committed → P id entry)
    (hidle : ∀ id entry, entry.seq.state ≠ .running → entry.Committed → P id entry) :
    ∀ (fuel : Nat) (e : EngineLoop σ α) (entry : Entry),
      e.shared.pool.geom = S.model.geometry → e.requests.lookup id = some entry →
      entry.Due prefill → e.Each (fun id' entry' => id' ≠ id → P id' entry') →
      (recoverMember S prefill id fuel e).Ensures (Each P) := by
  intro fuel
  induction fuel with
  | zero => exact fun _ _ _ _ _ _ => ensures_throw _
  | succ fuel ih =>
      intro e entry hgeom hl hdue heach
      rw [EngineLoop.recoverMember]
      refine Ensures.bind (executeAndDeliver_tried hm hpos hgeom hl hdue) ?_
      rintro ⟨advanced, e₁⟩ ⟨htried, hgeom₁⟩
      simp only at htried hgeom₁ ⊢
      have heach₁ : e₁.Each fun id' entry' => id' ≠ id → P id' entry' := by
        intro id' entry' hl' hne
        rw [htried.other id' hne] at hl'
        exact heach id' entry' hl' hne
      by_cases hadv : advanced = true
      · rw [if_pos hadv]
        refine ensures_pure fun id' entry' hl' => ?_
        by_cases hne : id' = id
        · subst hne
          exact hown entry' (htried.served hadv entry' hl')
        · exact heach₁ id' entry' hl' hne
      · rw [if_neg hadv]
        obtain ⟨entry₁, hl₁, hdue₁⟩ := htried.refused (by simpa using hadv)
        refine Ensures.bind (pickVictim_ne e₁ id) fun v hv => ?_
        by_cases hv0 : v = 0
        · rw [if_pos hv0]
          refine (fail_ensures e₁ id _).mono ?_
          rintro e₂ ⟨entry₂, _, rfl⟩
          intro id' entry' hl'
          rcases lookup_setSeq.mp hl' with ⟨rfl, rfl⟩ | ⟨hne, hl'⟩
          · exact hown _ (Entry.committed_failed entry₂ _)
          · exact heach₁ id' entry' hl' hne
        · rw [if_neg hv0]
          refine Ensures.bind (preemptSequence_ensures e₁ v) ?_
          rintro e₂ ⟨entryᵥ, pool, _, _, hgeom₂, rfl⟩
          refine ih _ entry₁ (hgeom₂.trans (hgeom₁.trans hgeom)) ?_ hdue₁ ?_
          · show (e₁.requests.insert v _).lookup id = some entry₁
            rw [AList.lookup_insert_ne (hv.resolve_left hv0).symm]
            exact hl₁
          · refine heach₁.evict fun _ => hidle _ _ (fun hc => ?_) (Entry.committed_evicted entryᵥ)
            cases hc

/-! ### A recovery

Each member's cache is cut back to its recorded length, and after its turn it is committed again
or gone.  Those that are to come are still open. -/

/-- Members that have not had their turn are open; everybody else is between two passes. -/
def Recovering (prefill : Bool) (len : Nat → Nat) (rest : List Nat) (id : Nat) (entry : Entry) :
    Prop :=
  if id ∈ rest then entry.Opened prefill (len id) else entry.Committed

theorem recoverOne_recovering (hm : S.model.Contract may)
    (hpos : 0 < S.model.geometry.numLayers) {pass preLen rest : List Nat} (hid : id ∉ rest)
    (hgeom : e.shared.pool.geom = S.model.geometry)
    (h : e.Each (Recovering prefill (preForwardLength pass preLen) (id :: rest))) :
    (recoverOne S prefill pass preLen e id).Ensures
      (Each (Recovering prefill (preForwardLength pass preLen) rest)) := by
  have hother : ∀ id' entry', id' ≠ id →
      Recovering prefill (preForwardLength pass preLen) (id :: rest) id' entry' →
      Recovering prefill (preForwardLength pass preLen) rest id' entry' := by
    intro id' entry' hne hr
    unfold Recovering at hr ⊢
    simpa [hne] using hr
  have hown : ∀ entry' : Entry, entry'.Committed →
      Recovering prefill (preForwardLength pass preLen) rest id entry' := by
    intro entry' hc
    unfold Recovering
    rw [if_neg hid]
    exact hc
  refine (recoverOne_ensures S prefill pass preLen e id).mono ?_
  rintro e' ⟨entry, hl, hturn⟩
  have hopened : entry.Opened prefill (preForwardLength pass preLen id) := by
    have := h id entry hl
    unfold Recovering at this
    rwa [if_pos List.mem_cons_self] at this
  rcases hturn with ⟨hidle, rfl⟩ | ⟨hrun, cache, r, hcache, htrunc, hrec⟩
  · intro id' entry' hl'
    by_cases hne : id' = id
    · subst hne
      rw [hl] at hl'
      cases hl'
      exact hown entry (hopened.idle hidle)
    · exact hother id' entry' hne (h id' entry' hl')
  · obtain ⟨htok, hlen, c, hc, hle⟩ := hopened.running hrun
    rw [hcache] at hc
    cases hc
    obtain ⟨hgeom', hnext, hcut⟩ := PagedKvCache.truncate_counts hle _ _ htrunc
    -- cutting the cache back makes the member due again
    have hset : ({ e with shared := { e.shared with pool := r.2.2 } }.setCache id r.2.1)
        = ({ e with shared := { e.shared with pool := r.2.2 } }.setSeq id entry
          { entry.seq with cache := some r.2.1 }) := by
      unfold setCache
      simp only [hl]
    rw [hset] at hrec
    refine recoverMember_each hm hpos hown ?_ _ _ (entry.withCache r.2.1) (hgeom'.trans hgeom)
      (AList.lookup_insert _) ⟨hrun, htok, r.2.1, rfl, hnext, ?_⟩ ?_ _ hrec
    · intro id' entry' hs hcommitted
      unfold Recovering
      by_cases hmem : id' ∈ rest
      · rw [if_pos hmem]
        exact ⟨fun hc => absurd hc hs, fun _ => hcommitted⟩
      · rw [if_neg hmem]
        exact hcommitted
    · rw [hcut]
      exact hlen
    · intro id' entry' hl' hne
      rcases lookup_setSeq.mp hl' with ⟨rfl, _⟩ | ⟨_, hl'⟩
      · exact absurd rfl hne
      · exact hother id' entry' hne (h id' entry' hl')

theorem recoverForwardFailure_committed (hm : S.model.Contract may)
    (hpos : 0 < S.model.geometry.numLayers) {pass preLen : List Nat} (hnd : pass.Nodup)
    (hgeom : e.shared.pool.geom = S.model.geometry)
    (h : e.Each (Recovering prefill (preForwardLength pass preLen) pass)) :
    (recoverForwardFailure S prefill pass preLen e).Ensures
      (Each fun _ entry => entry.Committed) := by
  refine (Ensures.foldlM (fun rest e' => rest.Nodup ∧
    e'.shared.pool.geom = S.model.geometry ∧
    e'.Each (Recovering prefill (preForwardLength pass preLen) rest)) ?_ pass e
    ⟨hnd, hgeom, h⟩).mono ?_
  · rintro id rest e₁ ⟨hnd₁, hgeom₁, h₁⟩ e₂ he₂
    obtain ⟨hid, hrest⟩ := List.nodup_cons.mp hnd₁
    refine ⟨hrest, ?_, recoverOne_recovering hm hpos hid hgeom₁ h₁ _ he₂⟩
    exact (recoverOne_steady S prefill pass preLen e₁ id _ he₂).geom.trans hgeom₁
  · rintro e' ⟨_, _, h'⟩ id entry hl
    have := h' id entry hl
    unfold Recovering at this
    rwa [if_neg List.not_mem_nil] at this

/-! ### A batched pass

If the batched forward is answered, the rows are delivered one by one.  Otherwise the members go
through a recovery.  Both ways all of them are committed at the end. -/

/-- The members of a pass that is not built yet are seated. -/
def Boarding (prefill : Bool) (pass : List Nat) (id : Nat) (entry : Entry) : Prop :=
  if id ∈ pass then entry.Seated prefill else entry.Committed

/-- Rows that have not been delivered are answered. -/
def Delivering (rest : List Nat) (id : Nat) (entry : Entry) : Prop :=
  if id ∈ rest then entry.Answered else entry.Committed

omit [Zero α] in
theorem deliverRow_delivering {row : Nat × SampleResult × StatusOr Unit} {rest : List Nat}
    (hid : row.1 ∉ rest) (h : e.Each (Delivering (row.1 :: rest))) :
    (e.deliverRow row).Ensures (Each (Delivering rest)) := by
  have hother : ∀ id entry, id ≠ row.1 → Delivering (row.1 :: rest) id entry →
      Delivering rest id entry := by
    intro id entry hne hd
    unfold Delivering at hd ⊢
    simpa [hne] using hd
  have hset : ∀ {e₁ : EngineLoop σ α} {entry₁ : Entry} {seq : Sequence},
      e₁.requests = e.requests → ({ entry₁ with seq := seq } : Entry).Committed →
        (e₁.setSeq row.1 entry₁ seq).Each (Delivering rest) := by
    intro e₁ entry₁ seq hreq hc id entry hl
    rcases lookup_setSeq.mp hl with ⟨rfl, rfl⟩ | ⟨hne, hl⟩
    · unfold Delivering
      rw [if_neg hid]
      exact hc
    · rw [hreq] at hl
      exact hother id entry hne (h id entry hl)
  unfold deliverRow
  cases row.2.2 with
  | ok _ =>
      refine (deliverSampled_ensures e row.1 row.2.1).mono ?_
      rintro e' ⟨entry, hl, rfl⟩
      have hanswered : entry.Answered := by
        have := h row.1 entry hl
        unfold Delivering at this
        rwa [if_pos List.mem_cons_self] at this
      exact hset rfl (hanswered.deliver row.2.1)
  | error status =>
      refine (fail_ensures e row.1 status).mono ?_
      rintro e' ⟨entry, hl, rfl⟩
      exact hset rfl (Entry.committed_failed entry status)

omit [Zero α] in
theorem deliverRows_committed {rows : List (Nat × SampleResult × StatusOr Unit)}
    (hnd : (rows.map (·.1)).Nodup) (h : e.Each (Delivering (rows.map (·.1)))) :
    (rows.foldlM deliverRow e).Ensures (Each fun _ entry => entry.Committed) := by
  refine (Ensures.foldlM (fun (rest : List (Nat × SampleResult × StatusOr Unit)) e' =>
    (rest.map (·.1)).Nodup ∧ e'.Each (Delivering (rest.map (·.1)))) ?_ rows e ⟨hnd, h⟩).mono ?_
  · rintro row rest e₁ ⟨hnd₁, h₁⟩
    obtain ⟨hid, hrest⟩ := List.nodup_cons.mp hnd₁
    exact (deliverRow_delivering hid h₁).mono fun e₂ h₂ => ⟨hrest, h₂⟩
  · rintro e' ⟨_, h'⟩ id entry hl
    have := h' id entry hl
    unfold Delivering at this
    rwa [List.map_nil, if_neg List.not_mem_nil] at this

/-- **A pass** serves its members: whoever still runs has committed all its tokens but one. -/
theorem runBatchPass_committed (hm : S.model.Contract may) (hpos : 0 < S.model.geometry.numLayers)
    {pass : List Nat} (hnd : pass.Nodup) (hgeom : e.shared.pool.geom = S.model.geometry)
    (h : e.Each (Boarding prefill pass)) :
    (runBatchPass S prefill pass e).Ensures (Each fun _ entry => entry.Committed) := by
  have hout : ∀ id entry, id ∉ pass → e.requests.lookup id = some entry → entry.Committed := by
    intro id entry hid hl
    have := h id entry hl
    unfold Boarding at this
    rwa [if_neg hid] at this
  refine (runBatchPass_ensures S prefill pass e).mono ?_
  rintro e' (⟨rfl, rfl⟩ | ⟨seqs, inputs, preLen, called, hran⟩)
  · exact fun id entry hl => hout id entry List.not_mem_nil hl
  have hbuilt := hran.assembly
  -- every member lacks exactly the tokens it feeds
  have hdue : ∀ (b : Nat) id, pass[b]? = some id → ∃ entry cache,
      e.requests.lookup id = some entry ∧ entry.Due prefill ∧ entry.seq.cache = some cache ∧
        cache.nextLayer = 0 ∧ cache.length + (entry.passTokens prefill).length = entry.context ∧
        preLen[b]? = some cache.length ∧
        inputs.seqs[b]? = some ⟨entry.passTokens prefill,
          positionsFrom cache.length (entry.passTokens prefill).length, cache⟩ := by
    intro b id hid
    obtain ⟨entry, cache, hl, hc, htok, hpre, hfs⟩ := hbuilt.member b id hid
    have hseated : entry.Seated prefill := by
      have := h id entry hl
      unfold Boarding at this
      rwa [if_pos (List.mem_of_getElem? hid)] at this
    have hdue := hseated.due htok
    obtain ⟨c, hc', hnext, hlen⟩ := hdue.cache
    rw [hc] at hc'
    cases hc'
    exact ⟨entry, cache, hl, hdue, hc, hnext, hlen, hpre, hfs⟩
  have hformed : ∀ fs ∈ inputs.makeForwardRequest.seqs, fs.Formed := by
    intro fs hfs
    obtain ⟨b, hb⟩ := List.mem_iff_getElem?.mp hfs
    have hlt : b < pass.length := hbuilt.length ▸ (List.getElem?_eq_some_iff.mp hb).1
    obtain ⟨entry, cache, _, hdue, _, hnext, _, _, hfs'⟩ := hdue b _ (List.getElem?_eq_getElem hlt)
    rw [show inputs.seqs[b]? = some fs from hb] at hfs'
    cases hfs'
    exact ⟨hdue.tokens, rfl, hnext⟩
  have hcount := S.model.call_counts hm e.state inputs.makeForwardRequest e.shared hformed hgeom
    hpos _ hran.call
  have hlen : called.caches.length = pass.length := hcount.caches.trans hbuilt.length
  have hkeep : ∀ id entry, id ∉ pass →
      (e.afterForward pass called).requests.lookup id = some entry → entry.Committed := by
    intro id entry hid hl
    rw [lookup_afterForward_of_not_mem hid] at hl
    exact hout id entry hid hl
  rcases hran.outcome with ⟨_, hrec⟩ | ⟨logits, rows, hans, hrows, hdeliver⟩
  · refine recoverForwardFailure_committed hm hpos hnd (hcount.geom.trans hgeom) ?_ _ hrec
    intro id entry hl
    unfold Recovering
    by_cases hid : id ∈ pass
    · rw [if_pos hid]
      obtain ⟨b, cache', hb, hpre', heq⟩ := hbuilt.preForwardLength_eq hid
      obtain ⟨entry₀, cache, hl₀, hdue₀, _, _, hlen₀, hpre, hfs⟩ := hdue b id hb
      rw [hpre] at hpre'
      obtain ⟨c, hc, hle⟩ := hcount.le b _ hfs
      rw [lookup_afterForward hnd hlen hb hc hl₀] at hl
      cases hl
      rw [heq, ← Option.some.inj hpre']
      exact ⟨fun _ => ⟨hdue₀.tokens, hlen₀, c, rfl, hle⟩, fun hidle => absurd hdue₀.running hidle⟩
    · rw [if_neg hid]
      exact hkeep id entry hid hl
  · have hids : (pass.zip rows).map (·.1) = pass := List.map_fst_zip hrows.ge
    refine deliverRows_committed (by rwa [hids]) ?_ _ hdeliver
    rw [hids]
    intro id entry hl
    unfold Delivering
    by_cases hid : id ∈ pass
    · rw [if_pos hid]
      obtain ⟨b, hb⟩ := List.mem_iff_getElem?.mp hid
      obtain ⟨entry₀, cache, hl₀, hdue₀, _, _, hlen₀, _, hfs⟩ := hdue b id hb
      obtain ⟨c, hc, hnext, hlen'⟩ := hcount.answered logits hans b _ hfs
      rw [lookup_afterForward hnd hlen hb hc hl₀] at hl
      cases hl
      exact ⟨hdue₀.running, c, rfl, hnext, hlen'.trans hlen₀⟩
    · rw [if_neg hid]
      exact hkeep id entry hid hl

end

end EngineLoop

end InferenceEngine
