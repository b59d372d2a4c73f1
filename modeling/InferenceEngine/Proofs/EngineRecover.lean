/-
A pass whose batched forward has failed.

Every member is cut back to the length it had before the forward and served alone.  A decode
that is refused for want of room evicts the latest arrival among the other running sequences
and tries again; an evicted sequence may be a member that is still to come, which is then
skipped, or one that has already had its turn.
-/
import InferenceEngine.Proofs.EngineTurn

namespace InferenceEngine

open Except BlockPool

namespace EngineLoop

variable {σ α : Type} [Zero α] {e e' : EngineLoop σ α} {id : Nat} {entry : Entry}
  {fresh : List Nat} {S : Services σ α} {L : Prop} {may : Answers α} {goal : Nat → Nat}
  {prefill : Bool}

omit [Zero α] in
/-- **The victim** is another running sequence; 0 says that there is none. -/
theorem Sound.pickVictim (hs : e.Sound fresh []) (exclude : Nat) :
    (e.pickPreemptionVictim exclude).Returns fun v => v = 0 ∨
      (v ≠ exclude ∧ ∃ entry, e.requests.lookup v = some entry ∧ entry.seq.state = .running) := by
  unfold pickPreemptionVictim
  refine Returns.bind (Returns.foldlM (fun rest best => (∀ id ∈ rest, id ∈ e.running) ∧
    (best.1 = 0 ∨ (best.1 ≠ exclude ∧ ∃ entry, e.requests.lookup best.1 = some entry ∧
      entry.seq.state = .running))) ?_ e.running (0, 0) ⟨fun _ h => h, Or.inl rfl⟩) ?_
  · intro id rest best hI
    obtain ⟨hmem, hbest⟩ := hI
    have hrest : ∀ id' ∈ rest, id' ∈ e.running := fun id' h => hmem id' (List.mem_cons_of_mem _ h)
    obtain ⟨entry, hentry⟩ := hs.entry_of_running (hmem id (by simp))
    unfold scanVictim
    by_cases hex : id = exclude
    · rw [if_pos hex]
      exact returns_pure ⟨hrest, hbest⟩
    · rw [if_neg hex, entry_eq hentry]
      show Returns (if entry.seq.state ≠ .running then _ else _) _
      by_cases hrun : entry.seq.state = .running
      · rw [if_neg (fun hc => hc hrun)]
        by_cases hlate : best.1 = 0 ∨ best.2 < entry.request.arrivalIndex
        · simp only [if_pos hlate]
          exact returns_pure ⟨hrest, Or.inr ⟨hex, entry, hentry, hrun⟩⟩
        · simp only [if_neg hlate]
          exact returns_pure ⟨hrest, hbest⟩
      · rw [if_pos hrun]
        exact returns_pure ⟨hrest, hbest⟩
  · intro best hI
    exact returns_pure hI.2

/-! ### One member

The retries end because every one of them takes a sequence out of those that run.  They change
nothing of the member until it has its turn. -/

/-- A model that may refuse a forward for want of room. -/
def MayExhaust (may : Answers α) : Prop :=
  ∃ g tokens status, status.code = .resourceExhausted ∧ may g tokens (.error status)

/-- What the retries of one member leave: it has had its turn, and some sequences have been
evicted for it. -/
structure Recovered (S : Services σ α) (L : Prop) (may : Answers α) (prefill : Bool)
    (e : EngineLoop σ α) (id : Nat) (entry : Entry) (fresh : List Nat) (t : Turn)
    (c : PagedKvCache) (victims : List Nat) (e' : EngineLoop σ α) : Prop where
  served : t ≠ .waits
  touched : e.Touched (id :: victims) e'
  sound : e'.Sound fresh []
  waiting : e'.waiting = victims.reverse ++ e.waiting
  running : e'.running = e.running.filter (· ∉ victims)
  victim : ∀ v ∈ victims, v ≠ id ∧ ∃ entry, e.requests.lookup v = some entry ∧
    entry.seq.state = .running ∧
    e'.requests.lookup v = some { entry with seq := entry.seq.evicted } ∧
    e'.outbox.filter (·.id = v) = e.outbox.filter (·.id = v)
  nodup : victims.Nodup
  lookup : e'.requests.lookup id
    = some { entry with seq := { entry.after S.sampleRow t with cache := some c } }
  outbox : e'.outbox.filter (·.id = id) = e.outbox.filter (·.id = id)
    ++ (entry.item S.sampleRow t).toList.map (.push id)
  quiet : L → e.Quiet e'
  lawful : L → Served may prefill entry (entry.seq.held.log e.shared.pool) t c
    (c.log e'.shared.pool)
  spared : prefill = true → victims = []
  pressed : L → victims ≠ [] → MayExhaust may

private theorem filter_not_mem_nil (l : List Nat) : l.filter (· ∉ ([] : List Nat)) = l := by
  simp

private theorem filter_filter_not_mem (l : List Nat) (v : Nat) (vs : List Nat) :
    (l.filter (· ≠ v)).filter (· ∉ vs) = l.filter (· ∉ v :: vs) := by
  rw [List.filter_filter]
  refine List.filter_congr fun x _ => ?_
  simp only [List.mem_cons, not_or, Bool.decide_and]
  exact Bool.and_comm _ _

variable {c c' : PagedKvCache} {e₁ e₃ : EngineLoop σ α} {v : Nat} {entryᵥ : Entry}
  {pool : BlockPool α} {t : Turn} {victims : List Nat}

/-- What a decode leaves that the model has refused for want of room. -/
structure Starved (S : Services σ α) (L : Prop) (may : Answers α) (e : EngineLoop σ α) (id : Nat)
    (entry : Entry) (fresh : List Nat) (c : PagedKvCache) (e₁ : EngineLoop σ α) : Prop where
  touched : e.Touched [id] e₁
  waiting : e₁.waiting = e.waiting
  running : e₁.running = e.running
  quiet : L → e.Quiet e₁
  sound : e₁.Sound (id :: fresh) []
  lookup : e₁.requests.lookup id = some (entry.withCache c)
  outbox : e₁.outbox = e.outbox
  same : L → c = entry.seq.held ∧ c.log e₁.shared.pool = c.log e.shared.pool ∧
    ∃ s, s.code = .resourceExhausted ∧
      may (entry.seq.held.log e.shared.pool) (entry.passTokens false) (.error s)

/-- A member that has had its turn is recovered, and nobody has been evicted for it. -/
theorem Attempted.recovered (hat : Attempted S L may prefill e id entry fresh true e₁) :
    ∃ t c, Recovered S L may prefill e id entry fresh t c [] e₁ := by
  obtain ⟨-, t, c, ht, hs, hl, hout, hserved⟩ | ⟨hadv, -⟩ := hat.outcome
  · refine ⟨t, c, ht, hat.touched, hs, hat.waiting, ?_, by simp, List.nodup_nil, hl, hout,
      hat.quiet, hserved, fun _ => rfl, fun _ hc => absurd rfl hc⟩
    rw [filter_not_mem_nil, hat.running]
  · exact absurd hadv (by simp)

/-- Only a decode is to be tried again. -/
theorem Attempted.starved (hat : Attempted S L may prefill e id entry fresh false e₁) :
    prefill = false ∧ ∃ c, Starved S L may e id entry fresh c e₁ := by
  obtain ⟨hadv, -⟩ | ⟨-, rfl, c, hs, hl, hout, hsame⟩ := hat.outcome
  · exact absurd hadv (by simp)
  · exact ⟨rfl, c, hat.touched, hat.waiting, hat.running, hat.quiet, hs, hl, hout, hsame⟩

namespace Starved

/-- Where nobody is left to evict, the member is refused for good. -/
theorem givenUp (h : Starved S L may e id entry fresh c e₁) (hrun : entry.seq.state = .running) :
    Recovered S L may false e id entry fresh (.refused noVictimError) c []
      (e₁.served S.sampleRow id (entry.withCache c) (.refused noVictimError)) := by
  refine ⟨by simp, h.touched.trans (touched_served h.lookup _),
    h.sound.served h.lookup hrun (by simp), h.waiting, ?_, by simp, List.nodup_nil, ?_, ?_,
    fun hl => ⟨(h.quiet hl).1, (h.quiet hl).2⟩, ?_, fun hc => absurd hc (by simp),
    fun _ hc => absurd rfl hc⟩
  · rw [filter_not_mem_nil]
    exact h.running
  · rw [lookup_served, Entry.after_withCache]
    rfl
  · rw [outbox_served, Entry.item_withCache, h.outbox]
  · intro hl
    obtain ⟨rfl, -, s, hs, hmay⟩ := h.same hl
    exact ⟨Or.inr ⟨rfl, rfl, s, hs, hmay⟩, Nat.le_add_right _ _, fun row hrow => by simp at hrow⟩

/-- The loop is run at most once for every running sequence. -/
theorem shrinks (h : Starved S L may e id entry fresh c e₁) (pool : BlockPool α)
    (hentryᵥ : e₁.requests.lookup v = some entryᵥ) (hrunᵥ : entryᵥ.seq.state = .running) :
    (e₁.evict v entryᵥ pool).running.length < e.running.length := by
  have hmem := (h.sound.running_of_state hentryᵥ hrunᵥ).1
  rw [← h.running]
  exact List.length_filter_lt_length_iff_exists.mpr ⟨v, hmem, by simp⟩

theorem lookup_evict (h : Starved S L may e id entry fresh c e₁) (hne : v ≠ id)
    (hentryᵥ : e₁.requests.lookup v = some entryᵥ) (hstore : SameStore e₁.shared.pool pool) :
    (e₁.evict v entryᵥ pool).requests.lookup id = some (entry.withCache c) := by
  rw [(touched_evict hentryᵥ hstore).lookup id (by simp [hne.symm])]
  exact h.lookup

/-- The model may be called again once a victim has given its blocks back: the goals are still
met, since the member's cache is as it was and the victim holds nothing. -/
theorem servable (h : Starved S L may e id entry fresh c e₁)
    (hentry : e.requests.lookup id = some entry) (hr : entry.seq.Ready)
    (hentryᵥ : e₁.requests.lookup v = some entryᵥ) (hstore : SameStore e₁.shared.pool pool)
    (hl : L) (hsv : e.Servable S may goal false id entry) :
    (e₁.evict v entryᵥ pool).Servable S may goal false id (entry.withCache c) := by
  obtain ⟨rfl, -⟩ := h.same hl
  have htouch := touched_evict hentryᵥ hstore
  refine ⟨hsv.contract, ?_, ?_, hsv.formed, hsv.length_le⟩
  · rw [htouch.shape.geom, h.touched.shape.geom]
    exact hsv.geometry
  · have hfits₁ : e₁.Fits goal := by
      refine hsv.fits.touched h.touched (h.quiet hl).others fun id' hid' entry' h' => ?_
      rw [List.mem_singleton.mp hid'] at h' ⊢
      rw [h.lookup] at h'
      cases h'
      refine ⟨le_trans (Nat.le_add_right _ _) hsv.length_le, entry, hentry, fun _ => ?_⟩
      rw [hr.cache_eq]
      rfl
    refine hfits₁.touched htouch rfl fun id' hid' entry' h' => ?_
    rw [List.mem_singleton.mp hid'] at h' ⊢
    rw [show (e₁.evict v entryᵥ pool).requests.lookup v = _ from AList.lookup_insert _] at h'
    cases h'
    exact ⟨Nat.zero_le _, entryᵥ, hentryᵥ, fun hc => absurd hc (by simp [Sequence.evicted])⟩

/-- What the later attempts leave is what all of them leave, with one more victim. -/
theorem evicted (h : Starved S L may e id entry fresh c e₁) (hne : v ≠ id)
    (hentryᵥ : e₁.requests.lookup v = some entryᵥ) (hrunᵥ : entryᵥ.seq.state = .running)
    (hstore : SameStore e₁.shared.pool pool) (hexh : pool.exhaustions = e₁.shared.pool.exhaustions)
    (hrec : Recovered S L may false (e₁.evict v entryᵥ pool) id (entry.withCache c) fresh t c'
      victims e₃) :
    Recovered S L may false e id entry fresh t c' (v :: victims) e₃ := by
  have htouch := touched_evict hentryᵥ hstore
  have hlookupᵥ : (e₁.evict v entryᵥ pool).requests.lookup v
      = some { entryᵥ with seq := entryᵥ.seq.evicted } := AList.lookup_insert _
  have hentryᵥ' : e.requests.lookup v = some entryᵥ := by
    rw [← h.touched.lookup v (by simp [hne])]
    exact hentryᵥ
  -- nobody is evicted twice, for who is evicted no longer runs
  have hvnot : v ∉ victims := by
    intro hc
    obtain ⟨_, entry', h', hrun', _⟩ := hrec.victim v hc
    rw [hlookupᵥ] at h'
    cases h'
    exact absurd hrun' (by simp [Sequence.evicted])
  refine ⟨hrec.served, ?_, hrec.sound, ?_, ?_, ?_, List.nodup_cons.mpr ⟨hvnot, hrec.nodup⟩, ?_, ?_,
    ?_, ?_, fun hc => absurd hc (by simp), fun hl _ => ?_⟩
  · refine ((h.touched.mono ?_).trans (htouch.mono ?_)).trans (hrec.touched.mono ?_)
    · simp
    · simp
    · intro w hw
      rcases List.mem_cons.mp hw with rfl | hw
      · simp
      · simp [hw]
  · rw [hrec.waiting, List.reverse_cons, List.append_assoc]
    show _ ++ v :: e₁.waiting = _
    rw [h.waiting]
    rfl
  · rw [hrec.running, ← h.running]
    exact filter_filter_not_mem _ _ _
  · intro w hw
    rcases List.mem_cons.mp hw with rfl | hw
    · have hnotin : w ∉ id :: victims := by simp [hne, hvnot]
      refine ⟨hne, entryᵥ, hentryᵥ', hrunᵥ, ?_, ?_⟩
      · rw [hrec.touched.lookup w hnotin]
        exact hlookupᵥ
      · rw [hrec.touched.outbox w hnotin]
        exact h.touched.outbox w (by simp [hne])
    · obtain ⟨hwid, entry', h', hrun', hlook, hobox⟩ := hrec.victim w hw
      have hwv : w ∉ [v] := List.mem_singleton.not.mpr fun hc => hvnot (hc ▸ hw)
      have hwid' : w ∉ [id] := List.mem_singleton.not.mpr hwid
      rw [htouch.lookup w hwv, h.touched.lookup w hwid'] at h'
      refine ⟨hwid, entry', h', hrun', hlook, ?_⟩
      rw [hobox, htouch.outbox w hwv]
      exact h.touched.outbox w hwid'
  · rw [hrec.lookup, Entry.after_withCache]
    rfl
  · rw [hrec.outbox, Entry.item_withCache]
    show e₁.outbox.filter _ ++ _ = _
    rw [h.outbox]
  · intro hl
    have hquiet : e₁.Quiet (e₁.evict v entryᵥ pool) := ⟨rfl, hexh⟩
    exact (h.quiet hl).trans (hquiet.trans (hrec.quiet hl))
  · intro hl
    obtain ⟨rfl, hlog, -⟩ := h.same hl
    have hlaw := hrec.lawful hl
    have hstart : (entry.withCache entry.seq.held).seq.held.log
        (e₁.evict v entryᵥ pool).shared.pool = entry.seq.held.log e.shared.pool :=
      (PagedKvCache.log_of_store hstore).trans hlog
    rw [hstart] at hlaw
    exact ⟨hlaw.lawful, hlaw.length_le, hlaw.committed⟩
  · obtain ⟨-, -, status, hcode, hmay⟩ := h.same hl
    exact ⟨_, _, status, hcode, hmay⟩

end Starved

/-- **The retries of one member.**  Each of them either gives the member its turn or finds a
victim, and there are as many to find as there are other running sequences. -/
theorem Sound.recoverMember (hS : S.model.Shaped) :
    ∀ {fuel : Nat} {e : EngineLoop σ α} {entry : Entry}, e.running.length ≤ fuel →
      e.Sound (id :: fresh) [] → e.requests.lookup id = some entry → entry.seq.Ready →
      (prefill = false → entry.seq.generatedIds ≠ []) →
      (L → e.Servable S may goal prefill id entry) →
      (recoverMember S prefill id fuel e).Returns fun e' => ∃ t c victims,
        Recovered S L may prefill e id entry fresh t c victims e' := by
  intro fuel
  induction fuel with
  | zero =>
      intro e entry hlen hs h hr _ _
      have hmem := (hs.running_of_state h hr.1).1
      rw [List.length_eq_zero_iff.mp (Nat.le_zero.mp hlen)] at hmem
      exact absurd hmem List.not_mem_nil
  | succ fuel ih =>
      intro e entry hlen hs h hr hgen hL
      rw [EngineLoop.recoverMember]
      refine Returns.bind (hs.executeAndDeliver hS h hr hgen hL) ?_
      rintro ⟨advanced, e₁⟩ hat
      cases advanced with
      | true =>
          obtain ⟨t, c, hrec⟩ := hat.recovered
          exact returns_pure ⟨t, c, [], hrec⟩
      | false =>
          obtain ⟨rfl, c, hst⟩ := hat.starved
          simp only
          rw [if_neg Bool.false_ne_true]
          refine Returns.bind (hst.sound.pickVictim id) ?_
          intro v hv
          by_cases hv0 : v = 0
          · rw [if_pos hv0, refuse_eq S.sampleRow hst.lookup hr.1]
            exact returns_ok ⟨_, c, [], hst.givenUp hr.1⟩
          · obtain ⟨hne, entryᵥ, hentryᵥ, hrunᵥ⟩ := hv.resolve_left hv0
            rw [if_neg hv0]
            refine Returns.bind (hst.sound.preempt hentryᵥ hrunᵥ) ?_
            rintro e₂ ⟨pool, rfl, hstore, hexh, hs₂⟩
            have hshrinks := hst.shrinks pool hentryᵥ hrunᵥ
            refine (ih (by omega) hs₂ (hst.lookup_evict hne hentryᵥ hstore) ⟨hr.1, c, rfl⟩ hgen
              fun hl => hst.servable h hr hentryᵥ hstore hl (hL hl)).mono ?_
            rintro e₃ ⟨t, c', victims, hrec⟩
            exact ⟨t, c', v :: victims, hst.evicted hne hentryᵥ hrunᵥ hstore hexh hrec⟩

/-! ### All members

A member that is still to come has the cache it had before the batched forward, perhaps with
rows appended, or has been evicted meanwhile.  One that has had its turn may be evicted as well. -/

/-- A cache that a failed forward may have appended to. -/
structure Opened (prefill : Bool) (entry : Entry) (g₀ : KvLog α) (c : PagedKvCache)
    (g : KvLog α) : Prop where
  base : entry.seq.held.length ≤ c.base
  log : g.truncate entry.seq.held.length = g₀
  length_le : c.length ≤ entry.seq.held.length + (entry.passTokens prefill).length

/-- What a pass has made of one request so far: `entry` is what it was before the pass, and `g₀`
what its cache held. -/
structure After (S : Services σ α) (L : Prop) (may : Answers α) (prefill : Bool) (entry : Entry)
    (g₀ : KvLog α) (t : Turn) (gone opened : Prop) (seq : Sequence) (g : KvLog α) : Prop where
  evicted : gone → (entry.after S.sampleRow t).state = .running ∧
    seq = (entry.after S.sampleRow t).evicted
  kept : ¬gone → seq = { entry.after S.sampleRow t with cache := seq.cache } ∧
    seq.cache.isSome = entry.seq.cache.isSome
  idle : ¬gone → t = .waits → ¬opened → seq.cache = entry.seq.cache ∧ g = g₀
  rollback : L → ¬gone → t = .waits → opened → Opened prefill entry g₀ seq.held g
  served : L → ¬gone → t ≠ .waits → Served may prefill entry g₀ t seq.held g
  answered : L → ∀ row, t = .answered row → ∃ g, may g₀ (entry.passTokens prefill) (.ok (row, g))

/-- The operations a turn adds to the channel of a request. -/
def turnOps (S : Services σ α) (e : EngineLoop σ α) (id : Nat) (t : Turn) : List ChannelOp :=
  match e.requests.lookup id with
  | none => []
  | some entry => (entry.item S.sampleRow t).toList.map (.push id)

/-- The engine in the middle of a pass that started in `e₀`. -/
structure Passing (S : Services σ α) (L : Prop) (may : Answers α) (prefill : Bool)
    (e₀ : EngineLoop σ α) (opened : List Nat) (turn : Nat → Turn) (evicted : List Nat)
    (e : EngineLoop σ α) : Prop where
  config : e.config = e₀.config
  maxModelLen : e.maxModelLen = e₀.maxModelLen
  shape : SameShape e₀.shared.pool e.shared.pool
  mem : ∀ id, id ∈ e.requests ↔ id ∈ e₀.requests
  waiting : e.waiting = evicted.reverse ++ e₀.waiting
  running : e.running = e₀.running.filter (· ∉ evicted)
  distinct : evicted.Nodup
  entry : ∀ id entry, e₀.requests.lookup id = some entry → ∃ seq,
    e.requests.lookup id = some { entry with seq := seq } ∧
      After S L may prefill entry (entry.seq.held.log e₀.shared.pool) (turn id) (id ∈ evicted)
        (id ∈ opened) seq (seq.held.log e.shared.pool)
  outbox : ∀ id, e.outbox.filter (·.id = id)
    = e₀.outbox.filter (·.id = id) ++ turnOps S e₀ id (turn id)
  quiet : L → e₀.Quiet e

/-- A member that a model which keeps its contract can be given. -/
structure Ripe (goal : Nat → Nat) (prefill : Bool) (m : Nat × Entry) : Prop where
  committed : m.2.seq.held.nextLayer = 0
  empty : prefill = true → m.2.seq.held.length = 0
  length_le : m.2.seq.held.length + (m.2.passTokens prefill).length ≤ goal m.1

/-- What is known of a pass when the model keeps its contract. -/
structure Lawfully (S : Services σ α) (may : Answers α) (goal : Nat → Nat) (prefill : Bool)
    (e : EngineLoop σ α) (ms : List (Nat × Entry)) : Prop where
  contract : S.model.Contract may
  geometry : e.shared.pool.geom = S.model.geometry
  fits : e.Fits goal
  ripe : ∀ m ∈ ms, Ripe goal prefill m

/-- The members a pass is built with. -/
structure Batch (prefill : Bool) (e : EngineLoop σ α) (ms : List (Nat × Entry)) : Prop
    extends e.Members ms where
  tokens : ∀ m ∈ ms, m.2.passTokens prefill ≠ []
  generated : prefill = false → ∀ m ∈ ms, m.2.seq.generatedIds ≠ []

variable {e₀ : EngineLoop σ α} {ms : List (Nat × Entry)} {turn : Nat → Turn}
  {evicted rest : List Nat} {called : Model.Called σ α}

/-- **After the batched forward** every member's cache may have grown, and nothing else has
changed. -/
theorem Passing.start (hs : e₀.Sound fresh []) (hm : e₀.Members ms) (h : e₀.Forwarded ms called)
    (hk : LogsKept (e₀.bystanders ms) e₀.shared.pool called.shared.pool)
    (hquiet : L → e₀.Quiet (e₀.forwarded ms called))
    (hgrown : L → ∀ (b : Nat) m, ms[b]? = some m → ∃ c done, called.caches[b]? = some c ∧
      Grown e₀.shared.pool m.2.seq.held (m.2.passTokens prefill).length done called.shared.pool c ∧
      Layered e₀.shared.pool.geom (m.2.passTokens prefill).length done ∧
      m.2.seq.held.nextLayer = 0) :
    Passing S L may prefill e₀ (ms.map (·.1)) (fun _ => .waits) [] (e₀.forwarded ms called) := by
  have ht := touched_forwarded hs hm h hk
  refine ⟨rfl, rfl, h.shape, fun _ => h.mem_requests hm, rfl, (filter_not_mem_nil _).symm,
    List.nodup_nil, ?_, ?_, hquiet⟩
  · intro id entry hl
    by_cases hid : id ∈ ms.map (·.1)
    · obtain ⟨m, hmem, rfl⟩ := List.mem_map.mp hid
      obtain ⟨b, hb⟩ := List.mem_iff_getElem?.mp hmem
      rw [hm.entries m hmem] at hl
      cases hl
      have hlt : b < called.caches.length := by
        rw [h.length]
        exact (List.getElem?_eq_some_iff.mp hb).1
      refine ⟨_, h.lookup_member hm hb (List.getElem?_eq_getElem hlt), ?_, ?_, ?_, ?_, ?_, ?_⟩
      · exact fun hc => absurd hc List.not_mem_nil
      · exact fun _ => ⟨rfl, by rw [(hm.ready m hmem).cache_eq]; rfl⟩
      · exact fun _ _ hc => absurd hid hc
      · intro hL _ _ _
        obtain ⟨c, done, hc, hg, hlay, h₀⟩ := hgrown hL b m hb
        rw [List.getElem?_eq_getElem hlt] at hc
        cases hc
        exact ⟨hg.base_ge h₀, hg.truncate_log h₀ hlay, hg.length_le⟩
      · exact fun _ _ hc => absurd rfl hc
      · exact fun _ _ hc => by simp at hc
    · refine ⟨entry.seq, (h.lookup_other hid).trans hl, ?_, ?_, ?_, ?_, ?_, ?_⟩
      · exact fun hc => absurd hc List.not_mem_nil
      · exact fun _ => ⟨rfl, rfl⟩
      · exact fun _ _ _ => ⟨rfl, ht.log id hid entry hl⟩
      · exact fun _ _ _ hc => absurd hc hid
      · exact fun _ _ hc => absurd rfl hc
      · exact fun _ _ hc => by simp at hc
  · intro id
    have hnone : turnOps S e₀ id .waits = [] := by
      unfold turnOps
      cases e₀.requests.lookup id <;> rfl
    rw [hnone, List.append_nil]
    rfl

/-- The members that have not been evicted are within their goals throughout. -/
theorem Passing.fits (h : Passing S L may prefill e₀ rest turn evicted e) (hL : L)
    (hlaw : Lawfully S may goal prefill e₀ ms) (hmembers : e₀.Members ms)
    (hrest : ∀ id ∈ rest, id ∈ ms.map (·.1)) (hidle : ∀ id, id ∉ ms.map (·.1) → turn id = .waits) :
    e.Fits goal := by
  have hspec : ∀ id entry', e.requests.lookup id = some entry' →
      entry'.seq.held.length ≤ goal id ∧ ∃ entry, e₀.requests.lookup id = some entry ∧
        (entry'.seq.cache.isSome → entry.seq.cache.isSome) := by
    intro id entry' hl'
    obtain ⟨entry, hl⟩ := IdMap.exists_of_mem ((h.mem id).mp (IdMap.mem_of_lookup hl'))
    obtain ⟨seq, hseq, ha⟩ := h.entry id entry hl
    rw [hseq] at hl'
    cases hl'
    refine ⟨?_, entry, hl, ?_⟩
    · by_cases hgone : id ∈ evicted
      · rw [(ha.evicted hgone).2]
        exact Nat.zero_le _
      · by_cases hid : id ∈ ms.map (·.1)
        · obtain ⟨m, hmem, rfl⟩ := List.mem_map.mp hid
          rw [hmembers.entries m hmem] at hl
          cases hl
          refine le_trans ?_ (hlaw.ripe m hmem).length_le
          by_cases ht : turn m.1 = .waits
          · by_cases hopen : m.1 ∈ rest
            · exact (ha.rollback hL hgone ht hopen).length_le
            · have hc : seq.held = m.2.seq.held := by
                unfold Sequence.held
                rw [(ha.idle hgone ht hopen).1]
              show seq.held.length ≤ _
              rw [hc]
              exact Nat.le_add_right _ _
          · exact (ha.served hL hgone ht).length_le
        · have hc : seq.held = entry.seq.held := by
            unfold Sequence.held
            rw [(ha.idle hgone (hidle id hid) (fun hc => hid (hrest id hc))).1]
          show seq.held.length ≤ _
          rw [hc]
          exact hlaw.fits.length_le id entry hl
    · intro hc
      by_cases hgone : id ∈ evicted
      · rw [(ha.evicted hgone).2] at hc
        exact absurd hc (by simp [Sequence.evicted])
      · rw [← (ha.kept hgone).2]
        exact hc
  refine ⟨fun id entry' hl' => (hspec id entry' hl').1, ?_⟩
  have hle := hlaw.fits.room
  rw [h.shape.blockSize, h.shape.numBlocks, (h.quiet hL).others]
  refine le_trans (Nat.add_le_add_right (IdMap.total_le_of_lookup fun id entry' hl' => ?_) _) hle
  obtain ⟨_, entry, he, himp⟩ := hspec id entry' hl'
  refine ⟨entry, he, ?_⟩
  by_cases hc : entry'.seq.cache.isSome = true
  · rw [if_pos hc, if_pos (himp hc)]
  · rw [if_neg hc]
    exact Nat.zero_le _

end EngineLoop

end InferenceEngine
