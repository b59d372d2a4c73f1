/-
The turns of a pass, for a model that keeps its contract.

Whether the batched forward is answered or refused, a pass comes to the same thing: every
member that is not evicted first has one turn, which its own log and its own tokens decide.
`Turning` is a pass some of whose members are still to come.
-/
import InferenceEngine.Proofs.EnginePass

namespace InferenceEngine

open Except BlockPool

namespace EngineLoop

variable {σ α : Type} [Zero α] {e₀ e e' : EngineLoop σ α} {id : Nat} {entry : Entry}
  {fresh : List Nat} {S : Services σ α} {may : Answers α} {goal : Nat → Nat} {prefill : Bool}
  {ms : List (Nat × Entry)} {turn : Nat → Turn} {evicted rest : List Nat}

/-- A pass over `ms` that started in `e₀`, with the members `rest` still to come. -/
structure Turning (S : Services σ α) (may : Answers α) (prefill : Bool) (e₀ : EngineLoop σ α)
    (ms : List (Nat × Entry)) (turn : Nat → Turn) (evicted rest : List Nat)
    (e : EngineLoop σ α) : Prop extends Passing S True may prefill e₀ rest turn evicted e where
  outside : ∀ id, id ∉ ms.map (·.1) → turn id = .waits
  due : ∀ id ∈ rest, id ∈ ms.map (·.1) ∧ turn id = .waits
  inside : ∀ id ∈ ms.map (·.1), id ∈ rest ∨ id ∈ evicted ∨ turn id ≠ .waits
  spared : prefill = true → evicted = []
  /-- whoever is evicted is evicted for a member that has its turn -/
  evictor : evicted ≠ [] → ∃ id ∈ ms.map (·.1), turn id ≠ .waits
  pressed : evicted ≠ [] → MayExhaust may

/-! ### Entries in the middle of a pass

Whether a member is still to come, has had its turn or has been evicted can be told from the
three lists of a pass, and its entry accordingly. -/

/-- A member that is still to come and has not been evicted. -/
theorem Turning.member (h : Turning S may prefill e₀ ms turn evicted rest e)
    (hm : e₀.Members ms) (hid : id ∈ rest) (hgone : id ∉ evicted) :
    ∃ entry c, (id, entry) ∈ ms ∧ e.requests.lookup id = some (entry.withCache c) ∧
      After S True may prefill entry (entry.seq.held.log e₀.shared.pool) .waits False True
        (entry.withCache c).seq (c.log e.shared.pool) := by
  obtain ⟨hmem, hwaits⟩ := h.due id hid
  obtain ⟨⟨k, entry⟩, hin, rfl⟩ := List.mem_map.mp hmem
  obtain ⟨seq, hl, ha⟩ := h.entry k entry (hm.entries _ hin)
  rw [hwaits] at ha
  obtain ⟨hseq, hsome⟩ := ha.kept hgone
  have hready := (hm.ready _ hin).cache_eq
  rw [hready] at hsome
  obtain ⟨c, hc⟩ := Option.isSome_iff_exists.mp hsome
  have hwith : ({ entry with seq := seq } : Entry) = entry.withCache c := by
    rw [hseq, hc]
    rfl
  have hheld : seq.held = c := by simp [Sequence.held, hc]
  have hcache : seq = (entry.withCache c).seq := congrArg Entry.seq hwith
  rw [hheld, hcache] at ha
  refine ⟨entry, c, hin, by rw [← hwith]; exact hl, ?_, ?_, ?_, ?_, ?_, ?_⟩
  · exact fun hc => hc.elim
  · exact fun _ => ha.kept hgone
  · exact fun _ _ hc => absurd trivial hc
  · exact fun _ _ _ _ => ha.rollback trivial hgone rfl hid
  · exact fun _ _ hc => absurd rfl hc
  · exact fun _ => ha.answered trivial

/-- Whoever has been evicted ran before the pass. -/
theorem Turning.ran (h : Turning S may prefill e₀ ms turn evicted rest e) (hm : e₀.Members ms)
    (hid : id ∈ evicted) (hl : e₀.requests.lookup id = some entry) :
    entry.seq.state = .running := by
  obtain ⟨seq, _, ha⟩ := h.entry id entry hl
  obtain ⟨hrun, _⟩ := ha.evicted hid
  by_cases hmem : id ∈ ms.map (·.1)
  · obtain ⟨m, hin, rfl⟩ := List.mem_map.mp hmem
    rw [hm.entries m hin] at hl
    cases hl
    exact (hm.ready m hin).1
  · rw [h.outside id hmem] at hrun
    exact hrun

/-! ### A member served alone

Its cache is cut back, and it is tried until it has its turn.  The victims of these tries may be
members that have had theirs, members that are to come, or no members. -/

theorem preForwardLength_eq {m : Nat × Entry} (hnd : (ms.map (·.1)).Nodup) (hm : m ∈ ms) :
    preForwardLength (ms.map (·.1)) (ms.map (·.2.seq.held.length)) m.1
      = m.2.seq.held.length := by
  obtain ⟨b, hb⟩ := List.mem_iff_getElem?.mp hm
  obtain ⟨hlt, hget⟩ := List.getElem?_eq_some_iff.mp hb
  have hidx : (ms.map (·.1)).idxOf? m.1 = some b := by
    rw [List.idxOf?_eq_some_iff]
    refine ⟨by simpa using hlt, by simp [hget], fun j hj hc => ?_⟩
    have hinj := List.nodup_iff_injective_get.mp hnd
    have := @hinj ⟨j, by simp; omega⟩ ⟨b, by simpa using hlt⟩ (by simpa [hget] using hc)
    have := congrArg Fin.val this
    simp at this
    omega
  unfold preForwardLength
  rw [hidx]
  simp [hb]

omit [Zero α] in
/-- What a turn has made of a request does not change when others are served. -/
theorem After.of_iff {g₀ g : KvLog α} {t : Turn} {gone gone' opened opened' : Prop}
    {seq : Sequence} (h : After S True may prefill entry g₀ t gone opened seq g)
    (hgone : gone' ↔ gone) (hopen : opened' ↔ opened) :
    After S True may prefill entry g₀ t gone' opened' seq g := by
  rw [propext hgone, propext hopen]
  exact h

/-- One member has had its turn since `e`, and some sequences have been evicted for it. -/
structure TurnTaken (S : Services σ α) (may : Answers α) (prefill : Bool) (e : EngineLoop σ α)
    (id : Nat) (entry : Entry) (g₀ : KvLog α) (t : Turn) (c : PagedKvCache) (victims : List Nat)
    (e' : EngineLoop σ α) : Prop where
  served : t ≠ .waits
  touched : e.Touched (id :: victims) e'
  waiting : e'.waiting = victims.reverse ++ e.waiting
  running : e'.running = e.running.filter (· ∉ victims)
  victim : ∀ v ∈ victims, v ≠ id ∧ ∃ entry, e.requests.lookup v = some entry ∧
    entry.seq.state = .running ∧
    e'.requests.lookup v = some { entry with seq := entry.seq.evicted } ∧
    e'.outbox.filter (·.id = v) = e.outbox.filter (·.id = v)
  nodup : victims.Nodup
  lookup : e'.requests.lookup id
    = some { entry with seq := { entry.after S.sampleRow t with cache := some c } }
  outbox : e'.outbox.filter (·.id = id) = e.outbox.filter (·.id = id)
    ++ (entry.item S.sampleRow t).toList.map (.push id)
  quiet : e.Quiet e'
  lawful : Served may prefill entry g₀ t c (c.log e'.shared.pool)
  spared : prefill = true → victims = []
  pressed : victims ≠ [] → MayExhaust may

/-- The turn of a member whose cache has been cut back before its retries. -/
theorem Recovered.taken {e₁ : EngineLoop σ α} {c c' : PagedKvCache} {t : Turn}
    {victims : List Nat} {g₀ : KvLog α}
    (hrec : Recovered S True may prefill e₁ id (entry.withCache c) fresh t c' victims e')
    (ht : e.Touched [id] e₁) (hw : e₁.waiting = e.waiting) (hr : e₁.running = e.running)
    (hq : e.Quiet e₁) (hout : e₁.outbox = e.outbox) (hlen : c.length = entry.seq.held.length)
    (hlog : c.log e₁.shared.pool = g₀) :
    TurnTaken S may prefill e id entry g₀ t c' victims e' := by
  have hcache : (entry.withCache c).seq.held = c := rfl
  refine ⟨hrec.served, (ht.mono (by simp)).trans hrec.touched, by rw [hrec.waiting, hw],
    by rw [hrec.running, hr], fun v hv => ?_, hrec.nodup, ?_, ?_, hq.trans (hrec.quiet trivial),
    ?_, hrec.spared, hrec.pressed trivial⟩
  · obtain ⟨hne, entryᵥ, hlᵥ, hrunᵥ, hnewᵥ, hsame⟩ := hrec.victim v hv
    rw [ht.lookup v (by simp [hne])] at hlᵥ
    rw [hout] at hsame
    exact ⟨hne, entryᵥ, hlᵥ, hrunᵥ, hnewᵥ, hsame⟩
  · rw [hrec.lookup, Entry.after_withCache]
    rfl
  · rw [hrec.outbox, Entry.item_withCache, hout]
  · have hserved := hrec.lawful trivial
    rw [hcache, hlog] at hserved
    refine ⟨hserved.lawful, ?_, fun row hrow => ?_⟩
    · have hle := hserved.length_le
      rw [hcache, hlen] at hle
      exact hle
    · have hle := hserved.committed row hrow
      rw [hcache, hlen] at hle
      exact hle

section

variable {c : PagedKvCache} {t : Turn} {victims : List Nat} {g₀ g g' : KvLog α}

/-- What its turn has made of a member. -/
theorem TurnTaken.own (h : TurnTaken S may prefill e id entry g₀ t c victims e')
    {gone opened : Prop} (hgone : ¬gone) (hcache : entry.seq.cache.isSome) :
    After S True may prefill entry g₀ t gone opened
      { entry.after S.sampleRow t with cache := some c } (c.log e'.shared.pool) := by
  refine ⟨fun hc => absurd hc hgone, fun _ => ⟨rfl, hcache.symm⟩, fun _ hc => absurd hc h.served,
    fun _ _ hc => absurd hc h.served, fun _ _ _ => h.lawful, fun _ row hrow => ?_⟩
  have hlaw := h.lawful.lawful
  rw [hrow] at hlaw
  exact ⟨_, hlaw⟩

omit [Zero α] in
/-- A running sequence is evicted, whether it has had its turn or not. -/
theorem After.evict {gone gone' opened opened' : Prop} {seq : Sequence}
    (h : After S True may prefill entry g₀ t gone opened seq g) (hgone : ¬gone)
    (hrun : seq.state = .running) (hgone' : gone') :
    After S True may prefill entry g₀ t gone' opened' seq.evicted g' := by
  obtain ⟨hkept, _⟩ := h.kept hgone
  refine ⟨fun _ => ⟨?_, ?_⟩, fun hc => absurd hgone' hc, fun hc => absurd hgone' hc,
    fun _ hc => absurd hgone' hc, fun _ hc => absurd hgone' hc, h.answered⟩
  · rw [hkept] at hrun
    exact hrun
  · rw [hkept]
    rfl

/-- Whoever is evicted for a member ran until then, and had not been evicted before. -/
theorem Turning.victim (h : Turning S may prefill e₀ ms turn evicted rest e)
    (htaken : TurnTaken S may prefill e id entry g₀ t c victims e') {v : Nat} (hv : v ∈ victims) :
    v ≠ id ∧ v ∉ evicted ∧ ∀ entry', e₀.requests.lookup v = some entry' →
      ∃ seq, e.requests.lookup v = some { entry' with seq := seq } ∧ seq.state = .running ∧
        e'.requests.lookup v = some { entry' with seq := seq.evicted } := by
  obtain ⟨hne, entryᵥ, hlᵥ, hrunᵥ, hnewᵥ, _⟩ := htaken.victim v hv
  refine ⟨hne, fun hc => ?_, fun entry' hl' => ?_⟩
  · obtain ⟨entry₀, hl₀⟩ := IdMap.exists_of_mem ((h.mem v).mp (IdMap.mem_of_lookup hlᵥ))
    obtain ⟨seq, hseq, ha⟩ := h.entry v entry₀ hl₀
    rw [hlᵥ] at hseq
    cases hseq
    have hstate : seq.state = .running := hrunᵥ
    rw [(ha.evicted hc).2] at hstate
    cases hstate
  · obtain ⟨seq, hseq, _⟩ := h.entry v entry' hl'
    rw [hlᵥ] at hseq
    cases hseq
    exact ⟨seq, hlᵥ, hrunᵥ, hnewᵥ⟩

/-- What one more turn has made of every request: the member has had it, the victims are gone,
and the others are as they were. -/
theorem Turning.entry_taken (h : Turning S may prefill e₀ ms turn evicted (id :: rest) e)
    (hm : e₀.Members ms) (hin : (id, entry) ∈ ms) (hgone : id ∉ evicted)
    (htaken : TurnTaken S may prefill e id entry (entry.seq.held.log e₀.shared.pool) t c victims
      e') {id' : Nat} {entry' : Entry} (hl' : e₀.requests.lookup id' = some entry') :
    ∃ seq, e'.requests.lookup id' = some { entry' with seq := seq } ∧
      After S True may prefill entry' (entry'.seq.held.log e₀.shared.pool)
        (Function.update turn id t id') (id' ∈ evicted ++ victims) (id' ∈ rest) seq
        (seq.held.log e'.shared.pool) := by
  by_cases hne : id' = id
  · subst hne
    rw [hm.entries _ hin] at hl'
    cases hl'
    have hgone' : id' ∉ evicted ++ victims :=
      List.mem_append.not.mpr (not_or.mpr ⟨hgone, fun hc => (h.victim htaken hc).1 rfl⟩)
    refine ⟨{ entry.after S.sampleRow t with cache := some c }, htaken.lookup, ?_⟩
    rw [Function.update_self]
    exact htaken.own hgone' (by rw [(hm.ready _ hin).cache_eq]; rfl)
  · obtain ⟨seq, hseq, ha⟩ := h.entry id' entry' hl'
    rw [Function.update_of_ne hne]
    by_cases hv : id' ∈ victims
    · obtain ⟨_, hnotev, hfind⟩ := h.victim htaken hv
      obtain ⟨seq', hseq', hrun', hnew'⟩ := hfind entry' hl'
      rw [hseq] at hseq'
      cases hseq'
      exact ⟨seq.evicted, hnew', ha.evict hnotev hrun' (List.mem_append_right _ hv)⟩
    · have hnot : id' ∉ id :: victims := by simp [hne, hv]
      refine ⟨seq, (htaken.touched.lookup id' hnot).trans hseq, ?_⟩
      rw [htaken.touched.log id' hnot _ hseq]
      exact ha.of_iff (by simp [hv]) (by simp [hne])

/-- Only the member's channel is given anything. -/
theorem Turning.outbox_taken (h : Turning S may prefill e₀ ms turn evicted (id :: rest) e)
    (hm : e₀.Members ms) (hin : (id, entry) ∈ ms)
    (htaken : TurnTaken S may prefill e id entry g₀ t c victims e') (id' : Nat) :
    e'.outbox.filter (·.id = id') = e₀.outbox.filter (·.id = id')
      ++ turnOps S e₀ id' (Function.update turn id t id') := by
  by_cases hne : id' = id
  · subst hne
    rw [htaken.outbox, Function.update_self, h.outbox, (h.due id' List.mem_cons_self).2]
    unfold turnOps
    rw [hm.entries _ hin]
    simp [Entry.item, Sequence.turn]
  · rw [Function.update_of_ne hne, ← h.outbox id']
    by_cases hv : id' ∈ victims
    · obtain ⟨_, _, _, _, _, hsame⟩ := htaken.victim id' hv
      exact hsame
    · exact htaken.touched.outbox id' (by simp [hne, hv])

/-- **One more turn.** -/
theorem Turning.take (h : Turning S may prefill e₀ ms turn evicted (id :: rest) e)
    (hm : e₀.Members ms) (hin : (id, entry) ∈ ms) (hgone : id ∉ evicted) (hid : id ∉ rest)
    (htaken : TurnTaken S may prefill e id entry (entry.seq.held.log e₀.shared.pool) t c victims
      e') :
    Turning S may prefill e₀ ms (Function.update turn id t) (evicted ++ victims) rest e' := by
  have ht := htaken.touched
  have hother : ∀ id', id' ≠ id → Function.update turn id t id' = turn id' :=
    fun id' hne => Function.update_of_ne hne _ _
  have hself : Function.update turn id t id = t := Function.update_self _ _ _
  refine ⟨⟨ht.config.trans h.config, ht.maxModelLen.trans h.maxModelLen,
    h.shape.trans ht.shape, fun id' => (ht.mem id').trans (h.mem id'), ?_, ?_, ?_,
    fun id' entry' hl' => h.entry_taken hm hin hgone htaken hl', h.outbox_taken hm hin htaken,
    fun _ => (h.quiet trivial).trans htaken.quiet⟩, fun id' hnot => ?_, fun id' hrest => ?_,
    fun id' hmem => ?_, fun hp => ?_, fun _ => ⟨id, List.mem_map_of_mem hin, ?_⟩, fun hne => ?_⟩
  · rw [htaken.waiting, h.waiting, List.reverse_append, List.append_assoc]
  · rw [htaken.running, h.running, List.filter_filter]
    refine List.filter_congr fun x _ => ?_
    simp only [List.mem_append, not_or, Bool.decide_and]
    exact Bool.and_comm _ _
  · refine List.nodup_append.mpr ⟨h.distinct, htaken.nodup, fun a ha b hb hab => ?_⟩
    exact (h.victim htaken hb).2.1 (hab ▸ ha)
  · by_cases hne : id' = id
    · exact absurd (List.mem_map_of_mem hin) (hne ▸ hnot)
    · rw [hother id' hne]
      exact h.outside id' hnot
  · obtain ⟨hmem, hturn⟩ := h.due id' (List.mem_cons_of_mem _ hrest)
    rw [hother id' (fun hc => hid (hc ▸ hrest))]
    exact ⟨hmem, hturn⟩
  · by_cases hne : id' = id
    · rw [hne, hself]
      exact Or.inr (Or.inr htaken.served)
    · rw [hother id' hne]
      rcases h.inside id' hmem with hc | hc | hc
      · exact Or.inl ((List.mem_cons.mp hc).resolve_left hne)
      · exact Or.inr (Or.inl (List.mem_append_left _ hc))
      · exact Or.inr (Or.inr hc)
  · rw [h.spared hp, htaken.spared hp]
    rfl
  · rw [hself]
    exact htaken.served
  · by_cases hv : victims = []
    · rw [hv, List.append_nil] at hne
      exact h.pressed hne
    · exact htaken.pressed hv

end

/-- A member that was evicted before its turn is passed over. -/
theorem Turning.skip (h : Turning S may prefill e₀ ms turn evicted (id :: rest) e)
    (hgone : id ∈ evicted) (hid : id ∉ rest) :
    Turning S may prefill e₀ ms turn evicted rest e := by
  refine ⟨⟨h.config, h.maxModelLen, h.shape, h.mem, h.waiting, h.running, h.distinct, ?_,
    h.outbox, h.quiet⟩, h.outside, fun id' hrest => h.due id' (List.mem_cons_of_mem _ hrest),
    fun id' hmem => ?_, h.spared, h.evictor, h.pressed⟩
  · intro id' entry' hl'
    obtain ⟨seq, hseq, ha⟩ := h.entry id' entry' hl'
    refine ⟨seq, hseq, ?_⟩
    by_cases hne : id' = id
    · subst hne
      exact ⟨ha.evicted, fun hc => absurd hgone hc, fun hc => absurd hgone hc,
        fun _ hc => absurd hgone hc, fun _ hc => absurd hgone hc, ha.answered⟩
    · exact ha.of_iff Iff.rfl (by simp [hne])
  · rcases h.inside id' hmem with hc | hc
    · rcases List.mem_cons.mp hc with rfl | hc
      · exact Or.inr (Or.inl hgone)
      · exact Or.inl hc
    · exact Or.inr hc

/-- A request whose cache has been cut back. -/
theorem touched_setCache {c : PagedKvCache} {pool : BlockPool α}
    (h : e.requests.lookup id = some entry) (hstore : SameStore e.shared.pool pool) :
    e.Touched [id] (({ e with shared := { e.shared with pool := pool } }).setCache id c) := by
  have hset : ({ e with shared := { e.shared with pool := pool } }).setCache id c
      = { e with
        shared := { e.shared with pool := pool }
        requests := e.requests.insert id (entry.withCache c) } := by
    unfold setCache
    simp only [h]
    rfl
  rw [hset]
  refine ⟨rfl, rfl, hstore.shape, fun id' => mem_setSeq h, fun id' hid => ?_,
    fun _ _ _ _ => PagedKvCache.log_of_store hstore, fun _ _ => rfl⟩
  exact AList.lookup_insert_ne fun hc => hid (by simp [hc])

/-- **The turn of a member in a recovery**: its cache is cut back to what it held before the
forward, and it is served alone. -/
theorem Turning.recoverOne (hS : S.model.Shaped)
    (h : Turning S may prefill e₀ ms turn evicted (id :: rest) e) (hb : Batch prefill e₀ ms)
    (hlaw : Lawfully S may goal prefill e₀ ms) (hs : e.Sound (owing prefill (id :: rest)) [])
    (hid : id ∉ rest) :
    (EngineLoop.recoverOne S prefill (ms.map (·.1)) (ms.map (·.2.seq.held.length)) e id).Returns
      fun e' => e'.Sound (owing prefill rest) [] ∧
        ∃ turn' evicted', Turning S may prefill e₀ ms turn' evicted' rest e' := by
  have hm := hb.toMembers
  have hsound := hs.recoverOne (ms.map (·.1)) (ms.map (·.2.seq.held.length)) hS
    ((h.mem id).mpr (by
      obtain ⟨m, hin, rfl⟩ := List.mem_map.mp (h.due id List.mem_cons_self).1
      exact IdMap.mem_of_lookup (hm.entries m hin)))
  obtain ⟨e', hrun, hs'⟩ := hsound
  refine ⟨e', hrun, hs', ?_⟩
  unfold EngineLoop.recoverOne at hrun
  by_cases hgone : id ∈ evicted
  · obtain ⟨m, hin, rfl⟩ := List.mem_map.mp (h.due id List.mem_cons_self).1
    obtain ⟨seq, hl, ha⟩ := h.entry m.1 m.2 (hm.entries m hin)
    have hstate : seq.state ≠ .running := by
      rw [(ha.evicted hgone).2]
      exact SeqState.noConfusion
    rw [entry_eq hl, ok_bind, if_pos hstate] at hrun
    cases hrun
    exact ⟨turn, evicted, h.skip hgone hid⟩
  · obtain ⟨entry, c, hin, hl, ha⟩ := h.member hm List.mem_cons_self hgone
    have hr := hm.ready _ hin
    have hstate : (entry.withCache c).seq.state = .running := hr.1
    have hready : (entry.withCache c).seq.Ready := ⟨hstate, c, rfl⟩
    have hopened := ha.rollback trivial not_false rfl trivial
    have hlen : entry.seq.held.length ≤ c.length := by
      refine le_trans hopened.base ?_
      show (entry.withCache c).seq.held.base ≤ c.table.numTokens
      show c.base ≤ _
      unfold PagedKvCache.base
      split
      · exact le_rfl
      · exact Nat.sub_le _ _
    rw [entry_eq hl, ok_bind, if_neg (fun hc => hc hstate), preForwardLength_eq hm.nodup hin]
      at hrun
    obtain ⟨r, htrunc, hrest⟩ := bind_eq_ok.mp hrun
    obtain ⟨truncated, c₁, pool⟩ := r
    obtain ⟨hs₁, hl₁, hcut⟩ := ((hs.weaken (owing_subset prefill id rest)).truncate hl hready
      entry.seq.held.length).of_eq htrunc
    have hcut := hcut hlen
    simp only at hs₁ hl₁ hcut hrest
    have htouch := touched_setCache (c := c₁) hl hcut.store
    generalize he₁ : ({ e with shared := { e.shared with pool := pool } }).setCache id c₁ = e₁
      at hs₁ hl₁ hrest htouch
    have hsame : e₁.waiting = e.waiting ∧ e₁.running = e.running ∧ e₁.outbox = e.outbox ∧
        e₁.shared = { e.shared with pool := pool } := by
      rw [← he₁]
      unfold setCache
      cases e.requests.lookup id <;> exact ⟨rfl, rfl, rfl, rfl⟩
    obtain ⟨hw, hrunning, hout, hshared⟩ := hsame
    have hquiet : e.Quiet e₁ := ⟨by rw [hshared], by rw [hshared]; exact hcut.exhaustions⟩
    have hlog : c₁.log e₁.shared.pool = entry.seq.held.log e₀.shared.pool := by
      rw [hshared, ← hopened.log]
      exact hcut.log hopened.base
    have hfits : e₁.Fits goal := by
      have hfits := h.toPassing.fits trivial hlaw hm (fun x hx => (h.due x hx).1) h.outside
      refine hfits.touched htouch hquiet.others fun id' hid' entry' hl' => ?_
      rw [List.mem_singleton.mp hid'] at hl' ⊢
      rw [hl₁] at hl'
      cases hl'
      refine ⟨?_, _, hl, fun _ => rfl⟩
      show c₁.length ≤ goal id
      rw [hcut.length]
      exact le_trans (Nat.le_add_right _ _) (hlaw.ripe _ hin).length_le
    have hservable : e₁.Servable S may goal prefill id (entry.withCache c₁) := by
      refine ⟨hlaw.contract, ?_, hfits, ?_, ?_⟩
      · rw [htouch.shape.geom, h.shape.geom]
        exact hlaw.geometry
      · refine ⟨hb.tokens _ hin, ?_, hcut.nextLayer⟩
        show positionsFrom (if prefill then 0 else c₁.length) _ = positionsFrom c₁.length _
        cases prefill with
        | false => rfl
        | true =>
            rw [hcut.length, (hlaw.ripe _ hin).empty rfl]
            rfl
      · show c₁.length + _ ≤ goal id
        rw [hcut.length]
        exact (hlaw.ripe _ hin).length_le
    have hgen := hs₁.recoverMember (L := True) hS le_rfl hl₁ ⟨hr.1, c₁, rfl⟩
      (fun hp => hb.generated hp _ hin) fun _ => hservable
    obtain ⟨t, c', victims, hrec⟩ := hgen.of_eq hrest
    have hrec : Recovered S True may prefill e₁ id (entry.withCache c₁) (owing prefill rest) t c'
        victims e' := hrec
    exact ⟨_, _, h.take hm hin hgone hid
      (hrec.taken htouch hw hrunning hquiet hout hcut.length hlog)⟩

/-- **A recovery** gives every member its turn. -/
theorem Turning.recoverForwardFailure (hS : S.model.Shaped)
    (h : Turning S may prefill e₀ ms turn evicted (ms.map (·.1)) e) (hb : Batch prefill e₀ ms)
    (hlaw : Lawfully S may goal prefill e₀ ms) (hs : e.Sound (owing prefill (ms.map (·.1))) []) :
    (EngineLoop.recoverForwardFailure S prefill (ms.map (·.1)) (ms.map (·.2.seq.held.length))
      e).Returns fun e' => e'.Sound [] [] ∧
        ∃ turn' evicted', Turning S may prefill e₀ ms turn' evicted' [] e' := by
  refine (Returns.foldlM (fun rest e' => rest.Nodup ∧ e'.Sound (owing prefill rest) [] ∧
    ∃ turn' evicted', Turning S may prefill e₀ ms turn' evicted' rest e') ?_ (ms.map (·.1)) e
    ⟨hb.nodup, hs, turn, evicted, h⟩).mono ?_
  · rintro id rest e₁ ⟨hnd, hs₁, turn₁, evicted₁, h₁⟩
    obtain ⟨hid, hnd'⟩ := List.nodup_cons.mp hnd
    refine (h₁.recoverOne hS hb hlaw hs₁ hid).mono ?_
    rintro e₂ ⟨hs₂, h₂⟩
    exact ⟨hnd', hs₂, h₂⟩
  · rintro e' ⟨_, hs', h'⟩
    rw [owing_nil] at hs'
    exact ⟨hs', h'⟩

/-! ### Members that are answered together

A lawful forward answers each member with the row that its own log and tokens decide.  The
batched sampler treats the rows one by one, so what is delivered is a turn as well. -/

omit [Zero α] in
/-- What the sampler hands over for a member and its row of logits. -/
def delivery (S : Services σ α) (mr : (Nat × Entry) × List F32) :
    Nat × SampleResult × StatusOr Unit :=
  match mr.1.2.seq.sampler.sampleWithLogprobs S.sampleRow mr.2
      ⟨mr.1.2.request.promptIds, mr.1.2.seq.generatedIds⟩ with
  | .ok result => (mr.1.1, result, .ok ())
  | .error status => (mr.1.1, {}, .error status)

omit [Zero α] in
theorem deliverRow_eq {m : Nat × Entry} {c : PagedKvCache} {row : List F32}
    (h : e.requests.lookup m.1 = some (m.2.withCache c)) (hrun : m.2.seq.state = .running)
    (hopen : e.closed m.1 = false) :
    e.deliverRow (delivery S (m, row))
      = .ok (e.served S.sampleRow m.1 (m.2.withCache c) (.answered row)) := by
  refine Eq.trans ?_ (answer_eq h hrun hopen row)
  unfold deliverRow delivery
  show _ = (match m.2.seq.sampler.sampleWithLogprobs S.sampleRow row
    ⟨m.2.request.promptIds, m.2.seq.generatedIds⟩ with | .ok next => _ | .error status => _)
  cases m.2.seq.sampler.sampleWithLogprobs S.sampleRow row
    ⟨m.2.request.promptIds, m.2.seq.generatedIds⟩ <;> rfl

omit [Zero α] in
/-- What the batched sampler leaves, row by row. -/
theorem sample_deliveries {logits : Tensor F32} {vocab : Int} (hvocab : 0 < vocab)
    (hdims : logits.dims = [ms.length, vocab.toNat]) :
    ∃ results rowStatus,
      BatchedSampler.sample S.sampleRow logits.values vocab
          (ms.map fun m => ⟨some m.2.seq.sampler, m.2.request.promptIds, m.2.seq.generatedIds⟩)
          (List.replicate ms.length {}) (List.replicate ms.length (.ok ()))
        = (.ok (), results, rowStatus) ∧
      (ms.map (·.1)).zip (results.zip rowStatus)
        = ms.zipIdx.map fun mb =>
            delivery S (mb.1, BatchedSampler.row logits.values vocab.toNat mb.2) := by
  have hnone : (ms.map fun m => (⟨some m.2.seq.sampler, m.2.request.promptIds,
      m.2.seq.generatedIds⟩ : BatchRow)).findIdx? (fun r => r.sampler.isNone) = none := by
    rw [List.findIdx?_eq_none_iff]
    intro r hr
    obtain ⟨m, _, rfl⟩ := List.mem_map.mp hr
    rfl
  have hlen : (logits.values.length : Int) = ms.length * vocab := by
    have hnum : logits.values.length = ms.length * vocab.toNat := by
      unfold Tensor.values FlatMemory.indices
      rw [List.length_map, List.length_map, List.length_range, Int.toNat_natCast]
      unfold Tensor.numel
      rw [hdims]
      simp
    rw [hnum]
    push_cast
    rw [Int.toNat_of_nonneg hvocab.le]
  unfold BatchedSampler.sample
  rw [if_neg (by omega), if_neg (by simp), if_neg (by simp), if_neg (by simpa using hlen), hnone]
  refine ⟨_, _, rfl, List.ext_getElem (by simp) fun b hb hb' => ?_⟩
  simp only [List.getElem_zip, List.getElem_map, List.getElem_zipWith, List.getElem_mapIdx,
    List.getElem_replicate, List.getElem_zipIdx, Nat.zero_add]
  unfold BatchedSampler.sampleOne delivery
  simp only
  split <;> simp_all [Except.map]

/-- Members that have been answered together, each with its row, and are to be sampled. -/
structure Answering (S : Services σ α) (may : Answers α) (prefill : Bool) (e₀ : EngineLoop σ α)
    (ms : List (Nat × Entry)) (turn : Nat → Turn) (todo : List ((Nat × Entry) × List F32))
    (e : EngineLoop σ α) : Prop
    extends Turning S may prefill e₀ ms turn [] (todo.map (·.1.1)) e where
  nodup : (todo.map (·.1.1)).Nodup
  sound : e.Sound (owing prefill (todo.map (·.1.1))) []
  answer : ∀ mr ∈ todo, mr.1 ∈ ms ∧ ∃ c,
    e.requests.lookup mr.1.1 = some (mr.1.2.withCache c) ∧
      Served may prefill mr.1.2 (mr.1.2.seq.held.log e₀.shared.pool) (.answered mr.2) c
        (c.log e.shared.pool)

/-- **The delivery of a row** is the turn of its member. -/
theorem Answering.deliverRow {mr : (Nat × Entry) × List F32}
    {todo : List ((Nat × Entry) × List F32)}
    (h : Answering S may prefill e₀ ms turn (mr :: todo) e) (hm : e₀.Members ms) :
    (e.deliverRow (delivery S mr)).Returns fun e' =>
      ∃ turn', Answering S may prefill e₀ ms turn' todo e' := by
  obtain ⟨⟨id, entry⟩, row⟩ := mr
  obtain ⟨hin, c, hl, hserved⟩ := h.answer _ List.mem_cons_self
  have hsound := h.sound
  have hnodup := h.nodup
  rw [List.map_cons] at hsound hnodup
  obtain ⟨hid, hnd⟩ := List.nodup_cons.mp hnodup
  have hrun : entry.seq.state = .running := (hm.ready _ hin).1
  have hs := hsound.weaken (owing_subset prefill id (todo.map (·.1.1)))
  rw [deliverRow_eq (m := (id, entry)) hl hrun (hs.open_of_lookup hl)]
  have htouch : e.Touched [id] (e.served S.sampleRow id (entry.withCache c) (.answered row)) :=
    touched_served hl (.answered row)
  have htaken : TurnTaken S may prefill e id entry (entry.seq.held.log e₀.shared.pool)
      (.answered row) c [] (e.served S.sampleRow id (entry.withCache c) (.answered row)) := by
    refine ⟨by simp, htouch, rfl, by simp [served, setSeq, emit], by simp, List.nodup_nil, ?_, ?_,
      ⟨rfl, rfl⟩, hserved, fun _ => rfl, fun hc => absurd rfl hc⟩
    · rw [lookup_served, Entry.after_withCache]
      rfl
    · rw [outbox_served, Entry.item_withCache]
  refine returns_ok ⟨_, ⟨h.toTurning.take hm hin List.not_mem_nil hid htaken, hnd,
    hs.served hl hrun (by simp), fun mr' hmr' => ?_⟩⟩
  obtain ⟨hin', c', hl', hserved'⟩ := h.answer mr' (List.mem_cons_of_mem _ hmr')
  have hne : mr'.1.1 ≠ id := fun hc => hid (List.mem_map.mpr ⟨mr', hmr', hc⟩)
  exact ⟨hin', c', (htouch.lookup _ (by simpa using hne)).trans hl', hserved'⟩

theorem Answering.deliverRows {todo : List ((Nat × Entry) × List F32)} (turn : Nat → Turn)
    (h : Answering S may prefill e₀ ms turn todo e) (hm : e₀.Members ms) :
    ((todo.map (delivery S)).foldlM EngineLoop.deliverRow e).Returns fun e' =>
      e'.Sound [] [] ∧ ∃ turn', Turning S may prefill e₀ ms turn' [] [] e' := by
  rw [List.foldlM_map]
  refine (Returns.foldlM (fun rest e' => ∃ turn', Answering S may prefill e₀ ms turn' rest e') ?_
    todo e ⟨turn, h⟩).mono ?_
  · rintro mr rest e₁ ⟨turn₁, h₁⟩
    exact h₁.deliverRow hm
  · rintro e' ⟨turn', h'⟩
    have hs := h'.sound
    rw [List.map_nil, owing_nil] at hs
    exact ⟨hs, turn', h'.toTurning⟩

/-! ### A pass

The two ways a pass can go are put together. -/

theorem Lawfully.formed (hlaw : Lawfully S may goal prefill e₀ ms) (hb : Batch prefill e₀ ms) :
    ∀ fs ∈ ms.map (·.2.part prefill), fs.Formed := by
  intro fs hfs
  obtain ⟨m, hm, rfl⟩ := List.mem_map.mp hfs
  exact ⟨hb.tokens m hm, rfl, (hlaw.ripe m hm).committed⟩

/-- A pass with no members. -/
theorem turning_nil (S : Services σ α) (may : Answers α) (prefill : Bool) (e : EngineLoop σ α) :
    Turning S may prefill e [] (fun _ => .waits) [] [] e := by
  refine ⟨⟨rfl, rfl, SameShape.refl _, fun _ => Iff.rfl, rfl, by simp, List.nodup_nil,
    fun id entry hl => ⟨entry.seq, hl, fun hc => absurd hc List.not_mem_nil, fun _ => ⟨rfl, rfl⟩,
      fun _ _ _ => ⟨rfl, rfl⟩, fun _ _ _ hc => absurd hc List.not_mem_nil,
      fun _ _ hc => absurd rfl hc, fun _ row hc => by cases hc⟩, fun id => ?_, fun _ => ⟨rfl, rfl⟩⟩,
    fun _ _ => rfl, fun id hid => absurd hid List.not_mem_nil,
    fun id hid => absurd hid List.not_mem_nil, fun _ => rfl, fun hc => absurd rfl hc,
    fun hc => absurd rfl hc⟩
  unfold turnOps
  cases e.requests.lookup id <;> exact (List.append_nil _).symm

/-- **Every pass comes to turns**: of a model that keeps its contract each member gets what its
own log and its own tokens decide, unless it is evicted first. -/
theorem Sound.runBatchPass_turning (hS : S.model.Shaped)
    (hs : e₀.Sound (owing prefill (ms.map (·.1))) []) (hb : Batch prefill e₀ ms)
    (hlaw : Lawfully S may goal prefill e₀ ms) :
    (EngineLoop.runBatchPass S prefill (ms.map (·.1)) e₀).Returns fun e' => e'.Sound [] [] ∧
      ∃ turn evicted, Turning S may prefill e₀ ms turn evicted [] e' := by
  have hm := hb.toMembers
  unfold EngineLoop.runBatchPass
  by_cases hempty : (ms.map (·.1)).isEmpty = true
  · rw [if_pos hempty]
    have hnil : ms = [] := List.map_eq_nil_iff.mp (List.isEmpty_iff.mp hempty)
    subst hnil
    rw [List.map_nil, owing_nil] at hs
    exact returns_pure ⟨hs, _, _, turning_nil S may prefill e₀⟩
  · rw [if_neg hempty, hb.inputs, ok_bind, flatten_staged hb.tokens]
    simp only
    rw [hb.lengths, ok_bind]
    have hreq : (ms.map (·.2.part prefill)).map (·.cache) = ms.map (·.2.seq.held) := by
      rw [List.map_map]
      rfl
    have hforward := hs.forward hm S ⟨true, ms.map fun m => m.2.part prefill⟩ hreq
    refine Returns.bind hforward ?_
    rintro r ⟨called, hcall, rfl, hfwd, hkept, hlogits⟩
    have hs' := hs.forwarded hm hfwd
    -- what the contract says of the batched forward
    have hbooks := hs.poolBooks hm
    rw [← hreq] at hbooks
    have hroom := hlaw.fits.room_for hs hm (fun m => m.2.part prefill) (fun _ _ => rfl)
      fun m hmem => (hlaw.ripe m hmem).length_le
    have hcalled := (S.model.call_lawful hlaw.contract e₀.state
      ⟨true, ms.map fun m => m.2.part prefill⟩ (hlaw.formed hb) hlaw.geometry hbooks hroom).of_eq
      hcall
    have hpart : ∀ {b : Nat} {m : Nat × Entry}, ms[b]? = some m →
        (ms.map fun m => m.2.part prefill)[b]? = some (m.2.part prefill) := by
      intro b m hbm
      rw [List.getElem?_map, hbm]
      rfl
    have hstart : Turning S may prefill e₀ ms (fun _ => .waits) [] (ms.map (·.1))
        (e₀.forwarded ms called) := by
      refine ⟨Passing.start hs hm hfwd hkept (fun _ => ⟨hcalled.others, hcalled.exhaustions⟩)
        fun _ b m hbm => ?_, fun _ _ => rfl, fun id hid => ⟨hid, rfl⟩, fun id hid => Or.inl hid,
        fun _ => rfl, fun hc => absurd rfl hc, fun hc => absurd rfl hc⟩
      obtain ⟨c, hc, hg⟩ := hcalled.member b _ (hpart hbm)
      refine ⟨c, _, hc, hg, ?_, (hlaw.ripe m (List.mem_of_getElem? hbm)).committed⟩
      rw [hlaw.geometry]
      exact hlaw.contract.layered e₀.state ⟨true, ms.map fun m => m.2.part prefill⟩
        e₀.shared.pool (hlaw.formed hb) b _ (hpart hbm)
    cases hans : called.logits with
    | error status => exact hstart.recoverForwardFailure hS hb hlaw hs'
    | ok logits =>
        have hdims := hS.dims _ _ _ _ (hlogits logits hans)
        rw [List.length_map] at hdims
        have hvocab := hS.vocab_pos
        have hnumel : (logits.numel : Int) = (ms.map (·.1)).length * S.model.vocabSize := by
          unfold Tensor.numel
          rw [hdims, List.length_map]
          simp [Int.toNat_of_nonneg hvocab.le]
        obtain ⟨results, rowStatus, hsample, hrows⟩ := sample_deliveries (S := S) hvocab hdims
        simp only
        rw [check_of_true (by simpa using hnumel), ok_bind, List.length_map, hsample]
        simp only
        rw [hrows]
        have hmap : ms.zipIdx.map (fun mb => delivery S
            (mb.1, BatchedSampler.row logits.values S.model.vocabSize.toNat mb.2))
            = (ms.zipIdx.map fun mb => (mb.1,
              BatchedSampler.row logits.values S.model.vocabSize.toNat mb.2)).map (delivery S) := by
          rw [List.map_map]
          rfl
        have hids : (ms.zipIdx.map fun mb => (mb.1,
            BatchedSampler.row logits.values S.model.vocabSize.toNat mb.2)).map (·.1.1)
            = ms.map (·.1) := by
          rw [List.map_map]
          show ms.zipIdx.map ((·.1) ∘ Prod.fst) = _
          rw [← List.map_map, List.zipIdx_map_fst]
        rw [hmap]
        refine (Answering.deliverRows (fun _ => .waits) ⟨?_, ?_, ?_, fun mr hmr => ?_⟩
          hm).mono fun e' h' => ⟨h'.1, h'.2.choose, [], h'.2.choose_spec⟩
        · rw [hids]
          exact hstart
        · rw [hids]
          exact hb.nodup
        · rw [hids]
          exact hs'
        · obtain ⟨mb, hmb, rfl⟩ := List.mem_map.mp hmr
          have hbm : ms[mb.2]? = some mb.1 := List.mem_zipIdx_iff_getElem?.mp hmb
          obtain ⟨c, hc, hmay, hnext, hlen⟩ := hcalled.answered hlaw.contract (hlaw.formed hb)
            hlaw.geometry hs.exclusive.layers_pos hans (hpart hbm)
          exact ⟨List.mem_of_getElem? hbm, c, hfwd.lookup_member hm hbm hc, hmay, hlen.le,
            fun _ _ => ⟨hnext, hlen⟩⟩

end EngineLoop

end InferenceEngine
