/-
The plan of a step, and the passes that carry it out.

The scheduler sees a descriptor of every live sequence.  Its plan splits what runs into decodes
and victims and takes the first of what waits; `Arranged` says exactly what evicting the ones
and admitting the others makes of the lists and of each request.  Both passes of a settled engine
are then built of running sequences, so a step returns whatever the model answers.
-/
import InferenceEngine.Lib.Loops
import InferenceEngine.Proofs.EngineStep
import InferenceEngine.Proofs.Scheduler

namespace InferenceEngine

open Except BlockPool

namespace Entry

/-- How the scheduler sees a sequence that waits. -/
def asWaiting (entry : Entry) (id : Nat) : SeqDesc :=
  ⟨id, entry.request.arrivalIndex, 0, entry.request.promptIds.length + entry.seq.numGenerated, 0⟩

/-- How the scheduler sees a sequence that runs. -/
def asRunning (entry : Entry) (id : Nat) : SeqDesc :=
  ⟨id, entry.request.arrivalIndex, entry.seq.held.length, 0, entry.seq.held.table.blocks.length⟩

/-- What a plan makes of a request. -/
def arrange (victims taken : List Nat) (id : Nat) (entry : Entry) : Entry :=
  if id ∈ victims then { entry with seq := entry.seq.evicted }
  else if id ∈ taken then { entry with seq := { entry.seq.ensureCache with state := .running } }
  else entry

end Entry

namespace EngineLoop

variable {σ α : Type} {e e' : EngineLoop σ α} {id : Nat} {entry : Entry}
  {fresh retired : List Nat} {ws rs : List (Nat × Entry)} {victims taken : List Nat}

/-! ### What the scheduler sees

The descriptors that the scheduler is given are those of the listed requests, in their order, so
its specification may be read as one about the engine. -/

/-- The live requests with their entries: those that wait, and those that run. -/
structure Roster (e : EngineLoop σ α) (ws rs : List (Nat × Entry)) : Prop where
  waiting : ws.map (·.1) = e.waiting
  running : rs.map (·.1) = e.running
  waits : ∀ m ∈ ws, e.requests.lookup m.1 = some m.2 ∧ m.2.seq.Parked
  runs : ∀ m ∈ rs, e.requests.lookup m.1 = some m.2 ∧ m.2.seq.Ready

/-- What `ScheduleStep` hands to the scheduler. -/
def planInputs (e : EngineLoop σ α) (ws rs : List (Nat × Entry)) : ScheduleInputs where
  waiting := ws.map fun m => m.2.asWaiting m.1
  running := rs.map fun m => m.2.asRunning m.1
  pool :=
    { freeBlocks := e.shared.pool.freeBlocks
      totalBlocks := e.shared.pool.numBlocks
      blockSize := e.shared.pool.blockSize }
  config :=
    { maxNumSeqs := e.config.maxNumSeqs
      maxNumBatchedTokens := e.config.maxNumBatchedTokens }

theorem waitingDesc_ok (h : e.requests.lookup id = some entry) :
    e.waitingDesc id = .ok (entry.asWaiting id) := by
  unfold waitingDesc
  rw [entry_eq h]
  rfl

theorem runningDesc_ok (h : e.requests.lookup id = some entry) (hr : entry.seq.Ready) :
    e.runningDesc id = .ok (entry.asRunning id) := by
  unfold runningDesc
  rw [entry_eq h, ok_bind]
  simp only [hr.cache_eq]
  rfl

theorem Settled.roster (h : e.Settled) : ∃ ws rs, e.Roster ws rs := by
  have hwaiting : ∀ id ∈ e.waiting, id ∈ e.requests := fun id hid =>
    (h.sound.live id).mp (List.mem_append_left _ hid)
  have hrunning : ∀ id ∈ e.running, id ∈ e.requests := fun id hid =>
    (h.sound.live id).mp (List.mem_append_right _ hid)
  obtain ⟨ws, hws, hwl⟩ := IdMap.exists_entries hwaiting
  obtain ⟨rs, hrs, hrl⟩ := IdMap.exists_entries hrunning
  refine ⟨ws, rs, hws, hrs, fun m hm => ⟨hwl m hm, ?_⟩, fun m hm => ⟨hrl m hm, ?_⟩⟩
  · have hid : m.1 ∈ e.waiting := hws ▸ List.mem_map_of_mem hm
    exact (h.sound.parked m.1 hid m.2 (hwl m hm)).resolve_left List.not_mem_nil
  · have hid : m.1 ∈ e.running := hrs ▸ List.mem_map_of_mem hm
    exact (h.sound.running_of_state (hrl m hm) (h.running m.1 hid m.2 (hrl m hm))).2

theorem Roster.scheduleStep_eq (h : e.Roster ws rs) :
    e.scheduleStep = Scheduler.schedule .ok (e.planInputs ws rs) := by
  have hw : e.waiting.mapM e.waitingDesc = .ok (ws.map fun m => m.2.asWaiting m.1) := by
    rw [← h.waiting, List.mapM_map]
    exact mapM_ok fun m hm => waitingDesc_ok (h.waits m hm).1
  have hr : e.running.mapM e.runningDesc = .ok (rs.map fun m => m.2.asRunning m.1) := by
    rw [← h.running, List.mapM_map]
    exact mapM_ok fun m hm => runningDesc_ok (h.runs m hm).1 (h.runs m hm).2
  unfold EngineLoop.scheduleStep
  rw [hw, ok_bind, hr, ok_bind]
  rfl

theorem Sound.planValid (hs : e.Sound fresh retired) (ws rs : List (Nat × Entry)) :
    Scheduler.Valid (e.planInputs ws rs) := by
  refine ⟨Int.natCast_pos.mpr hs.exclusive.blockSize_pos, hs.maxNumSeqs, hs.maxNumBatchedTokens,
    ?_, fun d hd => ?_, fun d hd => ?_⟩
  · show 0 ≤ e.shared.pool.freeBlocks
    rw [hs.exclusive.owned.freeBlocks_eq]
    exact Int.natCast_nonneg _
  · obtain ⟨m, _, rfl⟩ := List.mem_map.mp hd
    exact ⟨Int.natCast_nonneg _, le_refl _, Int.natCast_nonneg _⟩
  · obtain ⟨m, _, rfl⟩ := List.mem_map.mp hd
    exact ⟨le_refl _, Int.add_nonneg (Int.natCast_nonneg _) (Int.natCast_nonneg _), le_refl _⟩

/-- **The plan of the engine is the plan of the code**, which counts in 64 bits, as long as the
tokens and blocks of all live requests can be added up. -/
theorem Roster.scheduleStep_int64 (h : e.Roster ws rs) (hs : e.Sound fresh retired)
    (ht : Scheduler.Typed Scheduler.FitsInt64 (e.planInputs ws rs))
    (hsmall : Scheduler.Small (e.planInputs ws rs)) :
    e.scheduleStep = Scheduler.schedule int64 (e.planInputs ws rs) := by
  have hvalid := hs.planValid ws rs
  rw [h.scheduleStep_eq, Scheduler.schedule_exact hvalid ht (hsmall.sumsFit hvalid)]

/-- The ids of the running sequences, as the scheduler numbers them. -/
theorem Roster.running_ids (h : e.Roster ws rs) :
    (e.planInputs ws rs).running.zipIdx.map (·.1.id) = e.running := by
  have hfst : (fun s : SeqDesc × Nat => s.1.id) = (·.id) ∘ Prod.fst := rfl
  rw [hfst, ← List.map_map, List.zipIdx_map_fst]
  show (rs.map fun m => m.2.asRunning m.1).map (·.id) = _
  rw [List.map_map, ← h.running]
  rfl

/-- **A settled engine makes a plan**, which splits what runs into victims and decodes. -/
theorem Settled.scheduleStep (h : e.Settled) : e.scheduleStep.Returns fun out =>
    Planned e out ∧ (out.decode ++ out.preempt).Perm e.running := by
  obtain ⟨ws, rs, hr⟩ := h.roster
  obtain ⟨out, hout, kept, victims, admitted, rest, hp⟩ :=
    Scheduler.schedule_spec (h.sound.planValid ws rs)
  rw [← hr.scheduleStep_eq] at hout
  refine ⟨out, hout, scheduleStep_ensures e out hout, ?_⟩
  rw [hp.decode, hp.preempt, ← List.map_append, ← hr.running_ids]
  exact hp.account.perm.map fun s : SeqDesc × Nat => s.1.id

/-! ### Evicting and admitting

Neither depends on the pool: a victim gives its blocks back, and whoever is admitted owns none
yet. -/

/-- The engine once `victims` have been evicted and `taken` admitted. -/
structure Arranged (e : EngineLoop σ α) (victims taken : List Nat) (e' : EngineLoop σ α) :
    Prop where
  config : e'.config = e.config
  maxModelLen : e'.maxModelLen = e.maxModelLen
  others : e'.shared.others = e.shared.others
  store : SameStore e.shared.pool e'.shared.pool
  exhaustions : e'.shared.pool.exhaustions = e.shared.pool.exhaustions
  waiting : e'.waiting = (victims.reverse ++ e.waiting).filter (· ∉ taken)
  running : e'.running = e.running.filter (· ∉ victims) ++ taken
  lookup : ∀ id, e'.requests.lookup id
    = (e.requests.lookup id).map (Entry.arrange victims taken id)
  outbox : e'.outbox = e.outbox

theorem Arranged.refl (e : EngineLoop σ α) : Arranged e [] [] e := by
  refine ⟨rfl, rfl, rfl, SameStore.refl _, rfl, by simp, by simp, fun id => ?_, rfl⟩
  cases e.requests.lookup id <;> simp [Entry.arrange]

/-- One more victim. -/
theorem Arranged.evict {pool : BlockPool α} (h : Arranged e victims [] e')
    (hl : e'.requests.lookup id = some entry) (hid : id ∉ victims)
    (hstore : SameStore e'.shared.pool pool)
    (hexh : pool.exhaustions = e'.shared.pool.exhaustions) :
    Arranged e (victims ++ [id]) [] (e'.evict id entry pool) := by
  refine ⟨h.config, h.maxModelLen, h.others, h.store.trans hstore, hexh.trans h.exhaustions, ?_, ?_,
    fun id' => ?_, h.outbox⟩
  · show id :: e'.waiting = _
    rw [h.waiting]
    simp
  · show e'.running.filter (· ≠ id) = _
    rw [h.running, List.append_nil, List.append_nil, List.filter_filter]
    refine List.filter_congr fun x _ => ?_
    simp only [List.mem_append, List.mem_singleton, not_or, Bool.decide_and]
    exact Bool.and_comm _ _
  · show (e'.requests.insert id _).lookup id' = _
    by_cases hne : id' = id
    · subst hne
      rw [h.lookup id'] at hl
      obtain ⟨old, hold, hentry⟩ := Option.map_eq_some_iff.mp hl
      rw [AList.lookup_insert, hold]
      rw [← hentry]
      simp [Entry.arrange, hid]
    · rw [AList.lookup_insert_ne hne, h.lookup id']
      refine Option.map_congr fun old _ => ?_
      simp [Entry.arrange, hne]

/-- One more sequence taken in. -/
theorem Arranged.take (h : Arranged e victims taken e')
    (hl : e'.requests.lookup id = some entry) (hid : id ∉ victims) (hnew : id ∉ taken) :
    Arranged e victims (taken ++ [id]) (e'.admitted id entry) := by
  refine ⟨h.config, h.maxModelLen, h.others, h.store, h.exhaustions, ?_, ?_, fun id' => ?_,
    h.outbox⟩
  · show e'.waiting.filter (· ≠ id) = _
    rw [h.waiting, List.filter_filter]
    refine List.filter_congr fun x _ => ?_
    simp only [List.mem_append, List.mem_singleton, not_or, Bool.decide_and]
    exact Bool.and_comm _ _
  · show e'.running ++ [id] = _
    rw [h.running, List.append_assoc]
  · show (e'.requests.insert id _).lookup id' = _
    by_cases hne : id' = id
    · subst hne
      rw [h.lookup id'] at hl
      obtain ⟨old, hold, hentry⟩ := Option.map_eq_some_iff.mp hl
      rw [AList.lookup_insert, hold]
      rw [← hentry]
      simp [Entry.arrange, hid, hnew]
    · rw [AList.lookup_insert_ne hne, h.lookup id']
      refine Option.map_congr fun old _ => ?_
      simp [Entry.arrange, hne]

/-- Eviction leaves whoever else runs. -/
theorem Going.evict {pool : BlockPool α} (h : e.Going retired) :
    (e.evict id entry pool).Going retired := by
  intro id' hid' hnot entry' hl
  obtain ⟨hid', hne⟩ := List.mem_filter.mp hid'
  rcases IdMap.lookup_insert_iff.mp hl with ⟨rfl, _⟩ | ⟨_, hl⟩
  · simp at hne
  · exact h id' hid' hnot entry' hl

theorem Going.admitted (h : e.Going retired) : (e.admitted id entry).Going retired := by
  intro id' hid' hnot entry' hl
  rcases lookup_setSeq.mp hl with ⟨_, rfl⟩ | ⟨hne, hl⟩
  · rfl
  · refine h id' ((List.mem_append.mp hid').resolve_right fun hc => ?_) hnot entry' hl
    exact hne (List.mem_singleton.mp hc)

/-- What a step has in hand when its passes begin. -/
structure Prepared (e : EngineLoop σ α) (out : SchedulerOutput) (e' : EngineLoop σ α) : Prop where
  planned : e.scheduleStep = .ok out
  plan : Planned e out
  split : (out.decode ++ out.preempt).Perm e.running
  arranged : Arranged e out.preempt (out.prefill.map (·.id)) e'
  sound : e'.Sound (out.prefill.map (·.id)) []
  going : e'.Going []

theorem Prepared.prefill {out : SchedulerOutput} (h : Prepared e out e') :
    ∀ id ∈ out.prefill.map (·.id), id ∈ e'.running := by
  intro id hid
  rw [h.arranged.running]
  exact List.mem_append_right _ hid

theorem Prepared.not_victim {out : SchedulerOutput} (h : Prepared e out e')
    (hs : e.Sound [] []) : ∀ id ∈ out.decode, id ∉ out.preempt := by
  have hnd := h.split.nodup_iff.mpr (List.nodup_append.mp hs.once).2.1
  exact fun id hid hc => (List.nodup_append.mp hnd).2.2 id hid id hc rfl

theorem Prepared.decode {out : SchedulerOutput} (h : Prepared e out e') (hs : e.Sound [] []) :
    ∀ id ∈ out.decode, id ∈ e'.running := by
  intro id hid
  rw [h.arranged.running]
  refine List.mem_append_left _ (List.mem_filter.mpr
    ⟨h.split.subset (List.mem_append_left _ hid), ?_⟩)
  exact decide_eq_true (h.not_victim hs id hid)

/-- **Victims are evicted and sequences admitted** without a fault. -/
theorem Settled.beforePasses (h : e.Settled) :
    e.beforePasses.Returns fun r => Prepared e r.1 r.2 := by
  unfold EngineLoop.beforePasses
  obtain ⟨out, hout, hplan, hperm⟩ := h.scheduleStep
  rw [hout, ok_bind]
  have hnd := (List.nodup_append.mp h.sound.once).2.1
  obtain ⟨_, hndp, _⟩ := List.nodup_append.mp (hperm.nodup_iff.mpr hnd)
  have hvictims : ∀ id ∈ out.preempt, id ∈ e.running := fun id hid =>
    hperm.subset (List.mem_append_right _ hid)
  refine Returns.bind (Returns.foldlM (fun rest e₁ => (e₁.Sound [] [] ∧ e₁.Going []) ∧
    ∃ done, done ++ rest = out.preempt ∧ Arranged e done [] e₁) ?_ out.preempt e
    ⟨⟨h.sound, h.going⟩, [], rfl, .refl e⟩) ?_
  · rintro id rest e₁ ⟨⟨hs₁, hg₁⟩, done, hdone, harr⟩
    rw [← hdone] at hndp
    have hid : id ∉ done := fun hc =>
      (List.nodup_append.mp hndp).2.2 id hc id List.mem_cons_self rfl
    have hrun : id ∈ e₁.running := by
      rw [harr.running, List.append_nil]
      refine List.mem_filter.mpr ⟨hvictims id ?_, decide_eq_true hid⟩
      rw [← hdone]
      simp
    obtain ⟨entry, hl⟩ := hs₁.entry_of_running hrun
    refine (hs₁.preempt hl (hg₁ id hrun List.not_mem_nil entry hl)).mono ?_
    rintro e₂ ⟨pool, rfl, hstore, hexh, hs₂⟩
    refine ⟨⟨hs₂, hg₁.evict⟩, done ++ [id], ?_, harr.evict hl hid hstore hexh⟩
    rw [List.append_assoc]
    exact hdone
  · rintro e₁ ⟨⟨hs₁, hg₁⟩, done, hdone, harr⟩
    rw [List.append_nil] at hdone
    subst hdone
    have hndw : (out.prefill.map (·.id)).Nodup :=
      hplan.prefill.nodup (List.nodup_append.mp h.sound.once).1
    -- whoever is admitted waits, so it is no victim
    have hwaits : ∀ id ∈ out.prefill.map (·.id), id ∈ e.waiting ∧ id ∉ out.preempt := fun id hid =>
      ⟨hplan.prefill.subset hid, fun hc => List.disjoint_of_nodup_append h.sound.once
        (hplan.prefill.subset hid) (hvictims id hc)⟩
    refine Returns.bind (Returns.foldlM (fun (rest : List Prefill) e₂ =>
      (e₂.Sound (out.prefill.map (·.id)) [] ∧ e₂.Going []) ∧ ∃ admitted,
        admitted ++ rest.map (·.id) = out.prefill.map (·.id) ∧
          Arranged e out.preempt admitted e₂) ?_ out.prefill e₁
      ⟨⟨hs₁.weaken (fun _ hx => absurd hx List.not_mem_nil), hg₁⟩, [], rfl, harr⟩) ?_
    · rintro p rest e₂ ⟨⟨hs₂, hg₂⟩, admitted, hadm, harr₂⟩
      have hmem : p.id ∈ out.prefill.map (·.id) := by
        rw [← hadm]
        simp
      rw [← hadm] at hndw
      have hnew : p.id ∉ admitted := fun hc =>
        (List.nodup_append.mp hndw).2.2 p.id hc p.id (by simp) rfl
      obtain ⟨hw, hnot⟩ := hwaits p.id hmem
      have hpw : p.id ∈ e₂.waiting := by
        rw [harr₂.waiting]
        exact List.mem_filter.mpr ⟨List.mem_append_right _ hw, decide_eq_true hnew⟩
      obtain ⟨entry, hl⟩ := hs₂.entry_of_waiting hpw
      obtain ⟨hone, hs₃⟩ := hs₂.admitted hpw hl p.numTokens
      rw [show e₂.admitOne p = _ from hone]
      refine returns_ok ⟨⟨hs₃.weaken fun x hx => ?_, hg₂.admitted⟩, admitted ++ [p.id], ?_,
        harr₂.take hl hnot hnew⟩
      · rcases List.mem_cons.mp hx with rfl | hx
        · exact hmem
        · exact hx
      · rw [List.append_assoc]
        exact hadm
    · rintro e₂ ⟨⟨hs₂, hg₂⟩, admitted, hadm, harr₂⟩
      rw [List.map_nil, List.append_nil] at hadm
      exact returns_pure ⟨hout, hplan, hperm, hadm ▸ harr₂, hs₂, hg₂⟩

end EngineLoop

namespace EngineLoop

variable {σ α : Type} {e e' : EngineLoop σ α} {id : Nat} {entry : Entry}
  {fresh retired : List Nat} {S : Services σ α} {commands : List Command} {prefill : Bool}

/-! ### The passes

The members of the passes run and have caches when the passes are built.  The prefill may end
some of them; the decode pass is made of those that still run. -/

/-- Running sequences make a pass. -/
theorem exists_batch (prefill : Bool) {pass : List Nat} (hnd : pass.Nodup)
    (h : ∀ id ∈ pass, ∃ entry, e.requests.lookup id = some entry ∧ entry.seq.Ready ∧
      entry.passTokens prefill ≠ [] ∧ (prefill = false → entry.seq.generatedIds ≠ [])) :
    ∃ ms : List (Nat × Entry), ms.map (·.1) = pass ∧ Batch prefill e ms := by
  obtain ⟨ms, hms, hlook⟩ := IdMap.exists_entries (m := e.requests) fun id hid => by
    obtain ⟨entry, hl, _⟩ := h id hid
    exact IdMap.mem_of_lookup hl
  have hmember : ∀ m ∈ ms, m.2.seq.Ready ∧ m.2.passTokens prefill ≠ [] ∧
      (prefill = false → m.2.seq.generatedIds ≠ []) := by
    intro m hm
    obtain ⟨entry, hl, hrest⟩ := h m.1 (hms ▸ List.mem_map_of_mem hm)
    rw [hlook m hm] at hl
    cases hl
    exact hrest
  refine ⟨ms, hms, ⟨hlook, ?_, fun m hm => (hmember m hm).1⟩, fun m hm => (hmember m hm).2.1,
    fun hp m hm => (hmember m hm).2.2 hp⟩
  show (ms.map Prod.fst).Nodup
  rw [hms]
  exact hnd

theorem Planned.prefill_nodup {out : SchedulerOutput} (h : Planned e out) (hs : e.Settled) :
    (out.prefill.map (·.id)).Nodup :=
  h.prefill.nodup (List.nodup_append.mp hs.sound.once).1

/-- The members of the prefill pass. -/
theorem Prepared.prefillMember {out : SchedulerOutput} (h : Prepared e out e')
    (hp : e'.Prompted) (hid : id ∈ out.prefill.map (·.id)) :
    ∃ entry, e'.requests.lookup id = some entry ∧ entry.seq.Ready ∧
      entry.passTokens true ≠ [] ∧ (true = false → entry.seq.generatedIds ≠ []) := by
  have hrun := h.prefill id hid
  obtain ⟨entry, hl⟩ := h.sound.entry_of_running hrun
  have hstate := h.going id hrun List.not_mem_nil entry hl
  refine ⟨entry, hl, (h.sound.running_of_state hl hstate).2, ?_, by simp⟩
  show entry.request.promptIds ++ _ ≠ []
  simp [hp id entry hl]

/-- The members of a decode pass. -/
theorem Sound.decodeMember (hs : e.Sound [] []) (hl : e.requests.lookup id = some entry)
    (hrun : entry.seq.state = .running) :
    entry.seq.Ready ∧ entry.passTokens false ≠ [] ∧ entry.seq.generatedIds ≠ [] := by
  have hs' : e.Sound (owing false []) [] := hs
  have hgen := hs'.generated_of_running hl hrun rfl
  refine ⟨(hs.running_of_state hl hrun).2, ?_, hgen⟩
  unfold Entry.passTokens
  simp only [Bool.false_eq_true, if_false]
  obtain ⟨token, htoken⟩ := Option.isSome_iff_exists.mp (List.getLast?_isSome.mpr hgen)
  rw [htoken]
  simp

/-- `decodeMembers` keeps the sequences that still run. -/
theorem decodeMembers_returns {decode : List Nat} (hmem : ∀ id ∈ decode, id ∈ e.requests) :
    (e.decodeMembers decode).Returns fun pass => pass.Sublist decode ∧ ∀ id ∈ pass, ∃ entry,
      e.requests.lookup id = some entry ∧ entry.seq.state = .running := by
  have hok : ∀ id ∈ decode, (do
      let entry ← e.entry id
      pure (decide (entry.seq.state = .running)) : Checked Bool)
        = .ok ((e.requests.lookup id).any fun entry => decide (entry.seq.state = .running)) := by
    intro id hid
    obtain ⟨entry, hl⟩ := IdMap.exists_of_mem (hmem id hid)
    rw [entry_eq hl, ok_bind, hl]
    rfl
  unfold EngineLoop.decodeMembers
  rw [filterM_ok hok]
  refine returns_ok ⟨List.filter_sublist, fun id hid => ?_⟩
  obtain ⟨_, hany⟩ := List.mem_filter.mp hid
  cases hl : e.requests.lookup id with
  | none => rw [hl] at hany; cases hany
  | some entry =>
      rw [hl] at hany
      exact ⟨entry, rfl, by simpa using hany⟩

variable [Zero α]

/-- **The executing part of a step** returns to a settled engine. -/
theorem Settled.execute (hS : S.model.Shaped) (h : e.Settled) (hp : e.Prompted) :
    (execute S e).Returns Settled := by
  unfold EngineLoop.execute
  obtain ⟨⟨out, e₁⟩, hbefore, hprep⟩ := h.beforePasses
  have hp₁ : e₁.Prompted := hp.framed (beforePasses_retained e _ hbefore).toFramed
  obtain ⟨ms, hms, hb⟩ := exists_batch true (hprep.plan.prefill_nodup h)
    fun id hid => hprep.prefillMember hp₁ hid
  have hs₁ : e₁.Sound (owing true (ms.map (·.1))) [] := by
    rw [hms]
    exact hprep.sound
  rw [hbefore, ok_bind]
  obtain ⟨e₂, hpass, hs₂⟩ := hs₁.runBatchPass hS hb
  rw [hms] at hpass
  simp only
  rw [hpass, ok_bind]
  have hlive₂ : ∀ id ∈ out.decode, id ∈ e₂.requests := fun id hid =>
    (runBatchPass_retained S true _ e₁ e₂ hpass).mem id
      ((hprep.sound.live id).mp (List.mem_append_right _ (hprep.decode h.sound id hid)))
  refine Returns.bind (decodeMembers_returns hlive₂) ?_
  rintro pass ⟨hsub, hrunning⟩
  have hnd : pass.Nodup := hsub.nodup
    (hprep.plan.decode.nodup (List.nodup_append.mp h.sound.once).2.1)
  obtain ⟨ms', hms', hb'⟩ := exists_batch false hnd fun id hid => by
    obtain ⟨entry, hl, hrun⟩ := hrunning id hid
    obtain ⟨hready, htok, hgen⟩ := hs₂.decodeMember hl hrun
    exact ⟨entry, hl, hready, htok, fun _ => hgen⟩
  have howing : e₂.Sound (owing false (ms'.map (·.1))) [] := hs₂
  have hdecode := howing.runBatchPass hS hb'
  rw [hms'] at hdecode
  exact Returns.bind hdecode fun e₃ hs₃ => hs₃.retireTerminal.mono fun _ hd => hd.1

/-- **A step** returns to a settled engine. -/
theorem Settled.step (hS : S.model.Shaped) (h : e.Settled)
    (hq : Queued commands e) (hnew : ∀ id ∈ submitted commands, e.closed id = false)
    (hp : (e.drainCommands commands).Prompted) :
    (step S commands e).Returns fun r => r.2.Settled := by
  unfold EngineLoop.step
  obtain ⟨e₁, h₁, hs₁, _⟩ := (h.drain hq hnew).retireCancelled S
  have hp₁ := hp.framed (retireCancelled_framed S _ e₁ h₁)
  rw [h₁, ok_bind]
  by_cases hidle : (e₁.waiting.isEmpty && e₁.running.isEmpty) = true
  · rw [if_pos hidle]
    exact returns_pure hs₁
  · rw [if_neg hidle]
    exact Returns.bind (hs₁.execute hS hp₁) fun e₂ h₂ => returns_pure h₂

end EngineLoop

end InferenceEngine
