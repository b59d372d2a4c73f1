/-
The lists of the engine over whole runs.

A request gets a fresh id when it is submitted, waits in the command queue with that id and
is listed when the queue is drained.  From there every function keeps the lists in order, so
they are in order in every reachable engine, whatever the model answers and whoever else uses
the pool.
-/
import InferenceEngine.Proofs.EngineLists

namespace InferenceEngine

open Except

/-! ### The plan of a step

Whatever the scheduler decides, it only names sequences that it was given.  The waiting ones it
names are those at the front of the queue, in their order. -/

namespace Scheduler

variable {sum : Int → Checked Int}

theorem preemptToFit_ensures (bs : Int) (fuel : Nat) (d : Decoding) :
    (preemptToFit sum bs fuel d).Ensures fun d' => d'.decoding.Sublist d.decoding := by
  induction fuel generalizing d with
  | zero => exact ensures_pure (List.Sublist.refl _)
  | succ fuel ih =>
      rw [preemptToFit]
      by_cases hfit : (decide (d.demand > d.freeBlocks) && !d.decoding.isEmpty) = true
      · rw [if_pos hfit]
        simp only
        cases d.decoding[latest d.decoding]? with
        | none => exact ensures_throw _
        | some v =>
            refine Ensures.bind (ensures_self _) fun need _ => ?_
            refine Ensures.bind (ensures_self _) fun demand _ => ?_
            refine Ensures.bind (ensures_self _) fun free _ => (ih _).mono fun d' h => ?_
            exact h.trans (List.eraseIdx_sublist _ _)
      · rw [if_neg hfit]
        exact ensures_pure (List.Sublist.refl _)

/-- The prefill of an admitted sequence. -/
def prefillOf (s : SeqDesc) : Prefill := ⟨s.id, s.numPromptTokens⟩

theorem admitFrom_ensures (config : SchedulerConfig) (bs : Int) (waiting : List SeqDesc) :
    ∀ numScheduled tokens free : Int,
      (admitFrom sum config bs numScheduled tokens free waiting).Ensures fun prefill =>
        ∃ taken : List SeqDesc, taken.Sublist waiting ∧ prefill = taken.map prefillOf := by
  have hstop : ∀ {l : List SeqDesc}, Ensures (pure [] : Checked (List Prefill)) fun prefill =>
      ∃ taken : List SeqDesc, taken.Sublist l ∧ prefill = taken.map prefillOf :=
    ensures_pure ⟨[], List.nil_sublist _, rfl⟩
  induction waiting with
  | nil => exact fun _ _ _ => hstop
  | cons s rest ih =>
      intro numScheduled tokens free
      rw [admitFrom]
      refine Ensures.bind (ensures_self _) fun _ _ => ?_
      by_cases hseqs : numScheduled ≥ config.maxNumSeqs
      · rw [if_pos hseqs]
        exact hstop
      · rw [if_neg hseqs]
        refine Ensures.bind (ensures_self _) fun soFar _ => ?_
        by_cases hbudget : soFar > config.maxNumBatchedTokens
        · rw [if_pos hbudget]
          exact hstop
        · rw [if_neg hbudget]
          refine Ensures.bind (ensures_self _) fun need _ => ?_
          by_cases hfree : need > free
          · rw [if_pos hfree]
            exact hstop
          · rw [if_neg hfree]
            refine Ensures.bind (ensures_self _) fun _ _ =>
              Ensures.bind (ensures_self _) fun _ _ => ?_
            refine Ensures.bind (ih _ _ _) ?_
            rintro prefill ⟨taken, hsub, rfl⟩
            exact ensures_pure ⟨s :: taken, hsub.cons_cons s, rfl⟩

/-- **A plan** admits some of the waiting, in order, and decodes some of the running. -/
theorem schedule_ensures (inputs : ScheduleInputs) :
    (schedule sum inputs).Ensures fun out => ∃ taken kept : List SeqDesc,
      taken.Sublist inputs.waiting ∧ kept.Sublist inputs.running ∧
      out.prefill = taken.map prefillOf ∧ out.decode = kept.map (·.id) := by
  unfold schedule
  refine Ensures.bind (ensures_self _) fun _ _ => Ensures.bind (ensures_self _) fun _ _ => ?_
  refine Ensures.bind (ensures_self _) fun _ _ => Ensures.bind (ensures_self _) fun _ _ => ?_
  refine Ensures.bind (ensures_self _) fun demand _ => ?_
  refine Ensures.bind (preemptToFit_ensures _ _ _) fun d hd => ?_
  refine Ensures.bind (ensures_self _) fun free _ => ?_
  refine Ensures.bind (admitFrom_ensures _ _ _ _ _ _) ?_
  rintro prefill ⟨taken, hsub, rfl⟩
  exact ensures_pure ⟨taken, d.decoding, hsub, hd, rfl, rfl⟩

end Scheduler

variable {σ α : Type}

namespace EngineLoop

variable {e e' e'' : EngineLoop σ α} {id : Nat} {entry : Entry} {S : Services σ α}
  {out : SchedulerOutput}

private theorem forall₂_ids {l : List Nat} {descs : List SeqDesc} {P : Nat → SeqDesc → Prop}
    (h : List.Forall₂ P l descs) (hid : ∀ id d, P id d → d.id = id) : descs.map (·.id) = l := by
  induction h with
  | nil => rfl
  | cons hd _ ih => rw [List.map_cons, hid _ _ hd, ih]

private theorem forall₂_mem {l : List Nat} {descs : List SeqDesc} {P : Nat → SeqDesc → Prop}
    (h : List.Forall₂ P l descs) {d : SeqDesc} (hd : d ∈ descs) : ∃ id, P id d := by
  induction h with
  | nil => simp at hd
  | cons h₁ _ ih =>
      rcases List.mem_cons.mp hd with rfl | hd
      · exact ⟨_, h₁⟩
      · exact ih hd

/-- What a plan says of the sequences. -/
structure Planned (e : EngineLoop σ α) (out : SchedulerOutput) : Prop where
  prefill : (out.prefill.map (·.id)).Sublist e.waiting
  decode : out.decode.Sublist e.running
  numTokens : ∀ p ∈ out.prefill, ∃ entry, e.requests.lookup p.id = some entry ∧
    p.numTokens = entry.context

theorem scheduleStep_ensures (e : EngineLoop σ α) : e.scheduleStep.Ensures (Planned e) := by
  unfold scheduleStep
  refine Ensures.bind (Ensures.mapM (P := fun id (d : SeqDesc) => d.id = id ∧ ∃ entry,
    e.requests.lookup id = some entry ∧ d.numPromptTokens = entry.context) fun id _ => ?_) ?_
  · unfold waitingDesc
    refine Ensures.bind (entry_ensures e id) fun entry hl => ensures_pure ⟨rfl, entry, hl, ?_⟩
    show (_ + (entry.seq.generatedIds.length : Int) : Int) = (entry.context : Int)
    unfold Entry.context
    push_cast
    rfl
  · intro waiting hw
    refine Ensures.bind (Ensures.mapM (P := fun id (d : SeqDesc) => d.id = id) fun id _ => ?_) ?_
    · unfold runningDesc
      refine Ensures.bind (entry_ensures e id) fun entry _ => ?_
      cases entry.seq.cache with
      | none => exact ensures_throw _
      | some cache => exact ensures_pure rfl
    · intro running hr
      refine (Scheduler.schedule_ensures _).mono ?_
      rintro out ⟨taken, kept, htaken, hkept, hprefill, hdecode⟩
      have hids := forall₂_ids hw fun _ _ h => h.1
      have hids' := forall₂_ids hr fun _ _ h => h
      refine ⟨?_, ?_, ?_⟩
      · have hnames : (out.prefill.map (·.id)) = taken.map (·.id) := by
          rw [hprefill, List.map_map]
          rfl
        rw [hnames, ← hids]
        exact htaken.map _
      · rw [hdecode, ← hids']
        exact hkept.map _
      · intro p hp
        rw [hprefill] at hp
        obtain ⟨d, hd, rfl⟩ := List.mem_map.mp hp
        obtain ⟨id, hid, entry, hl, hnum⟩ := forall₂_mem hw (htaken.subset hd)
        refine ⟨entry, ?_, hnum⟩
        rw [← hl, ← hid]
        rfl

/-! ### Admission

Between the plan and the passes the lists change in three places: the evicted go to the front of
the queue, the admitted leave it, and then they run.  The invariant of the lists is carried
through each of these loops. -/

theorem listed_admitted (h : e.Listed) (hid : id ∈ e.waiting)
    (hl : e.requests.lookup id = some entry) : (e.admitted id entry).Listed := by
  have hperm := perm_admit h.once hid
  refine ⟨hperm.nodup_iff.mpr h.once, ?_, ?_, ?_⟩
  · intro id'
    exact hperm.mem_iff.trans ((h.live id').trans (mem_setSeq hl).symm)
  · intro id' hid'
    exact h.positive id' ((mem_setSeq hl).mp hid')
  · intro id' hid' entry' hl'
    obtain ⟨hid', hne⟩ := List.mem_filter.mp hid'
    rcases lookup_setSeq.mp hl' with ⟨rfl, _⟩ | ⟨_, hl'⟩
    · simp at hne
    · exact h.idle id' hid' entry' hl'

/-- Evictions only lengthen the waiting list. -/
theorem preempt_foldlM_ensures (ids : List Nat) (e : EngineLoop σ α) :
    (ids.foldlM preemptSequence e).Ensures fun e' =>
      Steady e e' ∧ ∀ id ∈ e.waiting, id ∈ e'.waiting := by
  refine Ensures.foldlM_invariant (I := fun e' => Steady e e' ∧ ∀ id ∈ e.waiting, id ∈ e'.waiting)
    ?_ ids ⟨.refl e, fun _ h => h⟩
  intro e₁ v h₁
  refine (preemptSequence_ensures e₁ v).mono ?_
  rintro e₂ ⟨entry, pool, hl, hrun, hgeom, rfl⟩
  exact ⟨h₁.1.trans (steady_evict hl hrun hgeom), fun id hid =>
    List.mem_cons_of_mem _ (h₁.2 id hid)⟩

/-- The admission loop, for an invariant of its own: it carries the sequences still to come. -/
theorem admit_foldlM_ensures (I : List Prefill → EngineLoop σ α → Prop)
    (step : ∀ p rest e entry, I (p :: rest) e → e.Listed → p.id ∈ e.waiting →
      e.requests.lookup p.id = some entry → isLegalTransition entry.seq.state .running = true →
      p.id ∉ rest.map (·.id) → I rest (e.admitted p.id entry))
    (prefill : List Prefill) (e : EngineLoop σ α) (h : I prefill e) (hl : e.Listed)
    (hnd : (prefill.map (·.id)).Nodup) (hsub : ∀ p ∈ prefill, p.id ∈ e.waiting) :
    (prefill.foldlM admitOne e).Ensures fun e' => e'.Listed ∧ I [] e' := by
  refine (Ensures.foldlM (fun rest e' => e'.Listed ∧ I rest e' ∧ (rest.map (·.id)).Nodup ∧
    ∀ p ∈ rest, p.id ∈ e'.waiting) ?_ prefill e ⟨hl, h, hnd, hsub⟩).mono fun e' h => ⟨h.1, h.2.1⟩
  rintro p rest e₁ ⟨hl₁, hI, hnd₁, hsub₁⟩
  rw [List.map_cons, List.nodup_cons] at hnd₁
  refine (admitOne_ensures e₁ p).mono ?_
  rintro e₂ ⟨entry, hentry, hlegal, rfl⟩
  have hw := hsub₁ p (by simp)
  refine ⟨listed_admitted hl₁ hw hentry, step p rest e₁ entry hI hl₁ hw hentry hlegal hnd₁.1,
    hnd₁.2, fun q hq => ?_⟩
  refine List.mem_filter.mpr ⟨hsub₁ q (List.mem_cons_of_mem _ hq), ?_⟩
  have hne : q.id ≠ p.id := fun hc => hnd₁.1 (hc ▸ List.mem_map_of_mem hq)
  simpa using hne

/-- A step up to its prefill pass, cut at its three parts. -/
theorem beforePasses_ensures (e : EngineLoop σ α) : e.beforePasses.Ensures fun r => ∃ e₁,
    e.scheduleStep = .ok r.1 ∧ Planned e r.1 ∧ r.1.preempt.foldlM preemptSequence e = .ok e₁ ∧
      r.1.prefill.foldlM admitOne e₁ = .ok r.2 := by
  unfold beforePasses
  refine Ensures.bind (ensures_self _) fun out hout => ?_
  refine Ensures.bind (ensures_self _) fun e₁ he₁ => ?_
  refine Ensures.bind (ensures_self _) fun e₂ he₂ => ?_
  exact ensures_pure ⟨e₁, hout, scheduleStep_ensures e _ hout, he₁, he₂⟩

/-- What a part of a step does that starts with the lists in order. -/
structure Ordered (e e' : EngineLoop σ α) : Prop where
  listed : e'.Listed
  geom : e'.shared.pool.geom = e.shared.pool.geom
  subset : ∀ id, id ∈ e'.requests → id ∈ e.requests

theorem Steady.ordered (h : Steady e e') (hl : e.Listed) : Ordered e e' :=
  ⟨h.listed hl, h.geom, h.subset⟩

theorem Ordered.trans (h : Ordered e e') (h' : Ordered e' e'') : Ordered e e'' :=
  ⟨h'.listed, h'.geom.trans h.geom, fun id hid => h.subset id (h'.subset id hid)⟩

theorem beforePasses_ordered (h : e.Listed) :
    e.beforePasses.Ensures fun r => Ordered e r.2 := by
  refine (beforePasses_ensures e).mono ?_
  rintro ⟨out, e₂⟩ ⟨e₁, _, hplan, he₁, he₂⟩
  obtain ⟨hsteady, hwaiting⟩ := preempt_foldlM_ensures out.preempt e _ he₁
  refine (admit_foldlM_ensures (fun _ e' =>
    e'.shared.pool.geom = e.shared.pool.geom ∧ ∀ id, id ∈ e'.requests → id ∈ e.requests) ?_
    out.prefill e₁ ⟨hsteady.geom, hsteady.subset⟩ (hsteady.listed h) ?_ ?_).mono
    (fun _ h' => ⟨h'.1, h'.2.1, h'.2.2⟩) _ he₂
  · intro p _ e' entry hI _ _ hl _ _
    exact ⟨hI.1, fun id hid => hI.2 id ((mem_setSeq hl).mp hid)⟩
  · exact hplan.prefill.nodup (List.nodup_append.mp h.once).1
  · intro p hp
    exact hwaiting _ (hplan.prefill.subset (List.mem_map_of_mem hp))

/-! ### Requests that leave

Requests are closed first and erased afterwards, from whichever list they are in.  The order of
the others does not change. -/

private theorem kept_erase (hm : e'.requests = e.requests.erase id)
    (hgeom : e'.shared.pool.geom = e.shared.pool.geom) : Kept e e' := by
  refine ⟨hgeom, fun id' entry' hl hr => ?_⟩
  rw [hm] at hl
  exact ⟨entry', (IdMap.lookup_erase_iff.mp hl).2, hr, rfl⟩

theorem retire_steady (e : EngineLoop σ α) (id : Nat) : (e.retire id).Ensures (Steady e) := by
  unfold EngineLoop.retire
  refine (eraseRequest_ensures _ id).mono ?_
  rintro e' ⟨pool, hgeom, rfl⟩
  refine ⟨kept_erase rfl hgeom, fun id' hid' => (AList.mem_erase.mp hid').2,
    fun h => ⟨?_, ?_, ?_, ?_⟩⟩
  · rw [← List.filter_append]
    exact h.once.filter _
  · intro id'
    rw [← List.filter_append, List.mem_filter, h.live id', AList.mem_erase]
    simp [and_comm]
  · intro id' hid'
    exact h.positive id' (AList.mem_erase.mp hid').2
  · intro id' hid' entry' hl
    exact h.idle id' (List.mem_of_mem_filter hid') entry' (IdMap.lookup_erase_iff.mp hl).2

theorem cancelOne_revised (er : EngineLoop σ α × List Nat) (id : Nat) :
    (cancelOne er id).Ensures fun er' => Revised er.1 er'.1 := by
  unfold cancelOne
  refine Ensures.bind (entry_ensures er.1 id) fun entry _ => ?_
  by_cases hc : (entry.cancelRequested && !entry.seq.isTerminal) = true
  · rw [if_pos hc]
    exact Ensures.bind (closeCancelled_revised er.1 id) fun e' h => ensures_pure h
  · rw [if_neg hc]
    exact ensures_pure (.refl _)

theorem retireCancelled_steady (S : Services σ α) (e : EngineLoop σ α) :
    (retireCancelled S e).Ensures (Steady e) := by
  unfold retireCancelled
  refine Ensures.bind (P := fun er => Revised e er.1) ?_ ?_
  · refine Ensures.foldlM_invariant (I := fun er : EngineLoop σ α × List Nat => Revised e er.1)
      (fun er id h => (cancelOne_revised er id).mono fun _ h' => h.trans h') _ (.refl e)
  · rintro ⟨e₁, retired⟩ h₁
    exact (Steady.foldlM retire_steady retired e₁).mono fun _ h₂ => h₁.steady.trans h₂

theorem closeTerminal_revised (er : EngineLoop σ α × List Nat) (id : Nat) :
    (closeTerminal er id).Ensures fun er' => Revised er.1 er'.1 ∧
      (er'.2 = er.2 ∨ er'.2 = er.2 ++ [id]) := by
  unfold closeTerminal
  refine Ensures.bind (entry_ensures er.1 id) fun entry _ => ?_
  by_cases hc : entry.seq.isTerminal = true
  · rw [if_pos hc]
    exact Ensures.bind (ensures_self _) fun info _ =>
      ensures_pure ⟨revised_close er.1 id info, Or.inr rfl⟩
  · rw [if_neg hc]
    exact ensures_pure ⟨.refl _, Or.inl rfl⟩

/-- A running request that leaves is not waiting, so nothing else has to change. -/
theorem retireRunning_steady (e : EngineLoop σ α) (id : Nat) :
    (e.retireRunning id).Ensures fun e' => Kept e e' ∧
      (∀ id, id ∈ e'.requests → id ∈ e.requests) ∧ e'.waiting = e.waiting ∧ (e.Listed →
        id ∉ e.waiting → e'.Listed) := by
  unfold EngineLoop.retireRunning
  refine (eraseRequest_ensures _ id).mono ?_
  rintro e' ⟨pool, hgeom, rfl⟩
  refine ⟨kept_erase rfl hgeom, fun id' hid' => (AList.mem_erase.mp hid').2, rfl,
    fun h hid => ⟨?_, ?_, ?_, ?_⟩⟩
  · exact h.once.sublist (List.Sublist.append_left List.filter_sublist _)
  · intro id'
    have hlive := h.live id'
    rw [List.mem_append] at hlive
    rw [AList.mem_erase, ← hlive, List.mem_append, List.mem_filter, decide_eq_true_eq]
    refine ⟨?_, ?_⟩
    · rintro (hw | ⟨hr, hne⟩)
      · exact ⟨fun hc => hid (hc ▸ hw), Or.inl hw⟩
      · exact ⟨hne, Or.inr hr⟩
    · rintro ⟨hne, hw | hr⟩
      · exact Or.inl hw
      · exact Or.inr ⟨hr, hne⟩
  · intro id' hid'
    exact h.positive id' (AList.mem_erase.mp hid').2
  · intro id' hid' entry' hl
    exact h.idle id' hid' entry' (IdMap.lookup_erase_iff.mp hl).2

theorem retireTerminal_steady (e : EngineLoop σ α) : e.retireTerminal.Ensures (Steady e) := by
  unfold EngineLoop.retireTerminal
  refine Ensures.bind (P := fun er => Revised e er.1 ∧ ∀ id ∈ er.2, id ∈ e.running) ?_ ?_
  · refine (Ensures.foldlM (fun rest (er : EngineLoop σ α × List Nat) => Revised e er.1 ∧
      (∀ id ∈ er.2, id ∈ e.running) ∧ ∀ id ∈ rest, id ∈ e.running) ?_ e.running (e, [])
      ⟨.refl e, by simp, fun _ h => h⟩).mono fun er h => ⟨h.1, h.2.1⟩
    rintro id rest er ⟨hrev, hsub, hrest⟩
    refine (closeTerminal_revised er id).mono ?_
    rintro er' ⟨hrev', hlist⟩
    refine ⟨hrev.trans hrev', fun id' hid' => ?_, fun id' h => hrest id' (List.mem_cons_of_mem _ h)⟩
    rcases hlist with hlist | hlist <;> rw [hlist] at hid'
    · exact hsub id' hid'
    · rcases List.mem_append.mp hid' with hid' | hid'
      · exact hsub id' hid'
      · rw [List.mem_singleton.mp hid']
        exact hrest id (by simp)
  · rintro ⟨e₁, retired⟩ ⟨h₁, hsub⟩
    refine (Ensures.foldlM (fun rest e' => (Kept e e' ∧ ∀ id, id ∈ e'.requests → id ∈ e.requests) ∧
      (e.Listed → e'.Listed ∧ ∀ id ∈ rest, id ∉ e'.waiting)) ?_ retired e₁
      ⟨⟨h₁.toKept, h₁.steady.subset⟩, fun h => ⟨h₁.steady.listed h, ?_⟩⟩).mono
      fun e' h => ⟨h.1.1, h.1.2, fun hl => (h.2 hl).1⟩
    · rintro id rest e₂ ⟨⟨hkept, hsub'⟩, hlisted⟩
      refine (retireRunning_steady e₂ id).mono ?_
      rintro e₃ ⟨hkept', hsub'', hw, hlisted'⟩
      refine ⟨⟨hkept.trans hkept', fun id' hid' => hsub' id' (hsub'' id' hid')⟩, fun h => ?_⟩
      obtain ⟨hl, hrest⟩ := hlisted h
      refine ⟨hlisted' hl (hrest id (by simp)), fun id' hid' => ?_⟩
      rw [hw]
      exact hrest id' (List.mem_cons_of_mem _ hid')
    · intro id hid hw
      rw [h₁.waitingEq] at hw
      exact List.disjoint_of_nodup_append h.once hw (hsub id hid)

/-! ### One step

A step drains the queue, drops what has been cancelled, and then plans and runs two passes. 
Each part starts with the lists in order and leaves them so. -/

/-- A sequence as `Sequence::Create` makes it. -/
structure Unstarted (s : Sequence) : Prop where
  state : s.state = .waiting
  cache : s.cache = some .new
  generatedIds : s.generatedIds = []
  numComputedTokens : s.numComputedTokens = 0

/-- The ids of the submits among some commands. -/
def submitted (commands : List Command) : List Nat :=
  commands.filterMap fun
    | .submit entry => some entry.request.id
    | .cancel _ => none

/-- Commands that wait to be drained: every submit is of a new request. -/
structure Queued (commands : List Command) (e : EngineLoop σ α) : Prop where
  distinct : (submitted commands).Nodup
  positive : ∀ id ∈ submitted commands, 0 < id
  fresh : ∀ id ∈ submitted commands, id ∉ e.requests
  unstarted : ∀ entry, .submit entry ∈ commands → Unstarted entry.seq

theorem Queued.mono {commands : List Command} (h : Queued commands e)
    (hmem : ∀ id, id ∈ e'.requests → id ∈ e.requests) : Queued commands e' :=
  ⟨h.distinct, h.positive, fun id hid hc => h.fresh id hid (hmem id hc), h.unstarted⟩

/-- A new request, listed. -/
def enlist (e : EngineLoop σ α) (entry : Entry) : EngineLoop σ α :=
  { e with
    waiting := e.waiting ++ [entry.request.id]
    requests := e.requests.insert entry.request.id entry }

/-- A live request, marked. -/
def mark (e : EngineLoop σ α) (id : Nat) (entry : Entry) : EngineLoop σ α :=
  { e with requests := e.requests.insert id { entry with cancelRequested := true } }

theorem revised_mark (h : e.requests.lookup id = some entry) : Revised e (e.mark id entry) := by
  refine ⟨⟨rfl, fun id' entry' hl hr => ?_⟩, rfl, rfl, fun id' => ?_⟩
  · rcases IdMap.lookup_insert_iff.mp hl with ⟨rfl, rfl⟩ | ⟨_, hl⟩
    · exact ⟨entry, h, hr, rfl⟩
    · exact ⟨entry', hl, hr, rfl⟩
  · show id' ∈ e.requests.insert id _ ↔ _
    rw [AList.mem_insert]
    refine ⟨?_, Or.inr⟩
    rintro (rfl | h')
    · exact IdMap.mem_of_lookup h
    · exact h'

theorem listed_enlist (h : e.Listed) (hfresh : entry.request.id ∉ e.requests)
    (hpos : 0 < entry.request.id) (hseq : Unstarted entry.seq) : (e.enlist entry).Listed := by
  have hlook : ∀ {id' entry'}, (e.enlist entry).requests.lookup id' = some entry' →
      (id' = entry.request.id ∧ entry = entry') ∨
        (id' ≠ entry.request.id ∧ e.requests.lookup id' = some entry') :=
    fun hl => IdMap.lookup_insert_iff.mp hl
  have hmem : ∀ id', id' ∈ (e.enlist entry).requests ↔ id' = entry.request.id ∨ id' ∈ e.requests :=
    fun _ => AList.mem_insert _
  have hperm : ((e.waiting ++ [entry.request.id]) ++ e.running).Perm
      (entry.request.id :: (e.waiting ++ e.running)) := by
    rw [List.append_assoc]
    exact List.perm_middle
  refine ⟨?_, ?_, ?_, ?_⟩
  · refine hperm.nodup_iff.mpr (List.nodup_cons.mpr ⟨?_, h.once⟩)
    rw [h.live]
    exact hfresh
  · intro id'
    refine hperm.mem_iff.trans ?_
    rw [List.mem_cons, h.live, hmem]
  · intro id' hid'
    rcases (hmem id').mp hid' with rfl | hid'
    · exact hpos
    · exact h.positive id' hid'
  · intro id' hid' entry' hl
    rcases hlook hl with ⟨_, rfl⟩ | ⟨hne, hl⟩
    · rw [hseq.state]
      simp
    · refine h.idle id' ((List.mem_append.mp hid').resolve_right fun hc => ?_) entry' hl
      exact hne (List.mem_singleton.mp hc)

/-- **Draining the queue**, for an invariant of its own. -/
theorem drainCommands_induction (I : EngineLoop σ α → Prop)
    (submit : ∀ e entry, I e → entry.request.id ∉ e.requests → 0 < entry.request.id →
      Unstarted entry.seq → I (e.enlist entry))
    (cancel : ∀ e id entry, I e → e.requests.lookup id = some entry → I (e.mark id entry))
    (commands : List Command) (e : EngineLoop σ α) (hq : Queued commands e) (h : I e) :
    I (e.drainCommands commands) := by
  induction commands generalizing e with
  | nil => exact h
  | cons c rest ih =>
      rw [drainCommands, List.foldl_cons]
      cases c with
      | submit entry =>
          have hsub : submitted (.submit entry :: rest) = entry.request.id :: submitted rest := rfl
          have hfresh : entry.request.id ∉ e.requests := hq.fresh _ (by rw [hsub]; simp)
          have hstep : e.drainCommand (.submit entry) = e.enlist entry := by
            unfold drainCommand enlist
            simp only [if_neg hfresh]
          have hdistinct := hq.distinct
          rw [hsub, List.nodup_cons] at hdistinct
          rw [hstep]
          refine ih _ ⟨hdistinct.2, ?_, ?_, ?_⟩ (submit e entry h hfresh
            (hq.positive _ (by rw [hsub]; simp)) (hq.unstarted entry (by simp)))
          · intro id hid
            exact hq.positive id (by rw [hsub]; exact List.mem_cons_of_mem _ hid)
          · intro id hid hc
            rcases (AList.mem_insert _).mp hc with rfl | hc
            · exact hdistinct.1 hid
            · exact hq.fresh id (by rw [hsub]; exact List.mem_cons_of_mem _ hid) hc
          · intro entry' h'
            exact hq.unstarted entry' (List.mem_cons_of_mem _ h')
      | cancel id =>
          have hsame : submitted (.cancel id :: rest) = submitted rest := rfl
          have hq' : Queued rest e := ⟨hsame ▸ hq.distinct, hsame ▸ hq.positive, hsame ▸ hq.fresh,
            fun entry h' => hq.unstarted entry (List.mem_cons_of_mem _ h')⟩
          cases hl : e.requests.lookup id with
          | none =>
              have hstep : e.drainCommand (.cancel id) = e := by
                unfold drainCommand
                simp only [hl]
              rw [hstep]
              exact ih e hq' h
          | some entry =>
              have hstep : e.drainCommand (.cancel id) = e.mark id entry := by
                unfold drainCommand mark
                simp only [hl]
              rw [hstep]
              refine ih _ (hq'.mono fun id' => ?_) (cancel e id entry h hl)
              exact ((revised_mark hl).mem id').mp

/-- What the queue adds to the requests, and nothing else. -/
theorem drainCommands_listed {commands : List Command} (h : e.Listed) (hq : Queued commands e) :
    (e.drainCommands commands).Listed ∧
      (e.drainCommands commands).shared.pool.geom = e.shared.pool.geom := by
  refine drainCommands_induction (fun e' => e'.Listed ∧ e'.shared.pool.geom = e.shared.pool.geom)
    ?_ ?_ commands e hq ⟨h, rfl⟩
  · intro e' entry hI hfresh hpos hseq
    exact ⟨listed_enlist hI.1 hfresh hpos hseq, hI.2⟩
  · intro e' id entry hI hl
    exact ⟨(revised_mark hl).steady.listed hI.1, hI.2⟩

theorem mem_drainCommands (commands : List Command) (e : EngineLoop σ α) (id : Nat)
    (h : id ∈ (e.drainCommands commands).requests) : id ∈ e.requests ∨ id ∈ submitted commands := by
  induction commands generalizing e with
  | nil => exact Or.inl h
  | cons c rest ih =>
      rw [drainCommands, List.foldl_cons] at h
      cases c with
      | submit entry =>
          have hsub : submitted (.submit entry :: rest) = entry.request.id :: submitted rest := rfl
          rw [hsub, List.mem_cons]
          rcases ih _ h with h' | h'
          · unfold drainCommand at h'
            simp only at h'
            split at h'
            · exact Or.inl h'
            · rcases (AList.mem_insert _).mp h' with rfl | h'
              · exact Or.inr (Or.inl rfl)
              · exact Or.inl h'
          · exact Or.inr (Or.inr h')
      | cancel k =>
          have hsame : submitted (.cancel k :: rest) = submitted rest := rfl
          rw [hsame]
          refine (ih _ h).imp_left fun h' => ?_
          unfold drainCommand at h'
          cases hl : e.requests.lookup k with
          | none => simpa only [hl] using h'
          | some entry =>
              simp only [hl] at h'
              exact ((revised_mark hl).mem id).mp h'

/-- The lists of a step up to its passes. -/
theorem retireCancelled_ordered {commands : List Command} (h : e.Listed) (hq : Queued commands e) :
    (retireCancelled S (e.drainCommands commands)).Ensures fun e' =>
      Ordered (e.drainCommands commands) e' :=
  (retireCancelled_steady S _).mono fun _ h' => h'.ordered (drainCommands_listed h hq).1

/-- A step that has something to do, cut at its parts. -/
structure Stepped (S : Services σ α) (e : EngineLoop σ α) (out : SchedulerOutput)
    (e₁ e₂ : EngineLoop σ α) (pass : List Nat) (e₃ e' : EngineLoop σ α) : Prop where
  before : e.beforePasses = .ok (out, e₁)
  prefill : runBatchPass S true (out.prefill.map (·.id)) e₁ = .ok e₂
  members : e₂.decodeMembers out.decode = .ok pass
  decode : runBatchPass S false pass e₂ = .ok e₃
  retire : e₃.retireTerminal = .ok e'

theorem execute_ensures (S : Services σ α) (e : EngineLoop σ α) :
    (execute S e).Ensures fun e' => ∃ out e₁ e₂ pass e₃, Stepped S e out e₁ e₂ pass e₃ e' := by
  unfold execute
  refine Ensures.bind (ensures_self _) ?_
  rintro ⟨out, e₁⟩ h₁
  refine Ensures.bind (ensures_self _) fun e₂ h₂ => ?_
  refine Ensures.bind (ensures_self _) fun pass h₃ => ?_
  refine Ensures.bind (ensures_self _) fun e₃ h₄ e' h₅ => ?_
  exact ⟨out, e₁, e₂, pass, e₃, h₁, h₂, h₃, h₄, h₅⟩

theorem step_ensures (S : Services σ α) (commands : List Command) (e : EngineLoop σ α) :
    (step S commands e).Ensures fun r => ∃ e₁,
      retireCancelled S (e.drainCommands commands) = .ok e₁ ∧
        (r.2 = e₁ ∨ execute S e₁ = .ok r.2) := by
  unfold EngineLoop.step
  refine Ensures.bind (ensures_self _) fun e₁ h₁ => ?_
  by_cases hidle : (e₁.waiting.isEmpty && e₁.running.isEmpty) = true
  · rw [if_pos hidle]
    exact ensures_pure ⟨e₁, h₁, Or.inl rfl⟩
  · rw [if_neg hidle]
    exact Ensures.bind (ensures_self _) fun e₂ h₂ => ensures_pure ⟨e₁, h₁, Or.inr h₂⟩

theorem Stepped.ordered {e₁ e₂ e₃ : EngineLoop σ α} {pass : List Nat}
    (h : Stepped S e out e₁ e₂ pass e₃ e') (hl : e.Listed) : Ordered e e' := by
  have hbefore := beforePasses_ordered hl _ h.before
  have hsteady := (runBatchPass_steady S true _ e₁ _ h.prefill).trans
    ((runBatchPass_steady S false _ e₂ _ h.decode).trans (retireTerminal_steady e₃ _ h.retire))
  exact hbefore.trans (hsteady.ordered hbefore.listed)

theorem step_ordered {commands : List Command} (h : e.Listed) (hq : Queued commands e) :
    (step S commands e).Ensures fun r => Ordered (e.drainCommands commands) r.2 := by
  refine (step_ensures S commands e).mono ?_
  rintro r ⟨e₁, h₁, hr⟩
  have hretired := retireCancelled_ordered h hq _ h₁
  rcases hr with hr | hr
  · rw [hr]
    exact hretired
  · obtain ⟨out, e₂, e₃, pass, e₄, hstep⟩ := execute_ensures S e₁ _ hr
    exact hretired.trans (hstep.ordered hretired.listed)

/-! ### Shutdown

Whatever is queued, waits or runs is closed and erased. -/

theorem shutdownCommand_revised (e : EngineLoop σ α) (c : Command) :
    (e.shutdownCommand c).Ensures (Revised e) := by
  cases c with
  | submit entry =>
      refine Ensures.bind (ensures_self _) fun _ _ => ?_
      refine (releaseCache_ensures _ _).mono ?_
      rintro e' ⟨pool, hgeom, rfl⟩
      exact (revised_close e _ _).trans (revised_shared _ ⟨pool, e.shared.others⟩ hgeom)
  | cancel id => exact ensures_pure (.refl e)

theorem shutdownRequest_revised (e : EngineLoop σ α) (id : Nat) :
    (e.shutdownRequest id).Ensures (Revised e) := by
  unfold shutdownRequest
  refine Ensures.bind (entry_ensures e id) fun entry _ => ?_
  by_cases hc : entry.seq.isTerminal = true
  · rw [if_pos hc]
    exact ensures_pure (.refl e)
  · rw [if_neg hc]
    exact closeCancelled_revised e id

/-- **A shutdown** leaves no request. -/
theorem shutdown_empty (S : Services σ α) (commands : List Command) (e : EngineLoop σ α) :
    (shutdown S commands e).Ensures fun e' => (∀ id, id ∉ e'.requests) ∧ e'.waiting = [] ∧
      e'.running = [] ∧ e'.shared.pool.geom = e.shared.pool.geom := by
  unfold shutdown
  refine Ensures.bind (Ensures.foldlM_invariant (I := Revised e) (fun e₁ c h =>
    (shutdownCommand_revised e₁ c).mono fun _ h' => h.trans h') commands (.refl e)) fun e₁ h₁ => ?_
  refine Ensures.bind (Ensures.foldlM_invariant (I := Revised e) (fun e₂ id h =>
    (shutdownRequest_revised e₂ id).mono fun _ h' => h.trans h') _ h₁) fun e₂ h₂ => ?_
  refine Ensures.bind (Ensures.foldlM (fun rest e' => (∀ id ∈ e'.requests, id ∈ rest) ∧
    e'.shared.pool.geom = e.shared.pool.geom) ?_ (S.order e₂.requests.keys) e₂
      ⟨fun id hid => ?_, h₂.geom⟩) ?_
  · rintro id rest e₃ ⟨hmem, hgeom⟩
    refine (eraseRequest_ensures e₃ id).mono ?_
    rintro e₄ ⟨pool, hgeom', rfl⟩
    refine ⟨fun id' hid' => ?_, hgeom'.trans hgeom⟩
    obtain ⟨hne, hid'⟩ := AList.mem_erase.mp hid'
    exact (List.mem_cons.mp (hmem id' hid')).resolve_left hne
  · exact (S.order_perm _).mem_iff.mpr (AList.mem_keys.mpr hid)
  · rintro e₃ ⟨hmem, hgeom⟩
    exact ensures_pure ⟨fun id hid => List.not_mem_nil (hmem id hid), rfl, rfl, hgeom⟩

end EngineLoop

/-! ### Runs

What holds between two calls is an invariant of the calls, and so holds in every reachable
state. -/

open EngineLoop

/-- What holds of an engine between two calls. -/
structure Engine.Booked (S : Services σ α) (e : Engine σ α) : Prop where
  listed : e.loop.Listed
  queued : Queued e.queue.commands e.loop
  geom : e.loop.shared.pool.geom = S.model.geometry
  nextId : 0 < e.queue.nextId
  below : ∀ id, id ∈ e.loop.requests ∨ id ∈ submitted e.queue.commands → id < e.queue.nextId

namespace Engine

variable {S : Services σ α} {e e' : Engine σ α}

theorem create_ensures (S : Services σ α) (state : σ) (pool : BlockPool α)
    (config : EngineConfig) : (Engine.create S state pool config).Ensures fun e =>
      pool.geom = S.model.geometry ∧ e.loop.shared = ⟨pool, []⟩ ∧ e.loop.requests = ∅ ∧
        e.loop.waiting = [] ∧ e.loop.running = [] ∧ e.queue.commands = [] ∧ e.queue.nextId = 1 := by
  intro e he
  unfold Engine.create at he
  simp only [bind, Except.bind] at he
  split at he
  · cases he
  · split at he
    · cases he
    · split at he
      · cases he
      · split at he
        · cases he
        · rename_i hgeom
          split at he
          · cases he
          · cases he
            exact ⟨not_not.mp hgeom, rfl, rfl, rfl, rfl, rfl, rfl⟩

/-- Lists with nothing in them are in order. -/
theorem listed_empty {e : EngineLoop σ α} (hmem : ∀ id, id ∉ e.requests) (hw : e.waiting = [])
    (hr : e.running = []) : e.Listed := by
  refine ⟨?_, ?_, fun id hid => absurd hid (hmem id), ?_⟩
  · rw [hw, hr]
    exact List.nodup_nil
  · intro id
    rw [hw, hr]
    exact iff_of_false List.not_mem_nil (hmem id)
  · intro id hid
    rw [hw] at hid
    exact absurd hid List.not_mem_nil

theorem queued_nil (e : EngineLoop σ α) : Queued [] e :=
  ⟨List.nodup_nil, fun _ h => absurd h List.not_mem_nil, fun _ h => absurd h List.not_mem_nil,
    fun _ h => absurd h List.not_mem_nil⟩

theorem Booked.create {state : σ} {pool : BlockPool α} {config : EngineConfig}
    (h : Engine.create S state pool config = .ok e) : e.Booked S := by
  obtain ⟨hgeom, hshared, hreq, hw, hr, hcmd, hnext⟩ := create_ensures S state pool config e h
  have hempty : ∀ id, id ∉ e.loop.requests := by
    intro id
    rw [hreq]
    exact AList.notMem_empty id
  refine ⟨listed_empty hempty hw hr, ?_, ?_, ?_, ?_⟩
  · rw [hcmd]
    exact queued_nil _
  · rw [hshared]
    exact hgeom
  · rw [hnext]
    exact Nat.one_pos
  · rw [hcmd]
    rintro id (hid | hid)
    · exact absurd hid (hempty id)
    · exact absurd hid List.not_mem_nil

theorem sequenceCreate_ensures (request : Request) (drawnSeed : Nat) :
    (Sequence.create request drawnSeed).Ensures Unstarted := by
  refine Ensures.bind (ensures_self _) fun _ _ => Ensures.bind (ensures_self _) fun _ _ => ?_
  exact ensures_pure ⟨rfl, rfl, rfl, rfl⟩

/-- A request that passes its checks is made into its sequence. -/
theorem validateSubmit_create (e : EngineLoop σ α) (request : Request) (drawnSeed : Nat) :
    (validateSubmit e request drawnSeed).Ensures fun start =>
      Sequence.create request drawnSeed = .ok start := by
  intro seq h
  unfold validateSubmit at h
  simp only [bind, Except.bind, throw, throwThe, MonadExceptOf.throw] at h
  generalize (if 0 < request.params.maxTokens then request.params.maxTokens - 1 else 0)
    = generated at h
  split at h
  · cases h
  split at h
  · cases h
  split at h
  · cases h
  split at h
  · cases h
  exact h

theorem validateSubmit_ensures (e : EngineLoop σ α) (request : Request) (drawnSeed : Nat) :
    (validateSubmit e request drawnSeed).Ensures Unstarted := fun seq h =>
  sequenceCreate_ensures request drawnSeed seq (validateSubmit_create e request drawnSeed seq h)

theorem Booked.submit (h : e.Booked S) (request : Request) (drawnSeed : Nat) :
    (e.submit request drawnSeed).2.Booked S := by
  unfold Engine.submit
  cases hseq : validateSubmit e.loop request drawnSeed with
  | error status => exact h
  | ok seq =>
      simp only
      by_cases hstop : e.queue.stopRequested = true
      · rw [if_pos hstop]
        exact h
      · rw [if_neg hstop]
        have hsub : ∀ entry : Entry, submitted (e.queue.commands ++ [.submit entry])
            = submitted e.queue.commands ++ [entry.request.id] := by
          intro entry
          simp [submitted]
        have hfresh : ∀ id, id ∈ e.loop.requests ∨ id ∈ submitted e.queue.commands →
            id ≠ e.queue.nextId := fun id hid => (h.below id hid).ne
        refine ⟨h.listed, ⟨?_, ?_, ?_, ?_⟩, h.geom, Nat.succ_pos _, ?_⟩
        · rw [hsub]
          refine List.nodup_append.mpr ⟨h.queued.distinct, List.nodup_singleton _, ?_⟩
          intro a ha b hb
          rw [List.mem_singleton.mp hb]
          exact hfresh a (Or.inr ha)
        · intro id hid
          rw [hsub] at hid
          rcases List.mem_append.mp hid with hid | hid
          · exact h.queued.positive id hid
          · rw [List.mem_singleton.mp hid]
            exact h.nextId
        · intro id hid
          rw [hsub] at hid
          rcases List.mem_append.mp hid with hid | hid
          · exact h.queued.fresh id hid
          · rw [List.mem_singleton.mp hid]
            exact fun hc => hfresh _ (Or.inl hc) rfl
        · intro entry hentry
          rcases List.mem_append.mp hentry with hentry | hentry
          · exact h.queued.unstarted entry hentry
          · cases List.mem_singleton.mp hentry
            exact validateSubmit_ensures e.loop request drawnSeed seq hseq
        · intro id hid
          rw [hsub, List.mem_append, ← or_assoc] at hid
          rcases hid with hid | hid
          · exact Nat.lt_succ_of_lt (h.below id hid)
          · rw [List.mem_singleton.mp hid]
            exact Nat.lt_succ_self _

theorem Booked.cancel (h : e.Booked S) (id : Nat) : (e.cancel id).Booked S := by
  have hsame : submitted (e.queue.commands ++ [.cancel id]) = submitted e.queue.commands := by
    simp [submitted]
  refine ⟨h.listed, ⟨?_, ?_, ?_, ?_⟩, h.geom, h.nextId, ?_⟩
  · exact hsame ▸ h.queued.distinct
  · exact hsame ▸ h.queued.positive
  · exact hsame ▸ h.queued.fresh
  · intro entry hentry
    refine h.queued.unstarted entry ((List.mem_append.mp hentry).resolve_right fun hc => ?_)
    cases List.mem_singleton.mp hc
  · exact hsame ▸ h.below

theorem Booked.step (h : e.Booked S) :
    (EngineLoop.step S e.queue.commands e.loop).Ensures fun r =>
      Engine.Booked S ⟨{ e.queue with commands := [] }, r.2⟩ := by
  intro r hr
  have hdrain := drainCommands_listed h.listed h.queued
  have hord := step_ordered h.listed h.queued r hr
  refine ⟨hord.listed, queued_nil _, (hord.geom.trans hdrain.2).trans h.geom, h.nextId, ?_⟩
  rintro id (hid | hid)
  · exact h.below id (mem_drainCommands _ _ id (hord.subset id hid))
  · exact absurd hid List.not_mem_nil

/-- **Every call keeps the lists in order.** -/
theorem Booked.run (h : e.Booked S) (call : EngineCall) :
    (e.run S call).Ensures (Engine.Booked S) := by
  cases call with
  | submit request drawnSeed => exact ensures_pure (h.submit request drawnSeed)
  | cancel id => exact ensures_pure (h.cancel id)
  | step =>
      refine Ensures.bind (Ensures.bind h.step (Q := fun r => Engine.Booked S r.2) ?_) ?_
      · rintro ⟨more, loop⟩ hloop
        exact ensures_pure hloop
      · rintro ⟨more, e'⟩ he'
        exact ensures_pure he'
  | stop =>
      refine Ensures.bind (shutdown_empty S e.queue.commands e.loop) ?_
      rintro loop ⟨hmem, hw, hr, hgeom⟩
      refine ensures_pure ⟨listed_empty hmem hw hr, queued_nil _, hgeom.trans h.geom, h.nextId, ?_⟩
      rintro id (hid | hid)
      · exact absurd hid (hmem id)
      · exact absurd hid List.not_mem_nil
  | use u =>
      refine Ensures.bind (e.loop.shared.use_geom u) fun shared hgeom => ?_
      have hrev := revised_shared e.loop shared hgeom
      exact ensures_pure ⟨hrev.steady.listed h.listed, h.queued.mono fun _ hid => hid,
        hgeom.trans h.geom, h.nextId, h.below⟩

/-- **The lists of every reachable engine are in order.** -/
theorem reachable_booked {state : σ} {pool : BlockPool α} {config : EngineConfig}
    (h : (engineSystem S state pool config).Reachable e) : e.Booked S :=
  h.invariant (fun _ => Booked.create) fun _ call _ _ hb hstep => hb.run call _ hstep

end Engine

end InferenceEngine
