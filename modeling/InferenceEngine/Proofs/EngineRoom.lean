/-
The room a plan leaves.

When nobody else uses the pool, the blocks in use are those of the running sequences.  The plan
charges each one it keeps the block its next token may need, takes back what the victims hold
and admits against what is left; so every member of both passes can grow to its goal, and a
model that keeps its contract never finds the pool empty.
-/
import InferenceEngine.Proofs.EnginePlan
import InferenceEngine.Proofs.EngineTurns
import InferenceEngine.Proofs.Progress

namespace InferenceEngine

open Except BlockPool

/-! ### Blocks, as the scheduler counts them

The quotients of the source truncate; on lengths, which are not negative, they are the ceilings
they are meant as. -/

namespace Scheduler

variable {bs n : Nat} {d : SeqDesc}

theorem tdiv_ceil (hbs : 0 < bs) (n : Nat) :
    ((n : Int) + bs - 1).tdiv bs = ((n ⌈/⌉ bs : Nat) : Int) := by
  rw [Int.tdiv_eq_ediv_of_nonneg (by omega), Nat.ceilDiv_eq_add_pred_div]
  have : (n : Int) + bs - 1 = ((n + bs - 1 : Nat) : Int) := by omega
  rw [this]
  rfl

/-- One more token: what it needs, beside what is held already. -/
theorem need_ceil (hbs : 0 < bs) (h : d.numComputedTokens = n) :
    need bs d + (n ⌈/⌉ bs : Nat) = ((n + 1) ⌈/⌉ bs : Nat) := by
  have hafter := tdiv_ceil hbs (n + 1)
  unfold need blocks
  rw [h, tdiv_ceil hbs n]
  push_cast at hafter
  rw [hafter]
  omega

theorem prefillNeed_ceil (hbs : 0 < bs) (h : d.numPromptTokens = n) :
    prefillNeed bs d = (n ⌈/⌉ bs : Nat) := by
  have hbefore : (0 : Int) + bs - 1 = ((0 : Nat) : Int) + bs - 1 := by omega
  unfold prefillNeed blocks
  rw [h, zero_add (n : Int), tdiv_ceil hbs n, hbefore, tdiv_ceil hbs 0]
  simp

end Scheduler

/-- Whoever waits is admitted with an empty cache. -/
theorem Sequence.Parked.ensured {s : Sequence} (h : s.Parked) :
    s.ensureCache.cache = some .new := by
  unfold Sequence.ensureCache
  rcases h with ⟨_, hc⟩ | ⟨_, hc⟩ <;> simp [hc]

theorem Sequence.Parked.held_eq {s : Sequence} (h : s.Parked) : s.held = .new := by
  unfold Sequence.held
  rcases h with ⟨_, hc⟩ | ⟨_, hc⟩ <;> rw [hc] <;> rfl

/-- How long the cache of a member is going to be. -/
def Entry.target (entry : Entry) : Nat :=
  if entry.seq.state = .running then entry.seq.held.length + 1 else entry.context

namespace EngineLoop

variable {σ α : Type} {e e' : EngineLoop σ α} {id : Nat} {entry : Entry} {fresh : List Nat}
  {ws rs : List (Nat × Entry)} {out : SchedulerOutput}

/-! ### Blocks in use

The scheduler is told how many blocks are free, and it computes how many each sequence holds
from its length.  Both are right if the owners are the running sequences. -/

/-- The blocks of the running sequences. -/
theorem Roster.owned_eq (h : e.Roster ws rs) (hs : e.Sound fresh []) :
    e.owned = (rs.map fun m => m.2.seq.blocks).sum := by
  unfold owned
  rw [IdMap.total_without Prod.fst Prod.snd (l := rs) ?_ fun m hm => (h.runs m hm).1]
  · have hrest : IdMap.total (IdMap.without e.requests (rs.map Prod.fst))
        (fun _ entry => entry.seq.blocks) = IdMap.total (IdMap.without e.requests (rs.map Prod.fst))
        fun _ _ => (0 : Multiset Int) := by
      refine IdMap.total_congr fun id entry hl => ?_
      obtain ⟨hid, hl⟩ := IdMap.lookup_without.mp hl
      have hw : id ∈ e.waiting := by
        refine (List.mem_append.mp ((hs.live id).mpr (IdMap.mem_of_lookup hl))).resolve_right ?_
        rw [← h.running]
        exact hid
      exact ((hs.parked id hw entry hl).resolve_left List.not_mem_nil).blocks
    rw [hrest]
    have hzero : IdMap.total (IdMap.without e.requests (rs.map Prod.fst))
        (fun _ _ => (0 : Multiset Int)) = 0 := by
      unfold IdMap.total
      simp
    rw [hzero, add_zero]
  · show (rs.map (·.1)).Nodup
    rw [h.running]
    exact (List.nodup_append.mp hs.once).2.1

/-- **The blocks in use are those of the running sequences**, when nobody else uses the pool. -/
theorem Roster.used_eq (h : e.Roster ws rs) (hs : e.Sound fresh [])
    (hsole : e.shared.others = []) :
    e.shared.pool.used = (rs.map fun m => m.2.seq.held.table.blocks.length).sum := by
  have he := hs.exclusive
  rw [hsole, Multiset.coe_nil, add_zero] at he
  have hused := he.owned.used_eq_card
  rw [Multiset.toFinset_card_of_nodup he.nodup] at hused
  rw [hused, h.owned_eq hs, show Multiset.card (rs.map fun m => m.2.seq.blocks).sum
    = Multiset.cardHom (rs.map fun m => m.2.seq.blocks).sum from rfl, map_list_sum, List.map_map]
  refine congrArg List.sum (List.map_congr_left fun m hm => ?_)
  show Multiset.card m.2.seq.blocks = _
  rw [Sequence.blocks_some (h.runs m hm).2.cache_eq, Multiset.coe_card]

theorem Sound.held_blocks (hs : e.Sound fresh []) (h : e.requests.lookup id = some entry)
    (hr : entry.seq.Ready) :
    entry.seq.held.table.blocks.length = entry.seq.held.length ⌈/⌉ e.shared.pool.blockSize :=
  (hs.wf id entry _ h hr.cache_eq).sized

/-! ### The goals of a plan

The goal of a member is the length its cache is going to have after its pass.  That the goals
fit is what the checks of the plan add up to. -/

/-- The goals of a plan: those of the members of its passes. -/
def planGoal (e : EngineLoop σ α) (out : SchedulerOutput) (id : Nat) : Nat :=
  if id ∈ out.decode ++ out.prefill.map (·.id) then
    ((e.requests.lookup id).map Entry.target).getD 0
  else 0

theorem planGoal_member (hid : id ∈ out.decode ++ out.prefill.map (·.id))
    (h : e.requests.lookup id = some entry) : e.planGoal out id = entry.target := by
  unfold planGoal
  rw [if_pos hid, h]
  rfl

theorem planGoal_other (hid : id ∉ out.decode ++ out.prefill.map (·.id)) :
    e.planGoal out id = 0 := by
  unfold planGoal
  rw [if_neg hid]

private theorem cast_sum_map {ι : Type} (l : List ι) (f : ι → Nat) :
    ((l.map f).sum : Int) = (l.map fun i => (f i : Int)).sum := by
  rw [Nat.cast_list_sum, List.map_map]
  rfl

/-- **The plan fits**: the goals of all members together need no more blocks than there are. -/
theorem Roster.goals_fit (h : e.Roster ws rs) (hs : e.Settled) (hsole : e.shared.others = [])
    (hout : e.scheduleStep = .ok out) :
    ((out.decode ++ out.prefill.map (·.id)).map fun id =>
      e.planGoal out id ⌈/⌉ e.shared.pool.blockSize).sum ≤ e.shared.pool.numBlocks := by
  have hbs := hs.sound.exclusive.blockSize_pos
  obtain ⟨kept, victims, admitted, rest, hp⟩ :=
    (Scheduler.schedule_spec (hs.sound.planValid ws rs)).of_eq (h.scheduleStep_eq ▸ hout)
  have hin : ∀ s ∈ kept ++ victims, ∃ m ∈ rs, s.1 = m.2.asRunning m.1 := by
    intro s hmem
    have hfst : s.1 ∈ (e.planInputs ws rs).running := by
      have := List.mem_map_of_mem (f := Prod.fst) (hp.account.perm.subset hmem)
      rwa [List.zipIdx_map_fst] at this
    obtain ⟨m, hm, heq⟩ := List.mem_map.mp hfst
    exact ⟨m, hm, heq.symm⟩
  -- a sequence that is kept: the blocks it holds, and those of one token more
  have hkept : ∀ s ∈ kept, ((e.planGoal out s.1.id ⌈/⌉ e.shared.pool.blockSize : Nat) : Int)
      = s.1.blocksHeld + Scheduler.need e.shared.pool.blockSize s.1 := by
    intro s hmem
    obtain ⟨m, hm, heq⟩ := hin s (List.mem_append_left _ hmem)
    obtain ⟨hl, hready⟩ := h.runs m hm
    have hid : m.1 ∈ out.decode ++ out.prefill.map (·.id) := by
      refine List.mem_append_left _ ?_
      rw [hp.decode]
      exact List.mem_map.mpr ⟨s, hmem, by rw [heq]; rfl⟩
    have hneed := Scheduler.need_ceil (d := s.1) hbs (n := m.2.seq.held.length) (by rw [heq]; rfl)
    have hheld : s.1.blocksHeld =
        ((m.2.seq.held.length ⌈/⌉ e.shared.pool.blockSize : Nat) : Int) := by
      rw [heq, ← hs.sound.held_blocks hl hready]
      rfl
    rw [show s.1.id = m.1 by rw [heq]; rfl, planGoal_member hid hl, hheld, add_comm, hneed]
    unfold Entry.target
    rw [if_pos hready.1]
  -- a sequence that is admitted: the blocks of its whole context
  have hadmitted : ∀ d ∈ admitted, ((e.planGoal out d.id ⌈/⌉ e.shared.pool.blockSize : Nat) : Int)
      = Scheduler.prefillNeed e.shared.pool.blockSize d := by
    intro d hmem
    have hwait : d ∈ (e.planInputs ws rs).waiting := by
      rw [hp.admitted.split]
      exact List.mem_append_left _ hmem
    obtain ⟨m, hm, rfl⟩ := List.mem_map.mp hwait
    obtain ⟨hl, hparked⟩ := h.waits m hm
    have hid : m.1 ∈ out.decode ++ out.prefill.map (·.id) := by
      refine List.mem_append_right _ ?_
      rw [hp.prefill, List.map_map]
      exact List.mem_map.mpr ⟨_, hmem, rfl⟩
    have hneed := Scheduler.prefillNeed_ceil (d := m.2.asWaiting m.1) hbs (n := m.2.context) (by
      show (_ : Int) + (m.2.seq.generatedIds.length : Int) = ((_ + _ : Nat) : Int)
      push_cast
      rfl)
    rw [hneed, show (m.2.asWaiting m.1).id = m.1 from rfl, planGoal_member hid hl]
    unfold Entry.target
    rw [if_neg]
    rcases hparked with ⟨hst, _⟩ | ⟨hst, _⟩ <;> simp [hst]
  have hheld : ((kept ++ victims).map fun s => s.1.blocksHeld).sum
      = (e.shared.pool.used : Int) := by
    rw [(hp.account.perm.map fun s : SeqDesc × Nat => s.1.blocksHeld).sum_eq,
      show (fun s : SeqDesc × Nat => s.1.blocksHeld) = (·.blocksHeld) ∘ Prod.fst from rfl,
      ← List.map_map, List.zipIdx_map_fst, h.used_eq hs.sound hsole, cast_sum_map]
    show ((rs.map fun m => m.2.asRunning m.1).map (·.blocksHeld)).sum = _
    rw [List.map_map]
    rfl
  have hfree := hs.sound.exclusive.owned.freeBlocks_eq
  have hbooks := hs.sound.exclusive.owned.used_add_free
  have hdecode : (((out.decode.map fun id =>
      e.planGoal out id ⌈/⌉ e.shared.pool.blockSize).sum : Nat) : Int)
      = (kept.map fun s => s.1.blocksHeld).sum
        + (kept.map fun s => Scheduler.need e.shared.pool.blockSize s.1).sum := by
    rw [hp.decode, List.map_map, cast_sum_map, ← List.sum_map_add]
    exact congrArg List.sum (List.map_congr_left hkept)
  have hprefill : ((((out.prefill.map (·.id)).map fun id =>
      e.planGoal out id ⌈/⌉ e.shared.pool.blockSize).sum : Nat) : Int)
      = (admitted.map (Scheduler.prefillNeed e.shared.pool.blockSize)).sum := by
    rw [hp.prefill, List.map_map, List.map_map, cast_sum_map]
    exact congrArg List.sum (List.map_congr_left hadmitted)
  rw [List.map_append, List.sum_append] at hheld
  rw [List.map_append, List.sum_append]
  have hinputs : (e.planInputs ws rs).pool.freeBlocks = e.shared.pool.freeBlocks := rfl
  have hsize : (e.planInputs ws rs).pool.blockSize = (e.shared.pool.blockSize : Int) := rfl
  have hfits := hp.fits
  have hblocks := hp.admitted.blocks
  rw [hinputs, hsize] at hfits hblocks
  by_cases hempty : admitted = []
  · rw [hempty] at hprefill
    simp only [List.map_nil, List.sum_nil] at hprefill
    rcases hfits with hfits | hnone
    · omega
    · rw [hnone] at hdecode
      simp only [List.map_nil, List.sum_nil] at hdecode
      omega
  · have := hblocks hempty
    omega

/-- **Every member of both passes can grow to its goal.** -/
theorem Prepared.fits (h : Prepared e out e') (hs : e.Settled) (hsole : e.shared.others = []) :
    e'.Fits (e.planGoal out) := by
  obtain ⟨ws, rs, hr⟩ := hs.roster
  have harr := h.arranged
  have hnew : ∀ {id entry'}, e'.requests.lookup id = some entry' → ∃ entry,
      e.requests.lookup id = some entry ∧
        entry.arrange out.preempt (out.prefill.map (·.id)) id = entry' := by
    intro id entry' hl
    rw [harr.lookup id] at hl
    exact Option.map_eq_some_iff.mp hl
  refine ⟨fun id entry' hl' => ?_, ?_⟩
  · obtain ⟨entry, hl, rfl⟩ := hnew hl'
    unfold Entry.arrange
    by_cases hvictim : id ∈ out.preempt
    · rw [if_pos hvictim]
      exact Nat.zero_le _
    · rw [if_neg hvictim]
      rcases List.mem_append.mp ((hs.sound.live id).mpr (IdMap.mem_of_lookup hl)) with hw | hrun
      · -- a sequence that waits holds nothing, admitted or not
        have hparked := (hs.sound.parked id hw entry hl).resolve_left List.not_mem_nil
        by_cases htaken : id ∈ out.prefill.map (·.id)
        · rw [if_pos htaken]
          show (entry.seq.ensureCache.cache.getD .new).length ≤ _
          rw [hparked.ensured]
          exact Nat.zero_le _
        · rw [if_neg htaken, hparked.held_eq]
          exact Nat.zero_le _
      · have hdecode : id ∈ out.decode :=
          (List.mem_append.mp (h.split.symm.subset hrun)).resolve_right hvictim
        have htaken : id ∉ out.prefill.map (·.id) := fun hc =>
          List.disjoint_of_nodup_append hs.sound.once (h.plan.prefill.subset hc) hrun
        rw [if_neg htaken, planGoal_member (List.mem_append_left _ hdecode) hl]
        unfold Entry.target
        rw [if_pos (hs.running id hrun entry hl)]
        exact Nat.le_succ _
  · have hmembers : ∀ id ∈ out.decode ++ out.prefill.map (·.id), id ∈ e'.requests := by
      intro id hid
      refine (h.sound.live id).mp (List.mem_append_right _ ?_)
      rcases List.mem_append.mp hid with hid | hid
      · exact h.decode hs.sound id hid
      · exact h.prefill id hid
    obtain ⟨ms, hms, hlook⟩ := IdMap.exists_entries hmembers
    have hnd : (ms.map Prod.fst).Nodup := by
      rw [hms]
      refine List.nodup_append.mpr ⟨h.plan.decode.nodup (List.nodup_append.mp hs.sound.once).2.1,
        h.plan.prefill.nodup (List.nodup_append.mp hs.sound.once).1, ?_⟩
      rintro a ha b hb rfl
      exact List.disjoint_of_nodup_append hs.sound.once (h.plan.prefill.subset hb)
        (h.plan.decode.subset ha)
    rw [IdMap.total_without Prod.fst Prod.snd hnd hlook, harr.others, hsole, harr.store.blockSize,
      harr.store.numBlocks]
    have hrest : IdMap.total (IdMap.without e'.requests (ms.map Prod.fst)) (fun id entry =>
        if entry.seq.cache.isSome then e.planGoal out id ⌈/⌉ e.shared.pool.blockSize else 0)
        = IdMap.total (IdMap.without e'.requests (ms.map Prod.fst)) fun _ _ => 0 := by
      refine IdMap.total_congr fun id entry hl => ?_
      have hid := (IdMap.lookup_without.mp hl).1
      rw [hms] at hid
      rw [planGoal_other hid]
      simp
    have hzero : IdMap.total (IdMap.without e'.requests (ms.map Prod.fst)) (fun _ _ => 0) = 0 := by
      unfold IdMap.total
      simp
    rw [hrest, hzero]
    have hgoals := hr.goals_fit hs hsole h.planned
    rw [← hms, List.map_map] at hgoals
    refine le_trans ?_ hgoals
    simp only [add_zero, List.length_nil]
    refine List.sum_le_sum fun m _ => ?_
    split
    · exact le_refl _
    · exact Nat.zero_le _

end EngineLoop

end InferenceEngine
