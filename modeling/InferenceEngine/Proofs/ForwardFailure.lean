/-
What a forward leaves when it fails.

The checks of a forward come first and change nothing, and they establish what its parts need to
know.  From there on a forward never aborts and fails exactly where one of its demands is
refused; its caches are then as they were unless an append had been granted before.
-/
import InferenceEngine.Lib.Loops
import InferenceEngine.Proofs.ForwardDemands

namespace InferenceEngine.Backend

open Except BlockPool Metering

variable {α : Type} [Zero α] {c : ModelConfig} {n : Nat}

/-! ### The checks

The checks read the request and the caches and change neither.  What they let pass is collected
once for a single sequence and once for a batch. -/

section

variable {cls : String} {request : ForwardRequest n} {s : ForwardState α c n} {t : Nat} {i : Fin n}

omit [Zero α] in
theorem rejectIf_bind {β : Type} {bad : Prop} [Decidable bad] {status : Status}
    {f : Unit → StatusOr β} {b : β} :
    (rejectIf bad status >>= f) = .ok b ↔ ¬bad ∧ f () = .ok b := by
  unfold rejectIf
  by_cases h : bad
  · rw [if_pos h]
    exact ⟨fun hc => (by cases hc), fun hc => absurd h hc.1⟩
  · rw [if_neg h]
    exact ⟨fun hc => ⟨h, hc⟩, fun hc => hc.2⟩

/-- What the checks of a single sequence let pass. -/
structure Validated (request : ForwardRequest n) (s : ForwardState α c n) (t : Nat) (i : Fin n) :
    Prop where
  length : t = request.tokenIds.length
  tokens : 1 ≤ t
  cache : request.cache = some i
  geometry : (s.caches i).geometry s.pool = c.geometry

omit [Zero α] in
theorem validated_of_ok (h : validate cls request s = .ok (t, i)) : Validated request s t i := by
  unfold validate at h
  obtain ⟨hne, h⟩ := rejectIf_bind.mp h
  obtain ⟨-, h⟩ := rejectIf_bind.mp h
  obtain ⟨_, -, h⟩ := bind_eq_ok.mp h
  obtain ⟨_, -, h⟩ := bind_eq_ok.mp h
  cases hcache : request.cache with
  | none =>
      rw [hcache] at h
      cases h
  | some j =>
      rw [hcache] at h
      obtain ⟨_, hv, h⟩ := bind_eq_ok.mp h
      cases h
      unfold validateCache at hv
      obtain ⟨hgeom, -⟩ := rejectIf_bind.mp hv
      exact ⟨rfl, Nat.not_lt.mp hne, hcache, not_not.mp hgeom⟩

/-- What the checks of a batch let pass. -/
structure ValidatedBatch (cls : String) (request : ForwardRequest n) (s : ForwardState α c n)
    (t : Nat) : Prop where
  numSeqs : request.numSeqs ≠ 0
  total : t = request.cu request.numSeqs
  start : request.cu 0 = 0
  increasing : ∀ b < request.numSeqs, request.cu b < request.cu (b + 1)
  tokens : request.tokenIds.length = t
  positions : request.positions.length = t
  checked : ∀ j < t, checkTokenId cls request c j = .ok () ∧ checkPosition cls request c j = .ok ()
  caches : ∀ b < request.numSeqs, ∃ i, request.cacheAt b = some i ∧
    (s.caches i).geometry s.pool = c.geometry

omit [Zero α] in
theorem validatedBatch_of_ok (h : validateBatched cls request s = .ok t) :
    ValidatedBatch cls request s t := by
  unfold validateBatched at h
  obtain ⟨hne, h⟩ := rejectIf_bind.mp h
  obtain ⟨-, h⟩ := rejectIf_bind.mp h
  obtain ⟨hzero, h⟩ := rejectIf_bind.mp h
  obtain ⟨_, hinc, h⟩ := bind_eq_ok.mp h
  obtain ⟨hlen, h⟩ := rejectIf_bind.mp h
  obtain ⟨_, hchecked, h⟩ := bind_eq_ok.mp h
  obtain ⟨_, hmembers, h⟩ := bind_eq_ok.mp h
  cases h
  have hzero : request.cuSeqlens.getD 0 0 = 0 := not_not.mp hzero
  have hstep : ∀ b < request.numSeqs,
      request.cuSeqlens.getD b 0 < request.cuSeqlens.getD (b + 1) 0 := by
    intro b hb
    have hb := forM_eq_ok.mp hinc b (List.mem_range.mpr hb)
    unfold rejectIf at hb
    split at hb
    · cases hb
    · next hlt => exact Int.not_le.mp hlt
  have hnonneg : ∀ b ≤ request.numSeqs, 0 ≤ request.cuSeqlens.getD b 0 := by
    intro b
    induction b with
    | zero => exact fun _ => hzero.ge
    | succ b ih =>
        intro hb
        exact (ih (by omega)).trans (hstep b (by omega)).le
  rw [not_or, not_not, not_not] at hlen
  have htotal := hnonneg _ le_rfl
  refine ⟨fun hc => hne (Or.inl hc), rfl, ?_, fun b hb => ?_, by omega, by omega,
    fun j hj => ?_, fun b hb => ?_⟩
  · show (request.cuSeqlens.getD 0 0).toNat = 0
    rw [hzero]
    rfl
  · have := hstep b hb
    have := hnonneg b hb.le
    show (request.cuSeqlens.getD b 0).toNat < (request.cuSeqlens.getD (b + 1) 0).toNat
    omega
  · obtain ⟨_, htoken, hposition⟩ :=
      bind_eq_ok.mp (forM_eq_ok.mp hchecked j (List.mem_range.mpr hj))
    exact ⟨htoken, hposition⟩
  · have hb := forM_eq_ok.mp hmembers b (List.mem_range.mpr hb)
    unfold validateMember at hb
    cases hcache : request.cacheAt b with
    | none =>
        rw [hcache] at hb
        cases hb
    | some i =>
        rw [hcache] at hb
        exact ⟨i, rfl, not_not.mp (rejectIf_bind.mp hb).1⟩

namespace ValidatedBatch

variable (h : ValidatedBatch cls request s t) {b : Nat}

include h

omit [Zero α] in
theorem cu_le {b b' : Nat} (hle : b ≤ b') (hb' : b' ≤ request.numSeqs) :
    request.cu b ≤ request.cu b' := by
  induction b', hle using Nat.le_induction with
  | base => exact le_rfl
  | succ m _ ih => exact (ih (by omega)).trans (h.increasing m (by omega)).le

omit [Zero α] in
theorem seqLen_pos (hb : b < request.numSeqs) : 1 ≤ request.seqLen b := by
  have := h.increasing b hb
  unfold ForwardRequest.seqLen
  omega

omit [Zero α] in
theorem cu_seqLen (hb : b < request.numSeqs) : request.cu b + request.seqLen b ≤ t := by
  have hinc := h.increasing b hb
  have hle := h.cu_le (b := b + 1) hb le_rfl
  have htotal := h.total
  unfold ForwardRequest.seqLen
  omega

omit [Zero α] in
/-- A sequence of a batch, as the request of its own that the reference backend makes of it, is
checked for its capacity alone. -/
theorem validate_member (hb : b < request.numSeqs) (hcache : request.cacheAt b = some i)
    {s' : ForwardState α c n} (hgeom : (s'.caches i).geometry s'.pool = c.geometry) :
    if (s'.caches i).capacity s'.pool < ((s'.caches i).length + request.seqLen b : Nat) then
      ∃ status, validate cls (request.member b) s' = .error status
    else validate cls (request.member b) s' = .ok (request.seqLen b, i) := by
  have hle := h.cu_seqLen hb
  have htokens := h.tokens
  have hpositions := h.positions
  have hpos := h.seqLen_pos hb
  have hlen : (request.member b).tokenIds.length = request.seqLen b := by
    show ((request.tokenIds.drop _).take _).length = _
    rw [List.length_take, List.length_drop]
    omega
  have hlen' : (request.member b).positions.length = request.seqLen b := by
    show ((request.positions.drop _).take _).length = _
    rw [List.length_take, List.length_drop]
    omega
  -- the checks of its tokens are those that the batch has passed
  have htoken : ∀ j < request.seqLen b, (request.member b).tokenId j
      = request.tokenId (request.cu b + j) := by
    intro j hj
    show ((request.tokenIds.drop _).take _).getD j 0 = request.tokenIds.getD _ 0
    rw [List.getD_eq_getElem?_getD, List.getD_eq_getElem?_getD, List.getElem?_take_of_lt hj,
      List.getElem?_drop]
  have hposition : ∀ j < request.seqLen b, (request.member b).position j
      = request.position (request.cu b + j) := by
    intro j hj
    show ((request.positions.drop _).take _).getD j 0 = request.positions.getD _ 0
    rw [List.getD_eq_getElem?_getD, List.getD_eq_getElem?_getD, List.getElem?_take_of_lt hj,
      List.getElem?_drop]
  have htokenOk : (List.range (request.seqLen b)).forM
      (checkTokenId cls (request.member b) c) = .ok () := by
    refine forM_eq_ok.mpr fun j hj => ?_
    have hj := List.mem_range.mp hj
    have hok := (h.checked (request.cu b + j) (by omega)).1
    unfold checkTokenId rejectIf at hok ⊢
    rw [htoken j hj]
    split at hok
    · cases hok
    · next hbad => rw [if_neg hbad]
  have hpositionOk : (List.range (request.seqLen b)).forM
      (checkPosition cls (request.member b) c) = .ok () := by
    refine forM_eq_ok.mpr fun j hj => ?_
    have hj := List.mem_range.mp hj
    have hok := (h.checked (request.cu b + j) (by omega)).2
    unfold checkPosition rejectIf at hok ⊢
    rw [hposition j hj]
    split at hok
    · cases hok
    · next hbad => rw [if_neg hbad]
  have hrun : validate cls (request.member b) s'
      = (validateCache cls s' i (request.seqLen b) >>= fun _ => pure (request.seqLen b, i)) := by
    have hmember : (request.member b).cache = some i := hcache
    unfold validate
    dsimp only
    rw [hlen, hlen', htokenOk, hpositionOk, hmember, rejectIf, if_neg (by omega), rejectIf,
      if_neg (by simp)]
    rfl
  rw [hrun]
  unfold validateCache
  dsimp only
  rw [rejectIf, if_neg (not_not.mpr hgeom), rejectIf]
  split
  · exact ⟨_, rfl⟩
  · rfl

end ValidatedBatch

end

namespace Terms

section

open ReferenceModel

variable {T : Terms α n} {i : Fin n} {request : ForwardRequest n} (K : RowKernels α c)

omit [Zero α] in
/-- The capacity of a cache, as its counters answer for it. -/
theorem Ready.grant_capacity {s : ForwardState α c n} (hs : T.Ready s) (i : Fin n) (t : Nat) :
    (meter T.allocator.refuses c.numLayers T.blockSize).grant (.capacity i t) s.counters =
      if ((s.caches i).length + t : Nat) ≤ (s.caches i).capacity s.pool then some s.counters
      else none := by
  show (if ((s.caches i).counters.length + t : Nat)
    ≤ (s.caches i).counters.capacity T.blockSize s.pool.freeList.length then _ else _) = _
  rw [← hs.blockSize, KvCache.counters_capacity (hs.sound.exclusive_at i) (hs.sound.wf i),
    KvCache.counters_length]

/-- In a batch the capacity of a sequence is checked again when its turn has come. -/
theorem asks_member {cls : String} {s₀ : ForwardState α c n} {total b : Nat}
    (h : ValidatedBatch cls request s₀ total) (hcls : cls = "ReferenceModel")
    (hb : b < request.numSeqs) (hi : i ∈ T.named) (hcache : request.cacheAt b = some i)
    (out : Slot α c.vocabSize) :
    T.Asks (.capacity i (request.seqLen b) ::
        ReferenceModel.singleDemands c.numLayers i (request.seqLen b))
      (runMember K T.allocator request out b) fun _ => True := by
  subst hcls
  have hchecked : T.Asks [.capacity i (request.seqLen b)]
      (Fallible.get >>= fun s => Fallible.ofExcept (validate "ReferenceModel" (request.member b) s)
        : Forward α c n (Nat × Fin n)) fun checked => checked = (request.seqLen b, i) := by
    refine keeps_demand rfl (fun s hs m hm => ?_) fun s hs hm => ?_
    · have hvalid := h.validate_member hb hcache (hs.geometry i hi)
      have hm := (hs.grant_capacity i _).symm.trans hm
      split at hm
      · next hle =>
          cases hm
          rw [if_neg (by omega)] at hvalid
          exact ⟨_, s, congrArg (fun r => Except.ok (r, s)) hvalid, ⟨hs, rfl⟩, rfl,
            SameCaches.refl _ _⟩
      · cases hm
    · have hvalid := h.validate_member hb hcache (hs.geometry i hi)
      have hm := (hs.grant_capacity i _).symm.trans hm
      split at hm
      · cases hm
      · next hlt =>
          rw [if_pos (by omega)] at hvalid
          obtain ⟨status, hvalid⟩ := hvalid
          exact ⟨status, s, congrArg (fun r => Except.ok (r, s)) hvalid, SameCaches.refl _ _⟩
  refine Keeps.andThen (R := fun _ => True) (Keeps.mapError ?_) fun member _ => ?_
  · refine Keeps.bind (x := Fallible.get >>= fun s =>
      Fallible.ofExcept (validate "ReferenceModel" (request.member b) s)) hchecked ?_
    rintro _ rfl
    exact asks_sequence (request.member b) K hi (h.seqLen_pos hb)
  · cases request.logitsMode with
    | last => exact keeps_pure trivial
    | all => exact keeps_pure trivial

end

end Terms

/-! ### The whole forward

Behind its checks a forward is a list of demands.  It is followed from the state it was called
in, and the first demand that is refused is the error it returns. -/

section

variable {o : Multiset Int} {s : ForwardState α c n} {request : ForwardRequest n}
  (K : RowKernels α c) (A : Allocator α)

/-- The terms of a forward from the state `s` on. -/
def terms (A : Allocator α) (o : Multiset Int) (request : ForwardRequest n)
    (s : ForwardState α c n) (rows : Nat) : Terms α n where
  allocator := A
  others := o
  blockSize := s.pool.blockSize
  paged := fun i => (s.caches i).counters.isPaged
  named := request.named
  rows := rows

omit [Zero α] in
theorem terms_ready (hs : Sound s o)
    (hgeom : ∀ i ∈ request.named, (s.caches i).geometry s.pool = c.geometry) :
    (terms A o request s 0).Ready s :=
  ⟨hs, hgeom, rfl, fun _ => rfl, Nat.zero_le _⟩

omit [Zero α] in
theorem Validated.named {t : Nat} {i : Fin n} (h : Validated request s t i)
    (hsingle : request.isBatched = false) : request.named = [i] := by
  unfold ForwardRequest.named
  rw [if_neg (by rw [hsingle]; simp), h.cache]
  rfl

omit [Zero α] in
theorem ValidatedBatch.geometry {cls : String} {t : Nat}
    (h : ValidatedBatch cls request s t) (hbatched : request.isBatched = true) :
    ∀ i ∈ request.named, (s.caches i).geometry s.pool = c.geometry := by
  intro i hi
  unfold ForwardRequest.named at hi
  rw [if_pos hbatched, List.mem_filterMap] at hi
  obtain ⟨p, hp, rfl⟩ := hi
  obtain ⟨b, hb, hget⟩ := List.getElem_of_mem hp
  obtain ⟨j, hj, hgeom⟩ := h.caches b hb
  have hat : request.cacheAt b = some i := by
    show request.caches.getD b none = some i
    rw [List.getD_eq_getElem _ _ hb, hget]
  rw [hat] at hj
  cases hj
  exact hgeom

omit [Zero α] in
theorem ValidatedBatch.batch {cls : String} {t rows : Nat}
    (h : ValidatedBatch cls request s t) (hbatched : request.isBatched = true) :
    (terms A o request s rows).Batch request := by
  refine ⟨h.numSeqs, fun b hb => ?_, fun b hb => h.seqLen_pos hb⟩
  obtain ⟨i, hcache, _⟩ := h.caches b hb
  exact ⟨i, ForwardRequest.mem_named hbatched hb hcache, hcache⟩

omit [Zero α] in
/-- A batch has at least as many tokens as sequences. -/
theorem ValidatedBatch.numSeqs_le {cls : String} {t : Nat} (h : ValidatedBatch cls request s t) :
    request.numSeqs ≤ t := by
  rw [h.total]
  have hle : ∀ b ≤ request.numSeqs, b ≤ request.cu b := by
    intro b
    induction b with
    | zero => exact fun _ => Nat.zero_le _
    | succ b ih =>
        intro hb
        have := ih (by omega)
        have := h.increasing b (by omega)
        omega
  exact hle _ le_rfl

section

variable {T : Terms α n} {t : Nat}

theorem Terms.asks_single {i : Fin n} (hi : i ∈ T.named) (hcache : request.cache = some i)
    (hsingle : request.caches = []) (ht : 1 ≤ t) (hrows : t ≤ T.rows) :
    T.Asks ((List.range c.numLayers).flatMap (OptimizedModel.singleDemands T.paged i t) ++
        [.allocate])
      (OptimizedModel.runStack K T.allocator request t >>= fun _ => Fallible.get >>= fun s =>
        match request.logitsMode with
        | .last => OptimizedModel.lmHead K T.allocator [s.workspace.h (t - 1)]
        | .all => OptimizedModel.lmHead K T.allocator ((List.range t).map s.workspace.h))
      fun _ => True := by
  refine Keeps.bind (R := fun _ => True) (asks_runStack K ht hrows fun layer hl => ?_)
    fun _ _ => keeps_get.after fun s' _ => ?_
  · unfold OptimizedModel.attention
    rw [if_pos (by rw [hsingle]; rfl)]
    exact asks_singleAttention K hi hcache ht hl
  · cases request.logitsMode with
    | last => exact asks_lmHead K _
    | all => exact asks_lmHead K _

theorem Terms.asks_batch (hb : T.Batch request) (hseqs : request.numSeqs ≤ t)
    (hrows : t ≤ T.rows) :
    T.Asks ((List.range c.numLayers).flatMap
        (OptimizedModel.batchDemands T.paged request.members t) ++ [.allocate])
      (OptimizedModel.runStack K T.allocator request t >>= fun _ =>
        match request.logitsMode with
        | .last => do
            requirePrefix request.numSeqs
            modifyWorkspace (OptimizedModel.gatherLast request)
            let s ← Fallible.get
            OptimizedModel.lmHead K T.allocator ((List.range request.numSeqs).map s.workspace.tmp)
        | .all => do
            let s ← Fallible.get
            OptimizedModel.lmHead K T.allocator ((List.range t).map s.workspace.h))
      fun _ => True := by
  have hpos : 1 ≤ request.numSeqs := Nat.pos_of_ne_zero hb.numSeqs
  refine Keeps.bind (R := fun _ => True)
    (asks_runStack K (Nat.le_trans hpos hseqs) hrows fun layer hl => ?_) fun _ _ => ?_
  · unfold OptimizedModel.attention
    rw [if_neg]
    · exact asks_batchedAttention K hb hl
    · intro hc
      exact hb.numSeqs (List.length_eq_zero_iff.mpr (List.isEmpty_iff.mp hc))
  · cases request.logitsMode with
    | last =>
        refine (asks_requirePrefix hpos (hseqs.trans hrows)).after fun _ _ => ?_
        refine Keeps.after (R := fun _ => True) (asks_workspace fun _ => rfl) fun _ _ => ?_
        exact keeps_get.after fun _ _ => asks_lmHead K _
    | all => exact keeps_get.after fun _ _ => asks_lmHead K _

/-- The reference backend runs a batch one sequence after the other. -/
theorem Terms.asks_eachSequence (hb : T.Batch request)
    (hmember : ∀ b < request.numSeqs, ∀ i ∈ T.named, request.cacheAt b = some i → ∀ out,
      T.Asks (.capacity i (request.seqLen b) ::
          ReferenceModel.singleDemands c.numLayers i (request.seqLen b))
        (ReferenceModel.runMember K T.allocator request out b) fun _ => True) :
    T.Asks (.allocate :: request.members.flatMap fun member =>
        .capacity member.1 member.2 ::
          ReferenceModel.singleDemands c.numLayers member.1 member.2)
      (zeros T.allocator c.vocabSize >>= fun logits =>
        Fallible.fold (ReferenceModel.runMember K T.allocator request)
          (List.range request.numSeqs) logits >>= fun out =>
        match request.logitsMode with
        | .last => pure ((List.range request.numSeqs).map out)
        | .all => pure ((List.range t).map out))
      fun _ => True := by
  refine Keeps.bind (R := fun _ => True) (asks_zeros _) fun logits _ =>
    Keeps.andThen (R := fun _ => True) (asks_members hb logits hmember) fun out _ => ?_
  cases request.logitsMode with
  | last => exact keeps_pure trivial
  | all => exact keeps_pure trivial

end

/-! A request is of one of two kinds, and its demands are those of its kind. -/

theorem OptimizedModel.demands_batch (paged : Fin n → Bool) {numLayers capacity : Nat}
    (hbatched : request.isBatched = true) :
    demands paged request numLayers capacity =
      workspaceDemands capacity (request.cu request.numSeqs) ++
        ((List.range numLayers).flatMap
          (batchDemands paged request.members (request.cu request.numSeqs)) ++ [.allocate]) := by
  unfold demands
  rw [if_pos hbatched, List.append_assoc]

theorem OptimizedModel.demands_single (paged : Fin n → Bool) {numLayers capacity : Nat}
    {i : Fin n} (hsingle : request.isBatched = false) (hcache : request.cache = some i) :
    demands paged request numLayers capacity =
      workspaceDemands capacity request.tokenIds.length ++
        ((List.range numLayers).flatMap (singleDemands paged i request.tokenIds.length) ++
          [.allocate]) := by
  unfold demands
  rw [if_neg (by rw [hsingle]; simp), hcache, List.append_assoc]
  simp only [Option.toList_some, List.flatMap_singleton]

theorem ReferenceModel.demands_batch {numLayers : Nat} (hbatched : request.isBatched = true) :
    demands request numLayers =
      .allocate :: request.members.flatMap fun member =>
        .capacity member.1 member.2 :: singleDemands numLayers member.1 member.2 := by
  unfold demands
  rw [if_pos hbatched]

theorem ReferenceModel.demands_single {numLayers : Nat} {i : Fin n}
    (hsingle : request.isBatched = false) (hcache : request.cache = some i) :
    demands request numLayers = singleDemands numLayers i request.tokenIds.length := by
  unfold demands
  rw [if_neg (by rw [hsingle]; simp), hcache]
  simp only [Option.toList_some, List.flatMap_singleton]

theorem optimized_obeys (hs : Sound s o) (hok : ¬rejects .optimized request s) :
    (metering A.refuses s.pool.blockSize request.named).Obeys (· = s)
      (demands .optimized request s) (OptimizedModel.forward K A request) fun _ _ => True := by
  have hcapacity : ∀ {t : Nat}, 1 ≤ t →
      (∀ i ∈ request.named, (s.caches i).geometry s.pool = c.geometry) →
      (metering A.refuses s.pool.blockSize request.named).Obeys (· = s)
        (OptimizedModel.workspaceDemands s.workspace.capacity t)
        (ensureCapacity A t : Forward α c n Unit) fun _ s' => (terms A o request s t).Ready s' :=
    fun ht hgeom => Terms.obeys_ensureCapacity (T := terms A o request s _)
      (terms_ready A hs hgeom) ht rfl
  unfold OptimizedModel.forward
  unfold rejects at hok
  cases hbatched : request.isBatched with
  | true =>
      rw [if_pos hbatched] at hok
      cases hv : validateBatched "OptimizedModel" request s with
      | error status => exact absurd ⟨status, hv⟩ hok
      | ok t =>
          have h := validatedBatch_of_ok hv
          have hb : (terms A o request s t).Batch request := h.batch A hbatched
          have hseqs := h.numSeqs_le
          rw [if_pos rfl]
          rw [show demands .optimized request s = _ from
            OptimizedModel.demands_batch _ hbatched, ← h.total]
          refine Obeys.congr (y := ensureCapacity A t >>= fun _ => _) ?_
            (Obeys.bind (hcapacity (Nat.le_trans (Nat.pos_of_ne_zero h.numSeqs) hseqs)
              (h.geometry hbatched)) fun _ => Obeys.mono
                (Terms.asks_batch K hb hseqs le_rfl) (fun _ hs' => hs') fun _ _ _ => trivial)
          rintro s' rfl
          show (Fallible.ofExcept (validateBatched _ request s') >>= _) s' = _
          rw [hv]
          rfl
  | false =>
      rw [if_neg (by rw [hbatched]; simp)] at hok
      cases hv : validate "OptimizedModel" request s with
      | error status => exact absurd ⟨status, hv⟩ hok
      | ok checked =>
          obtain ⟨t, i⟩ := checked
          have h := validated_of_ok hv
          have hnamed := h.named hbatched
          have hsingle : request.caches = [] := by
            unfold ForwardRequest.isBatched at hbatched
            simpa using (Bool.or_eq_false_iff.mp hbatched).2
          have hi : i ∈ (terms A o request s t).named := by
            show i ∈ request.named
            rw [hnamed]
            exact List.mem_singleton.mpr rfl
          rw [if_neg (by simp)]
          rw [show demands .optimized request s = _ from
            OptimizedModel.demands_single _ hbatched h.cache, ← h.length]
          refine Obeys.congr (y := ensureCapacity A t >>= fun _ => _) ?_
            (Obeys.bind (hcapacity h.tokens (by
              rw [hnamed]
              exact fun j hj => List.mem_singleton.mp hj ▸ h.geometry)) fun _ => Obeys.mono
                (Terms.asks_single K hi h.cache hsingle h.tokens le_rfl) (fun _ hs' => hs')
                  fun _ _ _ => trivial)
          rintro s' rfl
          show (Fallible.ofExcept (validate _ request s') >>= _) s' = _
          rw [hv]
          rfl

theorem reference_obeys (hs : Sound s o) (hok : ¬rejects .reference request s) :
    (metering A.refuses s.pool.blockSize request.named).Obeys (· = s)
      (demands .reference request s) (ReferenceModel.forward K A request) fun _ _ => True := by
  unfold ReferenceModel.forward
  unfold rejects at hok
  cases hbatched : request.isBatched with
  | true =>
      rw [if_pos hbatched] at hok
      cases hv : validateBatched "ReferenceModel" request s with
      | error status => exact absurd ⟨status, hv⟩ hok
      | ok t =>
          have h := validatedBatch_of_ok hv
          have hready := terms_ready A hs (h.geometry hbatched)
          have hb : (terms A o request s 0).Batch request := h.batch A hbatched
          rw [if_pos rfl]
          rw [show demands .reference request s = _ from ReferenceModel.demands_batch hbatched]
          refine Obeys.congr ?_ (Obeys.mono
            (Terms.asks_eachSequence (t := t) K hb fun b hlt i hi hcache out =>
              Terms.asks_member K h rfl hlt hi hcache out)
            (fun _ heq => heq ▸ hready) fun _ _ _ => trivial)
          rintro s' rfl
          show (Fallible.ofExcept (validateBatched _ request s') >>= _) s' = _
          rw [hv]
          rfl
  | false =>
      rw [if_neg (by rw [hbatched]; simp)] at hok
      cases hv : validate "ReferenceModel" request s with
      | error status => exact absurd ⟨status, hv⟩ hok
      | ok checked =>
          obtain ⟨t, i⟩ := checked
          have h := validated_of_ok hv
          have hnamed := h.named hbatched
          have hready : (terms A o request s 0).Ready s := terms_ready A hs (by
            rw [hnamed]
            exact fun j hj => List.mem_singleton.mp hj ▸ h.geometry)
          have hi : i ∈ (terms A o request s 0).named := by
            show i ∈ request.named
            rw [hnamed]
            exact List.mem_singleton.mpr rfl
          rw [if_neg (by simp)]
          rw [show demands .reference request s = _ from
            ReferenceModel.demands_single hbatched h.cache, ← h.length]
          refine Obeys.congr ?_ (Obeys.mono (Terms.asks_sequence request K hi h.tokens)
            (fun _ heq => heq ▸ hready) fun _ _ _ => trivial)
          rintro s' rfl
          show (Fallible.ofExcept (validate _ request s') >>= _) s' = _
          rw [hv]
          rfl

/-- **What a forward asks for decides about it**: with every demand granted it returns, and it
fails where one is refused. -/
theorem forward_obeys (backend : Backend) (hs : Sound s o) (hok : ¬rejects backend request s) :
    (metering A.refuses s.pool.blockSize request.named).Obeys (· = s)
      (demands backend request s) (backend.forward K A request) fun _ _ => True := by
  cases backend with
  | reference => exact reference_obeys K A hs hok
  | optimized => exact optimized_obeys K A hs hok

/-- A rejected request leaves everything alone. -/
theorem forward_rejected (backend : Backend) (hrejects : rejects backend request s) :
    ∃ status, backend.forward K A request s = .ok (.error status, s) := by
  unfold rejects at hrejects
  cases hbatched : request.isBatched with
  | true =>
      rw [if_pos hbatched] at hrejects
      obtain ⟨status, hv⟩ := hrejects
      refine ⟨status, ?_⟩
      cases backend with
      | reference =>
          show ReferenceModel.forward K A request s = _
          unfold ReferenceModel.forward
          rw [if_pos hbatched]
          show (Fallible.ofExcept (validateBatched _ request s) >>= _) s = _
          rw [hv]
          rfl
      | optimized =>
          show OptimizedModel.forward K A request s = _
          unfold OptimizedModel.forward
          rw [if_pos hbatched]
          show (Fallible.ofExcept (validateBatched _ request s) >>= _) s = _
          rw [hv]
          rfl
  | false =>
      rw [if_neg (by rw [hbatched]; simp)] at hrejects
      obtain ⟨status, hv⟩ := hrejects
      refine ⟨status, ?_⟩
      cases backend with
      | reference =>
          show ReferenceModel.forward K A request s = _
          unfold ReferenceModel.forward
          rw [if_neg (by rw [hbatched]; simp)]
          show (Fallible.ofExcept (validate _ request s) >>= _) s = _
          rw [hv]
          rfl
      | optimized =>
          show OptimizedModel.forward K A request s = _
          unfold OptimizedModel.forward
          rw [if_neg (by rw [hbatched]; simp)]
          show (Fallible.ofExcept (validate _ request s) >>= _) s = _
          rw [hv]
          rfl

/-- **No forward aborts**, whatever it is asked and whatever the allocator refuses. -/
theorem forward_returns (backend : Backend) (hs : Sound s o) :
    ∃ r, backend.forward K A request s = .ok r := by
  by_cases hrejects : rejects backend request s
  · obtain ⟨status, hrun⟩ := forward_rejected K A backend hrejects
    exact ⟨_, hrun⟩
  · exact (forward_obeys K A backend hs hrejects).returns rfl

end

/-! ### Two prompts and one free block

Each of the two caches has room by itself, so the checks let the batch pass; the pool has room for
one of them only. -/

end InferenceEngine.Backend
