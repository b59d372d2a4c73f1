/-
The demands of a forward, part by part.

A forward is followed through its demands: every allocation and every append is one, and the
rest of it demands nothing.  What holds between two demands is `Terms.Ready`.  Each part of the
code has a lemma that says what it demands, in the order of the code.
-/
import InferenceEngine.Lib.Metering
import InferenceEngine.Proofs.CacheInterface

namespace InferenceEngine.Backend

open Except BlockPool Metering

variable {α : Type} [Zero α] {c : ModelConfig} {n : Nat}

/-! ### The metering

An append is granted where the pool has the blocks for it, and an allocation where the allocator
gives the memory.  A granted append moves the counters of one cache; nothing else in a forward
does. -/

section

variable {named : List (Fin n)} {s s' s'' : ForwardState α c n}

theorem SameCaches.trans (h : SameCaches named s s') (h' : SameCaches named s' s'') :
    SameCaches named s s'' :=
  ⟨fun i hi => (h'.length i hi).trans (h.length i hi),
    fun i hi => (h'.log i hi).trans (h.log i hi), fun b => (h'.free b).trans (h.free b)⟩

theorem SameCaches.grown (h : SameCaches named s s') (h' : GrownCaches named s' s'') :
    GrownCaches named s s'' := by
  refine ⟨fun i hi l => ?_, ?_⟩
  · rw [← h.log i hi]
    exact h'.le i hi l
  · obtain ⟨i, hi, l, hlt⟩ := h'.lt
    rw [h.log i hi] at hlt
    exact ⟨i, hi, l, hlt⟩

theorem GrownCaches.same (h : GrownCaches named s s') (h' : SameCaches named s' s'') :
    GrownCaches named s s'' := by
  refine ⟨fun i hi l => ?_, ?_⟩
  · rw [h'.log i hi]
    exact h.le i hi l
  · obtain ⟨i, hi, l, hlt⟩ := h.lt
    rw [← h'.log i hi] at hlt
    exact ⟨i, hi, l, hlt⟩

theorem GrownCaches.trans (h : GrownCaches named s s') (h' : GrownCaches named s' s'') :
    GrownCaches named s s'' := by
  refine ⟨fun i hi l => (h.le i hi l).trans (h'.le i hi l), ?_⟩
  obtain ⟨i, hi, l, hlt⟩ := h.lt
  exact ⟨i, hi, l, hlt.trans_le (h'.le i hi l)⟩

theorem GrownCaches.not_same (h : GrownCaches named s s') : ¬SameCaches named s s' := by
  intro hsame
  obtain ⟨i, hi, l, hlt⟩ := h.lt
  rw [hsame.log i hi] at hlt
  exact lt_irrefl _ hlt

end

/-- What a forward that names some caches is measured by. -/
def metering (refuses : Nat → Option Status) (bs : Nat) (named : List (Fin n)) :
    Metering (Demand n) (ForwardState α c n) (ForwardCounters n) where
  toMeter := meter refuses c.numLayers bs
  counters := ForwardState.counters
  same := SameCaches named
  grown := GrownCaches named
  same_refl := SameCaches.refl named
  same_trans := SameCaches.trans
  same_grown := SameCaches.grown
  grown_same := GrownCaches.same
  grown_trans := GrownCaches.trans
  not_same := GrownCaches.not_same

/-- What does not change in the course of a forward: the allocator, the blocks that others own,
the block size, which caches are paged, those that the request names, and how many rows of the
workspace it uses. -/
structure Terms (α : Type) (n : Nat) where
  allocator : Allocator α
  others : Multiset Int
  blockSize : Nat
  paged : Fin n → Bool
  named : List (Fin n)
  rows : Nat

namespace Terms

variable (T : Terms α n)

/-- What holds between two demands. -/
structure Ready (s : ForwardState α c n) : Prop where
  sound : Sound s T.others
  geometry : ∀ i ∈ T.named, (s.caches i).geometry s.pool = c.geometry
  blockSize : s.pool.blockSize = T.blockSize
  paged : ∀ i, (s.caches i).counters.isPaged = T.paged i
  rows : T.rows ≤ s.workspace.capacity

/-- From every ready state, `x` makes these demands and leaves a ready state. -/
abbrev Asks {β : Type} (ds : List (Demand n)) (x : Forward α c n β) (R : β → Prop) : Prop :=
  (metering T.allocator.refuses T.blockSize T.named).Keeps (T.Ready (c := c)) ds x R

variable {T} {i : Fin n} {layer t : Nat}

omit [Zero α] in
/-- The caches and the pool decide, and that the workspace has not shrunk. -/
theorem Ready.congr {s s' : ForwardState α c n} (h : T.Ready s) (hp : s'.pool = s.pool)
    (hc : s'.caches = s.caches) (hw : s.workspace.capacity ≤ s'.workspace.capacity) :
    T.Ready s' where
  sound := h.sound.congr hp hc
  geometry := by
    intro i hi
    rw [hc, hp]
    exact h.geometry i hi
  blockSize := by
    rw [hp]
    exact h.blockSize
  paged := by
    intro i
    rw [hc]
    exact h.paged i
  rows := h.rows.trans hw

/-! ### Steps that demand nothing

Most of a forward computes rows or moves them about.  These steps cannot fail, and the state
they leave is as ready as the one before. -/

/-- A change of the workspace or of the staging vectors. -/
theorem asks_modify {f : ForwardState α c n → ForwardState α c n} (hp : ∀ s, (f s).pool = s.pool)
    (hc : ∀ s, (f s).caches = s.caches) (ha : ∀ s, (f s).allocations = s.allocations)
    (hw : ∀ s, (f s).workspace.capacity = s.workspace.capacity) :
    T.Asks [] (Fallible.modify f : Forward α c n Unit) fun _ => True := by
  refine keeps_modify fun s hs => ⟨hs.congr (hp s) (hc s) (hw s).ge, ?_, ?_⟩
  · show ForwardCounters.mk _ _ _ = ForwardCounters.mk _ _ _
    rw [hp, hc, ha]
  · exact SameCaches.of_eq (hp s) (hc s)

theorem asks_workspace {f : Workspace α c → Workspace α c}
    (hw : ∀ w, (f w).capacity = w.capacity) :
    T.Asks [] (modifyWorkspace f : Forward α c n Unit) fun _ => True :=
  asks_modify (fun _ => rfl) (fun _ => rfl) (fun _ => rfl) fun s => hw s.workspace

theorem asks_staging (f : Staging α → Staging α) :
    T.Asks [] (modifyStaging f : Forward α c n Unit) fun _ => True :=
  asks_modify (fun _ => rfl) (fun _ => rfl) (fun _ => rfl) fun _ => rfl

theorem asks_requirePrefix (ht : 1 ≤ t) (hrows : t ≤ T.rows) :
    T.Asks [] (requirePrefix t : Forward α c n Unit) fun _ => True := by
  refine keeps_get.after fun s hs => keeps_ofChecked ⟨(), ?_, trivial⟩
  have hcapacity := hrows.trans hs.rows
  unfold check
  rw [if_pos (by simp [ht, hcapacity])]

theorem asks_deref {p : Option (Fin n)} (hp : p = some i) :
    T.Asks [] (deref p : Forward α c n (Fin n)) fun j => i = j := by
  subst hp
  exact keeps_ofChecked ⟨i, rfl, rfl⟩

/-! ### Allocations

Temporaries come from the allocator.  A refusal ends the forward at once with the allocator's
status, and a grant changes no cache. -/

theorem asks_allocate :
    T.Asks [.allocate] (allocate T.allocator : Forward α c n (Int → α)) fun _ => True := by
  refine keeps_demand rfl (fun s hs m hm => ?_) fun s hs hm => ?_
  · cases hr : T.allocator.refuses s.allocations with
    | some status =>
        change (if (T.allocator.refuses s.allocations).isNone then _ else none) = _ at hm
        rw [hr] at hm
        cases hm
    | none =>
        change (if (T.allocator.refuses s.allocations).isNone then _ else none) = _ at hm
        rw [hr] at hm
        cases hm
        have hrun : allocate T.allocator s = .ok (.ok (T.allocator.contents s.allocations),
            { s with allocations := s.allocations + 1 }) := by
          unfold allocate
          rw [hr]
        exact ⟨_, _, hrun, ⟨hs.congr rfl rfl le_rfl, trivial⟩, rfl, SameCaches.of_eq rfl rfl⟩
  · cases hr : T.allocator.refuses s.allocations with
    | some status =>
        have hrun : allocate T.allocator s =
            .ok (.error status, { s with allocations := s.allocations + 1 }) := by
          unfold allocate
          rw [hr]
        exact ⟨status, _, hrun, SameCaches.of_eq rfl rfl⟩
    | none =>
        change (if (T.allocator.refuses s.allocations).isNone then _ else none) = _ at hm
        rw [hr] at hm
        cases hm

theorem asks_zeros (m : Nat) :
    T.Asks [.allocate] (zeros T.allocator m : Forward α c n (Slot α m)) fun _ => True :=
  asks_allocate.andThen fun _ _ => keeps_pure trivial

theorem asks_allocSlot (m : Nat) :
    T.Asks [.allocate] (allocSlot T.allocator m : Forward α c n (Slot α m)) fun _ => True :=
  asks_allocate.andThen fun _ _ => keeps_pure trivial

/-! ### The caches

An append is made layer by layer, and only the first layer takes blocks.  A view allocates two
buffers for a contiguous cache; a paged view reads the table as it stands. -/

/-- The rows that are appended have the shape the caches want. -/
theorem tokenBlock_shape (slot slot' : Slot α c.kvRows) (first first' : Nat) (ht : 1 ≤ t)
    (hl : layer < c.numLayers) :
    AppendShape c.geometry layer (tokenBlock c slot first t) (tokenBlock c slot' first' t) := by
  have hblock : ∀ (slot : Slot α c.kvRows) (first : Nat),
      BlockShape c.geometry (tokenBlock c slot first t) :=
    fun slot first => ⟨rfl, rfl, rfl, ht, rfl, rfl⟩
  exact ⟨⟨Int.natCast_nonneg _, Int.ofNat_lt.mpr hl⟩, hblock slot first, hblock slot' first', rfl⟩

theorem asks_append (hi : i ∈ T.named) {k v : Tensor α}
    (hshape : AppendShape c.geometry layer k v) :
    T.Asks [.append i layer (k.dim 0)] (append i layer k v : Forward α c n Unit)
      fun _ => True := by
  refine obeys_demand (fun s hs m hm => ?_) fun s hs hm => ?_
  · change (meter _ _ _).grant _ _ = _ at hm
    rw [← hs.blockSize] at hm
    obtain ⟨s', hrun, happ, hcounters⟩ := append_granted hs.sound (hs.geometry i hi) hshape hm
    have hflag : (s'.caches i).counters.isPaged = (s.caches i).counters.isPaged := by
      rw [meter_append] at hm
      obtain ⟨r, hr, rfl⟩ := Option.map_eq_some_iff.mp hm
      have hcache : (s'.caches i).counters = Function.update s.counters.caches i r.1 i :=
        congrFun (congrArg ForwardCounters.caches hcounters) i
      rw [hcache, Function.update_self]
      exact CacheCounters.append_isPaged hr
    refine ⟨(), s', hrun, ⟨⟨happ.sound, fun j hj => ?_, ?_, fun j => ?_, ?_⟩, trivial⟩,
      hcounters, ?_⟩
    · rw [happ.geometry]
      exact hs.geometry j hj
    · rw [happ.shape.blockSize]
      exact hs.blockSize
    · by_cases hj : j = i
      · subst hj
        exact hflag.trans (hs.paged j)
      · rw [happ.other j hj]
        exact hs.paged j
    · rw [happ.workspace]
      exact hs.rows
    · show GrownCaches T.named s s'
      have hrows : ∀ j l, ((s'.caches j).log s'.pool).rows l =
          if j = i ∧ l = layer then
            ((s.caches j).log s.pool).rows l ++ appendRows c.geometry k v
          else ((s.caches j).log s.pool).rows l := by
        intro j l
        by_cases hj : j = i
        · subst hj
          rw [happ.log, KvLog.append_rows]
          simp
        · rw [happ.otherLog j hj, if_neg fun hc => hj hc.1]
      have hlen : 1 ≤ (appendRows c.geometry k v).length := by
        rw [appendRows, List.length_map, List.length_range]
        exact hshape.keys.tokens
      refine ⟨fun j _ l => ?_, i, hi, layer, ?_⟩
      · rw [hrows]
        split
        · rw [List.length_append]
          exact Nat.le_add_right _ _
        · exact le_rfl
      · rw [hrows, if_pos ⟨rfl, rfl⟩, List.length_append]
        omega
  · change (meter _ _ _).grant _ _ = _ at hm
    rw [← hs.blockSize] at hm
    exact append_refused hs.sound (hs.geometry i hi) hshape hm T.named

/-- Rows of the workspace, appended to a cache. -/
theorem asks_appendRows (hi : i ∈ T.named) (ht : 1 ≤ t) (hl : layer < c.numLayers)
    (slot slot' : Slot α c.kvRows) (first first' : Nat) :
    T.Asks [.append i layer t] (append i layer (tokenBlock c slot first t)
      (tokenBlock c slot' first' t) : Forward α c n Unit) fun _ => True := by
  have hdim : (tokenBlock c slot first t).dim 0 = t := rfl
  have happend := asks_append (T := T) hi (tokenBlock_shape slot slot' first first' ht hl)
  rw [hdim] at happend
  exact happend

/-- The two buffers of a view are all that can fail in it. -/
theorem asks_view (hi : i ∈ T.named) (hl : layer < c.numLayers) :
    T.Asks [.allocate, .allocate] (view T.allocator i layer : Forward α c n (KvView α))
      fun _ => True := by
  refine keeps_get.after fun s hs => ?_
  have hrange : (layer : Int) < ((s.caches i).geometry s.pool).numLayers := by
    rw [hs.geometry i hi]
    exact Int.ofNat_lt.mpr hl
  refine Keeps.after (R := fun _ => True)
    (keeps_ofExcept ⟨(), KvCache.validateView_ok hrange, trivial⟩) fun _ _ => ?_
  refine asks_allocate.bind fun freshK _ => asks_allocate.andThen fun freshV _ => ?_
  obtain ⟨kv, hview, _⟩ :=
    KvCache.view_ok (hs.sound.exclusive_at i) (hs.sound.wf i) hrange freshK freshV
  refine (keeps_ofChecked (R := fun r => r = .ok kv) ⟨_, hview, rfl⟩).after ?_
  rintro viewed rfl
  exact keeps_ofExcept ⟨kv, rfl, trivial⟩

/-- What a paged view of a named cache says. -/
def Paged (T : Terms α n) (c : ModelConfig) (pv : PagedKvView α) : Prop :=
  pv.blockSize = T.blockSize ∧
    pv.blockStride = c.geometry.numKvHeads * T.blockSize * c.geometry.headDim

theorem asks_pagedView (hi : i ∈ T.named) (hl : layer < c.numLayers) :
    T.Asks [] (pagedView i layer : Forward α c n (StatusOr (PagedKvView α))) fun r =>
      if T.paged i = true then r.Returns (T.Paged c)
      else ∃ message, r = .error (unimplementedError message) := by
  refine keeps_get.after fun s hs => keeps_ofChecked ?_
  have hgeom := hs.geometry i hi
  have hrange : (layer : Int) < ((s.caches i).geometry s.pool).numLayers := by
    rw [hgeom]
    exact Int.ofNat_lt.mpr hl
  have hview := KvCache.pagedView_ok hrange
  rw [hs.paged i, hgeom, hs.blockSize] at hview
  cases hp : T.paged i with
  | true =>
      rw [hp] at hview
      obtain ⟨pv, hrun, hsize, hstride⟩ := hview
      exact ⟨_, hrun, pv, rfl, hsize, hstride⟩
  | false =>
      rw [hp] at hview
      obtain ⟨message, hrun⟩ := hview
      exact ⟨_, hrun, message, rfl⟩

/-- The status of a paged view, when it is given up for. -/
theorem asks_requirePaged {r : StatusOr (PagedKvView α)}
    (hr : if T.paged i = true then r.Returns (T.Paged c)
      else ∃ message, r = .error (unimplementedError message)) :
    T.Asks [.pagedView i] (Fallible.ofExcept r : Forward α c n (PagedKvView α)) (T.Paged c) := by
  refine keeps_demand rfl (fun s hs m hm => ?_) fun s hs hm => ?_
  · change (if (s.caches i).counters.isPaged then _ else none) = _ at hm
    rw [hs.paged i] at hm
    split at hm
    · next hp =>
        cases hm
        rw [if_pos hp] at hr
        obtain ⟨pv, rfl, hpv⟩ := hr
        exact ⟨pv, s, rfl, ⟨hs, hpv⟩, rfl, SameCaches.refl _ _⟩
    · cases hm
  · change (if (s.caches i).counters.isPaged then _ else none) = _ at hm
    rw [hs.paged i] at hm
    split at hm
    · cases hm
    · next hp =>
        rw [if_neg hp] at hr
        obtain ⟨message, rfl⟩ := hr
        exact ⟨_, s, rfl, SameCaches.refl _ _⟩

/-! ### The sequences of a batch

Their caches are pairwise distinct and all of one kind, so a turn for one of them leaves the
counters of the others alone. -/

/-- What the checks establish about the sequences of a batch. -/
structure Batch (T : Terms α n) (request : ForwardRequest n) : Prop where
  numSeqs : request.numSeqs ≠ 0
  caches : ∀ b < request.numSeqs, ∃ i ∈ T.named, request.cacheAt b = some i
  tokens : ∀ b < request.numSeqs, 1 ≤ request.seqLen b

end Terms

theorem ForwardRequest.mem_named {request : ForwardRequest n} {i : Fin n} {b : Nat}
    (hbatched : request.isBatched = true) (hb : b < request.numSeqs)
    (hcache : request.cacheAt b = some i) : i ∈ request.named := by
  unfold named
  rw [if_pos hbatched, List.mem_filterMap]
  refine ⟨some i, ?_, rfl⟩
  have hget : request.caches.getD b none = some i := hcache
  rw [List.getD_eq_getElem _ _ hb] at hget
  exact hget ▸ List.getElem_mem hb

theorem ForwardRequest.members_flatMap {β : Type} (request : ForwardRequest n)
    (g : Fin n × Nat → List β) :
    request.members.flatMap g = (List.range request.numSeqs).flatMap fun b =>
      (request.cacheAt b).elim [] fun i => g (i, request.seqLen b) := by
  unfold members
  generalize List.range request.numSeqs = l
  induction l with
  | nil => rfl
  | cons b rest ih =>
      rw [List.flatMap_cons, ← ih]
      cases hcache : request.cacheAt b with
      | none => rw [List.filterMap_cons_none (by rw [hcache]; rfl)]; rfl
      | some i => rw [List.filterMap_cons_some (by rw [hcache]; rfl), List.flatMap_cons]; rfl

namespace Terms

variable {T : Terms α n} {i : Fin n} {layer t : Nat} {request : ForwardRequest n}

/-- A loop over the sequences of a batch. -/
theorem asks_members {β : Type} (hb : T.Batch request) {f : β → Nat → Forward α c n β}
    {g : Fin n × Nat → List (Demand n)} (x : β)
    (h : ∀ b < request.numSeqs, ∀ i ∈ T.named, request.cacheAt b = some i → ∀ x,
      T.Asks (g (i, request.seqLen b)) (f x b) fun _ => True) :
    T.Asks (request.members.flatMap g) (Fallible.fold f (List.range request.numSeqs) x)
      fun _ => True := by
  rw [request.members_flatMap]
  refine keeps_fold (fun b hb' x _ => ?_) trivial
  have hlt := List.mem_range.mp hb'
  obtain ⟨i, hi, hcache⟩ := hb.caches b hlt
  rw [hcache]
  exact h b hlt i hi hcache x

omit [Zero α] in
theorem Batch.head (hb : T.Batch request) : ∃ i ∈ T.named, request.cacheAt 0 = some i ∧
    (request.members.head?.any fun member => T.paged member.1) = T.paged i := by
  obtain ⟨i, hi, hcache⟩ := hb.caches 0 (Nat.pos_of_ne_zero hb.numSeqs)
  refine ⟨i, hi, hcache, ?_⟩
  obtain ⟨m, hm⟩ := Nat.exists_eq_succ_of_ne_zero hb.numSeqs
  unfold ForwardRequest.members
  rw [hm, List.range_succ_eq_map, List.filterMap_cons_some (by rw [hcache]; rfl)]
  rfl

omit [Zero α] in
theorem Batch.length (hb : T.Batch request) : request.members.length = request.numSeqs := by
  unfold ForwardRequest.members
  have hall : ∀ l : List Nat, (∀ b ∈ l, b < request.numSeqs) →
      (l.filterMap fun b => (request.cacheAt b).map fun i => (i, request.seqLen b)).length
        = l.length := by
    intro l
    induction l with
    | nil => exact fun _ => rfl
    | cons b rest ih =>
        intro hl
        obtain ⟨i, _, hcache⟩ := hb.caches b (hl b (by simp))
        rw [List.filterMap_cons_some (by rw [hcache]; rfl), List.length_cons, List.length_cons,
          ih fun b' hb' => hl b' (List.mem_cons_of_mem _ hb')]
  rw [hall _ fun b hb' => List.mem_range.mp hb', List.length_range]

/-! ### The optimized backend

All rows go through the layers together, and the attention of each layer appends to every cache
before it reads any of them. -/

section

open OptimizedModel

variable (K : RowKernels α c)

theorem asks_singleAttention (hi : i ∈ T.named) (hcache : request.cache = some i)
    (ht : 1 ≤ t) (hl : layer < c.numLayers) :
    T.Asks (OptimizedModel.singleDemands T.paged i t layer)
      (singleAttention K T.allocator request layer t) fun _ => True := by
  have hdemands : OptimizedModel.singleDemands T.paged i t layer = [.append i layer t] ++
      (if t = 1 ∧ T.paged i = true then [] else [.allocate, .allocate]) := rfl
  rw [hdemands]
  unfold singleAttention
  refine (asks_deref hcache).after ?_
  rintro _ rfl
  refine keeps_get.after fun s _ => ?_
  refine (asks_appendRows hi ht hl _ _ 0 0).bind fun _ _ => ?_
  by_cases h1 : t = 1
  · rw [if_pos h1]
    refine (asks_pagedView hi hl).after fun r hr => ?_
    cases hp : T.paged i with
    | true =>
        rw [hp] at hr
        obtain ⟨pv, rfl, _⟩ := hr
        rw [if_pos ⟨h1, rfl⟩]
        exact asks_workspace fun _ => rfl
    | false =>
        rw [hp] at hr
        obtain ⟨message, rfl⟩ := hr
        rw [if_neg (by simp)]
        exact (asks_view hi hl).andThen fun _ _ => asks_workspace fun _ => rfl
  · rw [if_neg h1, if_neg fun hc => h1 hc.1]
    exact (asks_view hi hl).andThen fun _ _ => asks_workspace fun _ => rfl

theorem asks_appendBatch (hb : T.Batch request) (hl : layer < c.numLayers) :
    T.Asks (request.members.map fun member => .append member.1 layer member.2)
      (appendBatch request layer : Forward α c n Unit) fun _ => True := by
  rw [List.map_eq_flatMap]
  refine asks_members hb () fun b hlt i hi hcache _ => ?_
  refine (asks_deref hcache).after ?_
  rintro _ rfl
  refine keeps_get.after fun s _ => ?_
  exact asks_appendRows hi (hb.tokens b hlt) hl _ _ _ _

theorem asks_decodeBatch (hb : T.Batch request) (hl : layer < c.numLayers) {pv0 : PagedKvView α}
    (h0 : T.Paged c pv0) :
    T.Asks (request.members.map fun member => .pagedView member.1)
      (decodeBatch K request layer pv0) fun _ => True := by
  unfold decodeBatch
  refine (asks_staging _).after fun _ _ => Keeps.andThen (R := fun _ => True) ?_ fun _ _ =>
    asks_modify (fun _ => rfl) (fun _ => rfl) (fun _ => rfl) fun _ => rfl
  rw [List.map_eq_flatMap]
  refine asks_members hb () fun b _ i hi hcache _ => ?_
  refine (asks_deref hcache).after ?_
  rintro _ rfl
  refine (asks_pagedView hi hl).after fun r hr => (asks_requirePaged hr).andThen fun pv hpv => ?_
  -- all views of one pool have its block size and stride
  refine Keeps.after (R := fun _ => True) (keeps_ofExcept ⟨(), ?_, trivial⟩) fun _ _ =>
    asks_staging _
  rw [rejectIf, if_neg]
  rintro (hc | hc)
  · exact hc (hpv.1.trans h0.1.symm)
  · exact hc (hpv.2.trans h0.2.symm)

theorem asks_varlenAttention (hb : T.Batch request) (hl : layer < c.numLayers) :
    T.Asks (request.members.flatMap fun _ => [.allocate, .allocate])
      (varlenAttention K T.allocator request layer) fun _ => True := by
  unfold varlenAttention
  refine (asks_staging _).after fun _ _ => Keeps.andThen (R := fun _ => True) ?_ fun _ _ =>
    (asks_staging _).after fun _ _ =>
      asks_modify (fun _ => rfl) (fun _ => rfl) (fun _ => rfl) fun _ => rfl
  refine asks_members hb () fun b _ i hi hcache _ => ?_
  refine (asks_deref hcache).after ?_
  rintro _ rfl
  exact (asks_view hi hl).andThen fun _ _ => asks_staging _

theorem asks_batchedAttention (hb : T.Batch request) (hl : layer < c.numLayers) :
    T.Asks (batchDemands T.paged request.members t layer)
      (batchedAttention K T.allocator request layer t) fun _ => True := by
  obtain ⟨i, hi, hcache, hhead⟩ := hb.head
  unfold batchedAttention batchDemands
  refine (asks_appendBatch hb hl).bind fun _ _ => ?_
  rw [hb.length, hhead]
  by_cases ht : t = request.numSeqs
  · rw [if_pos ht]
    refine (asks_deref hcache).after ?_
    rintro _ rfl
    refine (asks_pagedView hi hl).after fun r hr => ?_
    cases hp : T.paged i with
    | true =>
        rw [hp] at hr
        obtain ⟨pv, rfl, hpv⟩ := hr
        rw [if_pos ⟨ht, rfl⟩]
        exact asks_decodeBatch K hb hl hpv
    | false =>
        rw [hp] at hr
        obtain ⟨message, rfl⟩ := hr
        rw [if_neg (by simp)]
        exact asks_varlenAttention K hb hl
  · rw [if_neg ht, if_neg fun hc => ht hc.1]
    exact asks_varlenAttention K hb hl

/-- The stack demands what its attentions do. -/
theorem asks_runStack {demands : Nat → List (Demand n)} (ht : 1 ≤ t) (hrows : t ≤ T.rows)
    (hatt : ∀ layer < c.numLayers, T.Asks (demands layer)
      (attention K T.allocator request layer t) fun _ => True) :
    T.Asks ((List.range c.numLayers).flatMap demands) (runStack K T.allocator request t)
      fun _ => True := by
  unfold runStack
  refine (asks_requirePrefix ht hrows).after fun _ _ => ?_
  refine Keeps.after (R := fun _ => True) (asks_workspace fun _ => rfl) fun _ _ => ?_
  refine Keeps.andThen (R := fun _ => True) ?_ fun _ _ => asks_workspace fun _ => rfl
  refine keeps_each fun layer hlayer => ?_
  refine (asks_requirePrefix ht hrows).after fun _ _ => ?_
  refine Keeps.after (R := fun _ => True) (asks_workspace fun _ => rfl) fun _ _ => ?_
  exact (hatt layer (List.mem_range.mp hlayer)).andThen fun _ _ => asks_workspace fun _ => rfl

theorem asks_lmHead (rows : List (Row α c.hiddenSize)) :
    T.Asks [.allocate] (lmHead K T.allocator rows : Forward α c n _) fun _ => True :=
  (asks_zeros _).andThen fun _ _ => keeps_pure trivial

end

/-- `EnsureCapacity` makes room, with ten buffers where there is none. -/
theorem obeys_ensureCapacity {s : ForwardState α c n} (hs : { T with rows := 0 }.Ready s)
    (ht : 1 ≤ t) (hrows : T.rows = t) :
    (metering T.allocator.refuses T.blockSize T.named).Obeys (· = s)
      (OptimizedModel.workspaceDemands s.workspace.capacity t)
      (ensureCapacity T.allocator t : Forward α c n Unit) fun _ s' => T.Ready s' := by
  have hcheck : check (decide (1 ≤ t)) s!"Workspace::EnsureCapacity: t must be >= 1, got {t}"
      = .ok () := by
    unfold check
    rw [if_pos (by simpa using ht)]
  have hrun : ∀ s' : ForwardState α c n, s' = s → ensureCapacity T.allocator t s' =
      (if t ≤ s.workspace.capacity then pure () else growWorkspace T.allocator t :
        Forward α c n Unit) s' := by
    rintro s' rfl
    unfold ensureCapacity
    rw [hcheck]
    rfl
  refine Obeys.congr hrun ?_
  unfold OptimizedModel.workspaceDemands
  by_cases hle : t ≤ s.workspace.capacity
  · rw [if_pos hle, if_pos hle]
    refine obeys_nil ?_
    rintro s' rfl
    exact ⟨(), s', rfl, ⟨hs.sound, hs.geometry, hs.blockSize, hs.paged, hrows ▸ hle⟩, rfl,
      SameCaches.refl _ _⟩
  · rw [if_neg hle, if_neg hle]
    refine Obeys.mono (P := { T with rows := 0 }.Ready) ?_ (fun s' h => h ▸ hs) fun _ _ h => h
    unfold growWorkspace
    have hslot := fun m => asks_allocSlot (T := { T with rows := 0 }) (c := c) m
    refine (hslot c.hiddenSize).bindObeys fun x _ => (hslot _).bindObeys fun h _ =>
      (hslot _).bindObeys fun tmp _ => (hslot _).bindObeys fun r _ =>
      (hslot _).bindObeys fun q _ => (hslot _).bindObeys fun k _ =>
      (hslot _).bindObeys fun v _ => (hslot _).bindObeys fun ctx _ =>
      (hslot _).bindObeys fun gate _ => (hslot _).bindObeys fun up _ => ?_
    refine obeys_nil fun s' hs' => ⟨(), _, rfl, ?_, rfl, SameCaches.of_eq rfl rfl⟩
    exact ⟨hs'.sound.congr rfl rfl, hs'.geometry, hs'.blockSize, hs'.paged, hrows.le⟩

end Terms

/-! ### The reference backend

One sequence after the other goes through all the layers. -/

namespace Terms

section

open ReferenceModel

variable {T : Terms α n} {i : Fin n} {layer t : Nat} {request : ForwardRequest n}
  (K : RowKernels α c)

theorem asks_referenceAttention (hi : i ∈ T.named) (ht : 1 ≤ t) (hl : layer < c.numLayers)
    (x y : Slot α c.hiddenSize) :
    T.Asks ([.allocate, .allocate, .allocate] ++
        [.append i layer t, .allocate, .allocate, .allocate])
      (ReferenceModel.attention K T.allocator request i layer t x y) fun _ => True := by
  refine (asks_zeros _).bind fun q _ => (asks_zeros _).bind fun k _ =>
    (asks_zeros _).bind fun v _ => ?_
  refine (asks_appendRows hi ht hl _ _ 0 0).bind fun _ _ => ?_
  exact (asks_view hi hl).bind fun kv _ => (asks_zeros _).andThen fun ctx _ => keeps_pure trivial

theorem asks_mlp (x y : Slot α c.hiddenSize) :
    T.Asks [.allocate, .allocate]
      (mlp K T.allocator layer t x y : Forward α c n (Slot α c.hiddenSize)) fun _ => True :=
  (asks_zeros _).bind fun _ _ => (asks_zeros _).andThen fun _ _ => keeps_pure trivial

theorem asks_nextLayer (hi : i ∈ T.named) (ht : 1 ≤ t) (hl : layer < c.numLayers)
    (x : Slot α c.hiddenSize) :
    T.Asks (layerDemands i t layer) (nextLayer K T.allocator request i t x layer)
      fun _ => True := by
  refine (asks_zeros _).bind fun next _ => (asks_zeros _).bind fun normed _ =>
    (asks_zeros _).bind fun attnOut _ => ?_
  refine (asks_referenceAttention K hi ht hl _ _).bind fun attnOut _ => ?_
  refine (asks_zeros _).bind fun residual _ => ?_
  exact (asks_mlp K _ _).andThen fun _ _ => keeps_pure trivial

variable (request) in
/-- A sequence behind its checks. -/
theorem asks_sequence (hi : i ∈ T.named) (ht : 1 ≤ t) :
    T.Asks (ReferenceModel.singleDemands c.numLayers i t)
      (ReferenceModel.runStack K T.allocator request i t >>= fun normed =>
        match request.logitsMode with
        | .last => OptimizedModel.lmHead K T.allocator [normed (t - 1)]
        | .all => OptimizedModel.lmHead K T.allocator ((List.range t).map normed))
      fun _ => True := by
  have hdemands : ReferenceModel.singleDemands c.numLayers i t =
      ([.allocate] ++ ((List.range c.numLayers).flatMap (layerDemands i t) ++ [.allocate])) ++
        [.allocate] := by
    simp [ReferenceModel.singleDemands]
  rw [hdemands]
  refine Keeps.bind (R := fun _ => True) ?_ fun normed _ => ?_
  · refine (asks_zeros _).bind fun x _ => Keeps.bind (R := fun _ => True) ?_ fun x _ =>
      (asks_zeros _).andThen fun _ _ => keeps_pure trivial
    exact keeps_fold (fun layer hlayer x _ =>
      asks_nextLayer K hi ht (List.mem_range.mp hlayer) x) trivial
  · cases request.logitsMode with
    | last => exact asks_lmHead K _
    | all => exact asks_lmHead K _

end

end Terms

end InferenceEngine.Backend
