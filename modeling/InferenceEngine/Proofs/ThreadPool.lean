/-
What the thread pool's barrier promises, in every interleaving.

A worker is busy from the publication of a region until it has finished its part of it, and
`workers_remaining_` counts the busy workers.  Only a caller that waits for the count keeps a
region open, so when none does, no worker is busy and the next region finds all of them at
the same generation.  That a chunk has been executed can be read off its worker's place.
-/
import InferenceEngine.Parallel.ThreadPool
import Mathlib.Algebra.Order.Group.Nat
import Mathlib.Data.Finset.Card
import Mathlib.Data.Finset.Range
import Mathlib.Algebra.Order.Ring.Int

namespace InferenceEngine

/-! ### Logs

A run is judged by its log: the chunks that have been executed, the regions that the workers
have picked up and the returns of `Run`.  These lemmas say what one more event adds to each of
them. -/

theorem chunksOf_append (region : Nat) (l l' : List PoolEvent) :
    chunksOf region (l ++ l') = chunksOf region l ++ chunksOf region l' := List.filterMap_append

theorem picksOf_append (worker : Nat) (l l' : List PoolEvent) :
    picksOf worker (l ++ l') = picksOf worker l ++ picksOf worker l' := List.filterMap_append

@[simp] theorem chunksOf_picked (region w r : Nat) : chunksOf region [.picked w r] = [] := rfl

@[simp] theorem chunksOf_returned (region r : Nat) : chunksOf region [.returned r] = [] := rfl

theorem chunksOf_executed (region w r : Nat) (chunkFn : Option Nat) (chunk : Int) :
    chunksOf region [.executed w r chunkFn chunk] = if r = region then [chunk] else [] := by
  by_cases h : r = region <;> simp [chunksOf, h]

@[simp] theorem picksOf_executed (worker w r : Nat) (chunkFn : Option Nat) (chunk : Int) :
    picksOf worker [.executed w r chunkFn chunk] = [] := rfl

@[simp] theorem picksOf_returned (worker r : Nat) : picksOf worker [.returned r] = [] := rfl

theorem picksOf_picked (worker w r : Nat) :
    picksOf worker [.picked w r] = if w = worker then [r] else [] := by
  by_cases h : w = worker <;> simp [picksOf, h]

theorem mem_chunksOf {region : Nat} {chunk : Int} {log : List PoolEvent} :
    chunk ∈ chunksOf region log ↔ ∃ w chunkFn, .executed w region chunkFn chunk ∈ log := by
  unfold chunksOf
  rw [List.mem_filterMap]
  constructor
  · intro ⟨e, he, h⟩
    cases e with
    | executed w r f k =>
        by_cases hr : r = region
        · subst hr
          simp only [if_true, Option.some.injEq] at h
          subst h
          exact ⟨w, f, he⟩
        · simp [hr] at h
    | picked w r => simp at h
    | returned r => simp at h
  · intro ⟨w, f, he⟩
    exact ⟨_, he, by simp⟩

namespace PoolState

variable {T : Nat} {s s' : PoolState} {c c' w : Nat} {region : Region}

/-! ### The invariant

The callers, the workers and the log each have their part, and `Inside` is all of them.  A place
in the code tells whether a caller holds `run_mutex_` and how much of a region a worker has
done. -/

/-- Whether a caller at this place holds `run_mutex_`. -/
def locked : CallerPhase → Bool
  | .entered _ => false
  | _ => true

/-- How many regions a worker has picked up. -/
def seen (s : PoolState) (w : Nat) : Nat := (picksOf w s.log).length

/-- Whether a worker is inside a region. -/
def isRunning : WorkerPhase → Bool
  | .running .. => true
  | _ => false

/-- Whether a worker is still to finish the last region. -/
def busy (s : PoolState) (w : Nat) : Bool :=
  decide (s.seen w < s.regions.length) || isRunning (s.workers w).phase

/-- The callers of `Run`. -/
structure Callers (s : PoolState) : Prop where
  owner : ∀ c, s.runMutex = some c ↔ ∃ p, s.callers.lookup c = some p ∧ locked p = true
  published : ∀ c, s.callers.lookup c = some .awaiting →
    ∃ region, s.regions.getLast? = some region ∧ s.regionChunkFn = some region.chunkFn ∧
      s.regionNumChunks = region.numChunks
  opened : ∀ c, s.callers.lookup c = some .releasing → s.regions ≠ []
  halted : s.stopping = true → ∀ c, s.callers.lookup c = none

/-- One worker. -/
structure Follows (T : Nat) (s : PoolState) (w : Nat) : Prop where
  picked : picksOf w s.log = List.range (s.seen w)
  seen_le : s.seen w ≤ s.regions.length
  le_seen : s.regions.length ≤ s.seen w + 1
  generation : (s.workers w).seenGeneration = UInt64.ofNat (s.seen w)
  running : ∀ chunkFn numChunks chunk r,
    (s.workers w).phase = .running chunkFn numChunks chunk r →
      s.regions.length = r + 1 ∧ s.seen w = r + 1 ∧ (w : Int) ≤ chunk ∧ chunk % T = w ∧
        ∃ region, s.regions[r]? = some region ∧ chunkFn = some region.chunkFn ∧
          numChunks = region.numChunks

/-- The workers and their count. -/
structure Workers (T : Nat) (s : PoolState) : Prop where
  generation : s.regionGeneration = UInt64.ofNat s.regions.length
  follows : ∀ w < T, Follows T s w
  remaining : s.workersRemaining = ((Finset.range T).filter fun w => s.busy w = true).card

/-- Whether a chunk of a region lies behind the worker it belongs to. -/
def Covered (s : PoolState) (w r : Nat) (chunk : Int) : Prop :=
  match (s.workers w).phase with
  | .running _ _ next r' => r < r' ∨ (r = r' ∧ chunk < next)
  | _ => r < s.seen w

/-- What the return of `Run` finds behind it and leaves before it. -/
def Returned (T : Nat) (s : PoolState) (before : List PoolEvent) (r : Nat)
    (after : List PoolEvent) : Prop :=
  ∃ region, s.regions[r]? = some region ∧
    (∀ chunk, chunk ∈ chunksOf r before ↔ 0 ≤ chunk ∧ chunk < region.numChunks) ∧
    chunksOf r after = [] ∧ ∀ w < T, picksOf w before = List.range (r + 1)

/-- What has been logged. -/
structure Recorded (T : Nat) (s : PoolState) : Prop where
  strangers : ∀ w, T ≤ w → picksOf w s.log = []
  chunks : ∀ r region, s.regions[r]? = some region → ∀ chunk, chunk ∈ chunksOf r s.log ↔
    0 ≤ chunk ∧ chunk < region.numChunks ∧ s.Covered (chunk % T).toNat r chunk
  once : ∀ r, (chunksOf r s.log).Nodup
  own : ∀ w r chunkFn chunk, .executed w r chunkFn chunk ∈ s.log →
    ∃ region, s.regions[r]? = some region ∧ chunkFn = some region.chunkFn ∧
      0 ≤ chunk ∧ chunk < region.numChunks
  returned : ∀ before r after, s.log = before ++ .returned r :: after →
    Returned T s before r after

/-- What every reachable pool satisfies. -/
structure Inside (T : Nat) (s : PoolState) : Prop where
  callers : Callers s
  workers : Workers T s
  recorded : Recorded T s
  /-- with no caller waiting, no worker is busy -/
  resting : (∀ c, s.callers.lookup c ≠ some .awaiting) → s.workersRemaining = 0

/-- The worker a chunk belongs to. -/
theorem toNat_emod_lt (hT : 1 ≤ T) (k : Int) : (k % T).toNat < T := by
  have hlt := Int.emod_lt_of_pos k (show (0 : Int) < T by omega)
  have hnonneg := Int.emod_nonneg k (show (T : Int) ≠ 0 by omega)
  omega

theorem emod_le_self {k : Int} (h0 : 0 ≤ k) : k % T ≤ k := by
  have hdiv := Int.emod_add_mul_ediv k T
  have hnonneg : 0 ≤ (T : Int) * (k / T) :=
    Int.mul_nonneg (by omega) (Int.ediv_nonneg h0 (by omega))
  omega

/-- The chunks of one worker lie a stride apart. -/
theorem lt_stride_iff {k next : Int} (hT : 1 ≤ T) (h : k % T = next % T) :
    k < next + T ↔ k < next ∨ k = next := by
  constructor
  · intro hlt
    by_cases hge : next ≤ k
    · have hdvd : (T : Int) ∣ k - next :=
        Int.dvd_of_emod_eq_zero (Int.emod_eq_emod_iff_emod_sub_eq_zero.mp h)
      have hzero : k - next = 0 := Int.eq_zero_of_dvd_of_nonneg_of_lt (by omega) (by omega) hdvd
      exact .inr (by omega)
    · exact .inl (by omega)
  · intro hor
    rcases hor with hlt | heq
    · omega
    · omega

/-! ### Who is busy

`workers_remaining_` is not zero as long as some worker is busy, and a caller waits until it
is.  So a region is open exactly as long as somebody waits for it. -/

theorem Workers.not_busy (h : Workers T s) (hzero : s.workersRemaining = 0) (hw : w < T) :
    s.busy w = false := by
  have hcard : ((Finset.range T).filter fun w => s.busy w = true).card = 0 := by
    have := h.remaining
    omega
  have hnot := Finset.filter_eq_empty_iff.mp (Finset.card_eq_zero.mp hcard)
    (Finset.mem_range.mpr hw)
  simpa using hnot

/-- A worker that is not busy waits at the last generation, or has left. -/
theorem Workers.settled (h : Workers T s) (hzero : s.workersRemaining = 0) (hw : w < T) :
    s.seen w = s.regions.length ∧ isRunning (s.workers w).phase = false := by
  have hb := h.not_busy hzero hw
  unfold busy at hb
  rw [Bool.or_eq_false_iff, decide_eq_false_iff_not] at hb
  exact ⟨Nat.le_antisymm (h.follows w hw).seen_le (Nat.le_of_not_lt hb.1), hb.2⟩

theorem Covered.of_not_running {r : Nat} {chunk : Int}
    (h : isRunning (s.workers w).phase = false) : s.Covered w r chunk ↔ r < s.seen w := by
  unfold Covered
  split
  · rename_i heq
    rw [heq] at h
    exact absurd h (by simp [isRunning])
  · rfl

/-- While a worker is busy, the last region is open. -/
theorem Inside.open_of_busy (h : Inside T s) (hw : w < T) (hb : s.busy w = true) :
    ∃ region, s.regions.getLast? = some region ∧ s.regionChunkFn = some region.chunkFn ∧
      s.regionNumChunks = region.numChunks := by
  by_cases hex : ∃ c, s.callers.lookup c = some .awaiting
  · obtain ⟨c, hc⟩ := hex
    exact h.callers.published c hc
  · have hzero := h.resting fun c hc => hex ⟨c, hc⟩
    rw [h.workers.not_busy hzero hw] at hb
    exact absurd hb (by simp)

/-- The one caller that holds `run_mutex_`. -/
theorem Callers.eq_of_locked {p p' : CallerPhase} (h : Callers s)
    (hc : s.callers.lookup c = some p) (hp : locked p = true)
    (hc' : s.callers.lookup c' = some p') (hp' : locked p' = true) : c = c' := by
  have h1 := (h.owner c).mpr ⟨p, hc, hp⟩
  have h2 := (h.owner c').mpr ⟨p', hc', hp'⟩
  rw [h1] at h2
  exact Option.some.inj h2

/-- With a caller elsewhere under `run_mutex_`, none waits. -/
theorem Callers.none_awaiting {p : CallerPhase} (h : Callers s)
    (hc : s.callers.lookup c = some p) (hp : locked p = true) (hne : p ≠ .awaiting) :
    ∀ c', s.callers.lookup c' ≠ some .awaiting := by
  intro c' hc'
  have he := h.eq_of_locked hc hp hc' rfl
  subst he
  rw [hc] at hc'
  exact hne (Option.some.inj hc')

/-! ### What a step leaves alone

Each of the three parts of the invariant reads only some of the fields.  A step that changes
none of them keeps that part, and an event that is no execution of a chunk keeps what has been
logged. -/

theorem Follows.congr (h : Follows T s w) (hlog : picksOf w s'.log = picksOf w s.log)
    (hworker : s'.workers w = s.workers w) (hregions : s'.regions = s.regions) :
    Follows T s' w := by
  have hseen : s'.seen w = s.seen w := by rw [seen, seen, hlog]
  refine ⟨?_, ?_, ?_, ?_, ?_⟩
  · rw [hlog, hseen]
    exact h.picked
  · rw [hseen, hregions]
    exact h.seen_le
  · rw [hseen, hregions]
    exact h.le_seen
  · rw [hworker, hseen]
    exact h.generation
  · rw [hworker, hseen, hregions]
    exact h.running

theorem busy_congr (hlog : picksOf w s'.log = picksOf w s.log)
    (hworker : s'.workers w = s.workers w) (hregions : s'.regions = s.regions) :
    s'.busy w = s.busy w := by
  unfold busy seen
  rw [hlog, hworker, hregions]

theorem Workers.congr (h : Workers T s) (hlog : ∀ w, picksOf w s'.log = picksOf w s.log)
    (hworkers : s'.workers = s.workers) (hregions : s'.regions = s.regions)
    (hgen : s'.regionGeneration = s.regionGeneration)
    (hrem : s'.workersRemaining = s.workersRemaining) : Workers T s' := by
  refine ⟨?_, ?_, ?_⟩
  · rw [hgen, hregions]
    exact h.generation
  · intro w hw
    exact (h.follows w hw).congr (hlog w) (congrFun hworkers w) hregions
  · rw [hrem, h.remaining]
    refine congrArg (fun f : Finset Nat => (f.card : Int)) (Finset.filter_congr fun w _ => ?_)
    rw [busy_congr (hlog w) (congrFun hworkers w) hregions]

theorem Covered.congr {r : Nat} {k : Int} (hlog : picksOf w s'.log = picksOf w s.log)
    (hworker : s'.workers w = s.workers w) : s'.Covered w r k ↔ s.Covered w r k := by
  unfold Covered seen
  rw [hlog, hworker]

theorem Returned.congr {before after : List PoolEvent} {r : Nat} (h : Returned T s before r after)
    (hregions : s'.regions = s.regions) : Returned T s' before r after := by
  unfold Returned
  rw [hregions]
  exact h

theorem Recorded.congr (h : Recorded T s) (hlog : s'.log = s.log)
    (hregions : s'.regions = s.regions)
    (hcov : ∀ (r : Nat) (region : Region) (k : Int), s.regions[r]? = some region → 0 ≤ k →
      k < region.numChunks → (s'.Covered (k % T).toNat r k ↔ s.Covered (k % T).toNat r k)) :
    Recorded T s' := by
  refine ⟨?_, ?_, ?_, ?_, ?_⟩
  · rw [hlog]
    exact h.strangers
  · rw [hlog, hregions]
    intro r region hr k
    rw [h.chunks r region hr k]
    refine and_congr_right fun h0 => and_congr_right fun hk => ?_
    exact (hcov r region k hr h0 hk).symm
  · rw [hlog]
    exact h.once
  · rw [hlog, hregions]
    exact h.own
  · rw [hlog]
    intro before r after hsplit
    exact (h.returned before r after hsplit).congr hregions

private theorem snoc_split {α : Type*} {l before after : List α} {e f : α}
    (h : l ++ [e] = before ++ f :: after) :
    (after = [] ∧ before = l ∧ f = e) ∨ ∃ rest, after = rest ++ [e] ∧ l = before ++ f :: rest := by
  rcases List.eq_nil_or_concat after with rfl | ⟨rest, x, rfl⟩
  · obtain ⟨hl, he⟩ := List.append_inj' h rfl
    exact .inl ⟨rfl, hl.symm, (List.cons.inj he).1.symm⟩
  · rw [List.concat_eq_append] at h ⊢
    rw [show before ++ f :: (rest ++ [x]) = (before ++ f :: rest) ++ [x] by simp] at h
    obtain ⟨hl, he⟩ := List.append_inj' h rfl
    cases he
    exact .inr ⟨rest, rfl, hl⟩

/-- A log that grows keeps what was true at the returns in it. -/
theorem Recorded.returned_snoc {e : PoolEvent} (h : Recorded T s)
    (hlog : s'.log = s.log ++ [e]) (hregions : s'.regions = s.regions)
    (hquiet : ∀ r, .returned r ∈ s.log → chunksOf r [e] = [])
    (hnew : ∀ r, e = .returned r → Returned T s s.log r []) :
    ∀ before r after, s'.log = before ++ .returned r :: after → Returned T s' before r after := by
  intro before r after hsplit
  rw [hlog] at hsplit
  rcases snoc_split hsplit with ⟨rfl, rfl, he⟩ | ⟨rest, rfl, hl⟩
  · exact (hnew r he.symm).congr hregions
  · obtain ⟨region, hr, hall, hnone, hpicks⟩ := h.returned before r rest hl
    refine Returned.congr ⟨region, hr, hall, ?_, hpicks⟩ hregions
    rw [chunksOf_append, hnone, hquiet r (by rw [hl]; simp)]
    rfl

/-- An event other than the execution of a chunk is added. -/
theorem Recorded.snoc {e : PoolEvent} (h : Recorded T s) (hlog : s'.log = s.log ++ [e])
    (hregions : s'.regions = s.regions)
    (hcov : ∀ (r : Nat) (region : Region) (k : Int), s.regions[r]? = some region → 0 ≤ k →
      k < region.numChunks → (s'.Covered (k % T).toNat r k ↔ s.Covered (k % T).toNat r k))
    (hquiet : ∀ r, chunksOf r [e] = []) (hstrangers : ∀ w, T ≤ w → picksOf w [e] = [])
    (hnew : ∀ r, e = .returned r → Returned T s s.log r []) : Recorded T s' := by
  have hchunks : ∀ r, chunksOf r s'.log = chunksOf r s.log := by
    intro r
    rw [hlog, chunksOf_append, hquiet, List.append_nil]
  refine ⟨?_, ?_, ?_, ?_, h.returned_snoc hlog hregions (fun r _ => hquiet r) hnew⟩
  · intro w hw
    rw [hlog, picksOf_append, h.strangers w hw, hstrangers w hw]
    rfl
  · intro r region hr k
    rw [hregions] at hr
    rw [hchunks, h.chunks r region hr k]
    refine and_congr_right fun h0 => and_congr_right fun hk => ?_
    exact (hcov r region k hr h0 hk).symm
  · intro r
    rw [hchunks]
    exact h.once r
  · intro w r fn k he
    rw [hlog, List.mem_append] at he
    rw [hregions]
    rcases he with he | he
    · exact h.own w r fn k he
    · have hc := hquiet r
      rw [← List.mem_singleton.mp he, chunksOf_executed, if_pos rfl] at hc
      exact absurd hc (by simp)

/-! ### The steps of a caller

The caller that publishes a region has found all workers settled, because the caller in front of
it has waited for them under the same mutex.  When it returns they have settled again, and every
chunk lies behind its worker. -/

/-- When no worker is busy, every chunk of the last region has been executed. -/
theorem returned_of_settled (hT : 1 ≤ T) (hw : Workers T s) (h : Recorded T s)
    (hzero : s.workersRemaining = 0) (hne : s.regions ≠ []) :
    Returned T s s.log (s.regions.length - 1) [] := by
  have hpos : 0 < s.regions.length := List.length_pos_of_ne_nil hne
  have hlast : s.regions[s.regions.length - 1]? = some (s.regions[s.regions.length - 1]) :=
    List.getElem?_eq_getElem (by omega)
  refine ⟨_, hlast, ?_, rfl, ?_⟩
  · intro k
    rw [h.chunks _ _ hlast]
    constructor
    · intro ⟨h0, hk, _⟩
      exact ⟨h0, hk⟩
    · intro ⟨h0, hk⟩
      obtain ⟨hall, hidle⟩ := hw.settled hzero (toNat_emod_lt hT k)
      refine ⟨h0, hk, (Covered.of_not_running hidle).mpr ?_⟩
      omega
  · intro w hwT
    obtain ⟨hall, _⟩ := hw.settled hzero hwT
    rw [(hw.follows w hwT).picked, hall]
    congr 1
    omega

theorem enter_inside (h : Inside T s) (hs : s.enter c region = some s') : Inside T s' := by
  unfold enter at hs
  split at hs
  · rename_i hcond
    obtain ⟨_, hfresh, hstop⟩ := hcond
    cases hs
    have hnone : s.callers.lookup c = none := AList.lookup_eq_none.mpr hfresh
    refine ⟨⟨?_, ?_, ?_, ?_⟩, h.workers.congr (fun _ => rfl) rfl rfl rfl rfl,
      h.recorded.congr rfl rfl (fun _ _ _ _ _ _ => Iff.rfl), ?_⟩
    · intro c'
      rw [show (s.setCaller c (.entered region)).runMutex = s.runMutex from rfl, h.callers.owner c']
      constructor
      · intro ⟨p, hp, hl⟩
        refine ⟨p, IdMap.lookup_insert_iff.mpr (.inr ⟨?_, hp⟩), hl⟩
        intro heq
        rw [heq, hnone] at hp
        exact absurd hp (by simp)
      · intro ⟨p, hp, hl⟩
        rcases IdMap.lookup_insert_iff.mp hp with ⟨_, rfl⟩ | ⟨_, hp⟩
        · exact absurd hl (by simp [locked])
        · exact ⟨p, hp, hl⟩
    · intro c' hc'
      rcases IdMap.lookup_insert_iff.mp hc' with ⟨_, hp⟩ | ⟨_, hc'⟩
      · exact absurd hp (by simp)
      · exact h.callers.published c' hc'
    · intro c' hc'
      rcases IdMap.lookup_insert_iff.mp hc' with ⟨_, hp⟩ | ⟨_, hc'⟩
      · exact absurd hp (by simp)
      · exact h.callers.opened c' hc'
    · intro hc
      exact absurd (hstop.symm.trans hc) (by simp)
    · intro hno
      refine h.resting fun c' hc' => hno c' (IdMap.lookup_insert_iff.mpr (.inr ⟨?_, hc'⟩))
      intro heq
      rw [heq, hnone] at hc'
      exact absurd hc' (by simp)
  · exact absurd hs (by simp)

/-- A caller that goes from one place to another without giving up or taking `run_mutex_`. -/
theorem Callers.owner_set {p q : CallerPhase} (h : Callers s) (hc : s.callers.lookup c = some p)
    (hp : locked p = true) (hq : locked q = true) (c' : Nat) :
    s.runMutex = some c' ↔ ∃ r, (s.callers.insert c q).lookup c' = some r ∧ locked r = true := by
  rw [h.owner c']
  constructor
  · intro ⟨r, hr, hl⟩
    by_cases heq : c' = c
    · exact ⟨q, IdMap.lookup_insert_iff.mpr (.inl ⟨heq, rfl⟩), hq⟩
    · exact ⟨r, IdMap.lookup_insert_iff.mpr (.inr ⟨heq, hr⟩), hl⟩
  · intro ⟨r, hr, hl⟩
    rcases IdMap.lookup_insert_iff.mp hr with ⟨rfl, _⟩ | ⟨_, hr⟩
    · exact ⟨p, hc, hp⟩
    · exact ⟨r, hr, hl⟩

theorem lockRun_inside (h : Inside T s) (hs : s.lockRun c = some s') : Inside T s' := by
  unfold lockRun at hs
  split at hs
  · rename_i region hc hfree
    cases hs
    refine ⟨⟨?_, ?_, ?_, ?_⟩, h.workers.congr (fun _ => rfl) rfl rfl rfl rfl,
      h.recorded.congr rfl rfl (fun _ _ _ _ _ _ => Iff.rfl), ?_⟩
    · intro c'
      show some c = some c' ↔ _
      constructor
      · intro heq
        cases heq
        exact ⟨_, AList.lookup_insert _, rfl⟩
      · intro ⟨p, hp, hl⟩
        rcases IdMap.lookup_insert_iff.mp hp with ⟨rfl, _⟩ | ⟨_, hp⟩
        · rfl
        · have hm := (h.callers.owner c').mpr ⟨p, hp, hl⟩
          rw [hfree] at hm
          exact absurd hm (by simp)
    · intro c' hc'
      rcases IdMap.lookup_insert_iff.mp hc' with ⟨_, hp⟩ | ⟨_, hc'⟩
      · exact absurd hp (by simp)
      · exact h.callers.published c' hc'
    · intro c' hc'
      rcases IdMap.lookup_insert_iff.mp hc' with ⟨_, hp⟩ | ⟨_, hc'⟩
      · exact absurd hp (by simp)
      · exact h.callers.opened c' hc'
    · intro hstop
      rw [h.callers.halted hstop c] at hc
      exact absurd hc (by simp)
    · intro _
      refine h.resting fun c' hc' => ?_
      have hm := (h.callers.owner c').mpr ⟨_, hc', rfl⟩
      rw [hfree] at hm
      exact absurd hm (by simp)
  · exact absurd hs (by simp)

/-- All workers have settled when a region is published, and all become busy. -/
theorem publish_workers (h : Workers T s) (hzero : s.workersRemaining = 0)
    (hworkers : s'.workers = s.workers) (hlog : s'.log = s.log)
    (hregions : s'.regions = s.regions ++ [region])
    (hgen : s'.regionGeneration = s.regionGeneration + 1) (hrem : s'.workersRemaining = T) :
    Workers T s' := by
  have hseen : ∀ w, s'.seen w = s.seen w := by
    intro w
    rw [seen, seen, hlog]
  have hlen : s'.regions.length = s.regions.length + 1 := by
    rw [hregions, List.length_append]
    rfl
  refine ⟨?_, ?_, ?_⟩
  · rw [hgen, hlen, h.generation, UInt64.ofNat_add]
    rfl
  · intro w hw
    obtain ⟨hall, hidle⟩ := h.settled hzero hw
    have hf := h.follows w hw
    refine ⟨?_, ?_, ?_, ?_, ?_⟩
    · rw [hlog, hseen]
      exact hf.picked
    · rw [hseen, hlen]
      omega
    · rw [hseen, hlen]
      omega
    · rw [hworkers, hseen]
      exact hf.generation
    · intro fn n k r hp
      rw [hworkers] at hp
      rw [hp] at hidle
      exact absurd hidle (by simp [isRunning])
  · have hall : (Finset.range T).filter (fun w => s'.busy w = true) = Finset.range T := by
      refine Finset.filter_true_of_mem fun w hw => ?_
      obtain ⟨hall, _⟩ := h.settled hzero (Finset.mem_range.mp hw)
      unfold busy
      rw [hseen, hlen, hall]
      simp
    rw [hall, hrem, Finset.card_range]

theorem publish_recorded (hw : Workers T s) (hT : 1 ≤ T) (h : Recorded T s)
    (hzero : s.workersRemaining = 0) (hworkers : s'.workers = s.workers) (hlog : s'.log = s.log)
    (hregions : s'.regions = s.regions ++ [region]) : Recorded T s' := by
  have hold : ∀ (r : Nat) (region' : Region),
      s.regions[r]? = some region' → s'.regions[r]? = some region' := by
    intro r region' hr
    obtain ⟨hlt, _⟩ := List.getElem?_eq_some_iff.mp hr
    rw [hregions, List.getElem?_append_left hlt]
    exact hr
  have hcov : ∀ w r k, s'.Covered w r k ↔ s.Covered w r k := by
    intro w r k
    exact Covered.congr (by rw [hlog]) (congrFun hworkers w)
  refine ⟨?_, ?_, ?_, ?_, ?_⟩
  · rw [hlog]
    exact h.strangers
  · intro r region' hr k
    rw [hlog, hcov]
    by_cases hlt : r < s.regions.length
    · rw [hregions, List.getElem?_append_left hlt] at hr
      exact h.chunks r region' hr k
    · -- nothing has been executed of a region that has just been published
      constructor
      · intro hk
        obtain ⟨w, fn, he⟩ := mem_chunksOf.mp hk
        obtain ⟨_, hr', _⟩ := h.own w r fn k he
        exact absurd (List.getElem?_eq_some_iff.mp hr').1 hlt
      · intro ⟨hk, _, hcov⟩
        obtain ⟨hall, hidle⟩ := hw.settled hzero (toNat_emod_lt hT k)
        rw [Covered.of_not_running hidle] at hcov
        omega
  · rw [hlog]
    exact h.once
  · intro w r fn k he
    rw [hlog] at he
    obtain ⟨region', hr, hrest⟩ := h.own w r fn k he
    exact ⟨region', hold r region' hr, hrest⟩
  · intro before r after hsplit
    rw [hlog] at hsplit
    obtain ⟨region', hr, hrest⟩ := h.returned before r after hsplit
    exact ⟨region', hold r region' hr, hrest⟩

theorem publish_inside (hT : 1 ≤ T) (h : Inside T s) (hs : s.publish T c = some s') :
    Inside T s' := by
  unfold publish at hs
  split at hs
  · rename_i region hc
    cases hs
    have hzero : s.workersRemaining = 0 :=
      h.resting (h.callers.none_awaiting hc rfl (by simp))
    refine ⟨⟨h.callers.owner_set hc rfl rfl, ?_, ?_, ?_⟩,
      publish_workers h.workers hzero rfl rfl rfl rfl rfl,
      publish_recorded h.workers hT h.recorded hzero rfl rfl rfl, ?_⟩
    · intro c' _
      exact ⟨region, List.getLast?_concat, rfl, rfl⟩
    · intro c' _ hempty
      exact absurd hempty (by simp)
    · intro hstop
      rw [h.callers.halted hstop c] at hc
      exact absurd hc (by simp)
    · intro hno
      exact absurd (AList.lookup_insert _) (hno c)
  · exact absurd hs (by simp)

theorem awaitDone_inside (h : Inside T s) (hs : s.awaitDone c = some s') : Inside T s' := by
  unfold awaitDone at hs
  split at hs
  · rename_i hc
    split at hs
    · rename_i hzero
      cases hs
      refine ⟨⟨h.callers.owner_set hc rfl rfl, ?_, ?_, ?_⟩,
        h.workers.congr (fun _ => rfl) rfl rfl rfl rfl,
        h.recorded.congr rfl rfl (fun _ _ _ _ _ _ => Iff.rfl),
        fun _ => hzero⟩
      · intro c' hc'
        rcases IdMap.lookup_insert_iff.mp hc' with ⟨_, hp⟩ | ⟨hne, hc'⟩
        · exact absurd hp (by simp)
        · exact absurd (h.callers.eq_of_locked hc' rfl hc rfl) hne
      · intro c' _ hempty
        obtain ⟨region, hlast, _⟩ := h.callers.published c hc
        have hempty : s.regions = [] := hempty
        rw [hempty] at hlast
        exact absurd hlast (by simp)
      · intro hstop
        rw [h.callers.halted hstop c] at hc
        exact absurd hc (by simp)
    · cases hs
      exact h
  · exact absurd hs (by simp)

theorem unlockRun_inside (hT : 1 ≤ T) (h : Inside T s) (hs : s.unlockRun c = some s') :
    Inside T s' := by
  unfold unlockRun at hs
  split at hs
  · rename_i hc
    cases hs
    have hzero : s.workersRemaining = 0 := h.resting (h.callers.none_awaiting hc rfl (by simp))
    refine ⟨⟨?_, ?_, ?_, ?_⟩, ?_, ?_, fun _ => hzero⟩
    · intro c'
      constructor
      · intro hm
        exact absurd hm (by simp)
      · intro ⟨p, hp, hl⟩
        obtain ⟨hne, hp⟩ := IdMap.lookup_erase_iff.mp hp
        exact absurd (h.callers.eq_of_locked hp hl hc rfl) hne
    · intro c' hc'
      exact h.callers.published c' (IdMap.lookup_erase_iff.mp hc').2
    · intro c' hc'
      exact h.callers.opened c' (IdMap.lookup_erase_iff.mp hc').2
    · intro hstop
      rw [h.callers.halted hstop c] at hc
      exact absurd hc (by simp)
    · refine h.workers.congr (fun w => ?_) rfl rfl rfl rfl
      rw [picksOf_append, picksOf_returned, List.append_nil]
    · refine h.recorded.snoc rfl rfl (fun r region k _ _ _ => ?_) (fun _ => rfl)
        (fun _ _ => rfl) ?_
      · refine Covered.congr ?_ rfl
        rw [picksOf_append, picksOf_returned, List.append_nil]
      · intro r hr
        cases hr
        exact returned_of_settled hT h.workers h.recorded hzero (h.callers.opened c hc)
  · exact absurd hs (by simp)

theorem stop_inside (h : Inside T s) (hs : s.stop = some s') : Inside T s' := by
  unfold stop at hs
  split at hs
  · rename_i hnone
    cases hs
    refine ⟨⟨h.callers.owner, h.callers.published, h.callers.opened, ?_⟩,
      h.workers.congr (fun _ => rfl) rfl rfl rfl rfl,
      h.recorded.congr rfl rfl (fun _ _ _ _ _ _ => Iff.rfl), h.resting⟩
    intro _ c
    refine AList.lookup_eq_none.mpr fun hmem => ?_
    have hkey : c ∈ s.callers.keys := hmem
    rw [hnone] at hkey
    exact absurd hkey (by simp)
  · exact absurd hs (by simp)

/-! ### The steps of a worker

A worker moves on its own: it picks up the region, executes its chunks one after the other and
counts itself out.  Its place tells which chunks it has executed, and no other worker owns them. -/

/-- One worker takes a step that leaves it as busy as it was. -/
theorem Workers.set (h : Workers T s) (hf : Follows T s' w)
    (hlog : ∀ w', w' ≠ w → picksOf w' s'.log = picksOf w' s.log)
    (hworkers : ∀ w', w' ≠ w → s'.workers w' = s.workers w') (hregions : s'.regions = s.regions)
    (hgen : s'.regionGeneration = s.regionGeneration) (hbusy : s'.busy w = s.busy w)
    (hrem : s'.workersRemaining = s.workersRemaining) : Workers T s' := by
  refine ⟨?_, ?_, ?_⟩
  · rw [hgen, hregions]
    exact h.generation
  · intro w' hw'
    by_cases heq : w' = w
    · subst heq
      exact hf
    · exact (h.follows w' hw').congr (hlog w' heq) (hworkers w' heq) hregions
  · rw [hrem, h.remaining]
    refine congrArg (fun f : Finset Nat => (f.card : Int)) (Finset.filter_congr fun w' _ => ?_)
    by_cases heq : w' = w
    · rw [heq, hbusy]
    · rw [busy_congr (hlog w' heq) (hworkers w' heq) hregions]

/-- One worker finishes its part of the last region. -/
theorem Workers.release (h : Workers T s) (hw : w < T) (hf : Follows T s' w)
    (hlog : s'.log = s.log) (hworkers : ∀ w', w' ≠ w → s'.workers w' = s.workers w')
    (hregions : s'.regions = s.regions) (hgen : s'.regionGeneration = s.regionGeneration)
    (hbusy : s.busy w = true) (hdone : s'.busy w = false)
    (hrem : s'.workersRemaining = s.workersRemaining - 1) : Workers T s' := by
  refine ⟨?_, ?_, ?_⟩
  · rw [hgen, hregions]
    exact h.generation
  · intro w' hw'
    by_cases heq : w' = w
    · subst heq
      exact hf
    · exact (h.follows w' hw').congr (by rw [hlog]) (hworkers w' heq) hregions
  · have hfilter : (Finset.range T).filter (fun w' => s'.busy w' = true)
        = ((Finset.range T).filter fun w' => s.busy w' = true).erase w := by
      ext w'
      rw [Finset.mem_erase, Finset.mem_filter, Finset.mem_filter]
      by_cases heq : w' = w
      · subst heq
        simp [hdone]
      · rw [busy_congr (by rw [hlog]) (hworkers w' heq) hregions]
        simp [heq]
    have hmem : w ∈ (Finset.range T).filter fun w' => s.busy w' = true :=
      Finset.mem_filter.mpr ⟨Finset.mem_range.mpr hw, hbusy⟩
    have hpos : 0 < ((Finset.range T).filter fun w' => s.busy w' = true).card :=
      Finset.card_pos.mpr ⟨w, hmem⟩
    rw [hrem, h.remaining, hfilter, Finset.card_erase_of_mem hmem]
    omega

/-- Steps of a worker leave the callers as they were. -/
theorem Inside.of_worker (h : Inside T s) (hw : Workers T s') (hr : Recorded T s')
    (hcallers : s'.callers = s.callers) (hmutex : s'.runMutex = s.runMutex)
    (hregions : s'.regions = s.regions) (hfn : s'.regionChunkFn = s.regionChunkFn)
    (hnum : s'.regionNumChunks = s.regionNumChunks) (hstop : s'.stopping = s.stopping)
    (hrest : s.workersRemaining = 0 → s'.workersRemaining = 0) : Inside T s' := by
  refine ⟨⟨?_, ?_, ?_, ?_⟩, hw, hr, ?_⟩
  · rw [hmutex, hcallers]
    exact h.callers.owner
  · rw [hcallers, hregions, hfn, hnum]
    exact h.callers.published
  · rw [hcallers, hregions]
    exact h.callers.opened
  · rw [hstop, hcallers]
    exact h.callers.halted
  · rw [hcallers]
    exact fun hno => hrest (h.resting hno)

theorem setWorker_self (s : PoolState) (w : Nat) (x : Worker) : (s.setWorker w x).workers w = x :=
  Function.update_self ..

theorem setWorker_ne {w' : Nat} (s : PoolState) (x : Worker) (h : w' ≠ w) :
    (s.setWorker w x).workers w' = s.workers w' := Function.update_of_ne h ..

/-- A waiting worker that sees another generation is one region behind. -/
theorem Workers.behind (h : Workers T s) (hw : w < T)
    (hgen : s.regionGeneration ≠ (s.workers w).seenGeneration) :
    s.regions.length = s.seen w + 1 := by
  have hf := h.follows w hw
  have hne : s.seen w ≠ s.regions.length := by
    intro heq
    rw [h.generation, hf.generation, heq] at hgen
    exact hgen rfl
  have hle := hf.seen_le
  have hlt := hf.le_seen
  omega

theorem exit_inside (h : Inside T s) (hw : w < T) (hwait : (s.workers w).phase = .waiting) :
    Inside T (s.setWorker w { s.workers w with phase := .exited }) := by
  have hf := h.workers.follows w hw
  have hrun : isRunning (s.workers w).phase = false := by rw [hwait]; rfl
  refine h.of_worker ?_ ?_ rfl rfl rfl rfl rfl rfl fun hzero => hzero
  · refine h.workers.set (w := w) ⟨hf.picked, hf.seen_le, hf.le_seen, ?_, ?_⟩ (fun _ _ => rfl)
      (fun w' hne => setWorker_ne s _ hne) rfl rfl ?_ rfl
    · rw [setWorker_self]
      exact hf.generation
    · intro fn n k r hp
      rw [setWorker_self] at hp
      exact absurd hp (by simp)
    · show (decide _ || isRunning _) = (decide _ || isRunning _)
      rw [setWorker_self, hrun]
      rfl
  · refine h.recorded.congr rfl rfl fun r region k _ _ _ => ?_
    by_cases heq : (k % T).toNat = w
    · rw [heq, Covered.of_not_running hrun, Covered.of_not_running (by rw [setWorker_self]; rfl)]
      rfl
    · exact Covered.congr rfl (setWorker_ne s _ heq)

theorem pick_inside (hT : 1 ≤ T) (h : Inside T s) (hw : w < T)
    (hwait : (s.workers w).phase = .waiting)
    (hgen : s.regionGeneration ≠ (s.workers w).seenGeneration) :
    Inside T { s.setWorker w
        ⟨.running s.regionChunkFn s.regionNumChunks w (s.regions.length - 1),
          s.regionGeneration⟩ with
      log := s.log ++ [.picked w (s.regions.length - 1)] } := by
  have hf := h.workers.follows w hw
  have hrun : isRunning (s.workers w).phase = false := by rw [hwait]; rfl
  have hbehind := h.workers.behind hw hgen
  have hbusy : s.busy w = true := by
    unfold busy
    rw [hbehind]
    simp
  obtain ⟨region, hlast, hfn, hnum⟩ := h.open_of_busy hw hbusy
  have hlast : s.regions[s.regions.length - 1]? = some region := by
    rw [← List.getLast?_eq_getElem?]
    exact hlast
  generalize hs' : ({ s.setWorker w
      ⟨.running s.regionChunkFn s.regionNumChunks w (s.regions.length - 1),
        s.regionGeneration⟩ with
    log := s.log ++ [.picked w (s.regions.length - 1)] } : PoolState) = s'
  have hself : s'.workers w
      = ⟨.running s.regionChunkFn s.regionNumChunks w (s.regions.length - 1),
          s.regionGeneration⟩ := by
    rw [← hs']
    exact setWorker_self s w _
  have hother : ∀ w', w' ≠ w → s'.workers w' = s.workers w' := by
    intro w' hne
    rw [← hs']
    exact setWorker_ne s _ hne
  have hlog : s'.log = s.log ++ [.picked w (s.regions.length - 1)] := by rw [← hs']
  have hregions : s'.regions = s.regions := by rw [← hs']; rfl
  have hpicks : picksOf w s'.log = picksOf w s.log ++ [s.regions.length - 1] := by
    rw [hlog, picksOf_append, picksOf_picked, if_pos rfl]
  have hpicksOther : ∀ w', w' ≠ w → picksOf w' s'.log = picksOf w' s.log := by
    intro w' hne
    rw [hlog, picksOf_append, picksOf_picked, if_neg (Ne.symm hne), List.append_nil]
  have hseen : s'.seen w = s.seen w + 1 := by
    rw [seen, hpicks, List.length_append]
    rfl
  refine h.of_worker ?_ ?_ (by rw [← hs']; rfl) (by rw [← hs']; rfl) hregions
    (by rw [← hs']; rfl) (by rw [← hs']; rfl) (by rw [← hs']; rfl) ?_
  · refine h.workers.set (w := w) ⟨?_, ?_, ?_, ?_, ?_⟩ hpicksOther hother hregions
      (by rw [← hs']; rfl) ?_ (by rw [← hs']; rfl)
    · rw [hpicks, hf.picked, hseen, List.range_succ, hbehind]
      rfl
    · rw [hseen, hregions]
      omega
    · rw [hseen, hregions]
      omega
    · rw [hself, hseen, ← hbehind]
      exact h.workers.generation
    · intro fn n k r hp
      rw [hself] at hp
      cases hp
      rw [hregions, hseen]
      refine ⟨by omega, by omega, le_refl _, ?_, region, hlast, hfn, hnum⟩
      exact Int.emod_eq_of_lt (by omega) (by omega)
    · rw [hbusy]
      unfold busy
      rw [hself]
      simp [isRunning]
  · refine h.recorded.snoc hlog hregions ?_ (fun _ => rfl) ?_ ?_
    · intro r region k _ h0 _
      by_cases heq : (k % T).toNat = w
      · -- the worker starts at its own number, so it has passed no chunk of its own yet
        rw [heq, Covered.of_not_running hrun]
        unfold Covered
        rw [hself]
        have hmod : k % T = w := by
          have := Int.emod_nonneg k (show (T : Int) ≠ 0 by omega)
          omega
        have hle : (w : Int) ≤ k := by
          rw [← hmod]
          exact emod_le_self h0
        show r < s.regions.length - 1 ∨ (r = s.regions.length - 1 ∧ k < w) ↔ r < s.seen w
        omega
      · exact Covered.congr (hpicksOther _ heq) (hother _ heq)
    · intro w' hw'
      rw [picksOf_picked, if_neg (by omega)]
    · intro r hr
      exact absurd hr (by simp)
  · intro hzero
    rw [← hs']
    exact hzero

theorem wake_inside (hT : 1 ≤ T) (h : Inside T s) (hw : w < T) (hs : s.wake w = some s') :
    Inside T s' := by
  unfold wake at hs
  split at hs
  · rename_i hwait
    split at hs
    · cases hs
      exact exit_inside h hw hwait
    · split at hs
      · rename_i hgen
        cases hs
        exact pick_inside hT h hw hwait hgen
      · cases hs
        exact h
  · exact absurd hs (by simp)

section Chunk

variable {fn : Option Nat} {n next : Int} {r : Nat}

theorem chunk_workers (h : Workers T s) (hw : w < T)
    (hp : (s.workers w).phase = .running fn n next r)
    (hself : s'.workers w = { s.workers w with phase := .running fn n (next + T) r })
    (hother : ∀ w', w' ≠ w → s'.workers w' = s.workers w')
    (hpicks : ∀ w', picksOf w' s'.log = picksOf w' s.log) (hregions : s'.regions = s.regions)
    (hgen : s'.regionGeneration = s.regionGeneration)
    (hrem : s'.workersRemaining = s.workersRemaining) : Workers T s' := by
  have hf := h.follows w hw
  obtain ⟨hlen, hseen, hge, hmod, hregion⟩ := hf.running fn n next r hp
  have hseen' : s'.seen w = s.seen w := by rw [seen, hpicks]; rfl
  refine h.set (w := w) ⟨?_, ?_, ?_, ?_, ?_⟩ (fun w' _ => hpicks w') hother hregions hgen ?_ hrem
  · rw [hpicks, hseen']
    exact hf.picked
  · rw [hseen', hregions]
    exact hf.seen_le
  · rw [hseen', hregions]
    exact hf.le_seen
  · rw [hself, hseen']
    exact hf.generation
  · intro fn' n' k r' hp'
    rw [hself] at hp'
    cases hp'
    rw [hregions, hseen']
    refine ⟨hlen, hseen, by omega, ?_, hregion⟩
    rw [Int.add_emod_right]
    exact hmod
  · unfold busy
    rw [hself, hseen', hregions, hp]
    rfl

/-- The chunk a worker is about to execute has not been executed. -/
theorem chunk_fresh (h : Recorded T s) (hf : Follows T s w)
    (hp : (s.workers w).phase = .running fn n next r) : next ∉ chunksOf r s.log := by
  obtain ⟨_, _, hge, hmod, region, hr, _⟩ := hf.running fn n next r hp
  intro hmem
  have hcov := ((h.chunks r region hr next).mp hmem).2.2
  rw [show (next % T).toNat = w by omega] at hcov
  unfold Covered at hcov
  rw [hp] at hcov
  rcases hcov with hc | hc
  · omega
  · omega

/-- What a chunk adds to the chunks that lie behind its worker. -/
theorem chunk_covered (hT : 1 ≤ T) (hf : Follows T s w)
    (hp : (s.workers w).phase = .running fn n next r)
    (hself : s'.workers w = { s.workers w with phase := .running fn n (next + T) r })
    (hother : ∀ w', w' ≠ w → s'.workers w' = s.workers w')
    (hpicks : ∀ w', picksOf w' s'.log = picksOf w' s.log) {r' : Nat} {k : Int} :
    s'.Covered (k % T).toNat r' k ↔ s.Covered (k % T).toNat r' k ∨ (r' = r ∧ k = next) := by
  obtain ⟨_, _, _, hmod, _⟩ := hf.running fn n next r hp
  by_cases heq : (k % T).toNat = w
  · have hkmod : k % T = next % T := by
      have := Int.emod_nonneg k (show (T : Int) ≠ 0 by omega)
      omega
    have hstride := lt_stride_iff hT hkmod
    rw [heq]
    unfold Covered
    rw [hp, hself]
    show (r' < r ∨ (r' = r ∧ k < next + T)) ↔ (r' < r ∨ (r' = r ∧ k < next)) ∨ (r' = r ∧ k = next)
    omega
  · rw [Covered.congr (hpicks _) (hother _ heq)]
    have hne : k ≠ next := by
      intro hk
      rw [hk] at heq
      exact heq (by omega)
    simp [hne]

theorem chunk_recorded (hT : 1 ≤ T) (h : Recorded T s) (hf : Follows T s w)
    (hp : (s.workers w).phase = .running fn n next r) (hlt : next < n)
    (hself : s'.workers w = { s.workers w with phase := .running fn n (next + T) r })
    (hother : ∀ w', w' ≠ w → s'.workers w' = s.workers w')
    (hlog : s'.log = s.log ++ [.executed w r fn next]) (hregions : s'.regions = s.regions)
    (hpicks : ∀ w', picksOf w' s'.log = picksOf w' s.log) : Recorded T s' := by
  obtain ⟨_, _, hge, _, region, hr, hfn, hn⟩ := hf.running fn n next r hp
  have hfresh := chunk_fresh h hf hp
  refine ⟨?_, ?_, ?_, ?_, ?_⟩
  · intro w' hw'
    rw [hpicks]
    exact h.strangers w' hw'
  · intro r' region' hr' k
    rw [hregions] at hr'
    rw [hlog, chunksOf_append, chunksOf_executed, List.mem_append, h.chunks r' region' hr' k]
    by_cases hin : 0 ≤ k ∧ k < region'.numChunks
    · rw [chunk_covered hT hf hp hself hother hpicks]
      by_cases hrr : r = r'
      · simp [hrr, hin]
      · simp [hrr, Ne.symm hrr, hin]
    · have hnot : k ∉ (if r = r' then [next] else []) := by
        intro hk
        by_cases hrr : r = r'
        · subst hrr
          rw [hr] at hr'
          cases hr'
          rw [if_pos rfl, List.mem_singleton] at hk
          exact hin (by omega)
        · rw [if_neg hrr] at hk
          exact absurd hk (by simp)
      simp only [hnot, or_false]
      tauto
  · intro r'
    rw [hlog, chunksOf_append, chunksOf_executed]
    by_cases hrr : r = r'
    · rw [if_pos hrr, ← hrr]
      refine List.nodup_append.mpr ⟨h.once r, List.nodup_singleton _, ?_⟩
      intro k hk k' hk' heq
      rw [List.mem_singleton.mp hk'] at heq
      rw [heq] at hk
      exact hfresh hk
    · rw [if_neg hrr, List.append_nil]
      exact h.once r'
  · intro w' r' fn' k he
    rw [hlog, List.mem_append] at he
    rw [hregions]
    rcases he with he | he
    · exact h.own w' r' fn' k he
    · cases List.mem_singleton.mp he
      exact ⟨region, hr, hfn, by omega, by omega⟩
  · refine h.returned_snoc hlog hregions ?_ fun r' he => absurd he (by simp)
    -- a region that has been returned from has no chunk left to execute
    intro r' hmem
    rw [chunksOf_executed]
    by_cases hrr : r = r'
    · subst hrr
      obtain ⟨before, after, hsplit⟩ := List.append_of_mem hmem
      obtain ⟨region', hr', hall, _⟩ := h.returned before r after hsplit
      rw [hr] at hr'
      cases hr'
      have hin : next ∈ chunksOf r before := (hall next).mpr ⟨by omega, by omega⟩
      refine absurd ?_ hfresh
      rw [hsplit, chunksOf_append]
      exact List.mem_append_left _ hin
    · rw [if_neg hrr]

end Chunk

theorem chunk_inside (hT : 1 ≤ T) (h : Inside T s) (hw : w < T) (hs : s.chunk T w = some s') :
    Inside T s' := by
  unfold chunk at hs
  split at hs
  · rename_i fn n next r hp
    split at hs
    · rename_i hlt
      generalize hs'' : ({ s.setWorker w { s.workers w with
            phase := .running fn n (next + T) r } with
          log := s.log ++ [.executed w r fn next] } : PoolState) = s'' at hs
      cases hs
      have hself : s'.workers w = { s.workers w with phase := .running fn n (next + T) r } := by
        rw [← hs'']
        exact setWorker_self s w _
      have hother : ∀ w', w' ≠ w → s'.workers w' = s.workers w' := by
        intro w' hne
        rw [← hs'']
        exact setWorker_ne s _ hne
      have hlog : s'.log = s.log ++ [.executed w r fn next] := by rw [← hs'']
      have hregions : s'.regions = s.regions := by rw [← hs'']; rfl
      have hpicks : ∀ w', picksOf w' s'.log = picksOf w' s.log := by
        intro w'
        rw [hlog, picksOf_append, picksOf_executed, List.append_nil]
      have hrem : s'.workersRemaining = s.workersRemaining := by rw [← hs'']; rfl
      refine h.of_worker ?_ ?_ (by rw [← hs'']; rfl) (by rw [← hs'']; rfl)
        hregions (by rw [← hs'']; rfl) (by rw [← hs'']; rfl) (by rw [← hs'']; rfl)
        fun hzero => hrem.trans hzero
      · exact chunk_workers h.workers hw hp hself hother hpicks hregions (by rw [← hs'']; rfl) hrem
      · exact chunk_recorded hT h.recorded (h.workers.follows w hw) hp hlt hself hother hlog
          hregions hpicks
    · exact absurd hs (by simp)
  · exact absurd hs (by simp)

theorem finish_inside (h : Inside T s) (hw : w < T) (hs : s.finish w = some s') :
    Inside T s' := by
  unfold finish at hs
  split at hs
  · rename_i fn n next r hp
    split at hs
    · exact absurd hs (by simp)
    · rename_i hge
      have hf := h.workers.follows w hw
      obtain ⟨hlen, hseen, _, _, region, hr, _, hn⟩ := hf.running fn n next r hp
      have hbusy : s.busy w = true := by
        unfold busy
        rw [hp]
        simp [isRunning]
      cases hs
      refine h.of_worker ?_ ?_ rfl rfl rfl rfl rfl rfl ?_
      · refine h.workers.release hw ⟨hf.picked, hf.seen_le, hf.le_seen, ?_, ?_⟩ rfl
          (fun w' hne => setWorker_ne s _ hne) rfl rfl hbusy ?_ rfl
        · show ((s.setWorker w _).workers w).seenGeneration = _
          rw [setWorker_self]
          exact hf.generation
        · intro fn' n' k r' hp'
          have hp' : ((s.setWorker w { s.workers w with phase := .waiting }).workers w).phase
              = .running fn' n' k r' := hp'
          rw [setWorker_self] at hp'
          exact absurd hp' (by simp)
        · show (decide (s.seen w < s.regions.length)
            || isRunning ((s.setWorker w { s.workers w with phase := .waiting }).workers w).phase)
              = false
          rw [setWorker_self, hseen, hlen]
          simp [isRunning]
      · refine h.recorded.congr rfl rfl fun r' region' k hr' h0 hk => ?_
        by_cases heq : (k % T).toNat = w
        · rw [heq, Covered.of_not_running
            (by show isRunning ((s.setWorker w _).workers w).phase = false
                rw [setWorker_self]; rfl)]
          show r' < s.seen w ↔ _
          unfold Covered
          rw [hp]
          show r' < s.seen w ↔ r' < r ∨ (r' = r ∧ k < next)
          by_cases hrr : r' = r
          · subst hrr
            rw [hr] at hr'
            cases hr'
            omega
          · omega
        · exact Covered.congr rfl (setWorker_ne s _ heq)
      · intro hzero
        have hnot := h.workers.not_busy hzero hw
        rw [hbusy] at hnot
        exact absurd hnot (by simp)
  · exact absurd hs (by simp)

/-! ### Every run

The invariant holds of a new pool and every step of anybody keeps it, so it holds in every
reachable state.  The barrier is read off it there. -/

theorem inside_new (T : Nat) : Inside T .new := by
  refine ⟨⟨?_, ?_, ?_, ?_⟩, ⟨rfl, ?_, ?_⟩, ⟨fun _ _ => rfl, ?_, fun _ => List.nodup_nil, ?_, ?_⟩,
    fun _ => rfl⟩
  · intro c
    constructor
    · intro hm
      exact absurd hm (by simp [new])
    · intro ⟨p, hp, _⟩
      exact absurd hp (by simp [new])
  · intro c hc
    exact absurd hc (by simp [new])
  · intro c hc
    exact absurd hc (by simp [new])
  · intro hs
    exact absurd hs (by simp [new])
  · intro w _
    refine ⟨rfl, Nat.zero_le _, Nat.zero_le _, rfl, ?_⟩
    intro fn n k r hp
    exact absurd hp (by simp [new])
  · have hnone : (Finset.range T).filter (fun w => (new).busy w = true) = ∅ :=
      Finset.filter_eq_empty_iff.mpr fun w _ => by simp [busy, seen, new, isRunning]
    rw [hnone]
    rfl
  · intro r region hr
    exact absurd hr (by simp [new])
  · intro w r fn k he
    exact absurd he (by simp [new])
  · intro before r after hsplit
    exact absurd hsplit.symm (by simp [new])

theorem step_inside (hT : 1 ≤ T) (h : Inside T s) :
    ∀ l, s.step T l = some s' → Inside T s' := by
  intro l hs
  cases l with
  | enter c region => exact enter_inside h hs
  | lockRun c => exact lockRun_inside h hs
  | publish c => exact publish_inside hT h hs
  | awaitDone c => exact awaitDone_inside h hs
  | unlockRun c => exact unlockRun_inside hT h hs
  | wake w =>
      by_cases hw : w < T
      · exact wake_inside hT h hw (by simpa [step, hw] using hs)
      · simp [step, hw] at hs
  | chunk w =>
      by_cases hw : w < T
      · exact chunk_inside hT h hw (by simpa [step, hw] using hs)
      · simp [step, hw] at hs
  | finish w =>
      by_cases hw : w < T
      · exact finish_inside h hw (by simpa [step, hw] using hs)
      · simp [step, hw] at hs
  | stop => exact stop_inside h hs

theorem Inside.barrier (h : Inside T s) : Barrier T s := by
  refine ⟨h.recorded.once, h.recorded.own, h.recorded.returned, ?_, ?_⟩
  · intro w
    by_cases hw : w < T
    · exact ⟨_, (h.workers.follows w hw).picked⟩
    · exact ⟨0, h.recorded.strangers w (by omega)⟩
  · rw [h.workers.remaining]
    exact Int.natCast_nonneg _

/-- **In every interleaving, each region's chunks are executed exactly once, with its own
function, before its `Run` returns.** -/
theorem barrier_reachable (numThreads : Nat) (hT : 1 ≤ numThreads) (s : PoolState)
    (h : (barrierSystem numThreads).Reachable s) : Barrier numThreads s := by
  have hinside : Inside numThreads s := by
    refine h.invariant ?_ ?_
    · intro s₀ h0
      have h0 : s₀ = .new := h0
      rw [h0]
      exact inside_new numThreads
    · intro s₀ l s₁ _ hi hs
      exact step_inside hT hi l hs
  exact hinside.barrier

/-- Two workers and two callers whose regions overlap with the end of the one before. -/
def relay : List PoolStep :=
  [.enter 3 ⟨7, 3⟩, .enter 4 ⟨8, 2⟩, .lockRun 3, .publish 3, .wake 0, .awaitDone 3, .chunk 0,
    .wake 1, .chunk 1, .finish 1, .chunk 0, .awaitDone 3, .finish 0, .wake 1, .awaitDone 3,
    .unlockRun 3, .lockRun 4, .publish 4, .wake 1, .chunk 1, .finish 1, .wake 0, .chunk 0,
    .finish 0, .awaitDone 4, .unlockRun 4]

/-- The second region starts while a worker still waits on the first generation. -/
theorem barrier_reachable_relay : ∃ s, (barrierSystem 2).Reachable s ∧
    s.log = [.picked 0 0, .executed 0 0 (some 7) 0, .picked 1 0, .executed 1 0 (some 7) 1,
      .executed 0 0 (some 7) 2, .returned 0, .picked 1 1, .executed 1 1 (some 8) 1, .picked 0 1,
      .executed 0 1 (some 8) 0, .returned 1] ∧
    Barrier 2 s := by
  obtain ⟨s, hs, hlog⟩ : ∃ s, (barrierSystem 2).Reachable s ∧
      s.log = [.picked 0 0, .executed 0 0 (some 7) 0, .picked 1 0, .executed 1 0 (some 7) 1,
        .executed 0 0 (some 7) 2, .returned 0, .picked 1 1, .executed 1 1 (some 8) 1,
        .picked 0 1, .executed 0 1 (some 8) 0, .returned 1] :=
    ⟨_, Transition.Reachable.of_foldlM (fun _ _ _ h => h) (.init rfl)
      (show relay.foldlM (step 2) new = some _ from rfl), rfl⟩
  exact ⟨s, hs, hlog, barrier_reachable 2 (by decide) s hs⟩

end PoolState

end InferenceEngine
