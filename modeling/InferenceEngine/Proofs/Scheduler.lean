/-
What the scheduler plans.

The preemption loop keeps one account: the sequences still decoding and the victims are the
running ones, the demand is what the former need, and the free blocks are those of the pool
and those of the victims.  It stops when the demand fits or when nothing is left to evict.
Admission takes a prefix of the waiting sequences and never more blocks than remain.

The counts are taken as they come to in the arithmetic of the planner.  Each part of it does what
the counts without bound say as long as its sums fit, and overflows at the first that does not;
which sums those are can be said from the plan.  The specification leaves no choice, so a plan
that meets it is the plan.
-/
import InferenceEngine.Lib.Returns
import InferenceEngine.Scheduler.Scheduler
import Mathlib.Algebra.BigOperators.Group.List.Basic
import Mathlib.Algebra.Order.BigOperators.Group.List
import Mathlib.Algebra.Order.BigOperators.Group.Finset
import Mathlib.Algebra.Order.Ring.Int
import Mathlib.Data.List.InsertIdx

namespace InferenceEngine

namespace Scheduler

open Except

variable {bs : Int} {running waiting : List SeqDesc} {free : Int} {sum : Int → Checked Int}
  {fits : Int → Prop}

/-- The blocks that `addTokens` more tokens need, counted without bound. -/
def blocks (curTokens addTokens bs : Int) : Int :=
  (curTokens + addTokens + bs - 1).tdiv bs - (curTokens + bs - 1).tdiv bs

/-- The blocks one more token of a running sequence needs. -/
def need (bs : Int) (s : SeqDesc) : Int := blocks s.numComputedTokens 1 bs

/-- The blocks the prefill of a waiting sequence needs. -/
def prefillNeed (bs : Int) (s : SeqDesc) : Int := blocks 0 s.numPromptTokens bs

theorem blocks_nonneg (hbs : 0 < bs) {cur add : Int} (hcur : 0 ≤ cur) (hadd : 0 ≤ add) :
    0 ≤ blocks cur add bs := by
  unfold blocks
  rw [Int.tdiv_eq_ediv_of_nonneg (by omega), Int.tdiv_eq_ediv_of_nonneg (by omega)]
  have := Int.ediv_le_ediv hbs (show cur + bs - 1 ≤ cur + add + bs - 1 by omega)
  omega

theorem blocks_le (hbs : 0 < bs) {cur add : Int} (hcur : 0 ≤ cur) (hadd : 0 ≤ add) :
    blocks cur add bs ≤ cur + add + bs := by
  unfold blocks
  have hbefore : 0 ≤ (cur + bs - 1).tdiv bs := Int.tdiv_nonneg (by omega) hbs.le
  have hafter : (cur + add + bs - 1).tdiv bs ≤ cur + add + bs - 1 := Int.tdiv_le_self _ (by omega)
  omega

theorem need_nonneg (hbs : 0 < bs) {s : SeqDesc} (h : 0 ≤ s.numComputedTokens) :
    0 ≤ need bs s := blocks_nonneg hbs h Int.one_nonneg

/-- One token crosses at most one boundary. -/
theorem need_le_one (hbs : 0 < bs) {s : SeqDesc} (h : 0 ≤ s.numComputedTokens) :
    need bs s ≤ 1 := by
  unfold need blocks
  rw [Int.tdiv_eq_ediv_of_nonneg (by omega), Int.tdiv_eq_ediv_of_nonneg (by omega)]
  have hstep : s.numComputedTokens + 1 + bs - 1 ≤ s.numComputedTokens + bs - 1 + 1 * bs := by omega
  have hdiv := Int.ediv_le_ediv hbs hstep
  rw [Int.add_mul_ediv_right _ _ hbs.ne'] at hdiv
  omega

theorem prefillNeed_nonneg (hbs : 0 < bs) {s : SeqDesc} (h : 0 ≤ s.numPromptTokens) :
    0 ≤ prefillNeed bs s := blocks_nonneg hbs le_rfl h

/-! ### Sums that fit

An arithmetic is exact on the numbers that fit and ends the process on the others.
-/

/-- Whatever is no larger than a number that fits, fits. -/
structure Counts (sum : Int → Checked Int) (fits : Int → Prop) : Prop where
  exact : ∀ x, fits x → sum x = .ok x
  overflow : ∀ x, ¬fits x → sum x = .error .signedOverflow
  below : ∀ {x y}, 0 ≤ x → x ≤ y → fits y → fits x

/-- A number of the code's type. -/
def FitsInt64 (x : Int) : Prop := -(2 ^ 63) ≤ x ∧ x < 2 ^ 63

theorem counts_int64 : Counts int64 FitsInt64 where
  exact := fun _ h => if_pos h
  overflow := fun _ h => if_neg h
  below := by
    intro x y hx hxy hy
    exact ⟨by omega, lt_of_le_of_lt hxy hy.2⟩

theorem counts_exact : Counts Except.ok fun _ => True where
  exact := fun _ _ => rfl
  overflow := fun _ h => absurd trivial h
  below := fun _ _ _ => trivial

/-- A computation comes to `r` if a condition holds, and overflows if not. -/
structure Comes {γ : Type} (c : Prop) (x : Checked γ) (r : γ) : Prop where
  ok : c → x = .ok r
  overflow : ¬c → x = .error .signedOverflow

section

variable {γ δ : Type} {c c' : Prop} {x : Checked γ} {r : γ} {f : γ → Checked δ} {r' : δ}

theorem comes_pure (r : γ) : Comes True (pure r : Checked γ) r :=
  ⟨fun _ => rfl, fun h => absurd trivial h⟩

theorem Comes.congr (h : Comes c x r) (hc : c ↔ c') : Comes c' x r :=
  ⟨fun h' => h.ok (hc.mpr h'), fun h' => h.overflow fun hx => h' (hc.mp hx)⟩

/-- One after the other: both conditions are needed. -/
theorem Comes.bind (h : Comes c x r) (hf : c → Comes c' (f r) r') :
    Comes (c ∧ c') (x >>= f) r' := by
  constructor
  · rintro ⟨hc, hc'⟩
    rw [h.ok hc, ok_bind]
    exact (hf hc).ok hc'
  · intro hnot
    by_cases hc : c
    · rw [h.ok hc, ok_bind]
      exact (hf hc).overflow fun hc' => hnot ⟨hc, hc'⟩
    · rw [h.overflow hc]
      rfl

/-- What is left is the wrapping of the result. -/
theorem Comes.then (h : Comes c x r) (hf : f r = .ok r') : Comes c (x >>= f) r' := by
  have hlast : Comes True (f r) r' := ⟨fun _ => hf, fun hc => absurd trivial hc⟩
  exact (h.bind fun _ => hlast).congr (and_iff_left trivial)

/-- A sum that is known to fit. -/
theorem Comes.after {m : Int} {g : Int → Checked δ} (hs : Counts sum fits) (hm : fits m)
    (h : Comes c (g m) r') : Comes c (sum m >>= g) r' := by
  rw [hs.exact m hm, ok_bind]
  exact h

theorem Counts.comes (hs : Counts sum fits) (m : Int) : Comes (fits m) (sum m) m :=
  ⟨hs.exact m, hs.overflow m⟩

end

/-- **The boundaries crossed**: the largest number on the way decides. -/
theorem blocksNeeded_comes (hs : Counts sum fits) (hbs : 0 < bs) {cur add : Int}
    (hcur : 0 ≤ cur) (hadd : 0 ≤ add) :
    Comes (fits (cur + add + bs)) (blocksNeeded sum cur add bs) (blocks cur add bs) := by
  have hnonneg := blocks_nonneg hbs hcur hadd
  have hle := blocks_le hbs hcur hadd
  unfold blocksNeeded
  refine Comes.congr (Comes.bind (hs.comes _) fun _ => Comes.bind (hs.comes _) fun _ =>
    Comes.bind (hs.comes _) fun _ => Comes.bind (hs.comes _) fun _ =>
    Comes.bind (hs.comes _) fun _ => hs.comes _) ⟨fun h => h.2.2.2.1, fun h => ?_⟩
  exact ⟨hs.below (by omega) (by omega) h, hs.below (by omega) (by omega) h,
    hs.below (by omega) (by omega) h, h, hs.below (by omega) (by omega) h,
    hs.below hnonneg hle h⟩

theorem decodeNeed_comes (hs : Counts sum fits) (hbs : 0 < bs) {s : SeqDesc}
    (h : 0 ≤ s.numComputedTokens ∧ 0 ≤ s.blocksHeld) :
    Comes (fits (s.numComputedTokens + 1 + bs)) (decodeNeed sum bs s) (need bs s) := by
  unfold decodeNeed
  rw [check_of_true (by simpa using h.1), check_of_true (by simpa using h.2)]
  exact blocksNeeded_comes hs hbs h.1 Int.one_nonneg

/-! ### The victim

No two sequences have one arrival, so the last one is the only one. -/

private theorem latestFrom_spec {l : List SeqDesc} :
    ∀ {rest : List SeqDesc} {victim best i : Nat}, l.drop i = rest →
      (∃ v, l[victim]? = some v ∧ v.arrivalIndex = best) →
      (∀ j s, j < i → l[j]? = some s →
        s.arrivalIndex ≤ best ∧ (victim < j → s.arrivalIndex < best)) →
      ∃ v, l[latestFrom victim best i rest]? = some v ∧ ∀ j s, l[j]? = some s →
        s.arrivalIndex ≤ v.arrivalIndex ∧
          (latestFrom victim best i rest < j → s.arrivalIndex < v.arrivalIndex) := by
  intro rest
  induction rest with
  | nil =>
      intro victim best i hdrop hv hle
      obtain ⟨v, hv, rfl⟩ := hv
      refine ⟨v, hv, fun j s hs => hle j s ?_ hs⟩
      have hlt := (List.getElem?_eq_some_iff.mp hs).1
      have := List.drop_eq_nil_iff.mp hdrop
      omega
  | cons s rest ih =>
      intro victim best i hdrop hv hle
      have hs : l[i]? = some s := by
        have := congrArg (fun x => x[0]?) hdrop
        simpa using this
      have hdrop' : l.drop (i + 1) = rest := by
        have := congrArg List.tail hdrop
        simpa using this
      unfold latestFrom
      by_cases hb : best ≤ s.arrivalIndex
      · rw [if_pos hb]
        refine ih hdrop' ⟨s, hs, rfl⟩ ?_
        intro j t hj ht
        by_cases hji : j = i
        · subst hji
          rw [hs] at ht
          cases ht
          exact ⟨le_refl _, fun hlt => absurd hlt (lt_irrefl _)⟩
        · have := (hle j t (by omega) ht).1
          exact ⟨by omega, fun hlt => by omega⟩
      · rw [if_neg hb]
        refine ih hdrop' hv ?_
        intro j t hj ht
        by_cases hji : j = i
        · subst hji
          rw [hs] at ht
          cases ht
          exact ⟨by omega, fun _ => by omega⟩
        · exact hle j t (by omega) ht

/-- **The victim arrived last**, and is the last to have done so. -/
theorem latest_spec {l : List SeqDesc} (h : l ≠ []) :
    ∃ v, l[latest l]? = some v ∧ ∀ j s, l[j]? = some s →
      s.arrivalIndex ≤ v.arrivalIndex ∧ (latest l < j → s.arrivalIndex < v.arrivalIndex) := by
  cases l with
  | nil => exact absurd rfl h
  | cons s rest =>
      refine latestFrom_spec rfl ⟨s, rfl, rfl⟩ ?_
      intro j t hj ht
      obtain rfl : j = 0 := by omega
      cases ht
      exact ⟨le_refl _, fun hlt => absurd hlt (lt_irrefl _)⟩

/-! ### Preemption

A running sequence is followed by its position, so that ties can be told apart.
-/

/-- `v` is evicted before `w`: it arrived later, or as late and stands later. -/
def Before (v w : SeqDesc × Nat) : Prop :=
  w.1.arrivalIndex < v.1.arrivalIndex ∨ w.1.arrivalIndex = v.1.arrivalIndex ∧ w.2 < v.2

/-- The account of the preemption loop: which running sequences are kept, and which were
evicted, in that order. -/
structure Account (bs : Int) (running : List SeqDesc) (free : Int)
    (kept victims : List (SeqDesc × Nat)) (d : Decoding) : Prop where
  decoding : d.decoding = kept.map Prod.fst
  sublist : kept.Sublist running.zipIdx
  perm : (kept ++ victims).Perm running.zipIdx
  preempt : d.preempt = victims.map (·.1.id)
  demand : d.demand = (kept.map fun s => need bs s.1).sum
  freeBlocks : d.freeBlocks = free + (victims.map (·.1.blocksHeld)).sum
  latest : ∀ v ∈ victims, ∀ s ∈ kept, Before v s
  descending : victims.Pairwise Before
  /-- the last eviction was needed -/
  needed : ∀ vs v, victims = vs ++ [v] →
    free + (vs.map (·.1.blocksHeld)).sum < need bs v.1 + d.demand

/-- The counts of a descriptor are counts. -/
def Counted (l : List SeqDesc) : Prop :=
  ∀ s ∈ l, 0 ≤ s.numComputedTokens ∧ 0 ≤ s.numPromptTokens ∧ 0 ≤ s.blocksHeld

private theorem sum_eraseIdx {β : Type} {l : List β} {i : Nat} {v : β} (h : l[i]? = some v)
    (f : β → Int) : (l.map f).sum = f v + ((l.eraseIdx i).map f).sum := by
  obtain ⟨hlt, rfl⟩ := List.getElem?_eq_some_iff.mp h
  have := ((List.getElem_cons_eraseIdx_perm hlt).map f).sum_eq
  rw [← this]
  simp

/-- Positions grow along the running list. -/
theorem positions_zipIdx (l : List SeqDesc) : l.zipIdx.Pairwise fun s t => s.2 < t.2 := by
  rw [← List.pairwise_map (f := Prod.snd) (R := fun i j => i < j), List.zipIdx_map_snd]
  exact List.pairwise_lt_range'

/-- The latest of the kept sequences is evicted before any other of them. -/
theorem before_of_latest {kept : List (SeqDesc × Nat)} {k : Nat} {v : SeqDesc × Nat}
    (hv : kept[k]? = some v) (hpos : kept.Pairwise fun s t => s.2 < t.2)
    (hlatest : ∀ j s, (kept.map Prod.fst)[j]? = some s →
      s.arrivalIndex ≤ v.1.arrivalIndex ∧ (k < j → s.arrivalIndex < v.1.arrivalIndex)) :
    ∀ s ∈ kept.eraseIdx k, Before v s := by
  intro s hs
  obtain ⟨j, hjk, hj⟩ := List.mem_eraseIdx_iff_getElem?.mp hs
  obtain ⟨hle, hlt⟩ := hlatest j s.1 (by rw [List.getElem?_map, hj]; rfl)
  by_cases hk : k < j
  · exact .inl (hlt hk)
  · -- an earlier position: the tie goes to the victim
    obtain ⟨hjl, hjs⟩ := List.getElem?_eq_some_iff.mp hj
    obtain ⟨hkl, hkv⟩ := List.getElem?_eq_some_iff.mp hv
    have hposition := List.pairwise_iff_getElem.mp hpos j k hjl hkl (by omega)
    rw [hjs, hkv] at hposition
    unfold Before
    omega

/-- The account after one more eviction. -/
theorem Account.evict {d : Decoding} {kept victims : List (SeqDesc × Nat)} {k : Nat}
    {w : SeqDesc × Nat} (ha : Account bs running free kept victims d) (hw : kept[k]? = some w)
    (hlatest : ∀ j s, d.decoding[j]? = some s →
      s.arrivalIndex ≤ w.1.arrivalIndex ∧ (k < j → s.arrivalIndex < w.1.arrivalIndex))
    (hover : d.freeBlocks < d.demand) :
    Account bs running free (kept.eraseIdx k) (victims ++ [w])
      { decoding := d.decoding.eraseIdx k
        demand := d.demand - need bs w.1
        freeBlocks := d.freeBlocks + w.1.blocksHeld
        preempt := d.preempt ++ [w.1.id] } := by
  have hmem : w ∈ kept := List.mem_of_getElem? hw
  obtain ⟨hlt, hget⟩ := List.getElem?_eq_some_iff.mp hw
  have herase := List.getElem_cons_eraseIdx_perm hlt
  rw [hget] at herase
  have hdemand := sum_eraseIdx hw fun s => need bs s.1
  have hbefore := before_of_latest hw (List.Pairwise.sublist ha.sublist
    (positions_zipIdx running)) (by rw [← ha.decoding]; exact hlatest)
  refine ⟨?_, (List.eraseIdx_sublist _ _).trans ha.sublist, ?_, ?_, ?_, ?_, ?_, ?_, ?_⟩
  · rw [ha.decoding, List.eraseIdx_map]
  · refine List.Perm.trans ?_ ha.perm
    refine List.Perm.trans ?_ (herase.append_right victims)
    rw [← List.append_assoc]
    exact List.perm_append_singleton _ _
  · simp [ha.preempt]
  · simp only [ha.demand]
    omega
  · simp only [ha.freeBlocks, List.map_append, List.sum_append, List.map_cons,
      List.map_nil, List.sum_cons, List.sum_nil]
    omega
  · intro u hu s hs
    rcases List.mem_append.mp hu with hu | hu
    · exact ha.latest u hu s ((List.eraseIdx_sublist _ _).subset hs)
    · rw [List.mem_singleton.mp hu]
      exact hbefore s hs
  · refine List.pairwise_append.mpr ⟨ha.descending, List.pairwise_singleton _ _, ?_⟩
    intro u hu t ht
    rw [List.mem_singleton.mp ht]
    exact ha.latest u hu w hmem
  · intro vs u hvs
    obtain ⟨rfl, hu⟩ := List.append_inj' hvs rfl
    cases hu
    have := ha.freeBlocks
    simp only
    omega

/-- What a decode set needs is no less than nothing. -/
theorem Account.demand_nonneg {d : Decoding} {kept victims : List (SeqDesc × Nat)}
    (ha : Account bs running free kept victims d) (hbs : 0 < bs) (hc : Counted running) :
    0 ≤ d.demand := by
  rw [ha.demand]
  refine List.sum_nonneg fun n hn => ?_
  obtain ⟨s, hs, rfl⟩ := List.mem_map.mp hn
  exact need_nonneg hbs (hc s.1 (List.fst_mem_of_mem_zipIdx (ha.sublist.subset hs))).1

/-- What is free and what was given back. -/
theorem Account.freeBlocks_nonneg {d : Decoding} {kept victims : List (SeqDesc × Nat)}
    (ha : Account bs running free kept victims d) (hfree : 0 ≤ free) (hc : Counted running) :
    0 ≤ d.freeBlocks := by
  have hheld : 0 ≤ (victims.map (·.1.blocksHeld)).sum := by
    refine List.sum_nonneg fun n hn => ?_
    obtain ⟨s, hs, rfl⟩ := List.mem_map.mp hn
    have hmem := ha.perm.subset (List.mem_append_right _ hs)
    exact (hc s.1 (List.fst_mem_of_mem_zipIdx hmem)).2.2
  rw [ha.freeBlocks]
  omega

/-- **The preemption loop** ends with a decode set that fits, or with none, if what it gives back
can be added up. -/
theorem preemptToFit_comes (hs : Counts sum fits) (hbs : 0 < bs) (hfree : 0 ≤ free)
    (hc : Counted running) :
    ∀ {fuel : Nat} {d : Decoding} {kept victims : List (SeqDesc × Nat)},
      kept.length ≤ fuel → Account bs running free kept victims d →
      ∃ kept' victims' d', Account bs running free kept' victims' d' ∧
        (d'.demand ≤ d'.freeBlocks ∨ kept' = []) ∧ d.freeBlocks ≤ d'.freeBlocks ∧
        d'.demand ≤ d.demand ∧
        ((∀ s ∈ running, fits (s.numComputedTokens + 1 + bs)) → fits d.demand →
          fits d.freeBlocks → Comes (fits d'.freeBlocks) (preemptToFit sum bs fuel d) d') := by
  have hstop : ∀ (d : Decoding), fits d.freeBlocks →
      Comes (fits d.freeBlocks) (pure d : Checked Decoding) d :=
    fun d hd => (comes_pure d).congr (iff_of_true trivial hd)
  intro fuel
  induction fuel with
  | zero =>
      intro d kept victims hlen ha
      exact ⟨kept, victims, d, ha, Or.inr (List.length_eq_zero_iff.mp (by omega)), le_refl _,
        le_refl _, fun _ _ => hstop d⟩
  | succ fuel ih =>
      intro d kept victims hlen ha
      unfold preemptToFit
      by_cases hfit : d.demand ≤ d.freeBlocks
      · rw [if_neg (by simp; omega)]
        exact ⟨kept, victims, d, ha, Or.inl hfit, le_refl _, le_refl _, fun _ _ => hstop d⟩
      by_cases hne : d.decoding = []
      · rw [if_neg (by simp [hne])]
        refine ⟨kept, victims, d, ha, Or.inr ?_, le_refl _, le_refl _, fun _ _ => hstop d⟩
        simpa [ha.decoding] using hne
      obtain ⟨v, hv, hlatest⟩ := latest_spec hne
      generalize latest d.decoding = k at hv hlatest
      have hvk := hv
      rw [ha.decoding, List.getElem?_map, Option.map_eq_some_iff] at hvk
      obtain ⟨w, hw, rfl⟩ := hvk
      have hmem : w ∈ kept := List.mem_of_getElem? hw
      have hin := List.fst_mem_of_mem_zipIdx (ha.sublist.subset hmem)
      have hcw := hc w.1 hin
      have hnext := ha.evict hw hlatest (by omega)
      have hneed := need_nonneg hbs hcw.1
      have hdemand := hnext.demand_nonneg hbs hc
      have hback := hnext.freeBlocks_nonneg hfree hc
      simp only at hdemand hback
      have hlt := (List.getElem?_eq_some_iff.mp hw).1
      obtain ⟨kept', victims', d', ha', hend, hgrow, hless, hrun⟩ := ih (by
        have := List.length_eraseIdx_of_lt hlt
        omega) hnext
      simp only at hgrow hless hrun
      refine ⟨kept', victims', d', ha', hend, by omega, by omega, fun hneeds hfd hff => ?_⟩
      rw [if_pos (by simp [hne]; omega)]
      simp only [hv]
      have hdn := hs.below hdemand (by omega) hfd
      rw [(decodeNeed_comes hs hbs ⟨hcw.1, hcw.2.2⟩).ok (hneeds w.1 hin), ok_bind,
        hs.exact _ hdn, ok_bind]
      refine ((hs.comes _).bind fun hfn => hrun hneeds hdn hfn).congr ⟨And.right, fun h => ?_⟩
      exact ⟨hs.below hback hgrow h, h⟩

/-! ### Admission

The walk stops at the first sequence that fails a check.  The sums it forms are those of the
sequences it took in and of that one. -/

/-- What a waiting sequence is admitted with. -/
def toPrefill (s : SeqDesc) : Prefill := ⟨s.id, s.numPromptTokens⟩

/-- The plan of the admission walk. -/
structure Admitted (config : SchedulerConfig) (bs : Int) (numScheduled tokens free : Int)
    (waiting admitted rest : List SeqDesc) : Prop where
  split : waiting = admitted ++ rest
  blocks : admitted ≠ [] → (admitted.map (prefillNeed bs)).sum ≤ free
  budget : admitted ≠ [] →
    tokens + (admitted.map (·.numPromptTokens)).sum ≤ config.maxNumBatchedTokens
  width : admitted ≠ [] → numScheduled + admitted.length ≤ config.maxNumSeqs
  /-- the walk stops at the first sequence that fails a check -/
  stops : ∀ s rest', rest = s :: rest' →
    config.maxNumSeqs ≤ numScheduled + admitted.length ∨
    config.maxNumBatchedTokens
      < tokens + (admitted.map (·.numPromptTokens)).sum + s.numPromptTokens ∨
    free - (admitted.map (prefillNeed bs)).sum < prefillNeed bs s

/-- The sums of the admission walk: of each sequence taken in, and of the first that is not, as
far as its checks go. -/
structure WalkFits (fits : Int → Prop) (config : SchedulerConfig) (bs numScheduled tokens : Int)
    (waiting admitted : List SeqDesc) : Prop where
  taken : ∀ s ∈ admitted, fits (s.numPromptTokens + bs)
  next : ∀ s after, waiting = admitted ++ s :: after →
    numScheduled + admitted.length < config.maxNumSeqs →
    fits (tokens + (admitted.map (·.numPromptTokens)).sum + s.numPromptTokens) ∧
      (tokens + (admitted.map (·.numPromptTokens)).sum + s.numPromptTokens
        ≤ config.maxNumBatchedTokens → fits (s.numPromptTokens + bs))

section

variable {config : SchedulerConfig} {numScheduled tokens : Int} {s : SeqDesc}
  {rest admitted left : List SeqDesc}

/-- A walk that stops at its first sequence. -/
theorem Admitted.stopped (reason : config.maxNumSeqs ≤ numScheduled ∨
    config.maxNumBatchedTokens < tokens + s.numPromptTokens ∨ free < prefillNeed bs s) :
    Admitted config bs numScheduled tokens free (s :: rest) [] (s :: rest) := by
  refine ⟨rfl, by simp, by simp, by simp, ?_⟩
  intro t rest' heq
  cases heq
  simpa using reason

/-- A walk that takes its first sequence in. -/
theorem Admitted.cons (hseqs : numScheduled < config.maxNumSeqs)
    (htokens : tokens + s.numPromptTokens ≤ config.maxNumBatchedTokens)
    (hblocks : prefillNeed bs s ≤ free)
    (h : Admitted config bs (numScheduled + 1) (tokens + s.numPromptTokens)
      (free - prefillNeed bs s) rest admitted left) :
    Admitted config bs numScheduled tokens free (s :: rest) (s :: admitted) left := by
  refine ⟨by rw [h.split]; rfl, ?_, ?_, ?_, ?_⟩
  · intro _
    rw [List.map_cons, List.sum_cons]
    by_cases he : admitted = []
    · rw [he]
      simp only [List.map_nil, List.sum_nil]
      omega
    · have := h.blocks he
      omega
  · intro _
    rw [List.map_cons, List.sum_cons]
    by_cases he : admitted = []
    · rw [he]
      simp only [List.map_nil, List.sum_nil]
      omega
    · have := h.budget he
      omega
  · intro _
    rw [List.length_cons]
    by_cases he : admitted = []
    · rw [he]
      simp only [List.length_nil]
      omega
    · have := h.width he
      push_cast
      omega
  · intro t rest' heq
    have := h.stops t rest' heq
    rw [List.map_cons, List.sum_cons, List.map_cons, List.sum_cons, List.length_cons]
    push_cast
    omega

theorem walkFits_nil : WalkFits fits config bs numScheduled tokens (s :: rest) [] ↔
    (numScheduled < config.maxNumSeqs → fits (tokens + s.numPromptTokens) ∧
      (tokens + s.numPromptTokens ≤ config.maxNumBatchedTokens →
        fits (s.numPromptTokens + bs))) := by
  constructor
  · intro h hseqs
    simpa using h.next s rest rfl (by simpa using hseqs)
  · intro h
    refine ⟨by simp, ?_⟩
    intro t after heq hseqs
    cases heq
    simpa using h (by simpa using hseqs)

theorem walkFits_cons : WalkFits fits config bs numScheduled tokens (s :: rest) (s :: admitted) ↔
    fits (s.numPromptTokens + bs) ∧
      WalkFits fits config bs (numScheduled + 1) (tokens + s.numPromptTokens) rest admitted := by
  have hlen : ∀ n : Nat, numScheduled + ((n + 1 : Nat) : Int) = numScheduled + 1 + n := by
    intro n
    omega
  constructor
  · intro h
    refine ⟨h.taken s (by simp), fun t ht => h.taken t (List.mem_cons_of_mem _ ht), ?_⟩
    intro t after heq hseqs
    have := h.next t after (by rw [heq]; rfl) (by rw [List.length_cons, hlen]; exact hseqs)
    rwa [List.map_cons, List.sum_cons, ← add_assoc] at this
  · rintro ⟨hs, h⟩
    refine ⟨by simpa [hs] using h.taken, ?_⟩
    intro t after heq hseqs
    rw [List.length_cons, hlen] at hseqs
    have := h.next t after (by simpa using heq) hseqs
    rwa [List.map_cons, List.sum_cons, ← add_assoc]

/-- **The admission walk** takes in a prefix of the waiting sequences, if its sums fit. -/
theorem admitFrom_comes (hs : Counts sum fits) (hbs : 0 < bs) (config : SchedulerConfig)
    (hseqs : fits config.maxNumSeqs) (hbudget : fits config.maxNumBatchedTokens)
    (hc : Counted waiting) :
    ∀ (free : Int) {numScheduled tokens : Int}, 0 ≤ numScheduled → 0 ≤ tokens →
      ∃ admitted rest, Admitted config bs numScheduled tokens free waiting admitted rest ∧
        (fits free → Comes (WalkFits fits config bs numScheduled tokens waiting admitted)
          (admitFrom sum config bs numScheduled tokens free waiting)
          (admitted.map toPrefill)) := by
  induction waiting with
  | nil =>
      intro free numScheduled tokens _ _
      exact ⟨[], [], ⟨rfl, by simp, by simp, by simp, by simp⟩, fun _ =>
        (comes_pure []).congr (iff_of_true trivial ⟨by simp, by simp⟩)⟩
  | cons s rest ih =>
      intro free numScheduled tokens hn ht
      have hcs := hc s (by simp)
      have hneed := prefillNeed_nonneg hbs hcs.2.1
      have hblocks : Comes (fits (s.numPromptTokens + bs))
          (blocksNeeded sum 0 s.numPromptTokens bs) (prefillNeed bs s) := by
        have := blocksNeeded_comes hs hbs le_rfl hcs.2.1
        rwa [zero_add] at this
      unfold admitFrom
      rw [check_of_true (by simpa using hcs.2.1)]
      simp only [ok_bind]
      by_cases hw : config.maxNumSeqs ≤ numScheduled
      · refine ⟨[], s :: rest, Admitted.stopped (Or.inl hw), fun _ => ?_⟩
        rw [if_pos hw]
        exact (comes_pure []).congr (iff_of_true trivial (walkFits_nil.mpr fun h => by omega))
      rw [if_neg hw]
      by_cases hover : config.maxNumBatchedTokens < tokens + s.numPromptTokens
      · refine ⟨[], s :: rest, Admitted.stopped (Or.inr (Or.inl hover)), fun _ => ?_⟩
        refine ((hs.comes _).then (if_pos hover)).congr ?_
        rw [walkFits_nil]
        exact ⟨fun h _ => ⟨h, fun hc => by omega⟩, fun h => (h (by omega)).1⟩
      have hsum := hs.below (by omega) (not_lt.mp hover) hbudget
      by_cases hb : free < prefillNeed bs s
      · refine ⟨[], s :: rest, Admitted.stopped (Or.inr (Or.inr hb)), fun _ => ?_⟩
        refine Comes.after hs hsum ?_
        rw [if_neg hover]
        refine (hblocks.then (if_pos hb)).congr ?_
        rw [walkFits_nil]
        exact ⟨fun h _ => ⟨hsum, fun _ => h⟩, fun h => (h (by omega)).2 (not_lt.mp hover)⟩
      · have hcount := hs.below (by omega)
          (show numScheduled + 1 ≤ config.maxNumSeqs by omega) hseqs
        obtain ⟨admitted, left, hadm, hrun⟩ := ih (fun t h => hc t (List.mem_cons_of_mem _ h))
          (free - prefillNeed bs s) (show 0 ≤ numScheduled + 1 by omega)
          (show 0 ≤ tokens + s.numPromptTokens by omega)
        refine ⟨s :: admitted, left, hadm.cons (by omega) (by omega) (by omega), fun hff => ?_⟩
        have hleft := hs.below (by omega) (show free - prefillNeed bs s ≤ free by omega) hff
        refine Comes.after hs hsum ?_
        rw [if_neg hover]
        refine (hblocks.bind fun _ => ?_).congr walkFits_cons.symm
        rw [if_neg hb]
        exact Comes.after hs hleft (Comes.after hs hcount ((hrun hleft).then rfl))

end

/-! ### The plan

The plan is put together in the order of the source: the demand of those that run, the victims,
and admission into what is left. -/

/-- **The demand** of a decode set is at most one block for each member. -/
theorem demandOf_comes (hs : Counts sum fits) (hbs : 0 < bs) (hc : Counted running)
    (hlen : fits running.length) :
    Comes (∀ s ∈ running, fits (s.numComputedTokens + 1 + bs)) (demandOf sum bs running)
      (running.map (need bs)).sum := by
  have hfold : ∀ demand : Int, 0 ≤ demand → fits (demand + running.length) →
      Comes (∀ s ∈ running, fits (s.numComputedTokens + 1 + bs))
        (running.foldlM (fun demand s => do
          let need ← decodeNeed sum bs s
          sum (demand + need)) demand) (demand + (running.map (need bs)).sum) := by
    clear hlen
    induction running with
    | nil =>
        intro demand _ _
        rw [List.map_nil, List.sum_nil, add_zero]
        exact (comes_pure demand).congr (iff_of_true trivial (by simp))
    | cons s rest ih =>
        intro demand hd hlen
        have hcs := hc s (by simp)
        have h0 := need_nonneg hbs hcs.1
        have h1 := need_le_one hbs hcs.1
        rw [List.length_cons] at hlen
        push_cast at hlen
        have hsum := hs.below (x := demand + need bs s) (by omega) (by omega) hlen
        have hrest := hs.below (x := demand + need bs s + rest.length) (by omega) (by omega) hlen
        rw [List.foldlM_cons, List.map_cons, List.sum_cons, ← add_assoc]
        have hturn : Comes (fits (s.numComputedTokens + 1 + bs)) (do
            let need ← decodeNeed sum bs s
            sum (demand + need)) (demand + need bs s) := by
          refine ((decodeNeed_comes hs hbs ⟨hcs.1, hcs.2.2⟩).bind fun _ =>
            hs.comes (demand + need bs s)).congr ?_
          exact and_iff_left hsum
        refine (hturn.bind fun _ => ih (fun t h => hc t (List.mem_cons_of_mem _ h)) _ (by omega)
          hrest).congr ?_
        rw [List.forall_mem_cons]
  have := hfold 0 le_rfl (by rwa [zero_add])
  rwa [zero_add] at this

/-- Inputs the scheduler does not end the process on. -/
structure Valid (inputs : ScheduleInputs) : Prop where
  blockSize : 0 < inputs.pool.blockSize
  maxNumSeqs : 0 < inputs.config.maxNumSeqs
  maxNumBatchedTokens : 0 < inputs.config.maxNumBatchedTokens
  freeBlocks : 0 ≤ inputs.pool.freeBlocks
  running : Counted inputs.running
  waiting : Counted inputs.waiting

/-- A plan: the sequences that decode, those evicted and those admitted. -/
structure Plan (inputs : ScheduleInputs) (out : SchedulerOutput)
    (kept victims : List (SeqDesc × Nat)) (admitted rest : List SeqDesc) : Prop where
  decode : out.decode = kept.map (·.1.id)
  preempt : out.preempt = victims.map (·.1.id)
  prefill : out.prefill = admitted.map toPrefill
  account : Account inputs.pool.blockSize inputs.running inputs.pool.freeBlocks kept victims
    ⟨kept.map Prod.fst, (kept.map fun s => need inputs.pool.blockSize s.1).sum,
      inputs.pool.freeBlocks + (victims.map (·.1.blocksHeld)).sum, out.preempt⟩
  fits : (kept.map fun s => need inputs.pool.blockSize s.1).sum
      ≤ inputs.pool.freeBlocks + (victims.map (·.1.blocksHeld)).sum ∨ kept = []
  admitted : Admitted inputs.config inputs.pool.blockSize kept.length 0
    (inputs.pool.freeBlocks + (victims.map (·.1.blocksHeld)).sum
      - (kept.map fun s => need inputs.pool.blockSize s.1).sum) inputs.waiting admitted rest

/-- The numbers of the inputs fit, as those of the code's types do. -/
structure Typed (fits : Int → Prop) (inputs : ScheduleInputs) : Prop where
  running : fits inputs.running.length
  maxNumSeqs : fits inputs.config.maxNumSeqs
  maxNumBatchedTokens : fits inputs.config.maxNumBatchedTokens
  freeBlocks : fits inputs.pool.freeBlocks

/-- The sums of a plan: one more token of each running sequence, the blocks the victims give
back, and those of the admission walk. -/
structure Summable (fits : Int → Prop) (inputs : ScheduleInputs)
    (kept victims : List (SeqDesc × Nat)) (admitted : List SeqDesc) : Prop where
  running : ∀ s ∈ inputs.running, fits (s.numComputedTokens + 1 + inputs.pool.blockSize)
  refund : fits (inputs.pool.freeBlocks + (victims.map (·.1.blocksHeld)).sum)
  walk : WalkFits fits inputs.config inputs.pool.blockSize kept.length 0 inputs.waiting admitted

/-- **The scheduler plans**, if the sums of the plan fit. -/
theorem schedule_comes (hs : Counts sum fits) {inputs : ScheduleInputs} (hv : Valid inputs)
    (ht : Typed fits inputs) : ∃ out kept victims admitted rest,
      Plan inputs out kept victims admitted rest ∧
      Comes (Summable fits inputs kept victims admitted) (schedule sum inputs) out := by
  have hstart : Account inputs.pool.blockSize inputs.running inputs.pool.freeBlocks
      inputs.running.zipIdx []
      ⟨inputs.running, (inputs.running.map (need inputs.pool.blockSize)).sum,
        inputs.pool.freeBlocks, []⟩ := by
    refine ⟨(List.zipIdx_map_fst 0 _).symm, List.Sublist.refl _, by simp, rfl, ?_, by simp,
      by simp, List.Pairwise.nil, by simp⟩
    have hneed : (fun s : SeqDesc × Nat => need inputs.pool.blockSize s.1)
        = need inputs.pool.blockSize ∘ Prod.fst := rfl
    rw [hneed, ← List.map_map, List.zipIdx_map_fst]
  obtain ⟨kept, victims, d, ha, hfit, hgrow, hless, hrun⟩ :=
    preemptToFit_comes hs hv.blockSize hv.freeBlocks hv.running
      (List.length_zipIdx (l := inputs.running)).le hstart
  simp only at hgrow hless hrun
  have hdemand : (inputs.running.map (need inputs.pool.blockSize)).sum ≤ inputs.running.length := by
    refine (List.sum_le_card_nsmul _ 1 fun n hn => ?_).trans (by simp)
    obtain ⟨s, hmem, rfl⟩ := List.mem_map.mp hn
    exact need_le_one hv.blockSize (hv.running s hmem).1
  have hcharge := ha.demand_nonneg hv.blockSize hv.running
  have hrest : 0 ≤ d.freeBlocks - d.demand := by
    rcases hfit with hfit | hnone
    · omega
    · have hzero := ha.demand
      rw [hnone] at hzero
      simp only [List.map_nil, List.sum_nil] at hzero
      have := ha.freeBlocks_nonneg hv.freeBlocks hv.running
      omega
  have hlen : d.decoding.length = kept.length := by rw [ha.decoding, List.length_map]
  obtain ⟨admitted, rest, hadm, hwalk⟩ :=
    admitFrom_comes hs hv.blockSize inputs.config ht.maxNumSeqs ht.maxNumBatchedTokens hv.waiting
      (d.freeBlocks - d.demand) (Int.natCast_nonneg d.decoding.length) (le_refl 0)
  rw [hlen] at hadm
  refine ⟨⟨admitted.map toPrefill, d.decoding.map (·.id), d.preempt⟩, kept, victims, admitted, rest,
    ?_, ?_⟩
  · obtain ⟨decoding, demand, freeBlocks, preempt⟩ := d
    obtain rfl : decoding = kept.map Prod.fst := ha.decoding
    obtain rfl := ha.demand
    obtain rfl := ha.freeBlocks
    exact ⟨by rw [List.map_map]; rfl, ha.preempt, rfl, ha, hfit, hadm⟩
  · unfold schedule
    simp only [check_of_true (decide_eq_true hv.blockSize),
      check_of_true (decide_eq_true hv.maxNumSeqs),
      check_of_true (decide_eq_true hv.maxNumBatchedTokens),
      check_of_true (decide_eq_true hv.freeBlocks), ok_bind]
    refine Comes.congr ((demandOf_comes hs hv.blockSize hv.running ht.running).bind fun hneeds =>
      (hrun hneeds (hs.below (hcharge.trans hless) hdemand ht.running) ht.freeBlocks).bind
        fun hback => ?_) ?_ (c := _ ∧ _ ∧
          WalkFits fits inputs.config inputs.pool.blockSize d.decoding.length 0
            inputs.waiting admitted)
    · have hfits := hs.below hrest (show d.freeBlocks - d.demand ≤ d.freeBlocks by omega) hback
      exact Comes.after hs hfits ((hwalk hfits).then rfl)
    · rw [hlen, ha.freeBlocks]
      exact ⟨fun h => ⟨h.1, h.2.1, h.2.2⟩, fun h => ⟨h.running, h.refund, h.walk⟩⟩

/-- Counted without bound, every sum fits. -/
theorem schedule_spec {inputs : ScheduleInputs} (hv : Valid inputs) :
    (schedule .ok inputs).Returns fun out =>
      ∃ kept victims admitted rest, Plan inputs out kept victims admitted rest := by
  obtain ⟨out, kept, victims, admitted, rest, hp, hrun⟩ :=
    schedule_comes counts_exact hv ⟨trivial, trivial, trivial, trivial⟩
  refine ⟨out, hrun.ok ⟨fun _ _ => trivial, trivial, fun _ _ => trivial, ?_⟩,
    kept, victims, admitted, rest, hp⟩
  exact fun _ _ _ _ => ⟨trivial, fun _ => trivial⟩

/-! ### The specification

The plan is compared with an account of what a schedule should be that does not say how it is
found. -/

/-- Waiting sequences that pass every check, in order. -/
def Passes (config : SchedulerConfig) (bs numScheduled free : Int) (l : List SeqDesc) : Prop :=
  ∀ before s after, l = before ++ s :: after →
    numScheduled + before.length < config.maxNumSeqs ∧
    (before.map (·.numPromptTokens)).sum + s.numPromptTokens ≤ config.maxNumBatchedTokens ∧
    prefillNeed bs s ≤ free - (before.map (prefillNeed bs)).sum

/-- What is asked of a schedule that keeps some running sequences, evicts the others and
admits some waiting ones. -/
structure Specified (inputs : ScheduleInputs) (out : SchedulerOutput)
    (kept victims : List (SeqDesc × Nat)) (admitted : List SeqDesc) : Prop where
  decode : out.decode = kept.map (·.1.id)
  preempt : out.preempt = victims.map (·.1.id)
  prefill : out.prefill = admitted.map toPrefill
  sublist : kept.Sublist inputs.running.zipIdx
  perm : (kept ++ victims).Perm inputs.running.zipIdx
  descending : victims.Pairwise Before
  latest : ∀ v ∈ victims, ∀ s ∈ kept, Before v s
  /-- without the last eviction the demand would not fit -/
  minimal : ∀ vs v, victims = vs ++ [v] →
    inputs.pool.freeBlocks + (vs.map (·.1.blocksHeld)).sum
      < need inputs.pool.blockSize v.1 + (kept.map fun s => need inputs.pool.blockSize s.1).sum
  fits : kept ≠ [] →
    (kept.map fun s => need inputs.pool.blockSize s.1).sum
        + (admitted.map (prefillNeed inputs.pool.blockSize)).sum
      ≤ inputs.pool.freeBlocks + (victims.map (·.1.blocksHeld)).sum
  leading : admitted <+: inputs.waiting
  passes : Passes inputs.config inputs.pool.blockSize kept.length
    (inputs.pool.freeBlocks + (victims.map (·.1.blocksHeld)).sum
      - (kept.map fun s => need inputs.pool.blockSize s.1).sum) admitted
  longest : ∀ l, l <+: inputs.waiting →
    Passes inputs.config inputs.pool.blockSize kept.length
      (inputs.pool.freeBlocks + (victims.map (·.1.blocksHeld)).sum
        - (kept.map fun s => need inputs.pool.blockSize s.1).sum) l →
    l <+: admitted
  tokens : (admitted.map (·.numPromptTokens)).sum ≤ inputs.config.maxNumBatchedTokens
  width : (kept.length : Int) + admitted.length ≤ max inputs.config.maxNumSeqs kept.length

section

variable {config : SchedulerConfig} {numScheduled : Int} {admitted rest : List SeqDesc}

/-- A sum over a part is at most the sum over the whole. -/
private theorem sum_append_cons_le (f : SeqDesc → Int) (before : List SeqDesc) (s : SeqDesc)
    {after : List SeqDesc} (h : ∀ t ∈ after, 0 ≤ f t) :
    (before.map f).sum + f s ≤ ((before ++ s :: after).map f).sum := by
  have hafter : 0 ≤ (after.map f).sum := List.sum_nonneg (by simpa using h)
  simp only [List.map_append, List.sum_append, List.map_cons, List.sum_cons]
  omega

/-- What was admitted passes: each check is about less than the totals. -/
theorem Admitted.passes (ha : Admitted config bs numScheduled 0 free waiting admitted rest)
    (hbs : 0 < bs) (hc : Counted waiting) :
    Passes config bs numScheduled free admitted := by
  intro before s after hsplit
  have hne : admitted ≠ [] := by simp [hsplit]
  have hcounted : ∀ t ∈ after, 0 ≤ t.numPromptTokens := by
    intro t ht
    refine (hc t ?_).2.1
    rw [ha.split, hsplit]
    simp [ht]
  have hwidth := ha.width hne
  have hbudget := ha.budget hne
  have hblocks := ha.blocks hne
  have htokens := sum_append_cons_le (·.numPromptTokens) before s hcounted
  have hneeds := sum_append_cons_le (prefillNeed bs) before s
    fun t ht => prefillNeed_nonneg hbs (hcounted t ht)
  rw [← hsplit] at htokens hneeds
  have hlen : admitted.length = before.length + (after.length + 1) := by simp [hsplit]
  exact ⟨by omega, by omega, by omega⟩

/-- Nothing longer passes: the walk stopped for a reason. -/
theorem Admitted.longest (ha : Admitted config bs numScheduled 0 free waiting admitted rest)
    {l : List SeqDesc} (hl : l <+: waiting) (hp : Passes config bs numScheduled free l) :
    l <+: admitted := by
  have hadmitted : admitted <+: waiting := ⟨rest, ha.split.symm⟩
  rcases List.prefix_or_prefix_of_prefix hl hadmitted with h | ⟨more, hmore⟩
  · exact h
  cases more with
  | nil =>
      rw [List.append_nil] at hmore
      exact hmore ▸ List.prefix_refl _
  | cons s more =>
      obtain ⟨left, hleft⟩ := hl
      have hrest : rest = s :: (more ++ left) := by
        have : admitted ++ rest = admitted ++ (s :: (more ++ left)) := by
          rw [← ha.split, ← hleft, ← hmore]
          simp
        exact List.append_cancel_left this
      obtain ⟨hwidth, hbudget, hblocks⟩ := hp admitted s more hmore.symm
      have hstop := ha.stops s _ hrest
      omega

end

/-- What a plan promises is what is asked of it. -/
theorem Plan.specified {inputs : ScheduleInputs} {out : SchedulerOutput}
    {kept victims : List (SeqDesc × Nat)} {admitted rest : List SeqDesc} (hv : Valid inputs)
    (hp : Plan inputs out kept victims admitted rest) :
    Specified inputs out kept victims admitted := by
  have ha := hp.account
  refine ⟨hp.decode, hp.preempt, hp.prefill, ha.sublist, ha.perm, ha.descending, ha.latest,
    ha.needed, ?_, ⟨rest, hp.admitted.split.symm⟩, hp.admitted.passes hv.blockSize hv.waiting,
    fun l => hp.admitted.longest, ?_, ?_⟩
  · intro hkept
    have hfits := hp.fits.resolve_right hkept
    by_cases hempty : admitted = []
    · rw [hempty]
      simpa using hfits
    · have := hp.admitted.blocks hempty
      omega
  · by_cases hempty : admitted = []
    · rw [hempty]
      exact hv.maxNumBatchedTokens.le
    · have := hp.admitted.budget hempty
      omega
  · by_cases hempty : admitted = []
    · rw [hempty]
      simp
    · have := hp.admitted.width hempty
      exact this.trans (le_max_left _ _)

/-! ### The specification leaves no choice

Of two sets of victims one holds the other, since each sequence evicted comes before each one
kept.  If it held more, its last victim would have been evicted from a decode set that fits.
-/

section

variable {inputs : ScheduleInputs} {out out' : SchedulerOutput}
  {kept victims kept' victims' : List (SeqDesc × Nat)} {admitted admitted' : List SeqDesc}

theorem Before.asymm {v w : SeqDesc × Nat} (h : Before v w) : ¬Before w v := by
  unfold Before at h ⊢
  omega

theorem nodup_zipIdx (l : List SeqDesc) : l.zipIdx.Nodup :=
  (positions_zipIdx l).imp fun h heq => by
    rw [heq] at h
    exact lt_irrefl _ h

theorem Specified.mem (h : Specified inputs out kept victims admitted) {s : SeqDesc × Nat}
    (hs : s ∈ inputs.running.zipIdx) : s ∈ kept ∨ s ∈ victims :=
  List.mem_append.mp (h.perm.mem_iff.mpr hs)

theorem Specified.nodup (h : Specified inputs out kept victims admitted) :
    (kept ++ victims).Nodup := h.perm.nodup_iff.mpr (nodup_zipIdx _)

theorem Specified.running_mem (h : Specified inputs out kept victims admitted) {s : SeqDesc × Nat}
    (hs : s ∈ kept ++ victims) : s.1 ∈ inputs.running :=
  List.fst_mem_of_mem_zipIdx (h.perm.subset hs)

private theorem exists_outside {β : Type} {l l' : List β} (h : ¬l ⊆ l') : ∃ x ∈ l, x ∉ l' := by
  by_contra hnone
  exact h fun x hx => by_contra fun hx' => hnone ⟨x, hx, hx'⟩

/-- Of two sets of victims one holds the other. -/
theorem Specified.nested (h : Specified inputs out kept victims admitted)
    (h' : Specified inputs out' kept' victims' admitted') :
    victims ⊆ victims' ∨ victims' ⊆ victims := by
  by_contra hnot
  rw [not_or] at hnot
  obtain ⟨v, hv, hv'⟩ := exists_outside hnot.1
  obtain ⟨w, hw', hw⟩ := exists_outside hnot.2
  have hvk := (h'.mem (h.perm.subset (List.mem_append_right _ hv))).resolve_right hv'
  have hwk := (h.mem (h'.perm.subset (List.mem_append_right _ hw'))).resolve_right hw
  exact (h.latest v hv w hwk).asymm (h'.latest w hw' v hvk)

/-- A sum over some of the sequences of a list without repetitions. -/
theorem sum_le_of_subset {β : Type} [DecidableEq β] {l l' : List β} (hl : l.Nodup)
    (hsub : l ⊆ l') {f : β → Int} (hf : ∀ x ∈ l', 0 ≤ f x) : (l.map f).sum ≤ (l'.map f).sum := by
  obtain ⟨m, hperm, hm⟩ := hl.subperm hsub
  rw [← (hperm.map f).sum_eq]
  exact (hm.map f).sum_le_sum (by simpa using hf)

/-- A plan evicts no more than another. -/
theorem Specified.subset (hv : Valid inputs) (h : Specified inputs out kept victims admitted)
    (h' : Specified inputs out' kept' victims' admitted') (hsub : victims ⊆ victims') :
    victims' ⊆ victims := by
  by_contra hnot
  obtain ⟨w, hw', hw⟩ := exists_outside hnot
  have hwk := (h.mem (h'.perm.subset (List.mem_append_right _ hw'))).resolve_right hw
  obtain ⟨vs, v, rfl⟩ : ∃ vs v, victims' = vs ++ [v] := by
    refine ⟨victims'.dropLast, victims'.getLast (List.ne_nil_of_mem hw'), ?_⟩
    exact (List.dropLast_append_getLast _).symm
  have hend := List.mem_append_right vs (List.mem_singleton_self v)
  obtain ⟨-, -, hafter⟩ := List.pairwise_append.mp h'.descending
  -- the last victim is kept by the other plan
  have hvout : v ∉ victims := by
    intro hvin
    have hbefore := h.latest v hvin w hwk
    rcases List.mem_append.mp hw' with hin | hlast
    · exact hbefore.asymm (hafter w hin v (List.mem_singleton_self v))
    · exact hw (List.mem_singleton.mp hlast ▸ hvin)
  have hvk := (h.mem (h'.perm.subset (List.mem_append_right _ hend))).resolve_right hvout
  have hnd := List.nodup_append.mp h.nodup
  have hnd' := List.nodup_append.mp h'.nodup
  have hvkept' : v ∉ kept' := fun hc => hnd'.2.2 v hc v hend rfl
  have hkeeps : v :: kept' ⊆ kept := by
    intro s hs
    rcases List.mem_cons.mp hs with rfl | hs
    · exact hvk
    · refine (h.mem (h'.perm.subset (List.mem_append_left _ hs))).resolve_right fun hc => ?_
      exact hnd'.2.2 s hs s (hsub hc) rfl
  have hless : victims ⊆ vs := by
    intro s hs
    refine (List.mem_append.mp (hsub hs)).resolve_right fun hc => hvout ?_
    exact List.mem_singleton.mp hc ▸ hs
  have hneed := sum_le_of_subset (List.nodup_cons.mpr ⟨hvkept', hnd'.1⟩) hkeeps
    (f := fun s => need inputs.pool.blockSize s.1) fun s hs =>
      need_nonneg hv.blockSize (hv.running s.1 (h.running_mem (List.mem_append_left _ hs))).1
  have hheld := sum_le_of_subset hnd.2.1 hless (f := (·.1.blocksHeld)) fun s hs =>
    (hv.running s.1 (h'.running_mem (List.mem_append_right _ (List.mem_append_left _ hs)))).2.2
  have htaken : 0 ≤ (admitted.map (prefillNeed inputs.pool.blockSize)).sum := by
    refine List.sum_nonneg fun n hn => ?_
    obtain ⟨s, hs, rfl⟩ := List.mem_map.mp hn
    exact prefillNeed_nonneg hv.blockSize (hv.waiting s (h.leading.subset hs)).2.1
  have hfits := h.fits (List.ne_nil_of_mem hvk)
  have hminimal := h'.minimal vs v rfl
  rw [List.map_cons, List.sum_cons] at hneed
  omega

/-- **Two plans that meet the specification are one.** -/
theorem Specified.unique (hv : Valid inputs) (h : Specified inputs out kept victims admitted)
    (h' : Specified inputs out' kept' victims' admitted') :
    kept = kept' ∧ victims = victims' ∧ admitted = admitted' := by
  have hnd := List.nodup_append.mp h.nodup
  have hnd' := List.nodup_append.mp h'.nodup
  have hboth : victims ⊆ victims' ∧ victims' ⊆ victims := by
    rcases h.nested h' with hsub | hsub
    · exact ⟨hsub, h.subset hv h' hsub⟩
    · exact ⟨h'.subset hv h hsub, hsub⟩
  have hvictims : victims.Perm victims' :=
    (List.perm_ext_iff_of_nodup hnd.2.1 hnd'.2.1).mpr fun s => ⟨fun hs => hboth.1 hs,
      fun hs => hboth.2 hs⟩
  have hvictims : victims = victims' := hvictims.eq_of_pairwise
    (fun _ _ _ _ hab hba => absurd hba hab.asymm) h.descending h'.descending
  subst hvictims
  have hkept : kept.Perm kept' :=
    (List.perm_append_right_iff victims).mp (h.perm.trans h'.perm.symm)
  have hpos := positions_zipIdx inputs.running
  have hkept : kept = kept' := hkept.eq_of_pairwise
    (fun _ _ _ _ hab hba => absurd (hab.trans hba) (lt_irrefl _))
    (hpos.sublist h.sublist) (hpos.sublist h'.sublist)
  subst hkept
  have hle := h'.longest admitted h.leading h.passes
  have hge := h.longest admitted' h'.leading h'.passes
  exact ⟨rfl, rfl, hle.eq_of_length_le hge.length_le⟩

end

/-- What the specification promises of an answer. -/
def MeetsSpecification (inputs : ScheduleInputs) (out : SchedulerOutput) : Prop :=
  out.decode.Sublist (inputs.running.map (·.id)) ∧
    (out.decode ++ out.preempt).Perm (inputs.running.map (·.id)) ∧
    ∃ kept victims admitted, Specified inputs out kept victims admitted

/-- The sums of the plan that the specification determines fit the code's type. -/
def SumsFit (inputs : ScheduleInputs) : Prop :=
  ∀ out kept victims admitted, Specified inputs out kept victims admitted →
    Summable FitsInt64 inputs kept victims admitted

theorem Specified.meets {inputs : ScheduleInputs} {out : SchedulerOutput}
    {kept victims : List (SeqDesc × Nat)} {admitted : List SeqDesc}
    (h : Specified inputs out kept victims admitted) : MeetsSpecification inputs out := by
  have hids : inputs.running.map (·.id) = inputs.running.zipIdx.map (·.1.id) := by
    have hid : (fun s : SeqDesc × Nat => s.1.id) = (·.id) ∘ Prod.fst := rfl
    rw [hid, ← List.map_map, List.zipIdx_map_fst]
  refine ⟨?_, ?_, kept, victims, admitted, h⟩
  · rw [h.decode, hids]
    exact h.sublist.map _
  · rw [h.decode, h.preempt, hids, ← List.map_append]
    exact h.perm.map _

/-- **The scheduler meets its specification** exactly on the inputs whose sums fit. -/
theorem schedule_specified {inputs : ScheduleInputs} (hv : Valid inputs)
    (ht : Typed FitsInt64 inputs) :
    (schedule int64 inputs).Returns (MeetsSpecification inputs) ↔ SumsFit inputs := by
  obtain ⟨out, kept, victims, admitted, rest, hp, hrun⟩ := schedule_comes counts_int64 hv ht
  have hspec := hp.specified hv
  constructor
  · rintro ⟨out', hout', -⟩ out'' kept' victims' admitted' hspec'
    obtain ⟨rfl, rfl, rfl⟩ := hspec.unique hv hspec'
    by_contra hnot
    rw [hrun.overflow hnot] at hout'
    cases hout'
  · intro hfit
    exact ⟨out, hrun.ok (hfit out kept victims admitted hspec), hspec.meets⟩

/-- **A plan whose sums fit is the plan counted without bound.** -/
theorem schedule_exact {inputs : ScheduleInputs} (hv : Valid inputs)
    (ht : Typed FitsInt64 inputs) (hfit : SumsFit inputs) :
    schedule int64 inputs = schedule .ok inputs := by
  obtain ⟨out, kept, victims, admitted, rest, hp, hrun⟩ := schedule_comes counts_int64 hv ht
  obtain ⟨out', hout', kept', victims', admitted', rest', hp'⟩ := schedule_spec hv
  have hspec := hp.specified hv
  obtain ⟨rfl, rfl, rfl⟩ := hspec.unique hv (hp'.specified hv)
  rw [hrun.ok (hfit out kept victims admitted hspec), hout']
  obtain ⟨prefill, decode, preempt⟩ := out
  obtain ⟨prefill', decode', preempt'⟩ := out'
  simp only [ok.injEq, SchedulerOutput.mk.injEq]
  exact ⟨hp.prefill.trans hp'.prefill.symm, hp.decode.trans hp'.decode.symm,
    hp.preempt.trans hp'.preempt.symm⟩

/-- All the tokens and blocks of some inputs can be added up. -/
structure Small (inputs : ScheduleInputs) : Prop where
  running : ∀ s ∈ inputs.running, s.numComputedTokens + 1 + inputs.pool.blockSize < 2 ^ 63
  held : inputs.pool.freeBlocks + (inputs.running.map (·.blocksHeld)).sum < 2 ^ 63
  waiting : (inputs.waiting.map (·.numPromptTokens)).sum + inputs.pool.blockSize < 2 ^ 63

theorem Small.sumsFit {inputs : ScheduleInputs} (hv : Valid inputs) (h : Small inputs) :
    SumsFit inputs := by
  intro out kept victims admitted hspec
  have hbs := hv.blockSize
  have hfree := hv.freeBlocks
  obtain ⟨rest, hsplit⟩ := hspec.leading
  have htokens : ∀ t ∈ inputs.waiting, 0 ≤ t.numPromptTokens := fun t ht => (hv.waiting t ht).2.1
  have hone : ∀ before s after, inputs.waiting = before ++ s :: after →
      0 ≤ (before.map (·.numPromptTokens)).sum ∧ 0 ≤ s.numPromptTokens ∧
        (before.map (·.numPromptTokens)).sum + s.numPromptTokens + inputs.pool.blockSize
          < 2 ^ 63 := by
    intro before s after heq
    have hafter : (before.map (·.numPromptTokens)).sum + s.numPromptTokens
        ≤ ((before ++ s :: after).map (·.numPromptTokens)).sum :=
      sum_append_cons_le (·.numPromptTokens) before s fun t ht =>
        htokens t (by rw [heq]; simp [ht])
    rw [← heq] at hafter
    have hbefore : 0 ≤ (before.map (·.numPromptTokens)).sum := List.sum_nonneg fun n hn => by
      obtain ⟨t, ht, rfl⟩ := List.mem_map.mp hn
      exact htokens t (by rw [heq]; simp [ht])
    have hwaiting := h.waiting
    exact ⟨hbefore, htokens s (by rw [heq]; simp), by omega⟩
  refine ⟨fun s hs => ?_, ?_, ⟨fun s hs => ?_, fun s after heq _ => ?_⟩⟩
  · have hcomputed := (hv.running s hs).1
    exact ⟨by omega, h.running s hs⟩
  · have hheld : ∀ s ∈ inputs.running.zipIdx, 0 ≤ s.1.blocksHeld := fun s hs =>
      (hv.running s.1 (List.fst_mem_of_mem_zipIdx hs)).2.2
    have hsub : victims ⊆ inputs.running.zipIdx := fun s hs =>
      hspec.perm.subset (List.mem_append_right _ hs)
    have hle := sum_le_of_subset (List.nodup_append.mp hspec.nodup).2.1 hsub hheld
    have hall : (inputs.running.zipIdx.map (·.1.blocksHeld)).sum
        = (inputs.running.map (·.blocksHeld)).sum := by
      rw [show (fun s : SeqDesc × Nat => s.1.blocksHeld) = (·.blocksHeld) ∘ Prod.fst from rfl,
        ← List.map_map, List.zipIdx_map_fst]
    have hnonneg : 0 ≤ (victims.map (·.1.blocksHeld)).sum := List.sum_nonneg fun n hn => by
      obtain ⟨s, hs, rfl⟩ := List.mem_map.mp hn
      exact hheld s (hsub hs)
    have htotal := h.held
    exact ⟨by omega, by omega⟩
  · obtain ⟨before, after, rfl⟩ := List.append_of_mem hs
    obtain ⟨h0, h1, h2⟩ := hone before s (after ++ rest) (by rw [← hsplit]; simp)
    exact ⟨by omega, by omega⟩
  · obtain ⟨h0, h1, h2⟩ := hone admitted s after heq
    exact ⟨⟨by omega, by omega⟩, fun _ => ⟨by omega, by omega⟩⟩

/-- Two running sequences of one arrival, each about to need a block, one free block, and a
prompt that fits neither before nor after the eviction. -/
def tiedInputs : ScheduleInputs where
  waiting := [⟨9, 2, 0, 40, 0⟩]
  running := [⟨7, 1, 8, 8, 1⟩, ⟨8, 1, 8, 8, 1⟩]
  pool := ⟨1, 3, 8⟩
  config := ⟨4, 64⟩

theorem tiedInputs_valid : Valid tiedInputs := by
  refine ⟨by decide, by decide, by decide, by decide, ?_, ?_⟩
  · intro s hs
    rcases List.mem_pair.mp hs with rfl | rfl <;> decide
  · intro s hs
    rw [List.mem_singleton.mp hs]
    decide

instance (x : Int) : Decidable (FitsInt64 x) := inferInstanceAs (Decidable (_ ∧ _))

theorem schedule_specified_tied :
    (schedule int64 tiedInputs).Returns (MeetsSpecification tiedInputs) ↔ SumsFit tiedInputs :=
  schedule_specified tiedInputs_valid ⟨by decide, by decide, by decide, by decide⟩

/-- The later position goes first. -/
example : schedule int64 tiedInputs = .ok ⟨[], [7], [8]⟩ := by decide

/-- Two prompts, the second of the largest length there is. -/
def hugeInputs : ScheduleInputs where
  waiting := [⟨1, 0, 0, 1, 0⟩, ⟨2, 1, 0, 2 ^ 63 - 1, 0⟩]
  running := []
  pool := ⟨4, 4, 8⟩
  config := ⟨4, 2048⟩

/-- The tokens of the two prompts leave their type before they are held against the budget. -/
theorem schedule_overflows : Valid hugeInputs ∧ Typed FitsInt64 hugeInputs ∧
    ¬(schedule int64 hugeInputs).Returns (MeetsSpecification hugeInputs) := by
  refine ⟨⟨by decide, by decide, by decide, by decide, ?_, ?_⟩,
    ⟨by decide, by decide, by decide, by decide⟩, ?_⟩
  · intro s hs
    cases hs
  · intro s hs
    rcases List.mem_pair.mp hs with rfl | rfl <;> decide
  · rintro ⟨out, hout, -⟩
    have hover : schedule int64 hugeInputs = .error .signedOverflow := by decide
    rw [hover] at hout
    cases hout

end Scheduler

end InferenceEngine
