/-
What the units of the attention kernels write.

The rows of the output are numbered.  A stretch of a kernel is described by a list of jobs, each
of which is the number of a row and what the row and its journal come to; rows that have no job
stay as they were.  Jobs for different rows do not get in each other's way, so the jobs of a loop
are those of its turns.  The heads of a group slice advance in turns, but each of them only
advances its own row.
-/
import InferenceEngine.Proofs.Attention
import Mathlib.Data.List.Flatten

namespace InferenceEngine

open Except Stores

namespace Attention

variable {β γ σ : Type} {ops : Ops β} {w w' w₀ w₁ : Work β} {out : Int} {d : Nat}

/-- What a row and its journal come to. -/
structure Done (β : Type) where
  row : List β
  journal : Journal β

/-- Where row `r` begins. -/
def rowAt (out : Int) (d r : Nat) : Int := out + (r * d : Nat)

theorem rows_apart {r r' : Nat} (h : r ≠ r') {i : Int}
    (hi : rowAt out d r ≤ i ∧ i < rowAt out d r + d) :
    ¬(rowAt out d r' ≤ i ∧ i < rowAt out d r' + d) := by
  unfold rowAt at hi ⊢
  intro hi'
  rcases Nat.lt_or_gt_of_ne h with hlt | hlt
  · have hle : (r + 1) * d ≤ r' * d := Nat.mul_le_mul_right d hlt
    rw [Nat.succ_mul] at hle
    omega
  · have hle : (r' + 1) * d ≤ r * d := Nat.mul_le_mul_right d hlt
    rw [Nat.succ_mul] at hle
    omega

theorem rowAt_ne {r r' : Nat} (hd : 0 < d) (h : r ≠ r') : rowAt out d r ≠ rowAt out d r' := by
  intro heq
  refine rows_apart h (show rowAt out d r ≤ rowAt out d r ∧ rowAt out d r < rowAt out d r + d from
    ⟨le_rfl, by omega⟩) ?_
  rw [heq]
  exact ⟨le_rfl, by omega⟩

/-- The rows that have a job are done, and nothing else has changed. -/
structure Work.Written (w₀ w : Work β) (out : Int) (d : Nat) (jobs : List (Nat × Done β)) :
    Prop where
  row : ∀ x ∈ jobs, w.Row (rowAt out d x.1) d x.2.row
  journal : ∀ x ∈ jobs,
    w.journal (rowAt out d x.1) = (w₀.journal (rowAt out d x.1)).append x.2.journal
  outOther : ∀ i, (∀ x ∈ jobs, ¬(rowAt out d x.1 ≤ i ∧ i < rowAt out d x.1 + d)) →
    w.out i = w₀.out i
  journalOther : ∀ q, (∀ x ∈ jobs, q ≠ rowAt out d x.1) → w.journal q = w₀.journal q

namespace Work.Written

variable {jobs jobs' : List (Nat × Done β)}

theorem nil (w : Work β) : w.Written w out d [] where
  row := by simp
  journal := by simp
  outOther _ _ := rfl
  journalOther _ _ := rfl

theorem of_advances {r : Nat} {x : Done β}
    (h : w.Advances w' (rowAt out d r) d x.row x.journal) : w.Written w' out d [(r, x)] where
  row y hy := by
    rw [List.mem_singleton] at hy
    rw [hy]
    exact h.row
  journal y hy := by
    rw [List.mem_singleton] at hy
    rw [hy]
    exact h.journal
  outOther i hi := h.outOther i (hi (r, x) (by simp))
  journalOther q hq := h.journalOther q (hq (r, x) (by simp))

theorem allocated (h : w₀.Written w out d jobs) {p : Int} (ha : w₀.Allocated p d) :
    w.Allocated p d := by
  intro e he
  by_cases hx : ∃ x ∈ jobs, rowAt out d x.1 ≤ p + e ∧ p + e < rowAt out d x.1 + d
  · obtain ⟨x, hx, hlo, hhi⟩ := hx
    have hsome := (h.row x hx).allocated (p + e - rowAt out d x.1).toNat (by omega)
    have heq : rowAt out d x.1 + ((p + e - rowAt out d x.1).toNat : Int) = p + e := by omega
    rwa [heq] at hsome
  · rw [h.outOther _ fun x hxm hc => hx ⟨x, hxm, hc⟩]
    exact ha e he

/-- Jobs for other rows may follow. -/
theorem append (hd : 0 < d) (h : w₀.Written w₁ out d jobs) (h' : w₁.Written w out d jobs')
    (hdisj : ∀ x ∈ jobs, ∀ y ∈ jobs', x.1 ≠ y.1) : w₀.Written w out d (jobs ++ jobs') where
  row x hx := by
    rcases List.mem_append.mp hx with hx | hx
    · refine ⟨(h.row x hx).length, fun e he => ?_⟩
      rw [h'.outOther _ fun y hy => rows_apart (hdisj x hx y hy) ⟨by omega, by omega⟩]
      exact (h.row x hx).cells e he
    · exact h'.row x hx
  journal x hx := by
    rcases List.mem_append.mp hx with hx | hx
    · rw [h'.journalOther _ fun y hy => rowAt_ne hd (hdisj x hx y hy)]
      exact h.journal x hx
    · rw [h'.journal x hx,
        h.journalOther _ fun y hy => rowAt_ne hd (Ne.symm (hdisj y hy x hx))]
  outOther i hi := by
    rw [h'.outOther i fun y hy => hi y (List.mem_append_right _ hy),
      h.outOther i fun x hx => hi x (List.mem_append_left _ hx)]
  journalOther q hq := by
    rw [h'.journalOther q fun y hy => hq y (List.mem_append_right _ hy),
      h.journalOther q fun x hx => hq x (List.mem_append_left _ hx)]

/-- The order of the jobs does not matter. -/
theorem perm (h : w₀.Written w out d jobs) (hp : jobs.Perm jobs') :
    w₀.Written w out d jobs' where
  row x hx := h.row x (hp.mem_iff.mpr hx)
  journal x hx := h.journal x (hp.mem_iff.mpr hx)
  outOther i hi := h.outOther i fun x hx => hi x (hp.mem_iff.mp hx)
  journalOther q hq := h.journalOther q fun x hx => hq x (hp.mem_iff.mp hx)

/-- One row may be looked at by itself: seen from a suitable beginning nothing but this row has
advanced, and if it advances further, so does its job. -/
theorem focus {f : Nat → Done β} {r0 n k : Nat} (hd : 0 < d) (hk : k < n)
    (h : w₀.Written w out d ((List.range n).map fun i => (r0 + i, f i))) :
    ∃ base : Work β, base.Advances w (rowAt out d (r0 + k)) d (f k).row (f k).journal ∧
      ∀ (w' : Work β) (x : Done β), base.Advances w' (rowAt out d (r0 + k)) d x.row x.journal →
        w₀.Written w' out d ((List.range n).map fun i => (r0 + i, Function.update f k x i)) := by
  have hmem : (r0 + k, f k) ∈ (List.range n).map fun i => (r0 + i, f i) :=
    List.mem_map.mpr ⟨k, List.mem_range.mpr hk, rfl⟩
  have hrow := h.row _ hmem
  have hjournal := h.journal _ hmem
  refine ⟨⟨fun i => if rowAt out d (r0 + k) ≤ i ∧ i < rowAt out d (r0 + k) + d then w₀.out i
      else w.out i, fun q => if q = rowAt out d (r0 + k) then w₀.journal q else w.journal q⟩,
    ⟨hrow, ?_, fun i hi => (if_neg hi).symm, fun q hq => (if_neg hq).symm⟩, ?_⟩
  · rw [hjournal]
    simp
  · intro w' x hx
    have hother : ∀ i < n, i ≠ k →
        w'.Row (rowAt out d (r0 + i)) d (f i).row ∧
        w'.journal (rowAt out d (r0 + i)) =
          (w₀.journal (rowAt out d (r0 + i))).append (f i).journal := by
      intro i hi hik
      have hmem : (r0 + i, f i) ∈ (List.range n).map fun i => (r0 + i, f i) :=
        List.mem_map.mpr ⟨i, List.mem_range.mpr hi, rfl⟩
      have hne : r0 + i ≠ r0 + k := by omega
      refine ⟨⟨(h.row _ hmem).length, fun e he => ?_⟩, ?_⟩
      · have hout : ¬(rowAt out d (r0 + k) ≤ rowAt out d (r0 + i) + e ∧
            rowAt out d (r0 + i) + e < rowAt out d (r0 + k) + d) :=
          rows_apart hne ⟨by omega, by omega⟩
        rw [hx.outOther _ hout]
        simp only [if_neg hout]
        exact (h.row _ hmem).cells e he
      · have hq : rowAt out d (r0 + i) ≠ rowAt out d (r0 + k) := rowAt_ne hd hne
        rw [hx.journalOther _ hq]
        simp only [if_neg hq]
        exact h.journal _ hmem
    refine ⟨?_, ?_, ?_, ?_⟩
    · intro y hy
      obtain ⟨i, hi, rfl⟩ := List.mem_map.mp hy
      by_cases hik : i = k
      · rw [hik, Function.update_self]
        exact hx.row
      · rw [Function.update_of_ne hik]
        exact (hother i (List.mem_range.mp hi) hik).1
    · intro y hy
      obtain ⟨i, hi, rfl⟩ := List.mem_map.mp hy
      by_cases hik : i = k
      · rw [hik, Function.update_self, hx.journal]
        simp
      · rw [Function.update_of_ne hik]
        exact (hother i (List.mem_range.mp hi) hik).2
    · intro i hi
      have hall : ∀ y ∈ (List.range n).map fun i => (r0 + i, f i),
          ¬(rowAt out d y.1 ≤ i ∧ i < rowAt out d y.1 + d) := by
        intro y hy
        obtain ⟨m, hm, rfl⟩ := List.mem_map.mp hy
        exact hi (r0 + m, Function.update f k x m) (List.mem_map.mpr ⟨m, hm, rfl⟩)
      have hk' := hall _ hmem
      rw [hx.outOther i hk']
      simp only [if_neg hk']
      exact h.outOther i hall
    · intro q hq
      have hall : ∀ y ∈ (List.range n).map fun i => (r0 + i, f i), q ≠ rowAt out d y.1 := by
        intro y hy
        obtain ⟨m, hm, rfl⟩ := List.mem_map.mp hy
        exact hq (r0 + m, Function.update f k x m) (List.mem_map.mpr ⟨m, hm, rfl⟩)
      have hk' := hall _ hmem
      rw [hx.journalOther q hk']
      simp only [if_neg hk']
      exact h.journalOther q hall

end Work.Written

/-- **The jobs of a loop are those of its turns.** -/
theorem jobsLoop_ok (work : σ → Work β) (good : σ → Prop) {f : σ → γ → Checked σ} {l : List γ}
    (jobs : γ → List (Nat × Done β)) (hd : 0 < d)
    (hnodup : ((l.flatMap jobs).map Prod.fst).Nodup)
    (step : ∀ x ∈ l, ∀ s, good s →
      (∀ y ∈ jobs x, (work s).Allocated (rowAt out d y.1) d) →
      (f s x).Returns fun s' => good s' ∧ (work s).Written (work s') out d (jobs x))
    {s : σ} (hs : good s)
    (halloc : ∀ y ∈ l.flatMap jobs, (work s).Allocated (rowAt out d y.1) d) :
    (l.foldlM f s).Returns fun s' =>
      good s' ∧ (work s).Written (work s') out d (l.flatMap jobs) := by
  refine Returns.foldlM_visited
    (fun visited s' => good s' ∧ (work s).Written (work s') out d (visited.flatMap jobs)) ?_
    ⟨hs, Work.Written.nil _⟩
  rintro visited x rest s' hl ⟨hgood, hwritten⟩
  have hx : x ∈ l := by
    rw [hl]
    simp
  refine (step x hx s' hgood fun y hy => ?_).mono ?_
  · exact hwritten.allocated (halloc y (List.mem_flatMap.mpr ⟨x, hx, hy⟩))
  · rintro s'' ⟨hgood', hwritten'⟩
    refine ⟨hgood', ?_⟩
    rw [List.flatMap_append, List.flatMap_singleton]
    refine hwritten.append hd hwritten' fun y hy z hz => ?_
    rw [hl, List.flatMap_append, List.flatMap_cons, List.map_append, List.map_append,
      List.nodup_append] at hnodup
    exact hnodup.2.2 y.1 (List.mem_map_of_mem hy) z.1
      (List.mem_append_left _ (List.mem_map_of_mem hz))

/-! ### Queries

A query sees a number of keys and values.  What a kernel does for its row depends on these
alone: neither the array they are read from nor the unit the query is in matters. -/

/-- What a query attends to: `count` keys and values. -/
structure Query (β : Type) where
  q : List β
  k : Nat → List β
  v : Nat → List β
  count : Nat
  scale : β

namespace Query

section

variable [LT β] [DecidableLT β] (ops : Ops β) (top : List β → β) (x : Query β)

/-- How many keys the block that begins at `kb` has. -/
def width (kb : Nat) : Nat := min kAttnKb (x.count - kb)

/-- Something of each key of the block that begins at `kb`. -/
def ofBlock {γ : Type} (f : Nat → γ) (kb : Nat) : List γ :=
  (List.range (x.width kb)).map fun i => f (kb + i)

/-- The scores of the block that begins at `kb`. -/
def scores (kb : Nat) : List β := x.ofBlock (fun i => ops.score x.q (x.k i) x.scale) kb

/-- The blocks that begin at these keys have been taken in; `top` is how a kernel finds the
maximum of the scores of a block. -/
def pass (d : Nat) (kbs : List Nat) : Pass β :=
  kbs.foldl (fun a kb =>
    a.takeIn ops (top (x.scores ops kb)) (x.scores ops kb) (x.ofBlock x.v kb)) (Pass.begin ops d)

/-- **What a query comes to.** -/
def result (d : Nat) : Pass β := (x.pass ops top d (strided x.count kAttnKb)).finish ops

/-- The same with the reads of a kernel. -/
def progress (d : Nat) (kAt vAt : Nat → Int) (table : Nat → List Int) (kbs : List Nat) :
    Progress β :=
  ⟨x.pass ops top d kbs, kbs.flatMap (x.ofBlock kAt), kbs.flatMap (x.ofBlock vAt),
    kbs.flatMap table⟩

/-- What the row of a query and its journal come to. -/
def done (d : Nat) (kAt vAt : Nat → Int) (table : List Int) : Done β :=
  ⟨(x.result ops top d).row,
    ⟨(x.result ops top d).calls, (List.range x.count).map kAt, (List.range x.count).map vAt, table⟩⟩

theorem progress_append (d : Nat) (kAt vAt : Nat → Int) (table : Nat → List Int)
    (kbs : List Nat) (kb : Nat) :
    x.progress ops top d kAt vAt table (kbs ++ [kb]) =
      (x.progress ops top d kAt vAt table kbs).takeIn ops (top (x.scores ops kb))
        (x.scores ops kb) (x.ofBlock x.v kb) (x.ofBlock kAt kb) (x.ofBlock vAt kb)
        (table kb) := by
  simp [progress, Progress.takeIn, pass]

end

variable (x : Query β)

/-- The blocks, one after the other, are all the keys. -/
theorem flatMap_ofBlock (f : Nat → γ) :
    (strided x.count kAttnKb).flatMap (x.ofBlock f) = (List.range x.count).map f := by
  have hblock : ∀ kb ∈ strided x.count kAttnKb,
      x.ofBlock f kb = (span kb (min (kb + kAttnKb) x.count)).map f := by
    intro kb _
    rw [span_eq_map, List.map_map, ofBlock, width]
    congr 2
    omega
  rw [List.flatMap_congr hblock, ← List.map_flatMap, flatMap_strided _ (by decide)]

theorem lt_of_mem_strided {kb : Nat} (h : kb ∈ strided x.count kAttnKb) : kb < x.count := by
  obtain ⟨i, hi, rfl⟩ := List.mem_map.mp h
  exact lt_blocks (List.mem_range.mp hi)

end Query

/-- `n_valid` of a block that begins in front of the causal boundary. -/
theorem nValid_eq {limit : Int} {lDim count kb : Nat} (hcount : limit + 1 = count)
    (hle : count ≤ lDim) (hkb : kb < count) : nValid limit lDim kb = min kAttnKb (count - kb) := by
  rw [nValid]
  omega

/-- Part of the rows that follow one another. -/
theorem Finds.drop {y : ConstFloats β} {n m kb : Nat} {rows : Nat → List β} {at_ : Nat → Int}
    (h : Finds y d n rows at_) (hm : kb + m ≤ n) :
    Finds (y.advance (kb * d : Nat)) d m (fun i => rows (kb + i)) (fun i => at_ (kb + i)) := by
  intro i hi
  have hrow := h (kb + i) (by omega)
  have hoffset : y.offset + (kb * d : Nat) + (i * d : Nat) = y.offset + ((kb + i) * d : Nat) := by
    rw [Nat.add_mul]
    omega
  refine ⟨?_, ?_⟩
  · have heq : (y.advance (kb * d : Nat)).advance (i * d : Nat) =
        y.advance ((kb + i) * d : Nat) := by
      simp only [ConstFloats.advance, hoffset]
    rw [heq]
    exact hrow.1
  · exact hoffset.trans hrow.2

/-! ### Prefill

The causal boundary of a query decides how many keys it has.  The blocks beyond it are skipped
and the one across it is clipped, which leaves the query its keys in blocks of 64. -/

section

variable [LT β] [DecidableLT β] (ops) {a : PrefillArgs β} {top : List β → β}

/-- The division by the denominator. -/
theorem Query.finish_ok {p : Int} {x : Query β} {kAt vAt : Nat → Int} {table : Nat → List Int}
    (h : w₀.Advances w p d (x.progress ops top d kAt vAt table (strided x.count kAttnKb)).pass.row
      (x.progress ops top d kAt vAt table (strided x.count kAttnKb)).journal) :
    (scaleRow ops p (ops.div ops.one (x.pass ops top d (strided x.count kAttnKb)).run.den) d
      w).Returns fun w' =>
      w₀.Advances w' p d
        (x.done ops top d kAt vAt ((strided x.count kAttnKb).flatMap table)).row
        (x.done ops top d kAt vAt ((strided x.count kAttnKb).flatMap table)).journal := by
  refine (scaleRow_advances ops h _).mono fun w' hw' => ?_
  simpa [Query.done, Query.result, Pass.finish, Journal.append, Progress.journal, Query.progress,
    Query.flatMap_ofBlock] using hw'

theorem prefillQuery_ok {h t : Nat} {kHead vHead : ConstFloats β} {s : Stack β × Work β}
    {x : Query β} {kAt vAt : Nat → Int} (hs : s.1.length = kAttnKb)
    (hq : (a.q.advance ((t * a.heads + h) * a.d : Nat)).row a.d = .ok x.q)
    (hscale : x.scale = a.scale) (hcount : a.past + t + 1 = x.count) (hle : x.count ≤ a.lDim)
    (hk : Finds kHead a.d x.count x.k kAt) (hv : Finds vHead a.d x.count x.v vAt)
    (halloc : s.2.Allocated (rowAt a.out a.d (t * a.heads + h)) a.d) :
    (prefillQuery ops a h kHead vHead s t).Returns fun s' =>
      s'.1.length = kAttnKb ∧
      s.2.Written s'.2 a.out a.d [(t * a.heads + h, x.done ops (rowMax ops) a.d kAt vAt [])] := by
  have hlimit : (a.past + (t : Int) + 1).toNat = x.count := by omega
  rw [prefillQuery]
  refine Returns.bind (clearRow_advances ops halloc) fun w₁ h₁ => ?_
  dsimp only
  rw [hlimit]
  have hbegin : (QueryState.mk ⟨ops.negInf, ops.zero⟩ s.1 w₁).At s.2
      (rowAt a.out a.d (t * a.heads + h)) a.d
      (x.progress ops (rowMax ops) a.d kAt vAt (fun _ => []) []) :=
    ⟨rfl, hs, h₁⟩
  have hloop := Returns.foldlM_visited
    (f := fun s kb => contiguousBlock ops (rowAt a.out a.d (t * a.heads + h))
      (a.q.advance ((t * a.heads + h) * a.d : Nat)) (kHead.advance (kb * a.d : Nat))
      (vHead.advance (kb * a.d : Nat)) (nValid (a.past + t) a.lDim kb) a.d a.scale s)
    (l := strided x.count kAttnKb)
    (fun kbs s' => s'.At s.2 (rowAt a.out a.d (t * a.heads + h)) a.d
      (x.progress ops (rowMax ops) a.d kAt vAt (fun _ => []) kbs))
    (fun visited kb rest s' hl hat => by
      have hkb : kb < x.count := x.lt_of_mem_strided (by rw [hl]; simp)
      have hwidth : nValid (a.past + t) a.lDim kb = x.width kb := nValid_eq hcount hle hkb
      have hfit : kb + x.width kb ≤ x.count := by
        rw [Query.width]
        omega
      rw [hwidth, x.progress_append, ← hscale]
      exact contiguousBlock_ok ops hat (Nat.min_le_left _ _) hq (hk.drop hfit) (hv.drop hfit))
    hbegin
  refine Returns.bind hloop fun s' hat => ?_
  have hden : s'.run.den = (x.pass ops (rowMax ops) a.d (strided x.count kAttnKb)).run.den := by
    rw [hat.run]
    rfl
  have htable : (strided x.count kAttnKb).flatMap (fun _ => ([] : List Int)) = [] :=
    List.flatMap_eq_nil_iff.mpr fun _ _ => rfl
  rw [hden]
  refine Returns.bind (Query.finish_ok ops hat.work) fun w₂ h₂ => ?_
  rw [htable] at h₂
  exact returns_pure ⟨hat.scores, Work.Written.of_advances h₂⟩

end

/-- The cells that are there. -/
def ConstFloats.Holds (y : ConstFloats β) (n : Nat) : Prop :=
  ∀ i < n, (y.cells (y.offset + i)).isSome

/-- The row that begins there. -/
def ConstFloats.rowD (y : ConstFloats β) (d : Nat) : List β := (y.row d).toOption.getD []

theorem ConstFloats.Holds.row_eq {y : ConstFloats β} (h : y.Holds d) :
    y.row d = .ok (y.rowD d) := by
  have hread : ∀ e ∈ List.range d, (y.read (e : Nat)).Returns fun _ => True := by
    intro e he
    obtain ⟨v, hv⟩ := Option.isSome_iff_exists.mp (h e (List.mem_range.mp he))
    refine ⟨v, ?_, trivial⟩
    simp only [ConstFloats.read, hv]
  obtain ⟨row, hrow, -⟩ := Returns.mapM hread
  have hrow : y.row d = .ok row := hrow
  rw [ConstFloats.rowD, hrow]
  rfl

theorem ConstFloats.Holds.row {y : ConstFloats β} {n first : Nat} (h : y.Holds n)
    (hfit : first + d ≤ n) :
    (y.advance first).row d = .ok ((y.advance first).rowD d) := by
  refine Holds.row_eq fun e he => ?_
  have hsome := h (first + e) (by omega)
  rwa [Int.natCast_add, ← Int.add_assoc] at hsome

theorem ConstFloats.Holds.finds {y : ConstFloats β} {n first : Nat} (h : y.Holds n) {count : Nat}
    (hfit : first + count * d ≤ n) :
    Finds (y.advance first) d count
      (fun i => (y.advance (first + i * d : Nat)).rowD d)
      (fun i => y.offset + (first + i * d : Nat)) := by
  intro i hi
  have hle : (i + 1) * d ≤ count * d := Nat.mul_le_mul_right d hi
  rw [Nat.succ_mul] at hle
  have heq : (y.advance first).advance (i * d : Nat) = y.advance (first + i * d : Nat) := by
    simp only [ConstFloats.advance, Int.natCast_add, Int.add_assoc]
  rw [heq]
  refine ⟨h.row (by omega), ?_⟩
  simp only [ConstFloats.advance, Int.natCast_add, Int.add_assoc]

namespace PrefillArgs

/-- What query `t` of head `h` attends to. -/
def query (a : PrefillArgs β) (h t : Nat) : Query β where
  q := (a.q.advance ((t * a.heads + h) * a.d : Nat)).rowD a.d
  k s := (a.k.advance (h / a.group * a.lDim * a.d + s * a.d : Nat)).rowD a.d
  v s := (a.v.advance (h / a.group * a.lDim * a.d + s * a.d : Nat)).rowD a.d
  count := (a.past + t + 1).toNat
  scale := a.scale

/-- Where key `s` of head `h` is. -/
def keyAt (a : PrefillArgs β) (h s : Nat) : Int :=
  a.k.offset + (h / a.group * a.lDim * a.d + s * a.d : Nat)

/-- Where value `s` of head `h` is. -/
def valueAt (a : PrefillArgs β) (h s : Nat) : Int :=
  a.v.offset + (h / a.group * a.lDim * a.d + s * a.d : Nat)

/-- The rows of a unit. -/
def unitRows (a : PrefillArgs β) (unit : Nat) : List (Nat × Nat) :=
  let q0 := unit % a.numQblocks * kAttnQb
  (span q0 (min (q0 + kAttnQb) a.tDim)).map fun t => (unit / a.numQblocks, t)

/-- What the row of query `t` of head `h` comes to. -/
def job [LT β] [DecidableLT β] (ops : Ops β) (a : PrefillArgs β) (x : Nat × Nat) :
    Nat × Done β :=
  (x.2 * a.heads + x.1,
    (a.query x.1 x.2).done ops (rowMax ops) a.d (a.keyAt x.1) (a.valueAt x.1) [])

/-- What a caller promises. -/
structure Legal (a : PrefillArgs β) (kvHeads : Nat) : Prop where
  d : 0 < a.d
  past : a.past = (a.lDim : Int) - a.tDim
  length : a.tDim ≤ a.lDim
  qblocks : a.numQblocks = blocks a.tDim kAttnQb
  heads : ∀ h < a.heads, h / a.group < kvHeads
  q : a.q.Holds (a.tDim * a.heads * a.d)
  k : a.k.Holds (kvHeads * a.lDim * a.d)
  v : a.v.Holds (kvHeads * a.lDim * a.d)

variable {a : PrefillArgs β}

/-- **The units of a call make up its rows**, each of which is in one of them. -/
theorem unitRows_perm (hq : a.numQblocks = blocks a.tDim kAttnQb) :
    (((List.range (a.heads * a.numQblocks)).flatMap a.unitRows).map
      fun x => x.2 * a.heads + x.1).Perm (List.range (a.tDim * a.heads)) := by
  have hgrid : ((List.range (a.heads * a.numQblocks)).flatMap a.unitRows).map
      (fun x => x.2 * a.heads + x.1) =
      (List.range a.heads).flatMap fun h => (List.range a.tDim).flatMap fun t =>
        [t * a.heads + h] := by
    rw [List.map_flatMap]
    have hunit : ∀ u, (a.unitRows u).map (fun x => x.2 * a.heads + x.1) =
        (span (u % a.numQblocks * kAttnQb) (min (u % a.numQblocks * kAttnQb + kAttnQb)
          a.tDim)).flatMap fun t => [t * a.heads + u / a.numQblocks] := by
      intro u
      rw [unitRows, List.map_map, List.map_eq_flatMap]
      rfl
    rw [List.flatMap_congr fun u _ => hunit u,
      flatMap_grid a.heads a.numQblocks fun h qb =>
        (span (qb * kAttnQb) (min (qb * kAttnQb + kAttnQb) a.tDim)).flatMap fun t =>
          [t * a.heads + h]]
    refine List.flatMap_congr fun h _ => ?_
    rw [← List.flatMap_assoc, hq, flatMap_blocks _ (by decide)]
  rw [hgrid]
  refine (flatMap_swap _ _ fun h t => [t * a.heads + h]).trans (List.Perm.of_eq ?_)
  rw [← flatMap_grid a.tDim a.heads fun t h => [t * a.heads + h]]
  calc ((List.range (a.tDim * a.heads)).flatMap fun i => [i / a.heads * a.heads + i % a.heads])
      = (List.range (a.tDim * a.heads)).flatMap fun i => [i] :=
        List.flatMap_congr fun i _ => by rw [Nat.div_add_mod']
    _ = List.range (a.tDim * a.heads) := by
        rw [← List.map_eq_flatMap, List.map_id']

theorem mem_unitRows {unit : Nat} (hunit : unit < a.heads * a.numQblocks) {x : Nat × Nat}
    (hx : x ∈ a.unitRows unit) :
    x.1 = unit / a.numQblocks ∧ x.1 < a.heads ∧ x.2 < a.tDim := by
  obtain ⟨t, ht, rfl⟩ := List.mem_map.mp hx
  have ht := mem_span.mp ht
  exact ⟨rfl, Nat.div_lt_of_lt_mul (by rwa [Nat.mul_comm]), by omega⟩

end PrefillArgs

section

variable [LT β] [DecidableLT β] (ops) {a : PrefillArgs β} {kvHeads : Nat}

theorem prefillUnit_ok (ha : a.Legal kvHeads) {unit : Nat} (hunit : unit < a.heads * a.numQblocks)
    {s : Stack β × Work β} (hs : s.1.length = kAttnKb)
    (halloc : ∀ y ∈ (a.unitRows unit).map (a.job ops), s.2.Allocated (rowAt a.out a.d y.1) a.d) :
    (prefillUnit ops a s unit).Returns fun s' =>
      s'.1.length = kAttnKb ∧
      s.2.Written s'.2 a.out a.d ((a.unitRows unit).map (a.job ops)) := by
  have hjobs : (a.unitRows unit).map (a.job ops) =
      (span (unit % a.numQblocks * kAttnQb)
        (min (unit % a.numQblocks * kAttnQb + kAttnQb) a.tDim)).flatMap
        fun t => [a.job ops (unit / a.numQblocks, t)] := by
    rw [PrefillArgs.unitRows, List.map_map, List.map_eq_flatMap]
    rfl
  have hmem : ∀ t ∈ span (unit % a.numQblocks * kAttnQb)
      (min (unit % a.numQblocks * kAttnQb + kAttnQb) a.tDim),
      (unit / a.numQblocks, t) ∈ a.unitRows unit := by
    intro t ht
    exact List.mem_map.mpr ⟨t, ht, rfl⟩
  have hnodup : (((span (unit % a.numQblocks * kAttnQb)
      (min (unit % a.numQblocks * kAttnQb + kAttnQb) a.tDim)).flatMap
      fun t => [a.job ops (unit / a.numQblocks, t)]).map Prod.fst).Nodup := by
    rw [← hjobs, List.map_map]
    refine ((a.unitRows_perm ha.qblocks).nodup_iff.mpr List.nodup_range).sublist ?_
    rw [List.map_flatMap]
    rw [List.flatMap_def]
    exact List.sublist_flatten_of_mem
      (List.mem_map.mpr ⟨unit, List.mem_range.mpr hunit, rfl⟩)
  rw [hjobs] at halloc ⊢
  refine jobsLoop_ok (fun s : Stack β × Work β => s.2) (fun s => s.1.length = kAttnKb) _ ha.d hnodup
    ?_ hs halloc
  intro t ht s hs halloc
  obtain ⟨-, hh, htd⟩ := a.mem_unitRows hunit (hmem t ht)
  have hpast := ha.past
  have hlength := ha.length
  have hcount : a.past + t + 1 = (a.query (unit / a.numQblocks) t).count := by
    show _ = (((a.past + t + 1).toNat : Nat) : Int)
    omega
  have hle : (a.query (unit / a.numQblocks) t).count ≤ a.lDim := by omega
  have hq : (t * a.heads + unit / a.numQblocks) * a.d + a.d ≤ a.tDim * a.heads * a.d := by
    have hrow : t * a.heads + unit / a.numQblocks + 1 ≤ a.tDim * a.heads := by
      have hmul : (t + 1) * a.heads ≤ a.tDim * a.heads := Nat.mul_le_mul_right _ htd
      rw [Nat.succ_mul] at hmul
      omega
    have hmul := Nat.mul_le_mul_right a.d hrow
    rwa [Nat.succ_mul] at hmul
  have hkv : unit / a.numQblocks / a.group * a.lDim * a.d +
      (a.query (unit / a.numQblocks) t).count * a.d ≤ kvHeads * a.lDim * a.d := by
    have hmul : (unit / a.numQblocks / a.group + 1) * a.lDim ≤ kvHeads * a.lDim :=
      Nat.mul_le_mul_right _ (ha.heads _ hh)
    rw [Nat.succ_mul] at hmul
    rw [← Nat.add_mul]
    exact Nat.mul_le_mul_right a.d (by omega)
  exact prefillQuery_ok ops hs (ha.q.row hq) rfl hcount hle (ha.k.finds hkv) (ha.v.finds hkv)
    (halloc (a.job ops (unit / a.numQblocks, t)) (by simp))

/-- **The units of a prefill call write the rows of their queries.** -/
theorem prefillUnitsImpl_ok (ha : a.Legal kvHeads) (unitBegin : Nat) {unitEnd : Nat}
    (hend : unitEnd ≤ a.heads * a.numQblocks)
    (halloc : ∀ r < a.tDim * a.heads, w.Allocated (rowAt a.out a.d r) a.d) :
    (prefillUnitsImpl ops a unitBegin unitEnd w).Returns fun w' =>
      w.Written w' a.out a.d
        ((span unitBegin unitEnd).flatMap fun unit => (a.unitRows unit).map (a.job ops)) := by
  have hmem : ∀ unit ∈ span unitBegin unitEnd, unit < a.heads * a.numQblocks := by
    intro unit hunit
    have := mem_span.mp hunit
    omega
  have hnodup : (((span unitBegin unitEnd).flatMap fun unit =>
      (a.unitRows unit).map (a.job ops)).map Prod.fst).Nodup := by
    have hall := (a.unitRows_perm ha.qblocks).nodup_iff.mpr List.nodup_range
    rw [List.map_flatMap] at hall ⊢
    refine hall.sublist ?_
    have hsub : (span unitBegin unitEnd).Sublist (List.range (a.heads * a.numQblocks)) := by
      by_cases hle : unitBegin ≤ unitEnd
      · exact (List.sublist_append_right _ _).trans
          ((range_append_span hle).symm ▸ List.range_sublist.mpr hend)
      · rw [span, show unitEnd - unitBegin = 0 by omega]
        exact List.nil_sublist _
    have hflat := hsub.flatMap (fun u => (a.unitRows u).map fun x => x.2 * a.heads + x.1)
    simpa [List.map_map, Function.comp_def, PrefillArgs.job] using hflat
  refine Returns.bind (jobsLoop_ok (fun s : Stack β × Work β => s.2)
    (fun s => s.1.length = kAttnKb) _ ha.d hnodup
    (fun unit hunit s hs hal => prefillUnit_ok ops ha (hmem unit hunit) hs hal)
    (s := (List.replicate kAttnKb none, w)) List.length_replicate ?_) fun s' hs' => ?_
  · intro y hy
    obtain ⟨unit, hunit, hy⟩ := List.mem_flatMap.mp hy
    obtain ⟨x, hx, rfl⟩ := List.mem_map.mp hy
    refine halloc _ ?_
    have hr : x.2 * a.heads + x.1 ∈ List.range (a.tDim * a.heads) :=
      (a.unitRows_perm ha.qblocks).mem_iff.mp (List.mem_map.mpr
        ⟨x, List.mem_flatMap.mpr ⟨unit, List.mem_range.mpr (hmem unit hunit), hx⟩, rfl⟩)
    exact List.mem_range.mp hr
  · exact returns_pure hs'.2

end

end Attention

end InferenceEngine
