/-
Attention in one pass and in two.

The kernel takes in the keys of a query in blocks and keeps a running maximum; the reference
writes out all scores, takes the softmax of each row and adds up the values.  Over a field both
are the weighted average of the values up to the causal boundary, whatever the references of the
weights are.
-/
import InferenceEngine.Proofs.CpuAttention
import InferenceEngine.Proofs.OnlineSoftmax
import InferenceEngine.Proofs.RaggedAttention
import Mathlib.Analysis.Complex.Exponential

namespace InferenceEngine

open Except OnlineSoftmax Parallel Stores Cells

namespace Attention

variable {K : Type} [Field K] [LinearOrder K] (E : Exponential K)

/-! ### The reference

A row of scores is masked beyond the causal boundary.  A masked score has the weight zero, so
the row may be summed as if it ended there. -/

section

variable {X : Nat → WithBot K} {x V : Nat → K} {n L : Nat}

omit [Field K] in
theorem stdMax_coe (a : K) (b : WithBot K) : ∃ M : K, stdMax (a : WithBot K) b = M := by
  rw [stdMax]
  by_cases h : (a : WithBot K) < b
  · rw [if_pos h]
    cases b with
    | bot => exact absurd h not_lt_bot
    | coe y => exact ⟨y, rfl⟩
  · exact ⟨a, if_neg h⟩

omit [Field K] in
/-- A row that begins with a number has a number as its maximum. -/
theorem rowMaxOf_coe (h0 : X 0 = x 0) (L : Nat) : ∃ M : K, Cpu.rowMaxOf X L = M := by
  have hfold : ∀ (l : List Nat) (a : K), ∃ M : K,
      l.foldl (fun a j => stdMax a (X j)) (a : WithBot K) = M := by
    intro l
    induction l with
    | nil => exact fun a => ⟨a, rfl⟩
    | cons j rest ih =>
        intro a
        obtain ⟨M, hM⟩ := stdMax_coe a (X j)
        rw [List.foldl_cons, hM]
        exact ih M
  rw [Cpu.rowMaxOf, h0]
  exact hfold _ _

omit [LinearOrder K] in
theorem sum_masked (hle : n ≤ L) (f : Nat → K) :
    ∑ s ∈ Finset.range L, (if s < n then f s else 0) = ∑ s ∈ Finset.range n, f s := by
  rw [← Finset.sum_filter]
  refine Finset.sum_congr ?_ fun _ _ => rfl
  ext s
  simp only [Finset.mem_filter, Finset.mem_range]
  omega

/-- **The context of a masked row** is the average of the values in front of the mask. -/
theorem context_average (hn : 0 < n) (hle : n ≤ L) (hX : ∀ s < n, X s = x s)
    (hmask : ∀ s, n ≤ s → X s = ⊥) (V : Nat → K) :
    ∃ m : K, (List.range L).foldl (fun acc s => (fieldFloats E).add acc
        ((fieldFloats E).mul (Cpu.softmaxAt (fieldFloats E) (fieldFloats E).exp X L s) (V s : K)))
          (fieldFloats E).zero = (average E x V m n : K) := by
  obtain ⟨M, hM⟩ := rowMaxOf_coe (hX 0 hn) L
  have hexp : ∀ s, Cpu.expAt (fieldFloats E) (fieldFloats E).exp X L s =
      ((if s < n then E.exp (x s - M) else 0 : K) : WithBot K) := by
    intro s
    rw [Cpu.expAt, hM]
    by_cases hs : s < n
    · rw [hX s hs, if_pos hs]
      rfl
    · rw [hmask s (by omega), if_neg hs]
      rfl
  have hsum : Cpu.expSum (fieldFloats E) (fieldFloats E).exp X L L = (mass E x M n : K) := by
    rw [Cpu.expSum]
    simp only [hexp]
    have hfold := foldl_add E (fun s => if s < n then E.exp (x s - M) else 0) 0 L
    rw [zero_add, sum_masked hle] at hfold
    exact hfold
  refine ⟨M, ?_⟩
  have hterm : ∀ s, (fieldFloats E).mul
      (Cpu.softmaxAt (fieldFloats E) (fieldFloats E).exp X L s) (V s : K) =
      ((if s < n then E.exp (x s - M) * V s * (1 / mass E x M n) else 0 : K) : WithBot K) := by
    intro s
    rw [Cpu.softmaxAt, hexp, hsum]
    show ((_ * (1 / mass E x M n) * V s : K) : WithBot K) = _
    by_cases hs : s < n
    · rw [if_pos hs, if_pos hs, mul_right_comm]
    · rw [if_neg hs, if_neg hs, zero_mul, zero_mul]
  simp only [hterm]
  have hfold := foldl_add E
    (fun s => if s < n then E.exp (x s - M) * V s * (1 / mass E x M n) else 0) 0 L
  rw [zero_add, sum_masked hle, ← Finset.sum_mul, mul_one_div] at hfold
  exact hfold

end

/-! ### The kernel

A single call is the case of a batch with one sequence, so what the units write is known
already.  What remains is to say that its rows are rows of numbers. -/

/-- The arguments of the kernel for the tensors of a call. -/
def kernelArgs {β : Type} (m : Memory β) (c : Cpu.AttentionCall) (scale : β) : PrefillArgs β :=
  prefillArgs ⟨m, c.q⟩ ⟨m, c.k⟩ ⟨m, c.v⟩ c.out c.tDim c.heads c.kvHeads c.d c.lDim scale

section

variable {β : Type} {m : Memory β} {c : Cpu.AttentionCall} {scale : β} {Q Y V O : Nat → β}

theorem kernelArgs_legal (scale : β) (h : c.Legal) (hq : HoldsFloats m c.q c.qSize Q)
    (hk : HoldsFloats m c.k c.kSize Y) (hv : HoldsFloats m c.v c.kSize V) :
    (kernelArgs m c scale).Legal c.kvHeads where
  d := h.d
  past := rfl
  length := h.length
  qblocks := rfl
  heads := h.toDims.kv
  q i hi := by
    show (m (c.q + i)).isSome
    rw [hq i hi]
    rfl
  k i hi := by
    show (m (c.k + i)).isSome
    rw [hk i hi]
    rfl
  v i hi := by
    show (m (c.v + i)).isSome
    rw [hv i hi]
    rfl

/-- A single call is a batch of one. -/
theorem kernel_serves [LT β] [DecidableLT β] (ops : Ops β) {a : PrefillArgs β} {kvHeads : Nat}
    (ha : a.Legal kvHeads) :
    Serves (fun _ => a) (prefillUnitsImpl ops) a.out a.d 1 (fun b => b * (a.tDim * a.heads))
      (fun _ => a.tDim * a.heads) (fun _ => a.heads * a.numQblocks)
      (fun _ u => (a.unitRows u).map (a.job ops)) where
  pos := ha.d
  zero := Nat.zero_mul _
  succ b _ := Nat.succ_mul b _
  perm b _ := by
    have hperm := a.unitRows_perm ha.qblocks
    rw [List.map_flatMap] at hperm ⊢
    simp only [List.map_map]
    exact hperm
  begun b _ u x hx := by
    obtain ⟨y, -, rfl⟩ := List.mem_map.mp hx
    exact Query.begun _ ops _ _ _ _ _
  spec b hb lo hi w hhi halloc := by
    have hb : b = 0 := by omega
    rw [hb, Nat.zero_mul, Nat.zero_mul, Int.natCast_zero, Int.add_zero] at halloc ⊢
    exact prefillUnitsImpl_ok ops ha lo hhi halloc

theorem kernel_count (hc : c.Legal) (h t : Nat) :
    ((kernelArgs m c scale).query h t).count = c.lDim - c.tDim + t + 1 := by
  show (((c.lDim : Int) - c.tDim) + t + 1).toNat = _
  have := hc.length
  omega

/-- A row of numbers that lies in memory. -/
theorem rowD_of_holds {x : Int} {N d first : Nat} {X : Nat → β} (hx : HoldsFloats m x N X)
    (hfit : first + d ≤ N) :
    ((ConstFloats.mk m x).advance (first : Nat)).rowD d =
      (List.range d).map fun e => X (first + e) := by
  have hrow : ((ConstFloats.mk m x).advance (first : Nat)).row d =
      .ok ((List.range d).map fun e => X (first + e)) := by
    refine mapM_ok fun e he => ?_
    have he := List.mem_range.mp he
    have hcell := hx (first + e) (by omega)
    rw [Int.natCast_add, ← Int.add_assoc] at hcell
    simp only [ConstFloats.read, ConstFloats.advance, hcell]
  rw [ConstFloats.rowD, hrow]
  rfl

end

/-! ### Both

The two averages have different references for their weights.  In a field a common factor of the
weights cancels, and the averages are the same. -/

section

variable {m : Memory (WithBot K)} {c : Cpu.AttentionCall} {Q Y V : Nat → K}
  {O : Nat → WithBot K} {scale : K} {h t : Nat}

/-- The score of key `s` for query `t` of head `h`. -/
def realScore (c : Cpu.AttentionCall) (Q Y : Nat → K) (scale : K) (h t s : Nat) : K :=
  (∑ e ∈ Finset.range c.d, Q ((t * c.heads + h) * c.d + e) *
    Y ((h / (c.heads / c.kvHeads) * c.lDim + s) * c.d + e)) * scale

/-- Value `s` for head `h`. -/
def realValue (c : Cpu.AttentionCall) (V : Nat → K) (h s e : Nat) : K :=
  V ((h / (c.heads / c.kvHeads) * c.lDim + s) * c.d + e)

/-- How many keys query `t` attends to. -/
def reach (c : Cpu.AttentionCall) (t : Nat) : Nat := c.lDim - c.tDim + t + 1

theorem foldl_dot (f g : Nat → K) (d : Nat) :
    (List.range d).foldl (fun dot e => (fieldFloats E).add dot
      ((fieldFloats E).mul (f e : WithBot K) (g e : K))) (fieldFloats E).zero =
        ((∑ e ∈ Finset.range d, f e * g e : K) : WithBot K) := by
  have hfold := foldl_add E (fun e => f e * g e) 0 d
  rw [zero_add] at hfold
  exact hfold

/-- The kernel sees numbers. -/
theorem kernel_real (scale : K) (hc : c.Legal) (hh : h < c.heads) (ht : t < c.tDim)
    (hq : HoldsFloats m c.q c.qSize fun i => (Q i : WithBot K))
    (hk : HoldsFloats m c.k c.kSize fun i => (Y i : WithBot K))
    (hv : HoldsFloats m c.v c.kSize fun i => (V i : WithBot K)) :
    ((kernelArgs m c (scale : WithBot K)).query h t).Real E (realScore c Q Y scale h t)
      (realValue c V h) c.d := by
  have hcount : ((kernelArgs m c (scale : WithBot K)).query h t).count = reach c t :=
    kernel_count hc h t
  have hkv := hc.toDims.kv h hh
  have hqFits : (t * c.heads + h) * c.d + c.d ≤ c.qSize := by
    refine Cpu.AttnDims.block_fits ?_
    have hmul := Nat.mul_le_mul_right c.heads ht
    rw [Nat.succ_mul] at hmul
    omega
  have hkFits : ∀ s < reach c t,
      (h / (c.heads / c.kvHeads) * c.lDim + s) * c.d + c.d ≤ c.kSize := by
    intro s hs
    refine Cpu.AttnDims.block_fits ?_
    have hrow : h / (c.heads / c.kvHeads) * c.lDim + c.lDim ≤ c.kvHeads * c.lDim :=
      Cpu.AttnDims.block_fits hkv
    have := hc.length
    rw [reach] at hs
    omega
  have hrow : ∀ s, h / (c.heads / c.kvHeads) * c.lDim * c.d + s * c.d =
      (h / (c.heads / c.kvHeads) * c.lDim + s) * c.d := fun s => (Nat.add_mul _ _ _).symm
  refine ⟨fun s hs => ?_, fun s hs => ?_⟩
  · rw [hcount] at hs
    have hqRow : ((kernelArgs m c (scale : WithBot K)).query h t).q =
        realRow c.d fun e => Q ((t * c.heads + h) * c.d + e) := rowD_of_holds hq hqFits
    have hkRow : ((kernelArgs m c (scale : WithBot K)).query h t).k s =
        realRow c.d fun e => Y ((h / (c.heads / c.kvHeads) * c.lDim + s) * c.d + e) := by
      have hrowD := rowD_of_holds hk (hkFits s hs)
      rw [← hrow s] at hrowD
      rw [← hrow s]
      exact hrowD
    rw [hqRow, hkRow]
    show (fieldFloats E).mul (((realRow c.d _).zip (realRow c.d _)).foldl _ _) _ = _
    rw [realRow, realRow, List.zip_map', List.foldl_map, foldl_dot]
    rfl
  · rw [hcount] at hs
    have hrowD := rowD_of_holds hv (hkFits s hs)
    rw [← hrow s] at hrowD
    have hvalue : realValue c V h s = fun e =>
        V (h / (c.heads / c.kvHeads) * c.lDim * c.d + s * c.d + e) := by
      funext e
      rw [realValue, hrow]
    rw [hvalue]
    exact hrowD

/-- The reference sees the same ones. -/
theorem reference_average (Q Y V : Nat → K) (scale : K) (h : Nat)
    (hc : c.Legal) (ht : t < c.tDim) (e : Nat) :
    ∃ M : K, Cpu.contextAt (fieldFloats E) c.toDims
        (Cpu.AttentionCall.probability (fieldFloats E) c (fun i => (Q i : WithBot K))
          (fun i => (Y i : WithBot K)) scale) (fun i => (V i : WithBot K)) (h * c.tDim + t) e =
      (average E (realScore c Q Y scale h t) (realValue c V h · e) M (reach c t) : K) := by
  have hmod : (h * c.tDim + t) % c.tDim = t := by
    rw [Nat.mul_comm, Nat.mul_add_mod, Nat.mod_eq_of_lt ht]
  have hdiv : (h * c.tDim + t) / c.tDim = h := by
    rw [Nat.mul_comm, Nat.mul_add_div hc.tDim, Nat.div_eq_of_lt ht, Nat.add_zero]
  have htoken : c.toDims.token (h * c.tDim + t) = t * c.heads + h := by
    show (h * c.tDim + t) % c.tDim * c.heads + (h * c.tDim + t) / c.tDim = _
    rw [hmod, hdiv]
  have hkvHead : c.toDims.kvHead (h * c.tDim + t) = h / (c.heads / c.kvHeads) := by
    show (h * c.tDim + t) / c.tDim / (c.heads / c.kvHeads) = _
    rw [hdiv]
  have hreach : reach c t ≤ c.lDim := by
    have := hc.length
    rw [reach]
    omega
  have hmask : ∀ s, s > c.toDims.past + (h * c.tDim + t) % c.toDims.tDim ↔ reach c t ≤ s := by
    intro s
    show s > c.lDim - c.tDim + (h * c.tDim + t) % c.tDim ↔ _
    rw [hmod, reach]
    omega
  have hcontext := context_average E (X := Cpu.scoreAt (fieldFloats E) c.toDims
      (fun i => (Q i : WithBot K)) (fun i => (Y i : WithBot K)) scale (h * c.tDim + t))
    (x := realScore c Q Y scale h t) (n := reach c t) (L := c.lDim) (by rw [reach]; omega) hreach
    (fun s hs => ?_) (fun s hs => ?_) (realValue c V h · e)
  · rw [Cpu.contextAt, hkvHead]
    exact hcontext
  · rw [Cpu.scoreAt, if_neg (by rw [hmask]; omega), htoken, hkvHead, Cpu.dotOf]
    show (fieldFloats E).mul ((List.range c.d).foldl _ _) _ = _
    rw [foldl_dot]
    rfl
  · rw [Cpu.scoreAt, if_pos (by rw [hmask]; exact hs)]
    rfl

end

/-- Every query has its row in one of the units. -/
theorem job_mem {β : Type} [LT β] [DecidableLT β] (ops : Ops β) {a : PrefillArgs β}
    {kvHeads h t : Nat} (ha : a.Legal kvHeads) (hh : h < a.heads) (ht : t < a.tDim) :
    a.job ops (h, t) ∈ (List.range (a.heads * a.numQblocks)).flatMap
      fun u => (a.unitRows u).map (a.job ops) := by
  have hr : t * a.heads + h < a.tDim * a.heads := by
    have hmul := Nat.mul_le_mul_right a.heads ht
    rw [Nat.succ_mul] at hmul
    omega
  obtain ⟨x, hx, heq⟩ := List.mem_map.mp
    ((a.unitRows_perm ha.qblocks).mem_iff.mpr (List.mem_range.mpr hr))
  obtain ⟨u, hu, hx⟩ := List.mem_flatMap.mp hx
  obtain ⟨-, hx1, -⟩ := a.mem_unitRows (List.mem_range.mp hu) hx
  have hmod := congrArg (· % a.heads) heq
  have hdiv := congrArg (· / a.heads) heq
  simp only [Nat.mul_comm _ a.heads, Nat.mul_add_mod, Nat.mod_eq_of_lt hx1,
    Nat.mod_eq_of_lt hh] at hmod
  simp only [Nat.mul_comm _ a.heads, Nat.mul_add_div (Nat.zero_lt_of_lt hh),
    Nat.div_eq_of_lt hx1, Nat.div_eq_of_lt hh, Nat.add_zero] at hdiv
  have hxeq : x = (h, t) := Prod.ext hmod hdiv
  rw [← hxeq]
  exact List.mem_flatMap.mpr ⟨u, hu, List.mem_map_of_mem hx⟩

/-- The kernel writes its output while it reads, so that nothing it reads may lie there. -/
structure OutApart (c : Cpu.AttentionCall) : Prop where
  queries : Apart c.q c.qSize c.out c.qSize
  keys : Apart c.k c.kSize c.out c.qSize

/-- What the kernel may read: all but its output. -/
def readable {β : Type} (m : Memory β) (c : Cpu.AttentionCall) : Memory β :=
  fun p => if c.out ≤ p ∧ p < c.out + c.qSize then none else m p

theorem holds_readable {β : Type} {m : Memory β} {p : Int} {n : Nat} {X : Nat → β}
    (h : HoldsFloats m p n X) (hapart : Apart p n c.out c.qSize) :
    HoldsFloats (readable m c) p n X := by
  intro i hi
  rw [readable, if_neg, h i hi]
  rcases hapart with hlt | hlt <;> omega

/-- What was done for the row of a query that attends to `count` keys of the kv head `hk`: each
key and each value has been read once, in order and up to the causal boundary, and at the end the
row has been divided by a positive number. -/
structure TakenIn (E : Exponential K) (c : Cpu.AttentionCall) (hk count : Nat)
    (j : Journal (WithBot K)) : Prop where
  keys : j.keys = (List.range count).map fun s => c.k + ((hk * c.lDim + s) * c.d : Nat)
  values : j.values = (List.range count).map fun s => c.v + ((hk * c.lDim + s) * c.d : Nat)
  divided : ∃ (den : K) (calls : List (Call (WithBot K))) (row : List (WithBot K)), 0 < den ∧
    j.calls = calls ++ [.scaleRow row ((fieldFloats E).div (1 : K) den)]

section

variable [IsStrictOrderedRing K] {m : Memory (WithBot K)} {c : Cpu.AttentionCall}
  {Q Y V : Nat → K} {O : Nat → WithBot K} {scale : K}

/-- A row that the kernel has written. -/
theorem written_query (hc : c.Legal) {h t : Nat} (hh : h < c.heads) (ht : t < c.tDim)
    (hq : HoldsFloats m c.q c.qSize fun i => (Q i : WithBot K))
    (hk : HoldsFloats m c.k c.kSize fun i => (Y i : WithBot K))
    (hv : HoldsFloats m c.v c.kSize fun i => (V i : WithBot K)) {m₀ : Memory (WithBot K)}
    {w : Work (WithBot K)} {jobs : List (Nat × Done (WithBot K))}
    (hw : (Work.start m₀).Written w c.out c.d jobs)
    (hjob : (kernelArgs m c (scale : WithBot K)).job (scalarOps (fieldFloats E)) (h, t) ∈ jobs)
    (M : K) :
    (∀ e < c.d, w.out (c.out + ((t * c.heads + h) * c.d : Nat) + e) =
      some ((average E (realScore c Q Y scale h t) (realValue c V h · e) M (reach c t) : K) :
        WithBot K)) ∧
    TakenIn E c (h / (c.heads / c.kvHeads)) (c.lDim - c.tDim + t + 1)
      (w.journal (c.out + ((t * c.heads + h) * c.d : Nat))) := by
  have hcount : ((kernelArgs m c (scale : WithBot K)).query h t).count = reach c t :=
    kernel_count hc h t
  obtain ⟨hrow, den, calls, row, hden, hcalls⟩ := Query.result_averages E
    (kernel_real E scale hc hh ht hq hk hv) (by rw [hcount]; exact Nat.succ_pos _) M
  rw [hcount] at hrow
  have hoffset : ∀ s, h / (c.heads / c.kvHeads) * c.lDim * c.d + s * c.d =
      (h / (c.heads / c.kvHeads) * c.lDim + s) * c.d := fun s => (Nat.add_mul _ _ _).symm
  refine ⟨fun e he => ?_, ?_⟩
  · have hcell := (hw.row _ hjob).cells e he
    have hcell : w.out (c.out + ((t * c.heads + h) * c.d : Nat) + e) =
        (((kernelArgs m c (scale : WithBot K)).query h t).result (scalarOps (fieldFloats E))
          (rowMax (scalarOps (fieldFloats E))) c.d).row[e]? := hcell
    rw [hcell, hrow, realRow, List.getElem?_map, List.getElem?_range he]
    rfl
  · have hjournal := hw.journal _ hjob
    rw [Work.start, Journal.empty_append] at hjournal
    have hjournal : w.journal (c.out + ((t * c.heads + h) * c.d : Nat)) =
        (((kernelArgs m c (scale : WithBot K)).query h t).done (scalarOps (fieldFloats E))
          (rowMax (scalarOps (fieldFloats E))) c.d
          ((kernelArgs m c (scale : WithBot K)).keyAt h)
          ((kernelArgs m c (scale : WithBot K)).valueAt h) []).journal := hjournal
    rw [hjournal]
    refine ⟨?_, ?_, den, calls, row, hden, hcalls⟩
    · show (List.range ((kernelArgs m c (scale : WithBot K)).query h t).count).map _ = _
      rw [hcount]
      refine List.map_congr_left fun s _ => ?_
      rw [← hoffset]
      rfl
    · show (List.range ((kernelArgs m c (scale : WithBot K)).query h t).count).map _ = _
      rw [hcount]
      refine List.map_congr_left fun s _ => ?_
      rw [← hoffset]
      rfl

/-- A run that has written the row of every query leaves what the reference leaves. -/
theorem written_reference (scale : K) (hc : c.Legal)
    (hq : HoldsFloats m c.q c.qSize fun i => (Q i : WithBot K))
    (hk : HoldsFloats m c.k c.kSize fun i => (Y i : WithBot K))
    (hv : HoldsFloats m c.v c.kSize fun i => (V i : WithBot K)) {m₀ m' : Memory (WithBot K)}
    {w : Work (WithBot K)} {jobs : List (Nat × Done (WithBot K))}
    (hw : (Work.start m₀).Written w c.out c.d jobs)
    (hjob : ∀ t < c.tDim, ∀ h < c.heads,
      (kernelArgs m c (scale : WithBot K)).job (scalarOps (fieldFloats E)) (h, t) ∈ jobs)
    (hcells : ∀ row < c.heads * c.tDim, ∀ e < c.d,
      m' (c.out + (c.toDims.token row * c.d : Nat) + e) =
        some (Cpu.contextAt (fieldFloats E) c.toDims
          (Cpu.AttentionCall.probability (fieldFloats E) c (fun i => (Q i : WithBot K))
            (fun i => (Y i : WithBot K)) scale) (fun i => (V i : WithBot K)) row e)) :
    (∀ i < c.qSize, w.out (c.out + i) = m' (c.out + i)) ∧
    ∀ t < c.tDim, ∀ h < c.heads, TakenIn E c (h / (c.heads / c.kvHeads))
      (c.lDim - c.tDim + t + 1) (w.journal (c.out + ((t * c.heads + h) * c.d : Nat))) := by
  refine ⟨?_, fun t ht h hh => (written_query E hc hh ht hq hk hv hw (hjob t ht h hh) 0).2⟩
  intro i hi
  have hr : i / c.d < c.tDim * c.heads := Nat.div_lt_of_lt_mul (by
    rw [Nat.mul_comm]
    exact hi)
  have ht : i / c.d / c.heads < c.tDim := Nat.div_lt_of_lt_mul (by rwa [Nat.mul_comm])
  have hh : i / c.d % c.heads < c.heads := Nat.mod_lt _ hc.heads
  have he : i % c.d < c.d := Nat.mod_lt _ hc.d
  obtain ⟨M, hM⟩ := reference_average E Q Y V scale (i / c.d % c.heads) hc ht (i % c.d)
  obtain ⟨hcell, -⟩ := written_query E hc hh ht hq hk hv hw (hjob _ ht _ hh) M
  have hrow : i / c.d % c.heads * c.tDim + i / c.d / c.heads < c.heads * c.tDim := by
    have hmul := Nat.mul_le_mul_right c.tDim hh
    rw [Nat.succ_mul] at hmul
    omega
  have hreference := hcells _ hrow _ he
  rw [hM] at hreference
  have htoken : c.toDims.token (i / c.d % c.heads * c.tDim + i / c.d / c.heads) = i / c.d := by
    show (_ * c.tDim + _) % c.tDim * c.heads + (_ * c.tDim + _) / c.tDim = _
    rw [Nat.mul_comm _ c.tDim, Nat.mul_add_mod, Nat.mod_eq_of_lt ht, Nat.mul_add_div hc.tDim,
      Nat.div_eq_of_lt ht, Nat.add_zero, Nat.div_add_mod']
  have haddress : c.out + ((i / c.d * c.d : Nat) : Int) + ((i % c.d : Nat) : Int) =
      c.out + i := by
    rw [Int.add_assoc, ← Int.natCast_add, Nat.div_add_mod']
  rw [htoken, haddress] at hreference
  have hcell := hcell _ he
  rw [Nat.div_add_mod', haddress] at hcell
  rw [hreference]
  exact hcell

omit [Field K] [LinearOrder K] [IsStrictOrderedRing K] in
/-- The output of a call is there. -/
theorem output_allocated {m : Memory (WithBot K)} {O : Nat → WithBot K} (c : Cpu.AttentionCall)
    (ho : HoldsFloats m c.out c.qSize O) {r : Nat} (hr : r < c.tDim * c.heads) :
    (Work.start m).Allocated (rowAt c.out c.d r) c.d := by
  intro e he
  have hfits : r * c.d + c.d ≤ c.qSize := Cpu.AttnDims.block_fits (by omega)
  have hcell := ho (r * c.d + e) (by omega)
  rw [Int.natCast_add, ← Int.add_assoc] at hcell
  show (m (c.out + ((r * c.d : Nat) : Int) + e)).isSome
  rw [hcell]
  rfl

/-- **One pass is two passes.**  Over a field with an exponential, the blocks of the kernel leave
what the reference leaves, and each query takes in the keys up to its own position and no other. -/
theorem prefill_eq_reference (scale : K) (hc : c.Legal) (hout : OutApart c)
    (schedule schedule' : Schedule)
    (hq : HoldsFloats m c.q c.qSize fun i => (Q i : WithBot K))
    (hk : HoldsFloats m c.k c.kSize fun i => (Y i : WithBot K))
    (hv : HoldsFloats m c.v c.kSize fun i => (V i : WithBot K))
    (ho : HoldsFloats m c.out c.qSize O) :
    ∃ m' w,
      Cpu.attention (fieldFloats E) schedule (.ok c.scores) c.qTensor c.kTensor c.vTensor scale
        c.outTensor m = .ok (.ok m') ∧
      prefillAttentionF32 (prefillUnitsImpl (scalarOps (fieldFloats E))) schedule'
        ⟨readable m c, c.q⟩ ⟨readable m c, c.k⟩ ⟨readable m c, c.v⟩ c.out c.tDim c.heads
        c.kvHeads c.d c.lDim scale (Work.start m) = .ok w ∧
      (∀ i < c.qSize, w.out (c.out + i) = m' (c.out + i)) ∧
      ∀ t < c.tDim, ∀ h < c.heads, TakenIn E c (h / (c.heads / c.kvHeads))
        (c.lDim - c.tDim + t + 1) (w.journal (c.out + ((t * c.heads + h) * c.d : Nat))) := by
  obtain ⟨m', hm', hcells, -⟩ := Cpu.AttentionCall.attention_ok (fieldFloats E) hc schedule
    (scale : WithBot K) hq hk hv ho
  have hq' := holds_readable hq hout.queries
  have hk' := holds_readable hk hout.keys
  have hv' := holds_readable hv hc.values
  generalize readable m c = inputs at hq' hk' hv' ⊢
  have ha := kernelArgs_legal (scale : WithBot K) hc hq' hk' hv'
  have hkernel := (kernel_serves (scalarOps (fieldFloats E)) ha).plain_ok Nat.zero_lt_one schedule'
    (w := Work.start m) (fun r hr => output_allocated c ho (by
      rw [Nat.one_mul] at hr
      exact hr))
  rw [← regionM_plain schedule' _ 0 (fun _ => kernelArgs inputs c (scale : WithBot K))] at hkernel
  obtain ⟨w, hw, hwritten⟩ := hkernel
  have hjob : ∀ t < c.tDim, ∀ h < c.heads,
      (kernelArgs inputs c (scale : WithBot K)).job (scalarOps (fieldFloats E)) (h, t) ∈
        (Serves.unitsOf (fun _ => c.heads * (kernelArgs inputs c (scale : WithBot K)).numQblocks)
          [0]).flatMap (Serves.jobs (fun b => b * (c.tDim * c.heads)) fun _ u =>
            ((kernelArgs inputs c (scale : WithBot K)).unitRows u).map
              ((kernelArgs inputs c (scale : WithBot K)).job (scalarOps (fieldFloats E)))) := by
    intro t ht h hh
    obtain ⟨u, hu, hx⟩ := List.mem_flatMap.mp
      (job_mem (scalarOps (fieldFloats E)) ha (h := h) (t := t) hh ht)
    refine List.mem_flatMap.mpr ⟨(0, u), List.mem_flatMap.mpr ⟨0, by simp,
      List.mem_map_of_mem hu⟩, List.mem_map.mpr ⟨_, hx, ?_⟩⟩
    show (0 * (c.tDim * c.heads) + _, _) = _
    rw [Nat.zero_mul, Nat.zero_add]
  exact ⟨m', w, hm', hw, written_reference E scale hc hq' hk' hv' hwritten hjob hcells⟩

/-- **The units in one go.**  Walked from the first to the last, the units of the kernel leave what
the reference leaves; each query takes in the keys up to its own position, each once and no other,
and is divided by a positive number. -/
theorem prefillUnits_eq_reference (scale : K) (hc : c.Legal) (hout : OutApart c)
    (schedule : Schedule)
    (hq : HoldsFloats m c.q c.qSize fun i => (Q i : WithBot K))
    (hk : HoldsFloats m c.k c.kSize fun i => (Y i : WithBot K))
    (hv : HoldsFloats m c.v c.kSize fun i => (V i : WithBot K))
    (ho : HoldsFloats m c.out c.qSize O) :
    ∃ m' w,
      Cpu.attention (fieldFloats E) schedule (.ok c.scores) c.qTensor c.kTensor c.vTensor scale
        c.outTensor m = .ok (.ok m') ∧
      prefillUnitsImpl (scalarOps (fieldFloats E)) (kernelArgs (readable m c) c scale) 0
        (c.heads * (kernelArgs (readable m c) c scale).numQblocks) (Work.start m) = .ok w ∧
      (∀ i < c.qSize, w.out (c.out + i) = m' (c.out + i)) ∧
      ∀ t < c.tDim, ∀ h < c.heads, TakenIn E c (h / (c.heads / c.kvHeads))
        (c.lDim - c.tDim + t + 1) (w.journal (c.out + ((t * c.heads + h) * c.d : Nat))) := by
  obtain ⟨m', hm', hcells, -⟩ := Cpu.AttentionCall.attention_ok (fieldFloats E) hc schedule
    (scale : WithBot K) hq hk hv ho
  have hq' := holds_readable hq hout.queries
  have hk' := holds_readable hk hout.keys
  have hv' := holds_readable hv hc.values
  generalize readable m c = inputs at hq' hk' hv' ⊢
  have ha := kernelArgs_legal (scale : WithBot K) hc hq' hk' hv'
  obtain ⟨w, hw, hwritten⟩ := prefillUnitsImpl_ok (scalarOps (fieldFloats E)) ha 0 le_rfl
    (w := Work.start m) fun r hr => output_allocated c ho hr
  refine ⟨m', w, hm', hw, written_reference E scale hc hq' hk' hv' hwritten (fun t ht h hh => ?_)
    hcells⟩
  rw [span, Nat.sub_zero, ← List.range_eq_range']
  exact job_mem (scalarOps (fieldFloats E)) ha hh ht

end

/-- The exponential of the real numbers. -/
noncomputable def realExponential : Exponential ℝ := ⟨Real.exp, Real.exp_pos, Real.exp_add⟩

/-- Two queries of two heads that share the keys and values of three positions. -/
def threePositions : Cpu.AttentionCall where
  tDim := 2
  heads := 2
  kvHeads := 1
  lDim := 3
  d := 1
  q := 0
  k := 10
  v := 20
  out := 30
  scores := 40

/-- Every cell holds its address. -/
noncomputable def addresses : Memory (WithBot ℝ) := fun i => some ((i : ℝ) : WithBot ℝ)

theorem threePositions_legal : threePositions.Legal where
  tDim := by decide
  heads := by decide
  kvHeads := by decide
  d := by decide
  length := by decide
  divides := by decide
  freshQ := Or.inl (by decide)
  freshK := Or.inl (by decide)
  freshV := Or.inl (by decide)
  freshOut := Or.inr (by decide)
  values := Or.inl (by decide)

theorem prefill_threePositions : ∃ m' w,
    Cpu.attention (fieldFloats realExponential) Schedule.inOrder (.ok threePositions.scores)
      threePositions.qTensor threePositions.kTensor threePositions.vTensor (1 : ℝ)
      threePositions.outTensor addresses = .ok (.ok m') ∧
    prefillAttentionF32 (prefillUnitsImpl (scalarOps (fieldFloats realExponential)))
      Schedule.inOrder ⟨readable addresses threePositions, 0⟩
      ⟨readable addresses threePositions, 10⟩ ⟨readable addresses threePositions, 20⟩
      30 2 2 1 1 3 (1 : ℝ)
      (Work.start addresses) = .ok w ∧
    (∀ i < threePositions.qSize, w.out (30 + i) = m' (30 + i)) ∧
    ∀ t < 2, ∀ h < 2, TakenIn realExponential threePositions (h / (2 / 1)) (3 - 2 + t + 1)
      (w.journal (30 + ((t * 2 + h) * 1 : Nat))) :=
  prefill_eq_reference realExponential 1
    (c := threePositions) (m := addresses) (Q := fun i => (((0 : Int) + i : Int) : ℝ))
    (Y := fun i => (((10 : Int) + i : Int) : ℝ)) (V := fun i => (((20 : Int) + i : Int) : ℝ))
    (O := fun i => ((((30 : Int) + i : Int) : ℝ) : WithBot ℝ))
    threePositions_legal
    ⟨Or.inl (by decide), Or.inl (by decide)⟩ Schedule.inOrder Schedule.inOrder
    (fun _ _ => rfl) (fun _ _ => rfl) (fun _ _ => rfl) fun _ _ => rfl

theorem prefillUnits_threePositions : ∃ m' w,
    Cpu.attention (fieldFloats realExponential) Schedule.inOrder (.ok threePositions.scores)
      threePositions.qTensor threePositions.kTensor threePositions.vTensor (1 : ℝ)
      threePositions.outTensor addresses = .ok (.ok m') ∧
    prefillUnitsImpl (scalarOps (fieldFloats realExponential))
      (kernelArgs (readable addresses threePositions) threePositions (1 : ℝ)) 0
      (2 * (kernelArgs (readable addresses threePositions) threePositions
        ((1 : ℝ) : WithBot ℝ)).numQblocks) (Work.start addresses) = .ok w ∧
    (∀ i < threePositions.qSize, w.out (30 + i) = m' (30 + i)) ∧
    ∀ t < 2, ∀ h < 2, TakenIn realExponential threePositions (h / (2 / 1)) (3 - 2 + t + 1)
      (w.journal (30 + ((t * 2 + h) * 1 : Nat))) :=
  prefillUnits_eq_reference realExponential 1
    (c := threePositions) (m := addresses) (Q := fun i => (((0 : Int) + i : Int) : ℝ))
    (Y := fun i => (((10 : Int) + i : Int) : ℝ)) (V := fun i => (((20 : Int) + i : Int) : ℝ))
    (O := fun i => ((((30 : Int) + i : Int) : ℝ) : WithBot ℝ)) threePositions_legal
    ⟨Or.inl (by decide), Or.inl (by decide)⟩ Schedule.inOrder
    (fun _ _ => rfl) (fun _ _ => rfl) (fun _ _ => rfl) fun _ _ => rfl

end Attention

end InferenceEngine
