/-
Which calls the attention entry points make of a variant.

An entry point is a list of calls, whatever the variant does with them.  A ragged batch is cut up
by numbers of units that run through all its sequences, and a chunk may begin and end inside a
sequence; still the units of all calls together are those that the sequences have on their own,
with the arguments that they have on their own.
-/
import InferenceEngine.Kernels.AttentionEntries
import InferenceEngine.Lib.Loops
import InferenceEngine.Lib.Segments

namespace InferenceEngine

open Except Parallel Segments Stores

namespace Attention

variable {α β : Type}

/-! ### Calls

An entry point does nothing but call a variant with arguments and a range of units.  What it
makes is a list of calls, whatever the variant does with them. -/

/-- A call of a variant: the number of a sequence and the units. -/
abbrev UnitsCall := Nat × Nat × Nat

/-- A call of the variant. -/
def UnitsCall.run {σ : Type} (args : Nat → α) (fn : UnitsFn α σ) (s : σ) (c : UnitsCall) :
    Checked σ :=
  fn (args c.1) c.2.1 c.2.2 s

/-- The calls that an entry point makes, whatever the variant is. -/
def Makes (args : Nat → α) (entry : (σ : Type) → UnitsFn α σ → σ → Checked σ)
    (calls : List UnitsCall) : Prop :=
  ∀ (σ : Type) (fn : UnitsFn α σ) (s : σ),
    entry σ fn s = calls.foldlM (UnitsCall.run args fn) s

/-- The units of some calls, each with the sequence it belongs to. -/
def callUnits (calls : List UnitsCall) : List (Nat × Nat) :=
  calls.flatMap fun c => (span c.2.1 c.2.2).map fun u => (c.1, u)

/-- A parallel loop whose body makes calls. -/
theorem regionM_calls {σ : Type} (schedule : Schedule) (n grain : Nat) {args : Nat → α}
    {fn : UnitsFn α σ} {body : (unitBegin unitEnd : Nat) → σ → Checked σ}
    {calls : Nat → Nat → List UnitsCall}
    (h : ∀ lo hi s, body lo hi s = (calls lo hi).foldlM (UnitsCall.run args fn) s) (s : σ) :
    regionM schedule n grain body s =
      ((schedule.cut n grain).flatMap fun r => calls r.1.toNat r.2.toNat).foldlM
        (UnitsCall.run args fn) s := by
  rw [foldlM_flatMap, regionM]
  congr 1
  funext s r
  exact h _ _ s

/-- The sub-ranges of a loop are a partition of its units. -/
theorem cut_perm (schedule : Schedule) (n : Nat) {grain : Nat} (hg : 1 ≤ grain) :
    ((schedule.cut n grain).flatMap fun r => span r.1.toNat r.2.toNat).Perm (List.range n) :=
  order_perm schedule hg

theorem cut_le (schedule : Schedule) {n grain : Nat} (hg : 1 ≤ grain) {r : Int × Int}
    (hr : r ∈ schedule.cut n grain) : r.2.toNat ≤ n := by
  have := (schedule.partition n grain hg).bounds hr
  omega

/-- The calls of a parallel loop that hands its sub-ranges to the variant. -/
def plainCalls (schedule : Schedule) (n b : Nat) : List UnitsCall :=
  (schedule.cut n 1).map fun r => (b, r.1.toNat, r.2.toNat)

theorem regionM_plain {σ : Type} (schedule : Schedule) (n b : Nat) (args : Nat → α)
    (fn : UnitsFn α σ) (s : σ) :
    regionM schedule n 1 (fn (args b)) s =
      (plainCalls schedule n b).foldlM (UnitsCall.run args fn) s := by
  rw [plainCalls, List.foldlM_map]
  rfl

theorem plainCalls_units (schedule : Schedule) (n b : Nat) :
    (callUnits (plainCalls schedule n b)).Perm ((List.range n).map fun u => (b, u)) := by
  have hunits : callUnits (plainCalls schedule n b) =
      ((schedule.cut n 1).flatMap fun r => span r.1.toNat r.2.toNat).map fun u => (b, u) := by
    rw [callUnits, plainCalls, List.flatMap_map, List.map_flatMap]
  rw [hunits]
  exact (cut_perm schedule n le_rfl).map _

theorem readAt_map_range {γ : Type} {f : Nat → γ} {n i : Nat} (h : i < n) :
    readAt ((List.range n).map f) (i : Nat) = .ok (f i) := by
  have hlt : i < ((List.range n).map f).length := by simpa using h
  rw [readAt_natCast hlt, List.getElem_map, List.getElem_range]

/-! ### Ragged prefill

A chunk is a segment of the units of all sequences.  The turn of a sequence cuts its own part
out of it, and the parts of all turns are the segment. -/

/-- A ragged batch: sequence `b` has the rows `cu b, …, cu (b + 1) - 1` of the queries. -/
structure Ragged (β : Type) where
  q : ConstFloats β
  cu : Nat → Nat
  k : Nat → ConstFloats β
  v : Nat → ConstFloats β
  lDim : Nat → Nat
  out : Int
  numSeqs : Nat
  heads : Nat
  kvHeads : Nat
  d : Nat
  scale : β

namespace Ragged

/-- `PrefillAttentionVarlenF32` of the batch. -/
def varlen (r : Ragged β) (schedule : Schedule) (σ : Type) (fn : UnitsFn (PrefillArgs β) σ)
    (s : σ) : Checked σ :=
  prefillAttentionVarlenF32 fn schedule r.q ((List.range (r.numSeqs + 1)).map r.cu) r.numSeqs
    ((List.range r.numSeqs).map r.k) ((List.range r.numSeqs).map r.v)
    ((List.range r.numSeqs).map r.lDim) r.out r.heads r.kvHeads r.d r.scale s

/-- `T_b` -/
def tDim (r : Ragged β) (b : Nat) : Nat := r.cu (b + 1) - r.cu b

/-- `PrefillAttentionF32` of sequence `b` on its own. -/
def alone (r : Ragged β) (b : Nat) (schedule : Schedule) (σ : Type)
    (fn : UnitsFn (PrefillArgs β) σ) (s : σ) : Checked σ :=
  prefillAttentionF32 fn schedule (r.q.advance (r.cu b * r.heads * r.d : Nat)) (r.k b) (r.v b)
    (r.out + (r.cu b * r.heads * r.d : Nat)) (r.tDim b) r.heads r.kvHeads r.d (r.lDim b) r.scale s

/-- The arguments that `PrefillAttentionF32` passes on for sequence `b`. -/
def args (r : Ragged β) (b : Nat) : PrefillArgs β :=
  prefillArgs (r.q.advance (r.cu b * r.heads * r.d : Nat)) (r.k b) (r.v b)
    (r.out + (r.cu b * r.heads * r.d : Nat)) (r.tDim b) r.heads r.kvHeads r.d (r.lDim b) r.scale

/-- How many units sequence `b` has. -/
def units (r : Ragged β) (b : Nat) : Nat := r.heads * (r.args b).numQblocks

/-- The units of sequence `b`. -/
def ownUnits (r : Ragged β) (b : Nat) : List (Nat × Nat) :=
  (List.range (r.units b)).map fun u => (b, u)

/-- The units of the batch, sequence after sequence. -/
def allUnits (r : Ragged β) : List (Nat × Nat) :=
  (List.range r.numSeqs).flatMap r.ownUnits

/-- `S_b`, the number of the first unit of sequence `b`. -/
def base (r : Ragged β) (b : Nat) : Nat := ((List.range b).flatMap r.ownUnits).length

/-- The calls for sequence `b` in a chunk. -/
def turnCalls (r : Ragged β) (unitBegin unitEnd b : Nat) : List UnitsCall :=
  let lo := max unitBegin (r.base b)
  let hi := min unitEnd (r.base b + r.units b)
  if lo < hi then [(b, lo - r.base b, hi - r.base b)] else []

/-- The calls of a chunk. -/
def chunkCalls (r : Ragged β) (unitBegin unitEnd : Nat) : List UnitsCall :=
  (List.range r.numSeqs).flatMap (r.turnCalls unitBegin unitEnd)

/-- The calls of the batch. -/
def calls (r : Ragged β) (schedule : Schedule) : List UnitsCall :=
  (schedule.cut (r.base r.numSeqs) kAttnQGrain).flatMap fun c =>
    r.chunkCalls c.1.toNat c.2.toNat

variable {r : Ragged β}

theorem base_succ (r : Ragged β) (b : Nat) : r.base (b + 1) = r.base b + r.units b := by
  rw [base, List.range_succ, List.flatMap_append, List.length_append, List.flatMap_singleton,
    ownUnits, List.length_map, List.length_range]
  rfl

/-- `PrefillVarlenArgs` of the batch. -/
def packed (r : Ragged β) : PrefillVarlenArgs β :=
  ⟨r.q, (List.range (r.numSeqs + 1)).map r.cu, (List.range r.numSeqs).map r.k,
    (List.range r.numSeqs).map r.v, (List.range r.numSeqs).map r.lDim, r.out, r.numSeqs, r.heads,
    r.d, r.heads / r.kvHeads, r.scale⟩

theorem turn_eq {σ : Type} (fn : UnitsFn (PrefillArgs β) σ) (unitBegin unitEnd : Nat) {b : Nat}
    (hb : b < r.numSeqs) (s : σ) :
    prefillVarlenTurn r.packed fn unitBegin unitEnd (r.base b, s) b = (do
      let s' ← (r.turnCalls unitBegin unitEnd b).foldlM (UnitsCall.run r.args fn) s
      pure (r.base (b + 1), s')) := by
  have ht0 : readAt r.packed.cuSeqlens (b : Nat) = .ok (r.cu b) := readAt_map_range (by omega)
  have ht1 : readAt r.packed.cuSeqlens (b + 1 : Nat) = .ok (r.cu (b + 1)) :=
    readAt_map_range (by omega)
  have hl : readAt r.packed.lDims (b : Nat) = .ok (r.lDim b) := readAt_map_range hb
  have hk : readAt r.packed.kSeqs (b : Nat) = .ok (r.k b) := readAt_map_range hb
  have hv : readAt r.packed.vSeqs (b : Nat) = .ok (r.v b) := readAt_map_range hb
  rw [prefillVarlenTurn]
  dsimp only
  have hunits : r.packed.heads * ((r.cu (b + 1) - r.cu b + kAttnQb - 1) / kAttnQb) =
      r.units b := rfl
  rw [ht0, ok_bind, ht1, ok_bind, hl, hk, hv, hunits, turnCalls, base_succ]
  by_cases hlt : max unitBegin (r.base b) < min unitEnd (r.base b + r.units b)
  · rw [if_pos hlt, if_pos hlt, List.foldlM_cons]
    simp only [List.foldlM_nil, bind_pure]
    rfl
  · rw [if_neg hlt, if_neg hlt, List.foldlM_nil]
    rfl

/-- A chunk makes its calls. -/
theorem prefillVarlenUnits_eq {σ : Type} (fn : UnitsFn (PrefillArgs β) σ)
    (unitBegin unitEnd : Nat) (s : σ) :
    prefillVarlenUnits r.packed fn unitBegin unitEnd s =
      (r.chunkCalls unitBegin unitEnd).foldlM (UnitsCall.run r.args fn) s := by
  have hprefix : ∀ n ≤ r.numSeqs,
      (List.range n).foldlM (prefillVarlenTurn r.packed fn unitBegin unitEnd) (0, s) = (do
        let s' ← ((List.range n).flatMap (r.turnCalls unitBegin unitEnd)).foldlM
          (UnitsCall.run r.args fn) s
        pure (r.base n, s')) := by
    intro n
    induction n with
    | zero => intro _; rfl
    | succ n ih =>
        intro hn
        rw [List.range_succ, List.foldlM_append, ih (by omega), List.flatMap_append,
          List.foldlM_append, List.flatMap_singleton]
        simp only [bind_assoc, pure_bind, List.foldlM_cons, List.foldlM_nil, bind_pure]
        congr 1
        funext s'
        exact turn_eq fn unitBegin unitEnd (by omega) s'
  rw [prefillVarlenUnits, show r.packed.numSeqs = r.numSeqs from rfl, hprefix _ le_rfl]
  simp only [bind_assoc, pure_bind, bind_pure]
  rfl

theorem totalUnits_eq (r : Ragged β) :
    (List.range r.numSeqs).foldlM (fun (total b : Nat) => do
      let t0 ← readAt ((List.range (r.numSeqs + 1)).map r.cu) b
      let t1 ← readAt ((List.range (r.numSeqs + 1)).map r.cu) (b + 1 : Nat)
      let tDim := t1 - t0
      let nqb := (tDim + kAttnQb - 1) / kAttnQb
      pure (total + r.heads * nqb)) 0 = (.ok (r.base r.numSeqs) : Checked Nat) := by
  refine foldlM_range_ok r.base fun b hb => ?_
  rw [readAt_map_range (by omega), ok_bind, readAt_map_range (by omega), ok_bind, base_succ]
  rfl

/-- **The ragged entry point makes these calls.** -/
theorem varlen_makes (r : Ragged β) (schedule : Schedule) :
    Makes r.args (r.varlen schedule) (r.calls schedule) := by
  intro σ fn s
  rw [varlen, prefillAttentionVarlenF32, totalUnits_eq, ok_bind]
  exact regionM_calls schedule _ _ (fun lo hi s => prefillVarlenUnits_eq fn lo hi s) s

theorem turnCalls_units (r : Ragged β) (unitBegin unitEnd b : Nat) :
    callUnits (r.turnCalls unitBegin unitEnd b) =
      segment (r.ownUnits b) (unitBegin - r.base b) (unitEnd - r.base b) := by
  rw [ownUnits, segment_map_range, turnCalls]
  by_cases hlt : max unitBegin (r.base b) < min unitEnd (r.base b + r.units b)
  · rw [if_pos hlt, callUnits, List.flatMap_singleton]
    dsimp only
    congr 2 <;> omega
  · rw [if_neg hlt, span, show min (unitEnd - r.base b) (r.units b) - (unitBegin - r.base b) = 0 by
      omega]
    rfl

/-- A chunk has a segment of the units. -/
theorem chunkCalls_units (r : Ragged β) (unitBegin unitEnd : Nat) :
    callUnits (r.chunkCalls unitBegin unitEnd) = segment r.allUnits unitBegin unitEnd := by
  rw [allUnits, segment_flatMap_range, callUnits, chunkCalls, List.flatMap_assoc]
  exact List.flatMap_congr fun b _ => r.turnCalls_units unitBegin unitEnd b

/-- **The calls have every unit of every sequence once.** -/
theorem calls_units (r : Ragged β) (schedule : Schedule) :
    (callUnits (r.calls schedule)).Perm r.allUnits := by
  have hunits : callUnits (r.calls schedule) =
      ((schedule.cut (r.base r.numSeqs) kAttnQGrain).map fun c => (c.1.toNat, c.2.toNat)).flatMap
        fun c => segment r.allUnits c.1 c.2 := by
    rw [callUnits, calls, List.flatMap_assoc, List.flatMap_map]
    exact List.flatMap_congr fun c _ => r.chunkCalls_units _ _
  rw [hunits]
  refine segments_perm ?_ ?_
  · rw [List.flatMap_map]
    exact cut_perm schedule _ le_rfl
  · intro c hc
    obtain ⟨x, hx, rfl⟩ := List.mem_map.mp hc
    exact cut_le schedule le_rfl hx

/-- A sequence on its own makes calls for its units. -/
theorem alone_makes (r : Ragged β) (b : Nat) (schedule : Schedule) :
    Makes r.args (r.alone b schedule) (plainCalls schedule (r.units b) b) := by
  intro σ fn s
  exact regionM_plain schedule _ b r.args fn s

end Ragged

/-! ### Batched paged decode

Each sequence has one unit for each kv head, so the walk makes one call a unit. -/

/-- A batch of sequences whose keys and values lie in the blocks of two slabs. -/
structure PagedBatch (β : Type) where
  q : ConstFloats β
  kSlab : ConstFloats β
  vSlab : ConstFloats β
  table : Nat → List Int
  length : Nat → Nat
  out : Int
  numSeqs : Nat
  heads : Nat
  kvHeads : Nat
  d : Nat
  blockSize : Nat
  blockStride : Int
  scale : β

namespace PagedBatch

/-- `PagedDecodeAttentionBatchedF32` of the batch. -/
def batched (r : PagedBatch β) (schedule : Schedule) (σ : Type)
    (fn : UnitsFn (PagedDecodeArgs β) σ) (s : σ) : Checked σ :=
  pagedDecodeAttentionBatchedF32 fn schedule r.q r.kSlab r.vSlab
    ((List.range r.numSeqs).map r.table)
    ((List.range r.numSeqs).map r.length) r.numSeqs r.heads r.kvHeads r.d r.blockSize
    r.blockStride r.scale r.out s

/-- `PagedDecodeAttentionF32` of sequence `b` on its own. -/
def alone (r : PagedBatch β) (b : Nat) (schedule : Schedule) (σ : Type)
    (fn : UnitsFn (PagedDecodeArgs β) σ) (s : σ) : Checked σ :=
  pagedDecodeAttentionF32 fn schedule (r.q.advance (b * (r.heads * r.d) : Nat)) r.kSlab r.vSlab
    (r.table b) (r.length b) r.heads r.kvHeads r.d r.blockSize r.blockStride r.scale
    (r.out + (b * (r.heads * r.d) : Nat)) s

/-- The arguments that `PagedDecodeAttentionF32` passes on for sequence `b`. -/
def args (r : PagedBatch β) (b : Nat) : PagedDecodeArgs β where
  q := r.q.advance (b * (r.heads * r.d) : Nat)
  kSlab := r.kSlab
  vSlab := r.vSlab
  blockTable := r.table b
  out := r.out + (b * (r.heads * r.d) : Nat)
  d := r.d
  length := r.length b
  group := r.heads / r.kvHeads
  blockSize := r.blockSize
  blockStride := r.blockStride
  scale := r.scale

/-- The units of sequence `b`. -/
def ownUnits (r : PagedBatch β) (b : Nat) : List (Nat × Nat) :=
  (List.range r.kvHeads).map fun hk => (b, hk)

/-- The units of the batch, sequence after sequence. -/
def allUnits (r : PagedBatch β) : List (Nat × Nat) := (List.range r.numSeqs).flatMap r.ownUnits

/-- The call for a unit of the batch. -/
def turnCall (r : PagedBatch β) (u : Nat) : UnitsCall :=
  (u / r.kvHeads, u % r.kvHeads, u % r.kvHeads + 1)

/-- The calls of the batch. -/
def calls (r : PagedBatch β) (schedule : Schedule) : List UnitsCall :=
  (schedule.cut (r.numSeqs * r.kvHeads) kAttnHeadGrain).flatMap fun c =>
    (span c.1.toNat c.2.toNat).map r.turnCall

/-- `PagedDecodeBatchedArgs` of the batch. -/
def packed (r : PagedBatch β) : PagedDecodeBatchedArgs β :=
  ⟨r.q, r.kSlab, r.vSlab, (List.range r.numSeqs).map r.table, (List.range r.numSeqs).map r.length,
    r.out, r.numSeqs, r.heads, r.kvHeads, r.d, r.heads / r.kvHeads, r.blockSize, r.blockStride,
    r.scale⟩

variable {r : PagedBatch β}

/-- A chunk makes its calls. -/
theorem pagedDecodeBatchedUnits_eq {σ : Type} (fn : UnitsFn (PagedDecodeArgs β) σ)
    (unitBegin : Nat) {unitEnd : Nat} (hend : unitEnd ≤ r.numSeqs * r.kvHeads) (s : σ) :
    pagedDecodeBatchedUnits r.packed fn unitBegin unitEnd s =
      ((span unitBegin unitEnd).map r.turnCall).foldlM (UnitsCall.run r.args fn) s := by
  rw [List.foldlM_map, pagedDecodeBatchedUnits]
  refine foldlM_congr ?_ s
  intro u hu s
  have hlt : u / r.kvHeads < r.numSeqs := by
    have := mem_span.mp hu
    exact Nat.div_lt_of_lt_mul (by rw [Nat.mul_comm]; omega)
  have htable : readAt r.packed.blockTables (u / r.kvHeads : Nat) =
      .ok (r.table (u / r.kvHeads)) := readAt_map_range hlt
  have hlength : readAt r.packed.lengths (u / r.kvHeads : Nat) =
      .ok (r.length (u / r.kvHeads)) := readAt_map_range hlt
  have hkv : r.packed.kvHeads = r.kvHeads := rfl
  dsimp only
  rw [hkv, htable, ok_bind, hlength, ok_bind]
  rfl

/-- **The batched entry point makes these calls.** -/
theorem batched_makes (hbs : 0 < r.blockSize) (hdvd : r.blockSize ∣ kAttnKb)
    (schedule : Schedule) : Makes r.args (r.batched schedule) (r.calls schedule) := by
  intro σ fn s
  rw [batched, pagedDecodeAttentionBatchedF32]
  by_cases hzero : r.numSeqs = 0
  · have hnone : r.calls schedule = [] := by
      have hcut := cut_perm schedule (r.numSeqs * r.kvHeads) (le_refl kAttnHeadGrain)
      rw [calls, ← List.map_flatMap]
      rw [hzero, Nat.zero_mul] at hcut ⊢
      rw [hcut.eq_nil, List.map_nil]
    rw [if_pos hzero, hnone]
    rfl
  · have hcheck : (decide (0 < r.blockSize) && decide (kAttnKb % r.blockSize = 0)) = true := by
      simp [hbs, Nat.mod_eq_zero_of_dvd hdvd]
    rw [if_neg hzero, check_of_true hcheck, ok_bind, calls, foldlM_flatMap]
    refine foldlM_congr ?_ s
    intro c hc s
    exact pagedDecodeBatchedUnits_eq fn _ (cut_le schedule le_rfl hc) s

/-- **The calls have every unit of every sequence once.** -/
theorem calls_units (r : PagedBatch β) (schedule : Schedule) :
    (callUnits (r.calls schedule)).Perm r.allUnits := by
  have hturn : ∀ u, callUnits [r.turnCall u] = [(u / r.kvHeads, u % r.kvHeads)] := by
    intro u
    rw [callUnits, List.flatMap_singleton, turnCall, span, Nat.add_sub_cancel_left]
    rfl
  have hunits : callUnits (r.calls schedule) =
      ((schedule.cut (r.numSeqs * r.kvHeads) kAttnHeadGrain).flatMap fun c =>
        span c.1.toNat c.2.toNat).flatMap fun u => [(u / r.kvHeads, u % r.kvHeads)] := by
    rw [callUnits, calls, ← List.map_flatMap, List.flatMap_map]
    refine List.flatMap_congr fun u _ => ?_
    rw [← hturn u, callUnits, List.flatMap_singleton]
  have hown : ∀ b, r.ownUnits b = (List.range r.kvHeads).flatMap fun hk => [(b, hk)] :=
    fun b => List.map_eq_flatMap
  rw [hunits, allUnits, List.flatMap_congr fun b _ => hown b,
    ← flatMap_grid r.numSeqs r.kvHeads fun b hk => [(b, hk)]]
  exact (cut_perm schedule _ le_rfl).flatMap_right _

/-- A sequence on its own makes calls for its units. -/
theorem alone_makes (hbs : 0 < r.blockSize) (hdvd : r.blockSize ∣ kAttnKb) (b : Nat)
    (schedule : Schedule) :
    Makes r.args (r.alone b schedule) (plainCalls schedule r.kvHeads b) := by
  intro σ fn s
  have hcheck : (decide (0 < r.blockSize) && decide (kAttnKb % r.blockSize = 0)) = true := by
    simp [hbs, Nat.mod_eq_zero_of_dvd hdvd]
  rw [alone, pagedDecodeAttentionF32, check_of_true hcheck, ok_bind]
  exact regionM_plain schedule _ b r.args fn s

end PagedBatch

end Attention

end InferenceEngine
