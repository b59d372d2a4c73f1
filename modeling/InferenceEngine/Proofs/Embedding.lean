/-
The embedding may share the packed weight of the head.

Both lookups store, for every token, its row of the table.  The packed one undoes what packing
did, wherever the row is in its panel, and whether or not the last chunk of a row is full.
-/
import InferenceEngine.Model.PackedLinear
import InferenceEngine.Proofs.Gemm

namespace InferenceEngine

open Except Stores Parallel

variable {β : Type}

/-- What the lookups store for token `t`: the row `id` of the table. -/
def lookupRow (values : List β) (zero : β) (e t : Nat) (id : Int) : List (Nat × β) :=
  (List.range e).flatMap fun k => [(t * e + k, values.getD (id.toNat * e + k) zero)]

namespace Kernels

variable {T : Type} {V e : Nat} {ids : List Int}

theorem readAt_id (hids : ∀ id ∈ ids, 0 ≤ id ∧ id < V) {t : Nat} (ht : t < ids.length) :
    ∃ v : Nat, readAt ids (t : Int) = .ok (v : Int) ∧ ids.getD t 0 = v ∧ v < V := by
  obtain ⟨h0, hlt⟩ := hids ids[t] (List.getElem_mem ht)
  refine ⟨ids[t].toNat, ?_, ?_, by omega⟩
  · rw [readAt_natCast ht, Int.toNat_of_nonneg h0]
  · rw [List.getD_eq_getElem _ _ ht, Int.toNat_of_nonneg h0]

/-! ### The table as it is

A row of the table is converted and stored element by element, at the place of its token. -/

theorem convertRow_ok (convert : T → β) (zero : β) {src : List T} {from_ n : Nat}
    (h : from_ + n ≤ src.length) (at_ : Nat) :
    convertRow convert src from_ at_ n =
      .ok ((List.range n).flatMap fun i =>
        [(at_ + i, (src.map convert).getD (from_ + i) zero)]) := by
  refine forEach_ok fun i hi => ?_
  have hi := List.mem_range.mp hi
  obtain ⟨v, hv, hconvert⟩ := readAt_widen convert (show from_ + i < src.length by omega) zero
  rw [← Nat.cast_add, hv, ok_bind, hconvert]
  rfl

theorem gatherRows_ok (convert : T → β) (zero : β) {src : List T} (hsrc : src.length = V * e)
    (hids : ∀ id ∈ ids, 0 ≤ id ∧ id < V) {first last : Nat} (hlast : last ≤ ids.length) :
    gatherRows convert src e ids first last =
      .ok ((span first last).flatMap fun t =>
        lookupRow (src.map convert) zero e t (ids.getD t 0)) := by
  refine forEach_ok fun t ht => ?_
  obtain ⟨v, hread, hget, hv⟩ := readAt_id hids (show t < ids.length by
    have := (mem_span.mp ht).2
    omega)
  have hfit : v * e + e ≤ src.length := by
    rw [hsrc, ← Nat.succ_mul]
    exact Nat.mul_le_mul_right e hv
  rw [hread, ok_bind, ← Nat.cast_mul, convertRow_ok convert zero hfit, hget]
  rfl

/-! ### The packed table

Sixteen rows share a panel, one lane each.  A row is read lane by lane in chunks, and the last
chunk of a row is cut where the row ends. -/

theorem packedColumn_natCast (v : Nat) :
    packedColumn e v = ((v / kNr * e * kNr + v % kNr : Nat) : Int) := by
  rw [packedColumn, ← Int.ofNat_tdiv, ← Int.ofNat_tmod]
  push_cast
  rfl

/-- **A lane of a panel is a row of the table.** -/
theorem readAt_packedColumn (zero : T) (w : List T) {v k : Nat} (hv : v < V) (hk : k < e) :
    readAt (packedWeight zero w V e) (packedColumn e v + k * kNr) =
      .ok (w.getD (v * e + k) zero) := by
  have hrow : v / kNr * kNr + v % kNr = v := Nat.div_add_mod' v kNr
  have hoff : (packedColumn e v + k * kNr : Int) =
      ((v / kNr * e * kNr + k * kNr + v % kNr : Nat) : Int) := by
    rw [packedColumn_natCast]
    push_cast
    omega
  have hsome : (packedWeight zero w V e)[v / kNr * e * kNr + k * kNr + v % kNr]? =
      some (w.getD ((v / kNr * kNr + v % kNr) * e + k) zero) :=
    packedWeight_getElem? (Nat.mod_lt v (by decide)) (by omega) hk
  rw [hrow] at hsome
  obtain ⟨hlt, hget⟩ := List.getElem?_eq_some_iff.mp hsome
  rw [hoff, readAt_natCast hlt, hget]

theorem gatherLane_ok (zero : β) (w : List β)
    (hids : ∀ id ∈ ids, 0 ≤ id ∧ id < V) {first last : Nat} (hlast : last ≤ ids.length) :
    gatherLane (packedWeight zero w V e) e ids first last =
      .ok ((span first last).flatMap fun t => lookupRow w zero e t (ids.getD t 0)) := by
  refine forEach_ok fun t ht => ?_
  obtain ⟨v, hread, hget, hv⟩ := readAt_id hids (show t < ids.length by
    have := (mem_span.mp ht).2
    omega)
  rw [hread, ok_bind, hget]
  refine forEach_ok fun k hk => ?_
  rw [readAt_packedColumn zero w hv (List.mem_range.mp hk), ok_bind]
  rfl

/-- What a chunk of the staged gather stores. -/
theorem chunk_ok (widen : UInt16 → β) (zero : β) {w : List UInt16} (hw : w.length = V * e)
    {v : Nat} (hv : v < V) (t off : Nat) :
    (do
      let buf ← (List.range (min kGatherChunk (e - off))).mapM fun j : Nat =>
        readAt (packedWeight 0 w V e) (packedColumn e v + (off + j) * kNr)
      convertRow widen buf 0 (t * e + off) (min kGatherChunk (e - off))) =
    .ok ((span off (min (off + kGatherChunk) e)).flatMap fun k =>
      [(t * e + k, (w.map widen).getD (v * e + k) zero)]) := by
  have hbuf : ((List.range (min kGatherChunk (e - off))).mapM fun j : Nat =>
      readAt (packedWeight 0 w V e) (packedColumn e v + (off + j) * kNr)) =
      .ok ((List.range (min kGatherChunk (e - off))).map fun j =>
        w.getD (v * e + (off + j)) 0) := by
    refine mapM_ok fun j hj => ?_
    have hj := List.mem_range.mp hj
    rw [← Nat.cast_add]
    exact readAt_packedColumn 0 w hv (by omega)
  have hfull : 0 + min kGatherChunk (e - off) ≤ ((List.range (min kGatherChunk (e - off))).map
      fun j => w.getD (v * e + (off + j)) 0).length := by simp
  rw [hbuf, ok_bind]
  refine (convertRow_ok widen zero hfull (t * e + off)).trans ?_
  rw [span_eq_map, List.flatMap_map, show min (off + kGatherChunk) e - off =
    min kGatherChunk (e - off) by omega]
  congr 1
  refine List.flatMap_congr fun j hj => ?_
  have hj := List.mem_range.mp hj
  have hlt : v * e + (off + j) < w.length := by
    rw [hw]
    exact row_lt hv (by omega)
  rw [Nat.zero_add, List.getD_eq_getElem _ _ (by simpa using hj),
    List.getD_eq_getElem _ _ (by simpa using hlt), List.getElem_map, List.getElem_map,
    List.getElem_map, List.getElem_range, List.getD_eq_getElem _ _ hlt, Nat.add_assoc]

theorem gatherStaged_ok (widen : UInt16 → β) (zero : β) {w : List UInt16}
    (hw : w.length = V * e) (hids : ∀ id ∈ ids, 0 ≤ id ∧ id < V) {first last : Nat}
    (hlast : last ≤ ids.length) :
    gatherStaged widen (packedWeight 0 w V e) e ids first last =
      .ok ((span first last).flatMap fun t =>
        lookupRow (w.map widen) zero e t (ids.getD t 0)) := by
  refine forEach_ok fun t ht => ?_
  obtain ⟨v, hread, hget, hv⟩ := readAt_id hids (show t < ids.length by
    have := (mem_span.mp ht).2
    omega)
  rw [hread, ok_bind, hget]
  refine (forEach_ok fun off _ => chunk_ok widen zero hw hv t off).trans ?_
  rw [← List.flatMap_assoc, flatMap_strided e (show 0 < kGatherChunk by decide)]
  rfl

/-! ### The lookups

Both are written as the stores they make, in the same order, so they can be compared without a
memory. -/

section Lookups

variable (arith : Arithmetic β) {table : Elements β}

theorem gatherRowMajor_ok (htable : table.Holds (V * e)) (hids : ∀ id ∈ ids, 0 ≤ id ∧ id < V)
    {first last : Nat} (hlast : last ≤ ids.length) :
    gatherRowMajor arith table e ids first last = .ok ((span first last).flatMap fun t =>
      lookupRow (table.widened arith) arith.zero e t (ids.getD t 0)) := by
  cases table with
  | f32 src =>
      have hrows : gatherRows (fun v => v) src e ids first last = _ :=
        gatherRows_ok (fun v : β => v) arith.zero htable hids hlast
      rwa [List.map_id'] at hrows
  | f16 src => exact gatherRows_ok arith.fp16ToFp32 arith.zero htable hids hlast
  | bf16 src => exact gatherRows_ok arith.bf16ToFp32 arith.zero htable hids hlast
  | other dtype unsupported => exact absurd htable id

theorem gatherPacked_ok (htable : table.Holds (V * e)) (hids : ∀ id ∈ ids, 0 ≤ id ∧ id < V)
    {first last : Nat} (hlast : last ≤ ids.length) :
    gatherPacked arith (table.packed arith V e) e ids first last =
      .ok ((span first last).flatMap fun t =>
        lookupRow (table.widened arith) arith.zero e t (ids.getD t 0)) := by
  cases table with
  | f32 src => exact gatherLane_ok arith.zero src hids hlast
  | f16 src => exact gatherStaged_ok arith.fp16ToFp32 arith.zero htable hids hlast
  | bf16 src => exact gatherStaged_ok arith.bf16ToFp32 arith.zero htable hids hlast
  | other dtype unsupported => exact absurd htable id

/-- **Both lookups store the rows of the table**, in the same order. -/
theorem lookups_ok (schedule : Schedule) (htable : table.Holds (V * e))
    (hids : ∀ id ∈ ids, 0 ≤ id ∧ id < V) :
    ∃ log, embeddingLookupPackedF32 arith schedule (table.packed arith V e) e ids ids.length =
        .ok log ∧
      embeddingLookupF32 arith schedule table e ids ids.length = .ok log ∧
      Fills (ids.length * e) (fun c =>
        (table.widened arith).getD ((ids.getD (c / e) 0).toNat * e + c % e) arith.zero) log := by
  refine ⟨_, region_ok (by decide) fun _ _ hlast => gatherPacked_ok arith htable hids hlast,
    region_ok (by decide) fun _ _ hlast => gatherRowMajor_ok arith htable hids hlast, ?_⟩
  exact Fills.of_rows (flatMap_order_perm (by decide) _)

end Lookups

end Kernels

/-! ### The embedding

The checks of an embedding read the ids and the sizes only, and those are the same for both
tables. -/

namespace OptimizedEmbedding

variable (arith : Arithmetic β) {V E : Nat} {table : Elements β}

theorem scanIds_ok {vocabSize : Nat} : ∀ {ids : List Int} {t : Nat},
    scanIds vocabSize t ids = .ok () → ∀ id ∈ ids, 0 ≤ id ∧ id < vocabSize := by
  intro ids
  induction ids with
  | nil => intro t _ id hid; exact absurd hid List.not_mem_nil
  | cons id rest ih =>
      intro t h other hother
      rw [scanIds] at h
      by_cases hbad : id < 0 ∨ (vocabSize : Int) ≤ id
      · rw [if_pos hbad] at h
        cases h
      · rw [if_neg hbad] at h
        rcases List.mem_cons.mp hother with rfl | hother
        · omega
        · exact ih h other hother

theorem ids_of_requireForward {self : OptimizedEmbedding β} {ids : List Int} {y : StoredTensor β}
    (h : self.requireForward ids y = .ok ()) : ∀ id ∈ ids, 0 ≤ id ∧ id < self.vocabSize := by
  refine scanIds_ok (t := 0) ?_
  unfold requireForward at h
  dsimp only at h
  split at h
  · cases h
  split at h
  · cases h
  split at h
  · cases h
  split at h
  · cases h
  exact h

/-- An embedding from the packed weight and one from the table do the same with every list of ids,
also with one that is refused. -/
theorem forward_eq (schedule : Schedule) (htable : table.Holds (V * E)) (ids : List Int)
    (y : StoredTensor β) :
    forward ⟨table.packed arith V E, true, V, E⟩ arith schedule ids y =
      forward ⟨table, false, V, E⟩ arith schedule ids y := by
  have hsame : requireForward ⟨table.packed arith V E, true, V, E⟩ ids y =
      requireForward ⟨table, false, V, E⟩ ids y := rfl
  unfold forward
  rw [hsame]
  cases hok : requireForward ⟨table, false, V, E⟩ ids y with
  | error status => rfl
  | ok u =>
      obtain ⟨log, hpacked, hplain, -⟩ :=
        Kernels.lookups_ok arith schedule htable (ids_of_requireForward hok)
      simp only [if_true, Bool.false_eq_true, if_false, hpacked, hplain]

theorem fromTable_matrix (htable : table.Holds (V * E)) :
    fromTable (.matrix V E table htable) = .ok ⟨table, false, V, E⟩ := by
  cases table with
  | other dtype unsupported => exact absurd htable id
  | _ src => rfl

theorem create_matrix (packing : Schedule) (fresh : Uninitialized β) (hV : 1 ≤ V) (hE : 1 ≤ E)
    (htable : table.Holds (V * E)) (bias : Option {b : Elements β // b.Holds V}) :
    PackedLinear.create arith packing fresh (.matrix V E table htable)
        (bias.map fun b => .vector V b.1 b.2) =
      .ok (.ok ⟨table.packed arith V E, bias.map fun b => b.1.widened arith, E, V⟩) := by
  have hvalid : PackedLinear.validate (.matrix V E table htable)
      (bias.map fun b => StoredTensor.vector V b.1 b.2) = .ok () := by
    cases table with
    | other dtype unsupported => exact absurd htable id
    | _ src =>
        cases bias with
        | none => rfl
        | some b =>
            obtain ⟨b, hb⟩ := b
            cases b with
            | other dtype unsupported => exact absurd hb id
            | _ data => simp [PackedLinear.validate, StoredTensor.rank, StoredTensor.matrix,
                StoredTensor.vector, StoredTensor.dtype, StoredTensor.dim, Elements.dtype,
                DataType.isSupportedFloat, pure, Except.pure]
  have hpack := packInto_ok arith packing fresh hV hE htable
  rw [PackedLinear.create, hvalid]
  refine bind_eq_ok.mpr ⟨_, hpack, ?_⟩
  rw [Option.map_map]
  rfl

end OptimizedEmbedding

/-- **A tied embedding may share the packed weight of the head.** -/
theorem tied_embedding_shares (arith : Arithmetic β) {V E : Nat} (hV : 1 ≤ V) (hE : 1 ≤ E)
    {table : Elements β} (htable : table.Holds (V * E))
    (bias : Option {b : Elements β // b.Holds V}) (fresh : Uninitialized β) (packing : Schedule) :
    ∃ head own, PackedLinear.create arith packing fresh (.matrix V E table htable)
          (bias.map fun b => .vector V b.1 b.2) = .ok (.ok head) ∧
      OptimizedEmbedding.fromTable (.matrix V E table htable) = .ok own ∧
      packInto arith packing table V E
          (fresh.like (Kernels.packedWeightElements V E) table) = .ok head.packed ∧
      head.packed.Holds (Kernels.packedWeightElements V E) ∧
      (∀ ids : List Int, (∀ id ∈ ids, 0 ≤ id ∧ id < V) → ∀ schedule : Schedule, ∃ log,
        Kernels.embeddingLookupPackedF32 arith schedule head.packed E ids ids.length = .ok log ∧
        Kernels.embeddingLookupF32 arith schedule table E ids ids.length = .ok log ∧
        Fills (ids.length * E) (fun c =>
          (table.widened arith).getD ((ids.getD (c / E) 0).toNat * E + c % E) arith.zero) log) ∧
      ∀ (schedule : Schedule) (ids : List Int) (y : StoredTensor β),
        (OptimizedEmbedding.fromPackedLinear head).forward arith schedule ids y =
          own.forward arith schedule ids y := by
  refine ⟨_, _, OptimizedEmbedding.create_matrix arith packing fresh hV hE htable bias,
    OptimizedEmbedding.fromTable_matrix htable, packInto_ok arith packing fresh hV hE htable,
    packed_holds arith htable, ?_, ?_⟩
  · intro ids hids schedule
    exact Kernels.lookups_ok arith schedule htable hids
  · intro schedule ids y
    exact OptimizedEmbedding.forward_eq arith schedule htable ids y

/-- Three rows of two integers. -/
theorem tied_embedding_shares_small :
    let ints : Arithmetic Int := ⟨0, (· + ·), (· * ·), fun b => b.toNat, fun b => b.toNat⟩
    let zeros : Uninitialized Int :=
      ⟨fun n => .replicate n 0, fun n => .replicate n 0, fun _ => List.length_replicate,
        fun _ => List.length_replicate⟩
    ∃ head own, PackedLinear.create ints .inOrder zeros
          (.matrix 3 2 (.f32 [1, 2, 3, 4, 5, 6]) rfl) none = .ok (.ok head) ∧
      OptimizedEmbedding.fromTable (.matrix 3 2 (.f32 [1, 2, 3, 4, 5, 6]) rfl) = .ok own ∧
      ∀ (schedule : Schedule) (ids : List Int) (y : StoredTensor Int),
        (OptimizedEmbedding.fromPackedLinear head).forward ints schedule ids y =
          own.forward ints schedule ids y := by
  intro ints zeros
  obtain ⟨head, own, hhead, hown, -, -, -, hsame⟩ := tied_embedding_shares ints (V := 3) (E := 2)
    (by decide) (by decide) (show (Elements.f32 [1, 2, 3, 4, 5, 6]).Holds (3 * 2) from rfl) none
    zeros .inOrder
  exact ⟨head, own, hhead, hown, hsame⟩

end InferenceEngine
