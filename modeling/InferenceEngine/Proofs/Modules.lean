/-
Building the modules of a model does not abort, but for RoPE.

The weights a module takes have been loaded: they are views of host memory with positive dims and
fewer than 2^60 bytes.  So the panels of a packed layer, sixteen times the weight at most, are
counted by an `int64_t`.  The tables of RoPE are bounded by nothing, and their shape is where a
config ends the process.
-/
import InferenceEngine.Lib.Fallible
import InferenceEngine.Model.Modules
import InferenceEngine.Proofs.Gemm
import InferenceEngine.Proofs.Loader

namespace InferenceEngine

open Except

/-! ### Fresh tensors

The allocator answers or refuses every size, and a shape of positive dims is fine as long as
their product is. -/

theorem CpuAllocator.allocate_returns (host : HostMemory) (bytes : Nat) :
    (CpuAllocator.allocate host bytes TensorView.emptyAlignment).Returns fun r =>
      ∀ buffer, r = .ok buffer → buffer.sizeBytes = bytes := by
  have hex : ∃ r, CpuAllocator.allocate host bytes TensorView.emptyAlignment = .ok r := by
    unfold CpuAllocator.allocate
    rw [check_of_true (by decide), ok_bind]
    split
    · exact ⟨_, rfl⟩
    · split
      · exact ⟨_, rfl⟩
      · dsimp only
        split
        · exact ⟨_, rfl⟩
        · exact ⟨_, rfl⟩
  obtain ⟨r, hr⟩ := hex
  refine ⟨r, hr, fun buffer hbuffer => ?_⟩
  subst hbuffer
  exact (CpuAllocator.allocate_ok host hr).1

/-- **`Tensor::empty` on the CPU** does not abort. -/
theorem TensorView.empty_returns (host : HostMemory) (shape : Shape) {dtype : DataType}
    (h : isReservedDataType dtype = false) :
    (TensorView.empty host shape dtype .cpu none).Returns fun r => ∀ t, r = .ok t →
      t.dtype = dtype ∧ (0 < shape.numel → t.data ≠ 0) := by
  unfold TensorView.empty
  rw [if_neg (by simp [h]), if_neg (by decide)]
  have hdevice : decide ((defaultCpuAllocator host).device = Device.cpu) = true :=
    decide_eq_true rfl
  rw [Option.getD_none]
  dsimp only
  rw [check_of_true hdevice, ok_bind, TensorView.itemsize_ok h, ok_bind,
    mulOverflow_natCast]
  by_cases hfits : shape.numel * (dtype.itemsizeBits / 8) < 2 ^ 63
  · rw [if_pos hfits]
    dsimp only
    rw [Int.toNat_natCast, show (defaultCpuAllocator host).allocate = CpuAllocator.allocate host
      from rfl]
    refine (CpuAllocator.allocate_returns host _).bind fun r hr => ?_
    cases r with
    | error status => exact returns_pure fun t ht => by cases ht
    | ok buffer =>
        dsimp only
        rw [rowMajorStrides_ok, ok_bind]
        refine returns_pure fun t ht => ?_
        cases ht
        refine ⟨rfl, fun hpos => ?_⟩
        have hsize := hr buffer rfl
        have hbytes := Nat.mul_pos hpos (TensorView.itemsize_pos h)
        have hdata : buffer.data ≠ 0 := fun hzero => by
          have := buffer.data_null_iff.mp hzero
          omega
        unfold TensorView.data
        rw [if_neg hdata]
        show buffer.data + 0 ≠ 0
        omega
  · rw [if_neg hfits]
    exact returns_pure fun t ht => by cases ht

/-- Positive dims whose product fits are the dims of a shape. -/
theorem Shape.literal_returns {dims : List Nat} (hrank : dims.length ≤ maxRank)
    (hprod : nonZeroProduct dims < 2 ^ 63) :
    (Shape.literal (dims.map fun d : Nat => (d : Int))).Returns fun shape => shape.dims = dims := by
  have hback : (dims.map fun d : Nat => (d : Int)).map Int.toNat = dims := by
    rw [List.map_map]
    exact (List.map_congr_left fun d _ => Int.toNat_natCast d).trans (List.map_id dims)
  obtain ⟨shape, hok, hdims⟩ := (Shape.literal_iff (dims.map fun d : Nat => (d : Int))).mpr
    ⟨by simpa using hrank, fun d hd => by
      obtain ⟨n, -, rfl⟩ := List.mem_map.mp hd
      exact Int.natCast_nonneg n, by rw [hback]; exact hprod⟩
  exact ⟨shape, hok, hdims.trans hback⟩

theorem Shape.dim_returns {shape : Shape} {i : Nat} (h : i < shape.rank) :
    (shape.dim i).Returns fun d => ∃ hi : i < shape.dims.length, shape.dims[i] = d := by
  have hi : i < shape.dims.length := h
  unfold Shape.dim
  rw [List.getElem?_eq_getElem hi]
  exact returns_ok ⟨hi, rfl⟩

theorem TensorView.dataPtr_returns {t : TensorView} {dtype : DataType} (h : dtype = t.dtype) :
    t.dataPtr dtype = .ok t.data := by
  unfold TensorView.dataPtr
  rw [check_of_true (decide_eq_true h)]
  rfl

/-- A weight of which the size is known to be bounded. -/
structure TensorView.Weight (t : TensorView) : Prop extends t.Loaded where
  bytes_lt : t.numel * t.itembytes < 2 ^ 60

theorem TensorView.Weight.data_ne_zero {t : TensorView} (h : t.Weight) : t.data ≠ 0 := by
  have hnumel : t.shape.dims.prod ≠ 0 := List.prod_ne_zero fun hzero => by
    have := h.dims_pos 0 hzero
    omega
  rw [← t.shape.numel_eq] at hnumel
  have hin : MixedRadix.Within (MixedRadix.zeros t.shape.dims) t.shape.dims := by
    exact MixedRadix.zeros_within fun hzero => hnumel (t.shape.numel_eq.trans hzero)
  have hinside := h.laid.inside _ hin
  have hitem := h.laid.itembytes_pos
  have hdata : t.buffer.data ≠ 0 := fun hzero => by
    have := t.buffer.data_null_iff.mp hzero
    omega
  unfold TensorView.data
  rw [if_neg hdata]
  omega

namespace Construct

/-- All the weights of a model. -/
def Weights (weights : TextMap TensorView) : Prop :=
  ∀ name t, weights.lookup name = some t → t.Weight

theorem safe_refuse {α : Type} {Q : α → Prop} (status : Status) :
    (refuse status : Building α).Safe Weights Q :=
  Fallible.safe_ofExcept fun _ h => by cases h

theorem safe_attempt {α : Type} {Q : α → Prop} {x : Checked (StatusOr α)}
    (h : x.Returns fun r => ∀ a, r = .ok a → Q a) : (attempt x).Safe Weights Q :=
  (Fallible.safe_ofChecked h).bind fun _ hr => Fallible.safe_ofExcept hr

/-! ### The checks of a tensor

They refuse with a status, and what they let pass has the rank and the dtype they asked for. -/

variable {t : TensorView}

theorem safe_requireLayout (what dims : String) (rank : Nat) (h : t.Loaded) :
    (requireLayout what dims rank t).Safe Weights fun _ => t.shape.rank = rank := by
  unfold requireLayout
  by_cases hrank : t.shape.rank ≠ rank
  · rw [if_pos hrank]
    exact safe_refuse _
  · rw [if_neg hrank]
    obtain ⟨contiguous, hcontiguous⟩ := h.laid.isContiguous_returns
    rw [hcontiguous]
    refine (Fallible.safe_ofChecked (returns_ok (P := fun _ => True) trivial)).bind fun b _ => ?_
    cases b with
    | false => exact safe_refuse _
    | true => exact Fallible.safe_pure (not_not.mp hrank)

theorem safe_requireTensor (what dims : String) (rank : Nat) (h : t.Loaded) :
    (requireTensor what dims rank t).Safe Weights fun _ =>
      t.shape.rank = rank ∧ t.dtype.isSupportedFloat = true := by
  unfold requireTensor
  refine (safe_requireLayout what dims rank h).bind fun _ hrank => ?_
  cases hfloat : t.dtype.isSupportedFloat with
  | false => exact safe_refuse _
  | true => exact Fallible.safe_pure ⟨hrank, rfl⟩

theorem safe_dim {i rank : Nat} (hrank : t.shape.rank = rank) (hi : i < rank) :
    (Fallible.ofChecked (t.shape.dim i) : Building Nat).Safe Weights fun d =>
      ∃ hlt : i < t.shape.dims.length, t.shape.dims[i] = d :=
  Fallible.safe_ofChecked (Shape.dim_returns (by omega))

theorem safe_requireBias (name : String) (outFeatures : Nat) (h : t.Loaded) :
    (requireBias name t outFeatures).Safe Weights fun _ => True := by
  unfold requireBias
  refine (safe_requireTensor _ _ 1 h).bind fun _ hchecked => ?_
  refine (safe_dim hchecked.1 (by decide)).bind fun length _ => ?_
  by_cases hlength : length ≠ outFeatures
  · rw [if_pos hlength]
    exact safe_refuse _
  · rw [if_neg hlength]
    exact Fallible.safe_pure trivial

/-! ### The modules of the reference

They keep the weights as they are and check their shapes. -/

theorem safe_referenceLinear {bias : Option TensorView} (h : t.Loaded)
    (hbias : ∀ b, bias = some b → b.Loaded) :
    (ReferenceLinear.create t bias).Safe Weights fun _ => True := by
  unfold ReferenceLinear.create
  refine (safe_requireTensor _ _ 2 h).bind fun _ hchecked => ?_
  refine (safe_dim hchecked.1 (by decide)).bind fun outFeatures _ => ?_
  refine (safe_dim hchecked.1 (by decide)).bind fun inFeatures _ => ?_
  cases bias with
  | none => exact Fallible.safe_pure trivial
  | some b =>
      refine (safe_requireBias _ outFeatures (hbias b rfl)).bind fun _ _ => ?_
      exact Fallible.safe_pure trivial

theorem safe_rmsNorm (eps : F32) (h : t.Loaded) :
    (RmsNorm.create t eps).Safe Weights fun _ => True := by
  unfold RmsNorm.create
  refine (safe_requireTensor _ _ 1 h).bind fun _ hchecked => ?_
  refine (safe_dim hchecked.1 (by decide)).bind fun hiddenSize _ => ?_
  exact Fallible.safe_pure trivial

theorem safe_embeddingOf (name : String) (h : t.Loaded) :
    (embeddingOf name t).Safe Weights fun _ => True := by
  unfold embeddingOf
  refine (safe_requireTensor _ _ 2 h).bind fun _ hchecked => ?_
  refine (safe_dim hchecked.1 (by decide)).bind fun vocabSize _ => ?_
  refine (safe_dim hchecked.1 (by decide)).bind fun hiddenSize _ => ?_
  exact Fallible.safe_pure trivial

/-! ### Packed layers

The panels are rounded up to sixteen rows.  All of the products on the way to them are bounded
by the bytes of the weight. -/

theorem castWalk_returns (h : t.Laid) : (castWalk t).Returns fun _ => True := by
  unfold castWalk
  rw [TensorView.forEachIndex_eq]
  refine Returns.foldlM (fun rest _ => ∀ index ∈ rest, MixedRadix.Within index t.shape.dims)
    (fun index rest moves hrest => ?_) _ _ (fun index hin => MixedRadix.mem_indices.mp hin)
    |>.mono fun _ _ => trivial
  rw [h.elementOffset_ok (hrest index (by simp)), ok_bind]
  exact returns_pure fun other hother => hrest other (List.mem_cons_of_mem _ hother)

theorem safe_cast (host : HostMemory) {dtype : DataType} (hdtype : isReservedDataType dtype = false)
    (h : t.Loaded) : (cast host t dtype).Safe Weights fun _ => True := by
  unfold cast
  rw [check_of_true (decide_eq_true h.device)]
  refine (Fallible.safe_ofChecked (returns_ok (P := fun _ => True) trivial)).bind fun _ _ => ?_
  rw [h.device]
  refine (safe_attempt (TensorView.empty_returns host t.shape hdtype)).bind fun out hout => ?_
  split
  · exact safe_refuse _
  · split
    · exact Fallible.safe_pure trivial
    · have hhost : (!isReservedDataType t.dtype) = true := by simp [h.laid.allocatable]
      rw [check_of_true hhost, TensorView.dataPtr_returns hout.1.symm]
      refine (Fallible.safe_ofChecked (returns_ok (P := fun _ => True) trivial)).bind fun _ _ => ?_
      refine (Fallible.safe_ofChecked (returns_ok (P := fun _ => True) trivial)).bind fun _ _ => ?_
      refine (Fallible.safe_ofChecked (castWalk_returns h.laid)).bind fun _ _ => ?_
      exact Fallible.safe_pure trivial

/-- The elements of a float weight are at least two bytes wide. -/
theorem two_le_itembytes (h : t.dtype.isSupportedFloat = true) : 2 ≤ t.itembytes := by
  unfold TensorView.itembytes
  cases hdtype : t.dtype <;> rw [hdtype] at h <;> first | decide | cases h

theorem packedPanels_ok {n : Nat} (h : n < 2 ^ 59) :
    packedPanels n = .ok (Kernels.packedPanels n) := by
  unfold packedPanels Kernels.packedPanels Kernels.kNr
  rw [int64Nat_of_lt (by omega)]
  rfl

/-- The panels of a weight of `n` rows: at most fifteen rows are added. -/
theorem packedPanels_bounds {n : Nat} (h : 1 ≤ n) :
    Kernels.packedPanels n * 16 ≤ n + 15 ∧ 1 ≤ Kernels.packedPanels n := by
  unfold Kernels.packedPanels Kernels.kNr
  omega

/-- What is known of the sides of a weight. -/
structure Sides (n k : Nat) : Prop where
  rows : 1 ≤ n
  columns : 1 ≤ k
  area : n * k < 2 ^ 59

theorem Sides.rows_lt {n k : Nat} (h : Sides n k) : n < 2 ^ 59 :=
  lt_of_le_of_lt (Nat.le_mul_of_pos_right n h.columns) h.area

/-- The panels have at most sixteen times the elements of the weight. -/
theorem Sides.panels_lt {n k panels : Nat} (h : Sides n k) (hp : panels * 16 ≤ n + 15) :
    panels * k * 16 < 2 ^ 63 := by
  have hrows := h.rows
  have harea := h.area
  calc panels * k * 16 = (panels * 16) * k := by ring
    _ ≤ (16 * n) * k := Nat.mul_le_mul_right k (by omega)
    _ = 16 * (n * k) := by ring
    _ < 2 ^ 63 := by omega

/-- The copies of a packing: of each place of the panels, where it is and what is copied there. -/
def packPlan (n k : Nat) : List (List (List (Nat × Option Nat))) :=
  (List.range (Kernels.packedPanels n)).map fun p =>
    (List.range k).map fun kk =>
      (List.range Kernels.kNr).map fun r =>
        ((p * k + kk) * Kernels.kNr + r,
          if p * Kernels.kNr + r < n then some ((p * Kernels.kNr + r) * k + kk) else none)

/-- **Packing** stays inside the `int64_t`. -/
theorem packImpl_ok {n k w wp : Nat} (h : Sides n k) (hw : w ≠ 0) (hwp : wp ≠ 0) :
    packImpl w n k wp = .ok (packPlan n k) := by
  have hnonnull : (decide (w ≠ 0) && decide (wp ≠ 0)) = true := by simp [hw, hwp]
  have hsides : (decide (1 ≤ n) && decide (1 ≤ k)) = true := by simp [h.rows, h.columns]
  have hrows := h.rows_lt
  unfold packImpl
  rw [check_of_true hnonnull, ok_bind, check_of_true hsides, ok_bind, packedPanels_ok hrows,
    ok_bind]
  refine mapM_ok fun p hp => mapM_ok fun kk hkk => ?_
  have hp := List.mem_range.mp hp
  have hkk := List.mem_range.mp hkk
  have hrow : (p + 1) * k ≤ Kernels.packedPanels n * k := Nat.mul_le_mul_right k hp
  have hbounds := (packedPanels_bounds h.rows).1
  have htotal := h.panels_lt hbounds
  rw [Nat.succ_mul] at hrow
  rw [int64Nat_of_lt (by omega), ok_bind, Kernels.kNr, int64Nat_of_lt (by omega), ok_bind]
  refine mapM_ok fun r hr => ?_
  have hr := List.mem_range.mp hr
  rw [int64Nat_of_lt (by omega), ok_bind]
  by_cases hlt : p * 16 + r < n
  · have hstart : (p * 16 + r) * k < n * k := Nat.mul_lt_mul_of_pos_right hlt h.columns
    have harea := h.area
    rw [if_pos hlt, if_pos hlt, int64Nat_of_lt (by omega)]
    rfl
  · rw [if_neg hlt, if_neg hlt]
    rfl

/-- The stores of some copies out of the weight `w`; where nothing is copied a zero is stored. -/
def copies {T : Type} (zero : T) (w : List T) (plan : List (List (List (Nat × Option Nat)))) :
    List (Nat × T) :=
  plan.flatten.flatten.map fun copy => (copy.1, copy.2.elim zero fun i => w.getD i zero)

/-- **The copies are those of the kernel**: made one after the other, they leave in the panels
what the kernel leaves there in any order. -/
theorem packImpl_packs {T : Type} (zero : T) (schedule : Schedule) {n k a b : Nat} {w wp : List T}
    (h : Sides n k) (ha : a ≠ 0) (hb : b ≠ 0) (hw : w.length = n * k)
    (hwp : wp.length = Kernels.packedWeightElements n k) :
    (packImpl a n k b).Returns fun plan =>
      Stores.storeAll .outOfBounds wp (copies zero w plan)
        = Kernels.packWeightPanels schedule zero w n k wp := by
  rw [packImpl_ok h ha hb]
  refine returns_ok ?_
  have hcopies : copies zero w (packPlan n k) =
      (List.range (Kernels.packedPanels n)).flatMap fun p => (List.range k).flatMap fun kk =>
        (List.range Kernels.kNr).flatMap fun r =>
          [((p * k + kk) * Kernels.kNr + r,
            Kernels.paddedRow zero w n k (p * Kernels.kNr + r) kk)] := by
    unfold copies packPlan
    rw [← List.flatMap_def, List.flatten_eq_flatMap, List.flatMap_assoc, List.map_flatMap]
    refine List.flatMap_congr fun p _ => ?_
    rw [List.flatMap_id, ← List.flatMap_def, List.map_flatMap]
    refine List.flatMap_congr fun kk _ => ?_
    rw [List.map_map, ← List.map_eq_flatMap]
    refine List.map_congr_left fun r _ => ?_
    show (_, Option.elim (if _ then _ else _) zero _) = (_, Kernels.paddedRow zero w n k _ kk)
    unfold Kernels.paddedRow
    split <;> rfl
  rw [Kernels.packWeightPanels_ok schedule h.rows h.columns hw hwp,
    (Kernels.fills_panels zero w n k (List.Perm.of_eq hcopies)).storeAll _ hwp,
    Kernels.packedWeight]

/-- The sides of a weight matrix. -/
theorem sides_of_weight {n k : Nat} (h : t.Weight) (hrank : t.shape.rank = 2)
    (hfloat : t.dtype.isSupportedFloat = true)
    (hn : ∃ hlt : 0 < t.shape.dims.length, t.shape.dims[0] = n)
    (hk : ∃ hlt : 1 < t.shape.dims.length, t.shape.dims[1] = k) : Sides n k := by
  obtain ⟨hlt, rfl⟩ := hn
  obtain ⟨hlt', rfl⟩ := hk
  have hdims : t.shape.dims = [t.shape.dims[0], t.shape.dims[1]] := by
    obtain ⟨a, b, hab⟩ := List.length_eq_two.mp hrank
    simp [hab]
  have hnumel : t.numel = t.shape.dims[0] * t.shape.dims[1] := by
    rw [TensorView.numel, t.shape.numel_eq]
    conv_lhs => rw [hdims]
    simp
  have hbytes := h.bytes_lt
  have hitem := two_le_itembytes hfloat
  have htwice := Nat.mul_le_mul_left t.numel hitem
  exact ⟨h.dims_pos _ (List.getElem_mem hlt), h.dims_pos _ (List.getElem_mem hlt'),
    by rw [← hnumel]; omega⟩

theorem safe_packedBias (host : HostMemory) {bias : Option TensorView} (outFeatures : Nat)
    (hbias : ∀ b, bias = some b → b.Weight) :
    (packedBias host bias outFeatures).Safe Weights fun _ => True := by
  cases bias with
  | none => exact Fallible.safe_pure trivial
  | some b =>
      have hb := (hbias b rfl).toLoaded
      refine (safe_requireBias _ outFeatures hb).bind fun _ _ => ?_
      refine (safe_cast host rfl hb).bind fun _ _ => ?_
      exact Fallible.safe_pure trivial

/-- **A packed layer** is built or refused. -/
theorem safe_packedLinear (host : HostMemory) {bias : Option TensorView} (h : t.Weight)
    (hbias : ∀ b, bias = some b → b.Weight) :
    (PackedLinear.create host t bias).Safe Weights fun _ => True := by
  unfold PackedLinear.create
  refine (safe_requireTensor _ _ 2 h.toLoaded).bind fun _ hchecked => ?_
  refine (safe_dim hchecked.1 (by decide)).bind fun n hn => ?_
  refine (safe_dim hchecked.1 (by decide)).bind fun k hk => ?_
  have hsides := sides_of_weight h hchecked.1 hchecked.2 hn hk
  refine (safe_packedBias host n hbias).bind fun _ _ => ?_
  have hpanels := packedPanels_bounds hsides.rows
  rw [packedPanels_ok hsides.rows_lt]
  refine (Fallible.safe_ofChecked (returns_ok (P := fun x => x = Kernels.packedPanels n) rfl)).bind
    fun panels hn => ?_
  rw [← hn] at hpanels
  have htotal := hsides.panels_lt hpanels.1
  have hrank : [panels, k, Kernels.kNr].length ≤ maxRank := by simp [maxRank]
  have hprod : nonZeroProduct [panels, k, Kernels.kNr] < 2 ^ 63 := by
    have hcolumns := hsides.columns
    simp only [nonZeroProduct, List.map_cons, List.map_nil, List.prod_cons, List.prod_nil,
      Kernels.kNr, Nat.max_eq_left hpanels.2, Nat.max_eq_left hcolumns]
    rw [← Nat.mul_assoc]
    simpa using htotal
  refine (Fallible.safe_ofChecked (Shape.literal_returns hrank hprod)).bind
    fun shape hshape => ?_
  have hnumel : 0 < shape.numel := by
    rw [shape.numel_eq, hshape]
    have hpos := Nat.mul_pos hpanels.2 hsides.columns
    simp only [List.prod_cons, List.prod_nil, Kernels.kNr]
    rw [← Nat.mul_assoc]
    omega
  rw [h.device]
  refine (safe_attempt (TensorView.empty_returns host shape h.laid.allocatable)).bind
    fun packed hpacked => ?_
  have hinto : packInto t n k packed = .ok () := by
    unfold packInto
    rw [check_of_true hchecked.2, ok_bind, TensorView.dataPtr_returns rfl, ok_bind,
      TensorView.dataPtr_returns hpacked.1.symm, ok_bind,
      packImpl_ok hsides h.data_ne_zero (hpacked.2 hnumel)]
    rfl
  rw [hinto]
  refine (Fallible.safe_ofChecked (returns_ok (P := fun _ => True) trivial)).bind fun _ _ => ?_
  exact Fallible.safe_pure trivial

end Construct

end InferenceEngine
