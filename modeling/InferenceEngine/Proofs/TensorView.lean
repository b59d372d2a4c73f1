/-
What a chain of views keeps.

Slicing leaves the strides alone, so the strides of a view need not be those of its own
shape: they are the row-major strides of a shape at least as large in every dim, the one
the last reshape gave.  With the bound that every element still lies in the buffer this is
`Laid`, which every view operation keeps.  Everything else is read off it: element offsets
stay in range, different indices have different offsets, and a view whose strides pass the
contiguity test enumerates its bytes in order.

A copy then has two descriptions, element by element and as one block, and both write the
source's bytes to the destination's places.
-/
import InferenceEngine.Tensor.View
import Mathlib.Algebra.BigOperators.Ring.List

namespace InferenceEngine

open Except FlatMemory
open MixedRadix (Within indices offset)

/-! ### Strides and the contiguity test

The strides of a contiguous view are those of a mixed radix, where a dim of one may have any. -/

namespace Shape

/-- The radices of the row-major strides: a dim of zero counts as one. -/
def radices (shape : Shape) : List Nat := shape.dims.map (max · 1)

theorem dims_le_radices (shape : Shape) : List.Forall₂ (· ≤ ·) shape.dims shape.radices := by
  unfold radices
  rw [List.forall₂_map_right_iff]
  exact List.forall₂_same.mpr fun d _ => Nat.le_max_left d 1

theorem radices_eq {shape : Shape} (h : shape.numel ≠ 0) : shape.radices = shape.dims := by
  rw [shape.numel_eq] at h
  unfold radices
  conv_rhs => rw [← List.map_id shape.dims]
  refine List.map_congr_left fun d hd => ?_
  have hd0 : d ≠ 0 := fun h0 => h (List.prod_eq_zero (h0 ▸ hd))
  exact Nat.max_eq_left (Nat.pos_of_ne_zero hd0)

theorem numel_ne_zero {shape : Shape} {index : List Nat} (h : Within index shape.dims) :
    shape.numel ≠ 0 := by
  rw [shape.numel_eq]
  exact (Within.prod_pos h).ne'

theorem numel_lt (shape : Shape) : shape.numel < 2 ^ 63 := by
  rw [shape.numel_eq]
  refine Nat.lt_of_le_of_lt ?_ shape.nonZeroProduct_lt
  exact List.Forall₂.prod_le_prod' shape.dims_le_radices

theorem fromDims_ok (dims : List Int) (h : (validateDims dims).defect = .none) :
    ∃ shape, fromDims dims = .ok shape ∧ shape.dims = dims.map Int.toNat := by
  unfold fromDims
  split
  · simp_all
  · simp_all
  · simp_all
  · exact ⟨_, rfl, rfl⟩

/-- A dim may always be made smaller. -/
theorem fromDims_set_ok (shape : Shape) {k d : Nat} (hk : k < shape.dims.length)
    (hd : d ≤ shape.dims[k]) :
    ∃ newShape, fromDims ((shape.dims.map fun d : Nat => (d : Int)).set k d) = .ok newShape ∧
      newShape.dims = shape.dims.set k d := by
  have hset : ((shape.dims.map fun d : Nat => (d : Int)).set k d)
      = (shape.dims.set k d).map fun d : Nat => (d : Int) := by
    rw [List.map_set]
  have hnat : ((shape.dims.set k d).map fun d : Nat => (d : Int)).map Int.toNat
      = shape.dims.set k d := by
    rw [List.map_map]
    exact List.map_id _
  have hle : nonZeroProduct (shape.dims.set k d) ≤ nonZeroProduct shape.dims := by
    refine List.Forall₂.prod_le_prod' ?_
    rw [List.forall₂_map_left_iff, List.forall₂_map_right_iff]
    refine (MixedRadix.forall₂_le_set (List.forall₂_same.mpr fun d _ => Nat.le_refl d) hk hd).imp ?_
    intro a b hab
    exact max_le_max_right 1 hab
  have hlt := shape.nonZeroProduct_lt
  obtain ⟨newShape, hok, hdims⟩ := fromDims_ok
    ((shape.dims.set k d).map fun d : Nat => (d : Int)) ((validateDims_iff _).mpr
      ⟨by simpa using shape.rank_le,
        fun x hx => by
          obtain ⟨n, _, rfl⟩ := List.mem_map.mp hx
          exact Int.natCast_nonneg n,
        by rw [hnat]; omega⟩)
  rw [hset]
  exact ⟨newShape, hok, hdims.trans hnat⟩

end Shape

theorem rowMajorStridesFrom_ok {ds : List Nat} (h : nonZeroProduct ds < 2 ^ 63) :
    rowMajorStridesFrom ds = .ok (MixedRadix.strides (ds.map (max · 1)), nonZeroProduct ds) := by
  induction ds with
  | nil => rfl
  | cons d ds ih =>
      rw [nonZeroProduct_cons] at h
      have hle : nonZeroProduct ds ≤ max d 1 * nonZeroProduct ds :=
        Nat.le_mul_of_pos_left _ (by omega)
      rw [rowMajorStridesFrom, ih (by omega), ok_bind]
      show (int64Nat (nonZeroProduct ds * max d 1) >>= _) = _
      rw [Nat.mul_comm, int64Nat_of_lt h, nonZeroProduct_cons]
      rfl

theorem rowMajorStrides_ok (shape : Shape) :
    rowMajorStrides shape = .ok (MixedRadix.strides shape.radices) := by
  unfold rowMajorStrides
  rw [rowMajorStridesFrom_ok shape.nonZeroProduct_lt]
  rfl

/-- The loop compares every stride that matters with the row-major one. -/
theorem isContiguousFrom_ok {ds : List Nat} :
    ∀ {ss : List Nat}, ds.prod ≠ 0 → ds.prod < 2 ^ 63 → ss.length = ds.length →
      (MixedRadix.Dense ds ss → isContiguousFrom ds ss = .ok (some ds.prod)) ∧
        (¬MixedRadix.Dense ds ss → isContiguousFrom ds ss = .ok none) := by
  induction ds with
  | nil =>
      intro ss _ _ hlen
      rw [List.length_nil, List.length_eq_zero_iff] at hlen
      subst hlen
      exact ⟨fun _ => rfl, fun h => absurd trivial h⟩
  | cons d ds ih =>
      intro ss hne hlt hlen
      cases ss with
      | nil => cases hlen
      | cons s ss =>
          rw [List.prod_cons] at hne hlt ⊢
          have hle : ds.prod ≤ d * ds.prod :=
            Nat.le_mul_of_pos_left _ (Nat.pos_of_ne_zero (left_ne_zero_of_mul hne))
          obtain ⟨hdense, hsparse⟩ := ih (right_ne_zero_of_mul hne) (by omega)
            (by simpa using hlen)
          rw [isContiguousFrom]
          by_cases hrest : MixedRadix.Dense ds ss
          · rw [hdense hrest, ok_bind]
            dsimp only
            by_cases hone : d = 1
            · rw [if_pos hone, hone, Nat.one_mul]
              exact ⟨fun _ => rfl, fun h => absurd ⟨.inl rfl, hrest⟩ h⟩
            · rw [if_neg hone]
              by_cases hs : s = ds.prod
              · rw [if_neg (by simpa using hs), Nat.mul_comm, int64Nat_of_lt hlt]
                exact ⟨fun _ => rfl, fun h => absurd ⟨.inr hs, hrest⟩ h⟩
              · rw [if_pos hs]
                exact ⟨fun h => absurd h.1 (by tauto), fun _ => rfl⟩
          · rw [hsparse hrest, ok_bind]
            exact ⟨fun h => absurd h.2 hrest, fun _ => rfl⟩

theorem elementOffsetFrom_ok {index : List Nat} :
    ∀ {ss : List Nat} {acc : Nat}, index.length = ss.length →
      acc + offset index ss < 2 ^ 63 →
      elementOffsetFrom acc index ss = .ok (acc + offset index ss) := by
  induction index with
  | nil =>
      intro ss acc hlen _
      cases ss with
      | nil => rfl
      | cons s ss => cases hlen
  | cons i index ih =>
      intro ss acc hlen hlt
      cases ss with
      | nil => cases hlen
      | cons s ss =>
          rw [MixedRadix.offset_cons] at hlt ⊢
          rw [elementOffsetFrom, int64Nat_of_lt (by omega), ok_bind,
            int64Nat_of_lt (by omega), ok_bind, ih (by simpa using hlen) (by omega)]
          congr 1
          omega

/-! ### The invariant

A view is read as where each of its elements lies.  The operations are compared by that. -/

namespace TensorView

/-- `itemsize(dtype)`, for the types a view may have. -/
def itembytes (t : TensorView) : Nat := t.dtype.itemsizeBits / 8

/-- Where the element at `index` begins in the buffer. -/
def place (t : TensorView) (index : List Nat) : Nat :=
  t.byteOffset + offset index t.strides * t.itembytes

/-- Where the elements begin, in row-major order. -/
def elements (t : TensorView) : List Nat := (indices t.shape.dims).map t.place

/-- What every view operation keeps. -/
structure Laid (t : TensorView) : Prop where
  allocatable : isReservedDataType t.dtype = false
  /-- The strides are the row-major ones of a shape at least as large. -/
  radices : ∃ ps, t.strides = MixedRadix.strides ps ∧ List.Forall₂ (· ≤ ·) t.shape.dims ps ∧
    0 < ps.prod ∧ ps.prod < 2 ^ 63
  inside : ∀ index, Within index t.shape.dims → t.place index + t.itembytes ≤ t.buffer.sizeBytes

theorem itemsize_ok {dtype : DataType} (h : isReservedDataType dtype = false) :
    dtype.itemsize = .ok (dtype.itemsizeBits / 8) := by
  cases dtype <;> first | rfl | cases h

theorem itemsize_pos {dtype : DataType} (h : isReservedDataType dtype = false) :
    0 < dtype.itemsizeBits / 8 := by
  cases dtype <;> first | decide | cases h

theorem elements_of_dense {t : TensorView}
    (h : t.numel ≠ 0 → MixedRadix.Dense t.shape.dims t.strides) :
    t.elements = (List.range t.numel).map fun k => t.byteOffset + k * t.itembytes := by
  by_cases hne : t.numel = 0
  · have hlen := MixedRadix.length_indices t.shape.dims
    rw [← t.shape.numel_eq] at hlen
    rw [elements, List.eq_nil_of_length_eq_zero (hlen.trans hne), hne]
    rfl
  · rw [elements, numel, t.shape.numel_eq, ← MixedRadix.map_offset_indices, List.map_map]
    refine List.map_congr_left fun index hin => ?_
    rw [place, (h hne).offset_eq (MixedRadix.mem_indices.mp hin)]
    rfl

namespace Laid

variable {t : TensorView}

theorem itembytes_pos (h : t.Laid) : 0 < t.itembytes := itemsize_pos h.allocatable

theorem length_strides (h : t.Laid) : t.strides.length = t.shape.dims.length := by
  obtain ⟨ps, hs, hle, _⟩ := h.radices
  rw [hs, MixedRadix.length_strides, hle.length_eq]

theorem offset_lt (h : t.Laid) {index : List Nat} (hin : Within index t.shape.dims) :
    offset index t.strides < 2 ^ 63 := by
  obtain ⟨ps, hs, hle, _, hlt⟩ := h.radices
  rw [hs]
  exact Nat.lt_trans (MixedRadix.offset_lt (hin.of_le hle)) hlt

theorem offset_inj (h : t.Laid) {i j : List Nat} (hi : Within i t.shape.dims)
    (hj : Within j t.shape.dims) (hij : offset i t.strides = offset j t.strides) : i = j := by
  obtain ⟨ps, hs, hle, _⟩ := h.radices
  rw [hs] at hij
  exact MixedRadix.offset_inj (hi.of_le hle) (hj.of_le hle) hij

theorem elementOffset_ok (h : t.Laid) {index : List Nat} (hin : Within index t.shape.dims) :
    elementOffset index t.strides = .ok (offset index t.strides) := by
  have hlen : index.length = t.strides.length := by
    rw [h.length_strides, List.Forall₂.length_eq hin]
  have hlt := h.offset_lt hin
  unfold elementOffset
  rw [elementOffsetFrom_ok hlen (by omega), Nat.zero_add]

theorem isContiguous_eq (h : t.Laid) :
    t.isContiguous
      = if t.numel = 0 then .ok true
        else isContiguousFrom t.shape.dims t.strides >>= fun expected => pure expected.isSome := by
  have hrank : decide (t.strides.length = t.shape.rank) = true := decide_eq_true h.length_strides
  unfold TensorView.isContiguous InferenceEngine.isContiguous
  rw [check_of_true hrank, ok_bind]
  rfl

/-- The test passes exactly on the strides that number the elements in order. -/
theorem isContiguous_ok (h : t.Laid) (hne : t.numel ≠ 0) :
    (MixedRadix.Dense t.shape.dims t.strides → t.isContiguous = .ok true) ∧
      (¬MixedRadix.Dense t.shape.dims t.strides → t.isContiguous = .ok false) := by
  have hprod : t.shape.dims.prod ≠ 0 := by
    rw [← t.shape.numel_eq]
    exact hne
  have hlt : t.shape.dims.prod < 2 ^ 63 := by
    rw [← t.shape.numel_eq]
    exact t.shape.numel_lt
  obtain ⟨hdense, hsparse⟩ := isContiguousFrom_ok hprod hlt h.length_strides
  rw [h.isContiguous_eq, if_neg hne]
  constructor
  · intro hd
    rw [hdense hd]
    rfl
  · intro hd
    rw [hsparse hd]
    rfl

theorem isContiguous_returns (h : t.Laid) : ∃ b, t.isContiguous = .ok b := by
  by_cases hne : t.numel = 0
  · exact ⟨true, by rw [h.isContiguous_eq, if_pos hne]⟩
  · by_cases hd : MixedRadix.Dense t.shape.dims t.strides
    · exact ⟨true, (h.isContiguous_ok hne).1 hd⟩
    · exact ⟨false, (h.isContiguous_ok hne).2 hd⟩

theorem isContiguous_iff (h : t.Laid) (hne : t.numel ≠ 0) :
    t.isContiguous = .ok true ↔ MixedRadix.Dense t.shape.dims t.strides := by
  constructor
  · intro htrue
    by_contra hd
    rw [(h.isContiguous_ok hne).2 hd] at htrue
    cases htrue
  · exact (h.isContiguous_ok hne).1

/-- The elements of a view that passes the test follow one another. -/
theorem elements_of_contiguous (h : t.Laid) (hc : t.isContiguous = .ok true) :
    t.elements = (List.range t.numel).map fun k => t.byteOffset + k * t.itembytes :=
  elements_of_dense fun hne => (h.isContiguous_iff hne).mp hc

/-- **The contiguity test decides whether the elements are laid out consecutively.** -/
theorem isContiguous_iff_elements (h : t.Laid) (hne : t.numel ≠ 0) :
    t.isContiguous = .ok true ↔
      t.elements = (List.range t.numel).map fun k => t.byteOffset + k * t.itembytes := by
  refine ⟨h.elements_of_contiguous, ?_⟩
  intro helems
  rw [h.isContiguous_iff hne]
  have hprod : t.shape.dims.prod ≠ 0 := by
    rw [← t.shape.numel_eq]
    exact hne
  refine MixedRadix.dense_of_offset_eq hprod h.length_strides ?_
  intro index hin
  rw [elements, numel, t.shape.numel_eq, ← MixedRadix.map_offset_indices, List.map_map] at helems
  have hplace := List.map_inj_left.mp helems index (MixedRadix.mem_indices.mpr hin)
  have hmul : offset index t.strides * t.itembytes
      = offset index (MixedRadix.strides t.shape.dims) * t.itembytes := by
    simpa [place] using hplace
  exact Nat.eq_of_mul_eq_mul_right h.itembytes_pos hmul

end Laid

/-! ### Views keep the invariant

Each operation refuses its arguments or gives a view that is laid out as well.  What it can do
is stated first, and the invariant is read off that. -/

/-- A view over the row-major strides of its own shape. -/
theorem laid_of_window {t : TensorView} (hdtype : isReservedDataType t.dtype = false)
    (hs : t.strides = MixedRadix.strides t.shape.radices)
    (hfit : t.byteOffset + t.numel * t.itembytes ≤ t.buffer.sizeBytes) : t.Laid where
  allocatable := hdtype
  radices := ⟨t.shape.radices, hs, t.shape.dims_le_radices, nonZeroProduct_pos _,
    t.shape.nonZeroProduct_lt⟩
  inside := by
    intro index hin
    -- with an index in the shape no dim is zero, so the strides are those of the dims
    have hlt : offset index t.strides < t.numel := by
      rw [hs, Shape.radices_eq (Shape.numel_ne_zero hin), numel, t.shape.numel_eq]
      exact MixedRadix.offset_lt hin
    have hmul := Nat.mul_le_mul_right t.itembytes hlt
    rw [Nat.succ_mul] at hmul
    unfold place
    omega

theorem empty_laid {host : HostMemory} {shape : Shape} {dtype : DataType} {device : Device}
    {allocator : Option Allocator} {t : TensorView}
    (h : empty host shape dtype device allocator = .ok (.ok t)) : t.Laid := by
  unfold empty at h
  split at h
  · cases h
  · rename_i hdtype
    rw [Bool.not_eq_true] at hdtype
    split at h
    · cases h
    · rw [itemsize_ok hdtype] at h
      obtain ⟨_, _, h⟩ := bind_eq_ok.mp h
      rw [ok_bind, mulOverflow_natCast] at h
      by_cases hfits : shape.numel * (dtype.itemsizeBits / 8) < 2 ^ 63
      · rw [if_pos hfits] at h
        obtain ⟨r, hr, h⟩ := bind_eq_ok.mp h
        cases r with
        | error status => cases h
        | ok buffer =>
            simp only [rowMajorStrides_ok, ok_bind] at h
            injection h with h
            injection h with h
            subst h
            have hsize := (allocator.getD (defaultCpuAllocator host)).allocate_size hr
            rw [Int.toNat_natCast] at hsize
            refine laid_of_window hdtype rfl ?_
            show 0 + shape.numel * (dtype.itemsizeBits / 8) ≤ buffer.sizeBytes
            omega
      · rw [if_neg hfits] at h
        cases h

/-- The guard of `from_buffer` refuses every window that leaves the buffer. -/
theorem window_iff {a b n : Nat} (hn : n ≤ 2 ^ 64 - 1) :
    (addOverflowUnsigned a b).all (n < ·) = false ↔ a + b ≤ n := by
  unfold addOverflowUnsigned
  by_cases h : a + b < 2 ^ 64
  · rw [if_pos h]
    simp
  · rw [if_neg h]
    simp
    omega

theorem sizeBytes_lt (buffer : Buffer) : buffer.sizeBytes ≤ 2 ^ 64 - 1 := by
  have hend := buffer.end_le
  have hnull := buffer.data_null_iff
  omega

/-- A window of the buffer can be viewed at every type that is not reserved. -/
theorem fromBuffer_ok {buffer : Buffer} {byteOffset : Nat} {shape : Shape} {dtype : DataType}
    (hdtype : isReservedDataType dtype = false)
    (hwindow : byteOffset + shape.numel * (dtype.itemsizeBits / 8) ≤ buffer.sizeBytes) :
    fromBuffer buffer byteOffset shape dtype = .ok (.ok
      ⟨buffer, byteOffset, shape, MixedRadix.strides shape.radices, dtype, buffer.device⟩) := by
  have hsize := sizeBytes_lt buffer
  have hguard := (window_iff hsize).mpr hwindow
  unfold fromBuffer mulOverflowUnsigned
  rw [if_neg (by simpa using hdtype), itemsize_ok hdtype, ok_bind, if_pos (by omega)]
  dsimp only
  rw [hguard, rowMajorStrides_ok]
  rfl

theorem fromBuffer_laid {buffer : Buffer} {byteOffset : Nat} {shape : Shape} {dtype : DataType}
    {t : TensorView} (h : fromBuffer buffer byteOffset shape dtype = .ok (.ok t)) : t.Laid := by
  unfold fromBuffer at h
  split at h
  · cases h
  · rename_i hdtype
    rw [Bool.not_eq_true] at hdtype
    rw [itemsize_ok hdtype, ok_bind, mulOverflowUnsigned] at h
    by_cases hfits : shape.numel * (dtype.itemsizeBits / 8) < 2 ^ 64
    · simp only [if_pos hfits] at h
      split at h
      · cases h
      · rename_i hwindow
        rw [Bool.not_eq_true, window_iff (sizeBytes_lt buffer)] at hwindow
        simp only [rowMajorStrides_ok, ok_bind] at h
        injection h with h
        injection h with h
        subst h
        exact laid_of_window hdtype rfl hwindow
    · simp only [if_neg hfits] at h
      cases h

/-- **Everything a slice can do**: it refuses its arguments, or it moves the offset and makes
one dim smaller, and the element offset it moves by is exact. -/
theorem Laid.slice_cases {t : TensorView} (h : t.Laid) (dim start stop : Int) :
    (∃ status, t.slice dim start stop = .ok (.error status)) ∨
      ∃ (k a b : Nat) (newShape : Shape) (hk : k < t.shape.dims.length)
        (hs : k < t.strides.length),
        dim = k ∧ start = a ∧ stop = b ∧ a ≤ b ∧ b ≤ t.shape.dims[k] ∧
        newShape.dims = t.shape.dims.set k (b - a) ∧ a * t.strides[k] < 2 ^ 63 ∧
        t.slice dim start stop = .ok (.ok { t with
          byteOffset := addSize t.byteOffset (mulSize (a * t.strides[k]) t.itembytes)
          shape := newShape }) := by
  unfold slice
  by_cases hdim : dim < 0 ∨ dim ≥ t.shape.rank
  · rw [if_pos hdim]
    exact .inl ⟨_, rfl⟩
  · obtain ⟨k, rfl⟩ := Int.eq_ofNat_of_zero_le (by omega : 0 ≤ dim)
    have hk : k < t.shape.dims.length := by
      unfold Shape.rank at hdim
      omega
    have hs : k < t.strides.length := by
      rw [h.length_strides]
      exact hk
    rw [if_neg hdim, readAt_natCast hk, ok_bind]
    by_cases hrange : start < 0 ∨ start > stop ∨ stop > (t.shape.dims[k] : Nat)
    · rw [if_pos hrange]
      exact .inl ⟨_, rfl⟩
    · obtain ⟨a, rfl⟩ := Int.eq_ofNat_of_zero_le (by omega : 0 ≤ start)
      obtain ⟨b, rfl⟩ := Int.eq_ofNat_of_zero_le (by omega : 0 ≤ stop)
      have hab : a ≤ b := by omega
      have hb : b ≤ t.shape.dims[k] := by omega
      obtain ⟨newShape, hok, hdims⟩ := t.shape.fromDims_set_ok hk
        (by omega : b - a ≤ t.shape.dims[k])
      have hoffset : a * t.strides[k] < 2 ^ 63 := by
        obtain ⟨ps, hstrides, hle, hpos, hlt⟩ := h.radices
        have hkp : k < ps.length := by
          rw [← hle.length_eq]
          exact hk
        have hdp := (List.forall₂_iff_get.mp hle).2 k hk hkp
        simp only [List.get_eq_getElem] at hdp
        have hsp : k < (MixedRadix.strides ps).length := by simpa using hkp
        simp only [hstrides]
        calc a * (MixedRadix.strides ps)[k]
            ≤ ps[k] * (MixedRadix.strides ps)[k] := Nat.mul_le_mul_right _ (by omega)
          _ ≤ ps.prod := MixedRadix.mul_strides_le hpos hkp hsp
          _ < 2 ^ 63 := hlt
      refine .inr ⟨k, a, b, newShape, hk, hs, rfl, rfl, rfl, hab, hb, hdims, hoffset, ?_⟩
      rw [if_neg hrange]
      have hsub : ((b : Int) - (a : Int)) = ((b - a : Nat) : Int) := by omega
      simp only [Int.toNat_natCast, hsub, hok, readAt_natCast hs, ok_bind, int64Nat_of_lt hoffset,
        itemsize_ok h.allocatable]
      rfl

/-- What a slice moves by, when something is left of the view. -/
theorem Laid.slice_place {t t' : TensorView} (h : t.Laid) {k a b : Nat}
    (hk : k < t.shape.dims.length) (hs : k < t.strides.length) (hab : a ≤ b)
    (hb : b ≤ t.shape.dims[k]) (hbuffer : t'.buffer = t.buffer) (hdtype : t'.dtype = t.dtype)
    (hstrides : t'.strides = t.strides)
    (hdims : t'.shape.dims = t.shape.dims.set k (b - a))
    (hoffset : t'.byteOffset
      = addSize t.byteOffset (mulSize (a * t.strides[k]) t.itembytes))
    {index : List Nat} (hin : Within index t'.shape.dims) :
    t'.byteOffset = t.byteOffset + a * t.strides[k] * t.itembytes ∧
      t'.place index + t'.itembytes ≤ t'.buffer.sizeBytes := by
  rw [hdims] at hin
  have hki : k < index.length := by
    rw [List.Forall₂.length_eq hin, List.length_set]
    exact hk
  have hinside := h.inside _ (hin.set hki hk (by omega : a + (b - a) ≤ t.shape.dims[k]))
  unfold place at hinside ⊢
  rw [MixedRadix.offset_set hki hs, Nat.add_mul] at hinside
  have hsize := sizeBytes_lt t.buffer
  have hexact : t'.byteOffset = t.byteOffset + a * t.strides[k] * t.itembytes := by
    rw [hoffset, mulSize_of_lt (by omega), addSize_of_lt (by omega)]
  refine ⟨hexact, ?_⟩
  unfold itembytes at *
  rw [hexact, hstrides, hbuffer, hdtype]
  omega

theorem Laid.slice {t t' : TensorView} (h : t.Laid) {dim start stop : Int}
    (hslice : t.slice dim start stop = .ok (.ok t')) : t'.Laid := by
  rcases h.slice_cases dim start stop with
    ⟨status, hr⟩ | ⟨k, a, b, newShape, hk, hs, _, _, _, hab, hb, hdims, _, hr⟩
  · rw [hr] at hslice
    cases hslice
  · rw [hr] at hslice
    injection hslice with hslice
    injection hslice with hslice
    have hdtype : t'.dtype = t.dtype := by rw [← hslice]
    have hstrides : t'.strides = t.strides := by rw [← hslice]
    have hdims' : t'.shape.dims = t.shape.dims.set k (b - a) := by rw [← hslice, hdims]
    obtain ⟨ps, hps, hle, hpos, hlt⟩ := h.radices
    refine ⟨by rw [hdtype]; exact h.allocatable, ⟨ps, hstrides.trans hps, ?_, hpos, hlt⟩, ?_⟩
    · rw [hdims']
      exact MixedRadix.forall₂_le_set hle hk (by omega)
    · intro index hin
      exact (h.slice_place hk hs hab hb (by rw [← hslice]) hdtype hstrides hdims'
        (by rw [← hslice]) hin).2

/-- Everything a reshape can do. -/
theorem Laid.reshape_cases {t : TensorView} (h : t.Laid) (newShape : Shape) :
    (∃ status, t.reshape newShape = .ok (.error status)) ∨
      newShape.numel = t.numel ∧ t.isContiguous = .ok true ∧
        t.reshape newShape = .ok (.ok { t with
          shape := newShape
          strides := MixedRadix.strides newShape.radices }) := by
  unfold TensorView.reshape
  by_cases hnumel : newShape.numel = t.shape.numel
  · rw [if_neg (by simpa using hnumel)]
    obtain ⟨b, hb⟩ := h.isContiguous_returns
    rw [hb, ok_bind]
    cases b with
    | false => exact .inl ⟨_, rfl⟩
    | true =>
        rw [if_pos rfl, rowMajorStrides_ok]
        exact .inr ⟨hnumel, rfl, rfl⟩
  · rw [if_pos hnumel]
    exact .inl ⟨_, rfl⟩

/-- **A reshape keeps the row-major sequence of the elements.** -/
theorem Laid.reshape_elements {t t' : TensorView} (h : t.Laid) {newShape : Shape}
    (hreshape : t.reshape newShape = .ok (.ok t')) : t'.elements = t.elements := by
  rcases h.reshape_cases newShape with ⟨status, hr⟩ | ⟨hnumel, hc, hr⟩
  · rw [hr] at hreshape
    cases hreshape
  · rw [hr] at hreshape
    injection hreshape with hreshape
    injection hreshape with hreshape
    have hdense : t'.numel ≠ 0 → MixedRadix.Dense t'.shape.dims t'.strides := by
      rw [← hreshape]
      intro hne
      rw [Shape.radices_eq hne]
      exact MixedRadix.dense_strides _
    have hsame : t'.numel = t.numel := by
      rw [← hreshape]
      exact hnumel
    rw [elements_of_dense hdense, h.elements_of_contiguous hc, hsame, ← hreshape]
    rfl

theorem Laid.reshape_storage {t t' : TensorView} (h : t.Laid) {newShape : Shape}
    (hreshape : t.reshape newShape = .ok (.ok t')) :
    t'.buffer = t.buffer ∧ t'.dtype = t.dtype := by
  rcases h.reshape_cases newShape with ⟨status, hr⟩ | ⟨_, _, hr⟩
  · rw [hr] at hreshape
    cases hreshape
  · rw [hr] at hreshape
    injection hreshape with hreshape
    injection hreshape with hreshape
    exact ⟨by rw [← hreshape], by rw [← hreshape]⟩

theorem Laid.reshape {t t' : TensorView} (h : t.Laid) {newShape : Shape}
    (hreshape : t.reshape newShape = .ok (.ok t')) : t'.Laid := by
  have helems := h.reshape_elements hreshape
  obtain ⟨hbuffer, hdtype⟩ := h.reshape_storage hreshape
  rcases h.reshape_cases newShape with ⟨status, hr⟩ | ⟨hnumel, hc, hr⟩
  · rw [hr] at hreshape
    cases hreshape
  · rw [hr] at hreshape
    injection hreshape with hreshape
    injection hreshape with hreshape
    have hshape : t'.shape = newShape := by rw [← hreshape]
    refine ⟨by rw [hdtype]; exact h.allocatable,
      ⟨newShape.radices, by rw [← hreshape], by rw [hshape]; exact newShape.dims_le_radices,
        nonZeroProduct_pos _, newShape.nonZeroProduct_lt⟩, ?_⟩
    -- each element of the new view is an element of the old one
    intro index hin
    have hmem : t'.place index ∈ t'.elements :=
      List.mem_map_of_mem (MixedRadix.mem_indices.mpr hin)
    rw [helems] at hmem
    obtain ⟨old, hold, hplace⟩ := List.mem_map.mp hmem
    have hinside := h.inside old (MixedRadix.mem_indices.mp hold)
    rw [hplace] at hinside
    unfold itembytes at *
    rw [hbuffer, hdtype]
    exact hinside

/-- Everything a reinterpretation can do. -/
theorem viewAsDtype_cases (t : TensorView) (newDtype : DataType) :
    (∃ status, t.viewAsDtype newDtype = .ok (.error status)) ∨
      isReservedDataType newDtype = false ∧ newDtype.itemsizeBits = t.dtype.itemsizeBits ∧
        t.viewAsDtype newDtype = .ok (.ok { t with dtype := newDtype }) := by
  unfold viewAsDtype
  by_cases hreserved : isReservedDataType newDtype = true
  · rw [if_pos hreserved]
    exact .inl ⟨_, rfl⟩
  · rw [if_neg hreserved]
    by_cases hbits : newDtype.itemsizeBits = t.dtype.itemsizeBits
    · rw [if_neg (by simpa using hbits)]
      exact .inr ⟨by simpa using hreserved, hbits, rfl⟩
    · rw [if_pos hbits]
      exact .inl ⟨_, rfl⟩

theorem Laid.viewAsDtype {t t' : TensorView} (h : t.Laid) {newDtype : DataType}
    (hview : t.viewAsDtype newDtype = .ok (.ok t')) : t'.Laid := by
  rcases t.viewAsDtype_cases newDtype with ⟨status, hr⟩ | ⟨hreserved, hbits, hr⟩
  · rw [hr] at hview
    cases hview
  · rw [hr] at hview
    injection hview with hview
    injection hview with hview
    subst hview
    refine ⟨hreserved, h.radices, ?_⟩
    intro index hin
    have hinside := h.inside index hin
    unfold place itembytes at hinside ⊢
    dsimp only
    rw [hbits]
    exact hinside

/-! ### Copies

Both paths are compared byte by byte.  The element path is a loop over the indices, and the
block path is one of its copies when the elements follow one another. -/

theorem forEachIndexFrom_eq {σ : Type} (dims : List Nat) (visit : List Nat → σ → Checked σ)
    (n : Nat) : ∀ (index : List Nat) (s : σ), forEachIndexFrom dims visit n index s
      = (MixedRadix.walk dims n index).foldlM (fun s index => visit index s) s := by
  induction n with
  | zero => intro index s; rfl
  | succ n ih =>
      intro index s
      rw [forEachIndexFrom, MixedRadix.walk, List.foldlM_cons]
      exact congrArg _ (funext fun s => ih _ s)

/-- **Every index of the shape is visited once, in row-major order.** -/
theorem forEachIndex_eq {σ : Type} (shape : Shape) (visit : List Nat → σ → Checked σ) (s : σ) :
    forEachIndex shape visit s
      = (indices shape.dims).foldlM (fun s index => visit index s) s := by
  unfold forEachIndex
  rw [forEachIndexFrom_eq, shape.numel_eq, MixedRadix.walk_zeros]

/-- Where the element at `index` begins in memory. -/
def address (t : TensorView) (index : List Nat) : Int := (t.buffer.data + t.place index : Nat)

/-- The byte at `a` belongs to an element of the view. -/
def Occupies (t : TensorView) (a : Int) : Prop :=
  ∃ index, Within index t.shape.dims ∧ t.address index ≤ a ∧ a < t.address index + t.itembytes

namespace Laid

theorem data_eq {t : TensorView} (h : t.Laid) (hne : t.numel ≠ 0) :
    t.data = t.buffer.data + t.byteOffset := by
  have hprod : t.shape.dims.prod ≠ 0 := by
    rw [← t.shape.numel_eq]
    exact hne
  have hinside := h.inside _ (MixedRadix.zeros_within hprod)
  have hpos := h.itembytes_pos
  have hnull := t.buffer.data_null_iff
  unfold data
  rw [if_neg (by omega)]

theorem address_eq {t : TensorView} (h : t.Laid) (hne : t.numel ≠ 0) (index : List Nat) :
    t.address index = (t.data + offset index t.strides * t.itembytes : Nat) := by
  rw [address, place, h.data_eq hne, Nat.add_assoc]

/-- A copy by elements is a loop of block copies that read the memory as it was. -/
theorem copyElements_eq {dst src : TensorView} (hd : dst.Laid) (hs : src.Laid)
    (hdtype : dst.dtype = src.dtype) (hshape : dst.shape = src.shape)
    (hne : dst.numel ≠ 0) (hdisj : ∀ a, ¬(dst.Occupies a ∧ src.Occupies a)) (mem : Memory) :
    copyElements dst src dst.itembytes mem
      = .ok ((indices dst.shape.dims).foldl (fun m index =>
          memcpy m (dst.address index) mem (src.address index) dst.itembytes) mem) := by
  have hsne : src.numel ≠ 0 := by
    unfold numel at hne ⊢
    rw [← hshape]
    exact hne
  have hbytes : src.itembytes = dst.itembytes := by
    unfold itembytes
    rw [hdtype]
  unfold copyElements
  rw [forEachIndex_eq, foldlM_ok (g := fun m index =>
    memcpy m (dst.address index) m (src.address index) dst.itembytes) ?_]
  · congr 1
    refine foldl_memcpy_self ?_
    intro u hu v hv i hlo hhi hsrc
    rw [MixedRadix.mem_indices] at hu hv
    refine hdisj i ⟨⟨u, hu, hlo, hhi⟩, ⟨v, hshape ▸ hv, hsrc.1, ?_⟩⟩
    rw [hbytes]
    exact hsrc.2
  · intro index hin m
    rw [MixedRadix.mem_indices] at hin
    rw [hd.elementOffset_ok hin, ok_bind, hs.elementOffset_ok (hshape ▸ hin), ok_bind,
      hd.address_eq hne, hs.address_eq hsne, hbytes]
    rfl

/-- The element at an index is what the source had there. -/
theorem copied_at {dst src : TensorView} (hd : dst.Laid) (mem : Memory) {index : List Nat}
    (hin : Within index dst.shape.dims) {j : Int} (hj : 0 ≤ j) (hjlt : j < dst.itembytes) :
    (indices dst.shape.dims).foldl (fun m index =>
        memcpy m (dst.address index) mem (src.address index) dst.itembytes) mem
      (dst.address index + j) = mem (src.address index + j) := by
  refine foldl_memcpy_of_covered _ _
    ⟨index, MixedRadix.mem_indices.mpr hin, by omega, by omega⟩ ?_
  intro u hu hlo hhi
  rw [MixedRadix.mem_indices] at hu
  -- only one element of the destination has the byte
  obtain rfl : u = index := by
    refine hd.offset_inj hu hin ?_
    have hpos := hd.itembytes_pos
    unfold address place at hlo hhi
    rcases Nat.lt_trichotomy (offset u dst.strides) (offset index dst.strides) with h | h | h
    · have := Nat.mul_le_mul_right dst.itembytes h
      rw [Nat.succ_mul] at this
      omega
    · exact h
    · have := Nat.mul_le_mul_right dst.itembytes h
      rw [Nat.succ_mul] at this
      omega
  congr 1
  omega

/-- What lies outside the destination's elements is kept. -/
theorem copied_off {dst src : TensorView} {mem : Memory} {a : Int} (ha : ¬dst.Occupies a) :
    (indices dst.shape.dims).foldl (fun m index =>
        memcpy m (dst.address index) mem (src.address index) dst.itembytes) mem a = mem a := by
  refine foldl_memcpy_of_not_covered _ _ ?_
  intro u hu hin
  exact ha ⟨u, MixedRadix.mem_indices.mp hu, hin.1, hin.2⟩

theorem dense_address {t : TensorView} (h : t.Laid) (hne : t.numel ≠ 0)
    (hc : t.isContiguous = .ok true) {index : List Nat} (hin : Within index t.shape.dims) :
    t.address index
      = t.data + offset index (MixedRadix.strides t.shape.dims) * t.itembytes := by
  rw [h.address_eq hne, ((h.isContiguous_iff hne).mp hc).offset_eq hin]
  simp

/-- The elements of a contiguous view fill one window of the buffer. -/
theorem window_le {t : TensorView} (h : t.Laid) (hne : t.numel ≠ 0)
    (hc : t.isContiguous = .ok true) :
    t.byteOffset + t.numel * t.itembytes ≤ t.buffer.sizeBytes := by
  have hlast : t.numel - 1 < t.shape.dims.prod := by
    rw [← t.shape.numel_eq]
    unfold numel at hne ⊢
    omega
  obtain ⟨index, hin, hoff⟩ := MixedRadix.exists_offset hlast
  have hinside := h.inside index hin
  rw [place, ((h.isContiguous_iff hne).mp hc).offset_eq hin, hoff] at hinside
  have hsplit : t.numel * t.itembytes = (t.numel - 1) * t.itembytes + t.itembytes := by
    rw [← Nat.succ_mul]
    congr 1
    omega
  omega

/-- **Over contiguous views the block path writes what the element path writes.** -/
theorem copyBlock_eq {dst src : TensorView} (hd : dst.Laid) (hs : src.Laid)
    (hdtype : dst.dtype = src.dtype) (hshape : dst.shape = src.shape)
    (hne : dst.numel ≠ 0) (hdisj : ∀ a, ¬(dst.Occupies a ∧ src.Occupies a))
    (hdc : dst.isContiguous = .ok true) (hsc : src.isContiguous = .ok true) (mem : Memory) :
    copyBlock dst src dst.itembytes mem
      = .ok ((indices dst.shape.dims).foldl (fun m index =>
          memcpy m (dst.address index) mem (src.address index) dst.itembytes) mem) := by
  have hsne : src.numel ≠ 0 := by
    unfold numel at hne ⊢
    rw [← hshape]
    exact hne
  have hbytes : src.itembytes = dst.itembytes := by
    unfold itembytes
    rw [hdtype]
  have hpos := hd.itembytes_pos
  have hsaddress : ∀ {index : List Nat}, Within index dst.shape.dims → src.address index
      = src.data + offset index (MixedRadix.strides dst.shape.dims) * dst.itembytes := by
    intro index hin
    rw [hs.dense_address hsne hsc (hshape ▸ hin), hbytes, hshape]
  have hdata : dst.data ≠ src.data := by
    -- else the first byte of both is one byte
    intro heq
    have hprod : dst.shape.dims.prod ≠ 0 := by
      rw [← dst.shape.numel_eq]
      exact hne
    have hzero := MixedRadix.zeros_within hprod
    have hda := hd.dense_address hne hdc hzero
    have hsa := hsaddress hzero
    refine hdisj (dst.address (MixedRadix.zeros dst.shape.dims))
      ⟨⟨_, hzero, by omega, by omega⟩,
        ⟨MixedRadix.zeros dst.shape.dims, hshape ▸ hzero, ?_, ?_⟩⟩
    · omega
    · omega
  have hsize : mulSize dst.numel dst.itembytes = dst.numel * dst.itembytes := by
    have := hd.window_le hne hdc
    have := sizeBytes_lt dst.buffer
    exact mulSize_of_lt (by omega)
  unfold copyBlock
  rw [if_pos hdata, hsize]
  congr 1
  funext a
  by_cases hin : (dst.data : Int) ≤ a ∧ a < dst.data + (dst.numel * dst.itembytes : Nat)
  · -- the byte is number `j` of element `k`
    obtain ⟨n, hn⟩ := Int.eq_ofNat_of_zero_le (by omega : 0 ≤ a - dst.data)
    have hk : n / dst.itembytes < dst.shape.dims.prod := by
      rw [← dst.shape.numel_eq]
      refine (Nat.div_lt_iff_lt_mul hpos).mpr ?_
      unfold numel at hin
      omega
    obtain ⟨index, hindex, hoff⟩ := MixedRadix.exists_offset hk
    have hdiv := Nat.div_add_mod n dst.itembytes
    have hmod := Nat.mod_lt n hpos
    rw [Nat.mul_comm] at hdiv
    have hda := hd.dense_address hne hdc hindex
    have hsa := hsaddress hindex
    rw [hoff] at hda hsa
    have ha : a = dst.address index + (n % dst.itembytes : Nat) := by
      rw [hda]
      omega
    conv_rhs => rw [ha, copied_at hd mem hindex (by omega) (by omega), hsa]
    have hinside : memcpy mem dst.data mem src.data (dst.numel * dst.itembytes : Nat)
        (dst.data + n) = mem (src.data + n) := memcpy_inside (by omega) (by omega)
    rw [show a = (dst.data : Int) + n by omega, hinside]
    congr 1
    omega
  · rw [memcpy_outside hin, copied_off]
    rintro ⟨index, hindex, hlo, hhi⟩
    rw [hd.dense_address hne hdc hindex] at hlo hhi
    have hlt := MixedRadix.offset_lt hindex
    rw [← dst.shape.numel_eq] at hlt
    have hmul := Nat.mul_le_mul_right dst.itembytes hlt
    rw [Nat.succ_mul] at hmul
    unfold numel at hin
    omega

end Laid

/-- What `copy` does to two views of one shape and type that share no byte. -/
structure Copies (dst src : TensorView) (mem mem' : Memory) : Prop where
  copied : dst.copy src mem = .ok (.ok mem')
  byElements : copyElements dst src dst.itembytes mem = .ok mem'
  byBlock : dst.isContiguous = .ok true → src.isContiguous = .ok true →
    copyBlock dst src dst.itembytes mem = .ok mem'
  at_ : ∀ index, Within index dst.shape.dims → ∀ j : Int, 0 ≤ j → j < dst.itembytes →
    mem' (dst.address index + j) = mem (src.address index + j)
  off : ∀ a, ¬dst.Occupies a → mem' a = mem a

theorem Laid.copies_empty {dst src : TensorView} (hdevice : dst.device = .cpu)
    (hsdevice : src.device = .cpu) (hdtype : dst.dtype = src.dtype)
    (hshape : dst.shape = src.shape) (hzero : dst.numel = 0) (mem : Memory) :
    Copies dst src mem mem where
  copied := by
    unfold copy
    have hcpu : (!dst.device.isCuda && !src.device.isCuda) = true := by
      rw [hdevice, hsdevice]
      rfl
    rw [check_of_true hcpu, ok_bind, if_neg (by simpa using hdtype),
      if_neg (by simpa using hshape), if_pos hzero]
    rfl
  byElements := by
    unfold copyElements forEachIndex
    rw [show dst.shape.numel = 0 from hzero]
    rfl
  byBlock := by
    intro _ _
    unfold copyBlock
    rw [hzero, mulSize, Nat.zero_mul]
    split
    · refine congrArg Except.ok (funext fun a => memcpy_outside ?_)
      show ¬(_ ∧ a < (dst.data : Int) + 0)
      omega
    · rfl
  at_ := fun index hin => absurd hzero (Shape.numel_ne_zero hin)
  off := fun _ _ => rfl

/-- **Copying between views that share no byte.** -/
theorem Laid.copies {dst src : TensorView} (hd : dst.Laid) (hs : src.Laid)
    (hdevice : dst.device = .cpu) (hsdevice : src.device = .cpu)
    (hdtype : dst.dtype = src.dtype) (hshape : dst.shape = src.shape)
    (hdisj : ∀ a, ¬(dst.Occupies a ∧ src.Occupies a)) (mem : Memory) :
    ∃ mem', Copies dst src mem mem' := by
  by_cases hne : dst.numel = 0
  · exact ⟨mem, copies_empty hdevice hsdevice hdtype hshape hne mem⟩
  · have helements := hd.copyElements_eq hs hdtype hshape hne hdisj mem
    have hblock := fun hdc hsc =>
      hd.copyBlock_eq hs hdtype hshape hne hdisj hdc hsc mem
    refine ⟨_, ?_, helements, hblock, fun index hin j hj hjlt => hd.copied_at mem hin hj hjlt,
      fun a ha => copied_off ha⟩
    obtain ⟨dc, hdc⟩ := hd.isContiguous_returns
    obtain ⟨sc, hsc⟩ := hs.isContiguous_returns
    have hcpu : (!dst.device.isCuda && !src.device.isCuda) = true := by
      rw [hdevice, hsdevice]
      rfl
    have hhost : (!isReservedDataType dst.dtype) = true := by
      rw [hd.allocatable]
      rfl
    have hboth : bothContiguous dst src = .ok (dc && sc) := by
      unfold bothContiguous
      rw [hdc, hsc]
      cases dc <;> rfl
    unfold copy
    rw [check_of_true hcpu, ok_bind, if_neg (by simpa using hdtype),
      if_neg (by simpa using hshape), if_neg hne, hboth, ok_bind, itemsize_ok hd.allocatable,
      ok_bind, check_of_true hhost]
    by_cases hc : (dc && sc) = true
    · rw [if_pos hc]
      rw [Bool.and_eq_true] at hc
      rw [hc.1] at hdc
      rw [hc.2] at hsc
      show (copyBlock dst src dst.itembytes mem >>= fun mem => pure (Except.ok mem)) = _
      rw [hblock hdc hsc]
      rfl
    · rw [if_neg hc]
      show (copyElements dst src dst.itembytes mem >>= fun mem => pure (Except.ok mem)) = _
      rw [helements]
      rfl

/-! ### Every chain of views

Views come from buffers and from other views.  What is proved of each operation holds along
every chain of them. -/

/-- The views there are: of a new buffer or a given one, and views of those. -/
inductive Reached (host : HostMemory) : TensorView → Prop
  | empty {shape : Shape} {dtype : DataType} {device : Device} {allocator : Option Allocator}
      {t : TensorView} (h : TensorView.empty host shape dtype device allocator = .ok (.ok t)) :
      Reached host t
  | fromBuffer {buffer : Buffer} {byteOffset : Nat} {shape : Shape} {dtype : DataType}
      {t : TensorView} (h : TensorView.fromBuffer buffer byteOffset shape dtype = .ok (.ok t)) :
      Reached host t
  | slice {t t' : TensorView} {dim start stop : Int} (ht : Reached host t)
      (h : t.slice dim start stop = .ok (.ok t')) : Reached host t'
  | reshape {t t' : TensorView} {newShape : Shape} (ht : Reached host t)
      (h : t.reshape newShape = .ok (.ok t')) : Reached host t'
  | viewAsDtype {t t' : TensorView} {newDtype : DataType} (ht : Reached host t)
      (h : t.viewAsDtype newDtype = .ok (.ok t')) : Reached host t'

theorem Reached.laid {host : HostMemory} {t : TensorView} (h : Reached host t) : t.Laid := by
  induction h with
  | empty h => exact empty_laid h
  | fromBuffer h => exact fromBuffer_laid h
  | slice _ h ih => exact ih.slice h
  | reshape _ h ih => exact ih.reshape h
  | viewAsDtype _ h ih => exact ih.viewAsDtype h

/-- The elements of the view are bytes of the buffer, and no two share one. -/
structure InBounds (t : TensorView) : Prop where
  itemsize : t.dtype.itemsize = .ok t.itembytes
  elementOffset : ∀ index, Within index t.shape.dims →
    elementOffset index t.strides = .ok (offset index t.strides)
  inside : ∀ index, Within index t.shape.dims → t.place index + t.itembytes ≤ t.buffer.sizeBytes
  disjoint : ∀ i j, Within i t.shape.dims → Within j t.shape.dims → i ≠ j →
    t.place i + t.itembytes ≤ t.place j ∨ t.place j + t.itembytes ≤ t.place i

/-- No operation on the view leaves 64 bits. -/
structure Exact (t : TensorView) : Prop where
  rowMajorStrides : ∃ strides, rowMajorStrides t.shape = .ok strides
  isContiguous : ∃ b, t.isContiguous = .ok b
  slice : ∀ dim start stop, ∃ r, t.slice dim start stop = .ok r
  reshape : ∀ newShape, ∃ r, t.reshape newShape = .ok r
  viewAsDtype : ∀ newDtype, ∃ r, t.viewAsDtype newDtype = .ok r
  /-- the byte offset of a slice with something in it did not wrap -/
  byteOffset : ∀ {dim start stop t'}, t.slice dim start stop = .ok (.ok t') → t'.numel ≠ 0 →
    ∃ stride, readAt t.strides dim = .ok stride ∧
      t'.byteOffset = t.byteOffset + start.toNat * stride * t.itembytes

namespace Laid

variable {t : TensorView}

theorem inBounds (h : t.Laid) : t.InBounds where
  itemsize := itemsize_ok h.allocatable
  elementOffset := fun _ hin => h.elementOffset_ok hin
  inside := h.inside
  disjoint := by
    intro i j hi hj hij
    unfold place
    rcases Nat.lt_trichotomy (offset i t.strides) (offset j t.strides) with hlt | heq | hlt
    · have := Nat.mul_le_mul_right t.itembytes hlt
      rw [Nat.succ_mul] at this
      omega
    · exact absurd (h.offset_inj hi hj heq) hij
    · have := Nat.mul_le_mul_right t.itembytes hlt
      rw [Nat.succ_mul] at this
      omega

theorem exact_ (h : t.Laid) : t.Exact where
  rowMajorStrides := ⟨_, rowMajorStrides_ok t.shape⟩
  isContiguous := h.isContiguous_returns
  slice := by
    intro dim start stop
    rcases h.slice_cases dim start stop with ⟨_, hr⟩ | ⟨_, _, _, _, _, _, _, _, _, _, _, _, _, hr⟩
    · exact ⟨_, hr⟩
    · exact ⟨_, hr⟩
  reshape := by
    intro newShape
    rcases h.reshape_cases newShape with ⟨_, hr⟩ | ⟨_, _, hr⟩
    · exact ⟨_, hr⟩
    · exact ⟨_, hr⟩
  viewAsDtype := by
    intro newDtype
    rcases t.viewAsDtype_cases newDtype with ⟨_, hr⟩ | ⟨_, _, hr⟩
    · exact ⟨_, hr⟩
    · exact ⟨_, hr⟩
  byteOffset := by
    intro dim start stop t' hslice hne
    rcases h.slice_cases dim start stop with
      ⟨_, hr⟩ | ⟨k, a, b, newShape, hk, hs, rfl, rfl, rfl, hab, hb, hdims, _, hr⟩
    · rw [hr] at hslice
      cases hslice
    · rw [hr] at hslice
      injection hslice with hslice
      injection hslice with hslice
      have hprod : t'.shape.dims.prod ≠ 0 := by
        rw [← t'.shape.numel_eq]
        exact hne
      have hplace := (h.slice_place hk hs hab hb (by rw [← hslice]) (by rw [← hslice])
        (by rw [← hslice]) (by rw [← hslice, hdims]) (by rw [← hslice])
        (MixedRadix.zeros_within hprod)).1
      exact ⟨_, readAt_natCast hs, hplace⟩

end Laid

/-- **Views stay in bounds.**  A view with elements has them inside its buffer, apart from one
another, and no arithmetic on the way to them wraps; reshaping keeps their order; the
contiguity test says whether they are consecutive; and a copy between views that share no
byte is the same on both of its paths and writes the destination's elements only. -/
theorem Reached.views_sound {host : HostMemory} {t : TensorView} (h : Reached host t) :
    (t.numel ≠ 0 → t.InBounds) ∧ t.Exact ∧
      (∀ {newShape t'}, t.reshape newShape = .ok (.ok t') →
        t'.buffer = t.buffer ∧ t'.dtype = t.dtype ∧ t'.elements = t.elements) ∧
      (t.numel ≠ 0 → (t.isContiguous = .ok true ↔
        t.elements = (List.range t.numel).map fun k => t.byteOffset + k * t.itembytes)) ∧
      ∀ src, Reached host src → t.device = .cpu → src.device = .cpu → t.dtype = src.dtype →
        t.shape = src.shape → (∀ a, ¬(t.Occupies a ∧ src.Occupies a)) →
        ∀ mem, ∃ mem', Copies t src mem mem' :=
  ⟨fun _ => h.laid.inBounds, h.laid.exact_,
    fun hr => ⟨(h.laid.reshape_storage hr).1, (h.laid.reshape_storage hr).2,
      h.laid.reshape_elements hr⟩,
    h.laid.isContiguous_iff_elements,
    fun _ hsrc hd hs hdtype hshape hdisj => h.laid.copies hsrc.laid hd hs hdtype hshape hdisj⟩

/-- A matrix of 2 by 3 floats. -/
def matrix : TensorView where
  buffer := ⟨4096, 24, .cpu, by decide, by decide⟩
  byteOffset := 0
  shape := ⟨[2, 3], 6, by decide, by decide, by decide⟩
  strides := [3, 1]
  dtype := .float32
  device := .cpu

/-- Its columns 1 and 2. -/
def columns : TensorView where
  buffer := matrix.buffer
  byteOffset := 4
  shape := ⟨[2, 2], 4, by decide, by decide, by decide⟩
  strides := [3, 1]
  dtype := .float32
  device := .cpu

/-- A host that has no memory to give. -/
def exhaustedHost : HostMemory := ⟨fun _ _ => none, by simp, by simp⟩

theorem Reached.views_sound_columns :
    columns.InBounds ∧ columns.Exact ∧
      (columns.isContiguous = .ok true ↔ columns.elements = [4, 8, 12, 16]) := by
  have hmatrix : Reached exhaustedHost matrix :=
    .fromBuffer (show TensorView.fromBuffer matrix.buffer 0 matrix.shape .float32
      = .ok (.ok matrix) from rfl)
  have hcolumns : Reached exhaustedHost columns :=
    .slice hmatrix (show matrix.slice 1 1 3 = .ok (.ok columns) from rfl)
  obtain ⟨hbounds, hexact, _, hcontiguous, _⟩ := hcolumns.views_sound
  exact ⟨hbounds (by decide), hexact, hcontiguous (by decide)⟩

end TensorView

end InferenceEngine
