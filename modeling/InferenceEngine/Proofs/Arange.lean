/-
`arange` is exact on all of `std::int64_t`.

Two things keep every intermediate in range.  The number of elements is found from magnitudes,
and of these even the least integer has one that fits.  And once `end - start` fits, every element
lies between `start` and `end`, so the sums that reach the elements fit too.  Since an integer
dtype represents an interval of integers, it represents all the elements as soon as it represents
the first and the last.
-/
import InferenceEngine.Lib.Progression
import InferenceEngine.Proofs.TensorView
import InferenceEngine.Tensor.Arange

namespace InferenceEngine

open Except
open Progression (Before)

/-- The values of a `std::int64_t`. -/
def InInt64 (x : Int) : Prop := -(2 ^ 63) ≤ x ∧ x < 2 ^ 63

instance (x : Int) : Decidable (InInt64 x) := inferInstanceAs (Decidable (_ ∧ _))

theorem int64_ok {x : Int} (h : InInt64 x) : int64 x = .ok x := if_pos h

theorem subOverflow_of_fits {a b : Int} (h : InInt64 (a - b)) :
    subOverflow a b = some (a - b) := if_pos h

/-! ### Magnitudes and the count

The count is found by a division of magnitudes, which are unsigned and do not overflow. -/

theorem unsignedMagnitude_ok {v : Int} (h : InInt64 v) :
    unsignedMagnitude v = .ok v.natAbs := by
  obtain ⟨hlow, hhigh⟩ := h
  unfold unsignedMagnitude toUint64
  by_cases hneg : v < 0
  · have hmod : v % 2 ^ 64 = v + 2 ^ 64 := by omega
    have hsum : ((2 ^ 64 - 1 - (v + 2 ^ 64).toNat : Nat) : Int) + 1 = (v.natAbs : Nat) := by omega
    dsimp only
    rw [if_pos hneg, hmod]
    exact (congrArg uint64 hsum).trans (uint64_natCast (by omega))
  · have hmod : v % 2 ^ 64 = v := by omega
    dsimp only
    rw [if_neg hneg, hmod, show v.toNat = v.natAbs by omega]
    rfl

namespace Arange

/-- The count is the number of terms, and it is refused when it is no `std::int64_t`. -/
theorem elementCount_ok (start stop : Int) {step span : Int} (hstep : InInt64 step) (hne : step ≠ 0)
    (hspan : InInt64 span) :
    (Progression.count step span < 2 ^ 63 →
      elementCount start stop step span = .ok (.ok (Progression.count step span))) ∧
    (2 ^ 63 ≤ Progression.count step span →
      ∃ status, elementCount start stop step span = .ok (.error status)) := by
  have hle := Progression.count_le hne span
  have hbound : span.natAbs ≤ 2 ^ 63 := by
    obtain ⟨hlow, hhigh⟩ := hspan
    omega
  unfold elementCount
  by_cases hway : decide (step > 0) = decide (span > 0) ∧ span ≠ 0
  · have hcount : Progression.count step span = Progression.roundUp span.natAbs step.natAbs := by
      unfold Progression.count
      rw [if_pos ⟨by simpa using hway.1, hway.2⟩]
    rw [if_pos hway, unsignedMagnitude_ok hspan, unsignedMagnitude_ok hstep, ok_bind, ok_bind]
    dsimp only
    have hsum : uint64 (((span.natAbs / step.natAbs : Nat) : Int)
        + ((if span.natAbs % step.natAbs ≠ 0 then 1 else 0 : Nat) : Int))
          = .ok (Progression.count step span) := by
      rw [← Nat.cast_add, hcount]
      exact uint64_natCast (by rw [hcount] at hle; unfold Progression.roundUp at hle; omega)
    rw [hsum, ok_bind]
    constructor
    · intro hlt
      rw [if_neg (by omega), Int.bmod_eq_of_le (by omega) (by omega)]
      rfl
    · intro hge
      rw [if_pos (by omega)]
      exact ⟨_, rfl⟩
  · have hcount : Progression.count step span = 0 := by
      unfold Progression.count
      rw [if_neg (fun h => hway ⟨by simpa using h.1, h.2⟩)]
    rw [if_neg hway, hcount]
    exact ⟨fun _ => rfl, fun hge => by omega⟩

end Arange

/-! ### What an integer dtype represents

An integer dtype represents an interval, so it is enough to look at the first and the last
element. -/

/-- The cast to `dtype` keeps the value. -/
def Represents (dtype : DataType) (v : Int) : Prop := castInteger dtype v = .ok v

/-- The dtypes of integers and truth values that have a type in the host. -/
def DataType.isHostInteger (dtype : DataType) : Bool :=
  !dtype.isFloatingPoint && !isReservedDataType dtype

/-- The interval of a dtype. -/
theorem represents_iff {dtype : DataType} (h : dtype.isHostInteger = true) (v : Int) :
    Represents dtype v ↔ fitsIntegerDtype dtype v = .ok true := by
  unfold Represents
  cases dtype with
  | int8 =>
      simp only [castInteger, fitsIntegerDtype, pure, Except.pure, ok.injEq, decide_eq_true_eq,
        Int.bmod]
      omega
  | uint8 =>
      simp only [castInteger, fitsIntegerDtype, pure, Except.pure, ok.injEq, decide_eq_true_eq]
      omega
  | int32 =>
      simp only [castInteger, toInt32, fitsIntegerDtype, pure, Except.pure, ok.injEq,
        decide_eq_true_eq, Int.bmod]
      omega
  | int64 => simp [castInteger, fitsIntegerDtype, pure, Except.pure]
  | bool =>
      simp only [castInteger, fitsIntegerDtype, pure, Except.pure, ok.injEq, decide_eq_true_eq]
      split
      · omega
      · omega
  | float32 => cases h
  | float16 => cases h
  | bfloat16 => cases h
  | fp8E4M3 => cases h
  | int4 => cases h

theorem fitsIntegerDtype_returns {dtype : DataType} (h : dtype.isHostInteger = true) (v : Int) :
    ∃ fits, fitsIntegerDtype dtype v = .ok fits := by
  cases dtype with
  | int8 => exact ⟨_, rfl⟩
  | uint8 => exact ⟨_, rfl⟩
  | int32 => exact ⟨_, rfl⟩
  | int64 => exact ⟨_, rfl⟩
  | bool => exact ⟨_, rfl⟩
  | float32 => cases h
  | float16 => cases h
  | bfloat16 => cases h
  | fp8E4M3 => cases h
  | int4 => cases h

/-- What lies between two values that are represented is represented. -/
theorem Represents.between {dtype : DataType} (h : dtype.isHostInteger = true) {a b v : Int}
    (ha : Represents dtype a) (hb : Represents dtype b) (hv : min a b ≤ v ∧ v ≤ max a b) :
    Represents dtype v := by
  rw [represents_iff h] at ha hb ⊢
  cases dtype with
  | int64 => rfl
  | float32 => cases h
  | float16 => cases h
  | bfloat16 => cases h
  | fp8E4M3 => cases h
  | int4 => cases h
  | _ =>
      simp only [fitsIntegerDtype, pure, Except.pure, ok.injEq, decide_eq_true_eq] at ha hb ⊢
      omega

/-! ### Making the tensor

The tensor may be refused for its size before anything is written. -/

/-- The allocator gives host memory for every size a `std::int64_t` counts. -/
def Allocates (allocator : Allocator) : Prop :=
  allocator.device = .cpu ∧ ∀ bytes, bytes < 2 ^ 63 →
    ∃ buffer, allocator.allocate bytes TensorView.emptyAlignment = .ok (.ok buffer)

/-- `Tensor::empty` refuses `n` elements of `dtype`, whatever the allocator does. -/
def EmptyRejects (dtype : DataType) (n : Nat) : Prop :=
  isReservedDataType dtype = true ∨ 2 ^ 63 ≤ n * (dtype.itemsizeBits / 8)

theorem Shape.literal_one {n : Nat} (h : n < 2 ^ 63) :
    ∃ shape, Shape.literal [(n : Int)] = .ok shape ∧ shape.dims = [n] := by
  obtain ⟨shape, hok, hdims⟩ := (Shape.literal_iff [(n : Int)]).mpr ⟨by simp [maxRank],
    fun d hd => by
      rw [List.mem_singleton.mp hd]
      exact Int.natCast_nonneg n,
    by
      simp only [List.map_cons, List.map_nil, Int.toNat_natCast, nonZeroProduct, List.prod_cons,
        List.prod_nil]
      omega⟩
  exact ⟨shape, hok, by simpa using hdims⟩

theorem TensorView.empty_rejects {host : HostMemory} {shape : Shape} {dtype : DataType}
    {allocator : Option Allocator} (halloc : Allocates (allocator.getD (defaultCpuAllocator host)))
    (h : EmptyRejects dtype shape.numel) :
    ∃ status, TensorView.empty host shape dtype .cpu allocator = .ok (.error status) := by
  unfold TensorView.empty
  by_cases hreserved : isReservedDataType dtype = true
  · rw [if_pos hreserved]
    exact ⟨_, rfl⟩
  · have hbytes : 2 ^ 63 ≤ shape.numel * (dtype.itemsizeBits / 8) := h.resolve_left hreserved
    rw [if_neg hreserved, if_neg (by decide)]
    dsimp only
    rw [check_of_true (by simpa using halloc.1),
      TensorView.itemsize_ok (Bool.eq_false_iff.mpr hreserved), ok_bind, ok_bind,
      mulOverflow_natCast,
      if_neg (by omega)]
    exact ⟨_, rfl⟩

theorem TensorView.empty_ok {host : HostMemory} {shape : Shape} {dtype : DataType}
    {allocator : Option Allocator} (halloc : Allocates (allocator.getD (defaultCpuAllocator host)))
    (h : ¬EmptyRejects dtype shape.numel) :
    ∃ tensor, TensorView.empty host shape dtype .cpu allocator = .ok (.ok tensor) ∧
      tensor.shape = shape ∧ tensor.dtype = dtype := by
  obtain ⟨hreserved, hbytes⟩ := not_or.mp h
  obtain ⟨buffer, hbuffer⟩ := halloc.2 (shape.numel * (dtype.itemsizeBits / 8)) (by omega)
  unfold TensorView.empty
  rw [if_neg hreserved, if_neg (by decide)]
  dsimp only
  rw [check_of_true (by simpa using halloc.1),
    TensorView.itemsize_ok (Bool.eq_false_iff.mpr hreserved), ok_bind, ok_bind, mulOverflow_natCast,
    if_pos (by omega)]
  dsimp only
  rw [Int.toNat_natCast, hbuffer, ok_bind]
  dsimp only
  rw [rowMajorStrides_ok, ok_bind]
  exact ⟨_, rfl, rfl, rfl⟩

/-! ### The elements

An element is reached by a product and a sum, and both lie between `start` and `stop`. -/

section Elements

variable {start stop step : Int}

/-- A term before `stop` is reached without leaving the range. -/
theorem term_inInt64 (hstart : InInt64 start) (hstop : InInt64 stop)
    (hspan : InInt64 (stop - start)) {k : Nat} (h : Before step stop (start + k * step)) :
    InInt64 (k * step) ∧ InInt64 (start + k * step) := by
  unfold InInt64 at *
  rcases h with ⟨hpos, hlt⟩ | ⟨hneg, hlt⟩
  · have hge : 0 ≤ (k : Int) * step := by positivity
    omega
  · have hle := mul_nonpos_of_nonneg_of_nonpos (Int.natCast_nonneg k) hneg.le
    omega

namespace Arange

variable {β : Type} {narrow : DataType → Int → Int → Int → β} {dtype : DataType}

theorem element_ok (hdtype : dtype.isFloatingPoint = false) (hstart : InInt64 start)
    (hstop : InInt64 stop) (hspan : InInt64 (stop - start)) {k : Nat}
    (hbefore : Before step stop (start + k * step)) (hrep : Represents dtype (start + k * step)) :
    element narrow dtype start step k = .ok (.integer (start + k * step)) := by
  obtain ⟨hoffset, hsum⟩ := term_inInt64 hstart hstop hspan hbefore
  unfold element
  rw [if_neg (by simp [hdtype]), int64_ok hoffset, ok_bind, int64_ok hsum, ok_bind, hrep]
  rfl

/-- Representing both ends is representing all that is between. -/
theorem endsFit_ok (h : dtype.isHostInteger = true) (start last : Int) :
    ∃ fits, endsFit dtype start last = .ok fits ∧
      (fits = true ↔ Represents dtype start ∧ Represents dtype last) := by
  have hfloating : dtype.isFloatingPoint = false := by
    unfold DataType.isHostInteger at h
    simp only [Bool.and_eq_true, Bool.not_eq_true'] at h
    exact h.1
  obtain ⟨fitsStart, hfitsStart⟩ := fitsIntegerDtype_returns h start
  obtain ⟨fitsLast, hfitsLast⟩ := fitsIntegerDtype_returns h last
  unfold endsFit
  rw [if_neg (by simp [hfloating]), hfitsStart, ok_bind, represents_iff h, represents_iff h,
    hfitsStart, hfitsLast]
  cases fitsStart with
  | true => exact ⟨fitsLast, rfl, by simp⟩
  | false => exact ⟨false, rfl, by simp⟩

theorem represents_all_iff (h : dtype.isHostInteger = true) {n : Nat} :
    (Represents dtype start ∧ Represents dtype (start + n * step)) ↔
      ∀ k < n + 1, Represents dtype (start + k * step) := by
  constructor
  · rintro ⟨hfirst, hlast⟩ k hk
    rw [show start = start + (0 : Nat) * step by simp] at hfirst
    exact hfirst.between h hlast (Progression.between (Nat.zero_le k) (by omega))
  · intro hall
    exact ⟨by simpa using hall 0 (by omega), hall n (by omega)⟩

end Arange

end Elements

/-! ### The whole call

The reasons for a refusal are tried in order.  If none applies, the progression is written. -/

/-- What `arange` refuses, on the elements that were asked for. -/
def ArangeRejects (start stop step : Int) (dtype : DataType) : Prop :=
  step = 0 ∨ ¬InInt64 (stop - start) ∨
    ∃ n : Nat, (∀ k : Nat, Before step stop (start + k * step) ↔ k < n) ∧
      (2 ^ 63 ≤ n ∨ EmptyRejects dtype n ∨ ∃ k < n, ¬Represents dtype (start + k * step))

/-- A tensor holds the progression. -/
def HoldsProgression {β : Type} (start stop step : Int) (dtype : DataType)
    (made : TensorView × List (Element β)) : Prop :=
  ∃ n : Nat, (∀ k : Nat, Before step stop (start + k * step) ↔ k < n) ∧
    made.1.shape.dims = [n] ∧ made.1.dtype = dtype ∧
      made.2 = (List.range n).map (fun k : Nat => Element.integer (start + k * step)) ∧
        ∀ k < n, Represents dtype (start + k * step)

section Call

variable {β : Type} {narrow : DataType → Int → Int → Int → β} {host : HostMemory}
  {start stop step : Int} {dtype : DataType} {allocator : Option Allocator}

variable (narrow) in
/-- The elements are written exactly when all of them are represented. -/
theorem Arange.fill_spec (hdtype : dtype.isHostInteger = true) (hstart : InInt64 start)
    (hstop : InInt64 stop) (hspan : InInt64 (stop - start)) {n : Nat} (hn : n + 1 < 2 ^ 63)
    (hcount : ∀ k : Nat, Before step stop (start + k * step) ↔ k < n + 1) (tensor : TensorView) :
    ((∀ k < n + 1, Represents dtype (start + k * step)) →
      fill narrow start step dtype tensor (n + 1 : Nat) = .ok (.ok (tensor,
        (List.range (n + 1)).map fun k : Nat => .integer (start + k * step)))) ∧
    (¬(∀ k < n + 1, Represents dtype (start + k * step)) →
      ∃ status, fill narrow start step dtype tensor (n + 1 : Nat) = .ok (.error status)) := by
  obtain ⟨hoffset, hlast⟩ := term_inInt64 hstart hstop hspan ((hcount n).mpr (by omega))
  obtain ⟨fits, hfits, hiff⟩ := endsFit_ok hdtype start (start + n * step)
  rw [represents_all_iff hdtype] at hiff
  have hfloating : dtype.isFloatingPoint = false := by
    cases dtype <;> first | rfl | cases hdtype
  unfold fill
  rw [show ((n + 1 : Nat) : Int) - 1 = n by omega, int64_of_lt (by omega) (by omega), ok_bind,
    int64_ok hoffset, ok_bind, int64_ok hlast, ok_bind, hfits, ok_bind]
  constructor
  · intro hall
    have hturns : ∀ k ∈ List.range (n + 1), element narrow dtype start step k
        = .ok (.integer (start + k * step)) := by
      intro k hk
      have hlt : k < n + 1 := List.mem_range.mp hk
      exact element_ok hfloating hstart hstop hspan ((hcount k).mpr hlt) (hall k hlt)
    rw [if_neg (by simp [hiff.mpr hall]), Int.toNat_natCast, mapM_ok hturns]
    rfl
  · intro hsome
    rw [if_pos (by simp [mt hiff.mp hsome])]
    exact ⟨_, rfl⟩

variable (narrow) in
/-- The tensor is made exactly when its bytes are granted and its elements represented. -/
theorem Arange.create_spec (hdtype : dtype.isFloatingPoint = false) (hstart : InInt64 start)
    (hstop : InInt64 stop) (hspan : InInt64 (stop - start))
    (halloc : Allocates (allocator.getD (defaultCpuAllocator host))) {n : Nat} (hn : n < 2 ^ 63)
    (hcount : ∀ k : Nat, Before step stop (start + k * step) ↔ k < n) :
    (¬EmptyRejects dtype n → (∀ k < n, Represents dtype (start + k * step)) →
      ∃ made, create narrow host start step dtype .cpu allocator n = .ok (.ok made) ∧
        HoldsProgression start stop step dtype made) ∧
    (EmptyRejects dtype n ∨ ¬(∀ k < n, Represents dtype (start + k * step)) →
      ∃ status, create narrow host start step dtype .cpu allocator n = .ok (.error status)) := by
  obtain ⟨shape, hshape, hdims⟩ := Shape.literal_one hn
  have hnumel : shape.numel = n := by
    rw [shape.numel_eq, hdims]
    simp
  unfold create
  rw [hshape, ok_bind]
  by_cases hempty : EmptyRejects dtype n
  · have hrejects : EmptyRejects dtype shape.numel := by
      rw [hnumel]
      exact hempty
    obtain ⟨status, hstatus⟩ := TensorView.empty_rejects halloc hrejects
    rw [hstatus, ok_bind]
    exact ⟨fun h => absurd hempty h, fun _ => ⟨status, rfl⟩⟩
  · have hgranted : ¬EmptyRejects dtype shape.numel := by
      rw [hnumel]
      exact hempty
    obtain ⟨tensor, htensor, htshape, htdtype⟩ := TensorView.empty_ok halloc hgranted
    have hhost : dtype.isHostInteger = true := by
      unfold DataType.isHostInteger
      simp [hdtype, Bool.eq_false_iff.mpr (not_or.mp hempty).1]
    rw [htensor, ok_bind]
    dsimp only
    cases n with
    | zero =>
        rw [if_pos (by simp)]
        refine ⟨fun _ hall => ⟨_, rfl, 0, hcount, ?_, htdtype, rfl, hall⟩, ?_⟩
        · rw [htshape, hdims]
        · intro h
          exact absurd (fun k hk => absurd hk (Nat.not_lt_zero k)) (h.resolve_left hempty)
    | succ n =>
        obtain ⟨hall, hsome⟩ := fill_spec narrow hhost hstart hstop hspan hn hcount
          tensor
        rw [if_neg (by omega)]
        refine ⟨fun _ hrep => ⟨_, hall hrep, n + 1, hcount, ?_, htdtype, rfl, hrep⟩, ?_⟩
        · rw [htshape, hdims]
        · intro h
          exact hsome (h.resolve_left hempty)

/-- A call that is refused for one of the reasons. -/
private theorem refused_spec {x : Checked (StatusOr (TensorView × List (Element β)))}
    (hrun : ∃ status, x = .ok (.error status)) (hreason : ArangeRejects start stop step dtype) :
    ∃ result, x = .ok result ∧
      (∀ made, result = .ok made → HoldsProgression start stop step dtype made) ∧
      ((∃ status, result = .error status) ↔ ArangeRejects start stop step dtype) := by
  obtain ⟨status, rfl⟩ := hrun
  exact ⟨_, rfl, fun made h => (nomatch h), fun _ => hreason, fun _ => ⟨status, rfl⟩⟩

end Call

/-- **No intermediate of `arange` wraps: it returns the progression, or refuses one that it cannot
hold.** -/
theorem arange_exact {β : Type} (narrow : DataType → Int → Int → Int → β) {host : HostMemory}
    {start stop step : Int} {dtype : DataType} {allocator : Option Allocator}
    (hstart : InInt64 start) (hstop : InInt64 stop) (hstep : InInt64 step)
    (hdtype : dtype.isFloatingPoint = false)
    (halloc : Allocates (allocator.getD (defaultCpuAllocator host))) :
    ∃ result, arange narrow host start stop step dtype .cpu allocator = .ok result ∧
      (∀ made, result = .ok made → HoldsProgression start stop step dtype made) ∧
      ((∃ status, result = .error status) ↔ ArangeRejects start stop step dtype) := by
  by_cases hne : step = 0
  · refine refused_spec ?_ (Or.inl hne)
    unfold arange
    rw [if_pos hne]
    exact ⟨_, rfl⟩
  by_cases hspan : InInt64 (stop - start)
  case neg =>
    refine refused_spec ?_ (Or.inr (Or.inl hspan))
    have hnone : subOverflow stop start = none := if_neg hspan
    unfold arange
    rw [if_neg hne, hnone]
    exact ⟨_, rfl⟩
  have hcount := Progression.before_iff hne start stop
  obtain ⟨hfew, hmany⟩ := Arange.elementCount_ok start stop hstep hne hspan
  generalize Progression.count step (stop - start) = n at hcount hfew hmany
  by_cases hn : 2 ^ 63 ≤ n
  · obtain ⟨status, hstatus⟩ := hmany hn
    refine refused_spec ⟨status, ?_⟩ (Or.inr (Or.inr ⟨n, hcount, Or.inl hn⟩))
    unfold arange
    rw [if_neg hne, subOverflow_of_fits hspan]
    dsimp only
    rw [hstatus]
    rfl
  have hcreate : arange narrow host start stop step dtype .cpu allocator
      = Arange.create narrow host start step dtype .cpu allocator n := by
    unfold arange
    rw [if_neg hne, subOverflow_of_fits hspan]
    dsimp only
    rw [hfew (by omega)]
    rfl
  rw [hcreate]
  obtain ⟨hmade, herror⟩ := Arange.create_spec narrow hdtype hstart hstop hspan halloc
    (by omega) hcount
  by_cases hreject : EmptyRejects dtype n ∨ ¬(∀ k < n, Represents dtype (start + k * step))
  · refine refused_spec (herror hreject) (Or.inr (Or.inr ⟨n, hcount, Or.inr ?_⟩))
    rcases hreject with hempty | hsome
    · exact Or.inl hempty
    · simp only [not_forall] at hsome
      obtain ⟨k, hk, hunrep⟩ := hsome
      exact Or.inr ⟨k, hk, hunrep⟩
  · obtain ⟨hempty, hall⟩ := not_or.mp hreject
    obtain ⟨made, hrun, hholds⟩ := hmade hempty (not_not.mp hall)
    refine ⟨_, hrun, fun made' h => by cases h; exact hholds, fun ⟨_, h⟩ => (nomatch h), ?_⟩
    rintro (hzero | hwide | ⟨m, hm, hreason⟩)
    · exact absurd hzero hne
    · exact absurd hspan hwide
    · have heq : m = n := by
        have h1 := (hm n).symm.trans (hcount n)
        have h2 := (hm m).symm.trans (hcount m)
        omega
      subst heq
      rcases hreason with hlarge | hrejected | ⟨k, hk, hunrep⟩
      · exact absurd hlarge hn
      · exact absurd hrejected hempty
      · exact absurd (not_not.mp hall k hk) hunrep

/-- Memory that never runs out, from one address on. -/
def HostMemory.vast : HostMemory where
  alignedAlloc := fun _ bytes => if 64 + bytes ≤ 2 ^ 64 then some 64 else none
  alignedAlloc_pos := by
    intro alignment bytes data h
    split at h
    · cases h
      decide
    · cases h
  alignedAlloc_end_le := by
    intro alignment bytes data h
    split at h
    · rename_i hle
      cases h
      exact hle
    · cases h

theorem HostMemory.vast_allocates : Allocates (defaultCpuAllocator .vast) := by
  refine ⟨rfl, fun bytes hbytes => ?_⟩
  show ∃ buffer, CpuAllocator.allocate .vast bytes 64 = .ok (.ok buffer)
  unfold CpuAllocator.allocate
  rw [check_of_true (by decide), ok_bind]
  by_cases hzero : bytes = 0
  · rw [dif_pos hzero]
    exact ⟨_, rfl⟩
  · have hround : 64 + CpuAllocator.roundedBytes bytes 64 ≤ 2 ^ 64 := by
      have hdiv := Nat.div_mul_le_self (bytes + 64 - 1) 64
      unfold CpuAllocator.roundedBytes
      omega
    rw [dif_neg hzero, if_neg (by unfold CpuAllocator.effectiveAlignment; omega)]
    dsimp only
    split
    · rename_i hnone
      have hsome : HostMemory.vast.alignedAlloc 64 (CpuAllocator.roundedBytes bytes 64) = some 64 :=
        if_pos hround
      cases hsome.symm.trans hnone
    · exact ⟨_, rfl⟩

/-- A span that only its magnitude holds is counted, and is found to be one element too long. -/
theorem arange_exact_small :
    ∃ result, arange (fun _ _ _ _ => ()) .vast 0 (-(2 ^ 63)) (-1) .int64 .cpu none = .ok result ∧
      (∀ made, result = .ok made → HoldsProgression 0 (-(2 ^ 63)) (-1) .int64 made) ∧
      ((∃ status, result = .error status) ↔ ArangeRejects 0 (-(2 ^ 63)) (-1) .int64) :=
  arange_exact (fun _ _ _ _ => ()) (by decide) (by decide) (by decide) rfl
    HostMemory.vast_allocates

end InferenceEngine
