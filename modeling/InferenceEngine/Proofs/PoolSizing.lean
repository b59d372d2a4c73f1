/-
A pool sized for a budget is exactly as large as its sizing said.

`product_of_lt` is the one argument: a chain of products of positive factors does not wrap
when the last of them fits, whatever the order.  The budget bounds the byte count of the
whole pool, and each product the code forms is a factor of that count.
-/
import InferenceEngine.KvCache.BlockPool
import InferenceEngine.Proofs.BlockPool
import Mathlib.Algebra.Order.BigOperators.GroupWithZero.List
import Mathlib.Tactic.Ring
import Mathlib.Tactic.Linarith

namespace InferenceEngine

open Except

namespace BlockPool

/-! ### Products at 64 bits

A chain of products either is exact or ends with none.  A product of positive factors that fits
has no part that does not. -/

theorem mulOverflow_eq_some {a b c : Int} (h : mulOverflow a b = some c) : c = a * b := by
  unfold mulOverflow at h
  split at h
  · cases h
    rfl
  · cases h

theorem mulOverflow_lt {a b c : Int} (h : mulOverflow a b = some c) : c < 2 ^ 63 := by
  unfold mulOverflow at h
  split at h
  · rename_i hfits
    cases h
    exact hfits.2
  · cases h

theorem mulOverflow_of_lt {a b : Int} (hpos : 0 ≤ a * b) (hlt : a * b < 2 ^ 63) :
    mulOverflow a b = some (a * b) := by
  rw [mulOverflow, if_pos ⟨by omega, hlt⟩]

@[simp] theorem product_nil (a : Int) : product a [] = some a := rfl

@[simp] theorem product_cons (a b : Int) (fs : List Int) :
    product a (b :: fs) = (mulOverflow a b).bind fun c => product c fs := rfl

theorem product_singleton (a b : Int) : product a [b] = mulOverflow a b := by
  simp

theorem product_append (a : Int) (fs gs : List Int) :
    product a (fs ++ gs) = (product a fs).bind fun c => product c gs :=
  List.foldlM_append

/-- A chain that fits is exact. -/
theorem product_eq_some {fs : List Int} {a c : Int} (h : product a fs = some c) :
    c = a * fs.prod := by
  induction fs generalizing a with
  | nil =>
      simp only [product_nil, Option.some.injEq] at h
      simp [h]
  | cons b fs ih =>
      rw [product_cons, Option.bind_eq_some_iff] at h
      obtain ⟨d, hd, h⟩ := h
      rw [ih h, mulOverflow_eq_some hd, List.prod_cons, mul_assoc]

/-- A chain of positive factors fits as soon as its last product does. -/
theorem product_of_lt {fs : List Int} {a : Int} (ha : 0 < a) (hfs : ∀ f ∈ fs, 0 < f)
    (h : a * fs.prod < 2 ^ 63) : product a fs = some (a * fs.prod) := by
  induction fs generalizing a with
  | nil => simp
  | cons b fs ih =>
      have hb : 0 < b := hfs b List.mem_cons_self
      have hrest : ∀ f ∈ fs, 0 < f := fun f hf => hfs f (List.mem_cons_of_mem b hf)
      have hprod : 0 < fs.prod := List.prod_pos hrest
      have hab : 0 < a * b := mul_pos ha hb
      rw [List.prod_cons, ← mul_assoc] at h
      have hfits : a * b < 2 ^ 63 :=
        lt_of_le_of_lt (le_mul_of_one_le_right hab.le hprod) h
      rw [product_cons, mulOverflow_of_lt hab.le hfits, Option.bind_some, ih hab hrest h,
        List.prod_cons, mul_assoc]

/-! ### What a block takes

The sizes are products of the geometry, taken in different orders in different places. -/

/-- The bytes of one block over all layers, keys and values. -/
def blockBytes (geom : CacheGeometry) (blockSize : Int) : Int :=
  2 * geom.numLayers * geom.numKvHeads * blockSize * geom.headDim * 4

/-- What `ValidateGeometry` and `IsValidBlockSize` accept. -/
structure Valid (geom : CacheGeometry) (blockSize : Int) : Prop where
  layers_pos : 0 < geom.numLayers
  heads_pos : 0 < geom.numKvHeads
  dim_pos : 0 < geom.headDim
  dtype_eq : geom.dtype = .float32
  size_valid : isValidBlockSize blockSize = true

theorem validateGeometry_ok {geom : CacheGeometry} (h : validateGeometry geom = .ok ()) :
    (0 < geom.numLayers ∧ 0 < geom.numKvHeads ∧ 0 < geom.headDim) ∧ geom.dtype = .float32 := by
  unfold validateGeometry at h
  split at h
  · cases h
  · split at h
    · cases h
    · rename_i hpos hdtype
      exact ⟨by omega, not_not.mp hdtype⟩

theorem Valid.validateGeometry_eq {geom : CacheGeometry} {blockSize : Int}
    (h : Valid geom blockSize) : validateGeometry geom = .ok () := by
  obtain ⟨hlayers, hheads, hdim, hdtype, _⟩ := h
  rw [validateGeometry, if_neg (by omega), if_neg (not_not.mpr hdtype)]

theorem Valid.blockSize_pos {geom : CacheGeometry} {blockSize : Int}
    (h : Valid geom blockSize) : 0 < blockSize := by
  have hsize := h.size_valid
  simp only [isValidBlockSize, Bool.or_eq_true, decide_eq_true_eq] at hsize
  omega

theorem Valid.blockBytes_pos {geom : CacheGeometry} {blockSize : Int}
    (h : Valid geom blockSize) : 0 < blockBytes geom blockSize := by
  have hlayers := h.layers_pos
  have hheads := h.heads_pos
  have hdim := h.dim_pos
  have hsize := h.blockSize_pos
  unfold blockBytes
  positivity

/-- `BytesPerBlock` answers with the exact product, for a valid geometry, or not at all. -/
theorem bytesPerBlock_cases (geom : CacheGeometry) (blockSize : Int) :
    (∃ status, bytesPerBlock geom blockSize = .ok (.error status)) ∨
      Valid geom blockSize ∧
        bytesPerBlock geom blockSize = .ok (.ok (blockBytes geom blockSize)) := by
  unfold bytesPerBlock
  cases hgeom : validateGeometry geom with
  | error status => exact .inl ⟨status, rfl⟩
  | ok u =>
    obtain ⟨⟨hlayers, hheads, hdim⟩, hdtype⟩ := validateGeometry_ok hgeom
    by_cases hsize : isValidBlockSize blockSize = true
    · have hitem : geom.dtype.itemsize = .ok 4 := by rw [hdtype]; rfl
      simp only [hsize, Bool.not_true, Bool.false_eq_true, if_false, hitem, ok_bind]
      cases hprod : product 2 [geom.numLayers, geom.numKvHeads, blockSize, geom.headDim,
          ((4 : Nat) : Int)] with
      | none => exact .inl ⟨_, rfl⟩
      | some elems =>
        refine .inr ⟨⟨hlayers, hheads, hdim, hdtype, hsize⟩, ?_⟩
        have helems := product_eq_some hprod
        simp only [List.prod_cons, List.prod_nil] at helems
        have hbytes : elems = blockBytes geom blockSize := by
          rw [helems, blockBytes]
          push_cast
          ring
        rw [hbytes]
        rfl
    · simp only [hsize, Bool.not_false, if_true]
      exact .inl ⟨_, rfl⟩

/-- What `NumBlocksForBudget` found when it returned `n`. -/
structure Budgeted (geom : CacheGeometry) (blockSize budget n : Int) : Prop where
  valid : Valid geom blockSize
  bytes_eq : bytesPerBlock geom blockSize = .ok (.ok (blockBytes geom blockSize))
  pos : 0 < n
  le_budget : n * blockBytes geom blockSize ≤ budget
  budget_lt : budget < (n + 1) * blockBytes geom blockSize

theorem numBlocksForBudget_ok {geom : CacheGeometry} {blockSize budget n : Int}
    (h : numBlocksForBudget geom blockSize budget = .ok (.ok n)) :
    Budgeted geom blockSize budget n := by
  unfold numBlocksForBudget at h
  split at h
  · cases h
  · rename_i hbudget
    obtain ⟨status, hbytes⟩ | ⟨hvalid, hbytes⟩ := bytesPerBlock_cases geom blockSize
    · rw [hbytes, ok_bind] at h
      cases h
    · rw [hbytes, ok_bind] at h
      have hpos := hvalid.blockBytes_pos
      dsimp only at h
      split at h
      · cases h
      · rename_i hn
        cases h
        have hdiv : budget.tdiv (blockBytes geom blockSize)
            = budget / blockBytes geom blockSize := Int.tdiv_eq_ediv_of_nonneg (by omega)
        rw [hdiv] at hn ⊢
        refine ⟨hvalid, hbytes, by omega, Int.ediv_mul_le _ hpos.ne', ?_⟩
        exact Int.lt_ediv_add_one_mul_self _ hpos

/-! ### The pool of that many blocks

Each product formed from a sized pool is a part of one that has been found to fit. -/

variable {α : Type}

/-- A created pool and the products formed from it: none wraps. -/
structure Sized [Zero α] (geom : CacheGeometry) (blockSize n : Int) (p : BlockPool α) :
    Prop where
  create_eq : create geom blockSize n = .ok p
  slabElems64_eq : p.slabElems64 = some (n * geom.numKvHeads * blockSize * geom.headDim)
  slabBytes64_eq : p.slabBytes64 = some (n * geom.numKvHeads * blockSize * geom.headDim * 4)
  blockStride64_eq : p.blockStride64 = some (geom.numKvHeads * blockSize * geom.headDim)
  headStride64_eq : p.headStride64 = some (blockSize * geom.headDim)
  rowStride_eq : p.rowStride = geom.headDim
  totalBytes64_eq : p.totalBytes64 = some (n * blockBytes geom blockSize)
  tokenCapacity64_eq : p.tokenCapacity64 = some (n * blockSize)

/-- A product of `fs` that divides the byte count of a budgeted pool fits. -/
theorem Budgeted.product_eq {geom : CacheGeometry} {blockSize budget n : Int}
    (h : Budgeted geom blockSize budget n) (hbudget : budget < 2 ^ 63) (first : Int)
    (fs : List Int) (rest : Int) (hfirst : 0 < first) (hfs : ∀ f ∈ fs, 0 < f)
    (hrest : 0 < rest) (htotal : first * fs.prod * rest = n * blockBytes geom blockSize) :
    product first fs = some (first * fs.prod) := by
  have hpos : 0 < first * fs.prod := mul_pos hfirst (List.prod_pos hfs)
  have hle : first * fs.prod ≤ n * blockBytes geom blockSize := by
    rw [← htotal]
    exact le_mul_of_one_le_right hpos.le hrest
  exact product_of_lt hfirst hfs (lt_of_le_of_lt (hle.trans h.le_budget) hbudget)

theorem slabBytes64_eq_product (p : BlockPool α) :
    p.slabBytes64 =
      product p.numBlocks ([p.geom.numKvHeads, p.blockSize, p.geom.headDim] ++ [4]) := by
  rw [product_append]
  simp [slabBytes64, slabElems64]

theorem totalBytes64_eq_product (p : BlockPool α) :
    p.totalBytes64 = product p.numBlocks
      (([p.geom.numKvHeads, p.blockSize, p.geom.headDim] ++ [4]) ++ [2, p.geom.numLayers]) := by
  rw [product_append, ← slabBytes64_eq_product]
  rfl

/-- `Create` succeeds when its own two products fit. -/
theorem create_of_fits [Zero α] {geom : CacheGeometry} {blockSize n elems : Int}
    (hvalid : Valid geom blockSize) (hn : 0 < n)
    (helems : product n [geom.numKvHeads, blockSize, geom.headDim] = some elems)
    {bytes : Int} (hbytes : mulOverflow elems 4 = some bytes) :
    create (α := α) geom blockSize n = .ok (new geom blockSize.toNat n.toNat) := by
  have hpos : ¬ n < 1 := by omega
  unfold create
  rw [hvalid.validateGeometry_eq, ok_bind]
  simp only [hvalid.size_valid, Bool.not_true, Bool.false_eq_true, if_false, if_neg hpos]
  rw [show List.foldlM mulOverflow n [geom.numKvHeads, blockSize, geom.headDim] = some elems
    from helems]
  dsimp only
  rw [hbytes]
  rfl

/-- The slab byte count that `Create` let through. -/
theorem create_fits [Zero α] {geom : CacheGeometry} {blockSize n : Int} {p : BlockPool α}
    (h : create geom blockSize n = .ok p) :
    n * (geom.numKvHeads * (blockSize * geom.headDim)) * 4 < 2 ^ 63 := by
  unfold create at h
  obtain ⟨_, _, h⟩ := bind_eq_ok.mp h
  simp only [bind, Except.bind, throw, throwThe, MonadExceptOf.throw] at h
  split at h
  · cases h
  split at h
  · cases h
  split at h
  · cases h
  rename_i elems helems
  split at h
  · cases h
  rename_i bytes hbytes
  have hslab : elems = n * [geom.numKvHeads, blockSize, geom.headDim].prod :=
    product_eq_some helems
  simp only [List.prod_cons, List.prod_nil, mul_one] at hslab
  have hlt := mulOverflow_lt hbytes
  rw [mulOverflow_eq_some hbytes, hslab] at hlt
  exact hlt

/-- The token capacity of a created pool fits: it is a part of the slab byte count. -/
theorem create_capacity_lt [Zero α] {geom : CacheGeometry} {blockSize n : Int} {p : BlockPool α}
    (h : create geom blockSize n = .ok p) : (p.numBlocks : Int) * p.blockSize < 2 ^ 63 := by
  have hfits := create_fits h
  obtain ⟨_, hheads, hdim, hsize, hn, rfl⟩ := create_ok h
  simp only [new, Int.toNat_of_nonneg hn.le, Int.toNat_of_nonneg hsize.le]
  have hpos : 0 < n * blockSize := mul_pos hn hsize
  have hrest : 1 ≤ geom.numKvHeads * geom.headDim * 4 := by
    have : 0 < geom.numKvHeads * geom.headDim * 4 := by positivity
    omega
  calc n * blockSize
      ≤ n * blockSize * (geom.numKvHeads * geom.headDim * 4) := le_mul_of_one_le_right hpos.le hrest
    _ = n * (geom.numKvHeads * (blockSize * geom.headDim)) * 4 := by ring
    _ < 2 ^ 63 := hfits

theorem Budgeted.create_sized [Zero α] {geom : CacheGeometry} {blockSize budget n : Int}
    (h : Budgeted geom blockSize budget n) (hbudget : budget < 2 ^ 63) :
    ∃ p : BlockPool α, Sized geom blockSize n p := by
  have hvalid := h.valid
  have hlayers := hvalid.layers_pos
  have hheads := hvalid.heads_pos
  have hdim := hvalid.dim_pos
  have hsize := hvalid.blockSize_pos
  have hn := h.pos
  -- every product is a part of `n * blockBytes`
  have hbytes : blockBytes geom blockSize
      = 2 * geom.numLayers * geom.numKvHeads * blockSize * geom.headDim * 4 := rfl
  have helems := h.product_eq hbudget n [geom.numKvHeads, blockSize, geom.headDim]
    (2 * geom.numLayers * 4) hn (by simp [hheads, hsize, hdim]) (by positivity)
    (by simp only [hbytes, List.prod_cons, List.prod_nil]; ring)
  have hslab := h.product_eq hbudget n ([geom.numKvHeads, blockSize, geom.headDim] ++ [4])
    (2 * geom.numLayers) hn (by simp [hheads, hsize, hdim]) (by positivity)
    (by simp only [hbytes, List.prod_append, List.prod_cons, List.prod_nil]; ring)
  have htotal := h.product_eq hbudget n
    (([geom.numKvHeads, blockSize, geom.headDim] ++ [4]) ++ [2, geom.numLayers]) 1 hn
    (by simp [hheads, hsize, hdim, hlayers]) (by positivity)
    (by simp only [hbytes, List.prod_append, List.prod_cons, List.prod_nil]; ring)
  have hblock := h.product_eq hbudget geom.numKvHeads [blockSize, geom.headDim]
    (n * (2 * geom.numLayers) * 4) hheads (by simp [hsize, hdim]) (by positivity)
    (by simp only [hbytes, List.prod_cons, List.prod_nil]; ring)
  have hhead := h.product_eq hbudget blockSize [geom.headDim]
    (n * (2 * geom.numLayers * geom.numKvHeads) * 4) hsize (by simp [hdim]) (by positivity)
    (by simp only [hbytes, List.prod_cons, List.prod_nil]; ring)
  have htokens := h.product_eq hbudget n [blockSize]
    (2 * geom.numLayers * geom.numKvHeads * geom.headDim * 4) hn (by simp [hsize])
    (by positivity) (by simp only [hbytes, List.prod_cons, List.prod_nil]; ring)
  have hfour := hslab
  rw [product_append, helems, Option.bind_some, product_singleton] at hfour
  have hnN : ((n.toNat : Nat) : Int) = n := Int.toNat_of_nonneg hn.le
  have hbsN : ((blockSize.toNat : Nat) : Int) = blockSize := Int.toNat_of_nonneg hsize.le
  refine ⟨_, create_of_fits hvalid hn helems hfour, ?_, ?_, ?_, ?_, rfl, ?_, ?_⟩
  · simp only [slabElems64, new, hnN, hbsN, helems, List.prod_cons, List.prod_nil]
    ring_nf
  · simp only [slabBytes64_eq_product, new, hnN, hbsN]
    rw [hslab]
    simp only [List.prod_append, List.prod_cons, List.prod_nil]
    ring_nf
  · simp only [blockStride64, new, hbsN, hblock, List.prod_cons, List.prod_nil]
    ring_nf
  · simp only [headStride64, new, hbsN, hhead, List.prod_cons, List.prod_nil]
    ring_nf
  · simp only [totalBytes64_eq_product, new, hnN, hbsN]
    rw [htotal]
    simp only [hbytes, List.prod_append, List.prod_cons, List.prod_nil]
    ring_nf
  · rw [product_singleton, List.prod_singleton] at htokens
    simp only [tokenCapacity64, new, hnN, hbsN, htokens]

/-- **The sizing chain.**  `BytesPerBlock` is exact or an error.  A number of blocks found for
a budget fills it to within one block, `Create` accepts it, and no product formed from the
pool it makes wraps. -/
theorem numBlocksForBudget_sized [Zero α] (geom : CacheGeometry) (blockSize budget : Int)
    (hbudget : budget < 2 ^ 63) :
    ((∃ status, bytesPerBlock geom blockSize = .ok (.error status)) ∨
      bytesPerBlock geom blockSize = .ok (.ok (blockBytes geom blockSize))) ∧
    ∀ n, numBlocksForBudget geom blockSize budget = .ok (.ok n) →
      bytesPerBlock geom blockSize = .ok (.ok (blockBytes geom blockSize)) ∧
      n * blockBytes geom blockSize ≤ budget ∧ budget < (n + 1) * blockBytes geom blockSize ∧
      ∃ p : BlockPool α, Sized geom blockSize n p := by
  refine ⟨?_, ?_⟩
  · obtain hbytes | ⟨_, hbytes⟩ := bytesPerBlock_cases geom blockSize
    · exact .inl hbytes
    · exact .inr hbytes
  · intro n hn
    have hbudgeted := numBlocksForBudget_ok hn
    exact ⟨hbudgeted.bytes_eq, hbudgeted.le_budget, hbudgeted.budget_lt,
      hbudgeted.create_sized hbudget⟩

/-- A budget of a thousand bytes holds one block of two layers, one head and a head
dimension of four. -/
theorem numBlocksForBudget_sized_thousand :
    numBlocksForBudget ⟨2, 1, 4, .float32⟩ 8 1000 = .ok (.ok 1) ∧
      (1 : Int) * blockBytes ⟨2, 1, 4, .float32⟩ 8 ≤ 1000 ∧
      ∃ p : BlockPool Int, Sized ⟨2, 1, 4, .float32⟩ 8 1 p := by
  have hn : numBlocksForBudget ⟨2, 1, 4, .float32⟩ 8 1000 = .ok (.ok 1) := by rfl
  obtain ⟨_, hle, _, hp⟩ :=
    (numBlocksForBudget_sized (α := Int) ⟨2, 1, 4, .float32⟩ 8 1000 (by decide)).2 1 hn
  exact ⟨hn, hle, hp⟩

end BlockPool

end InferenceEngine
