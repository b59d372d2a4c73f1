/-
What the reference attention leaves in memory.

The scores are written, replaced by their softmax where they lie, and read again; the three passes
run over the rows in any order.  The output may lie where the queries do, as they are not read any
more when it is written.
-/
import InferenceEngine.Proofs.CpuOps

namespace InferenceEngine

open Except Parallel Stores Cells
open Attention (Floats)

namespace Cpu

variable {β : Type} {m m' : Memory β} {q k v out scores : Int} {dims : AttnDims} {kvHeads : Nat}
  {Q K V O : Nat → β}

namespace AttnDims

/-- What the checks of `attention` say about the dimensions. -/
structure Legal (dims : AttnDims) (kvHeads : Nat) : Prop where
  tDim : 1 ≤ dims.tDim
  rows : dims.rows = dims.heads * dims.tDim
  kv : ∀ h < dims.heads, h / dims.group < kvHeads
  length : dims.tDim ≤ dims.lDim
  past : dims.past = dims.lDim - dims.tDim

/-- Where the query and the output of a row are. -/
def token (dims : AttnDims) (row : Nat) : Nat := row % dims.tDim * dims.heads + row / dims.tDim

/-- The kv head of a row. -/
def kvHead (dims : AttnDims) (row : Nat) : Nat := row / dims.tDim / dims.group

theorem Legal.head_lt (h : dims.Legal kvHeads) {row : Nat} (hrow : row < dims.rows) :
    row / dims.tDim < dims.heads := by
  refine Nat.div_lt_of_lt_mul ?_
  rwa [Nat.mul_comm, ← h.rows]

theorem Legal.token_lt (h : dims.Legal kvHeads) {row : Nat} (hrow : row < dims.rows) :
    dims.token row < dims.tDim * dims.heads := by
  have hhead := h.head_lt hrow
  have hmod := Nat.mod_lt row h.tDim
  have hmul := Nat.mul_le_mul_right dims.heads hmod
  rw [Nat.succ_mul] at hmul
  rw [token]
  omega

theorem Legal.token_inj (h : dims.Legal kvHeads) {row row' : Nat} (hrow : row < dims.rows)
    (hrow' : row' < dims.rows) (heq : dims.token row = dims.token row') : row = row' := by
  have hhead := h.head_lt hrow
  have hhead' := h.head_lt hrow'
  have hdiv : dims.token row / dims.heads = row % dims.tDim := by
    rw [token, Nat.mul_comm, Nat.mul_add_div (Nat.zero_lt_of_lt hhead),
      Nat.div_eq_of_lt hhead, Nat.add_zero]
  have hdiv' : dims.token row' / dims.heads = row' % dims.tDim := by
    rw [token, Nat.mul_comm, Nat.mul_add_div (Nat.zero_lt_of_lt hhead'),
      Nat.div_eq_of_lt hhead', Nat.add_zero]
  have hmod : dims.token row % dims.heads = row / dims.tDim := by
    rw [token, Nat.mul_comm, Nat.mul_add_mod, Nat.mod_eq_of_lt hhead]
  have hmod' : dims.token row' % dims.heads = row' / dims.tDim := by
    rw [token, Nat.mul_comm, Nat.mul_add_mod, Nat.mod_eq_of_lt hhead']
  rw [← Nat.div_add_mod row dims.tDim, ← Nat.div_add_mod row' dims.tDim, ← hdiv, ← hdiv', ← hmod,
    ← hmod', heq]

/-- The elements of a block of a buffer that is made of blocks. -/
theorem block_fits {i n d : Nat} (h : i < n) : i * d + d ≤ n * d := by
  have := Nat.mul_le_mul_right d h
  rwa [Nat.succ_mul] at this

theorem blocks_apart {i j d : Nat} (h : i ≠ j) : i * d + d ≤ j * d ∨ j * d + d ≤ i * d := by
  rcases Nat.lt_or_gt_of_ne h with hlt | hlt
  · exact Or.inl (block_fits hlt)
  · exact Or.inr (block_fits hlt)

theorem Legal.key_lt (h : dims.Legal kvHeads) {row s : Nat} (hrow : row < dims.rows)
    (hs : s < dims.lDim) : dims.kvHead row * dims.lDim + s < kvHeads * dims.lDim := by
  have := block_fits (d := dims.lDim) (h.kv _ (h.head_lt hrow))
  rw [kvHead]
  omega

end AttnDims

open AttnDims (block_fits blocks_apart)

section

variable (F : Floats β)

/-- The dot product of two vectors, from left to right. -/
def dotOf (Q K : Nat → β) (d : Nat) : β :=
  (List.range d).foldl (fun dot e => F.add dot (F.mul (Q e) (K e))) F.zero

theorem dotLoop_ok {d : Nat} (hq : HoldsFloats m q d Q) (hk : HoldsFloats m k d K) :
    dotLoop F d q k m = .ok (dotOf F Q K d) := by
  refine foldlM_ok (fun e he dot => ?_) _
  have he := List.mem_range.mp he
  rw [hq.load he, ok_bind, hk.load he, ok_bind]
  rfl

/-- A score, before the softmax. -/
def scoreAt (dims : AttnDims) (Q K : Nat → β) (scale : β) (row s : Nat) : β :=
  if s > dims.past + row % dims.tDim then F.negInf
  else F.mul (dotOf F (fun e => Q (dims.token row * dims.d + e))
    (fun e => K ((dims.kvHead row * dims.lDim + s) * dims.d + e)) dims.d) scale

/-- The score pass of one row. -/
theorem scoreRow_ok (hd : dims.Legal kvHeads) (scale : β) {row : Nat} (hrow : row < dims.rows)
    (hq : HoldsFloats m q (dims.tDim * dims.heads * dims.d) Q)
    (hk : HoldsFloats m k (kvHeads * dims.lDim * dims.d) K)
    (hapartQ : Apart q (dims.tDim * dims.heads * dims.d) scores (dims.rows * dims.lDim))
    (hapartK : Apart k (kvHeads * dims.lDim * dims.d) scores (dims.rows * dims.lDim))
    (hhas : Has m (cellsAt (scores + (row * dims.lDim : Nat)) dims.lDim
      (scoreAt F dims Q K scale row))) :
    (scoreRow F q k scores dims scale m row).Returns fun m' =>
      Wrote m m' (cellsAt (scores + (row * dims.lDim : Nat)) dims.lDim
        (scoreAt F dims Q K scale row)) := by
  have hrowFits : row * dims.lDim + dims.lDim ≤ dims.rows * dims.lDim := block_fits hrow
  have hqFits := block_fits (d := dims.d) (hd.token_lt hrow)
  refine (cellsLoop_ok (fun m : Memory β => m) (fun _ _ => True) _
    (fun _ p => (∃ i < dims.tDim * dims.heads * dims.d, p = q + (i : Int)) ∨
      ∃ i < kvHeads * dims.lDim * dims.d, p = k + (i : Int)) ?_ ?_ trivial hhas).mono
    fun m' hm' => hm'.2
  · rintro i hi j hj hne (⟨a, ha, heq⟩ | ⟨a, ha, heq⟩)
    · rcases hapartQ with hlt | hlt <;> omega
    · rcases hapartK with hlt | hlt <;> omega
  · intro s hs m' _ hreads hsome
    by_cases hmask : s > dims.past + row % dims.tDim
    · rw [if_pos hmask, scoreAt, if_pos hmask]
      exact (store_wrote _ hsome _).mono fun m'' hm'' => ⟨trivial, hm''⟩
    · have hkFits := block_fits (d := dims.d) (hd.key_lt hrow hs)
      have hdot : dotLoop F dims.d (q + (dims.token row * dims.d : Nat))
          (k + ((dims.kvHead row * dims.lDim + s) * dims.d : Nat)) m' =
          .ok (dotOf F (fun e => Q (dims.token row * dims.d + e))
            (fun e => K ((dims.kvHead row * dims.lDim + s) * dims.d + e)) dims.d) := by
        refine dotLoop_ok F (fun e he => ?_) fun e he => ?_
        · rw [hreads _ (Or.inl ⟨dims.token row * dims.d + e, by omega, by omega⟩)]
          exact hq.sub hqFits e he
        · rw [hreads _ (Or.inr ⟨(dims.kvHead row * dims.lDim + s) * dims.d + e, by omega,
            by omega⟩)]
          exact hk.sub hkFits e he
      rw [if_neg hmask, scoreAt, if_neg hmask]
      refine Returns.bind ⟨_, hdot, rfl⟩ fun dot hdot' => ?_
      rw [hdot']
      exact (store_wrote _ hsome _).mono fun m'' hm'' => ⟨trivial, hm''⟩

/-- **The score pass.** -/
theorem scorePass_ok (hd : dims.Legal kvHeads) (schedule : Schedule) (scale : β)
    (hq : HoldsFloats m q (dims.tDim * dims.heads * dims.d) Q)
    (hk : HoldsFloats m k (kvHeads * dims.lDim * dims.d) K)
    (hs : HoldsFloats m scores (dims.rows * dims.lDim) O)
    (hapartQ : Apart q (dims.tDim * dims.heads * dims.d) scores (dims.rows * dims.lDim))
    (hapartK : Apart k (kvHeads * dims.lDim * dims.d) scores (dims.rows * dims.lDim)) :
    (scorePass F schedule q k scores dims scale m).Returns fun m' =>
      Wrote m m' (rowCells scores dims.rows dims.lDim (scoreAt F dims Q K scale)) := by
  refine rowsLoop_ok schedule le_rfl _
    (fun _ p => (∃ i < dims.tDim * dims.heads * dims.d, p = q + (i : Int)) ∨
      ∃ i < kvHeads * dims.lDim * dims.d, p = k + (i : Int)) ?_ ?_ ?_ ?_
  · intro r hr r' hr' hne c hc c' hc' heq
    obtain ⟨j, hj, rfl⟩ := mem_cellsAt.mp hc
    obtain ⟨j', hj', rfl⟩ := mem_cellsAt.mp hc'
    have heq : scores + ((r * dims.lDim : Nat) : Int) + j =
        scores + ((r' * dims.lDim : Nat) : Int) + j' := heq
    have := blocks_apart (d := dims.lDim) hne
    omega
  · intro r hr r' hr' hne c hc hread
    obtain ⟨j, hj, rfl⟩ := mem_cellsAt.mp hc
    have hfits := block_fits (d := dims.lDim) hr
    rcases hread with ⟨a, ha, heq⟩ | ⟨a, ha, heq⟩
    · have heq : scores + ((r * dims.lDim : Nat) : Int) + j = q + a := heq
      rcases hapartQ with hlt | hlt <;> omega
    · have heq : scores + ((r * dims.lDim : Nat) : Int) + j = k + a := heq
      rcases hapartK with hlt | hlt <;> omega
  · intro r hr m' hreads hhas
    refine scoreRow_ok F hd scale hr (fun i hi => ?_) (fun i hi => ?_) hapartQ hapartK hhas
    · rw [hreads _ (Or.inl ⟨i, hi, rfl⟩)]
      exact hq i hi
    · rw [hreads _ (Or.inr ⟨i, hi, rfl⟩)]
      exact hk i hi
  · intro r hr
    exact (hs.sub (block_fits hr)).has _

/-- An element of the context of a row. -/
def contextAt (dims : AttnDims) (P : Nat → Nat → β) (V : Nat → β) (row e : Nat) : β :=
  (List.range dims.lDim).foldl (fun acc s =>
    F.add acc (F.mul (P row s) (V ((dims.kvHead row * dims.lDim + s) * dims.d + e)))) F.zero

/-- The cells of the output. -/
def contextCells (dims : AttnDims) (out : Int) (P : Nat → Nat → β) (V : Nat → β) : List (Int × β) :=
  (List.range dims.rows).flatMap fun row =>
    cellsAt (out + (dims.token row * dims.d : Nat)) dims.d (contextAt F dims P V row)

/-- The context pass of one row. -/
theorem contextRow_ok (hd : dims.Legal kvHeads) {row : Nat} (hrow : row < dims.rows)
    {P : Nat → Nat → β}
    (hs : HoldsFloats m (scores + (row * dims.lDim : Nat)) dims.lDim (P row))
    (hv : HoldsFloats m v (kvHeads * dims.lDim * dims.d) V)
    (hapartS : Apart scores (dims.rows * dims.lDim) out (dims.tDim * dims.heads * dims.d))
    (hapartV : Apart v (kvHeads * dims.lDim * dims.d) out (dims.tDim * dims.heads * dims.d))
    (hhas : Has m (cellsAt (out + (dims.token row * dims.d : Nat)) dims.d
      (contextAt F dims P V row))) :
    (contextRow F scores v out dims m row).Returns fun m' =>
      Wrote m m' (cellsAt (out + (dims.token row * dims.d : Nat)) dims.d
        (contextAt F dims P V row)) := by
  have hrowFits : row * dims.lDim + dims.lDim ≤ dims.rows * dims.lDim := block_fits hrow
  have houtFits := block_fits (d := dims.d) (hd.token_lt hrow)
  refine (cellsLoop_ok (fun m : Memory β => m) (fun _ _ => True) _
    (fun _ p => (∃ i < dims.rows * dims.lDim, p = scores + (i : Int)) ∨
      ∃ i < kvHeads * dims.lDim * dims.d, p = v + (i : Int)) ?_ ?_ trivial hhas).mono
    fun m' hm' => hm'.2
  · rintro i hi j hj hne (⟨a, ha, heq⟩ | ⟨a, ha, heq⟩)
    · rcases hapartS with hlt | hlt <;> omega
    · rcases hapartV with hlt | hlt <;> omega
  · intro e he m' _ hreads hsome
    have hacc : (List.range dims.lDim).foldlM (fun acc (s : Nat) => do
        let p ← loadFloat m' (scores + (row * dims.lDim : Nat) + s)
        let ve ← loadFloat m' (v + ((dims.kvHead row * dims.lDim + s) * dims.d : Nat) + e)
        pure (F.add acc (F.mul p ve))) F.zero = .ok (contextAt F dims P V row e) := by
      refine foldlM_ok (fun s hs' acc => ?_) _
      have hs' := List.mem_range.mp hs'
      have hkFits := block_fits (d := dims.d) (hd.key_lt hrow hs')
      have hp : loadFloat m' (scores + (row * dims.lDim : Nat) + s) = .ok (P row s) := by
        refine load_ok ?_
        rw [hreads _ (Or.inl ⟨row * dims.lDim + s, by omega, by omega⟩)]
        exact hs s hs'
      have hve : loadFloat m' (v + ((dims.kvHead row * dims.lDim + s) * dims.d : Nat) + e) =
          .ok (V ((dims.kvHead row * dims.lDim + s) * dims.d + e)) := by
        refine load_ok ?_
        rw [hreads _ (Or.inr ⟨(dims.kvHead row * dims.lDim + s) * dims.d + e, by omega,
          by omega⟩)]
        exact hv.sub hkFits e he
      rw [hp, ok_bind, hve, ok_bind]
      rfl
    refine Returns.bind ⟨_, hacc, rfl⟩ fun acc hacc' => ?_
    rw [hacc']
    exact (store_wrote _ hsome _).mono fun m'' hm'' => ⟨trivial, hm''⟩

/-- **The context pass.** -/
theorem contextPass_ok (hd : dims.Legal kvHeads) (schedule : Schedule) {P : Nat → Nat → β}
    (hs : ∀ row < dims.rows,
      HoldsFloats m (scores + (row * dims.lDim : Nat)) dims.lDim (P row))
    (hv : HoldsFloats m v (kvHeads * dims.lDim * dims.d) V)
    (ho : HoldsFloats m out (dims.tDim * dims.heads * dims.d) O)
    (hapartS : Apart scores (dims.rows * dims.lDim) out (dims.tDim * dims.heads * dims.d))
    (hapartV : Apart v (kvHeads * dims.lDim * dims.d) out (dims.tDim * dims.heads * dims.d)) :
    (contextPass F schedule scores v out dims m).Returns fun m' =>
      Wrote m m' (contextCells F dims out P V) := by
  refine rowsLoop_ok schedule le_rfl _
    (fun _ p => (∃ i < dims.rows * dims.lDim, p = scores + (i : Int)) ∨
      ∃ i < kvHeads * dims.lDim * dims.d, p = v + (i : Int)) ?_ ?_ ?_ ?_
  · intro r hr r' hr' hne c hc c' hc' heq
    obtain ⟨j, hj, rfl⟩ := mem_cellsAt.mp hc
    obtain ⟨j', hj', rfl⟩ := mem_cellsAt.mp hc'
    have heq : out + ((dims.token r * dims.d : Nat) : Int) + j =
        out + ((dims.token r' * dims.d : Nat) : Int) + j' := heq
    have := blocks_apart (d := dims.d) fun h => hne (hd.token_inj hr hr' h)
    omega
  · intro r hr r' hr' hne c hc hread
    obtain ⟨j, hj, rfl⟩ := mem_cellsAt.mp hc
    have hfits := block_fits (d := dims.d) (hd.token_lt hr)
    rcases hread with ⟨a, ha, heq⟩ | ⟨a, ha, heq⟩
    · have heq : out + ((dims.token r * dims.d : Nat) : Int) + j = scores + a := heq
      rcases hapartS with hlt | hlt <;> omega
    · have heq : out + ((dims.token r * dims.d : Nat) : Int) + j = v + a := heq
      rcases hapartV with hlt | hlt <;> omega
  · intro r hr m' hreads hhas
    have hfits := block_fits (d := dims.lDim) hr
    refine contextRow_ok F hd hr (fun i hi => ?_) (fun i hi => ?_) hapartS hapartV hhas
    · rw [hreads _ (Or.inl ⟨r * dims.lDim + i, by omega, by omega⟩)]
      exact hs r hr i hi
    · rw [hreads _ (Or.inr ⟨i, hi, rfl⟩)]
      exact hv i hi
  · intro r hr
    exact (ho.sub (block_fits (hd.token_lt hr))).has _

end

/-! ### The whole operation

The three passes behind the checks, on tensors that lie anywhere in memory as long as the scores
are new and the output does not cover the values. -/

/-- The tensors of a call: where they are, and how large. -/
structure AttentionCall where
  tDim : Nat
  heads : Nat
  kvHeads : Nat
  lDim : Nat
  d : Nat
  q : Int
  k : Int
  v : Int
  out : Int
  scores : Int

namespace AttentionCall

variable (c : AttentionCall)

/-- The dimensions that the call derives from its tensors. -/
def toDims : AttnDims := ⟨c.tDim, c.heads, c.d, c.lDim, c.heads / c.kvHeads, c.lDim - c.tDim,
  c.heads * c.tDim⟩

/-- The queries, `[T, H, d]`. -/
def qTensor : PlacedTensor := ⟨[c.tDim, c.heads, c.d], true, .float32, c.q⟩

/-- The keys, `[Hkv, L, d]`. -/
def kTensor : PlacedTensor := ⟨[c.kvHeads, c.lDim, c.d], true, .float32, c.k⟩

/-- The values, `[Hkv, L, d]`. -/
def vTensor : PlacedTensor := ⟨[c.kvHeads, c.lDim, c.d], true, .float32, c.v⟩

/-- The output, `[T, H, d]`. -/
def outTensor : PlacedTensor := ⟨[c.tDim, c.heads, c.d], true, .float32, c.out⟩

/-- How many elements the queries, the keys and the scores have. -/
def qSize : Nat := c.tDim * c.heads * c.d

/-- How many elements the keys and the values have. -/
def kSize : Nat := c.kvHeads * c.lDim * c.d

/-- How many elements the scores have. -/
def scoresSize : Nat := c.heads * c.tDim * c.lDim

/-- What the checks ask for, and where the buffers may lie: the scores are new, and the output
does not cover the values. -/
structure Legal : Prop where
  tDim : 1 ≤ c.tDim
  heads : 1 ≤ c.heads
  kvHeads : 1 ≤ c.kvHeads
  d : 1 ≤ c.d
  length : c.tDim ≤ c.lDim
  divides : c.kvHeads ∣ c.heads
  freshQ : Apart c.q c.qSize c.scores c.scoresSize
  freshK : Apart c.k c.kSize c.scores c.scoresSize
  freshV : Apart c.v c.kSize c.scores c.scoresSize
  freshOut : Apart c.scores c.scoresSize c.out c.qSize
  values : Apart c.v c.kSize c.out c.qSize

variable {c}

theorem Legal.toDims (h : c.Legal) : c.toDims.Legal c.kvHeads where
  tDim := h.tDim
  rows := rfl
  kv x hx := by
    obtain ⟨g, hg⟩ := h.divides
    have hx : x < c.heads := hx
    show x / (c.heads / c.kvHeads) < c.kvHeads
    rw [hg, Nat.mul_div_cancel_left g h.kvHeads]
    refine Nat.div_lt_of_lt_mul ?_
    rwa [Nat.mul_comm, ← hg]
  length := h.length
  past := rfl

theorem Legal.accepted (h : c.Legal) :
    requireAttention c.qTensor c.kTensor c.vTensor c.outTensor = .ok () := by
  have h1 := h.tDim
  have h2 := h.heads
  have h3 := h.kvHeads
  have h4 := h.d
  have h5 := h.length
  have hsizes : ¬c.tDim = 0 ∧ ¬c.heads = 0 ∧ ¬c.d = 0 ∧ ¬c.kvHeads = 0 ∧ ¬c.lDim = 0 ∧
      ¬c.lDim < c.tDim ∧ c.heads % c.kvHeads = 0 :=
    ⟨by omega, by omega, by omega, by omega, by omega, by omega,
      Nat.mod_eq_zero_of_dvd h.divides⟩
  simp [requireAttention, requireContiguousRank, requireF32, PlacedTensor.rank, PlacedTensor.dim,
    qTensor, kTensor, vTensor, outTensor, bind, Except.bind, pure, Except.pure, hsizes]

/-- What `attention` computes, by rows. -/
def probability [LT β] [DecidableLT β] (F : Floats β) (c : AttentionCall) (Q K : Nat → β)
    (scale : β) (row : Nat) : Nat → β :=
  softmaxAt F F.exp (scoreAt F c.toDims Q K scale row) c.lDim

theorem softmax_accepts {rows n : Nat} (hr : 1 ≤ rows) (hn : 1 ≤ n) (p : Int) :
    requireSoftmax ⟨[rows, n], true, .float32, p⟩ ⟨[rows, n], true, .float32, p⟩ = .ok () := by
  have hsizes : ¬rows = 0 ∧ ¬n = 0 := by omega
  simp [requireSoftmax, requireContiguousRank, requireF32, PlacedTensor.rank, PlacedTensor.dim,
    bind, Except.bind, pure, Except.pure, hsizes]

/-- The scores of a row among all scores. -/
theorem wrote_row {rows n : Nat} {Y : Nat → Nat → β} {p : Int}
    (h : Wrote m m' (rowCells p rows n Y))
    {r : Nat} (hr : r < rows) : HoldsFloats m' (p + (r * n : Nat)) n (Y r) := by
  intro j hj
  refine h.inside (p + ((r * n : Nat) : Int) + j, Y r j) ?_
  exact List.mem_flatMap.mpr ⟨r, List.mem_range.mpr hr, mem_cellsAt.mpr ⟨j, hj, rfl⟩⟩

theorem wrote_rows {rows n : Nat} {Y : Nat → Nat → β} {p : Int} (hn : 0 < n)
    (h : Wrote m m' (rowCells p rows n Y)) :
    HoldsFloats m' p (rows * n) fun i => Y (i / n) (i % n) := by
  intro i hi
  have hr : i / n < rows := Nat.div_lt_of_lt_mul (by rwa [Nat.mul_comm])
  have hcell := wrote_row h hr (i % n) (Nat.mod_lt i hn)
  rw [Int.add_assoc, ← Int.natCast_add, Nat.div_add_mod'] at hcell
  exact hcell

theorem rowCells_outside {rows n : Nat} {Y : Nat → Nat → β} {p i : Int}
    (h : Wrote m m' (rowCells p rows n Y)) (hi : i < p ∨ p + (rows * n : Nat) ≤ i) :
    m' i = m i := by
  refine h.outside _ fun c hc heq => ?_
  obtain ⟨r, hr, hc⟩ := List.mem_flatMap.mp hc
  obtain ⟨j, hj, rfl⟩ := mem_cellsAt.mp hc
  have heq : i = p + ((r * n : Nat) : Int) + j := heq
  have := block_fits (d := n) (List.mem_range.mp hr)
  omega

theorem rowCells_keeps {rows n N : Nat} {X : Nat → β} {Y : Nat → Nat → β} {p x : Int}
    (h : Wrote m m' (rowCells p rows n Y)) (hapart : Apart x N p (rows * n))
    (hx : HoldsFloats m x N X) : HoldsFloats m' x N X := by
  intro i hi
  rw [rowCells_outside h, hx i hi]
  rcases hapart with hlt | hlt
  · exact Or.inl (by omega)
  · exact Or.inr (by omega)

/-- **The reference attention.** -/
theorem attention_ok [LT β] [DecidableLT β] (F : Floats β) (h : c.Legal) (schedule : Schedule)
    (scale : β) (hq : HoldsFloats m c.q c.qSize Q) (hk : HoldsFloats m c.k c.kSize K)
    (hv : HoldsFloats m c.v c.kSize V) (ho : HoldsFloats m c.out c.qSize O) :
    ∃ m', Cpu.attention F schedule (.ok c.scores) c.qTensor c.kTensor c.vTensor
      scale c.outTensor m =
        .ok (.ok m') ∧
      (∀ row < c.heads * c.tDim, ∀ e < c.d,
        m' (c.out + (c.toDims.token row * c.d : Nat) + e) =
          some (contextAt F c.toDims (probability F c Q K scale) V row e)) ∧
      ∀ p, (p < c.out ∨ c.out + c.qSize ≤ p) → (p < c.scores ∨ c.scores + c.scoresSize ≤ p) →
        m' p = m p := by
  have hdims := h.toDims
  have hlDim : 1 ≤ c.lDim := h.tDim.trans h.length
  have hrows : 1 ≤ c.heads * c.tDim := Nat.mul_pos h.heads h.tDim
  obtain ⟨m₀, hm₀⟩ : ∃ m₀, m₀ = fillCells m c.scores c.scoresSize F.zero := ⟨_, rfl⟩
  have hfill : ∀ {x : Int} {n : Nat} {X : Nat → β}, Apart x n c.scores c.scoresSize →
      HoldsFloats m x n X → HoldsFloats m₀ x n X := by
    intro x n X hapart hx i hi
    rw [hm₀, fillCells, if_neg, hx i hi]
    rintro ⟨hlo, hhi⟩
    rcases hapart with hlt | hlt <;> omega
  have hscores₀ : HoldsFloats m₀ c.scores c.scoresSize fun _ => F.zero := by
    intro i hi
    rw [hm₀, fillCells, if_pos ⟨by omega, by omega⟩]
  have hfreshOut : Apart c.out c.qSize c.scores c.scoresSize := h.freshOut.symm
  obtain ⟨m₁, hm₁, hw₁⟩ := scorePass_ok F hdims schedule scale (hfill h.freshQ hq)
    (hfill h.freshK hk) hscores₀ h.freshQ h.freshK
  have hscores₁ := wrote_rows hlDim hw₁
  obtain ⟨m₂, hm₂, hw₂⟩ := softmaxRows_ok F F.exp schedule hlDim (fun r hr => wrote_row hw₁ hr)
    hscores₁ (Or.inl rfl)
  have hout₂ : HoldsFloats m₂ c.out c.qSize O :=
    rowCells_keeps hw₂ hfreshOut (rowCells_keeps hw₁ hfreshOut (hfill hfreshOut ho))
  have hv₂ : HoldsFloats m₂ c.v c.kSize V :=
    rowCells_keeps hw₂ h.freshV (rowCells_keeps hw₁ h.freshV (hfill h.freshV hv))
  obtain ⟨m₃, hm₃, hw₃⟩ := contextPass_ok F hdims schedule (fun row hrow => wrote_row hw₂ hrow) hv₂
    hout₂ h.freshOut h.values
  refine ⟨m₃, ?_, ?_, ?_⟩
  · have hsoftmax : softmax F schedule
        ⟨[c.heads * c.tDim, c.lDim], true, .float32, c.scores⟩
        ⟨[c.heads * c.tDim, c.lDim], true, .float32, c.scores⟩ m₁ = .ok (.ok m₂) := by
      rw [softmax, softmax_accepts hrows hlDim]
      exact bind_eq_ok.mpr ⟨m₂, hm₂, rfl⟩
    rw [Cpu.attention, h.accepted]
    refine bind_eq_ok.mpr ⟨m₁, ?_, bind_eq_ok.mpr ⟨.ok m₂, hsoftmax, ?_⟩⟩
    · rw [← hm₁, hm₀]
      rfl
    · exact bind_eq_ok.mpr ⟨m₃, hm₃, rfl⟩
  · intro row hrow e he
    refine hw₃.inside (c.out + ((c.toDims.token row * c.d : Nat) : Int) + e,
      contextAt F c.toDims (probability F c Q K scale) V row e) ?_
    exact List.mem_flatMap.mpr ⟨row, List.mem_range.mpr hrow, mem_cellsAt.mpr ⟨e, he, rfl⟩⟩
  · intro p hout hscores
    have hcontext : m₃ p = m₂ p := by
      refine hw₃.outside p fun x hx heq => ?_
      obtain ⟨row, hrow, hx⟩ := List.mem_flatMap.mp hx
      obtain ⟨e, he, rfl⟩ := mem_cellsAt.mp hx
      have heq : p = c.out + ((c.toDims.token row * c.d : Nat) : Int) + e := heq
      have hlt : c.toDims.token row < c.tDim * c.heads := hdims.token_lt (List.mem_range.mp hrow)
      have hfits : c.toDims.token row * c.d + c.d ≤ c.qSize := block_fits hlt
      have he : e < c.d := he
      omega
    rw [hcontext, rowCells_outside hw₂ hscores, rowCells_outside hw₁ hscores, hm₀, fillCells,
      if_neg (by omega)]

end AttentionCall

end Cpu

end InferenceEngine
