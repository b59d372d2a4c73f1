/-
Every product kernel stores the same numbers.

An element of the product is a sum over `k`, taken from zero upwards, to which the bias is added
last.  Packing moves the weight and fills the last panel up; blocks of `k` leave the order of the
sum alone; tiles and panels only change which element is stored when, and the columns that were
filled up are stored by none.
-/
import InferenceEngine.Kernels.CpuGemm
import InferenceEngine.Model.PackedLinear
import Mathlib.Data.List.GetD

namespace InferenceEngine

open Except Stores Parallel

variable {β : Type}

/-- `(0 + a 0 * b 0) + … + a (k - 1) * b (k - 1)`, from the left. -/
def dot (arith : Arithmetic β) (a b : Nat → β) (k : Nat) : β :=
  (List.range k).foldl (fun acc i => arith.add acc (arith.mul (a i) (b i))) arith.zero

/-- The bias is added last, where there is one. -/
def plusBias (arith : Arithmetic β) : Option (List β) → Nat → β → β
  | none, _, acc => acc
  | some bias, col, acc => arith.add acc (bias.getD col arith.zero)

/-- Element `(i, j)` of `x * wᵀ + bias`. -/
def product (arith : Arithmetic β) (x w : List β) (bias : Option (List β)) (k i j : Nat) : β :=
  plusBias arith bias j
    (dot arith (fun kk => x.getD (i * k + kk) arith.zero)
      (fun kk => w.getD (j * k + kk) arith.zero) k)

theorem dot_congr (arith : Arithmetic β) {a a' b b' : Nat → β} {k : Nat}
    (ha : ∀ i < k, a i = a' i) (hb : ∀ i < k, b i = b' i) :
    dot arith a b k = dot arith a' b' k := by
  refine List.foldl_ext _ _ _ fun acc i hi => ?_
  have hi := List.mem_range.mp hi
  rw [ha i hi, hb i hi]

theorem dot_succ (arith : Arithmetic β) (a b : Nat → β) (k : Nat) :
    dot arith a b (k + 1) = arith.add (dot arith a b k) (arith.mul (a k) (b k)) := by
  rw [dot, List.range_succ, List.foldl_append]
  rfl

/-! ### Reads

Elements are converted when they are read, whatever their dtype. -/

theorem readAt_natCast_getD {xs : List β} {i : Nat} (h : i < xs.length) (d : β) :
    readAt xs (i : Int) = .ok (xs.getD i d) := by
  rw [readAt_natCast h, List.getD_eq_getElem _ _ h]

/-- An element that is read and then converted. -/
theorem readAt_widen {T : Type} (widen : T → β) {ws : List T} {i : Nat} (h : i < ws.length)
    (d : β) :
    ∃ w, readAt ws (i : Int) = .ok w ∧ widen w = (ws.map widen).getD i d := by
  refine ⟨ws[i], readAt_natCast h, ?_⟩
  rw [List.getD_eq_getElem _ _ (by rwa [List.length_map]), List.getElem_map]

theorem readAt_lane {n r : Nat} (h : r < n) (S : Nat → β) :
    readAt ((List.range n).map S) (r : Int) = .ok (S r) := by
  rw [readAt_natCast (by simpa using h)]
  simp

namespace Kernels

/-! ### The tile

A tile keeps accumulators for its rows and panels, runs through `k`, and stores at the end. -/

section Tile

variable {T : Type} (arith : Arithmetic β) (widen : T → β) {x : List β} {wp : List T}
  {bias : Option (List β)} {mDim k n : Nat}

theorem addBias_ok (hb : ∀ b ∈ bias, b.length = n) {col : Nat} (hcol : col < n) (acc : β) :
    addBias arith bias col acc = .ok (plusBias arith bias col acc) := by
  cases bias with
  | none => rfl
  | some b =>
      rw [addBias, readAt_natCast_getD (by rw [hb b rfl]; exact hcol) arith.zero, ok_bind]
      rfl

theorem panel_lt {p kk r panels : Nat} (hp : p < panels) (hkk : kk < k) (hr : r < kNr) :
    p * k * kNr + kk * kNr + r < panels * k * kNr := by
  have hrow : p * k + kk + 1 ≤ panels * k := by
    have := Nat.mul_le_mul_right k (show p + 1 ≤ panels by omega)
    rw [Nat.succ_mul] at this
    omega
  have := Nat.mul_le_mul_right kNr hrow
  rw [Nat.succ_mul, Nat.add_mul] at this
  omega

theorem row_lt {m kk : Nat} (hm : m < mDim) (hkk : kk < k) : m * k + kk < mDim * k := by
  have := Nat.mul_le_mul_right k (show m + 1 ≤ mDim by omega)
  rw [Nat.succ_mul] at this
  omega

theorem accumulate_ok (hx : x.length = mDim * k) (hwp : wp.length = packedWeightElements n k)
    {m p kk : Nat} (hm : m < mDim) (hp : p < packedPanels n) (hkk : kk < k) (S : Nat → β) :
    accumulate arith widen x k wp m p ((List.range kNr).map S) kk =
      .ok ((List.range kNr).map fun r => arith.add (S r)
        (arith.mul (x.getD (m * k + kk) arith.zero)
          ((wp.map widen).getD (p * k * kNr + kk * kNr + r) arith.zero))) := by
  rw [accumulate, readAt_natCast_getD (by rw [hx]; exact row_lt hm hkk) arith.zero, ok_bind]
  refine mapM_ok fun r hr => ?_
  have hr := List.mem_range.mp hr
  obtain ⟨w, hw, hwide⟩ := readAt_widen widen
    (show p * k * kNr + kk * kNr + r < wp.length by rw [hwp]; exact panel_lt hp hkk hr) arith.zero
  rw [readAt_lane hr, ok_bind, hw, ok_bind, hwide]
  rfl

/-- The accumulators of one panel, after all of `k`. -/
theorem accumulators_ok (hx : x.length = mDim * k) (hwp : wp.length = packedWeightElements n k)
    {m p : Nat} (hm : m < mDim) (hp : p < packedPanels n) :
    (List.range k).foldlM (accumulate arith widen x k wp m p) (List.replicate kNr arith.zero) =
      .ok ((List.range kNr).map fun r => dot arith (fun kk => x.getD (m * k + kk) arith.zero)
        (fun kk => (wp.map widen).getD (p * k * kNr + kk * kNr + r) arith.zero) k) := by
  have hloop := foldlM_range_ok (f := accumulate arith widen x k wp m p)
    (fun kk => (List.range kNr).map fun r =>
      dot arith (fun kk => x.getD (m * k + kk) arith.zero)
        (fun kk => (wp.map widen).getD (p * k * kNr + kk * kNr + r) arith.zero) kk)
    (n := k) fun kk hkk => by
      rw [accumulate_ok arith widen hx hwp hm hp hkk]
      simp only [dot_succ]
  rw [← hloop]
  congr 1

theorem storePanelBlock_ok (hb : ∀ b ∈ bias, b.length = n) (D : Nat → β) (p m : Nat) :
    storePanelBlock arith ((List.range kNr).map D) 1 p n bias m =
      .ok ((List.range (min kNr (n - p * kNr))).flatMap fun r =>
        [(m * n + (p * kNr + r), plusBias arith bias (p * kNr + r) (D r))]) := by
  have hrow : ∀ mm ∈ List.range 1,
      (forEach (List.range (min kNr (n - p * kNr))) fun r => do
        let a ← readAt ((List.range kNr).map D) (mm * kNr + r : Nat)
        let v ← addBias arith bias (p * kNr + r) a
        pure [((m + mm) * n + p * kNr + r, v)]) =
      .ok ((List.range (min kNr (n - p * kNr))).flatMap fun r =>
        [(m * n + (p * kNr + r), plusBias arith bias (p * kNr + r) (D r))]) := by
    intro mm hmm
    have hmm : mm = 0 := by simpa using hmm
    subst hmm
    refine forEach_ok fun r hr => ?_
    have hr := List.mem_range.mp hr
    rw [Nat.zero_mul, Nat.zero_add, readAt_lane (show r < kNr by omega), ok_bind,
      addBias_ok arith hb (by omega), ok_bind, Nat.add_zero, Nat.add_assoc]
    rfl
  rw [storePanelBlock, forEach_ok hrow]
  simp

/-- What a panel stores of a row. -/
def panelStores (n : Nat) (F : Nat → Nat → β) (m p : Nat) : List (Nat × β) :=
  (List.range (min kNr (n - p * kNr))).flatMap fun r => [(m * n + (p * kNr + r), F m (p * kNr + r))]

/-- The weight `w` is packed in `wp`. -/
def Packs (n k : Nat) (w wp : List β) (zero : β) : Prop :=
  ∀ p kk r, r < kNr → p * kNr + r < n → kk < k →
    wp.getD (p * k * kNr + kk * kNr + r) zero = w.getD ((p * kNr + r) * k + kk) zero

/-- **A tile stores the elements of its rows and panels.** -/
theorem gemmTile_ok {w : List β} (hx : x.length = mDim * k)
    (hwp : wp.length = packedWeightElements n k)
    (hpacks : Packs n k w (wp.map widen) arith.zero) (hb : ∀ b ∈ bias, b.length = n)
    {m0 m1 p0 p1 : Nat} (hm : m1 ≤ mDim) (hp : p1 ≤ packedPanels n) :
    gemmTile arith widen wp x k n bias m0 m1 p0 p1 =
      .ok ((span m0 m1).flatMap fun m => (span p0 p1).flatMap fun p =>
        panelStores n (product arith x w bias k) m p) := by
  refine forEach_ok fun m hmspan => forEach_ok fun p hpspan => ?_
  have hm := (mem_span.mp hmspan).2
  have hp := (mem_span.mp hpspan).2
  rw [accumulators_ok arith widen hx hwp (show m < mDim by omega)
    (show p < packedPanels n by omega), ok_bind,
    storePanelBlock_ok arith hb]
  congr 1
  refine List.flatMap_congr fun r hr => ?_
  have hr := List.mem_range.mp hr
  rw [product, dot_congr arith (fun _ _ => rfl) fun kk hkk =>
    hpacks p kk r (by omega) (by omega) hkk]

end Tile

/-! ### Packing

Panels hold the rows of the weight lane by lane.  The last one is filled up with zeros that are
read and never stored. -/

section Pack

variable {T : Type} (zero : T) (w : List T) (n k : Nat)

/-- What the panels hold of a row: beyond the last one, zeros. -/
def paddedRow (row kk : Nat) : T := if row < n then w.getD (row * k + kk) zero else zero

/-- The packed weight. -/
def packedWeight : List T :=
  (List.range (packedWeightElements n k)).map fun c =>
    paddedRow zero w n k (c / kNr / k * kNr + c % kNr) (c / kNr % k)

/-- Stores that write every row of every panel, in any order. -/
theorem fills_panels {log : List (Nat × T)}
    (h : log.Perm ((List.range (packedPanels n)).flatMap fun p => (List.range k).flatMap fun kk =>
      (List.range kNr).flatMap fun r =>
        [((p * k + kk) * kNr + r, paddedRow zero w n k (p * kNr + r) kk)])) :
    Fills (packedWeightElements n k)
      (fun c => paddedRow zero w n k (c / kNr / k * kNr + c % kNr) (c / kNr % k)) log := by
  refine Fills.of_rows (m := packedPanels n * k) (n := kNr)
    (F := fun q r => paddedRow zero w n k (q / k * kNr + r) (q % k)) ?_
  refine h.trans (List.Perm.of_eq ?_)
  rw [← flatMap_grid (packedPanels n) k fun p kk => (List.range kNr).flatMap fun r =>
    [((p * k + kk) * kNr + r, paddedRow zero w n k (p * kNr + r) kk)]]
  refine List.flatMap_congr fun q _ => ?_
  rw [Nat.div_add_mod']

variable {zero w n k}

/-- **Packing fills the panels.** -/
theorem packImpl_fills (zero : T) (schedule : Schedule) (hn : 1 ≤ n) (hk : 1 ≤ k)
    (hw : w.length = n * k) :
    ∃ log, packImpl schedule zero w n k = .ok log ∧
      Fills (packedWeightElements n k)
        (fun c => paddedRow zero w n k (c / kNr / k * kNr + c % kNr) (c / kNr % k)) log := by
  have hbody : ∀ lo hi, hi ≤ packedPanels n →
      (forEach (span lo hi) fun p => forEach (List.range k) fun kk =>
        forEach (List.range kNr) fun r => do
          let v ← if p * kNr + r < n then readAt w ((p * kNr + r) * k + kk : Nat) else pure zero
          pure [((p * k + kk) * kNr + r, v)]) =
      .ok ((span lo hi).flatMap fun p => (List.range k).flatMap fun kk =>
        (List.range kNr).flatMap fun r =>
          [((p * k + kk) * kNr + r, paddedRow zero w n k (p * kNr + r) kk)]) := by
    intro lo hi _
    refine forEach_ok fun p _ => forEach_ok fun kk hkk => forEach_ok fun r _ => ?_
    have hkk := List.mem_range.mp hkk
    by_cases hrow : p * kNr + r < n
    · rw [if_pos hrow, readAt_natCast_getD (by rw [hw]; exact row_lt hrow hkk) zero, paddedRow,
        if_pos hrow]
      rfl
    · rw [if_neg hrow, paddedRow, if_neg hrow]
      rfl
  refine ⟨_, by
    rw [packImpl, check_of_true (by simp [hn, hk]), ok_bind, region_ok (le_refl 1) hbody], ?_⟩
  exact fills_panels zero w n k (flatMap_order_perm (le_refl 1) _)

theorem packWeightPanels_ok (schedule : Schedule) (hn : 1 ≤ n) (hk : 1 ≤ k)
    (hw : w.length = n * k) {wp : List T} (hwp : wp.length = packedWeightElements n k) :
    packWeightPanels schedule zero w n k wp = .ok (packedWeight zero w n k) := by
  obtain ⟨log, hlog, hfills⟩ := packImpl_fills zero schedule hn hk hw
  rw [packWeightPanels, hlog, ok_bind, hfills.storeAll _ hwp, packedWeight]

theorem length_packedWeight : (packedWeight zero w n k).length = packedWeightElements n k := by
  rw [packedWeight, List.length_map, List.length_range]

/-- **Where a row of the weight is in the panels.** -/
theorem packedWeight_getElem? {p kk r : Nat} (hr : r < kNr) (hrow : p * kNr + r < n)
    (hkk : kk < k) :
    (packedWeight zero w n k)[p * k * kNr + kk * kNr + r]? =
      some (w.getD ((p * kNr + r) * k + kk) zero) := by
  have hp : p < packedPanels n := by
    have hge := blocks_mul_ge n (show 0 < kNr by decide)
    by_contra h
    have := Nat.mul_le_mul_right kNr (show packedPanels n ≤ p by omega)
    change n ≤ packedPanels n * kNr at hge
    omega
  have hoff : p * k * kNr + kk * kNr + r = (p * k + kk) * kNr + r := by rw [Nat.add_mul]
  have hdiv : ((p * k + kk) * kNr + r) / kNr = p * k + kk := by
    rw [Nat.add_comm, Nat.add_mul_div_right _ _ (by decide), Nat.div_eq_of_lt hr, Nat.zero_add]
  have hmod : ((p * k + kk) * kNr + r) % kNr = r := by
    rw [Nat.add_comm, Nat.add_mul_mod_self_right, Nat.mod_eq_of_lt hr]
  have hpk : (p * k + kk) / k = p := by
    rw [Nat.add_comm, Nat.add_mul_div_right _ _ (by omega), Nat.div_eq_of_lt hkk, Nat.zero_add]
  have hkk' : (p * k + kk) % k = kk := by
    rw [Nat.add_comm, Nat.add_mul_mod_self_right, Nat.mod_eq_of_lt hkk]
  rw [packedWeight, List.getElem?_map, packedWeightElements,
    List.getElem?_range (panel_lt hp hkk hr), hoff,
    Option.map_some, hdiv, hmod, hpk, hkk', paddedRow, if_pos hrow]

theorem packs_packedWeight (zero : T) (widen : T → β) (hw : w.length = n * k) (d : β) :
    Packs n k (w.map widen) ((packedWeight zero w n k).map widen) d := by
  intro p kk r hr hrow hkk
  have hlt : (p * kNr + r) * k + kk < w.length := by rw [hw]; exact row_lt hrow hkk
  rw [List.getD_eq_getElem?_getD, List.getElem?_map, packedWeight_getElem? hr hrow hkk,
    List.getD_eq_getElem _ _ hlt, List.getD_eq_getElem _ _ (by rwa [List.length_map]),
    List.getElem_map]
  rfl

end Pack

/-! ### The walks over the tiles

Every element of the product is stored by one tile.  The walks differ in how many rows a tile
has. -/

section Walks

variable (arith : Arithmetic β) {x w : List β} {wp : Elements β} {bias : Option (List β)}
  {mDim k n : Nat}

/-- Whatever the dtype of the weight is, its runner does the same. -/
theorem makeRunner_ok (hwp : wp.Holds (packedWeightElements n k))
    (hpacks : Packs n k w (wp.widened arith) arith.zero) :
    ∃ runner, makeRunner arith wp = .ok runner ∧
      ∀ {mDim : Nat} {x : List β} {bias : Option (List β)}, x.length = mDim * k →
        (∀ b ∈ bias, b.length = n) → ∀ {m0 m1 p0 p1 : Nat}, m1 ≤ mDim → p1 ≤ packedPanels n →
        runner x k n bias m0 m1 p0 p1 =
          .ok ((span m0 m1).flatMap fun m => (span p0 p1).flatMap fun p =>
            panelStores n (product arith x w bias k) m p) := by
  cases wp with
  | f32 data =>
      refine ⟨_, rfl, fun hx hb _ _ _ _ hm hp => ?_⟩
      exact gemmTile_ok arith (fun v => v) hx hwp (by rwa [List.map_id']) hb hm hp
  | f16 data =>
      exact ⟨_, rfl, fun hx hb _ _ _ _ hm hp => gemmTile_ok arith _ hx hwp hpacks hb hm hp⟩
  | bf16 data =>
      exact ⟨_, rfl, fun hx hb _ _ _ _ hm hp => gemmTile_ok arith _ hx hwp hpacks hb hm hp⟩
  | other dtype unsupported => exact absurd hwp id

/-- The panels of a row store the row. -/
theorem flatMap_panelStores (F : Nat → Nat → β) (m : Nat) :
    ((List.range (packedPanels n)).flatMap fun p => panelStores n F m p) =
      (List.range n).flatMap fun j => [(m * n + j, F m j)] := by
  rw [← flatMap_blocks n (show 0 < kNr by decide), List.flatMap_assoc]
  refine List.flatMap_congr fun p _ => ?_
  rw [span_eq_map, List.flatMap_map, panelStores]
  congr 2
  omega

/-- **A row by itself.** -/
theorem packedGemv_fills (schedule : Schedule) (hk : 1 ≤ k) (hn : 1 ≤ n) (hx : x.length = k)
    (hwp : wp.Holds (packedWeightElements n k))
    (hpacks : Packs n k w (wp.widened arith) arith.zero) (hb : ∀ b ∈ bias, b.length = n) :
    ∃ log, packedGemv arith schedule x k wp n bias = .ok log ∧
      Fills n (product arith x w bias k 0) log := by
  obtain ⟨runner, hrunner, hruns⟩ := makeRunner_ok arith hwp hpacks
  have hbody : ∀ lo hi, hi ≤ packedPanels n → runner x k n bias 0 1 lo hi =
      .ok ((span lo hi).flatMap fun p => panelStores n (product arith x w bias k) 0 p) := by
    intro lo hi hhi
    rw [hruns (show x.length = 1 * k by omega) hb (le_refl 1) hhi]
    simp [span]
  refine ⟨_, by
    rw [packedGemv, check_of_true (by simp [hk, hn]), ok_bind, hrunner, ok_bind,
      region_ok (by decide) hbody], ?_⟩
  refine (flatMap_order_perm (by decide) _).trans (List.Perm.of_eq ?_)
  rw [flatMap_panelStores, List.map_eq_flatMap]
  refine List.flatMap_congr fun j _ => ?_
  rw [Nat.zero_mul, Nat.zero_add]

/-- **All rows.** -/
theorem packedGemm_fills (schedule : Schedule) (hm : 1 ≤ mDim) (hk : 1 ≤ k) (hn : 1 ≤ n)
    (hx : x.length = mDim * k) (hwp : wp.Holds (packedWeightElements n k))
    (hpacks : Packs n k w (wp.widened arith) arith.zero) (hb : ∀ b ∈ bias, b.length = n) :
    ∃ log, packedGemm arith schedule x mDim k wp n bias = .ok log ∧
      Fills (mDim * n) (fun c => product arith x w bias k (c / n) (c % n)) log := by
  rw [packedGemm, check_of_true (by simp [hm, hk, hn]), ok_bind]
  by_cases hone : mDim = 1
  · subst hone
    rw [if_pos rfl]
    rw [Nat.one_mul] at hx
    obtain ⟨log, hlog, hfills⟩ := packedGemv_fills arith schedule hk hn hx hwp hpacks hb
    refine ⟨log, hlog, ?_⟩
    rw [Nat.one_mul]
    refine hfills.congr fun c hc => ?_
    rw [Nat.div_eq_of_lt hc, Nat.mod_eq_of_lt hc]
  · rw [if_neg hone]
    obtain ⟨runner, hrunner, hruns⟩ := makeRunner_ok arith hwp hpacks
    refine ⟨_, by
      rw [hrunner, ok_bind]
      exact region_ok (by decide) fun lo hi _ => forEach_ok fun tile _ =>
        hruns hx hb (Nat.min_le_right _ _) (Nat.min_le_right _ _), ?_⟩
    refine Fills.of_rows ((flatMap_order_perm (by decide) _).trans ?_)
    refine (flatMap_tiles mDim (packedPanels n) (show 0 < kMc by decide) (show 0 < kNc by decide)
      fun m p => panelStores n (product arith x w bias k) m p).trans (List.Perm.of_eq ?_)
    refine List.flatMap_congr fun m _ => ?_
    rw [flatMap_panelStores]

end Walks

end Kernels

/-! ### The reference

The plain product runs through `k` in blocks and carries the sum along. -/

namespace Cpu

variable {W B : Type} (arith : Arithmetic β) (widenW : W → β) (widenB : B → β) {a : List β}
  {b : List W} {bias : Option (List B)} {mDim nDim kDim : Nat}

theorem accumulate_ok (ha : a.length = mDim * kDim) (hb : b.length = nDim * kDim) {m n k0 k1 : Nat}
    (hm : m < mDim) (hn : n < nDim) (hk : k1 ≤ kDim) (acc : β) :
    accumulate arith widenW a b kDim m n acc k0 k1 =
      .ok ((span k0 k1).foldl (fun acc k => arith.add acc
        (arith.mul (a.getD (m * kDim + k) arith.zero)
          ((b.map widenW).getD (n * kDim + k) arith.zero))) acc) := by
  refine foldlM_ok (fun k hkspan acc => ?_) acc
  have hk := (mem_span.mp hkspan).2
  obtain ⟨w, hw, hwide⟩ := readAt_widen widenW
    (show n * kDim + k < b.length by rw [hb]; exact Kernels.row_lt hn (by omega)) arith.zero
  rw [readAt_natCast_getD (by rw [ha]; exact Kernels.row_lt hm (by omega)) arith.zero, ok_bind, hw,
    ok_bind, hwide]
  rfl

/-- **Blocks of `k` leave the order of the sum alone.** -/
theorem sum_ok (ha : a.length = mDim * kDim) (hb : b.length = nDim * kDim) {m n : Nat}
    (hm : m < mDim) (hn : n < nDim) :
    ((strided kDim kTileK).foldlM (fun acc k0 =>
      accumulate arith widenW a b kDim m n acc k0 (min (k0 + kTileK) kDim)) arith.zero) =
      .ok (dot arith (fun k => a.getD (m * kDim + k) arith.zero)
        (fun k => (b.map widenW).getD (n * kDim + k) arith.zero) kDim) := by
  rw [foldlM_ok (fun k0 _ acc => accumulate_ok arith widenW ha hb hm hn (Nat.min_le_right _ _) acc),
    ← List.foldl_flatMap, flatMap_strided kDim (show 0 < kTileK by decide)]
  rfl

theorem gemmTile_ok (ha : a.length = mDim * kDim) (hb : b.length = nDim * kDim)
    (hbias : ∀ c ∈ bias, c.length = nDim) {m0 m1 n0 n1 : Nat} (hm : m1 ≤ mDim) (hn : n1 ≤ nDim) :
    gemmTile arith widenW widenB a b bias nDim kDim m0 m1 n0 n1 =
      .ok ((span m0 m1).flatMap fun m => (span n0 n1).flatMap fun n =>
        [(m * nDim + n,
          product arith a (b.map widenW) (bias.map (List.map widenB)) kDim m n)]) := by
  refine forEach_ok fun m hmspan => forEach_ok fun n hnspan => ?_
  have hm := (mem_span.mp hmspan).2
  have hn := (mem_span.mp hnspan).2
  rw [sum_ok arith widenW ha hb (show m < mDim by omega) (show n < nDim by omega), ok_bind]
  cases bias with
  | none => rfl
  | some c =>
      obtain ⟨v, hv, hwide⟩ := readAt_widen widenB
        (show n < c.length by rw [hbias c rfl]; omega) arith.zero
      simp only [hv, ok_bind, hwide]
      rfl

theorem gemmImpl_fills (schedule : Schedule) (bias : Option (List B)) (ha : a.length = mDim * kDim)
    (hb : b.length = nDim * kDim) (hbias : ∀ c ∈ bias, c.length = nDim) :
    ∃ log, gemmImpl arith schedule widenW widenB a b bias mDim nDim kDim = .ok log ∧
      Fills (mDim * nDim) (fun c => product arith a (b.map widenW) (bias.map (List.map widenB))
        kDim (c / nDim) (c % nDim)) log := by
  refine ⟨_, by
    rw [gemmImpl]
    exact region_ok (by decide) fun lo hi _ => forEach_ok fun tile _ =>
      gemmTile_ok arith widenW widenB ha hb hbias (Nat.min_le_right _ _)
        (Nat.min_le_right _ _), ?_⟩
  refine Fills.of_rows ((flatMap_order_perm (by decide) _).trans ?_)
  exact flatMap_tiles mDim nDim (show 0 < kTileM by decide) (show 0 < kTileN by decide)
    fun m n => [(m * nDim + n,
      product arith a (b.map widenW) (bias.map (List.map widenB)) kDim m n)]

/-- Whatever the dtype of the bias is. -/
theorem dispatchBias_fills (schedule : Schedule) {bias : Option (StoredTensor β)}
    (ha : a.length = mDim * kDim) (hb : b.length = nDim * kDim)
    (hbias : ∀ t ∈ bias, t.storage.Holds nDim) :
    ∃ log, dispatchBias arith schedule widenW a b bias mDim nDim kDim = .ok (.ok log) ∧
      Fills (mDim * nDim) (fun c => product arith a (b.map widenW)
        (bias.map fun t => t.storage.widened arith) kDim (c / nDim) (c % nDim)) log := by
  cases bias with
  | none =>
      obtain ⟨log, hlog, hfills⟩ := gemmImpl_fills arith widenW (fun v : β => v) schedule none
        ha hb (by simp)
      exact ⟨log, by rw [dispatchBias, hlog]; rfl, hfills⟩
  | some t =>
      have hlen := hbias t rfl
      obtain ⟨dims, contiguous, storage, sized⟩ := t
      cases storage with
      | f32 data =>
          obtain ⟨log, hlog, hfills⟩ := gemmImpl_fills arith widenW (fun v : β => v) schedule
            (some data) ha hb (fun c hc => by cases hc; exact hlen)
          refine ⟨log, by simp only [dispatchBias, hlog]; rfl, ?_⟩
          rwa [Option.map_some, List.map_id'] at hfills
      | f16 data =>
          obtain ⟨log, hlog, hfills⟩ := gemmImpl_fills arith widenW arith.fp16ToFp32 schedule
            (some data) ha hb (fun c hc => by cases hc; exact hlen)
          exact ⟨log, by simp only [dispatchBias, hlog]; rfl, hfills⟩
      | bf16 data =>
          obtain ⟨log, hlog, hfills⟩ := gemmImpl_fills arith widenW arith.bf16ToFp32 schedule
            (some data) ha hb (fun c hc => by cases hc; exact hlen)
          exact ⟨log, by simp only [dispatchBias, hlog]; rfl, hfills⟩
      | other dtype unsupported => exact absurd hlen id

section Gemm

variable {m k n : Nat} {x y : List β} {w : Elements β}

theorem requireOperands_ok (hm : 1 ≤ m) (hk : 1 ≤ k) (hn : 1 ≤ n)
    (hx : (Elements.f32 x).Holds (m * k)) (hw : w.Holds (n * k))
    (bias : Option {b : Elements β // b.Holds n}) (hy : (Elements.f32 y).Holds (m * n)) :
    requireOperands (.matrix m k (.f32 x) hx) (.matrix n k w hw)
      (bias.map fun b => .vector n b.1 b.2) (.matrix m n (.f32 y) hy) = .ok () := by
  have hsizes : ¬m = 0 ∧ ¬n = 0 ∧ ¬k = 0 := by omega
  cases bias <;>
  simpa [requireOperands, requireContiguous, StoredTensor.rank, StoredTensor.matrix,
    StoredTensor.vector, StoredTensor.dtype, StoredTensor.dim, Elements.dtype, bind,
    Except.bind, pure, Except.pure] using hsizes

/-- **The reference product.** -/
theorem gemm_fills (schedule : Schedule) (hm : 1 ≤ m) (hk : 1 ≤ k) (hn : 1 ≤ n)
    (hx : (Elements.f32 x).Holds (m * k)) (hw : w.Holds (n * k))
    (bias : Option {b : Elements β // b.Holds n}) (hy : (Elements.f32 y).Holds (m * n)) :
    ∃ log, gemm arith schedule (.matrix m k (.f32 x) hx) (.matrix n k w hw)
        (bias.map fun b => .vector n b.1 b.2) (.matrix m n (.f32 y) hy) = .ok (.ok log) ∧
      Fills (m * n) (fun c => product arith x (w.widened arith)
        (bias.map fun b => b.1.widened arith) k (c / n) (c % n)) log := by
  have hbias : ∀ t ∈ bias.map fun b => StoredTensor.vector n b.1 b.2, t.storage.Holds n := by
    intro t ht
    obtain ⟨b, -, rfl⟩ := Option.mem_map.mp ht
    exact b.2
  have hdispatch : ∀ {W : Type} (widen : W → β) {ws : List W}, ws.length = n * k →
      ∃ log, dispatchBias arith schedule widen x ws
          (bias.map fun b => StoredTensor.vector n b.1 b.2) m n k = .ok (.ok log) ∧
        Fills (m * n) (fun c => product arith x (ws.map widen)
          (bias.map fun b => b.1.widened arith) k (c / n) (c % n)) log := by
    intro W widen ws hws
    obtain ⟨log, hlog, hfills⟩ := dispatchBias_fills arith widen schedule hx hws hbias
    refine ⟨log, hlog, ?_⟩
    rwa [Option.map_map] at hfills
  rw [gemm, requireOperands_ok hm hk hn hx hw bias hy]
  cases w with
  | f32 ws =>
      obtain ⟨log, hlog, hfills⟩ := hdispatch (fun v => v) hw
      rw [List.map_id'] at hfills
      exact ⟨log, hlog, hfills⟩
  | f16 ws => exact hdispatch arith.fp16ToFp32 hw
  | bf16 ws => exact hdispatch arith.bf16ToFp32 hw
  | other dtype unsupported => exact absurd hw id

end Gemm

end Cpu

/-! ### Packed and plain

Both store the same sums.  What is left is that the packed walk finds the weight where packing
has put it. -/

section Packed

variable (arith : Arithmetic β) {m k n : Nat}

/-- The packed weight, whatever the dtype. -/
def Elements.packed (w : Elements β) (n k : Nat) : Elements β :=
  match w with
  | f32 ws => f32 (Kernels.packedWeight arith.zero ws n k)
  | f16 ws => f16 (Kernels.packedWeight 0 ws n k)
  | bf16 ws => bf16 (Kernels.packedWeight 0 ws n k)
  | other dtype unsupported => other dtype unsupported

theorem packInto_ok (schedule : Schedule) (fresh : Uninitialized β) (hn : 1 ≤ n) (hk : 1 ≤ k)
    {w : Elements β} (hw : w.Holds (n * k)) :
    packInto arith schedule w n k (fresh.like (Kernels.packedWeightElements n k) w) =
      .ok (w.packed arith n k) := by
  cases w with
  | f32 ws =>
      rw [Uninitialized.like, packInto,
        Kernels.packWeightPanels_ok schedule hn hk hw (fresh.length_floats _)]
      rfl
  | f16 ws =>
      rw [Uninitialized.like, packInto,
        Kernels.packWeightPanels_ok schedule hn hk hw (fresh.length_bits _)]
      rfl
  | bf16 ws =>
      rw [Uninitialized.like, packInto,
        Kernels.packWeightPanels_ok schedule hn hk hw (fresh.length_bits _)]
      rfl
  | other dtype unsupported => exact absurd hw id

theorem packed_holds {w : Elements β} (hw : w.Holds (n * k)) :
    (w.packed arith n k).Holds (Kernels.packedWeightElements n k) := by
  cases w with
  | other dtype unsupported => exact absurd hw id
  | _ ws => exact Kernels.length_packedWeight

theorem packed_packs {w : Elements β} (hw : w.Holds (n * k)) :
    Kernels.Packs n k (w.widened arith) ((w.packed arith n k).widened arith) arith.zero := by
  cases w with
  | f32 ws =>
      have hpacks := Kernels.packs_packedWeight arith.zero (fun v : β => v) hw arith.zero
      rwa [List.map_id', List.map_id'] at hpacks
  | f16 ws => exact Kernels.packs_packedWeight 0 arith.fp16ToFp32 hw arith.zero
  | bf16 ws => exact Kernels.packs_packedWeight 0 arith.bf16ToFp32 hw arith.zero
  | other dtype unsupported => exact absurd hw id

theorem widened_length {e : Elements β} (h : e.Holds n) : (e.widened arith).length = n := by
  cases e with
  | f32 data => exact h
  | f16 data => exact (List.length_map _).trans h
  | bf16 data => exact (List.length_map _).trans h
  | other dtype unsupported => exact absurd h id

/-- Row `i` of `x`, by itself. -/
def rowOf (x : List β) (k i : Nat) : List β := (x.drop (i * k)).take k

theorem length_rowOf {x : List β} (hx : x.length = m * k) {i : Nat} (hi : i < m) :
    (rowOf x k i).length = k := by
  have := Nat.mul_le_mul_right k (show i + 1 ≤ m by omega)
  rw [Nat.succ_mul] at this
  rw [rowOf, List.length_take, List.length_drop]
  omega

theorem product_rowOf (x w : List β) (bias : Option (List β)) (k i j : Nat) :
    product arith (rowOf x k i) w bias k 0 j = product arith x w bias k i j := by
  unfold product
  congr 1
  refine dot_congr arith (fun kk hkk => ?_) fun _ _ => rfl
  rw [List.getD_eq_getElem?_getD, List.getD_eq_getElem?_getD, rowOf, List.getElem?_take_of_lt,
    List.getElem?_drop, Nat.zero_mul, Nat.zero_add]
  omega

/-- The packed product with `wp` stores what the plain one stores. -/
structure PackedAsPlain (x y : List β) (m k n : Nat) (w wp : Elements β)
    (bias : Option (List β)) (schedule : Schedule) (plain : Checked (StatusOr (List (Nat × β)))) :
    Prop where
  /-- the panels have room for the weight and what the last one is filled up with -/
  holds : wp.Holds (Kernels.packedWeightElements n k)
  /-- each element of the product is stored once, and nothing else is -/
  packed : ∃ log, Kernels.packedGemm arith schedule x m k wp n bias = .ok log ∧
    Fills (m * n)
      (fun c => product arith x (w.widened arith) bias k (c / n) (c % n)) log ∧
    storeAll Fault.outOfBounds y log = .ok ((List.range (m * n)).map fun c =>
      product arith x (w.widened arith) bias k (c / n) (c % n)) ∧
    /- and a row is what the product of that row alone is -/
    ∀ i < m, ∀ rows : Schedule, ∃ row,
      Kernels.packedGemv arith rows (rowOf x k i) k wp n bias = .ok row ∧
      Fills n (product arith x (w.widened arith) bias k i) row ∧
      ∀ j v, (j, v) ∈ row ↔ j < n ∧ (i * n + j, v) ∈ log
  plain : ∃ log, plain = .ok (.ok log) ∧
    Fills (m * n) (fun c => product arith x (w.widened arith) bias k (c / n) (c % n)) log

/-- **The packed product is the plain one.** -/
theorem packedGemm_as_gemm (hm : 1 ≤ m) (hk : 1 ≤ k) (hn : 1 ≤ n) {x y : List β}
    (hx : (Elements.f32 x).Holds (m * k)) {w : Elements β} (hw : w.Holds (n * k))
    (bias : Option {b : Elements β // b.Holds n}) (hy : (Elements.f32 y).Holds (m * n))
    (fresh : Uninitialized β) (packing schedule reference : Schedule) :
    ∃ wp, packInto arith packing w n k (fresh.like (Kernels.packedWeightElements n k) w) = .ok wp ∧
      PackedAsPlain arith x y m k n w wp (bias.map fun b => b.1.widened arith) schedule
        (Cpu.gemm arith reference (.matrix m k (.f32 x) hx) (.matrix n k w hw)
          (bias.map fun b => .vector n b.1 b.2) (.matrix m n (.f32 y) hy)) := by
  have hbias : ∀ b ∈ bias.map fun b => b.1.widened arith, b.length = n := by
    intro b hb
    obtain ⟨e, -, rfl⟩ := Option.mem_map.mp hb
    exact widened_length arith e.2
  have hholds := packed_holds arith hw
  have hpacks := packed_packs arith hw
  refine ⟨_, packInto_ok arith packing fresh hn hk hw, hholds, ?_,
    Cpu.gemm_fills arith reference hm hk hn hx hw bias hy⟩
  obtain ⟨log, hlog, hfills⟩ :=
    Kernels.packedGemm_fills arith schedule hm hk hn hx hholds hpacks hbias
  refine ⟨log, hlog, hfills, hfills.storeAll _ hy, fun i hi rows => ?_⟩
  obtain ⟨row, hrow, hrowFills⟩ := Kernels.packedGemv_fills arith rows hk hn
    (length_rowOf hx hi) hholds hpacks hbias
  have hrowFills := hrowFills.congr fun j _ => product_rowOf arith x _ _ k i j
  refine ⟨row, hrow, hrowFills, fun j v => ?_⟩
  rw [hrowFills.mem, hfills.mem]
  constructor
  · intro hj
    obtain ⟨hj, rfl⟩ := hj
    refine ⟨hj, Kernels.row_lt hi hj, ?_⟩
    rw [Nat.add_comm, Nat.add_mul_div_right _ _ (by omega), Nat.div_eq_of_lt hj, Nat.zero_add,
      Nat.add_mul_mod_self_right, Nat.mod_eq_of_lt hj]
  · intro hj
    obtain ⟨hj, -, rfl⟩ := hj
    refine ⟨hj, ?_⟩
    rw [Nat.add_comm, Nat.add_mul_div_right _ _ (by omega), Nat.div_eq_of_lt hj, Nat.zero_add,
      Nat.add_mul_mod_self_right, Nat.mod_eq_of_lt hj]

end Packed

/-- Integers in place of numbers, memory that is zero, two rows and one column. -/
theorem packedGemm_as_gemm_small :
    let ints : Arithmetic Int := ⟨0, (· + ·), (· * ·), fun b => b.toNat, fun b => b.toNat⟩
    let zeros : Uninitialized Int :=
      ⟨fun n => .replicate n 0, fun n => .replicate n 0, fun _ => List.length_replicate,
        fun _ => List.length_replicate⟩
    ∃ wp, packInto ints .inOrder (.f32 [5, 6]) 1 2 (zeros.like 32 (.f32 [5, 6])) = .ok wp ∧
      PackedAsPlain ints [1, 2, 3, 4] [0, 0] 2 2 1 (.f32 [5, 6]) wp (some [7]) .inOrder
        (Cpu.gemm ints .inOrder (.matrix 2 2 (.f32 [1, 2, 3, 4]) rfl)
          (.matrix 1 2 (.f32 [5, 6]) rfl) (some (.vector 1 (.f32 [7]) rfl))
          (.matrix 2 1 (.f32 [0, 0]) rfl)) := by
  intro ints zeros
  exact packedGemm_as_gemm ints (m := 2) (k := 2) (n := 1) (x := [1, 2, 3, 4]) (y := [0, 0])
    (w := .f32 [5, 6]) (by decide) (by decide) (by decide) rfl rfl (some ⟨.f32 [7], rfl⟩) rfl
    zeros .inOrder .inOrder .inOrder

end InferenceEngine
