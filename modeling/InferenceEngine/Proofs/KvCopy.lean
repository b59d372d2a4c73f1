/-
What the two copy kernels leave where.

`cell` is the offset in a slab of one element: of the physical slot of a token, a head and
a coordinate.  The scatter writes the cells of the slots it is given and no others, and the
gather reads the cells of the table's slots into a head-major buffer.  Both facts rest on
the layout being injective, which is `cell_inj`.
-/
import InferenceEngine.Kernels.KvCopy
import Mathlib.Tactic.Ring
import Mathlib.Tactic.Linarith
import Mathlib.Data.List.GetD
import Mathlib.Data.List.Nodup

namespace InferenceEngine

open FlatMemory

variable {α : Type} {kvHeads d bs : Int}

/-- The same offset, from the physical block and the row within it. -/
def blockCell (kvHeads d bs block row h e : Int) : Int :=
  ((block * kvHeads + h) * bs + row) * d + e

theorem cell_eq (slot h e : Int) :
    cell kvHeads d bs slot h e
      = blockCell kvHeads d bs (slot.tdiv bs) (slot.tmod bs) h e := by
  unfold cell blockCell
  ring

theorem cell_of_block {block row : Int} (hb : 0 ≤ block) (hr : 0 ≤ row) (hrow : row < bs)
    (h e : Int) :
    cell kvHeads d bs (block * bs + row) h e = blockCell kvHeads d bs block row h e := by
  have hbs : 0 < bs := by omega
  have hpos : 0 ≤ block * bs + row := by
    have := Int.mul_nonneg hb hbs.le
    omega
  have hdiv : (block * bs + row).tdiv bs = block := by
    rw [Int.tdiv_eq_ediv_of_nonneg hpos, Int.add_comm, Int.add_mul_ediv_right _ _ hbs.ne',
      Int.ediv_eq_zero_of_lt hr hrow, Int.zero_add]
  have hmod : (block * bs + row).tmod bs = row := by
    rw [Int.tmod_eq_emod_of_nonneg hpos, Int.add_comm, Int.add_mul_emod_self_right,
      Int.emod_eq_of_lt hr hrow]
  rw [cell_eq, hdiv, hmod]

/-- **The layout is injective**: an offset is one element of one slot. -/
theorem cell_inj {slot h e slot' h' e' : Int} (hbs : 0 < bs) (hslot : 0 ≤ slot)
    (hslot' : 0 ≤ slot') (hh : 0 ≤ h ∧ h < kvHeads) (hh' : 0 ≤ h' ∧ h' < kvHeads)
    (he : 0 ≤ e ∧ e < d) (he' : 0 ≤ e' ∧ e' < d)
    (heq : cell kvHeads d bs slot h e = cell kvHeads d bs slot' h' e') :
    slot = slot' ∧ h = h' ∧ e = e' := by
  rw [cell_eq, cell_eq, blockCell, blockCell, Int.tdiv_eq_ediv_of_nonneg hslot,
    Int.tdiv_eq_ediv_of_nonneg hslot', Int.tmod_eq_emod_of_nonneg hslot,
    Int.tmod_eq_emod_of_nonneg hslot'] at heq
  obtain ⟨hrow, hee⟩ := radix_inj he.1 he.2 he'.1 he'.2 heq
  obtain ⟨hhead, hmod⟩ := radix_inj (Int.emod_nonneg _ hbs.ne') (Int.emod_lt_of_pos _ hbs)
    (Int.emod_nonneg _ hbs.ne') (Int.emod_lt_of_pos _ hbs) hrow
  obtain ⟨hblock, hhh⟩ := radix_inj hh.1 hh.2 hh'.1 hh'.2 hhead
  refine ⟨?_, hhh, hee⟩
  rw [← Int.mul_ediv_add_emod slot bs, ← Int.mul_ediv_add_emod slot' bs, hblock, hmod]

/-! ### Scatter

A slot is given at most once, so what is copied to it is not overwritten. -/

private theorem cell_add (slot h j : Int) :
    cell kvHeads d bs slot h 0 + j = cell kvHeads d bs slot h j := by
  unfold cell
  ring

private theorem scatterRange_eq (src : Int → α) (slots : List Int) (tDim : Int)
    (slab : Int → α) :
    scatterRange src slots tDim kvHeads d bs slab
      = scatterRows (fun t h => cell kvHeads d bs (slots.getD t.toNat 0) h 0) src tDim kvHeads d
          slab := by
  unfold scatterRange scatterRows
  refine congrArg (fun f => List.foldl f slab (indices tDim)) ?_
  funext m t
  refine congrArg (fun f => List.foldl f m (indices kvHeads)) ?_
  funext m' h
  congr 1
  · unfold cell
    ring
  · ring

/-- An element of a slot is covered by the row of that slot and head only. -/
private theorem cell_covered {slot h e slot' h' : Int} (hbs : 0 < bs) (hslot : 0 ≤ slot)
    (hslot' : 0 ≤ slot') (hh : 0 ≤ h ∧ h < kvHeads) (hh' : 0 ≤ h' ∧ h' < kvHeads)
    (he : 0 ≤ e ∧ e < d)
    (hlo : cell kvHeads d bs slot' h' 0 ≤ cell kvHeads d bs slot h e)
    (hhi : cell kvHeads d bs slot h e < cell kvHeads d bs slot' h' 0 + d) :
    slot' = slot ∧ h' = h := by
  obtain ⟨j, hj⟩ : ∃ j, cell kvHeads d bs slot h e = cell kvHeads d bs slot' h' 0 + j :=
    ⟨_, (add_sub_cancel _ _).symm⟩
  rw [hj] at hlo hhi
  rw [cell_add] at hj
  obtain ⟨hs, hhh, _⟩ := cell_inj hbs hslot hslot' hh hh' he (by omega) hj
  exact ⟨hs.symm, hhh.symm⟩

/-- A slot the scatter was not given keeps its elements. -/
theorem scatterRange_other {src : Int → α} {slots : List Int} {slab : Int → α}
    {slot h e : Int} (hbs : 0 < bs) (hslots : ∀ s ∈ slots, 0 ≤ s) (hslot : 0 ≤ slot)
    (hnot : slot ∉ slots) (hh : 0 ≤ h ∧ h < kvHeads) (he : 0 ≤ e ∧ e < d) :
    scatterRange src slots slots.length kvHeads d bs slab (cell kvHeads d bs slot h e)
      = slab (cell kvHeads d bs slot h e) := by
  rw [scatterRange_eq]
  refine scatterRows_other ?_
  intro t ht h' hh' hcov
  have hlt : t.toNat < slots.length := by omega
  have hmem : slots.getD t.toNat 0 ∈ slots := by
    rw [List.getD_eq_getElem _ _ hlt]
    exact List.getElem_mem hlt
  have hs := (cell_covered hbs hslot (hslots _ hmem) hh hh' he hcov.1 hcov.2).1
  exact hnot (hs ▸ hmem)

/-- **The scatter puts row `t` of its source at slot `t` of its mapping.** -/
theorem scatterRange_slot {src : Int → α} {slots : List Int} {slab : Int → α} {t : Nat}
    {h e : Int} (hbs : 0 < bs) (hslots : ∀ s ∈ slots, 0 ≤ s) (hnd : slots.Nodup)
    (ht : t < slots.length) (hh : 0 ≤ h ∧ h < kvHeads) (he : 0 ≤ e ∧ e < d) :
    scatterRange src slots slots.length kvHeads d bs slab (cell kvHeads d bs slots[t] h e)
      = src ((t * kvHeads + h) * d + e) := by
  have hplace : cell kvHeads d bs slots[t] h e
      = cell kvHeads d bs (slots.getD (t : Int).toNat 0) h 0 + e := by
    rw [cell_add, Int.toNat_natCast, List.getD_eq_getElem _ _ ht]
  rw [scatterRange_eq, hplace]
  refine scatterRows_at (by omega) hh he ?_
  intro t' ht' h' hh' hlo hhi
  have hlt : t'.toNat < slots.length := by omega
  rw [List.getD_eq_getElem _ _ hlt] at hlo hhi
  rw [← hplace] at hlo hhi
  obtain ⟨hs, hhh⟩ := cell_covered hbs (hslots _ (List.getElem_mem ht))
    (hslots _ (List.getElem_mem hlt)) hh hh' he hlo hhi
  have htt : t'.toNat = t := (hnd.getElem_inj_iff).mp hs
  exact ⟨by omega, hhh⟩

/-! ### Gather

The gather writes its rows one behind the other; where it reads them is a matter of the block
table. -/

private theorem row_le {a x e : Int} (he : 0 ≤ e ∧ e < d) (h : a * d ≤ x * d + e) : a ≤ x := by
  by_contra hc
  have hle : (x + 1) * d ≤ a * d := Int.mul_le_mul_of_nonneg_right (by omega) (by omega)
  rw [Int.add_mul] at hle
  omega

private theorem row_lt {b x e : Int} (he : 0 ≤ e ∧ e < d) (h : x * d + e < b * d) : x < b := by
  by_contra hc
  have hle : b * d ≤ x * d := Int.mul_le_mul_of_nonneg_right (by omega) (by omega)
  omega

/-- **The gather reads position `pos` of head `h` from the block that holds it.** -/
theorem kvGather_at {slab out : Int → α} {blocks : List Int} {length h pos e : Int}
    (hbs : 0 < bs) (hh : 0 ≤ h ∧ h < kvHeads) (hpos : 0 ≤ pos ∧ pos < length)
    (he : 0 ≤ e ∧ e < d) :
    kvGather slab blocks bs length kvHeads d out ((h * length + pos) * d + e)
      = slab (blockCell kvHeads d bs (blocks.getD (pos / bs).toNat 0) (pos % bs) h e) := by
  have hlen : ¬length = 0 := by omega
  have hnb : (length + bs - 1).tdiv bs = (length + bs - 1) / bs :=
    Int.tdiv_eq_ediv_of_nonneg (by omega)
  have hdm := Int.mul_ediv_add_emod pos bs
  have hm0 := Int.emod_nonneg pos hbs.ne'
  have hm1 := Int.emod_lt_of_pos pos hbs
  have hd0 : 0 ≤ pos / bs := Int.ediv_nonneg hpos.1 hbs.le
  have hdlt : pos / bs < (length + bs - 1) / bs := by
    refine Int.lt_of_add_one_le ?_
    rw [Int.le_ediv_iff_mul_le hbs, Int.add_mul, Int.mul_comm]
    omega
  unfold kvGather gatherRange
  rw [if_neg hlen]
  simp only [hnb]
  refine foldl_memcpy_of_covered _ _ ?_ ?_
  · -- the unit of head `h` and of the block that holds `pos`
    refine ⟨h * ((length + bs - 1) / bs) + pos / bs, ?_, ?_⟩
    · rw [mem_indices]
      refine ⟨?_, radix_lt hh.2 hdlt (by omega)⟩
      have := Int.mul_nonneg hh.1 (show 0 ≤ (length + bs - 1) / bs by omega)
      omega
    · have hu0 : 0 ≤ h * ((length + bs - 1) / bs) + pos / bs := by
        have := Int.mul_nonneg hh.1 (show 0 ≤ (length + bs - 1) / bs by omega)
        omega
      have hq : (h * ((length + bs - 1) / bs) + pos / bs).tdiv ((length + bs - 1) / bs) = h := by
        rw [Int.tdiv_eq_ediv_of_nonneg hu0, Int.add_comm,
          Int.add_mul_ediv_right _ _ (by omega), Int.ediv_eq_zero_of_lt hd0 hdlt, Int.zero_add]
      have hr : (h * ((length + bs - 1) / bs) + pos / bs).tmod ((length + bs - 1) / bs)
          = pos / bs := by
        rw [Int.tmod_eq_emod_of_nonneg hu0, Int.add_comm, Int.add_mul_emod_self_right,
          Int.emod_eq_of_lt hd0 hdlt]
      rw [hq, hr]
      have hrows : pos - pos / bs * bs + 1 ≤ min bs (length - pos / bs * bs) := by
        rw [Int.mul_comm] at hdm
        omega
      have hle : (pos - pos / bs * bs + 1) * d ≤ min bs (length - pos / bs * bs) * d :=
        Int.mul_le_mul_of_nonneg_right hrows (by omega)
      have hpd : pos / bs * bs * d ≤ pos * d := by
        refine Int.mul_le_mul_of_nonneg_right ?_ (by omega)
        rw [Int.mul_comm] at hdm
        omega
      have hexp : (h * length + pos) * d + e = h * length * d + pos * d + e := by ring
      have hexp' : (pos - pos / bs * bs + 1) * d = pos * d - pos / bs * bs * d + d := by ring
      rw [hexp]
      omega
  · intro u hu hlo hhi
    rw [mem_indices] at hu
    -- any unit that covers the offset is that one
    have hnpos : 0 < (length + bs - 1) / bs := by omega
    rw [Int.tdiv_eq_ediv_of_nonneg hu.1, Int.tmod_eq_emod_of_nonneg hu.1] at hlo hhi ⊢
    obtain ⟨hu', hb', hqu, hru⟩ : ∃ q r, q = u / ((length + bs - 1) / bs) ∧
        r = u % ((length + bs - 1) / bs) := ⟨_, _, rfl, rfl⟩
    rw [← hqu, ← hru] at hlo hhi ⊢
    have hb0 : 0 ≤ hb' := by
      rw [hru]
      exact Int.emod_nonneg _ hnpos.ne'
    have hbb := Int.mul_nonneg hb0 hbs.le
    have hlow : hu' * length + hb' * bs ≤ h * length + pos := by
      refine row_le he ?_
      have : (hu' * length + hb' * bs) * d = hu' * length * d + hb' * bs * d := by ring
      omega
    have hhigh : h * length + pos < hu' * length + hb' * bs + min bs (length - hb' * bs) := by
      refine row_lt he ?_
      have : (hu' * length + hb' * bs + min bs (length - hb' * bs)) * d
        = hu' * length * d + hb' * bs * d + min bs (length - hb' * bs) * d := by ring
      omega
    have hx : h * length + pos = hu' * length + (h * length + pos - hu' * length) := by ring
    obtain ⟨hhu, hpu⟩ := radix_inj hpos.1 hpos.2 (by omega) (by omega) hx
    have hb : hb' = pos / bs := by
      refine le_antisymm ?_ ?_
      · rw [Int.le_ediv_iff_mul_le hbs]
        omega
      · refine Int.lt_add_one_iff.mp ?_
        rw [Int.ediv_lt_iff_lt_mul hbs, Int.add_mul]
        omega
    rw [← hhu, hb]
    congr 1
    unfold blockCell
    rw [Int.mul_comm] at hdm
    have hmod : pos % bs = pos - pos / bs * bs := by omega
    rw [hmod]
    ring

end InferenceEngine
