/-
Maps from numeric ids, and sums over them.

`IdMap β` is Mathlib's `AList` at numeric keys.  What a map of objects holds in total, of
whatever quantity each object carries, is a sum over its entries; the lemmas say how the
sum changes when one entry is added, replaced or removed.
-/
import Mathlib.Data.List.AList
import Mathlib.Algebra.BigOperators.Group.List.Basic
import Mathlib.Algebra.Order.BigOperators.Group.List
import Mathlib.Algebra.Order.Group.Nat
import Mathlib.Tactic.Tauto

/-- A map from ids. -/
abbrev IdMap (β : Type*) := AList (fun _ : Nat => β)

namespace IdMap

variable {β M : Type*} [AddCommMonoid M] {m : IdMap β} {k k' : Nat} {v : β}

/-- The sum of `f` over the entries. -/
def total (m : IdMap β) (f : Nat → β → M) : M :=
  (m.entries.map fun e => f e.1 e.2).sum

@[simp] theorem total_empty (f : Nat → β → M) : total (∅ : IdMap β) f = 0 := rfl

/-- An entry's own summand, split off. -/
theorem total_erase (h : m.lookup k = some v) (f : Nat → β → M) :
    total m f = f k v + total (m.erase k) f := by
  have hk : k ∈ m.entries.keys := by
    have : k ∈ m := AList.lookup_isSome.mp (by rw [h]; rfl)
    exact this
  obtain ⟨b, l₁, l₂, hnot, hl, herase⟩ := List.exists_of_kerase hk
  have hb : b = v := by
    have hd : m.entries.dlookup k = some v := h
    have hmem : (⟨k, b⟩ : Sigma fun _ : Nat => β) ∈ m.entries := by
      rw [hl]
      simp
    have hd' := (List.mem_dlookup_iff m.nodupKeys).mpr hmem
    rw [hd] at hd'
    exact (Option.some.inj hd').symm
  have he : (m.erase k).entries = l₁ ++ l₂ := herase
  unfold total
  rw [he, hl, hb]
  simp only [List.map_append, List.map_cons, List.sum_append, List.sum_cons]
  exact add_left_comm _ _ _

theorem total_insert (m : IdMap β) (k : Nat) (v : β) (f : Nat → β → M) :
    total (m.insert k v) f = f k v + total (m.erase k) f := by
  unfold total
  rw [AList.entries_insert]
  exact List.sum_cons

theorem total_insert_fresh (h : k ∉ m) (v : β) (f : Nat → β → M) :
    total (m.insert k v) f = f k v + total m f := by
  unfold total
  rw [AList.entries_insert_of_notMem h]
  exact List.sum_cons

theorem lookup_eq_some_iff : m.lookup k = some v ↔ (⟨k, v⟩ : Sigma fun _ : Nat => β) ∈ m.entries :=
  List.mem_dlookup_iff m.nodupKeys

theorem total_congr {f g : Nat → β → M} (h : ∀ k v, m.lookup k = some v → f k v = g k v) :
    total m f = total m g := by
  unfold total
  congr 1
  refine List.map_congr_left fun e he => h e.1 e.2 (lookup_eq_some_iff.mpr he)

/-- A map with this entry read back at another key, after an update. -/
theorem lookup_insert_iff {w : β} :
    (m.insert k v).lookup k' = some w ↔ (k' = k ∧ v = w) ∨ (k' ≠ k ∧ m.lookup k' = some w) := by
  by_cases h : k' = k
  · subst h
    rw [AList.lookup_insert]
    simp
  · rw [AList.lookup_insert_ne h]
    simp [h]

theorem lookup_erase_iff {w : β} :
    (m.erase k).lookup k' = some w ↔ k' ≠ k ∧ m.lookup k' = some w := by
  by_cases h : k' = k
  · subst h
    rw [AList.lookup_erase]
    simp
  · rw [AList.lookup_erase_ne h]
    simp [h]

/-- A map without some keys. -/
def without (m : IdMap β) (ids : List Nat) : IdMap β := ids.foldl (fun m id => m.erase id) m

theorem lookup_without : ∀ {m : IdMap β} {ids : List Nat},
    (without m ids).lookup k = some v ↔ k ∉ ids ∧ m.lookup k = some v := by
  intro m ids
  induction ids generalizing m with
  | nil => simp [without]
  | cons id ids ih =>
      rw [without, List.foldl_cons]
      show (without (m.erase id) ids).lookup k = some v ↔ _
      rw [ih, lookup_erase_iff, List.mem_cons]
      tauto

/-- Entries named by distinct keys are split off together. -/
theorem total_without {ι : Type*} (key : ι → Nat) (val : ι → β) :
    ∀ {m : IdMap β} {l : List ι}, (l.map key).Nodup → (∀ i ∈ l, m.lookup (key i) = some (val i)) →
      ∀ f : Nat → β → M,
        total m f = (l.map fun i => f (key i) (val i)).sum + total (without m (l.map key)) f := by
  intro m l
  induction l generalizing m with
  | nil => intro _ _ f; simp [without]
  | cons i l ih =>
      intro hnd h f
      rw [List.map_cons, List.nodup_cons] at hnd
      have hrest : ∀ j ∈ l, (m.erase (key i)).lookup (key j) = some (val j) := by
        intro j hj
        have hne : key j ≠ key i := fun hc => hnd.1 (hc ▸ List.mem_map_of_mem hj)
        rw [AList.lookup_erase_ne hne]
        exact h j (List.mem_cons_of_mem _ hj)
      rw [total_erase (h i (by simp)) f, ih hnd.2 hrest f, List.map_cons, List.sum_cons, add_assoc]
      rfl

/-- A summand replaced: what the sum loses and what it gains. -/
theorem total_insert_add {w : β} (h : m.lookup k = some v) (f : Nat → β → M) :
    total (m.insert k w) f + f k v = total m f + f k w := by
  rw [total_insert, total_erase h f, add_right_comm, add_comm (f k w), add_right_comm]

/-- The same, for an entry that may be absent and then counts as `d`. -/
theorem total_insert_getD {w d : β} {f : Nat → β → M} (hd : f k d = 0) :
    total (m.insert k w) f + f k ((m.lookup k).getD d) = total m f + f k w := by
  cases h : m.lookup k with
  | none =>
      have hk : k ∉ m := fun hc => by
        obtain ⟨v, hv⟩ := Option.isSome_iff_exists.mp (AList.lookup_isSome.mpr hc)
        rw [h] at hv
        cases hv
      rw [Option.getD_none, hd, add_zero, total_insert_fresh hk, add_comm]
  | some v => exact total_insert_add h f

/-- One summand is at most the sum. -/
theorem le_total [PartialOrder M] [CanonicallyOrderedAdd M] (h : m.lookup k = some v)
    (f : Nat → β → M) : f k v ≤ total m f := by
  rw [total_erase h f]
  exact le_self_add

theorem map_total {N : Type*} [AddCommMonoid N] (g : M →+ N) (m : IdMap β) (f : Nat → β → M) :
    g (total m f) = total m fun k v => g (f k v) := by
  unfold total
  rw [map_list_sum, List.map_map]
  rfl

/-- A map that holds less of a quantity at every key. -/
theorem total_le_of_lookup {γ : Type*} {m : IdMap β} {f : Nat → β → Nat} {g : Nat → γ → Nat} :
    ∀ {m' : IdMap γ}, (∀ k v, m.lookup k = some v → ∃ w, m'.lookup k = some w ∧ f k v ≤ g k w) →
      total m f ≤ total m' g := by
  induction m using AList.insertRec with
  | H0 => intro m' _; exact Nat.zero_le _
  | IH k v m hnot ih =>
      intro m' h
      obtain ⟨w, hw, hle⟩ := h k v (AList.lookup_insert _)
      rw [total_insert_fresh hnot, total_erase hw]
      refine Nat.add_le_add hle (ih fun k' v' hk' => ?_)
      have hne : k' ≠ k := by
        rintro rfl
        exact hnot (AList.lookup_isSome.mp (by rw [hk']; rfl))
      obtain ⟨w', hw', hle'⟩ := h k' v' (by rw [AList.lookup_insert_ne hne, hk'])
      exact ⟨w', lookup_erase_iff.mpr ⟨hne, hw'⟩, hle'⟩

/-- A sum depends on what the keys are mapped to, not on the order of the entries. -/
theorem total_of_lookup {m' : IdMap β} (h : ∀ k v, m.lookup k = some v ↔ m'.lookup k = some v)
    (f : Nat → β → M) : total m f = total m' f := by
  unfold total
  refine List.Perm.sum_eq (List.Perm.map _ ?_)
  exact List.lookup_ext m.nodupKeys m'.nodupKeys fun k v => h k v

theorem exists_of_mem (h : k ∈ m) : ∃ v, m.lookup k = some v :=
  Option.isSome_iff_exists.mp (AList.lookup_isSome.mpr h)

/-- Keys of a map, listed with their values. -/
theorem exists_entries {ids : List Nat} (h : ∀ k ∈ ids, k ∈ m) :
    ∃ l : List (Nat × β), l.map Prod.fst = ids ∧ ∀ p ∈ l, m.lookup p.1 = some p.2 := by
  induction ids with
  | nil => exact ⟨[], rfl, by simp⟩
  | cons k ids ih =>
      obtain ⟨l, hl, hlook⟩ := ih fun k' hk' => h k' (List.mem_cons_of_mem _ hk')
      obtain ⟨v, hv⟩ := exists_of_mem (h k (by simp))
      refine ⟨(k, v) :: l, by rw [List.map_cons, hl], fun p hp => ?_⟩
      rcases List.mem_cons.mp hp with rfl | hp
      · exact hv
      · exact hlook p hp

theorem mem_of_lookup (h : m.lookup k = some v) : k ∈ m :=
  AList.lookup_isSome.mp (by rw [h]; rfl)

end IdMap
