/-
Loops over the cells of a flat memory.

A memory has a value at some addresses; a load or a store anywhere else ends the program.  What a
loop does to it is the list of the cells it leaves written.  A loop may work in place: a turn then
reads cells that other turns write, and all that is needed is that no earlier turn has written
what a later one reads.
-/
import InferenceEngine.Lib.Loops

namespace Cells

open Except

universe u v w

/-- The values at the addresses that there are. -/
abbrev Memory (β : Type u) := Int → Option β

variable {ε β : Type u} {σ : Type u} {ι : Type v} {m m' m₁ : Memory β}

/-- `*p` -/
def load (fault : ε) (m : Memory β) (p : Int) : Except ε β :=
  match m p with
  | some x => .ok x
  | none => .error fault

/-- `*p = x` -/
def store (fault : ε) (m : Memory β) (p : Int) (x : β) : Except ε (Memory β) :=
  if (m p).isSome then .ok (Function.update m p (some x)) else .error fault

/-- These cells have been written, the others are as they were. -/
structure Wrote (m m' : Memory β) (cells : List (Int × β)) : Prop where
  inside : ∀ c ∈ cells, m' c.1 = some c.2
  outside : ∀ p, (∀ c ∈ cells, p ≠ c.1) → m' p = m p

/-- There is a cell at each of these addresses. -/
def Has (m : Memory β) (cells : List (Int × β)) : Prop := ∀ c ∈ cells, (m c.1).isSome

variable {cells cells' : List (Int × β)}

theorem load_ok {fault : ε} {p : Int} {x : β} (h : m p = some x) :
    load fault m p = .ok x := by
  rw [load, h]

theorem store_wrote (fault : ε) {p : Int} (h : (m p).isSome) (x : β) :
    (store fault m p x).Returns fun m' => Wrote m m' [(p, x)] := by
  rw [store, if_pos h]
  refine returns_ok ⟨?_, fun q hq => Function.update_of_ne (hq (p, x) (by simp)) _ _⟩
  intro c hc
  rw [List.mem_singleton.mp hc]
  exact Function.update_self ..

namespace Wrote

theorem nil (m : Memory β) : Wrote m m [] := ⟨by simp, fun _ _ => rfl⟩

theorem has (h : Wrote m m' cells) (ha : Has m cells') : Has m' cells' := by
  intro c hc
  by_cases hw : ∃ w ∈ cells, c.1 = w.1
  · obtain ⟨w, hw, heq⟩ := hw
    rw [heq, h.inside w hw]
    rfl
  · rw [h.outside c.1 fun w hw' heq => hw ⟨w, hw', heq⟩]
    exact ha c hc

/-- Other cells may be written afterwards. -/
theorem append (h : Wrote m m₁ cells) (h' : Wrote m₁ m' cells')
    (hdisj : ∀ c ∈ cells, ∀ c' ∈ cells', c.1 ≠ c'.1) : Wrote m m' (cells ++ cells') where
  inside c hc := by
    rcases List.mem_append.mp hc with hc | hc
    · rw [h'.outside c.1 (hdisj c hc)]
      exact h.inside c hc
    · exact h'.inside c hc
  outside p hp := by
    rw [h'.outside p fun c hc => hp c (List.mem_append_right _ hc),
      h.outside p fun c hc => hp c (List.mem_append_left _ hc)]

/-- All the cells may be written again. -/
theorem again (h : Wrote m m₁ cells) (h' : Wrote m₁ m' cells')
    (hsub : ∀ c ∈ cells, ∃ c' ∈ cells', c.1 = c'.1) : Wrote m m' cells' where
  inside := h'.inside
  outside p hp := by
    rw [h'.outside p hp]
    refine h.outside p fun c hc heq => ?_
    obtain ⟨c', hc', heq'⟩ := hsub c hc
    exact hp c' hc' (heq.trans heq')

theorem congr (h : Wrote m m' cells) (hmem : ∀ c, c ∈ cells ↔ c ∈ cells') :
    Wrote m m' cells' where
  inside c hc := h.inside c ((hmem c).mpr hc)
  outside p hp := h.outside p fun c hc => hp c ((hmem c).mp hc)

theorem perm (h : Wrote m m' cells) (hp : cells.Perm cells') : Wrote m m' cells' :=
  h.congr fun _ => hp.mem_iff

/-- Two runs that write the same cells leave the same memory. -/
theorem unique (h : Wrote m m' cells) (h' : Wrote m m₁ cells) : m' = m₁ := by
  funext p
  by_cases hp : ∃ c ∈ cells, p = c.1
  · obtain ⟨c, hc, rfl⟩ := hp
    rw [h.inside c hc, h'.inside c hc]
  · have hout : ∀ c ∈ cells, p ≠ c.1 := fun c hc heq => hp ⟨c, hc, heq⟩
    rw [h.outside p hout, h'.outside p hout]

end Wrote

/-- **A loop writes what its turns write**, as long as no turn reads what an earlier one has
written. -/
theorem loop_ok (mem : σ → Memory β) (I : List ι → σ → Prop) {f : σ → ι → Except ε σ}
    {l : List ι} (writes : ι → List (Int × β)) (reads : ι → Int → Prop) {s : σ}
    (hdisj : l.Pairwise fun x y => ∀ c ∈ writes x, ∀ c' ∈ writes y, c.1 ≠ c'.1)
    (hapart : l.Pairwise fun x y => ∀ c ∈ writes x, ¬reads y c.1)
    (step : ∀ visited x rest s', l = visited ++ x :: rest → I visited s' →
      (∀ p, reads x p → mem s' p = mem s p) → Has (mem s') (writes x) →
      (f s' x).Returns fun s'' => I (visited ++ [x]) s'' ∧ Wrote (mem s') (mem s'') (writes x))
    (hI : I [] s) (halloc : Has (mem s) (l.flatMap writes)) :
    (l.foldlM f s).Returns fun s' => I l s' ∧ Wrote (mem s) (mem s') (l.flatMap writes) := by
  refine Returns.foldlM_visited
    (fun visited s' => I visited s' ∧ Wrote (mem s) (mem s') (visited.flatMap writes)) ?_
    ⟨hI, Wrote.nil _⟩
  rintro visited x rest s' rfl ⟨hs', hwrote⟩
  have hbefore := (List.pairwise_append.mp hapart).2.2
  have hbefore' := (List.pairwise_append.mp hdisj).2.2
  refine (step visited x rest s' rfl hs' ?_ ?_).mono ?_
  · intro p hp
    refine hwrote.outside p fun c hc heq => ?_
    obtain ⟨y, hy, hc⟩ := List.mem_flatMap.mp hc
    rw [heq] at hp
    exact hbefore y hy x (by simp) c hc hp
  · refine hwrote.has fun c hc => halloc c ?_
    exact List.mem_flatMap.mpr ⟨x, by simp, hc⟩
  · rintro s'' ⟨hs'', hx⟩
    refine ⟨hs'', ?_⟩
    rw [List.flatMap_append, List.flatMap_singleton]
    refine hwrote.append hx fun c hc c' hc' => ?_
    obtain ⟨y, hy, hc⟩ := List.mem_flatMap.mp hc
    exact hbefore' y hy x (by simp) c hc c' hc'

end Cells
