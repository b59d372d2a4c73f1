/-
Loop nests that fill a buffer.

What such a nest does to its buffer is the list of its stores, in the order in which they happen;
each is an offset and a value.  Nests are cut up for speed: a range into blocks with a ragged last
one, a grid into tiles that are numbered through.  Cutting up a range changes nothing at all, and
cutting up a grid changes only the order of the stores, so that it is enough to know what a nest
would store without any of it.
-/
import InferenceEngine.Lib.Returns
import Mathlib.Data.Multiset.Bind

namespace Stores

universe u

variable {ε ι γ β σ : Type u}

/-- `for (i = lo; i < hi; ++i)`. -/
def span (lo hi : Nat) : List Nat := List.range' lo (hi - lo)

/-- How many blocks of `step` it takes to cover `n`. -/
def blocks (n step : Nat) : Nat := (n + step - 1) / step

/-- `for (i = 0; i < hi; i += step)`. -/
def strided (hi step : Nat) : List Nat := (List.range (blocks hi step)).map (· * step)

/-- A loop whose turns store. -/
def forEach (xs : List ι) (body : ι → Except ε (List γ)) : Except ε (List γ) := do
  let logs ← xs.mapM body
  pure logs.flatten

/-- One store; one outside the buffer ends the program. -/
def store (fault : ε) (buf : List β) (s : Nat × β) : Except ε (List β) :=
  if s.1 < buf.length then .ok (buf.set s.1 s.2) else .error fault

/-- What a list of stores makes of a buffer. -/
def storeAll (fault : ε) (buf : List β) (log : List (Nat × β)) : Except ε (List β) :=
  log.foldlM (store fault) buf

/-! ### Loops

A loop that may fault is the list of its turns, once each of them is known to succeed. -/

theorem mem_span {lo hi i : Nat} : i ∈ span lo hi ↔ lo ≤ i ∧ i < hi := by
  rw [span, List.mem_range'_1]
  omega

theorem span_eq_map (lo hi : Nat) : span lo hi = (List.range (hi - lo)).map (lo + ·) :=
  List.range'_eq_map_range ..

theorem range_append_span {lo hi : Nat} (h : lo ≤ hi) :
    List.range lo ++ span lo hi = List.range hi := by
  have happend : List.range' 0 lo ++ List.range' (0 + lo) (hi - lo) =
      List.range' 0 (lo + (hi - lo)) := List.range'_append_1
  rw [Nat.zero_add] at happend
  rw [span, List.range_eq_range', List.range_eq_range', happend]
  congr 1
  omega

/-- A loop each of whose turns is known to succeed. -/
theorem forEach_ok {xs : List ι} {body : ι → Except ε (List γ)} {g : ι → List γ}
    (h : ∀ x ∈ xs, body x = .ok (g x)) : forEach xs body = .ok (xs.flatMap g) := by
  rw [forEach, Except.mapM_ok h, Except.ok_bind, List.flatMap_def]
  rfl

/-- A loop of which the state in front of each turn is known. -/
theorem foldlM_range_ok {f : σ → Nat → Except ε σ} (S : Nat → σ) :
    ∀ {n : Nat}, (∀ i < n, f (S i) i = .ok (S (i + 1))) →
      (List.range n).foldlM f (S 0) = .ok (S n) := by
  intro n
  induction n with
  | zero => intro _; rfl
  | succ n ih =>
      intro h
      rw [List.range_succ, List.foldlM_append, ih fun i hi => h i (by omega), Except.ok_bind,
        List.foldlM_cons, h n (by omega)]
      rfl

/-! ### Blocks and tiles

A loop over blocks with a loop inside each visits what the plain loop does.  In two dimensions
it does so in another order. -/

theorem blocks_mul_ge (n : Nat) {step : Nat} (h : 0 < step) : n ≤ blocks n step * step := by
  have hlt := Nat.lt_div_mul_add (a := n + step - 1) h
  rw [blocks]
  omega

theorem lt_blocks {n step q : Nat} (hq : q < blocks n step) : q * step < n := by
  have hle : (q + 1) * step ≤ n + step - 1 :=
    (Nat.mul_le_mul_right step hq).trans (Nat.div_mul_le_self (n + step - 1) step)
  rw [Nat.succ_mul] at hle
  by_cases h : 0 < step
  · omega
  · rw [blocks, show step = 0 by omega, Nat.div_zero] at hq
    omega

private theorem flatMap_some_blocks (n step : Nat) : ∀ count,
    ((List.range count).flatMap fun q => span (q * step) (min (q * step + step) n)) =
      List.range (min (count * step) n) := by
  intro count
  induction count with
  | zero => simp
  | succ count ih =>
      rw [List.range_succ, List.flatMap_append, ih, List.flatMap_cons, List.flatMap_nil,
        List.append_nil, Nat.succ_mul]
      by_cases h : count * step ≤ n
      · rw [Nat.min_eq_left h]
        exact range_append_span (by omega)
      · have hnone : span (count * step) (min (count * step + step) n) = [] := by
          rw [span, List.range'_eq_nil_iff]
          omega
        rw [hnone, List.append_nil]
        congr 1
        omega

/-- **The blocks of a range, one after the other, are the range.** -/
theorem flatMap_blocks (n : Nat) {step : Nat} (h : 0 < step) :
    ((List.range (blocks n step)).flatMap fun q => span (q * step) (min (q * step + step) n)) =
      List.range n := by
  rw [flatMap_some_blocks, Nat.min_eq_right (blocks_mul_ge n h)]

/-- The same for a loop over the blocks' beginnings. -/
theorem flatMap_strided (n : Nat) {step : Nat} (h : 0 < step) :
    ((strided n step).flatMap fun lo => span lo (min (lo + step) n)) = List.range n := by
  rw [strided, List.flatMap_map]
  exact flatMap_blocks n h

/-- A grid that is numbered through, row by row. -/
theorem flatMap_grid (a b : Nat) (f : Nat → Nat → List γ) :
    ((List.range (a * b)).flatMap fun t => f (t / b) (t % b)) =
      (List.range a).flatMap fun i => (List.range b).flatMap fun j => f i j := by
  induction a with
  | zero => simp
  | succ a ih =>
      rw [Nat.succ_mul, List.range_add, List.flatMap_append, ih, List.range_succ,
        List.flatMap_append, List.flatMap_map, List.flatMap_cons, List.flatMap_nil,
        List.append_nil]
      congr 1
      refine List.flatMap_congr fun j hj => ?_
      have hj := List.mem_range.mp hj
      rw [Nat.mul_comm a b, Nat.mul_add_div (by omega), Nat.div_eq_of_lt hj,
        Nat.mul_add_mod, Nat.mod_eq_of_lt hj, Nat.add_zero]

/-- Two loops may be swapped. -/
theorem flatMap_swap {ι κ : Type*} (xs : List ι) (ys : List κ) (f : ι → κ → List γ) :
    (xs.flatMap fun x => ys.flatMap fun y => f x y).Perm
      (ys.flatMap fun y => xs.flatMap fun x => f x y) := by
  have h := Multiset.bind_bind (xs : Multiset ι) (ys : Multiset κ)
    (f := fun x y => (f x y : Multiset γ))
  simpa only [Multiset.coe_bind, Multiset.coe_eq_coe] using h

/-- **A walk over the tiles of a grid visits what a walk over the grid does.** -/
theorem flatMap_tiles (m n : Nat) {a b : Nat} (ha : 0 < a) (hb : 0 < b)
    (g : Nat → Nat → List γ) :
    ((List.range (blocks m a * blocks n b)).flatMap fun t =>
      (span (t / blocks n b * a) (min (t / blocks n b * a + a) m)).flatMap fun i =>
        (span (t % blocks n b * b) (min (t % blocks n b * b + b) n)).flatMap fun j => g i j).Perm
      ((List.range m).flatMap fun i => (List.range n).flatMap fun j => g i j) := by
  rw [flatMap_grid (blocks m a) (blocks n b) fun q p =>
    (span (q * a) (min (q * a + a) m)).flatMap fun i =>
      (span (p * b) (min (p * b + b) n)).flatMap fun j => g i j]
  have hswap : ∀ q, ((List.range (blocks n b)).flatMap fun p =>
      (span (q * a) (min (q * a + a) m)).flatMap fun i =>
        (span (p * b) (min (p * b + b) n)).flatMap fun j => g i j).Perm
      ((span (q * a) (min (q * a + a) m)).flatMap fun i =>
        (List.range n).flatMap fun j => g i j) := by
    intro q
    refine (flatMap_swap _ _ fun p i =>
      (span (p * b) (min (p * b + b) n)).flatMap fun j => g i j).trans (List.Perm.of_eq ?_)
    refine List.flatMap_congr fun i _ => ?_
    rw [← List.flatMap_assoc, flatMap_blocks n hb]
  refine (List.Perm.flatMap_left _ fun q _ => hswap q).trans (List.Perm.of_eq ?_)
  rw [← List.flatMap_assoc, flatMap_blocks m ha]

/-! ### Buffers that are filled

The stores of a nest of loops are a list.  A buffer is filled when the list holds each cell
once. -/

/-- Each of the cells `0, …, n - 1` is stored once, with its value of `f`, and nothing else is. -/
def Fills (n : Nat) (f : Nat → β) (log : List (Nat × β)) : Prop :=
  log.Perm ((List.range n).map fun c => (c, f c))

variable {n : Nat} {f : Nat → β} {log : List (Nat × β)}

theorem Fills.mem (h : Fills n f log) {c : Nat} {v : β} : (c, v) ∈ log ↔ c < n ∧ v = f c := by
  rw [h.mem_iff, List.mem_map]
  constructor
  · intro hc
    obtain ⟨i, hi, heq⟩ := hc
    cases heq
    exact ⟨List.mem_range.mp hi, rfl⟩
  · intro hc
    exact ⟨c, List.mem_range.mpr hc.1, by rw [hc.2]⟩

theorem Fills.congr (h : Fills n f log) {f' : Nat → β} (hf : ∀ c < n, f c = f' c) :
    Fills n f' log := by
  refine h.trans (List.Perm.of_eq (List.map_congr_left fun c hc => ?_))
  rw [hf c (List.mem_range.mp hc)]

/-- A nest that stores row by row. -/
theorem Fills.of_rows {m n : Nat} {F : Nat → Nat → β} {log : List (Nat × β)}
    (h : log.Perm ((List.range m).flatMap fun i =>
      (List.range n).flatMap fun j => [(i * n + j, F i j)])) :
    Fills (m * n) (fun c => F (c / n) (c % n)) log := by
  refine h.trans (List.Perm.of_eq ?_)
  rw [← flatMap_grid m n fun i j => [(i * n + j, F i j)], List.map_eq_flatMap]
  refine List.flatMap_congr fun c _ => ?_
  rw [Nat.div_add_mod']

private theorem storeAll_getElem? (fault : ε) : ∀ (log : List (Nat × β)) (buf : List β),
    (∀ s ∈ log, s.1 < buf.length ∧ s.2 = f s.1) →
    (storeAll fault buf log).Returns fun out => out.length = buf.length ∧
      ∀ c < buf.length, out[c]? = if c ∈ log.map Prod.fst then some (f c) else buf[c]? := by
  intro log
  induction log with
  | nil => exact fun buf _ => Except.returns_pure ⟨rfl, fun c _ => rfl⟩
  | cons s rest ih =>
      intro buf h
      obtain ⟨hs, hv⟩ := h s (by simp)
      have hstore : store fault buf s = .ok (buf.set s.1 s.2) := if_pos hs
      rw [storeAll, List.foldlM_cons, hstore, Except.ok_bind]
      refine (ih (buf.set s.1 s.2) fun t ht => ?_).mono fun out hout => ?_
      · rw [List.length_set]
        exact h t (List.mem_cons_of_mem _ ht)
      · rw [List.length_set] at hout
        refine ⟨hout.1, fun c hc => ?_⟩
        rw [hout.2 c hc]
        by_cases hmem : c ∈ rest.map Prod.fst
        · rw [if_pos hmem, if_pos (by simp [hmem])]
        · rw [if_neg hmem]
          by_cases hcs : c = s.1
          · rw [if_pos (by simp [hcs]), hcs, List.getElem?_set_self hs, hv]
          · rw [List.getElem?_set_ne (Ne.symm hcs), if_neg]
            rw [List.map_cons, List.mem_cons]
            exact fun hor => hor.elim hcs hmem

/-- **A log that fills a buffer leaves nothing of what the buffer held.** -/
theorem Fills.storeAll (h : Fills n f log) (fault : ε) {buf : List β} (hlen : buf.length = n) :
    Stores.storeAll fault buf log = .ok ((List.range n).map f) := by
  obtain ⟨out, hout, hlength, hcells⟩ := storeAll_getElem? fault (f := f) log buf fun s hs => by
    have := h.mem.mp (show (s.1, s.2) ∈ log from hs)
    rwa [hlen]
  rw [hout]
  congr 1
  refine List.ext_getElem? fun c => ?_
  by_cases hc : c < n
  · have hmem : c ∈ log.map Prod.fst :=
      List.mem_map.mpr ⟨(c, f c), h.mem.mpr ⟨hc, rfl⟩, rfl⟩
    rw [hcells c (by omega), if_pos hmem, List.getElem?_map, List.getElem?_range hc]
    rfl
  · rw [List.getElem?_eq_none (by omega), List.getElem?_eq_none (by simp; omega)]

end Stores
