/-
What the attention kernels do to a row of the output.

The recurrence of a query is a function of its scores and of the rows it adds up; a kernel
differs from another one only in where it finds them.  A kernel is therefore judged by the row
it advances: the cells and the journal of that row follow the recurrence, and everything else
stays as it was.
-/
import InferenceEngine.Kernels.Attention
import InferenceEngine.Lib.Ensures
import InferenceEngine.Lib.Loops
import Mathlib.Data.List.GetD

namespace InferenceEngine

open Except Stores

namespace Attention

variable {β ι : Type} {ops : Ops β} {w w' w₀ : Work β} {p q : Int} {d : Nat}
  {row row' : List β} {j j' : Journal β}

@[simp] theorem Journal.append_calls : (j.append j').calls = j.calls ++ j'.calls := rfl
@[simp] theorem Journal.append_keys : (j.append j').keys = j.keys ++ j'.keys := rfl
@[simp] theorem Journal.append_values : (j.append j').values = j.values ++ j'.values := rfl
@[simp] theorem Journal.append_table : (j.append j').table = j.table ++ j'.table := rfl

@[simp] theorem Journal.append_empty : j.append {} = j := by
  simp [Journal.append]

@[simp] theorem Journal.empty_append : Journal.append {} j = j := by
  simp [Journal.append]

theorem Journal.append_assoc (a b c : Journal β) :
    (a.append b).append c = a.append (b.append c) := by
  simp [Journal.append, List.append_assoc]

/-! ### Rows in memory

A row of the output is read and written cell by cell.  A kernel is done with it for good, so the
cells of the other rows can be left out of account. -/

theorem ConstFloats.row_ok {x : ConstFloats β} (hlen : row.length = d)
    (h : ∀ e < d, x.cells (x.offset + e) = row[e]?) : x.row d = .ok row := by
  have hread : ∀ e ∈ List.range d, (x.read (e : Nat)).Returns fun y => row[e]? = some y := by
    intro e he
    have he := List.mem_range.mp he
    have hcell := h e he
    rw [List.getElem?_eq_getElem (by omega)] at hcell
    refine ⟨row[e], ?_, List.getElem?_eq_getElem (by omega)⟩
    simp only [ConstFloats.read, hcell]
  obtain ⟨ys, hys, hall⟩ := Returns.mapM hread
  rw [ConstFloats.row, hys]
  congr 1
  have hlength := hall.length_eq
  rw [List.length_range] at hlength
  refine List.ext_getElem? fun e => ?_
  by_cases he : e < d
  · have hget := (List.forall₂_iff_get.mp hall).2 e (by simpa using he) (by omega)
    rw [List.getElem?_eq_getElem (by omega : e < ys.length)]
    simpa using hget.symm
  · rw [List.getElem?_eq_none (by omega), List.getElem?_eq_none (by omega)]

/-- The cells of a row of the output. -/
structure Work.Row (w : Work β) (p : Int) (d : Nat) (row : List β) : Prop where
  length : row.length = d
  cells : ∀ e < d, w.out (p + e) = row[e]?

theorem Work.Row.readRow (h : w.Row p d row) : w.readRow p d = .ok row :=
  ConstFloats.row_ok h.length h.cells

/-- The cells of a row are there. -/
def Work.Allocated (w : Work β) (p : Int) (d : Nat) : Prop := ∀ e < d, (w.out (p + e)).isSome

theorem Work.Row.allocated (h : w.Row p d row) : w.Allocated p d := by
  intro e he
  have hlen := h.length
  rw [h.cells e he, List.getElem?_eq_getElem (by omega)]
  rfl

/-- A row has come to hold `row`, its journal has grown by `j`, and nothing else has changed. -/
structure Work.Advances (w w' : Work β) (p : Int) (d : Nat) (row : List β) (j : Journal β) :
    Prop where
  row : w'.Row p d row
  journal : w'.journal p = (w.journal p).append j
  outOther : ∀ i, ¬(p ≤ i ∧ i < p + d) → w'.out i = w.out i
  journalOther : ∀ q, q ≠ p → w'.journal q = w.journal q

open Work

theorem Work.Advances.refl (h : w.Row p d row) : w.Advances w p d row {} where
  row := h
  journal := Journal.append_empty.symm
  outOther _ _ := rfl
  journalOther _ _ := rfl

theorem Work.Advances.trans {w₁ : Work β} (h : w.Advances w₁ p d row j)
    (h' : w₁.Advances w' p d row' j') : w.Advances w' p d row' (j.append j') where
  row := h'.row
  journal := by rw [h'.journal, h.journal, Journal.append_assoc]
  outOther i hi := (h'.outOther i hi).trans (h.outOther i hi)
  journalOther q hq := (h'.journalOther q hq).trans (h.journalOther q hq)

theorem Work.Advances.note (h : w.Advances w' p d row j) (j' : Journal β) :
    w.Advances (w'.note p j') p d row (j.append j') where
  row := ⟨h.row.length, h.row.cells⟩
  journal := by
    rw [Work.note]
    simp only [if_pos]
    rw [h.journal, Journal.append_assoc]
  outOther := h.outOther
  journalOther q hq := by
    rw [Work.note]
    simp only [if_neg hq]
    exact h.journalOther q hq

theorem Work.writeRow_advances (halloc : w.Allocated p d) (hlen : row.length = d) :
    (w.writeRow p row).Returns fun w' => w.Advances w' p d row {} := by
  have hall : ((List.range row.length).all fun e : Nat => (w.out (p + e)).isSome) = true := by
    rw [List.all_eq_true, hlen]
    exact fun e he => halloc e (List.mem_range.mp he)
  rw [Work.writeRow, if_pos hall, hlen]
  refine returns_ok ⟨⟨hlen, ?_⟩, Journal.append_empty.symm, ?_, fun _ _ => rfl⟩
  · intro e he
    show (if p ≤ p + (e : Int) ∧ p + (e : Int) < p + d then row[(p + (e : Int) - p).toNat]?
      else _) = _
    rw [if_pos ⟨by omega, by omega⟩]
    congr 1
    omega
  · exact fun i hi => if_neg hi

/-! ### The primitives

The three operations on a row of the output, each with its entry in the journal. -/

theorem clearRow_advances (ops : Ops β) (halloc : w.Allocated p d) :
    (clearRow ops p d w).Returns fun w' =>
      w.Advances w' p d (List.replicate d ops.zero) { calls := [.clear] } := by
  refine Returns.bind (Work.writeRow_advances halloc List.length_replicate) fun w₁ h₁ => ?_
  refine returns_pure ?_
  have h := h₁.note { calls := [.clear] }
  rwa [Journal.empty_append] at h

theorem scaleRow_advances (ops : Ops β) (h : w₀.Advances w p d row j) (s : β) :
    (scaleRow ops p s d w).Returns fun w' =>
      w₀.Advances w' p d (ops.scaleRow row s) (j.append { calls := [.scaleRow row s] }) := by
  rw [scaleRow, h.row.readRow, ok_bind]
  have hlen : (ops.scaleRow row s).length = d := (ops.scaleRow_length row s).trans h.row.length
  refine Returns.bind (Work.writeRow_advances h.row.allocated hlen) fun w₁ h₁ => ?_
  refine returns_pure ?_
  have h₂ := h.trans (h₁.note { calls := [.scaleRow row s] })
  rwa [Journal.empty_append] at h₂

theorem axpyRow_advances (ops : Ops β) (h : w₀.Advances w p d row j) (s : β)
    {x : ConstFloats β} {xs : List β} (hx : x.row d = .ok xs) (hlen : xs.length = d) :
    (axpyRow ops p s x d w).Returns fun w' =>
      w₀.Advances w' p d (ops.axpyRow row s xs)
        (j.append { calls := [.axpyRow row s xs], values := [x.offset] }) := by
  rw [axpyRow, h.row.readRow, ok_bind, hx, ok_bind]
  have hlen' : (ops.axpyRow row s xs).length = d :=
    (ops.axpyRow_length row s xs (hlen.trans h.row.length.symm)).trans h.row.length
  refine Returns.bind (Work.writeRow_advances h.row.allocated hlen') fun w₁ h₁ => ?_
  refine returns_pure ?_
  have h₂ := h.trans (h₁.note { calls := [.axpyRow row s xs], values := [x.offset] })
  rwa [Journal.empty_append] at h₂

/-! ### Arrays on the stack

The scratch of a kernel is an array of fixed length.  Only the part that has been written since
is ever read. -/

/-- The array begins with these numbers. -/
def Stack.Begins (s : Stack β) (xs : List β) : Prop := xs.map some <+: s

theorem Stack.Begins.length_le {s : Stack β} {xs : List β} (h : s.Begins xs) :
    xs.length ≤ s.length := by
  simpa using List.IsPrefix.length_le h

theorem Stack.Begins.getElem? {s : Stack β} {xs : List β} (h : s.Begins xs) {i : Nat}
    (hi : i < xs.length) : s[i]? = some (some xs[i]) := by
  obtain ⟨rest, rfl⟩ := h
  rw [List.getElem?_append_left (by simpa using hi)]
  simp [hi]

theorem Stack.read_ok {s : Stack β} {i : Nat} {x : β} (h : s[i]? = some (some x)) :
    s.read i = .ok x := by
  have hat : readAt s (i : Nat) = .ok (some x) := by
    simp [readAt, h]
  rw [Stack.read, hat]
  rfl

theorem Stack.Begins.read {s : Stack β} {xs : List β} (h : s.Begins xs) {i : Nat}
    (hi : i < xs.length) : s.read i = .ok xs[i] :=
  Stack.read_ok (h.getElem? hi)

theorem Stack.Begins.readSpan {s : Stack β} {xs : List β} (h : s.Begins xs) :
    s.readSpan 0 xs.length = .ok xs := by
  have hread : ∀ i ∈ List.range xs.length,
      (s.read (0 + i)).Returns fun y => xs[i]? = some y := by
    intro i hi
    have hi := List.mem_range.mp hi
    rw [Nat.zero_add]
    exact ⟨xs[i], h.read hi, List.getElem?_eq_getElem hi⟩
  obtain ⟨ys, hys, hall⟩ := Returns.mapM hread
  rw [Stack.readSpan, hys]
  congr 1
  have hlength := hall.length_eq
  rw [List.length_range] at hlength
  refine List.ext_getElem? fun e => ?_
  by_cases he : e < xs.length
  · have hget := (List.forall₂_iff_get.mp hall).2 e (by simpa using he) (by omega)
    rw [List.getElem?_eq_getElem (by omega : e < ys.length)]
    simpa using hget.symm
  · rw [List.getElem?_eq_none (by omega), List.getElem?_eq_none (by omega)]

/-- Writing on where the numbers end. -/
theorem Stack.Begins.writeSpan {s : Stack β} {xs : List β} (h : s.Begins xs) (ys : List β)
    (hfit : xs.length + ys.length ≤ s.length) :
    (s.writeSpan xs.length ys).Returns fun s' =>
      s'.length = s.length ∧ s'.Begins (xs ++ ys) := by
  obtain ⟨rest, hrest⟩ := h
  rw [Stack.writeSpan, if_pos hfit]
  refine returns_ok ⟨?_, ?_⟩
  · simp
    omega
  · have htake : s.take xs.length = xs.map some := by
      rw [← hrest, List.take_append_of_le_length (by simp), List.take_of_length_le (by simp)]
    rw [htake, Stack.Begins, List.map_append]
    exact List.prefix_append _ _

theorem Stack.begins_nil (s : Stack β) : s.Begins [] := List.nil_prefix

theorem Stack.write_ok {s : Stack β} {i : Nat} (hi : i < s.length) (x : β) :
    s.write i x = .ok (s.set i (some x)) :=
  writeAt_natCast hi _

/-! ### The recurrence of a query

The maximum, the denominator and the accumulator of a query are brought forward block by block. 
This is the recurrence of the source, on values. -/

/-- The maximum, the denominator, the accumulator and the calls of a query. -/
structure Pass (β : Type) where
  run : Run β
  row : List β
  calls : List (Call β)

section

variable [LT β] [DecidableLT β] (ops : Ops β)

/-- The query has not taken in anything yet. -/
def Pass.begin (d : Nat) : Pass β :=
  ⟨⟨ops.negInf, ops.zero⟩, List.replicate d ops.zero, [.clear]⟩

/-- `m_new` for a block whose scores have the maximum `m`. -/
def Pass.newMax (a : Pass β) (m : β) : β := larger m a.run.max

/-- The accumulator is brought to the new maximum. -/
def Pass.rescaled (a : Pass β) (m : β) (scores : List β) : Pass β :=
  let mNew := a.newMax m
  let alpha := ops.expF32Scalar (ops.sub a.run.max mNew)
  ⟨⟨mNew, ops.add (ops.mul a.run.den alpha) (ops.expRowSum scores mNew).2⟩,
    ops.scaleRow a.row alpha,
    a.calls ++ [.expRowSum scores mNew, .scaleRow a.row alpha]⟩

/-- A row is added with its weight. -/
def Pass.weigh (a : Pass β) (x : β × List β) : Pass β :=
  ⟨a.run, ops.axpyRow a.row x.1 x.2, a.calls ++ [.axpyRow a.row x.1 x.2]⟩

/-- The weights of a block. -/
def Pass.weights (a : Pass β) (m : β) (scores : List β) : List β :=
  (ops.expRowSum scores (a.newMax m)).1

/-- A block is taken in. -/
def Pass.takeIn (a : Pass β) (m : β) (scores : List β) (rows : List (List β)) : Pass β :=
  ((a.weights ops m scores).zip rows).foldl (Pass.weigh ops) (a.rescaled ops m scores)

/-- The accumulator is divided by the denominator. -/
def Pass.finish (a : Pass β) : Pass β :=
  let s := ops.div ops.one a.run.den
  ⟨a.run, ops.scaleRow a.row s, a.calls ++ [.scaleRow a.row s]⟩

end

/-- A query between two blocks, with the reads that were made for it. -/
structure Progress (β : Type) where
  pass : Pass β
  keys : List Int
  values : List Int
  table : List Int

/-- The journal of a query. -/
def Progress.journal (g : Progress β) : Journal β := ⟨g.pass.calls, g.keys, g.values, g.table⟩

/-- What is known of the state of a query. -/
structure QueryState.At (w₀ : Work β) (p : Int) (d : Nat) (g : Progress β) (s : QueryState β) :
    Prop where
  run : s.run = g.pass.run
  scores : s.scores.length = kAttnKb
  work : w₀.Advances s.work p d g.pass.row g.journal

/-- A block is taken in, with the reads that this took. -/
def Progress.takeIn [LT β] [DecidableLT β] (ops : Ops β) (g : Progress β) (m : β)
    (scores : List β) (rows : List (List β)) (keys values table : List Int) : Progress β :=
  ⟨g.pass.takeIn ops m scores rows, g.keys ++ keys, g.values ++ values, g.table ++ table⟩

/-! ### Blocks

A block of up to 64 keys is scored, rescaled and added up.  Where its rows lie is a parameter,
so the lemma serves every kernel. -/

/-- The rows that are stored one after the other from `x` on, and where they are. -/
def Finds (x : ConstFloats β) (d n : Nat) (rows : Nat → List β) (at_ : Nat → Int) : Prop :=
  ∀ i < n, (x.advance (i * d : Nat)).row d = .ok (rows i) ∧ x.offset + (i * d : Nat) = at_ i

theorem Finds.offsets {x : ConstFloats β} {n : Nat} {rows : Nat → List β} {at_ : Nat → Int}
    (h : Finds x d n rows at_) :
    ((List.range n).map fun i => x.offset + (i * d : Nat)) = (List.range n).map at_ :=
  List.map_congr_left fun i hi => (h i (List.mem_range.mp hi)).2

theorem ConstFloats.row_length {x : ConstFloats β} (h : x.row d = .ok row) : row.length = d := by
  have hall := (Ensures.mapM (P := fun _ _ => True) (l := List.range d)
    (f := fun e : Nat => x.read e) fun _ _ _ _ => trivial) row h
  simpa using hall.length_eq.symm

section

variable [LT β] [DecidableLT β] (ops) {scores : Stack β} {xs : List β} {n : Nat} {scale : β}
  {qVec kBlock vBlock : ConstFloats β} {qRow : List β} {ks vs : Nat → List β}
  {kAt vAt : Nat → Int} {g : Progress β}
  {s : QueryState β}

theorem dotScoreRow_ok (scale : β) (hq : qVec.row d = .ok qRow)
    (hk : Finds kBlock d n ks kAt) (hbegins : scores.Begins xs)
    (hfit : xs.length + n ≤ scores.length) (h : w₀.Advances w p d row j) :
    (dotScoreRow ops p qVec kBlock n d scale scores xs.length w).Returns fun r =>
      r.1 = rowMax ops ((List.range n).map fun i => ops.score qRow (ks i) scale) ∧
      r.2.1.length = scores.length ∧
      r.2.1.Begins (xs ++ (List.range n).map fun i => ops.score qRow (ks i) scale) ∧
      w₀.Advances r.2.2 p d row
        (j.append { keys := (List.range n).map kAt }) := by
  have hvals : (List.range n).mapM (fun i : Nat => do
      let q ← qVec.row d
      let k ← (kBlock.advance (i * d : Nat)).row d
      pure (ops.score q k scale)) =
        .ok ((List.range n).map fun i => ops.score qRow (ks i) scale) := by
    refine mapM_ok fun i hi => ?_
    rw [hq, ok_bind, (hk i (List.mem_range.mp hi)).1, ok_bind]
    rfl
  rw [dotScoreRow, hvals, ok_bind]
  refine Returns.bind (hbegins.writeSpan _ (by simpa using hfit)) fun scores' hscores' => ?_
  rw [hk.offsets]
  exact returns_pure ⟨rfl, hscores'.1, hscores'.2, h.note _⟩

theorem rescale_ok (h : s.At w₀ p d g) (hbegins : s.scores.Begins xs) (m : β) :
    (rescale ops p d xs.length m s).Returns fun s' =>
      s'.At w₀ p d { g with pass := g.pass.rescaled ops m xs } ∧
      s'.scores.Begins (g.pass.weights ops m xs) := by
  have hmax : larger m s.run.max = g.pass.newMax m := by
    rw [h.run]
    rfl
  have hes := ops.expRowSum_length xs (g.pass.newMax m)
  have hfit := hbegins.length_le
  rw [rescale]
  simp only [hmax, expRowSum]
  rw [hbegins.readSpan, ok_bind]
  simp only [bind_assoc]
  refine Returns.bind ((Stack.begins_nil s.scores).writeSpan
    (ops.expRowSum xs (g.pass.newMax m)).1 (by simp; omega)) fun scores' hscores' => ?_
  rw [pure_bind]
  refine Returns.bind (scaleRow_advances ops
    (h.work.note { calls := [.expRowSum xs (g.pass.newMax m)] }) _) fun w' hw' => ?_
  refine returns_pure ⟨⟨?_, hscores'.1.trans h.scores, ?_⟩, hscores'.2⟩
  · rw [h.run]
    rfl
  · rw [h.run] at hw'
    simpa [Journal.append, Progress.journal, Pass.rescaled] using hw'

omit [LT β] [DecidableLT β] in
/-- A loop of `AxpyRow`s. -/
theorem axpyLoop_ok (is : List ι) (f : Work β → ι → Checked (Work β)) (weight : ι → β)
    (x : ι → ConstFloats β) (rows : ι → List β)
    (hf : ∀ i ∈ is, ∀ w, f w i = axpyRow ops p (weight i) (x i) d w)
    (hrow : ∀ i ∈ is, (x i).row d = .ok (rows i)) :
    ∀ {w : Work β} {g : Progress β}, w₀.Advances w p d g.pass.row g.journal →
      (is.foldlM f w).Returns fun w' =>
        w₀.Advances w' p d
          ((is.map fun i => (weight i, rows i)).foldl (Pass.weigh ops) g.pass).row
          ⟨((is.map fun i => (weight i, rows i)).foldl (Pass.weigh ops) g.pass).calls, g.keys,
            g.values ++ is.map fun i => (x i).offset, g.table⟩ := by
  induction is with
  | nil =>
      intro w g h
      refine returns_pure ?_
      simpa [Progress.journal] using h
  | cons i rest ih =>
      intro w g h
      have hrow' := hrow i (by simp)
      rw [List.foldlM_cons, hf i (by simp)]
      refine Returns.bind (axpyRow_advances ops h (weight i) hrow' (ConstFloats.row_length hrow'))
        fun w₁ h₁ => ?_
      have h₂ : w₀.Advances w₁ p d (g.pass.weigh ops (weight i, rows i)).row
          (Progress.journal ⟨g.pass.weigh ops (weight i, rows i), g.keys,
            g.values ++ [(x i).offset], g.table⟩) := by
        simpa [Journal.append, Progress.journal, Pass.weigh] using h₁
      refine (ih (fun k hk => hf k (List.mem_cons_of_mem _ hk))
        (fun k hk => hrow k (List.mem_cons_of_mem _ hk)) (g :=
          ⟨g.pass.weigh ops (weight i, rows i), g.keys, g.values ++ [(x i).offset], g.table⟩)
        h₂).mono fun w' hw' => ?_
      rwa [List.map_cons, List.foldl_cons, List.map_cons, List.append_cons]

omit [LT β] [DecidableLT β] in
theorem foldl_weigh_run (xs : List (β × List β)) (a : Pass β) :
    (xs.foldl (Pass.weigh ops) a).run = a.run := by
  induction xs generalizing a with
  | nil => rfl
  | cons x rest ih => exact ih _

theorem takeIn_run (a : Pass β) (m : β) (scores : List β) (rows : List (List β)) :
    (a.takeIn ops m scores rows).run = (a.rescaled ops m scores).run :=
  foldl_weigh_run ops _ _

omit [LT β] [DecidableLT β] in
theorem zip_map_range (hlen : xs.length = n) (z : β) (vs : Nat → List β) :
    xs.zip ((List.range n).map vs) = (List.range n).map fun i => (xs.getD i z, vs i) := by
  refine List.ext_getElem (by simp [hlen]) fun i h₁ h₂ => ?_
  have hi : i < xs.length := by
    simp at h₂
    omega
  simp [hi]

theorem contiguousBlock_ok (h : s.At w₀ p d g) (hn : n ≤ kAttnKb) (hq : qVec.row d = .ok qRow)
    (hk : Finds kBlock d n ks kAt) (hv : Finds vBlock d n vs vAt) :
    (contiguousBlock ops p qVec kBlock vBlock n d scale s).Returns fun s' => s'.At w₀ p d
      (g.takeIn ops (rowMax ops ((List.range n).map fun i => ops.score qRow (ks i) scale))
        ((List.range n).map fun i => ops.score qRow (ks i) scale) ((List.range n).map vs)
        ((List.range n).map kAt) ((List.range n).map vAt) []) := by
  have hfit : ([] : List β).length + n ≤ s.scores.length := by
    rw [h.scores]
    simpa using hn
  have hdot : (dotScoreRow ops p qVec kBlock n d scale s.scores 0 s.work).Returns _ :=
    dotScoreRow_ok ops scale hq hk (Stack.begins_nil s.scores) hfit h.work
  rw [contiguousBlock]
  refine Returns.bind hdot ?_
  rintro ⟨blockMax, scores', w₁⟩ ⟨hmax, hlen, hbegins, hw₁⟩
  dsimp only at hmax hlen hbegins hw₁ ⊢
  rw [← hmax]
  have h₁ : (QueryState.mk s.run scores' w₁).At w₀ p d
      { g with keys := g.keys ++ (List.range n).map kAt } := by
    refine ⟨h.run, hlen.trans h.scores, ?_⟩
    simpa [Journal.append, Progress.journal] using hw₁
  have hrescale := rescale_ok ops h₁ hbegins blockMax
  rw [List.nil_append, List.length_map, List.length_range] at hrescale
  refine Returns.bind hrescale fun s₂ h₂ => ?_
  obtain ⟨hat, hws⟩ := h₂
  have hws : s₂.scores.Begins (g.pass.weights ops blockMax
      ((List.range n).map fun i => ops.score qRow (ks i) scale)) := hws
  have hweights : (g.pass.weights ops blockMax
      ((List.range n).map fun i => ops.score qRow (ks i) scale)).length = n := by
    rw [Pass.weights, ops.expRowSum_length, List.length_map, List.length_range]
  have hloop := axpyLoop_ok ops (List.range n)
    (fun w i => do
      let e ← s₂.scores.read i
      axpyRow ops p e (vBlock.advance (i * d : Nat)) d w)
    (fun i => (g.pass.weights ops blockMax
      ((List.range n).map fun i => ops.score qRow (ks i) scale)).getD i ops.zero)
    (fun i => vBlock.advance (i * d : Nat)) vs
    (fun i hi w => by
      have hi := List.mem_range.mp hi
      rw [hws.read (by omega), ok_bind, List.getD_eq_getElem _ _ (by omega)])
    (fun i hi => (hv i (List.mem_range.mp hi)).1) hat.work
  refine Returns.bind hloop fun w₃ h₃ => ?_
  refine returns_pure ⟨?_, hat.scores, ?_⟩
  · exact hat.run.trans (takeIn_run ops _ _ _ _).symm
  · have hoffsets : ((List.range n).map fun i => (vBlock.advance (i * d : Nat)).offset) =
        (List.range n).map vAt := hv.offsets
    rw [← zip_map_range hweights, hoffsets] at h₃
    simpa [Progress.journal, Progress.takeIn, Pass.takeIn] using h₃

end

/-! ### Blocks behind a block table

Behind a table the keys of a unit come in pieces of the block size, and the maximum is taken
piece by piece.  `Ops.Ordered` is what makes the maximum of the maxima that of the whole. -/

/-- What the kernels need of `>`.  A number is minus infinity or above it; of two values one of
which is above the other, every number is above the lower or below the upper one.  Floats are
ordered in this way: a NaN is no number, and is neither above nor below anything. -/
structure Ops.Ordered [LT β] (ops : Ops β) : Prop where
  irrefl : ∀ a : β, ¬a < a
  trans : ∀ {a b c : β}, a < b → b < c → a < c
  between : ∀ {m r x : β}, r = ops.negInf ∨ ops.negInf < r → m < x → m < r ∨ r < x

theorem Ops.ordered [LinearOrder β] (ops : Ops β) : ops.Ordered where
  irrefl := lt_irrefl
  trans := lt_trans
  between := fun {m r} _ _ hmx => (lt_or_ge m r).imp_right fun hr => hr.trans_lt hmx

section

variable [LT β] [DecidableLT β]

/-- The maximum of the scores of a block that is scored `bs` keys at a time. -/
def piecesMax (ops : Ops β) (bs : Nat) (scores : List β) : β :=
  (List.range (blocks scores.length bs)).foldl
    (fun m b => larger (rowMax ops ((scores.drop (b * bs)).take bs)) m) ops.negInf

variable {ops : Ops β} (h : ops.Ordered)

include h

theorem Ops.Ordered.larger_negInf {m : β} (hm : m = ops.negInf ∨ ops.negInf < m) :
    larger ops.negInf m = m := by
  rw [larger, ite_eq_right_iff]
  intro hlt
  rcases hm with rfl | hm
  · rfl
  · exact absurd (h.trans hm hlt) (h.irrefl _)

theorem Ops.Ordered.larger_assoc {r : β} (hr : r = ops.negInf ∨ ops.negInf < r) (x m : β) :
    larger (larger x r) m = larger x (larger r m) := by
  unfold larger
  by_cases hx : r < x <;> by_cases hm : m < r
  · rw [if_pos hx, if_pos hm, if_pos (h.trans hm hx), if_pos hx]
  · rw [if_pos hx, if_neg hm]
  · rw [if_neg hx, if_pos hm, if_neg hx]
  · have hmx : ¬m < x := fun hc => (h.between hr hc).elim hm hx
    rw [if_neg hx, if_neg hm, if_neg hmx]

/-- The maximum of a row is a number. -/
theorem Ops.Ordered.rowMax_number (xs : List β) :
    rowMax ops xs = ops.negInf ∨ ops.negInf < rowMax ops xs := by
  induction xs using List.reverseRecOn with
  | nil => exact Or.inl rfl
  | append_singleton xs x ih =>
      have hsnoc : rowMax ops (xs ++ [x]) = larger x (rowMax ops xs) := List.foldl_concat ..
      rw [hsnoc, larger]
      by_cases hx : rowMax ops xs < x
      · rw [if_pos hx]
        refine Or.inr ?_
        rcases ih with hinf | hlt
        · rwa [hinf] at hx
        · exact h.trans hlt hx
      · rwa [if_neg hx]

/-- **The maximum over two parts of a row.** -/
theorem Ops.Ordered.rowMax_append (xs ys : List β) :
    larger (rowMax ops ys) (rowMax ops xs) = rowMax ops (xs ++ ys) := by
  induction ys using List.reverseRecOn with
  | nil =>
      rw [List.append_nil]
      exact h.larger_negInf (h.rowMax_number xs)
  | append_singleton ys y ih =>
      have hsnoc : ∀ zs : List β, rowMax ops (zs ++ [y]) = larger y (rowMax ops zs) :=
        fun _ => List.foldl_concat ..
      rw [← List.append_assoc, hsnoc, hsnoc, ← ih]
      exact h.larger_assoc (h.rowMax_number ys) y _

/-- **Scoring a block in pieces finds the maximum of the block.** -/
theorem Ops.Ordered.piecesMax_eq {bs : Nat} (hbs : 0 < bs) (scores : List β) :
    piecesMax ops bs scores = rowMax ops scores := by
  have hpieces : ∀ n, (List.range n).foldl
      (fun m b => larger (rowMax ops ((scores.drop (b * bs)).take bs)) m) ops.negInf =
        rowMax ops (scores.take (n * bs)) := by
    intro n
    induction n with
    | zero => simp [rowMax]
    | succ n ih =>
        rw [List.range_succ, List.foldl_append, ih, List.foldl_cons, List.foldl_nil,
          h.rowMax_append, Nat.succ_mul, List.take_add]
  rw [piecesMax, hpieces, List.take_of_length_le (blocks_mul_ge scores.length hbs)]

end

/-- The rows of `n` keys from logical block `lb0` on, and where they are. -/
def FindsPaged (a : PagedDecodeArgs β) (slab : ConstFloats β) (headOff lb0 n : Nat)
    (rows : Nat → List β) (at_ : Nat → Int) : Prop :=
  ∀ b, b * a.blockSize < n → ∃ phys : Int, readAt a.blockTable (lb0 + b : Nat) = .ok phys ∧
    Finds (slab.advance (phys * a.blockStride + headOff)) a.d
      (min a.blockSize (n - b * a.blockSize))
      (fun i => rows (b * a.blockSize + i)) (fun i => at_ (b * a.blockSize + i))

/-- The first `b + 1` blocks are the first `b` and one more. -/
theorem map_range_blocks {γ : Type} (f : Nat → γ) {b bs n : Nat} (h : b * bs < n) :
    (List.range (min ((b + 1) * bs) n)).map f =
      (List.range (min (b * bs) n)).map f ++
        (List.range (min bs (n - b * bs))).map fun i => f (b * bs + i) := by
  have hsum : min ((b + 1) * bs) n = min (b * bs) n + min bs (n - b * bs) := by
    rw [Nat.succ_mul]
    omega
  rw [hsum, List.range_add, List.map_append, List.map_map, Nat.min_eq_left h.le]
  rfl

section

variable [LT β] [DecidableLT β] (ops) {a : PagedDecodeArgs β} {headOff lb0 n : Nat}
  {qVec : ConstFloats β} {qRow : List β} {ks vs : Nat → List β} {kAt vAt : Nat → Int}
  {g : Progress β} {s : QueryState β}

omit [DecidableLT β] [LT β] in
/-- The keys of one block of the table among those of a unit. -/
theorem map_range_piece {γ : Type} (f : Nat → γ) {b bs n : Nat} (h : b * bs < n) :
    (((List.range n).map f).drop (b * bs)).take bs =
      (List.range (min bs (n - b * bs))).map fun i => f (b * bs + i) := by
  refine List.ext_getElem? fun i => ?_
  by_cases hi : i < min bs (n - b * bs)
  · rw [List.getElem?_take_of_lt (by omega), List.getElem?_drop]
    simp [hi, show b * bs + i < n by omega]
  · rw [List.getElem?_eq_none (by simp; omega), List.getElem?_eq_none (by simp; omega)]

/-- The positions of the table that a walk over the blocks looks up. -/
def lookups (lb0 count : Nat) : List Int := (List.range count).map fun b => ((lb0 + b : Nat) : Int)

omit [LT β] [DecidableLT β] in
theorem lookups_succ (lb0 count : Nat) :
    lookups lb0 (count + 1) = lookups lb0 count ++ [((lb0 + count : Nat) : Int)] := by
  rw [lookups, List.range_succ, List.map_append]
  rfl

theorem pagedScores_ok (h : s.At w₀ p a.d g) (hn : n ≤ kAttnKb) (hq : qVec.row a.d = .ok qRow)
    (hk : FindsPaged a a.kSlab headOff lb0 n ks kAt) :
    ((List.range (blocks n a.blockSize)).foldlM
      (fun (x : β × Stack β × Work β) b => do
        let (kTile, w) ← tile a a.kSlab headOff p (lb0 + b) x.2.2
        let nB := min a.blockSize (n - b * a.blockSize)
        let (bmax, scores, w) ←
          dotScoreRow ops p qVec kTile nB a.d a.scale x.2.1 (b * a.blockSize) w
        pure (larger bmax x.1, scores, w)) (ops.negInf, s.scores, s.work)).Returns fun x =>
      x.1 = piecesMax ops a.blockSize
        ((List.range n).map fun i => ops.score qRow (ks i) a.scale) ∧
      x.2.1.length = kAttnKb ∧
      x.2.1.Begins ((List.range (min (blocks n a.blockSize * a.blockSize) n)).map fun i =>
        ops.score qRow (ks i) a.scale) ∧
      w₀.Advances x.2.2 p a.d g.pass.row ⟨g.pass.calls,
        g.keys ++ (List.range (min (blocks n a.blockSize * a.blockSize) n)).map kAt, g.values,
        g.table ++ lookups lb0 (blocks n a.blockSize)⟩ := by
  rw [piecesMax, List.length_map, List.length_range]
  refine Returns.foldlM_range (fun b (x : β × Stack β × Work β) =>
    x.1 = (List.range b).foldl (fun m b => larger (rowMax ops ((((List.range n).map fun i =>
      ops.score qRow (ks i) a.scale).drop (b * a.blockSize)).take a.blockSize)) m) ops.negInf ∧
    x.2.1.length = kAttnKb ∧
    x.2.1.Begins ((List.range (min (b * a.blockSize) n)).map fun i =>
      ops.score qRow (ks i) a.scale) ∧
    w₀.Advances x.2.2 p a.d g.pass.row ⟨g.pass.calls,
      g.keys ++ (List.range (min (b * a.blockSize) n)).map kAt, g.values,
      g.table ++ lookups lb0 b⟩) ?_ ?_
  · rintro b hb ⟨m, scores, w⟩ ⟨hm, hlen, hbegins, hw⟩
    dsimp only at hm hlen hbegins hw ⊢
    have hlt := lt_blocks hb
    obtain ⟨phys, hphys, hfinds⟩ := hk b hlt
    have hlength : ((List.range (min (b * a.blockSize) n)).map fun i =>
        ops.score qRow (ks i) a.scale).length = b * a.blockSize := by
      rw [List.length_map, List.length_range, Nat.min_eq_left hlt.le]
    have hdot := dotScoreRow_ok ops a.scale hq hfinds hbegins
      (by rw [hlength, hlen]; omega) (hw.note { table := [((lb0 + b : Nat) : Int)] })
    rw [hlength] at hdot
    rw [tile, hphys, ok_bind, pure_bind]
    refine Returns.bind hdot ?_
    rintro ⟨bmax, scores', w'⟩ ⟨hbmax, hlen', hbegins', hw'⟩
    dsimp only at hbmax hlen' hbegins' hw' ⊢
    rw [map_range_blocks (fun i => ops.score qRow (ks i) a.scale) hlt,
      map_range_blocks kAt hlt, lookups_succ]
    refine returns_pure ⟨?_, hlen'.trans hlen, hbegins', ?_⟩
    · rw [hbmax, hm, List.range_succ, List.foldl_append, List.foldl_cons, List.foldl_nil,
        map_range_piece _ hlt]
    · simpa [Journal.append] using hw'
  · refine ⟨rfl, h.scores, ?_, ?_⟩
    · simpa using Stack.begins_nil s.scores
    · simpa [lookups, Progress.journal] using h.work

omit [LT β] [DecidableLT β] in
theorem pagedRows_ok {scores : Stack β} {ws : List β} (hws : scores.Begins ws)
    (hlen : ws.length = n) (hv : FindsPaged a a.vSlab headOff lb0 n vs vAt)
    (h : w₀.Advances w p a.d g.pass.row g.journal) :
    ((List.range (blocks n a.blockSize)).foldlM (fun w b => do
      let (vTile, w) ← tile a a.vSlab headOff p (lb0 + b) w
      let nB := min a.blockSize (n - b * a.blockSize)
      (List.range nB).foldlM (fun w i => do
        let e ← scores.read (b * a.blockSize + i)
        axpyRow ops p e (vTile.advance (i * a.d : Nat)) a.d w) w) w).Returns fun w' =>
      w₀.Advances w' p a.d
        (((List.range (min (blocks n a.blockSize * a.blockSize) n)).map fun i =>
          (ws.getD i ops.zero, vs i)).foldl (Pass.weigh ops) g.pass).row
        ⟨(((List.range (min (blocks n a.blockSize * a.blockSize) n)).map fun i =>
          (ws.getD i ops.zero, vs i)).foldl (Pass.weigh ops) g.pass).calls, g.keys,
          g.values ++ (List.range (min (blocks n a.blockSize * a.blockSize) n)).map vAt,
          g.table ++ lookups lb0 (blocks n a.blockSize)⟩ := by
  refine Returns.foldlM_range (fun b w => w₀.Advances w p a.d
    (((List.range (min (b * a.blockSize) n)).map fun i =>
      (ws.getD i ops.zero, vs i)).foldl (Pass.weigh ops) g.pass).row
    ⟨(((List.range (min (b * a.blockSize) n)).map fun i =>
      (ws.getD i ops.zero, vs i)).foldl (Pass.weigh ops) g.pass).calls, g.keys,
      g.values ++ (List.range (min (b * a.blockSize) n)).map vAt, g.table ++ lookups lb0 b⟩) ?_ ?_
  · intro b hb w hw
    have hlt := lt_blocks hb
    obtain ⟨phys, hphys, hfinds⟩ := hv b hlt
    rw [tile, hphys, ok_bind, pure_bind]
    have hloop := axpyLoop_ok ops (List.range (min a.blockSize (n - b * a.blockSize)))
      (fun w i => do
        let e ← scores.read (b * a.blockSize + i)
        axpyRow ops p e ((a.vSlab.advance (phys * a.blockStride + headOff)).advance
          (i * a.d : Nat)) a.d w)
      (fun i => ws.getD (b * a.blockSize + i) ops.zero)
      (fun i => (a.vSlab.advance (phys * a.blockStride + headOff)).advance (i * a.d : Nat))
      (fun i => vs (b * a.blockSize + i))
      (fun i hi w => by
        have hi := List.mem_range.mp hi
        rw [hws.read (by omega), ok_bind, List.getD_eq_getElem _ _ (by omega)])
      (fun i hi => (hfinds i (List.mem_range.mp hi)).1)
      (g := ⟨((List.range (min (b * a.blockSize) n)).map fun i =>
        (ws.getD i ops.zero, vs i)).foldl (Pass.weigh ops) g.pass, g.keys,
        g.values ++ (List.range (min (b * a.blockSize) n)).map vAt, g.table ++ lookups lb0 (b + 1)⟩)
      (by
        rw [lookups_succ]
        simpa [Journal.append, Progress.journal] using
          hw.note { table := [((lb0 + b : Nat) : Int)] })
    refine hloop.mono fun w' hw' => ?_
    have hoffsets : ((List.range (min a.blockSize (n - b * a.blockSize))).map fun i =>
        ((a.vSlab.advance (phys * a.blockStride + headOff)).advance (i * a.d : Nat)).offset) =
        (List.range (min a.blockSize (n - b * a.blockSize))).map fun i =>
          vAt (b * a.blockSize + i) := hfinds.offsets
    rw [map_range_blocks (fun i => (ws.getD i ops.zero, vs i)) hlt, map_range_blocks vAt hlt,
      List.foldl_append]
    rw [hoffsets] at hw'
    simpa using hw'
  · simpa [lookups, Progress.journal] using h

/-- **A unit of keys behind a block table is taken in like a contiguous one.** -/
theorem pagedBlock_ok (h : s.At w₀ p a.d g) (hbs : 0 < a.blockSize) (hn : n ≤ kAttnKb)
    (hq : qVec.row a.d = .ok qRow) (hk : FindsPaged a a.kSlab headOff lb0 n ks kAt)
    (hv : FindsPaged a a.vSlab headOff lb0 n vs vAt) :
    (pagedBlock ops a headOff p qVec lb0 n s).Returns fun s' => s'.At w₀ p a.d
      (g.takeIn ops
        (piecesMax ops a.blockSize ((List.range n).map fun i => ops.score qRow (ks i) a.scale))
        ((List.range n).map fun i => ops.score qRow (ks i) a.scale) ((List.range n).map vs)
        ((List.range n).map kAt) ((List.range n).map vAt)
        (lookups lb0 (blocks n a.blockSize) ++ lookups lb0 (blocks n a.blockSize))) := by
  have hall : min (blocks n a.blockSize * a.blockSize) n = n :=
    Nat.min_eq_right (blocks_mul_ge n hbs)
  have hscores := pagedScores_ok ops h hn hq hk
  rw [hall] at hscores
  rw [pagedBlock]
  refine Returns.bind hscores ?_
  rintro ⟨blockMax, scores', w₁⟩ ⟨hmax, hlen, hbegins, hw₁⟩
  dsimp only at hmax hlen hbegins hw₁ ⊢
  rw [← hmax]
  have h₁ : (QueryState.mk s.run scores' w₁).At w₀ p a.d
      ⟨g.pass, g.keys ++ (List.range n).map kAt, g.values,
        g.table ++ lookups lb0 (blocks n a.blockSize)⟩ := ⟨h.run, hlen, hw₁⟩
  have hrescale := rescale_ok ops h₁ hbegins blockMax
  rw [List.length_map, List.length_range] at hrescale
  refine Returns.bind hrescale fun s₂ h₂ => ?_
  obtain ⟨hat, hws⟩ := h₂
  have hws : s₂.scores.Begins (g.pass.weights ops blockMax
      ((List.range n).map fun i => ops.score qRow (ks i) a.scale)) := hws
  have hweights : (g.pass.weights ops blockMax
      ((List.range n).map fun i => ops.score qRow (ks i) a.scale)).length = n := by
    rw [Pass.weights, ops.expRowSum_length, List.length_map, List.length_range]
  have hrows := pagedRows_ok ops hws hweights hv hat.work
  rw [hall, ← zip_map_range hweights] at hrows
  refine Returns.bind hrows fun w₃ h₃ => ?_
  refine returns_pure ⟨?_, hat.scores, ?_⟩
  · exact hat.run.trans (takeIn_run ops _ _ _ _).symm
  · simpa [Progress.journal, Progress.takeIn, Pass.takeIn] using h₃

end

end Attention

end InferenceEngine
