/-
A batch in one call and its sequences on their own.

Every sequence of a batch has rows of the output to itself, behind those of the sequences in front
of it.  Whichever sub-ranges the units are cut into, the calls that are made for a sequence have
each of its units once, so its rows are written as they would be if it were alone.
-/
import InferenceEngine.Proofs.AttentionEntries
import InferenceEngine.Proofs.PagedAttention

namespace InferenceEngine

open Except Parallel Stores

namespace Attention

variable {α β : Type}

/-! ### Rows

A job does the same wherever its row lies, so the jobs of a sequence can be moved to its place
in a batch. -/

/-- Whether a call begins a row. -/
def Call.isClear : Call β → Bool
  | .clear => true
  | _ => false

/-- How often a row was begun. -/
def Journal.begun (j : Journal β) : Nat := j.calls.countP Call.isClear

/-- Two runs have left the same row, by the same calls and the same reads. -/
def Work.SameRow (w w' : Work β) (p : Int) (d : Nat) : Prop :=
  w.journal p = w'.journal p ∧ ∀ e < d, w.out (p + e) = w'.out (p + e)

/-- Nothing but these cells has been touched. -/
def Work.Within (w : Work β) (cells : Int → Option β) (out : Int) (n : Nat) : Prop :=
  ∀ i, i < out ∨ out + n ≤ i → w.out i = cells i ∧ w.journal i = {}

theorem rowAt_shift (out : Int) (d k r : Nat) :
    rowAt (out + (k * d : Nat)) d r = rowAt out d (k + r) := by
  rw [rowAt, rowAt, Nat.add_mul, Int.natCast_add, Int.add_assoc]

/-- A job for a row that lies behind `k` others. -/
def shift (k : Nat) (x : Nat × Done β) : Nat × Done β := (k + x.1, x.2)

theorem Work.Written.shift {w₀ w : Work β} {out : Int} {d k : Nat} {jobs : List (Nat × Done β)}
    (h : w₀.Written w (out + (k * d : Nat)) d jobs) :
    w₀.Written w out d (jobs.map (Attention.shift k)) where
  row y hy := by
    obtain ⟨x, hx, rfl⟩ := List.mem_map.mp hy
    have hrow := h.row x hx
    rwa [rowAt_shift] at hrow
  journal y hy := by
    obtain ⟨x, hx, rfl⟩ := List.mem_map.mp hy
    have hjournal := h.journal x hx
    rwa [rowAt_shift] at hjournal
  outOther i hi := by
    refine h.outOther i fun x hx => ?_
    rw [rowAt_shift]
    exact hi _ (List.mem_map_of_mem hx)
  journalOther q hq := by
    refine h.journalOther q fun x hx => ?_
    rw [rowAt_shift]
    exact hq _ (List.mem_map_of_mem hx)

/-- A job done in two runs. -/
theorem Work.Written.sameRow {w₀ w w' : Work β} {out : Int} {d : Nat}
    {jobs jobs' : List (Nat × Done β)} (h : w₀.Written w out d jobs)
    (h' : w₀.Written w' out d jobs') {x : Nat × Done β} (hx : x ∈ jobs) (hx' : x ∈ jobs') :
    w.SameRow w' (rowAt out d x.1) d := by
  refine ⟨by rw [h.journal x hx, h'.journal x hx'], fun e he => ?_⟩
  rw [(h.row x hx).cells e he, (h'.row x hx').cells e he]

/-- The scores of a query are taken in after its row has been begun, once. -/
theorem Query.begun [LT β] [DecidableLT β] (x : Query β) (ops : Ops β) (top : List β → β)
    (d : Nat) (kAt vAt : Nat → Int) (table : List Int) :
    (x.done ops top d kAt vAt table).journal.begun = 1 := by
  have hweigh : ∀ (xs : List (β × List β)) (a : Pass β),
      (xs.foldl (Pass.weigh ops) a).calls.countP Call.isClear =
        a.calls.countP Call.isClear := by
    intro xs
    induction xs with
    | nil => intro a; rfl
    | cons y rest ih =>
        intro a
        rw [List.foldl_cons, ih]
        simp [Pass.weigh, Call.isClear]
  have htake : ∀ (a : Pass β) (m : β) (scores : List β) (rows : List (List β)),
      (a.takeIn ops m scores rows).calls.countP Call.isClear =
        a.calls.countP Call.isClear := by
    intro a m scores rows
    rw [Pass.takeIn, hweigh]
    simp [Pass.rescaled, Call.isClear]
  have hpass : ∀ kbs, (x.pass ops top d kbs).calls.countP Call.isClear = 1 := by
    intro kbs
    induction kbs using List.reverseRecOn with
    | nil => rfl
    | append_singleton kbs kb ih =>
        rw [Query.pass, List.foldl_append, List.foldl_cons, List.foldl_nil, htake]
        exact ih
  show (x.result ops top d).calls.countP Call.isClear = 1
  simp [Query.result, Pass.finish, Call.isClear, hpass]

/-! ### Batches

The calls of a batch have the units of all sequences, in some order.  Units do not meet, so each
sequence is left what its own units leave it. -/

/-- A batch is laid out in rows: sequence `b` has `rows b` of them, behind the first `first b`,
and the variant serves its units by jobs on these. -/
structure Serves (args : Nat → α) (fn : UnitsFn α (Work β)) (out : Int) (d numSeqs : Nat)
    (first rows units : Nat → Nat) (own : Nat → Nat → List (Nat × Done β)) : Prop where
  pos : 0 < d
  zero : first 0 = 0
  succ : ∀ b < numSeqs, first (b + 1) = first b + rows b
  perm : ∀ b < numSeqs,
    (((List.range (units b)).flatMap (own b)).map Prod.fst).Perm (List.range (rows b))
  begun : ∀ b < numSeqs, ∀ u, ∀ x ∈ own b u, x.2.journal.begun = 1
  spec : ∀ b < numSeqs, ∀ (lo hi : Nat) (w : Work β), hi ≤ units b →
    (∀ r < rows b, w.Allocated (rowAt (out + (first b * d : Nat)) d r) d) →
    (fn (args b) lo hi w).Returns fun w' =>
      w.Written w' (out + (first b * d : Nat)) d ((span lo hi).flatMap (own b))

namespace Serves

variable {args : Nat → α} {fn : UnitsFn α (Work β)} {out : Int} {d numSeqs : Nat}
  {first rows units : Nat → Nat} {own : Nat → Nat → List (Nat × Done β)}

/-- The jobs of a unit, numbered through the batch. -/
def jobs (first : Nat → Nat) (own : Nat → Nat → List (Nat × Done β)) (x : Nat × Nat) :
    List (Nat × Done β) :=
  (own x.1 x.2).map (shift (first x.1))

/-- The units of some sequences. -/
def unitsOf (units : Nat → Nat) (bs : List Nat) : List (Nat × Nat) :=
  bs.flatMap fun b => (List.range (units b)).map fun u => (b, u)

theorem first_le (h : Serves args fn out d numSeqs first rows units own) :
    ∀ n ≤ numSeqs, ∀ b < n, first b + rows b ≤ first n := by
  intro n
  induction n with
  | zero => intro _ b hb; omega
  | succ n ih =>
      intro hn b hb
      have hsucc := h.succ n (by omega)
      by_cases hbn : b = n
      · rw [hbn]
        omega
      · have := ih (by omega) b (by omega)
        omega

/-- The rows of the sequences are the rows of the batch. -/
theorem rows_perm (h : Serves args fn out d numSeqs first rows units own) :
    ∀ n ≤ numSeqs, (((unitsOf units (List.range n)).flatMap (jobs first own)).map Prod.fst).Perm
      (List.range (first n)) := by
  intro n
  induction n with
  | zero =>
      intro _
      rw [h.zero]
      exact .nil
  | succ n ih =>
      intro hn
      have hlast : ((unitsOf units [n]).flatMap (jobs first own)).map Prod.fst =
          (((List.range (units n)).flatMap (own n)).map Prod.fst).map (first n + ·) := by
        rw [unitsOf, List.flatMap_singleton, List.flatMap_map, List.map_map, List.map_flatMap,
          List.map_flatMap]
        refine List.flatMap_congr fun u _ => ?_
        rw [jobs, List.map_map]
        rfl
      have happend : unitsOf units (List.range (n + 1)) =
          unitsOf units (List.range n) ++ unitsOf units [n] := by
        rw [List.range_succ, unitsOf, List.flatMap_append]
        rfl
      rw [happend, List.flatMap_append, List.map_append, hlast, h.succ n (by omega),
        List.range_add]
      exact (ih (by omega)).append ((h.perm n (by omega)).map _)

theorem nodup (h : Serves args fn out d numSeqs first rows units own) {bs : List Nat}
    (hbs : bs.Sublist (List.range numSeqs)) :
    (((unitsOf units bs).flatMap (jobs first own)).map Prod.fst).Nodup := by
  refine ((h.rows_perm numSeqs le_rfl).nodup_iff.mpr List.nodup_range).sublist ?_
  exact ((hbs.flatMap _).flatMap _).map _

/-- **Calls that have every unit of some sequences once do their jobs.** -/
theorem calls_ok (h : Serves args fn out d numSeqs first rows units own) {bs : List Nat}
    (hbs : bs.Sublist (List.range numSeqs)) {calls : List UnitsCall}
    (hunits : (callUnits calls).Perm (unitsOf units bs))
    (hbounds : ∀ c ∈ calls, c.1 < numSeqs ∧ c.2.2 ≤ units c.1) {w : Work β}
    (halloc : ∀ r < first numSeqs, w.Allocated (rowAt out d r) d) :
    (calls.foldlM (UnitsCall.run args fn) w).Returns fun w' =>
      w.Written w' out d ((unitsOf units bs).flatMap (jobs first own)) := by
  have hjobs : calls.flatMap (fun c => (span c.2.1 c.2.2).flatMap fun u =>
      jobs first own (c.1, u)) = (callUnits calls).flatMap (jobs first own) := by
    rw [callUnits, List.flatMap_assoc]
    refine List.flatMap_congr fun c _ => ?_
    rw [List.flatMap_map]
  have hperm : ((callUnits calls).flatMap (jobs first own)).Perm
      ((unitsOf units bs).flatMap (jobs first own)) := hunits.flatMap_right _
  have hrange : ∀ y ∈ (unitsOf units bs).flatMap (jobs first own), y.1 < first numSeqs := by
    intro y hy
    have hall : y.1 ∈ ((unitsOf units (List.range numSeqs)).flatMap (jobs first own)).map
        Prod.fst :=
      (((hbs.flatMap _).flatMap _).map _).subset (List.mem_map_of_mem hy)
    exact List.mem_range.mp ((h.rows_perm numSeqs le_rfl).mem_iff.mp hall)
  refine (jobsLoop_ok (fun w : Work β => w)
    (fun w => ∀ r < first numSeqs, w.Allocated (rowAt out d r) d)
    (fun c : UnitsCall => (span c.2.1 c.2.2).flatMap fun u => jobs first own (c.1, u)) h.pos ?_ ?_
    halloc ?_ : (calls.foldlM (UnitsCall.run args fn) w).Returns fun w' =>
      (∀ r < first numSeqs, w'.Allocated (rowAt out d r) d) ∧ w.Written w' out d _).mono ?_
  · rw [hjobs]
    exact ((hperm.map _).nodup_iff).mpr (h.nodup hbs)
  · intro c hc w hw _
    obtain ⟨hb, hhi⟩ := hbounds c hc
    refine (h.spec c.1 hb c.2.1 c.2.2 w hhi fun r hr => ?_).mono ?_
    · rw [rowAt_shift]
      have := h.first_le numSeqs le_rfl c.1 hb
      exact hw _ (by omega)
    · intro w' hw'
      have hshift := hw'.shift
      rw [List.map_flatMap] at hshift
      exact ⟨fun r hr => hshift.allocated (hw r hr), hshift⟩
  · rw [hjobs]
    intro y hy
    exact halloc _ (hrange y (hperm.mem_iff.mp hy))
  · rintro w' ⟨-, hwritten⟩
    rw [hjobs] at hwritten
    exact hwritten.perm hperm

/-- The calls of a parallel loop over the units of one sequence. -/
theorem plain_ok (h : Serves args fn out d numSeqs first rows units own) {b : Nat}
    (hb : b < numSeqs) (schedule : Schedule) {w : Work β}
    (halloc : ∀ r < first numSeqs, w.Allocated (rowAt out d r) d) :
    ((plainCalls schedule (units b) b).foldlM (UnitsCall.run args fn) w).Returns fun w' =>
      w.Written w' out d ((unitsOf units [b]).flatMap (jobs first own)) := by
  refine h.calls_ok (List.singleton_sublist.mpr (List.mem_range.mpr hb)) ?_ ?_ halloc
  · rw [unitsOf, List.flatMap_singleton]
    exact plainCalls_units schedule _ b
  · intro c hc
    obtain ⟨x, hx, rfl⟩ := List.mem_map.mp hc
    exact ⟨hb, cut_le schedule le_rfl hx⟩

/-- **The rows of a sequence are those it has on its own**, every row has been begun once, and
nothing lies outside. -/
theorem batch_alone (h : Serves args fn out d numSeqs first rows units own)
    {cells : Int → Option β} {w : Work β}
    (hw : (Work.start cells).Written w out d
      ((unitsOf units (List.range numSeqs)).flatMap (jobs first own))) :
    (∀ b < numSeqs, ∀ w' : Work β,
      (Work.start cells).Written w' out d ((unitsOf units [b]).flatMap (jobs first own)) →
      ∀ r < rows b, w.SameRow w' (rowAt (out + (first b * d : Nat)) d r) d ∧
        (w.journal (rowAt (out + (first b * d : Nat)) d r)).begun = 1) ∧
    w.Within cells out (first numSeqs * d) := by
  refine ⟨fun b hb w' hw' r hr => ?_, fun i hi => ?_⟩
  · have hmem : r ∈ ((List.range (units b)).flatMap (own b)).map Prod.fst :=
      (h.perm b hb).mem_iff.mpr (List.mem_range.mpr hr)
    obtain ⟨x, hx, rfl⟩ := List.mem_map.mp hmem
    obtain ⟨u, hu, hx⟩ := List.mem_flatMap.mp hx
    have hjob : ∀ bs : List Nat, b ∈ bs →
        shift (first b) x ∈ (unitsOf units bs).flatMap (jobs first own) := by
      intro bs hbs
      exact List.mem_flatMap.mpr ⟨(b, u), List.mem_flatMap.mpr ⟨b, hbs, List.mem_map_of_mem hu⟩,
        List.mem_map_of_mem hx⟩
    have hall := hjob (List.range numSeqs) (List.mem_range.mpr hb)
    rw [rowAt_shift]
    refine ⟨hw.sameRow hw' hall (hjob [b] (by simp)), ?_⟩
    have hjournal := hw.journal _ hall
    show Journal.begun (w.journal (rowAt out d (shift (first b) x).1)) = 1
    rw [hjournal, Work.start, Journal.empty_append]
    exact h.begun b hb u x hx
  · have hout : ∀ y ∈ (unitsOf units (List.range numSeqs)).flatMap (jobs first own),
        ¬(rowAt out d y.1 ≤ i ∧ i < rowAt out d y.1 + d) := by
      intro y hy hc
      have hlt : y.1 < first numSeqs := List.mem_range.mp
        ((h.rows_perm numSeqs le_rfl).mem_iff.mp (List.mem_map_of_mem hy))
      have hmul : (y.1 + 1) * d ≤ first numSeqs * d := Nat.mul_le_mul_right d hlt
      rw [Nat.succ_mul] at hmul
      rw [rowAt] at hc
      omega
    refine ⟨hw.outOther i hout, hw.journalOther i fun y hy hc => hout y hy ?_⟩
    have := h.pos
    omega

end Serves

/-! ### Ragged prefill

The rows of a sequence are those between its two prefix sums. -/

namespace Ragged

/-- What a caller promises. -/
structure Legal (r : Ragged β) : Prop where
  pos : 0 < r.d
  start : r.cu 0 = 0
  mono : ∀ b < r.numSeqs, r.cu b ≤ r.cu (b + 1)
  length : ∀ b < r.numSeqs, r.tDim b ≤ r.lDim b
  kvHeads : 0 < r.kvHeads
  divides : r.kvHeads ∣ r.heads
  q : r.q.Holds (r.cu r.numSeqs * r.heads * r.d)
  k : ∀ b < r.numSeqs, (r.k b).Holds (r.kvHeads * r.lDim b * r.d)
  v : ∀ b < r.numSeqs, (r.v b).Holds (r.kvHeads * r.lDim b * r.d)

variable {r : Ragged β}

theorem Legal.cu_le (hr : r.Legal) : ∀ n ≤ r.numSeqs, ∀ b ≤ n, r.cu b ≤ r.cu n := by
  intro n
  induction n with
  | zero =>
      intro _ b hb
      rw [Nat.le_zero.mp hb]
  | succ n ih =>
      intro hn b hb
      by_cases hbn : b = n + 1
      · rw [hbn]
      · exact (ih (by omega) b (by omega)).trans (hr.mono n (by omega))

theorem args_legal (hr : r.Legal) {b : Nat} (hb : b < r.numSeqs) :
    (r.args b).Legal r.kvHeads where
  d := hr.pos
  past := rfl
  length := hr.length b hb
  qblocks := rfl
  heads h hh := by
    have hh : h < r.heads := hh
    obtain ⟨g, hg⟩ := hr.divides
    show h / (r.heads / r.kvHeads) < r.kvHeads
    rw [hg, Nat.mul_div_cancel_left g hr.kvHeads]
    refine Nat.div_lt_of_lt_mul ?_
    rwa [Nat.mul_comm, ← hg]
  q := by
    intro i hi
    have hi : i < r.tDim b * r.heads * r.d := hi
    have hle := hr.cu_le r.numSeqs le_rfl (b + 1) hb
    have hsum : r.cu b + r.tDim b = r.cu (b + 1) := Nat.add_sub_cancel' (hr.mono b hb)
    have hmul := Nat.mul_le_mul_right r.d (Nat.mul_le_mul_right r.heads hle)
    rw [← hsum, Nat.add_mul, Nat.add_mul] at hmul
    have hsome := hr.q (r.cu b * r.heads * r.d + i) (by omega)
    rwa [Int.natCast_add, ← Int.add_assoc] at hsome
  k := hr.k b hb
  v := hr.v b hb

/-- A ragged batch is served by the units of prefill. -/
theorem serves [LT β] [DecidableLT β] (ops : Ops β) (hr : r.Legal) :
    Serves r.args (prefillUnitsImpl ops) r.out r.d r.numSeqs (fun b => r.cu b * r.heads)
      (fun b => r.tDim b * r.heads) r.units
      (fun b u => ((r.args b).unitRows u).map ((r.args b).job ops)) where
  pos := hr.pos
  zero := by rw [hr.start, Nat.zero_mul]
  succ b hb := by rw [← Nat.add_mul, tDim, Nat.add_sub_cancel' (hr.mono b hb)]
  perm b hb := by
    have hperm := (r.args b).unitRows_perm rfl
    rw [List.map_flatMap] at hperm ⊢
    simp only [List.map_map]
    exact hperm
  begun b _ u x hx := by
    obtain ⟨y, -, rfl⟩ := List.mem_map.mp hx
    exact Query.begun _ ops _ _ _ _ _
  spec b hb lo hi w hhi halloc :=
    prefillUnitsImpl_ok ops (args_legal hr hb) lo hhi halloc

theorem calls_bounds {schedule : Schedule} {c : UnitsCall} (hc : c ∈ r.calls schedule) :
    c.1 < r.numSeqs ∧ c.2.2 ≤ r.units c.1 := by
  obtain ⟨chunk, -, hc⟩ := List.mem_flatMap.mp hc
  obtain ⟨b, hb, hc⟩ := List.mem_flatMap.mp hc
  rw [turnCalls] at hc
  by_cases hlt : max chunk.1.toNat (r.base b) < min chunk.2.toNat (r.base b + r.units b)
  · rw [if_pos hlt, List.mem_singleton] at hc
    rw [hc]
    refine ⟨List.mem_range.mp hb, ?_⟩
    show min chunk.2.toNat (r.base b + r.units b) - r.base b ≤ r.units b
    omega
  · rw [if_neg hlt] at hc
    exact absurd hc List.not_mem_nil

/-- The batch does with each sequence what is done with the sequence alone: the calls it makes, and
the rows they leave. -/
structure AsAlone [LT β] [DecidableLT β] (r : Ragged β) (ops : Ops β)
    (schedule schedule' : Schedule) (cells : Int → Option β) : Prop where
  calls : ∃ calls, Makes r.args (r.varlen schedule) calls ∧ (callUnits calls).Perm r.allUnits
  own : ∀ b, ∃ calls, Makes r.args (r.alone b schedule') calls ∧
    (callUnits calls).Perm (r.ownUnits b)
  rows : ∃ w, r.varlen schedule (Work β) (prefillUnitsImpl ops) (Work.start cells) = .ok w ∧
    (∀ b < r.numSeqs, ∃ w',
      r.alone b schedule' (Work β) (prefillUnitsImpl ops) (Work.start cells) = .ok w' ∧
      ∀ row < r.tDim b * r.heads,
        w.SameRow w' (rowAt (r.args b).out r.d row) r.d ∧
        (w.journal (rowAt (r.args b).out r.d row)).begun = 1) ∧
    w.Within cells r.out (r.cu r.numSeqs * r.heads * r.d)

theorem Legal.asAlone [LT β] [DecidableLT β] (ops : Ops β) (hr : r.Legal)
    (schedule schedule' : Schedule) {cells : Int → Option β}
    (halloc : ∀ row < r.cu r.numSeqs * r.heads,
      (Work.start cells).Allocated (rowAt r.out r.d row) r.d) :
    r.AsAlone ops schedule schedule' cells := by
  have hserves := serves ops hr
  refine ⟨⟨_, varlen_makes r schedule, r.calls_units schedule⟩,
    fun b => ⟨_, alone_makes r b schedule', plainCalls_units schedule' _ b⟩, ?_⟩
  have hbatch := hserves.calls_ok (List.Sublist.refl _) (r.calls_units schedule)
    (fun c hc => calls_bounds hc) halloc
  rw [← varlen_makes r schedule] at hbatch
  obtain ⟨w, hw, hwritten⟩ := hbatch
  obtain ⟨hrows, hwithin⟩ := hserves.batch_alone hwritten
  refine ⟨w, hw, fun b hb => ?_, hwithin⟩
  have hown := hserves.plain_ok hb schedule' halloc
  rw [← alone_makes r b schedule'] at hown
  obtain ⟨w', hw', hwritten'⟩ := hown
  exact ⟨w', hw', hrows b hb w' hwritten'⟩

/-- **A ragged batch is its sequences.**  However the units are cut up, the batch makes calls for
each unit of each sequence once, with the arguments that the sequence alone is served with; and
each of its rows is begun once and is left as the sequence alone leaves it, nothing else being
touched. -/
theorem varlen_as_alone [LT β] [DecidableLT β] (ops : Ops β) (hr : r.Legal)
    (schedule schedule' : Schedule) {cells : Int → Option β}
    (halloc : ∀ row < r.cu r.numSeqs * r.heads,
      (Work.start cells).Allocated (rowAt r.out r.d row) r.d) :
    (∃ calls, Makes r.args (r.varlen schedule) calls ∧ (callUnits calls).Perm r.allUnits) ∧
    (∀ b, ∃ calls, Makes r.args (r.alone b schedule') calls ∧
      (callUnits calls).Perm (r.ownUnits b)) ∧
    ∃ w, r.varlen schedule (Work β) (prefillUnitsImpl ops) (Work.start cells) = .ok w ∧
      (∀ b < r.numSeqs, ∃ w',
        r.alone b schedule' (Work β) (prefillUnitsImpl ops) (Work.start cells) = .ok w' ∧
        ∀ row < r.tDim b * r.heads,
          w.SameRow w' (rowAt (r.args b).out r.d row) r.d ∧
          (w.journal (rowAt (r.args b).out r.d row)).begun = 1) ∧
      w.Within cells r.out (r.cu r.numSeqs * r.heads * r.d) :=
  have h := hr.asAlone ops schedule schedule' halloc
  ⟨h.calls, h.own, h.rows⟩

/-- Two sequences of one and two queries with as many earlier keys. -/
def twoSequences : Ragged Int where
  q := ⟨fun i => some i, 0⟩
  cu b := b * (b + 1) / 2
  k b := ⟨fun i => some (i + b), 0⟩
  v b := ⟨fun i => some (i * i + b), 0⟩
  lDim b := 2 * (b + 1)
  out := 0
  numSeqs := 2
  heads := 2
  kvHeads := 1
  d := 1
  scale := 1

theorem twoSequences_legal : twoSequences.Legal where
  pos := by decide
  start := by decide
  mono := by decide
  length := by decide
  kvHeads := by decide
  divides := by decide
  q := fun _ _ => rfl
  k := fun _ _ _ _ => rfl
  v := fun _ _ _ _ => rfl

theorem varlen_twoSequences :
    (∃ calls, Makes twoSequences.args (twoSequences.varlen Schedule.inOrder) calls ∧
      (callUnits calls).Perm twoSequences.allUnits) ∧
    (∀ b, ∃ calls, Makes twoSequences.args (twoSequences.alone b Schedule.inOrder) calls ∧
      (callUnits calls).Perm (twoSequences.ownUnits b)) ∧
    ∃ w, twoSequences.varlen Schedule.inOrder (Work Int)
        (prefillUnitsImpl (scalarOps integerFloats)) (Work.start fun _ => some 7) = .ok w ∧
      (∀ b < 2, ∃ w',
        twoSequences.alone b Schedule.inOrder (Work Int)
          (prefillUnitsImpl (scalarOps integerFloats)) (Work.start fun _ => some 7) = .ok w' ∧
        ∀ row < twoSequences.tDim b * 2,
          w.SameRow w' (rowAt (twoSequences.args b).out 1 row) 1 ∧
          (w.journal (rowAt (twoSequences.args b).out 1 row)).begun = 1) ∧
      w.Within (fun _ => some 7) 0 (twoSequences.cu 2 * 2 * 1) :=
  varlen_as_alone (scalarOps integerFloats) twoSequences_legal Schedule.inOrder Schedule.inOrder
    fun _ _ _ _ => rfl

end Ragged

/-! ### Batched paged decode

Each sequence has one row of queries, and a table of its own. -/

namespace PagedBatch

/-- What a caller promises. -/
structure Legal (r : PagedBatch β) : Prop where
  pos : 0 < r.d
  blockSize : 0 < r.blockSize
  blocks : r.blockSize ∣ kAttnKb
  kvHeads : 0 < r.kvHeads
  divides : r.kvHeads ∣ r.heads
  table : ∀ b < r.numSeqs, Stores.blocks (r.length b) r.blockSize ≤ (r.table b).length
  q : r.q.Holds (r.numSeqs * r.heads * r.d)
  k : ∀ b < r.numSeqs, ∀ hk < r.kvHeads, ∀ s < r.length b,
    (r.kSlab.advance ((r.args b).slot hk s)).Holds r.d
  v : ∀ b < r.numSeqs, ∀ hk < r.kvHeads, ∀ s < r.length b,
    (r.vSlab.advance ((r.args b).slot hk s)).Holds r.d

variable {r : PagedBatch β}

theorem Legal.heads_eq (hr : r.Legal) (b : Nat) : r.kvHeads * (r.args b).group = r.heads :=
  Nat.mul_div_cancel' hr.divides

theorem args_legal (hr : r.Legal) {b : Nat} (hb : b < r.numSeqs) :
    (r.args b).Legal r.kvHeads where
  d := hr.pos
  blockSize := hr.blockSize
  divides := hr.blocks
  table := hr.table b hb
  q := by
    intro i hi
    rw [hr.heads_eq] at hi
    have hi : i < r.heads * r.d := hi
    have hmul : (b + 1) * (r.heads * r.d) ≤ r.numSeqs * (r.heads * r.d) :=
      Nat.mul_le_mul_right _ hb
    rw [Nat.succ_mul] at hmul
    have hsome := hr.q (b * (r.heads * r.d) + i) (by rw [Nat.mul_assoc]; omega)
    rwa [Int.natCast_add, ← Int.add_assoc] at hsome
  k := hr.k b hb
  v := hr.v b hb

/-- A batch of sequences in blocks is served by the units of paged decode. -/
theorem serves [LT β] [DecidableLT β] (ops : Ops β) (hr : r.Legal) :
    Serves r.args (pagedDecodeUnitsImpl ops) r.out r.d r.numSeqs (fun b => b * r.heads)
      (fun _ => r.heads) (fun _ => r.kvHeads)
      (fun b hk => (List.range (r.args b).group).map fun g =>
        (hk * (r.args b).group + g, (r.args b).done ops hk g)) where
  pos := hr.pos
  zero := Nat.zero_mul _
  succ b _ := Nat.succ_mul b _
  perm b _ := by
    have hrows := groupRows_eq r.kvHeads (r.args b).group
    rw [hr.heads_eq] at hrows
    rw [List.map_flatMap]
    simp only [List.map_map]
    exact List.Perm.of_eq hrows
  begun b _ u x hx := by
    obtain ⟨y, -, rfl⟩ := List.mem_map.mp hx
    exact Query.begun _ ops _ _ _ _ _
  spec b hb lo hi w hhi halloc := by
    have hout : r.out + (b * r.heads * r.d : Nat) = (r.args b).out := by
      rw [Nat.mul_assoc]
      rfl
    rw [hout] at halloc ⊢
    rw [← hr.heads_eq b] at halloc
    exact pagedDecodeUnitsImpl_ok ops (args_legal hr hb) lo hhi halloc

theorem calls_bounds {schedule : Schedule} {c : UnitsCall} (hc : c ∈ r.calls schedule) :
    c.1 < r.numSeqs ∧ c.2.2 ≤ r.kvHeads := by
  obtain ⟨chunk, hchunk, hc⟩ := List.mem_flatMap.mp hc
  obtain ⟨u, hu, rfl⟩ := List.mem_map.mp hc
  have hu := mem_span.mp hu
  have hle := cut_le schedule le_rfl hchunk
  have hlt : u < r.kvHeads * r.numSeqs := by
    rw [Nat.mul_comm]
    omega
  have hpos : 0 < r.kvHeads := Nat.pos_of_mul_pos_right (by omega : 0 < r.kvHeads * r.numSeqs)
  exact ⟨Nat.div_lt_of_lt_mul hlt, Nat.mod_lt u hpos⟩

/-- The batch does with each sequence what is done with the sequence alone. -/
structure AsAlone [LT β] [DecidableLT β] (r : PagedBatch β) (ops : Ops β)
    (schedule schedule' : Schedule) (cells : Int → Option β) : Prop where
  calls : ∃ calls, Makes r.args (r.batched schedule) calls ∧ (callUnits calls).Perm r.allUnits
  own : ∀ b, ∃ calls, Makes r.args (r.alone b schedule') calls ∧
    (callUnits calls).Perm (r.ownUnits b)
  rows : ∃ w, r.batched schedule (Work β) (pagedDecodeUnitsImpl ops) (Work.start cells) = .ok w ∧
    (∀ b < r.numSeqs, ∃ w',
      r.alone b schedule' (Work β) (pagedDecodeUnitsImpl ops) (Work.start cells) = .ok w' ∧
      ∀ row < r.heads,
        w.SameRow w' (rowAt (r.args b).out r.d row) r.d ∧
        (w.journal (rowAt (r.args b).out r.d row)).begun = 1) ∧
    w.Within cells r.out (r.numSeqs * r.heads * r.d)

theorem Legal.asAlone [LT β] [DecidableLT β] (ops : Ops β) (hr : r.Legal)
    (schedule schedule' : Schedule) {cells : Int → Option β}
    (halloc : ∀ row < r.numSeqs * r.heads,
      (Work.start cells).Allocated (rowAt r.out r.d row) r.d) :
    r.AsAlone ops schedule schedule' cells := by
  have hserves := serves ops hr
  have hmakes := batched_makes hr.blockSize hr.blocks schedule
  have hmakes' := fun b => alone_makes hr.blockSize hr.blocks b schedule'
  refine ⟨⟨_, hmakes, r.calls_units schedule⟩,
    fun b => ⟨_, hmakes' b, plainCalls_units schedule' _ b⟩, ?_⟩
  have hbatch := hserves.calls_ok (List.Sublist.refl _) (r.calls_units schedule)
    (fun c hc => calls_bounds hc) halloc
  rw [← hmakes] at hbatch
  obtain ⟨w, hw, hwritten⟩ := hbatch
  obtain ⟨hrows, hwithin⟩ := hserves.batch_alone hwritten
  refine ⟨w, hw, fun b hb => ?_, hwithin⟩
  have hown := hserves.plain_ok hb schedule' halloc
  rw [← hmakes' b] at hown
  obtain ⟨w', hw', hwritten'⟩ := hown
  have hout : r.out + (b * r.heads * r.d : Nat) = (r.args b).out := by
    rw [Nat.mul_assoc]
    rfl
  have hrows := hrows b hb w' hwritten'
  rw [hout] at hrows
  exact ⟨w', hw', hrows⟩

/-- **A batch in blocks is its sequences.**  However the units are cut up, the batch makes a call
for each kv head of each sequence, with the arguments that the sequence alone is served with; and
each of its rows is begun once and is left as the sequence alone leaves it, nothing else being
touched. -/
theorem batched_as_alone [LT β] [DecidableLT β] (ops : Ops β) (hr : r.Legal)
    (schedule schedule' : Schedule) {cells : Int → Option β}
    (halloc : ∀ row < r.numSeqs * r.heads,
      (Work.start cells).Allocated (rowAt r.out r.d row) r.d) :
    (∃ calls, Makes r.args (r.batched schedule) calls ∧ (callUnits calls).Perm r.allUnits) ∧
    (∀ b, ∃ calls, Makes r.args (r.alone b schedule') calls ∧
      (callUnits calls).Perm (r.ownUnits b)) ∧
    ∃ w, r.batched schedule (Work β) (pagedDecodeUnitsImpl ops) (Work.start cells) = .ok w ∧
      (∀ b < r.numSeqs, ∃ w',
        r.alone b schedule' (Work β) (pagedDecodeUnitsImpl ops) (Work.start cells) = .ok w' ∧
        ∀ row < r.heads,
          w.SameRow w' (rowAt (r.args b).out r.d row) r.d ∧
          (w.journal (rowAt (r.args b).out r.d row)).begun = 1) ∧
      w.Within cells r.out (r.numSeqs * r.heads * r.d) :=
  have h := hr.asAlone ops schedule schedule' halloc
  ⟨h.calls, h.own, h.rows⟩

/-- Two sequences of three and one keys in blocks of two. -/
def twoTables : PagedBatch Int where
  q := ⟨fun i => some i, 0⟩
  kSlab := ⟨fun i => some i, 0⟩
  vSlab := ⟨fun i => some (i * i), 0⟩
  table b := if b = 0 then [2, 0] else [1]
  length b := if b = 0 then 3 else 1
  out := 0
  numSeqs := 2
  heads := 2
  kvHeads := 1
  d := 1
  blockSize := 2
  blockStride := 2
  scale := 1

theorem twoTables_legal : twoTables.Legal where
  pos := by decide
  blockSize := by decide
  blocks := by decide
  kvHeads := by decide
  divides := by decide
  table := by decide
  q := fun _ _ => rfl
  k := fun _ _ _ _ _ _ _ _ => rfl
  v := fun _ _ _ _ _ _ _ _ => rfl

theorem batched_twoTables :
    (∃ calls, Makes twoTables.args (twoTables.batched Schedule.inOrder) calls ∧
      (callUnits calls).Perm twoTables.allUnits) ∧
    (∀ b, ∃ calls, Makes twoTables.args (twoTables.alone b Schedule.inOrder) calls ∧
      (callUnits calls).Perm (twoTables.ownUnits b)) ∧
    ∃ w, twoTables.batched Schedule.inOrder (Work Int)
        (pagedDecodeUnitsImpl (scalarOps integerFloats)) (Work.start fun _ => some 7) = .ok w ∧
      (∀ b < 2, ∃ w',
        twoTables.alone b Schedule.inOrder (Work Int)
          (pagedDecodeUnitsImpl (scalarOps integerFloats)) (Work.start fun _ => some 7) = .ok w' ∧
        ∀ row < 2,
          w.SameRow w' (rowAt (twoTables.args b).out 1 row) 1 ∧
          (w.journal (rowAt (twoTables.args b).out 1 row)).begun = 1) ∧
      w.Within (fun _ => some 7) 0 (2 * 2 * 1) :=
  batched_as_alone (scalarOps integerFloats) twoTables_legal Schedule.inOrder Schedule.inOrder
    fun _ _ _ _ => rfl

end PagedBatch

/-! ### Both walks

The ragged prefill finds the sequence of a unit by prefix sums, the batched decode by a division.
What they promise is the same. -/

/-- **The two ragged walks.**  However the flat unit space is cut into chunks, each unit of each
sequence is executed once, with the arguments of the sequence alone, each row is written once, and
nothing else is. -/
theorem ragged_walks [LT β] [DecidableLT β] (ops : Ops β) (schedule schedule' : Schedule)
    (cells : Int → Option β) :
    (∀ r : Ragged β, r.Legal →
      (∀ row < r.cu r.numSeqs * r.heads,
        (Work.start cells).Allocated (rowAt r.out r.d row) r.d) →
      r.AsAlone ops schedule schedule' cells) ∧
    ∀ r : PagedBatch β, r.Legal →
      (∀ row < r.numSeqs * r.heads,
        (Work.start cells).Allocated (rowAt r.out r.d row) r.d) →
      r.AsAlone ops schedule schedule' cells :=
  ⟨fun _ hr halloc => hr.asAlone ops schedule schedule' halloc,
    fun _ hr halloc => hr.asAlone ops schedule schedule' halloc⟩

/-- Chunks of three units, the last one first: a chunk has units of two sequences. -/
def backwards : Schedule where
  cut n _ := (Parallel.subRanges n 3).reverse
  partition _ _ _ := (Parallel.subRanges_partition (by decide)).reverse

theorem ragged_walks_backwards :
    Ragged.twoSequences.AsAlone (scalarOps integerFloats) backwards Schedule.inOrder
      (fun _ => some 7) ∧
    PagedBatch.twoTables.AsAlone (scalarOps integerFloats) backwards Schedule.inOrder
      (fun _ => some 7) :=
  ⟨(ragged_walks (scalarOps integerFloats) backwards Schedule.inOrder _).1 _
      Ragged.twoSequences_legal fun _ _ _ _ => rfl,
    (ragged_walks (scalarOps integerFloats) backwards Schedule.inOrder _).2 _
      PagedBatch.twoTables_legal fun _ _ _ _ => rfl⟩

end Attention

end InferenceEngine
