/-
Paged decode attention is contiguous decode attention.

A query is described by the rows it reads.  Keys that are gathered through a block table are the
rows that the paged kernel finds behind it, and a prefill call with a single query reads the rows
that a decode call does.  So the three kernels bring every row of the output to the same end by
the same calls.
-/
import InferenceEngine.Kernels.AttentionEntries
import InferenceEngine.Proofs.AttentionDecode
import InferenceEngine.Proofs.KvCopy
import InferenceEngine.Sampling.Float

namespace InferenceEngine

open Except Stores

namespace Attention

variable {β : Type} {ops : Ops β} {w w' w₀ : Work β} {out : Int} {d : Nat}
  {jobs jobs' : List (Nat × Done β)}

/-! ### Queries that read the same

Queries with as many keys, the same rows and the same scale come to the same, wherever the rows
are. -/

theorem ConstFloats.row_congr {y z : ConstFloats β}
    (h : ∀ e < d, y.cells (y.offset + e) = z.cells (z.offset + e)) : y.row d = z.row d := by
  have hread : ∀ e ∈ List.range d, y.read (e : Nat) = z.read (e : Nat) := by
    intro e he
    rw [ConstFloats.read, ConstFloats.read, h e (List.mem_range.mp he)]
  rw [ConstFloats.row, ConstFloats.row]
  exact mapM_congr hread

theorem ConstFloats.rowD_congr {y z : ConstFloats β}
    (h : ∀ e < d, y.cells (y.offset + e) = z.cells (z.offset + e)) : y.rowD d = z.rowD d := by
  rw [ConstFloats.rowD, ConstFloats.rowD, row_congr h]

/-- What two queries have in common that come to the same. -/
structure Query.Same (x y : Query β) : Prop where
  q : x.q = y.q
  count : x.count = y.count
  scale : x.scale = y.scale
  k : ∀ s < x.count, x.k s = y.k s
  v : ∀ s < x.count, x.v s = y.v s

theorem Query.Same.ofBlock {γ : Type} {x y : Query β} (h : x.Same y) {f g : Nat → γ}
    (hfg : ∀ s < x.count, f s = g s) (kb : Nat) : x.ofBlock f kb = y.ofBlock g kb := by
  rw [Query.ofBlock, Query.ofBlock, Query.width, Query.width, ← h.count]
  refine List.map_congr_left fun i hi => hfg _ ?_
  have := List.mem_range.mp hi
  omega

theorem Query.Same.result [LT β] [DecidableLT β] {x y : Query β} (h : x.Same y) (ops : Ops β)
    (top : List β → β) (d : Nat) : x.result ops top d = y.result ops top d := by
  have hscores : ∀ kb, x.scores ops kb = y.scores ops kb :=
    h.ofBlock fun s hs => by rw [h.q, h.k s hs, h.scale]
  have hrows : ∀ kb, x.ofBlock x.v kb = y.ofBlock y.v kb := h.ofBlock h.v
  rw [Query.result, Query.result, Query.pass, Query.pass, ← h.count]
  congr 2
  funext a kb
  rw [hscores, hrows]

/-- Jobs that agree leave the same output, and have made the same calls. -/
theorem Work.Written.agree (h : w₀.Written w out d jobs) (h' : w₀.Written w' out d jobs')
    (hsame : ∀ x ∈ jobs, ∃ y ∈ jobs', x.1 = y.1 ∧ x.2.row = y.2.row ∧
      x.2.journal.calls = y.2.journal.calls)
    (hback : ∀ y ∈ jobs', ∃ x ∈ jobs, x.1 = y.1) :
    w.out = w'.out ∧ ∀ p, (w.journal p).calls = (w'.journal p).calls := by
  constructor
  · funext i
    by_cases hi : ∃ x ∈ jobs, rowAt out d x.1 ≤ i ∧ i < rowAt out d x.1 + d
    · obtain ⟨x, hx, hlo, hhi⟩ := hi
      obtain ⟨y, hy, hnum, hrow, -⟩ := hsame x hx
      obtain ⟨e, rfl⟩ := Int.le.dest hlo
      have he : e < d := by omega
      rw [(h.row x hx).cells e he, hrow, hnum, (h'.row y hy).cells e he]
    · rw [h.outOther i fun x hx hc => hi ⟨x, hx, hc⟩, h'.outOther i fun y hy hc => ?_]
      obtain ⟨x, hx, hnum⟩ := hback y hy
      exact hi ⟨x, hx, by rwa [hnum]⟩
  · intro p
    by_cases hp : ∃ x ∈ jobs, p = rowAt out d x.1
    · obtain ⟨x, hx, rfl⟩ := hp
      obtain ⟨y, hy, hnum, -, hcalls⟩ := hsame x hx
      rw [h.journal x hx, Journal.append_calls, hcalls, hnum, h'.journal y hy,
        Journal.append_calls]
    · rw [h.journalOther p fun x hx hc => hp ⟨x, hx, hc⟩,
        h'.journalOther p fun y hy hc => ?_]
      obtain ⟨x, hx, hnum⟩ := hback y hy
      exact hp ⟨x, hx, by rwa [hnum]⟩

/-! ### Gathered keys and values

The gather puts the rows of a sequence where the contiguous kernel looks for them.  Rows beyond
its length are not looked for. -/

namespace PagedDecodeArgs

/-- A slab as `KvGatherF32` copies it out, head after head. -/
def gather (a : PagedDecodeArgs β) (kvHeads : Nat) (slab : ConstFloats β) : ConstFloats β where
  cells := kvGather (fun i => slab.cells (slab.offset + i)) a.blockTable a.blockSize a.length
    kvHeads a.d fun _ => none
  offset := 0

/-- The call of the contiguous kernel on what has been gathered. -/
def gathered (a : PagedDecodeArgs β) (kvHeads : Nat) : DecodeArgs β where
  q := a.q
  k := a.gather kvHeads a.kSlab
  v := a.gather kvHeads a.vSlab
  out := a.out
  d := a.d
  lDim := a.length
  group := a.group
  scale := a.scale

variable {a : PagedDecodeArgs β} {kvHeads : Nat}

/-- The gather has put the row of every key where a contiguous kernel looks for it. -/
theorem gather_cells (hbs : 0 < a.blockSize)
    (hstride : a.blockStride = (kvHeads * a.blockSize * a.d : Nat)) (slab : ConstFloats β)
    {hk s e : Nat} (hhk : hk < kvHeads) (hs : s < a.length) (he : e < a.d) :
    (a.gather kvHeads slab).cells ((hk * a.length * a.d + s * a.d : Nat) + e) =
      slab.cells (slab.offset + a.slot hk s + e) := by
  have hat : (a.gather kvHeads slab).cells (((hk : Int) * a.length + s) * a.d + e) = _ :=
    kvGather_at (by omega) ⟨by omega, by omega⟩ ⟨by omega, by omega⟩ ⟨by omega, by omega⟩
  have hidx : ((hk * a.length * a.d + s * a.d : Nat) : Int) + e =
      ((hk : Int) * a.length + s) * a.d + e := by
    push_cast
    ring
  have hblock : ((s : Int) / a.blockSize).toNat = s / a.blockSize := by
    rw [← Int.natCast_ediv, Int.toNat_natCast]
  rw [hidx, hat, hblock, blockCell, slot, hstride]
  congr 1
  push_cast
  ring

/-- **The two decode kernels have the same queries.** -/
theorem query_same (hbs : 0 < a.blockSize)
    (hstride : a.blockStride = (kvHeads * a.blockSize * a.d : Nat)) {hk : Nat}
    (hhk : hk < kvHeads) (g : Nat) : (a.query hk g).Same ((a.gathered kvHeads).query hk g) where
  q := rfl
  count := rfl
  scale := rfl
  k s hs := ConstFloats.rowD_congr fun e he => by
    have hcell := gather_cells hbs hstride a.kSlab hhk (show s < a.length from hs) he
    show a.kSlab.cells (a.kSlab.offset + a.slot hk s + e) =
      (a.gather kvHeads a.kSlab).cells (0 + (hk * a.length * a.d + s * a.d : Nat) + e)
    rw [Int.zero_add, hcell]
  v s hs := ConstFloats.rowD_congr fun e he => by
    have hcell := gather_cells hbs hstride a.vSlab hhk (show s < a.length from hs) he
    show a.vSlab.cells (a.vSlab.offset + a.slot hk s + e) =
      (a.gather kvHeads a.vSlab).cells (0 + (hk * a.length * a.d + s * a.d : Nat) + e)
    rw [Int.zero_add, hcell]

/-- The gathered keys are there if those in the slab are. -/
theorem gather_holds (hbs : 0 < a.blockSize)
    (hstride : a.blockStride = (kvHeads * a.blockSize * a.d : Nat)) {slab : ConstFloats β}
    (hslab : ∀ hk < kvHeads, ∀ s < a.length, (slab.advance (a.slot hk s)).Holds a.d) :
    (a.gather kvHeads slab).Holds (kvHeads * a.length * a.d) := by
  intro i hi
  have hpos : 0 < a.length * a.d := by
    rw [Nat.mul_assoc] at hi
    exact Nat.pos_of_ne_zero fun h0 => by simp [h0] at hi
  have hd : 0 < a.d := Nat.pos_of_mul_pos_left hpos
  have hhk : i / (a.length * a.d) < kvHeads := by
    rw [Nat.div_lt_iff_lt_mul hpos, ← Nat.mul_assoc]
    exact hi
  have hs : i % (a.length * a.d) / a.d < a.length := by
    rw [Nat.div_lt_iff_lt_mul hd]
    exact Nat.mod_lt _ hpos
  have he : i % (a.length * a.d) % a.d < a.d := Nat.mod_lt _ hd
  have hsplit : i = i / (a.length * a.d) * a.length * a.d +
      i % (a.length * a.d) / a.d * a.d + i % (a.length * a.d) % a.d := by
    rw [Nat.add_assoc, Nat.div_add_mod', Nat.mul_assoc, Nat.div_add_mod']
  have hcell := gather_cells hbs hstride slab hhk hs he
  have hsome := hslab _ hhk _ hs _ he
  show ((a.gather kvHeads slab).cells (0 + (i : Int))).isSome
  rw [Int.zero_add, hsplit, Int.natCast_add, hcell]
  exact hsome

theorem gathered_legal (ha : a.Legal kvHeads)
    (hstride : a.blockStride = (kvHeads * a.blockSize * a.d : Nat)) :
    (a.gathered kvHeads).Legal kvHeads where
  d := ha.d
  q := ha.q
  k := gather_holds ha.blockSize hstride ha.k
  v := gather_holds ha.blockSize hstride ha.v

end PagedDecodeArgs

/-! ### Prefill with one query

The causal boundary of the only query lies behind the last key. -/

namespace DecodeArgs

/-- The prefill call that a decode call is a case of. -/
def asPrefill (a : DecodeArgs β) (kvHeads : Nat) : PrefillArgs β :=
  prefillArgs a.q a.k a.v a.out 1 (kvHeads * a.group) kvHeads a.d a.lDim a.scale

variable {a : DecodeArgs β} {kvHeads : Nat}

theorem asPrefill_group (hkv : 0 < kvHeads) : (a.asPrefill kvHeads).group = a.group :=
  Nat.mul_div_cancel_left a.group hkv

theorem asPrefill_legal (ha : a.Legal kvHeads) (hkv : 0 < kvHeads) (hL : 1 ≤ a.lDim) :
    (a.asPrefill kvHeads).Legal kvHeads where
  d := ha.d
  past := rfl
  length := hL
  qblocks := rfl
  heads h hh := by
    rw [asPrefill_group hkv]
    exact Nat.div_lt_of_lt_mul (by rwa [Nat.mul_comm])
  q := by
    show a.q.Holds (1 * (kvHeads * a.group) * a.d)
    rw [Nat.one_mul]
    exact ha.q
  k := ha.k
  v := ha.v

theorem asPrefill_unitRows (u : Nat) : (a.asPrefill kvHeads).unitRows u = [(u, 0)] := by
  have hqblocks : (a.asPrefill kvHeads).numQblocks = 1 := rfl
  rw [PrefillArgs.unitRows, hqblocks, Nat.div_one, Nat.mod_one]
  rfl

/-- **A decode call has the queries of a prefill call with one query a head.** -/
theorem query_same (hkv : 0 < kvHeads) (hL : 1 ≤ a.lDim) {hk g : Nat} (hg : g < a.group) :
    (a.query hk g).Same ((a.asPrefill kvHeads).query (hk * a.group + g) 0) := by
  have hhead : (hk * a.group + g) / (a.asPrefill kvHeads).group = hk := by
    rw [asPrefill_group hkv, Nat.mul_comm, Nat.mul_add_div (by omega), Nat.div_eq_of_lt hg,
      Nat.add_zero]
  have hcount : ((a.asPrefill kvHeads).past + ((0 : Nat) : Int) + 1).toNat = a.lDim := by
    show (((a.lDim : Int) - ((1 : Nat) : Int)) + ((0 : Nat) : Int) + 1).toNat = a.lDim
    omega
  refine ⟨?_, hcount.symm, rfl, fun s _ => ?_, fun s _ => ?_⟩
  · show (a.q.advance ((hk * a.group + g) * a.d : Nat)).rowD a.d =
      (a.q.advance ((0 * (kvHeads * a.group) + (hk * a.group + g)) * a.d : Nat)).rowD a.d
    rw [Nat.zero_mul, Nat.zero_add]
  · rw [PrefillArgs.query, hhead]
    rfl
  · rw [PrefillArgs.query, hhead]
    rfl

end DecodeArgs

theorem mem_units {unitBegin unitEnd group r : Nat} :
    r ∈ span (unitBegin * group) (unitEnd * group) ↔
      ∃ hk ∈ span unitBegin unitEnd, ∃ g < group, r = hk * group + g := by
  rw [mem_span]
  constructor
  · intro h
    have hgroup : 0 < group := Nat.pos_of_ne_zero fun h0 => by simp [h0] at h
    refine ⟨r / group, mem_span.mpr ⟨?_, ?_⟩, r % group, Nat.mod_lt _ hgroup,
      (Nat.div_add_mod' r group).symm⟩
    · exact (Nat.le_div_iff_mul_le hgroup).mpr h.1
    · exact (Nat.div_lt_iff_lt_mul hgroup).mpr h.2
  · rintro ⟨hk, hhk, g, hg, rfl⟩
    have hhk := mem_span.mp hhk
    have hlo : unitBegin * group ≤ hk * group := Nat.mul_le_mul_right _ hhk.1
    have hhi : (hk + 1) * group ≤ unitEnd * group := Nat.mul_le_mul_right _ hhk.2
    rw [Nat.succ_mul] at hhi
    omega

/-! ### The three kernels

Each of the three writes the rows of its queries, and the queries are the same. -/

/-- A position of the table that is looked up belongs to a block that holds a key. -/
theorem PagedDecodeArgs.mem_tableReads {a : PagedDecodeArgs β} (hbs : 0 < a.blockSize)
    (hdvd : a.blockSize ∣ kAttnKb)
    {i : Int} (hi : i ∈ a.tableReads) : 0 ≤ i ∧ i < blocks a.length a.blockSize := by
  obtain ⟨kb, hkb, hi⟩ := List.mem_flatMap.mp hi
  obtain ⟨m, hm, rfl⟩ := List.mem_map.mp hkb
  have hkb := lt_blocks (List.mem_range.mp hm)
  have hi : i ∈ lookups (m * kAttnKb / a.blockSize)
      (blocks (min kAttnKb (a.length - m * kAttnKb)) a.blockSize) := by
    rcases List.mem_append.mp hi with hi | hi <;> exact hi
  obtain ⟨b, hb, rfl⟩ := List.mem_map.mp hi
  have hb := lt_blocks (List.mem_range.mp hb)
  refine ⟨Int.natCast_nonneg _, ?_⟩
  have hexact : m * kAttnKb / a.blockSize * a.blockSize = m * kAttnKb :=
    Nat.div_mul_cancel (hdvd.trans (Nat.dvd_mul_left _ _))
  have hlt : (m * kAttnKb / a.blockSize + b) * a.blockSize <
      blocks a.length a.blockSize * a.blockSize := by
    have hge := blocks_mul_ge a.length hbs
    rw [Nat.add_mul, hexact]
    omega
  exact_mod_cast Nat.lt_of_mul_lt_mul_right hlt

section

variable [LT β] [DecidableLT β] (ops) {a : PagedDecodeArgs β} {kvHeads unitBegin unitEnd : Nat}
  {cells : Int → Option β}

theorem decode_agree_prefill {a : DecodeArgs β} (hkv : 0 < kvHeads) (hL : 1 ≤ a.lDim)
    (h : w₀.Written w a.out a.d ((span unitBegin unitEnd).flatMap fun hk =>
      (List.range a.group).map fun g => (hk * a.group + g, a.done ops hk g)))
    (h' : w₀.Written w' a.out a.d
      ((span (unitBegin * a.group) (unitEnd * a.group)).flatMap fun u =>
        ((a.asPrefill kvHeads).unitRows u).map ((a.asPrefill kvHeads).job ops))) :
    w.out = w'.out ∧ ∀ p, (w.journal p).calls = (w'.journal p).calls := by
  have hnum : ∀ u, ((a.asPrefill kvHeads).job ops (u, 0)).1 = u := by
    intro u
    show 0 * (kvHeads * a.group) + u = u
    rw [Nat.zero_mul, Nat.zero_add]
  refine h.agree h' ?_ ?_
  · intro x hx
    obtain ⟨hk, hhk, hx⟩ := List.mem_flatMap.mp hx
    obtain ⟨g, hg, rfl⟩ := List.mem_map.mp hx
    have hg := List.mem_range.mp hg
    refine ⟨(a.asPrefill kvHeads).job ops (hk * a.group + g, 0), ?_, (hnum _).symm, ?_, ?_⟩
    · refine List.mem_flatMap.mpr ⟨_, mem_units.mpr ⟨hk, hhk, g, hg, rfl⟩, ?_⟩
      rw [DecodeArgs.asPrefill_unitRows]
      simp
    · exact congrArg Pass.row ((DecodeArgs.query_same hkv hL hg).result ops _ a.d)
    · exact congrArg Pass.calls ((DecodeArgs.query_same hkv hL hg).result ops _ a.d)
  · intro y hy
    obtain ⟨u, hu, hy⟩ := List.mem_flatMap.mp hy
    rw [DecodeArgs.asPrefill_unitRows, List.map_singleton, List.mem_singleton] at hy
    obtain ⟨hk, hhk, g, hg, rfl⟩ := mem_units.mp hu
    refine ⟨(hk * a.group + g, a.done ops hk g), ?_, ?_⟩
    · exact List.mem_flatMap.mpr ⟨hk, hhk, List.mem_map.mpr ⟨g, List.mem_range.mpr hg, rfl⟩⟩
    · rw [hy, hnum]

theorem paged_agree_decode (hord : ops.Ordered) (hbs : 0 < a.blockSize)
    (hstride : a.blockStride = (kvHeads * a.blockSize * a.d : Nat)) (hend : unitEnd ≤ kvHeads)
    (h : w₀.Written w a.out a.d ((span unitBegin unitEnd).flatMap fun hk =>
      (List.range a.group).map fun g => (hk * a.group + g, a.done ops hk g)))
    (h' : w₀.Written w' a.out a.d ((span unitBegin unitEnd).flatMap fun hk =>
      (List.range a.group).map fun g =>
        (hk * a.group + g, (a.gathered kvHeads).done ops hk g))) :
    w.out = w'.out ∧ ∀ p, (w.journal p).calls = (w'.journal p).calls := by
  refine h.agree h' ?_ ?_
  · intro x hx
    obtain ⟨hk, hhk, hx⟩ := List.mem_flatMap.mp hx
    obtain ⟨g, hg, rfl⟩ := List.mem_map.mp hx
    have hlt : hk < kvHeads := by
      have := mem_span.mp hhk
      omega
    have htop : piecesMax ops a.blockSize = rowMax ops := funext (hord.piecesMax_eq hbs)
    have hresult : (a.query hk g).result ops (piecesMax ops a.blockSize) a.d =
        ((a.gathered kvHeads).query hk g).result ops (rowMax ops) a.d := by
      rw [htop]
      exact (PagedDecodeArgs.query_same hbs hstride hlt g).result ops _ a.d
    exact ⟨_, List.mem_flatMap.mpr ⟨hk, hhk, List.mem_map.mpr ⟨g, hg, rfl⟩⟩, rfl,
      congrArg Pass.row hresult, congrArg Pass.calls hresult⟩
  · intro y hy
    obtain ⟨hk, hhk, hy⟩ := List.mem_flatMap.mp hy
    obtain ⟨g, hg, rfl⟩ := List.mem_map.mp hy
    exact ⟨_, List.mem_flatMap.mpr ⟨hk, hhk, List.mem_map.mpr ⟨g, hg, rfl⟩⟩, rfl⟩

/-- Everything that was read for a row is a key or a value of the sequence, and was found behind
an entry of the table for a block that holds one. -/
def PagedDecodeArgs.ReadsOwnKeys (a : PagedDecodeArgs β) (kvHeads : Nat) (w : Work β) : Prop :=
  ∀ p, (∀ i ∈ (w.journal p).table, 0 ≤ i ∧ i < blocks a.length a.blockSize) ∧
    (∀ o ∈ (w.journal p).keys, ∃ hk < kvHeads, ∃ s < a.length,
      o = a.kSlab.offset + a.slot hk s) ∧
    ∀ o ∈ (w.journal p).values, ∃ hk < kvHeads, ∃ s < a.length,
      o = a.vSlab.offset + a.slot hk s

/-- What the three kernels leave, row by row. -/
theorem paged_decode_prefill_agree (hord : ops.Ordered) (ha : a.Legal kvHeads)
    (hstride : a.blockStride = (kvHeads * a.blockSize * a.d : Nat)) (hkv : 0 < kvHeads)
    (hL : 1 ≤ a.length) (hend : unitEnd ≤ kvHeads)
    (halloc : ∀ r < kvHeads * a.group, (Work.start cells).Allocated (rowAt a.out a.d r) a.d) :
    ∃ paged decode prefill : Work β,
      pagedDecodeUnitsImpl ops a unitBegin unitEnd (Work.start cells) = .ok paged ∧
      decodeUnitsImpl ops (a.gathered kvHeads) unitBegin unitEnd (Work.start cells) =
        .ok decode ∧
      prefillUnitsImpl ops ((a.gathered kvHeads).asPrefill kvHeads) (unitBegin * a.group)
        (unitEnd * a.group) (Work.start cells) = .ok prefill ∧
      paged.out = decode.out ∧ decode.out = prefill.out ∧
      (∀ p, (paged.journal p).calls = (decode.journal p).calls ∧
        (decode.journal p).calls = (prefill.journal p).calls) ∧
      a.ReadsOwnKeys kvHeads paged := by
  have hlegal := PagedDecodeArgs.gathered_legal ha hstride
  obtain ⟨paged, hpaged, hw⟩ := pagedDecodeUnitsImpl_ok ops ha unitBegin hend halloc
  obtain ⟨decode, hdecode, hw'⟩ :=
    decodeUnitsImpl_ok ops hlegal unitBegin hend halloc
  have hunits : unitEnd * a.group ≤
      kvHeads * a.group * ((a.gathered kvHeads).asPrefill kvHeads).numQblocks := by
    show unitEnd * a.group ≤ kvHeads * a.group * 1
    rw [Nat.mul_one]
    exact Nat.mul_le_mul_right _ hend
  obtain ⟨prefill, hprefill, hw''⟩ := prefillUnitsImpl_ok ops
    (DecodeArgs.asPrefill_legal hlegal hkv hL) (unitBegin * a.group) hunits
    (w := Work.start cells) (by
      show ∀ r < 1 * (kvHeads * a.group), _
      rw [Nat.one_mul]
      exact halloc)
  obtain ⟨hout, hcalls⟩ := paged_agree_decode ops hord ha.blockSize hstride hend hw hw'
  obtain ⟨hout', hcalls'⟩ := decode_agree_prefill ops hkv hL hw' hw''
  refine ⟨paged, decode, prefill, hpaged, hdecode, hprefill, hout, hout',
    fun p => ⟨hcalls p, hcalls' p⟩, fun p => ?_⟩
  by_cases hp : ∃ x ∈ (span unitBegin unitEnd).flatMap fun hk =>
      (List.range a.group).map fun g => (hk * a.group + g, a.done ops hk g),
      p = rowAt a.out a.d x.1
  · obtain ⟨x, hx, rfl⟩ := hp
    rw [hw.journal x hx]
    obtain ⟨hk, hhk, hx⟩ := List.mem_flatMap.mp hx
    obtain ⟨g, hg, rfl⟩ := List.mem_map.mp hx
    have hlt : hk < kvHeads := by
      have := mem_span.mp hhk
      omega
    refine ⟨fun i hi => a.mem_tableReads ha.blockSize ha.divides hi, fun o ho => ?_,
      fun o ho => ?_⟩
    · obtain ⟨s, hs, rfl⟩ := List.mem_map.mp ho
      exact ⟨hk, hlt, s, List.mem_range.mp hs, rfl⟩
    · obtain ⟨s, hs, rfl⟩ := List.mem_map.mp ho
      exact ⟨hk, hlt, s, List.mem_range.mp hs, rfl⟩
  · rw [hw.journalOther p fun x hx hc => hp ⟨x, hx, hc⟩]
    exact ⟨by simp [Work.start], by simp [Work.start], by simp [Work.start]⟩

/-- **Paged decode, decode on the gathered keys and values and prefill with one query leave the
same output by the same calls, and the paged kernel looks only at blocks and slots that hold a
key of the sequence.** -/
theorem pagedDecode_eq_decode_eq_prefill (hord : ops.Ordered) (ha : a.Legal kvHeads)
    (hstride : a.blockStride = (kvHeads * a.blockSize * a.d : Nat)) (hkv : 0 < kvHeads)
    (hL : 1 ≤ a.length) (hend : unitEnd ≤ kvHeads)
    (halloc : ∀ r < kvHeads * a.group, (Work.start cells).Allocated (rowAt a.out a.d r) a.d) :
    ∃ paged decode prefill : Work β,
      pagedDecodeUnitsImpl ops a unitBegin unitEnd (Work.start cells) = .ok paged ∧
      decodeUnitsImpl ops (a.gathered kvHeads) unitBegin unitEnd (Work.start cells) =
        .ok decode ∧
      prefillUnitsImpl ops ((a.gathered kvHeads).asPrefill kvHeads) (unitBegin * a.group)
        (unitEnd * a.group) (Work.start cells) = .ok prefill ∧
      paged.out = decode.out ∧ decode.out = prefill.out ∧
      (∀ p, (paged.journal p).calls = (decode.journal p).calls ∧
        (decode.journal p).calls = (prefill.journal p).calls) ∧
      a.ReadsOwnKeys kvHeads paged :=
  paged_decode_prefill_agree ops hord ha hstride hkv hL hend halloc

end

section

variable [LinearOrder β] {a : PagedDecodeArgs β} {kvHeads unitBegin unitEnd : Nat}
  {cells : Int → Option β}

/-- **Over a linear order nothing is asked of the arithmetic.**  Scores are any function of query
and key, their maximum is taken from `negInf` by `>`, and the three kernels agree. -/
theorem pagedDecode_linearOrder (ops : Ops β) (ha : a.Legal kvHeads)
    (hstride : a.blockStride = (kvHeads * a.blockSize * a.d : Nat)) (hkv : 0 < kvHeads)
    (hL : 1 ≤ a.length) (hend : unitEnd ≤ kvHeads)
    (halloc : ∀ r < kvHeads * a.group, (Work.start cells).Allocated (rowAt a.out a.d r) a.d) :
    ∃ paged decode prefill : Work β,
      pagedDecodeUnitsImpl ops a unitBegin unitEnd (Work.start cells) = .ok paged ∧
      decodeUnitsImpl ops (a.gathered kvHeads) unitBegin unitEnd (Work.start cells) =
        .ok decode ∧
      prefillUnitsImpl ops ((a.gathered kvHeads).asPrefill kvHeads) (unitBegin * a.group)
        (unitEnd * a.group) (Work.start cells) = .ok prefill ∧
      paged.out = decode.out ∧ decode.out = prefill.out ∧
      (∀ p, (paged.journal p).calls = (decode.journal p).calls ∧
        (decode.journal p).calls = (prefill.journal p).calls) ∧
      a.ReadsOwnKeys kvHeads paged :=
  paged_decode_prefill_agree ops ops.ordered ha hstride hkv hL hend halloc

/-- Integers in the place of single precision numbers. -/
def integerFloats : Floats Int := ⟨0, 1, -1000, (· + ·), (· - ·), (· * ·), (· / ·), id, id⟩

/-- Three keys in two blocks of two, for nine queries: one more than a slice of the group has. -/
def nineQueries : PagedDecodeArgs Int where
  q := ⟨fun i => some (i - 4), 0⟩
  kSlab := ⟨fun i => some i, 0⟩
  vSlab := ⟨fun i => some (i * i), 0⟩
  blockTable := [1, 0]
  out := 0
  d := 1
  length := 3
  group := 9
  blockSize := 2
  blockStride := 2
  scale := 1

theorem pagedDecode_linearOrder_nineQueries : ∃ paged decode prefill : Work Int,
    pagedDecodeUnitsImpl (scalarOps integerFloats) nineQueries 0 1 (Work.start fun _ => some 7) =
      .ok paged ∧
    decodeUnitsImpl (scalarOps integerFloats) (nineQueries.gathered 1) 0 1
      (Work.start fun _ => some 7) = .ok decode ∧
    prefillUnitsImpl (scalarOps integerFloats) ((nineQueries.gathered 1).asPrefill 1) (0 * 9)
      (1 * 9) (Work.start fun _ => some 7) = .ok prefill ∧
    paged.out = decode.out ∧ decode.out = prefill.out ∧
    (∀ p, (paged.journal p).calls = (decode.journal p).calls ∧
      (decode.journal p).calls = (prefill.journal p).calls) ∧
    nineQueries.ReadsOwnKeys 1 paged :=
  pagedDecode_linearOrder (scalarOps integerFloats)
    ⟨by decide, by decide, by decide, by decide, fun _ _ => rfl, fun _ _ _ _ _ _ => rfl,
      fun _ _ _ _ _ _ => rfl⟩ rfl (by decide) (by decide) le_rfl fun _ _ _ _ => rfl

end

end Attention

/-! ### Floats

They are in the order of the extended numbers, out of which a NaN is left.  The witness scores a
NaN among its keys. -/

namespace F32

instance : LT F32 := ⟨fun a b => a.lt b = true⟩

instance : DecidableLT F32 := fun a b => inferInstanceAs (Decidable (a.lt b = true))

/-- The number that a float stands for. -/
def extended : F32 → Option (WithBot (WithTop Rat))
  | .nan => none
  | .infinity true => some ⊥
  | .infinity false => some ((⊤ : WithTop Rat) : WithBot (WithTop Rat))
  | .finite x => some ((x : WithTop Rat) : WithBot (WithTop Rat))

theorem lt_iff (a b : F32) :
    a < b ↔ ∃ x y, a.extended = some x ∧ b.extended = some y ∧ x < y := by
  show a.lt b = true ↔ _
  rcases a with _ | (_ | _) | x <;> rcases b with _ | (_ | _) | y <;> simp [F32.lt, extended]
  exact WithBot.coe_lt_coe.mpr (WithTop.coe_lt_top x)

end F32

namespace Attention

/-- **Floats are ordered as the kernels need it**, with minus infinity as `negInf`. -/
theorem ordered_float {ops : Ops F32} (hinf : ops.negInf = .infinity true) : ops.Ordered where
  irrefl a h := by
    obtain ⟨x, y, hx, hy, hlt⟩ := (F32.lt_iff a a).mp h
    obtain rfl : x = y := Option.some.inj (hx.symm.trans hy)
    exact lt_irrefl x hlt
  trans {a b c} hab hbc := by
    obtain ⟨x, y, hx, hy, hxy⟩ := (F32.lt_iff a b).mp hab
    obtain ⟨y', z, hy', hz, hyz⟩ := (F32.lt_iff b c).mp hbc
    obtain rfl : y = y' := Option.some.inj (hy.symm.trans hy')
    exact (F32.lt_iff a c).mpr ⟨x, z, hx, hz, hxy.trans hyz⟩
  between {m r x} hr hmx := by
    obtain ⟨u, v, hu, hv, huv⟩ := (F32.lt_iff m x).mp hmx
    obtain ⟨w, hw⟩ : ∃ w, r.extended = some w := by
      rcases hr with rfl | hr
      · exact ⟨⊥, by rw [hinf]; rfl⟩
      · obtain ⟨_, w, _, hw, _⟩ := (F32.lt_iff _ r).mp hr
        exact ⟨w, hw⟩
    rcases lt_or_ge u w with huw | hwu
    · exact Or.inl ((F32.lt_iff m r).mpr ⟨u, w, hu, hw, huw⟩)
    · exact Or.inr ((F32.lt_iff r x).mpr ⟨w, v, hw, hv, hwu.trans_lt huv⟩)

/-- The arithmetic of a run, as the kernels use it. -/
def singleFloats (m : FloatModel) : Floats F32 where
  zero := .finite 0
  one := .finite 1
  negInf := .infinity true
  add := F32.add m.single
  sub := F32.sub m.single
  mul := F32.mul m.single
  div := F32.div m.single
  exp := m.exp
  expF32Scalar := expF32Scalar m.single

/-- Three keys of one head, in two blocks of which the second one lies in front; one is a NaN. -/
def threeKeys : PagedDecodeArgs F32 where
  q := ⟨fun _ => some (.finite 1), 0⟩
  kSlab := ⟨fun i => some (if i = 2 then .nan else .finite i), 0⟩
  vSlab := ⟨fun i => some (.finite (i * i)), 0⟩
  blockTable := [1, 0]
  out := 0
  d := 1
  length := 3
  group := 1
  blockSize := 2
  blockStride := 2
  scale := .finite 1

theorem pagedDecode_threeKeys : ∃ paged decode prefill : Work F32,
    pagedDecodeUnitsImpl (scalarOps (singleFloats (boundedFloats id))) threeKeys 0 1
      (Work.start fun _ => some .nan) = .ok paged ∧
    decodeUnitsImpl (scalarOps (singleFloats (boundedFloats id))) (threeKeys.gathered 1) 0 1
      (Work.start fun _ => some .nan) = .ok decode ∧
    prefillUnitsImpl (scalarOps (singleFloats (boundedFloats id)))
      ((threeKeys.gathered 1).asPrefill 1) (0 * 1) (1 * 1) (Work.start fun _ => some .nan) =
        .ok prefill ∧
    paged.out = decode.out ∧ decode.out = prefill.out ∧
    (∀ p, (paged.journal p).calls = (decode.journal p).calls ∧
      (decode.journal p).calls = (prefill.journal p).calls) ∧
    threeKeys.ReadsOwnKeys 1 paged :=
  pagedDecode_eq_decode_eq_prefill _ (ordered_float rfl)
    ⟨by decide, by decide, by decide, by decide, fun _ _ => rfl, fun _ _ _ _ _ _ => rfl,
      fun _ _ _ _ _ _ => rfl⟩ rfl (by decide) (by decide) le_rfl fun _ _ _ _ => rfl

end Attention

end InferenceEngine
