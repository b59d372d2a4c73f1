/-
What the decode kernels write.

The heads of a group are served in slices of at most eight, block by block, every head of the
slice in turn.  Seen from one head this is the recurrence of a single query; where its keys are
found is all in which the two decode kernels differ.
-/
import InferenceEngine.Proofs.AttentionUnits

namespace InferenceEngine

open Except Stores

namespace Attention

variable {β : Type} {ops : Ops β} {w w' w₀ : Work β} {out : Int} {d hq0 gn : Nat}

/-! ### Slices

The scratch of a slice has a maximum, a denominator and a row for each of its heads.  The turns
of a block touch one head each, so a slice is several recurrences side by side. -/

/-- What a row has come to so far. -/
def Progress.done (g : Progress β) : Done β := ⟨g.pass.row, g.journal⟩

/-- The queries of a slice are this far. -/
structure SliceState.At (w₀ : Work β) (out : Int) (d hq0 gn : Nat) (cur : Nat → Progress β)
    (s : SliceState β) : Prop where
  scores : s.scores.length = kAttnKb
  maxLength : s.runMax.length = kAttnDecodeGroupChunk
  denLength : s.runDen.length = kAttnDecodeGroupChunk
  max : ∀ gi < gn, s.runMax[gi]? = some (some (cur gi).pass.run.max)
  den : ∀ gi < gn, s.runDen[gi]? = some (some (cur gi).pass.run.den)
  work : w₀.Written s.work out d ((List.range gn).map fun gi => (hq0 + gi, (cur gi).done))

/-- The scratch has the sizes it was declared with. -/
structure SliceState.Sized (s : SliceState β) : Prop where
  scores : s.scores.length = kAttnKb
  runMax : s.runMax.length = kAttnDecodeGroupChunk
  runDen : s.runDen.length = kAttnDecodeGroupChunk

theorem SliceState.At.sized {cur : Nat → Progress β} {s : SliceState β}
    (h : s.At w₀ out d hq0 gn cur) : s.Sized :=
  ⟨h.scores, h.maxLength, h.denLength⟩

theorem SliceState.At.congr {cur cur' : Nat → Progress β} {s : SliceState β}
    (h : s.At w₀ out d hq0 gn cur) (heq : ∀ gi < gn, cur gi = cur' gi) :
    s.At w₀ out d hq0 gn cur' where
  scores := h.scores
  maxLength := h.maxLength
  denLength := h.denLength
  max gi hgi := by
    rw [← heq gi hgi]
    exact h.max gi hgi
  den gi hgi := by
    rw [← heq gi hgi]
    exact h.den gi hgi
  work := by
    have hmap : ((List.range gn).map fun gi => (hq0 + gi, (cur gi).done)) =
        (List.range gn).map fun gi => (hq0 + gi, (cur' gi).done) :=
      List.map_congr_left fun gi hgi => by rw [heq gi (List.mem_range.mp hgi)]
    rw [← hmap]
    exact h.work

private theorem set_getElem? {s : Stack β} {gi i : Nat} {x : β} (hgi : gi < s.length) :
    (s.set gi (some x))[i]? = if i = gi then some (some x) else s[i]? := by
  by_cases h : i = gi
  · rw [if_pos h, h, List.getElem?_set_self hgi]
  · rw [if_neg h, List.getElem?_set_ne (Ne.symm h)]

/-- **A turn of one head advances this head only.** -/
theorem sliceTurn_ok {cur : Nat → Progress β} {s : SliceState β} {gi : Nat} {g : Progress β}
    {turn : QueryState β → Checked (QueryState β)} (hd : 0 < d) (hgn : gn ≤ kAttnDecodeGroupChunk)
    (h : s.At w₀ out d hq0 gn cur) (hgi : gi < gn)
    (hturn : ∀ base q, q.At base (rowAt out d (hq0 + gi)) d (cur gi) →
      (turn q).Returns fun q' => q'.At base (rowAt out d (hq0 + gi)) d g) :
    (sliceTurn gi turn s).Returns fun s' => s'.At w₀ out d hq0 gn (Function.update cur gi g) := by
  obtain ⟨base, hbase, hback⟩ := h.work.focus hd hgi
  rw [sliceTurn, Stack.read_ok (h.max gi hgi), ok_bind, Stack.read_ok (h.den gi hgi), ok_bind]
  have hq : (QueryState.mk ⟨(cur gi).pass.run.max, (cur gi).pass.run.den⟩ s.scores s.work).At
      base (rowAt out d (hq0 + gi)) d (cur gi) := ⟨rfl, h.scores, hbase⟩
  refine Returns.bind (hturn base _ hq) fun q' hq' => ?_
  have hmaxlt : gi < s.runMax.length := by
    rw [h.maxLength]
    omega
  have hdenlt : gi < s.runDen.length := by
    rw [h.denLength]
    omega
  rw [Stack.write_ok hdenlt, ok_bind, Stack.write_ok hmaxlt, ok_bind]
  refine returns_pure ⟨hq'.scores, ?_, ?_, ?_, ?_, ?_⟩
  · exact List.length_set.trans h.maxLength
  · exact List.length_set.trans h.denLength
  · intro i hi
    rw [set_getElem? hmaxlt]
    by_cases hig : i = gi
    · rw [if_pos hig, hig, Function.update_self, hq'.run]
    · rw [if_neg hig, Function.update_of_ne hig]
      exact h.max i hi
  · intro i hi
    rw [set_getElem? hdenlt]
    by_cases hig : i = gi
    · rw [if_pos hig, hig, Function.update_self, hq'.run]
    · rw [if_neg hig, Function.update_of_ne hig]
      exact h.den i hi
  · have hwritten := hback q'.work g.done hq'.work
    have hmap : ((List.range gn).map fun i =>
        (hq0 + i, Function.update (fun i => (cur i).done) gi g.done i)) =
        (List.range gn).map fun i => (hq0 + i, (Function.update cur gi g i).done) := by
      refine List.map_congr_left fun i _ => ?_
      by_cases hig : i = gi
      · rw [hig, Function.update_self, Function.update_self]
      · rw [Function.update_of_ne hig, Function.update_of_ne hig]
    rw [← hmap]
    exact hwritten

/-- Every head of the slice has its turn. -/
theorem sliceTurns_ok {cur next : Nat → Progress β} {s : SliceState β}
    {turn : Nat → QueryState β → Checked (QueryState β)} (hd : 0 < d)
    (hgn : gn ≤ kAttnDecodeGroupChunk) (h : s.At w₀ out d hq0 gn cur)
    (hturn : ∀ gi < gn, ∀ base q, q.At base (rowAt out d (hq0 + gi)) d (cur gi) →
      (turn gi q).Returns fun q' => q'.At base (rowAt out d (hq0 + gi)) d (next gi)) :
    ((List.range gn).foldlM (fun s gi => sliceTurn gi (turn gi) s) s).Returns fun s' =>
      s'.At w₀ out d hq0 gn next := by
  have hloop := Returns.foldlM_range (f := fun s gi => sliceTurn gi (turn gi) s) (n := gn)
    (fun m (s' : SliceState β) =>
      s'.At w₀ out d hq0 gn fun gi => if gi < m then next gi else cur gi) ?_
    (s := s) (h.congr fun gi _ => by simp)
  · refine hloop.mono fun s' hs' => hs'.congr fun gi hgi => if_pos hgi
  · intro gi hgi s' hs'
    refine (sliceTurn_ok (g := next gi) hd hgn hs' hgi fun base q hq => ?_).mono fun s'' hs'' => ?_
    · rw [if_neg (by omega)] at hq
      exact hturn gi hgi base q hq
    · refine hs''.congr fun i hi => ?_
      by_cases hig : i = gi
      · rw [hig, Function.update_self, if_pos (by omega)]
      · rw [Function.update_of_ne hig]
        by_cases hlt : i < gi
        · rw [if_pos hlt, if_pos (by omega)]
        · rw [if_neg hlt, if_neg (by omega)]

theorem beginSlice_ok (ops : Ops β) {s : SliceState β} (hd : 0 < d)
    (hgn : gn ≤ kAttnDecodeGroupChunk)
    (hs : s.Sized) (halloc : ∀ gi < gn, s.work.Allocated (rowAt out d (hq0 + gi)) d) :
    (beginSlice ops out d hq0 gn s).Returns fun s' =>
      s'.At s.work out d hq0 gn fun _ => ⟨Pass.begin ops d, [], [], []⟩ := by
  refine Returns.foldlM_range
    (fun m (s' : SliceState β) =>
      s'.At s.work out d hq0 m fun _ => ⟨Pass.begin ops d, [], [], []⟩) ?_
    ⟨hs.scores, hs.runMax, hs.runDen, by simp, by simp, Work.Written.nil _⟩
  intro gi hgi s' h
  refine Returns.bind (clearRow_advances ops (h.work.allocated (halloc gi hgi))) fun w₁ h₁ => ?_
  have hmaxlt : gi < s'.runMax.length := by
    rw [h.maxLength]
    omega
  have hdenlt : gi < s'.runDen.length := by
    rw [h.denLength]
    omega
  rw [Stack.write_ok hmaxlt, ok_bind, Stack.write_ok hdenlt, ok_bind]
  refine returns_pure ⟨h.scores, ?_, ?_, ?_, ?_, ?_⟩
  · exact List.length_set.trans h.maxLength
  · exact List.length_set.trans h.denLength
  · intro i hi
    rw [set_getElem? hmaxlt]
    by_cases hig : i = gi
    · rw [if_pos hig]
      rfl
    · rw [if_neg hig]
      exact h.max i (by omega)
  · intro i hi
    rw [set_getElem? hdenlt]
    by_cases hig : i = gi
    · rw [if_pos hig]
      rfl
    · rw [if_neg hig]
      exact h.den i (by omega)
  · rw [List.range_succ, List.map_append, List.map_singleton]
    have hone : s'.work.Written w₁ out d
        [(hq0 + gi, (Progress.mk (Pass.begin ops d) [] [] []).done)] :=
      Work.Written.of_advances h₁
    refine h.work.append hd hone fun x hx y hy => ?_
    obtain ⟨i, hi, rfl⟩ := List.mem_map.mp hx
    rw [List.mem_singleton] at hy
    rw [hy]
    have := List.mem_range.mp hi
    show hq0 + i ≠ hq0 + gi
    omega

theorem endSlice_ok (ops : Ops β) {cur : Nat → Progress β} {final : Nat → Done β}
    {s : SliceState β} (hd : 0 < d) (h : s.At w₀ out d hq0 gn cur)
    (hfinal : ∀ gi < gn, ∀ base w : Work β,
      base.Advances w (rowAt out d (hq0 + gi)) d (cur gi).pass.row (cur gi).journal →
      (scaleRow ops (rowAt out d (hq0 + gi)) (ops.div ops.one (cur gi).pass.run.den) d w).Returns
        fun w' => base.Advances w' (rowAt out d (hq0 + gi)) d (final gi).row (final gi).journal) :
    (endSlice ops out d hq0 gn s).Returns fun s' =>
      s'.Sized ∧ w₀.Written s'.work out d ((List.range gn).map fun gi => (hq0 + gi, final gi)) := by
  have hloop := Returns.foldlM_range (n := gn)
    (f := fun (s : SliceState β) gi => do
      let outVec := out + ((hq0 + gi) * d : Nat)
      let den ← s.runDen.read gi
      let w ← scaleRow ops outVec (ops.div ops.one den) d s.work
      pure { s with work := w })
    (fun m (s' : SliceState β) => s'.Sized ∧ s'.runDen = s.runDen ∧ w₀.Written s'.work out d
      ((List.range gn).map fun gi => (hq0 + gi, if gi < m then final gi else (cur gi).done))) ?_
    (s := s) ⟨h.sized, rfl, by simpa using h.work⟩
  · refine hloop.mono fun s' hs' => ⟨hs'.1, ?_⟩
    have hmap : ((List.range gn).map fun gi =>
        (hq0 + gi, if gi < gn then final gi else (cur gi).done)) =
        (List.range gn).map fun gi => (hq0 + gi, final gi) :=
      List.map_congr_left fun gi hgi => by rw [if_pos (List.mem_range.mp hgi)]
    rw [← hmap]
    exact hs'.2.2
  · rintro gi hgi s' ⟨hsized, hden, hwork⟩
    obtain ⟨base, hbase, hback⟩ := hwork.focus hd hgi
    rw [if_neg (by omega)] at hbase
    have hread : s'.runDen.read gi = .ok (cur gi).pass.run.den := by
      rw [hden]
      exact Stack.read_ok (h.den gi hgi)
    dsimp only
    rw [hread, ok_bind]
    refine Returns.bind (hfinal gi hgi base s'.work hbase) fun w₁ h₁ => ?_
    refine returns_pure ⟨⟨hsized.scores, hsized.runMax, hsized.runDen⟩, hden, ?_⟩
    have hmap : ((List.range gn).map fun i =>
        (hq0 + i, Function.update (fun i => if i < gi then final i else (cur i).done) gi
          (final gi) i)) =
        (List.range gn).map fun i => (hq0 + i, if i < gi + 1 then final i else (cur i).done) := by
      refine List.map_congr_left fun i _ => ?_
      by_cases hig : i = gi
      · rw [hig, Function.update_self, if_pos (by omega)]
      · rw [Function.update_of_ne hig]
        by_cases hlt : i < gi
        · rw [if_pos hlt, if_pos (by omega)]
        · rw [if_neg hlt, if_neg (by omega)]
    rw [← hmap]
    exact hback w₁ (final gi) h₁

section

variable [LT β] [DecidableLT β] (ops) (top : List β → β)

/-- **A slice takes every one of its queries from the beginning to the end.** -/
theorem slice_ok {s : SliceState β} {count : Nat} (x : Nat → Query β) (kAt vAt : Nat → Nat → Int)
    (table : Nat → List Int) (turn : (kb gi : Nat) → QueryState β → Checked (QueryState β))
    (hd : 0 < d) (hgn : gn ≤ kAttnDecodeGroupChunk) (hs : s.Sized)
    (halloc : ∀ gi < gn, s.work.Allocated (rowAt out d (hq0 + gi)) d)
    (hcount : ∀ gi, (x gi).count = count)
    (hturn : ∀ gi < gn, ∀ visited kb, kb ∈ strided count kAttnKb → ∀ base q,
      q.At base (rowAt out d (hq0 + gi)) d
        ((x gi).progress ops top d (kAt gi) (vAt gi) table visited) →
      (turn kb gi q).Returns fun q' => q'.At base (rowAt out d (hq0 + gi)) d
        ((x gi).progress ops top d (kAt gi) (vAt gi) table (visited ++ [kb]))) :
    (do
      let s ← beginSlice ops out d hq0 gn s
      let s ← (strided count kAttnKb).foldlM (fun s kb =>
        (List.range gn).foldlM (fun s gi => sliceTurn gi (turn kb gi) s) s) s
      endSlice ops out d hq0 gn s).Returns fun s' =>
      s'.Sized ∧ s.work.Written s'.work out d ((List.range gn).map fun gi =>
        (hq0 + gi, (x gi).done ops top d (kAt gi) (vAt gi)
          ((strided count kAttnKb).flatMap table))) := by
  refine Returns.bind (beginSlice_ok ops hd hgn hs halloc) fun s₁ h₁ => ?_
  have hloop := Returns.foldlM_visited (l := strided count kAttnKb)
    (f := fun s kb => (List.range gn).foldlM (fun s gi => sliceTurn gi (turn kb gi) s) s)
    (fun visited (s' : SliceState β) => s'.At s.work out d hq0 gn fun gi =>
      (x gi).progress ops top d (kAt gi) (vAt gi) table visited)
    (fun visited kb rest s' hl h => sliceTurns_ok hd hgn h fun gi hgi base q hq =>
      hturn gi hgi visited kb (by rw [hl]; simp) base q hq)
    (s := s₁) h₁
  refine Returns.bind hloop fun s₂ h₂ => ?_
  refine endSlice_ok ops hd h₂ fun gi hgi base w hw => ?_
  rw [← hcount gi] at hw ⊢
  exact Query.finish_ok ops hw

end

/-- The slices of a group make up the group. -/
theorem groupSlices_ok {group hqBase : Nat} {s : SliceState β} (final : Nat → Done β)
    {slice : (g0 gn : Nat) → SliceState β → Checked (SliceState β)} (hd : 0 < d) (hs : s.Sized)
    (halloc : ∀ g < group, s.work.Allocated (rowAt out d (hqBase + g)) d)
    (hslice : ∀ g0 < group, ∀ s : SliceState β, s.Sized →
      (∀ gi < min kAttnDecodeGroupChunk (group - g0),
        s.work.Allocated (rowAt out d (hqBase + g0 + gi)) d) →
      (slice g0 (min kAttnDecodeGroupChunk (group - g0)) s).Returns fun s' => s'.Sized ∧
        s.work.Written s'.work out d
          ((List.range (min kAttnDecodeGroupChunk (group - g0))).map fun gi =>
            (hqBase + g0 + gi, final (g0 + gi)))) :
    (groupSlices group slice s).Returns fun s' => s'.Sized ∧
      s.work.Written s'.work out d ((List.range group).map fun g => (hqBase + g, final g)) := by
  have hjobs : (strided group kAttnDecodeGroupChunk).flatMap (fun g0 =>
      (List.range (min kAttnDecodeGroupChunk (group - g0))).map fun gi =>
        (hqBase + g0 + gi, final (g0 + gi))) =
      (List.range group).map fun g => (hqBase + g, final g) := by
    have hslices : ∀ g0 ∈ strided group kAttnDecodeGroupChunk,
        ((List.range (min kAttnDecodeGroupChunk (group - g0))).map fun gi =>
          (hqBase + g0 + gi, final (g0 + gi))) =
        (span g0 (min (g0 + kAttnDecodeGroupChunk) group)).map fun g => (hqBase + g, final g) := by
      intro g0 _
      have hwidth : min (g0 + kAttnDecodeGroupChunk) group - g0 =
          min kAttnDecodeGroupChunk (group - g0) := by omega
      rw [span_eq_map, hwidth, List.map_map]
      refine List.map_congr_left fun gi _ => ?_
      show _ = (hqBase + (g0 + gi), final (g0 + gi))
      rw [Nat.add_assoc]
    rw [List.flatMap_congr hslices, ← List.map_flatMap, flatMap_strided _ (by decide)]
  rw [← hjobs]
  refine jobsLoop_ok (fun s : SliceState β => s.work) SliceState.Sized
    (fun g0 => (List.range (min kAttnDecodeGroupChunk (group - g0))).map fun gi =>
      (hqBase + g0 + gi, final (g0 + gi))) hd ?_ ?_ hs ?_
  · rw [hjobs, List.map_map]
    exact List.Nodup.map (fun a b h => Nat.add_left_cancel h) List.nodup_range
  · intro g0 hg0 s hs hal
    obtain ⟨i, hi, rfl⟩ := List.mem_map.mp hg0
    refine hslice _ (lt_blocks (List.mem_range.mp hi)) s hs fun gi hgi => ?_
    exact hal _ (List.mem_map.mpr ⟨gi, List.mem_range.mpr hgi, rfl⟩)
  · rw [hjobs]
    intro y hy
    obtain ⟨g, hg, rfl⟩ := List.mem_map.mp hy
    exact halloc g (List.mem_range.mp hg)

/-! ### Groups

The heads that share a kv head are cut into slices.  Every head is in one of them, and the rows
of different groups do not meet. -/

/-- The rows of the heads of all groups. -/
theorem groupRows_eq (kvHeads group : Nat) :
    ((List.range kvHeads).flatMap fun hk => (List.range group).map fun g => hk * group + g) =
      List.range (kvHeads * group) := by
  have hgrid := flatMap_grid kvHeads group fun hk g => [hk * group + g]
  have hone : ∀ hk, (List.range group).map (fun g => hk * group + g) =
      (List.range group).flatMap fun g => [hk * group + g] := fun hk => List.map_eq_flatMap
  rw [List.flatMap_congr fun hk _ => hone hk, ← hgrid]
  calc ((List.range (kvHeads * group)).flatMap fun i => [i / group * group + i % group])
      = (List.range (kvHeads * group)).flatMap fun i => [i] :=
        List.flatMap_congr fun i _ => by rw [Nat.div_add_mod']
    _ = List.range (kvHeads * group) := by
        rw [← List.map_eq_flatMap, List.map_id']

theorem span_sublist_range {lo hi n : Nat} (h : hi ≤ n) :
    (span lo hi).Sublist (List.range n) := by
  by_cases hle : lo ≤ hi
  · exact (List.sublist_append_right _ _).trans
      ((range_append_span hle).symm ▸ List.range_sublist.mpr h)
  · rw [span, show hi - lo = 0 by omega]
    exact List.nil_sublist _

/-- A loop over kv heads each of which serves its group. -/
theorem groups_ok {kvHeads group unitBegin unitEnd : Nat} {job : Nat → Nat → Done β}
    {unit : SliceState β → Nat → Checked (SliceState β)} (hd : 0 < d) (hend : unitEnd ≤ kvHeads)
    (halloc : ∀ r < kvHeads * group, w.Allocated (rowAt out d r) d)
    (hunit : ∀ hk < kvHeads, ∀ s : SliceState β, s.Sized →
      (∀ g < group, s.work.Allocated (rowAt out d (hk * group + g)) d) →
      (unit s hk).Returns fun s' => s'.Sized ∧ s.work.Written s'.work out d
        ((List.range group).map fun g => (hk * group + g, job hk g))) :
    ((span unitBegin unitEnd).foldlM unit (SliceState.declared w)).Returns fun s' =>
      w.Written s'.work out d ((span unitBegin unitEnd).flatMap fun hk =>
        (List.range group).map fun g => (hk * group + g, job hk g)) := by
  have hlt : ∀ hk ∈ span unitBegin unitEnd, hk < kvHeads := by
    intro hk hhk
    have := mem_span.mp hhk
    omega
  have hrow : ∀ hk < kvHeads, ∀ g < group, hk * group + g < kvHeads * group := by
    intro hk hhk g hg
    have hmul : (hk + 1) * group ≤ kvHeads * group := Nat.mul_le_mul_right _ hhk
    rw [Nat.succ_mul] at hmul
    omega
  refine (jobsLoop_ok (fun s : SliceState β => s.work) SliceState.Sized
    (fun hk => (List.range group).map fun g => (hk * group + g, job hk g)) hd ?_ ?_
    (s := SliceState.declared w) ⟨List.length_replicate, List.length_replicate,
      List.length_replicate⟩ ?_).mono fun s' hs' => hs'.2
  · have hrows : (((span unitBegin unitEnd).flatMap fun hk =>
        (List.range group).map fun g => (hk * group + g, job hk g)).map Prod.fst) =
        (span unitBegin unitEnd).flatMap fun hk => (List.range group).map fun g =>
          hk * group + g := by
      rw [List.map_flatMap]
      refine List.flatMap_congr fun hk _ => ?_
      rw [List.map_map]
      rfl
    rw [hrows]
    have hnodup : (List.range (kvHeads * group)).Nodup := List.nodup_range
    rw [← groupRows_eq] at hnodup
    exact hnodup.sublist ((span_sublist_range hend).flatMap _)
  · intro hk hhk s hs hal
    refine hunit hk (hlt hk hhk) s hs fun g hg => ?_
    exact hal _ (List.mem_map.mpr ⟨g, List.mem_range.mpr hg, rfl⟩)
  · intro y hy
    obtain ⟨hk, hhk, hy⟩ := List.mem_flatMap.mp hy
    obtain ⟨g, hg, rfl⟩ := List.mem_map.mp hy
    exact halloc _ (hrow hk (hlt hk hhk) g (List.mem_range.mp hg))

/-! ### Contiguous decode

The keys of a head lie one behind the other, and a unit is up to 64 of them. -/

namespace DecodeArgs

/-- What head `g` of the group of kv head `hk` attends to. -/
def query (a : DecodeArgs β) (hk g : Nat) : Query β where
  q := (a.q.advance ((hk * a.group + g) * a.d : Nat)).rowD a.d
  k s := (a.k.advance (hk * a.lDim * a.d + s * a.d : Nat)).rowD a.d
  v s := (a.v.advance (hk * a.lDim * a.d + s * a.d : Nat)).rowD a.d
  count := a.lDim
  scale := a.scale

/-- What the row of that head comes to. -/
def done [LT β] [DecidableLT β] (ops : Ops β) (a : DecodeArgs β) (hk g : Nat) : Done β :=
  (a.query hk g).done ops (rowMax ops) a.d
    (fun s => a.k.offset + (hk * a.lDim * a.d + s * a.d : Nat))
    (fun s => a.v.offset + (hk * a.lDim * a.d + s * a.d : Nat)) []

/-- What a caller promises. -/
structure Legal (a : DecodeArgs β) (kvHeads : Nat) : Prop where
  d : 0 < a.d
  q : a.q.Holds (kvHeads * a.group * a.d)
  k : a.k.Holds (kvHeads * a.lDim * a.d)
  v : a.v.Holds (kvHeads * a.lDim * a.d)

end DecodeArgs

/-- The row of a head is among those of all heads. -/
theorem headRow_fits {kvHeads group hk g d : Nat} (hhk : hk < kvHeads) (hg : g < group) :
    (hk * group + g) * d + d ≤ kvHeads * group * d := by
  have hmul : (hk + 1) * group ≤ kvHeads * group := Nat.mul_le_mul_right _ hhk
  rw [Nat.succ_mul] at hmul
  have hmul' : (hk * group + g + 1) * d ≤ kvHeads * group * d :=
    Nat.mul_le_mul_right d (by omega)
  rwa [Nat.succ_mul] at hmul'

section

variable [LT β] [DecidableLT β] (ops) {a : DecodeArgs β} {kvHeads : Nat}

theorem decodeUnitsImpl_ok (ha : a.Legal kvHeads) (unitBegin : Nat) {unitEnd : Nat}
    (hend : unitEnd ≤ kvHeads)
    (halloc : ∀ r < kvHeads * a.group, w.Allocated (rowAt a.out a.d r) a.d) :
    (decodeUnitsImpl ops a unitBegin unitEnd w).Returns fun w' =>
      w.Written w' a.out a.d ((span unitBegin unitEnd).flatMap fun hk =>
        (List.range a.group).map fun g => (hk * a.group + g, a.done ops hk g)) := by
  refine Returns.bind (groups_ok ha.d hend halloc ?_) fun s' hs' => returns_pure hs'
  intro hk hhk s hs hal
  refine groupSlices_ok (a.done ops hk) ha.d hs hal ?_
  intro g0 hg0 s hs hal
  have hcount : ((a.lDim : Int) - 1 + 1).toNat = a.lDim := by omega
  rw [decodeGroupSlice, hcount]
  have htable : (strided a.lDim kAttnKb).flatMap (fun _ => ([] : List Int)) = [] :=
    List.flatMap_eq_nil_iff.mpr fun _ _ => rfl
  have hslice := slice_ok ops (rowMax ops) (fun gi => a.query hk (g0 + gi))
    (fun _ s => a.k.offset + (hk * a.lDim * a.d + s * a.d : Nat))
    (fun _ s => a.v.offset + (hk * a.lDim * a.d + s * a.d : Nat)) (fun _ => [])
    (fun kb gi => contiguousBlock ops (a.out + ((hk * a.group + g0 + gi) * a.d : Nat))
      (a.q.advance ((hk * a.group + g0 + gi) * a.d : Nat))
      ((a.k.advance (hk * a.lDim * a.d : Nat)).advance (kb * a.d : Nat))
      ((a.v.advance (hk * a.lDim * a.d : Nat)).advance (kb * a.d : Nat))
      (nValid ((a.lDim : Int) - 1) a.lDim kb) a.d a.scale)
    ha.d (Nat.min_le_left _ _) hs hal (fun _ => rfl) ?_
  · rw [htable] at hslice
    exact hslice
  · intro gi hgi visited kb hkb base q hq
    have hlt : kb < a.lDim := (a.query hk (g0 + gi)).lt_of_mem_strided hkb
    have hlimit : (a.lDim : Int) - 1 + 1 = (a.lDim : Nat) := by omega
    have hwidth : nValid ((a.lDim : Int) - 1) a.lDim kb = (a.query hk (g0 + gi)).width kb :=
      nValid_eq hlimit le_rfl hlt
    have hfit : kb + (a.query hk (g0 + gi)).width kb ≤ a.lDim := by
      rw [Query.width]
      show kb + min kAttnKb (a.lDim - kb) ≤ a.lDim
      omega
    have hkv : hk * a.lDim * a.d + a.lDim * a.d ≤ kvHeads * a.lDim * a.d := by
      have hmul : (hk + 1) * a.lDim * a.d ≤ kvHeads * a.lDim * a.d :=
        Nat.mul_le_mul_right _ (Nat.mul_le_mul_right _ hhk)
      rwa [Nat.succ_mul, Nat.add_mul] at hmul
    have hg : g0 + gi < a.group := by
      have := hgi
      omega
    have hqRow : (a.q.advance ((hk * a.group + g0 + gi) * a.d : Nat)).row a.d =
        .ok (a.query hk (g0 + gi)).q := by
      rw [Nat.add_assoc]
      exact ha.q.row (headRow_fits hhk hg)
    rw [hwidth, Query.progress_append]
    exact contiguousBlock_ok ops hq (Nat.min_le_left _ _) hqRow
      ((ha.k.finds hkv).drop hfit) ((ha.v.finds hkv).drop hfit)

end

/-! ### Paged decode

A unit is found block by block through the table.  Since the block size divides 64, a block lies
in one unit, and the keys come in the order of their positions. -/

namespace PagedDecodeArgs

/-- The offset in a slab of the row of key `s` of kv head `hk`. -/
def slot (a : PagedDecodeArgs β) (hk s : Nat) : Int :=
  a.blockTable.getD (s / a.blockSize) 0 * a.blockStride + (hk * (a.blockSize * a.d) : Nat) +
    (s % a.blockSize * a.d : Nat)

/-- What head `g` of the group of kv head `hk` attends to. -/
def query (a : PagedDecodeArgs β) (hk g : Nat) : Query β where
  q := (a.q.advance ((hk * a.group + g) * a.d : Nat)).rowD a.d
  k s := (a.kSlab.advance (a.slot hk s)).rowD a.d
  v s := (a.vSlab.advance (a.slot hk s)).rowD a.d
  count := a.length
  scale := a.scale

/-- The positions of the block table that are looked up for a head. -/
def tableReads (a : PagedDecodeArgs β) : List Int :=
  (strided a.length kAttnKb).flatMap fun kb =>
    lookups (kb / a.blockSize) (blocks (min kAttnKb (a.length - kb)) a.blockSize) ++
      lookups (kb / a.blockSize) (blocks (min kAttnKb (a.length - kb)) a.blockSize)

/-- What the row of that head comes to. -/
def done [LT β] [DecidableLT β] (ops : Ops β) (a : PagedDecodeArgs β) (hk g : Nat) : Done β :=
  (a.query hk g).done ops (piecesMax ops a.blockSize) a.d
    (fun s => a.kSlab.offset + a.slot hk s) (fun s => a.vSlab.offset + a.slot hk s) a.tableReads

/-- What a caller promises; nothing is said of blocks that hold no key of the sequence. -/
structure Legal (a : PagedDecodeArgs β) (kvHeads : Nat) : Prop where
  d : 0 < a.d
  blockSize : 0 < a.blockSize
  divides : a.blockSize ∣ kAttnKb
  table : blocks a.length a.blockSize ≤ a.blockTable.length
  q : a.q.Holds (kvHeads * a.group * a.d)
  k : ∀ hk < kvHeads, ∀ s < a.length, (a.kSlab.advance (a.slot hk s)).Holds a.d
  v : ∀ hk < kvHeads, ∀ s < a.length, (a.vSlab.advance (a.slot hk s)).Holds a.d

variable {a : PagedDecodeArgs β} {kvHeads : Nat}

/-- The keys of a unit are found behind the table. -/
theorem findsPaged (hbs : 0 < a.blockSize) (hdvd : a.blockSize ∣ kAttnKb)
    (htable : blocks a.length a.blockSize ≤ a.blockTable.length) {slab : ConstFloats β} {hk : Nat}
    (hslab : ∀ s < a.length, (slab.advance (a.slot hk s)).Holds a.d) {kb n : Nat}
    (hkb : kAttnKb ∣ kb) (hn : kb + n ≤ a.length) :
    FindsPaged a slab (hk * (a.blockSize * a.d)) (kb / a.blockSize) n
      (fun i => (slab.advance (a.slot hk (kb + i))).rowD a.d)
      (fun i => slab.offset + a.slot hk (kb + i)) := by
  intro b hb
  obtain ⟨m, rfl⟩ := hdvd.trans hkb
  have hlb : a.blockSize * m / a.blockSize = m := Nat.mul_div_cancel_left m hbs
  have hlt : m + b < a.blockTable.length := by
    have hle := blocks_mul_ge a.length hbs
    have hpos : (m + b) * a.blockSize < blocks a.length a.blockSize * a.blockSize := by
      rw [Nat.add_mul, Nat.mul_comm m]
      omega
    exact (Nat.lt_of_mul_lt_mul_right hpos).trans_le htable
  refine ⟨a.blockTable[m + b], ?_, ?_⟩
  · rw [hlb]
    exact readAt_natCast hlt
  · intro i hi
    have hslot : a.slot hk (a.blockSize * m + (b * a.blockSize + i)) =
        a.blockTable[m + b] * a.blockStride + (hk * (a.blockSize * a.d) : Nat) +
          (i * a.d : Nat) := by
      have hsum : a.blockSize * m + (b * a.blockSize + i) = i + a.blockSize * (m + b) := by
        rw [Nat.mul_add, Nat.mul_comm b]
        omega
      have hilt : i < a.blockSize := by omega
      rw [slot, hsum, Nat.add_mul_div_left _ _ hbs, Nat.div_eq_of_lt hilt, Nat.zero_add,
        Nat.add_mul_mod_self_left, Nat.mod_eq_of_lt hilt, List.getD_eq_getElem _ _ hlt]
    have heq : ((slab.advance (a.blockTable[m + b] * a.blockStride +
        (hk * (a.blockSize * a.d) : Nat))).advance (i * a.d : Nat)) =
        slab.advance (a.slot hk (a.blockSize * m + (b * a.blockSize + i))) := by
      rw [hslot]
      simp only [ConstFloats.advance, Int.add_assoc]
    refine ⟨?_, ?_⟩
    · rw [heq]
      refine (hslab _ ?_).row_eq
      omega
    · have hoffset := congrArg ConstFloats.offset heq
      exact hoffset

end PagedDecodeArgs

section

variable [LT β] [DecidableLT β] (ops) {a : PagedDecodeArgs β} {kvHeads : Nat}

theorem pagedDecodeUnitsImpl_ok (ha : a.Legal kvHeads) (unitBegin : Nat) {unitEnd : Nat}
    (hend : unitEnd ≤ kvHeads)
    (halloc : ∀ r < kvHeads * a.group, w.Allocated (rowAt a.out a.d r) a.d) :
    (pagedDecodeUnitsImpl ops a unitBegin unitEnd w).Returns fun w' =>
      w.Written w' a.out a.d ((span unitBegin unitEnd).flatMap fun hk =>
        (List.range a.group).map fun g => (hk * a.group + g, a.done ops hk g)) := by
  refine Returns.bind (groups_ok ha.d hend halloc ?_) fun s' hs' => returns_pure hs'
  intro hk hhk s hs hal
  refine groupSlices_ok (a.done ops hk) ha.d hs hal ?_
  intro g0 hg0 s hs hal
  have hcount : ((a.length : Int) - 1 + 1).toNat = a.length := by omega
  rw [pagedDecodeGroupSlice, hcount]
  refine slice_ok ops (piecesMax ops a.blockSize) (fun gi => a.query hk (g0 + gi))
    (fun _ s => a.kSlab.offset + a.slot hk s) (fun _ s => a.vSlab.offset + a.slot hk s)
    (fun kb => lookups (kb / a.blockSize) (blocks (min kAttnKb (a.length - kb)) a.blockSize) ++
      lookups (kb / a.blockSize) (blocks (min kAttnKb (a.length - kb)) a.blockSize))
    (fun kb gi => pagedBlock ops a (hk * (a.blockSize * a.d))
      (a.out + ((hk * a.group + g0 + gi) * a.d : Nat))
      (a.q.advance ((hk * a.group + g0 + gi) * a.d : Nat)) (kb / a.blockSize)
      (nValid ((a.length : Int) - 1) a.length kb))
    ha.d (Nat.min_le_left _ _) hs hal (fun _ => rfl) ?_
  intro gi hgi visited kb hkb base q hq
  have hlt : kb < a.length := (a.query hk (g0 + gi)).lt_of_mem_strided hkb
  have hlimit : (a.length : Int) - 1 + 1 = (a.length : Nat) := by omega
  have hwidth : nValid ((a.length : Int) - 1) a.length kb = (a.query hk (g0 + gi)).width kb :=
    nValid_eq hlimit le_rfl hlt
  have hfit : kb + (a.query hk (g0 + gi)).width kb ≤ a.length := by
    rw [Query.width]
    show kb + min kAttnKb (a.length - kb) ≤ a.length
    omega
  have hg : g0 + gi < a.group := by
    have := hgi
    omega
  have hqRow : (a.q.advance ((hk * a.group + g0 + gi) * a.d : Nat)).row a.d =
      .ok (a.query hk (g0 + gi)).q := by
    rw [Nat.add_assoc]
    exact ha.q.row (headRow_fits hhk hg)
  have hdvd : kAttnKb ∣ kb := by
    obtain ⟨i, hi, rfl⟩ := List.mem_map.mp hkb
    exact Nat.dvd_mul_left _ _
  rw [hwidth, Query.progress_append]
  exact pagedBlock_ok ops hq ha.blockSize (Nat.min_le_left _ _) hqRow
    (PagedDecodeArgs.findsPaged ha.blockSize ha.divides ha.table (ha.k hk hhk) hdvd hfit)
    (PagedDecodeArgs.findsPaged ha.blockSize ha.divides ha.table (ha.v hk hhk) hdvd hfit)

end

end Attention

end InferenceEngine
