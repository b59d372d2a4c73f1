/-
A row of a batch gets what it would get alone.

Every stage empties a buffer, or fills all of it, before it reads it, so what a slot of scratch
held does not reach the result: `sampleRowInto_fst` is the row on its own, for any scratch.  The
rows of a call write to slots of their own, so the order in which they run does not show.
-/
import InferenceEngine.Sampling.BatchedSampler
import InferenceEngine.Lib.Ensures
import InferenceEngine.Proofs.Nucleus

namespace InferenceEngine

open Except

/-! ### Buffers

Scratch is reused from call to call.  A buffer that is assigned before it is read may have held
anything, and growing it does not matter either. -/

section

variable {α β : Type}

theorem writeLoop_append (f : α → Option β) : ∀ (rest : List α) (front buffer : List β),
    buffer.length = rest.length →
    writeLoop f rest front.length (front ++ buffer)
      = front ++ List.zipWith (fun x old => (f x).getD old) rest buffer := by
  intro rest
  induction rest with
  | nil =>
      intro front buffer hlen
      rw [List.length_eq_zero_iff.mp hlen]
      rfl
  | cons x rest ih =>
      intro front buffer hlen
      cases buffer with
      | nil => simp at hlen
      | cons old buffer =>
          have hlen' : buffer.length = rest.length := by simpa using hlen
          have hstep : ∀ y, writeLoop f rest (front.length + 1) (front ++ y :: buffer)
              = front ++ y :: List.zipWith (fun x old => (f x).getD old) rest buffer := by
            intro y
            have hrest := ih (front ++ [y]) buffer hlen'
            simpa using hrest
          rw [writeLoop]
          cases hf : f x with
          | none =>
              rw [List.zipWith_cons_cons, hf]
              exact hstep old
          | some y =>
              simp only [List.set_append_right _ _ (le_refl _), Nat.sub_self, List.set_cons_zero]
              rw [List.zipWith_cons_cons, hf]
              exact hstep y

/-- What was in the buffer before it was assigned does not matter. -/
theorem writeLoop_assigned (f : α → Option β) (row : List α) (buffer : List β) (value : β) :
    writeLoop f row 0 (assigned buffer row.length value)
      = row.map fun x => (f x).getD value := by
  have h := writeLoop_append f row [] (assigned buffer row.length value) (by simp [assigned])
  rw [List.nil_append, List.nil_append, List.length_nil] at h
  rw [h, assigned]
  clear h
  induction row with
  | nil => rfl
  | cons x row ih =>
      rw [List.length_cons, List.replicate_succ, List.zipWith_cons_cons, ih, List.map_cons]

end

/-! ### The stages

The three stages with buffers, each equal to the stage on values. -/

section

variable (m : FloatModel) (logits : List F32)

private theorem shiftInto_eq (expScratch : List F32) :
    (writeLoop (fun x => some (F32.sub m.single x (maxLogit logits))) logits 0
      (assigned expScratch logits.length (.finite 0))).map m.exp = expShifted m logits := by
  rw [writeLoop_assigned, List.map_map]
  rfl

theorem softmaxInto_eq (probs expScratch : List F32) :
    softmaxInto m logits probs expScratch = (softmax m logits, expShifted m logits) := by
  unfold softmaxInto
  simp only [shiftInto_eq]
  have hlen : logits.length = (expShifted m logits).length := by simp [expShifted]
  rw [hlen, writeLoop_assigned]
  simp [softmax]

theorem logSoftmaxInto_eq (lp expScratch : List F32) :
    logSoftmaxInto m logits lp expScratch = (logSoftmax m logits, expShifted m logits) := by
  unfold logSoftmaxInto
  simp only [shiftInto_eq]
  rw [writeLoop_assigned]
  refine Prod.ext (List.map_congr_left fun x _ => ?_) rfl
  by_cases hx : x.isFinite = true
  · simp [hx]
  · simp [hx]

end

/-! ### A row

The sampler of a row is followed through its branches.  The generator and the counters are not
part of the scratch, so the result and the state afterwards are those of the row alone. -/

section

variable (m : FloatModel) (logits : List F32) (context : SampleContext) (params : SamplingParams)
  (seed step : BitVec 64) (wantLogprobs : Bool) (scratch : RowScratch)

/-- The same row, and the same refusal. -/
theorem greedyRow_fst : (greedyRow m logits context params scratch).1
    = if penaltiesActive params then penalizedRow m logits context params else .ok logits := by
  unfold greedyRow
  by_cases hp : penaltiesActive params = true
  · rw [if_pos hp, if_pos hp]
    dsimp only
    cases penalizedRow m logits context params <;> rfl
  · rw [if_neg hp, if_neg hp]

theorem sampleGreedyInto_fst :
    (sampleGreedyInto m logits context params wantLogprobs scratch).map Prod.fst
      = sampleGreedy m logits context params wantLogprobs := by
  unfold sampleGreedyInto sampleGreedy
  by_cases hfast : (!penaltiesActive params && !wantLogprobs) = true
  · rw [if_pos hfast, if_pos hfast]
    rfl
  · rw [if_neg hfast, if_neg hfast]
    by_cases hnil : logits = []
    · rw [if_pos hnil, if_pos hnil]
      rfl
    · rw [if_neg hnil, if_neg hnil, ← greedyRow_fst m logits context params scratch]
      obtain ⟨row, scratch'⟩ := greedyRow m logits context params scratch
      cases row with
      | error status => rfl
      | ok row =>
          dsimp only
          cases argmaxRow row with
          | error status => rfl
          | ok token =>
              dsimp only
              by_cases hw : wantLogprobs = true
              · rw [if_pos hw, if_pos hw]
                cases checkFinite row with
                | error status => rfl
                | ok _ =>
                    simp only [logSoftmaxInto_eq]
                    cases extractLogprobs m (logSoftmax m row) token params.logprobs <;> rfl
              · rw [if_neg hw, if_neg hw]
                rfl

theorem drawTokenInto_fst :
    (drawTokenInto m params seed step wantLogprobs scratch).map Prod.fst
      = drawToken m scratch.logits params seed step wantLogprobs := by
  unfold drawTokenInto drawToken
  simp only [logSoftmaxInto_eq, softmaxInto_eq]
  cases hw : wantLogprobs with
  | false =>
      simp only [Bool.false_eq_true, if_false]
      rw [← applyTopPInto_fst m _ params.topP scratch.topPOrder]
      cases applyTopPInto m _ params.topP scratch.topPOrder <;> rfl
  | true =>
      simp only [if_true]
      rw [← applyTopPInto_fst m _ params.topP scratch.topPOrder]
      cases applyTopPInto m _ params.topP scratch.topPOrder with
      | error fault => rfl
      | ok nucleus =>
          simp only [Except.map, ok_bind]
          cases extractLogprobs m (logSoftmax m scratch.logits) _ params.logprobs <;> rfl

theorem sampleStochasticInto_fst :
    (sampleStochasticInto m logits context params seed step wantLogprobs scratch).map Prod.fst
      = sampleStochastic m logits context params seed step wantLogprobs := by
  unfold sampleStochasticInto sampleStochastic
  by_cases hnil : logits = []
  · rw [if_pos hnil, if_pos hnil]
    rfl
  · rw [if_neg hnil, if_neg hnil]
    cases checkFinite logits with
    | error status => rfl
    | ok _ =>
        dsimp only
        cases penalizedRow m logits context params with
        | error status => rfl
        | ok work =>
            dsimp only
            have hdraw := drawTokenInto_fst m params seed step wantLogprobs
              { scratch with logits := applyTemperature m work params.temperature }
            rw [← hdraw]
            cases drawTokenInto m params seed step wantLogprobs
              { scratch with logits := applyTemperature m work params.temperature } <;> rfl

/-- **A row does not see what its slot of scratch held.** -/
theorem sampleRowInto_fst :
    (sampleRowInto m logits context params seed wantLogprobs scratch).map Prod.fst
      = sampleRow m logits context params seed wantLogprobs := by
  unfold sampleRowInto sampleRow
  by_cases htemp : params.temperature = .finite 0
  · rw [if_pos htemp, if_pos htemp]
    exact sampleGreedyInto_fst m logits context params wantLogprobs scratch
  · rw [if_neg htemp, if_neg htemp]
    exact sampleStochasticInto_fst m logits context params seed _ wantLogprobs scratch

end

/-! ### The rows of a call

Rows write to slots of their own and may run in any order.  `Progress` says which of them are
done and that the others have not been touched. -/

namespace BatchCall

variable (m : FloatModel) {call : BatchCall}

/-- What the checks before the region establish. -/
structure Valid (call : BatchCall) : Prop where
  out_length : call.out.length = call.rows.length
  status_length : call.rowStatus.length = call.rows.length
  block : call.logits.length = call.rows.length * call.vocab.toNat
  sampler : ∀ row ∈ call.rows, ∃ sampler, row.sampler = some sampler

theorem valid_of_validate (h : call.validate = .ok ()) : call.Valid := by
  unfold validate at h
  split at h
  · cases h
  split at h
  · cases h
  rename_i hout
  split at h
  · cases h
  rename_i hstatus
  split at h
  · cases h
  rename_i hblock
  split at h
  · cases h
  rename_i hnull
  rw [mulSize_of_lt call.block_fits] at hblock
  refine ⟨not_not.mp hout, not_not.mp hstatus, not_not.mp hblock, fun row hrow => ?_⟩
  have hsome := List.findIdx?_eq_none_iff.mp hnull row hrow
  exact Option.isSome_iff_exists.mp (by simpa using hsome)

theorem Valid.rowLogits_eq (h : call.Valid) {b : Nat} (hb : b < call.rows.length) :
    call.rowLogits b = .ok (BatchedSampler.row call.logits call.vocab.toNat b) := by
  refine if_pos ?_
  rw [h.block, ← Nat.succ_mul]
  exact Nat.mul_le_mul_right _ hb

/-- The rows in `rest` are still to run, and the others are done. -/
structure Progress (call : BatchCall) (rest : List Nat) (slots : BatchSlots) : Prop where
  nodup : rest.Nodup
  scratch_length : call.rows.length ≤ slots.scratch.length
  out_length : slots.out.length = call.rows.length
  status_length : slots.rowStatus.length = call.rows.length
  todo : ∀ b ∈ rest, slots.out[b]? = call.out[b]?
  done : ∀ b row, b ∉ rest → call.rows[b]? = some row → call.RowSeparate m slots b row

variable {m} {rest : List Nat} {slots : BatchSlots} {b : Nat} {row : BatchRow} {sampler : Sampler}

/-- A row that writes to its own slots leaves the others as they are. -/
theorem RowSeparate.of_slots {slots' : BatchSlots} (h : call.RowSeparate m slots b row)
    (hout : slots'.out[b]? = slots.out[b]?) (hstatus : slots'.rowStatus[b]? = slots.rowStatus[b]?) :
    call.RowSeparate m slots' b row := by
  obtain ⟨sampler, result, hsampler, hown, hshown, hvalue⟩ := h.shown
  exact ⟨sampler, result, hsampler, hown, hstatus.trans hshown, hout.trans hvalue⟩

/-- **One row** that returns from its sampler. -/
theorem Progress.runRow (h : call.Progress m (b :: rest) slots) (hvalid : call.Valid)
    (hrow : call.rows[b]? = some row) (hsampler : row.sampler = some sampler)
    {result : StatusOr SampleResult} (hown : call.own m b row sampler = .ok result) :
    (call.runRow m slots b).Returns (call.Progress m rest) := by
  have hb : b < call.rows.length := (List.getElem?_eq_some_iff.mp hrow).1
  have hread : readAt call.rows b = .ok row := by
    rw [readAt_natCast hb]
    exact congrArg _ (List.getElem?_eq_some_iff.mp hrow).2
  obtain ⟨hnotin, hnodup⟩ := List.nodup_cons.mp h.nodup
  have hscratch := lt_of_lt_of_le hb h.scratch_length
  -- what is left in the scratch is not said
  have hfst := sampleRowInto_fst m (BatchedSampler.row call.logits call.vocab.toNat b) row.context
    sampler.params (BitVec.ofNat 64 sampler.seed) (0 < sampler.params.logprobs)
    slots.scratch[b]
  rw [show sampleRow m _ _ _ _ _ = call.own m b row sampler from rfl, hown] at hfst
  obtain ⟨⟨result', scratch'⟩, hrun, hresult⟩ : ∃ r, sampleRowInto m
      (BatchedSampler.row call.logits call.vocab.toNat b) row.context sampler.params
      (BitVec.ofNat 64 sampler.seed) (0 < sampler.params.logprobs) slots.scratch[b] = .ok r ∧
      r.1 = result := by
    cases hinto : sampleRowInto m _ _ _ _ _ slots.scratch[b] with
    | error fault =>
        rw [hinto] at hfst
        cases hfst
    | ok r =>
        rw [hinto] at hfst
        exact ⟨r, rfl, Except.ok.inj hfst⟩
  dsimp only at hresult
  subst hresult
  unfold BatchCall.runRow
  simp only [hread, hvalid.rowLogits_eq hb, hsampler, readAt_natCast hscratch, hrun, ok_bind,
    writeAt_natCast hscratch]
  -- the other rows
  have hother : ∀ slots' : BatchSlots, (∀ b', b' ≠ b → slots'.out[b']? = slots.out[b']?) →
      (∀ b', b' ≠ b → slots'.rowStatus[b']? = slots.rowStatus[b']?) →
      call.RowSeparate m slots' b row →
      (∀ b' ∈ rest, slots'.out[b']? = call.out[b']?) ∧
      ∀ b' row', b' ∉ rest → call.rows[b']? = some row' → call.RowSeparate m slots' b' row' := by
    intro slots' hout hstatus hself
    refine ⟨fun b' hb' => ?_, fun b' row' hb' hrow' => ?_⟩
    · have hne : b' ≠ b := fun heq => hnotin (heq ▸ hb')
      rw [hout b' hne]
      exact h.todo b' (List.mem_cons_of_mem _ hb')
    · by_cases hne : b' = b
      · subst hne
        rw [hrow] at hrow'
        cases hrow'
        exact hself
      · have hnot : b' ∉ b :: rest := by simp [hne, hb']
        exact (h.done b' row' hnot hrow').of_slots (hout b' hne) (hstatus b' hne)
  cases result' with
  | ok value =>
      simp only [writeAt_natCast (h.out_length.symm ▸ hb),
        writeAt_natCast (h.status_length.symm ▸ hb), ok_bind]
      refine returns_pure ?_
      have hrest := hother ⟨slots.scratch.set b scratch', slots.out.set b value,
        slots.rowStatus.set b (.ok ())⟩ (fun b' hne => List.getElem?_set_ne (Ne.symm hne))
        (fun b' hne => List.getElem?_set_ne (Ne.symm hne))
        ⟨sampler, .ok value, hsampler, hown,
          List.getElem?_set_self (h.status_length.symm ▸ hb),
          List.getElem?_set_self (h.out_length.symm ▸ hb)⟩
      exact ⟨hnodup, by simpa using h.scratch_length, by simpa using h.out_length,
        by simpa using h.status_length, hrest.1, hrest.2⟩
  | error status =>
      simp only [writeAt_natCast (h.status_length.symm ▸ hb), ok_bind]
      refine returns_pure ?_
      have hrest := hother ⟨slots.scratch.set b scratch', slots.out,
        slots.rowStatus.set b (.error status)⟩ (fun b' _ => rfl)
        (fun b' hne => List.getElem?_set_ne (Ne.symm hne))
        ⟨sampler, .error status, hsampler, hown,
          List.getElem?_set_self (h.status_length.symm ▸ hb), h.todo b (by simp)⟩
      exact ⟨hnodup, by simpa using h.scratch_length, h.out_length,
        by simpa using h.status_length, hrest.1, hrest.2⟩

/-- A row whose turn returns has returned from its sampler. -/
theorem own_of_runRow {slots' : BatchSlots} (hvalid : call.Valid)
    (hrow : call.rows[b]? = some row) (hsampler : row.sampler = some sampler)
    (hrun : call.runRow m slots b = .ok slots') :
    ∃ result, call.own m b row sampler = .ok result := by
  have hb : b < call.rows.length := (List.getElem?_eq_some_iff.mp hrow).1
  have hread : readAt call.rows b = .ok row := by
    rw [readAt_natCast hb]
    exact congrArg _ (List.getElem?_eq_some_iff.mp hrow).2
  unfold BatchCall.runRow at hrun
  simp only [hread, hvalid.rowLogits_eq hb, hsampler, ok_bind] at hrun
  obtain ⟨scratch, -, hrun⟩ := bind_eq_ok.mp hrun
  obtain ⟨r, hinto, -⟩ := bind_eq_ok.mp hrun
  have hfst := sampleRowInto_fst m (BatchedSampler.row call.logits call.vocab.toNat b) row.context
    sampler.params (BitVec.ofNat 64 sampler.seed) (0 < sampler.params.logprobs) scratch
  rw [hinto] at hfst
  exact ⟨r.1, hfst.symm⟩

theorem Progress.runRow_ensures (h : call.Progress m (b :: rest) slots) (hvalid : call.Valid)
    (hb : b < call.rows.length) : (call.runRow m slots b).Ensures (call.Progress m rest) := by
  intro slots' hrun
  have hrow := List.getElem?_eq_getElem hb
  obtain ⟨sampler, hsampler⟩ := hvalid.sampler _ (List.getElem_mem hb)
  obtain ⟨result, hown⟩ := own_of_runRow hvalid hrow hsampler hrun
  exact (h.runRow hvalid hrow hsampler hown).of_eq hrun

/-- At the start all rows are to run. -/
theorem progress_start (hvalid : call.Valid) (scratch : List RowScratch) :
    call.Progress m (Parallel.units call.chunks)
      ⟨BatchedSampler.grown scratch call.rows.length, call.out, call.rowStatus⟩ := by
  have hperm := call.partition.units_perm
  refine ⟨hperm.nodup_iff.mpr List.nodup_range, ?_, hvalid.out_length, hvalid.status_length,
    fun _ _ => rfl, fun b row hb hrow => ?_⟩
  · unfold BatchedSampler.grown
    rw [List.length_append, List.length_replicate]
    omega
  · have hlt := (List.getElem?_eq_some_iff.mp hrow).1
    exact absurd (hperm.mem_iff.mpr (List.mem_range.mpr (by omega))) hb

theorem unit_lt (hb : b ∈ Parallel.units call.chunks) : b < call.rows.length := by
  have := List.mem_range.mp (call.partition.units_perm.mem_iff.mp hb)
  omega

/-- What the region leaves, if it returns. -/
theorem region_ensures (hvalid : call.Valid) (scratch : List RowScratch) :
    ((Parallel.units call.chunks).foldlM (call.runRow m)
      ⟨BatchedSampler.grown scratch call.rows.length, call.out, call.rowStatus⟩).Ensures
      (call.Progress m []) := by
  refine (Ensures.foldlM (fun rest slots => call.Progress m rest slots ∧
    ∀ b ∈ rest, b < call.rows.length) ?_ _ _
    ⟨progress_start hvalid scratch, fun b => unit_lt⟩).mono fun _ h => h.1
  intro b rest slots h
  refine (h.1.runRow_ensures hvalid (h.2 b (by simp))).mono fun slots' hslots => ?_
  exact ⟨hslots, fun b' hb' => h.2 b' (List.mem_cons_of_mem _ hb')⟩

/-- The region returns when all rows do. -/
theorem region_returns (hvalid : call.Valid) (hreturn : ∀ b row sampler,
      call.rows[b]? = some row → row.sampler = some sampler →
      ∃ result, call.own m b row sampler = .ok result) (scratch : List RowScratch) :
    ((Parallel.units call.chunks).foldlM (call.runRow m)
      ⟨BatchedSampler.grown scratch call.rows.length, call.out, call.rowStatus⟩).Returns
      (call.Progress m []) := by
  refine (Returns.foldlM (fun rest slots => call.Progress m rest slots ∧
    ∀ b ∈ rest, b < call.rows.length) ?_ _ _
    ⟨progress_start hvalid scratch, fun b => unit_lt⟩).mono fun _ h => h.1
  intro b rest slots h
  have hb := h.2 b (by simp)
  have hrow := List.getElem?_eq_getElem hb
  obtain ⟨sampler, hsampler⟩ := hvalid.sampler _ (List.getElem_mem hb)
  obtain ⟨result, hown⟩ := hreturn b _ sampler hrow hsampler
  refine (h.1.runRow hvalid hrow hsampler hown).mono fun slots' hslots => ?_
  exact ⟨hslots, fun b' hb' => h.2 b' (List.mem_cons_of_mem _ hb')⟩

theorem Progress.separate (h : call.Progress m [] slots) (hvalid : call.Valid)
    (hcheck : call.validate = .ok ()) : call.Separate m (.ok (), slots) where
  status := hcheck.symm
  sizes := ⟨h.out_length.trans hvalid.out_length.symm,
    h.status_length.trans hvalid.status_length.symm⟩
  rejected := fun status hstatus => by
    rw [hcheck] at hstatus
    cases hstatus
  accepted := fun _ b row hrow => h.done b row List.not_mem_nil hrow

/-- A call that does not get to the region. -/
theorem separate_unchanged {status : StatusOr Unit} (hstatus : call.validate = status)
    (hrows : status = .ok () → call.rows = []) (scratch : List RowScratch) :
    call.Separate m (status, ⟨scratch, call.out, call.rowStatus⟩) where
  status := hstatus.symm
  sizes := ⟨rfl, rfl⟩
  rejected := fun _ _ => ⟨rfl, rfl⟩
  accepted := fun hok b row hrow => by
    rw [hrows (hstatus.symm.trans hok)] at hrow
    cases hrow

end BatchCall

/-! ### Calls

A call checks its arguments, runs its rows, and reports the first failure.  From one call to the
next only the scratch remains, and nobody reads it. -/

namespace BatchedSampler

open BatchCall

/-- The sampler without scratch and chunks rejects the same calls. -/
theorem sample_rejected (f : SampleRow) {call : BatchCall} {status : Status}
    (h : call.validate = .error status) :
    sample f call.logits call.vocab call.rows call.out call.rowStatus
      = (.error status, call.out, call.rowStatus) := by
  unfold validate at h
  unfold sample
  split at h
  · rename_i hvocab
    cases h
    rw [if_pos hvocab]
  rename_i hvocab
  rw [if_neg hvocab]
  split at h
  · rename_i hout
    cases h
    rw [if_pos hout]
  rename_i hout
  rw [if_neg hout]
  split at h
  · rename_i hstatus
    cases h
    rw [if_pos hstatus]
  rename_i hstatus
  rw [if_neg hstatus]
  have hblock : (call.logits.length : Int) ≠ call.rows.length * call.vocab ↔
      call.logits.length ≠ mulSize call.rows.length call.vocab.toNat := by
    rw [mulSize_of_lt call.block_fits]
    have hcast : (call.rows.length : Int) * call.vocab
        = ((call.rows.length * call.vocab.toNat : Nat) : Int) := by
      rw [Nat.cast_mul, Int.toNat_of_nonneg (by omega)]
    rw [hcast, ne_eq, Int.ofNat_inj]
  simp only [hblock]
  split at h
  · rename_i hsize
    cases h
    rw [if_pos hsize]
  rename_i hsize
  rw [if_neg hsize]
  generalize call.rows.findIdx? (fun r => r.sampler.isNone) = null at h ⊢
  cases null with
  | some b =>
      cases h
      rfl
  | none => cases h

variable (m : FloatModel)

/-- **The sampler that the engine is modelled with** is this one, where rows return: a function of
the rows alone, without scratch and without chunks. -/
theorem sample_of_separate {f : SampleRow} (hf : ∀ logits context params seed wantLogprobs,
      sampleRow m logits context params (BitVec.ofNat 64 seed) wantLogprobs
        = .ok (f logits context params seed wantLogprobs)) {call : BatchCall}
    {outcome : StatusOr Unit × BatchSlots} (h : call.Separate m outcome) :
    sample f call.logits call.vocab call.rows call.out call.rowStatus
      = (outcome.1, outcome.2.out, outcome.2.rowStatus) := by
  cases hcheck : call.validate with
  | error status =>
      obtain ⟨hout, hstatus⟩ := h.rejected status hcheck
      rw [sample_rejected f hcheck, h.status, hcheck, hout, hstatus]
  | ok _ =>
      have hvalid := valid_of_validate hcheck
      have hvocab : ¬call.vocab ≤ 0 := by
        intro hle
        unfold validate at hcheck
        rw [if_pos hle] at hcheck
        cases hcheck
      have hblock : (call.logits.length : Int) = call.rows.length * call.vocab := by
        rw [hvalid.block, Nat.cast_mul, Int.toNat_of_nonneg (by omega)]
      have hnull : call.rows.findIdx? (fun r => r.sampler.isNone) = none := by
        refine List.findIdx?_eq_none_iff.mpr fun row hrow => ?_
        obtain ⟨sampler, hsampler⟩ := hvalid.sampler row hrow
        rw [hsampler]
        rfl
      unfold sample
      rw [if_neg hvocab, if_neg (not_not.mpr hvalid.out_length),
        if_neg (not_not.mpr hvalid.status_length), if_neg (not_not.mpr hblock), hnull]
      have hslot : ∀ b (hb : b < call.rows.length), ∃ result,
          sampleOne f call.logits call.vocab.toNat b call.rows[b] = result ∧
          outcome.2.rowStatus[b]? = some (result.map fun _ => ()) ∧
          outcome.2.out[b]? = result.toOption.or call.out[b]? := by
        intro b hb
        obtain ⟨sampler, result, hsampler, hown, hstatus, hout⟩ :=
          (h.accepted hcheck b _ (List.getElem?_eq_getElem hb)).shown
        refine ⟨result, ?_, hstatus, ?_⟩
        · unfold sampleOne
          rw [hsampler]
          exact Except.ok.inj ((hf _ _ _ _ _).symm.trans hown)
        · cases result with
          | error status => exact hout
          | ok value => exact hout
      refine Prod.ext (h.status.trans hcheck).symm (Prod.ext (List.ext_getElem? fun b => ?_)
        (List.ext_getElem? fun b => ?_))
      · by_cases hb : b < call.rows.length
        · obtain ⟨result, hone, -, hout⟩ := hslot b hb
          show (List.zipWith _ (List.mapIdx _ call.rows) call.out)[b]? = outcome.2.out[b]?
          rw [hout, List.getElem?_zipWith, List.getElem?_mapIdx, List.getElem?_eq_getElem hb,
            List.getElem?_eq_getElem (hvalid.out_length.symm ▸ hb), Option.map_some, hone]
          cases result <;> rfl
        · rw [List.getElem?_eq_none (by
            rw [List.length_zipWith, List.length_mapIdx]
            omega), List.getElem?_eq_none (by rw [h.sizes.1, hvalid.out_length]; omega)]
      · by_cases hb : b < call.rows.length
        · obtain ⟨result, hone, hstatus, -⟩ := hslot b hb
          show (List.map _ (List.mapIdx _ call.rows))[b]? = outcome.2.rowStatus[b]?
          rw [hstatus, List.getElem?_map, List.getElem?_mapIdx, List.getElem?_eq_getElem hb,
            Option.map_some, Option.map_some, hone]
        · rw [List.getElem?_eq_none (by
            rw [List.length_map, List.length_mapIdx]
            omega), List.getElem?_eq_none (by rw [h.sizes.2, hvalid.status_length]; omega)]

theorem sampleInto_ensures (scratch : List RowScratch) (call : BatchCall) :
    (sampleInto m scratch call).Ensures (call.Separate m) := by
  unfold sampleInto
  cases hcheck : call.validate with
  | error status => exact ensures_pure (separate_unchanged hcheck (fun h => by cases h) _)
  | ok _ =>
      dsimp only
      by_cases hrows : call.rows = []
      · rw [if_pos hrows]
        exact ensures_pure (separate_unchanged hcheck (fun _ => hrows) _)
      · rw [if_neg hrows]
        have hvalid := valid_of_validate hcheck
        exact (region_ensures hvalid scratch).bind fun slots h =>
          ensures_pure (h.separate hvalid hcheck)

theorem sampleInto_returns (scratch : List RowScratch) (call : BatchCall)
    (hreturn : call.RowsReturn m) : (sampleInto m scratch call).Returns (call.Separate m) := by
  unfold sampleInto
  cases hcheck : call.validate with
  | error status => exact returns_pure (separate_unchanged hcheck (fun h => by cases h) _)
  | ok _ =>
      dsimp only
      by_cases hrows : call.rows = []
      · rw [if_pos hrows]
        exact returns_pure (separate_unchanged hcheck (fun _ => hrows) _)
      · rw [if_neg hrows]
        have hvalid := valid_of_validate hcheck
        exact (region_returns hvalid (hreturn hcheck) scratch).bind fun slots h =>
          returns_pure (h.separate hvalid hcheck)

/-- **Whatever calls came before**, each row of each call has in its slots what its own sampler
makes of its logits, and the calls return when those samplers do. -/
theorem sampleCalls_separate (calls : List BatchCall) (scratch : List RowScratch) :
    ((sampleCalls m calls scratch).Ensures fun outcomes =>
      List.Forall₂ (fun call => call.Separate m) calls outcomes) ∧
    ((∀ call ∈ calls, call.RowsReturn m) → (sampleCalls m calls scratch).Returns fun outcomes =>
      List.Forall₂ (fun call => call.Separate m) calls outcomes) := by
  induction calls generalizing scratch with
  | nil => exact ⟨ensures_pure .nil, fun _ => returns_pure .nil⟩
  | cons call calls ih =>
      rw [sampleCalls]
      refine ⟨?_, fun hreturn => ?_⟩
      · refine (sampleInto_ensures m scratch call).bind fun outcome h => ?_
        exact (ih outcome.2.scratch).1.bind fun rest hrest => ensures_pure (.cons h hrest)
      · refine (sampleInto_returns m scratch call (hreturn call (by simp))).bind fun outcome h => ?_
        refine ((ih outcome.2.scratch).2 fun c hc => hreturn c (List.mem_cons_of_mem _ hc)).bind
          fun rest hrest => returns_pure (.cons h hrest)

end BatchedSampler

end InferenceEngine
