/-
A request among others is served as `Generate` serves it alone.

`solo` says what a sequence comes to without a pool.  `Generate` comes to the same with a pool of
its own: its loop and the sequence are in step, turn by turn, as long as its cache has room.  And
by `run_as_alone` the engine comes to the same again, so what a channel is given is what `Generate`
calls back, and how it is closed is what `Generate` returns.

There is one way for the two to differ.  `Generate` reserves its vectors for `max_tokens` elements
and the engine does not, so a request whose length wraps past every check is served by the engine,
and ends `Generate` with an exception.
-/
import InferenceEngine.Proofs.Admission
import InferenceEngine.Proofs.EngineRequest

namespace InferenceEngine

open Except BlockPool

/-- The item that a channel gets for an event. -/
def TokenEvent.item (event : TokenEvent) : OutputItem := ⟨event.id, event.text, event.logprobs⟩

/-- How a channel is closed for an answer of `Generate`. -/
def StatusOr.finishInfo : StatusOr GenerateResult → FinishInfo
  | .ok result => ⟨.finished, result.finishReason, result.stopTrigger, result.matchedStop, okStatus⟩
  | .error status => { terminal := .failed, error := status }

/-- What a channel is given for an answer of `Generate` and the events on the way to it. -/
def answerOps (id : Nat) (answer : StatusOr GenerateResult) (events : List TokenEvent) :
    List ChannelOp :=
  (events.map TokenEvent.item).map (.push id) ++ [.close id (StatusOr.finishInfo answer)]

/-- The options of a request. -/
def Request.options (request : Request) : GenerateOptions :=
  ⟨request.params, request.eosIds, request.tokenizer, request.skipSpecialTokens⟩

/-- `Generate` can reserve the vectors of its result. -/
def SamplingParams.Reservable (params : SamplingParams) : Prop :=
  params.maxTokens ≤ (2 ^ 63 - 1) / 4 ∧
    (0 < params.logprobs → params.maxTokens ≤ (2 ^ 63 - 1) / 32)

/-- The channel of a request is given what `Generate` answers: so far it has got the beginning of
that, and all of it if it has been closed. -/
structure EngineLoop.ServedAs {σ α : Type} (e : EngineLoop σ α) (id : Nat)
    (answer : StatusOr GenerateResult) (events : List TokenEvent) : Prop where
  begun : e.opsOf id <+: answerOps id answer events
  closed : ∀ info, .close id info ∈ e.opsOf id → e.opsOf id = answerOps id answer events

/-! ### A sequence alone, to its end

A sequence that has ended stays as it is, and until then its items only become more. -/

section

variable {outcome : Outcome} {sampleRow : SampleRow} {promptIds : List Int} {start : Sequence}
  {k j : Nat}

theorem solo_grows (h : k ≤ j) : (solo outcome sampleRow promptIds start k).2
    <+: (solo outcome sampleRow promptIds start j).2 := by
  induction h with
  | refl => exact List.prefix_refl _
  | step _ ih =>
      refine ih.trans ?_
      rw [solo_succ]
      split
      · exact List.prefix_refl _
      · exact List.prefix_append _ _

theorem solo_ended (hend : (solo outcome sampleRow promptIds start k).1.isTerminal = true)
    (h : k ≤ j) : solo outcome sampleRow promptIds start j
      = solo outcome sampleRow promptIds start k := by
  induction h with
  | refl => rfl
  | step _ ih => rw [solo_succ, if_pos (by rw [ih]; exact hend), ih]

/-- A sequence ends in one way. -/
theorem solo_unique (hk : (solo outcome sampleRow promptIds start k).1.isTerminal = true)
    (hj : (solo outcome sampleRow promptIds start j).1.isTerminal = true) :
    solo outcome sampleRow promptIds start k = solo outcome sampleRow promptIds start j := by
  rcases Nat.le_total k j with h | h
  · exact (solo_ended hk h).symm
  · exact solo_ended hj h

end

namespace Generate

variable {σ α : Type}

/-! ### In step

The loop keeps of a sequence what the sequence keeps of itself. -/

/-- The loop `g` and the sequence `s`, whose channel has been given `items`. -/
structure InStep (sampler : Sampler) (budget : Int) (g : Loop σ α) (s : Sequence)
    (items : List OutputItem) : Prop where
  sampler : s.sampler = sampler
  tokens : s.generatedIds = g.result.tokens
  checker : s.stop = g.checker
  items : items = g.events.map TokenEvent.item
  state : s.state = if g.finished then .finished else .running
  info : s.finishInfo = ⟨s.state, g.result.finishReason, g.result.stopTrigger,
    g.result.matchedStop, okStatus⟩
  unfinished : g.finished = false → g.result.finishReason = .length ∧
    g.result.stopTrigger = .none ∧ g.result.matchedStop = []
  limit : g.finished = false → g.checker.maxTokens = budget
  within : g.finished = true ∨ (g.result.tokens.length : Int) < budget

variable {sampler : Sampler} {budget : Int} {g : Loop σ α} {s : Sequence}
  {items : List OutputItem} {sampleRow : SampleRow} {promptIds : List Int}

theorem InStep.running (h : InStep sampler budget g s items) (hgoing : g.finished = false) :
    s.state = .running := by
  rw [h.state, hgoing]
  rfl

/-- A sequence that fails is closed with the status that `Generate` returns. -/
theorem InStep.failed (h : InStep sampler budget g s items) (hgoing : g.finished = false)
    (status : Status) :
    (s.failed status).finishInfo = StatusOr.finishInfo (.error status) := by
  obtain ⟨hreason, htrigger, hmatched⟩ := h.unfinished hgoing
  have hinfo := h.info
  rw [hreason, htrigger, hmatched] at hinfo
  unfold Sequence.finishInfo at hinfo ⊢
  simp only [FinishInfo.mk.injEq] at hinfo
  unfold Sequence.failed StatusOr.finishInfo
  simp only [hinfo]

/-- Where the loop and its sequence are after one row of logits: both have failed, or they are in
step again. -/
inductive Consumed (sampler : Sampler) (budget : Int) (g : Loop σ α) (s : Sequence)
    (items : List OutputItem) :
    StatusOr Unit × Loop σ α → Sequence × Option OutputItem → Prop where
  | failed {status : Status} {g' : Loop σ α} {s' : Sequence} (hevents : g'.events = g.events)
      (hinfo : s'.finishInfo = StatusOr.finishInfo (.error status)) :
      Consumed sampler budget g s items (.error status, g') (s', none)
  | went {g' : Loop σ α} {s' : Sequence} {item : OutputItem}
      (hstep : InStep sampler budget g' s' (items ++ [item]))
      (htokens : ∃ token, g'.result.tokens = g.result.tokens ++ [token])
      (hplace : g'.shared = g.shared ∧ g'.cache = g.cache) :
      Consumed sampler budget g s items (.ok (), g') (s', some item)

/-- **One row takes the loop and its sequence one turn further.** -/
theorem InStep.consume (sampleRow : SampleRow) (promptIds : List Int)
    (h : InStep sampler budget g s items) (hgoing : g.finished = false) (row : List F32) :
    Consumed sampler budget g s items (consume sampleRow sampler promptIds row g)
      (s.answer sampleRow promptIds row) := by
  have hrun := h.running hgoing
  obtain ⟨hreason, htrigger, hmatched⟩ := h.unfinished hgoing
  unfold Generate.consume Sequence.answer
  rw [h.sampler, h.tokens]
  cases sampler.sampleWithLogprobs sampleRow row ⟨promptIds, g.result.tokens⟩ with
  | error status => exact .failed rfl (h.failed hgoing status)
  | ok next =>
      unfold Sequence.deliver Sequence.appendGenerated Sequence.numGenerated
      simp only [h.tokens, h.checker]
      have hwithin := fun step => @StopChecker.observe_within g.checker next.token
        ((g.result.tokens ++ [next.token]).length : Nat) step
      cases hobs : (g.checker.observe next.token
          ((g.result.tokens ++ [next.token]).length : Nat)).1 with
      | error status =>
          simp only
          refine .failed rfl ?_
          exact h.failed hgoing status
      | ok step =>
          obtain ⟨hbudget, hlt⟩ := hwithin step hobs
          simp only
          have hitems : ∀ event : TokenEvent,
              items ++ [event.item] = (g.events ++ [event]).map TokenEvent.item := by
            intro event
            rw [List.map_append, h.items]
            rfl
          have herror : s.error = okStatus := congrArg FinishInfo.error h.info
          by_cases hf : step.finished = true
          · rw [if_pos hf, if_pos hf]
            refine .went ⟨h.sampler, rfl, rfl, hitems ⟨_, _, _⟩, rfl, ?_, fun hc => by simp at hc,
              fun hc => by simp at hc, Or.inl rfl⟩
              ⟨next.token, rfl⟩ ⟨rfl, rfl⟩
            simp only [Sequence.finishInfo, Sequence.setFinish, herror]
          · rw [if_neg hf, if_neg hf]
            refine .went ⟨h.sampler, rfl, rfl, hitems ⟨_, _, _⟩, h.state, ?_, h.unfinished,
              fun _ => hbudget.trans (h.limit hgoing), Or.inr ?_⟩ ⟨next.token, rfl⟩ ⟨rfl, rfl⟩
            · exact h.info
            · rw [← h.limit hgoing]
              exact hlt.resolve_left hf

/-! ### The cache of the loop

It has a pool of its own, so a forward of one sequence that fits is answered by what the model
makes of its tokens. -/

variable [Zero α] {m : Model σ α} {outcome : Outcome} {holds : KvLog α → List Int → Prop}
  {capacity : Nat} {history : List Int}

/-- A loop whose cache holds `history`, in a pool of `capacity` positions. -/
structure Stored (m : Model σ α) (holds : KvLog α → List Int → Prop) (capacity : Nat)
    (g : Loop σ α) (history : List Int) : Prop where
  books : PoolBooks g.shared [g.cache] 0
  alone : g.shared.others = []
  geom : g.shared.pool.geom = m.geometry
  capacity : g.shared.pool.blockSize * g.shared.pool.numBlocks = capacity
  committed : g.cache.nextLayer = 0
  length : g.cache.length = history.length
  holds : holds (g.cache.log g.shared.pool) history

/-- **A forward that fits** answers what the model makes of the history and the new tokens. -/
theorem Stored.forward (hm : m.Contract (rowLocal outcome holds))
    (h : Stored m holds capacity g history) (sampleRow : SampleRow) (sampler : Sampler)
    (promptIds : List Int) {tokens : List Int} (hne : tokens ≠ [])
    (hfits : history.length + tokens.length ≤ capacity) :
    (∃ status g', outcome (history ++ tokens) = .error status ∧
        forward m sampleRow sampler promptIds tokens g = .ok (.error status, g') ∧
        g'.events = g.events) ∨
      ∃ row state shared cache, outcome (history ++ tokens) = .ok row ∧
        Stored m holds capacity { g with state := state, shared := shared, cache := cache }
          (history ++ tokens) ∧
        forward m sampleRow sampler promptIds tokens g = .ok (Generate.consume sampleRow sampler
          promptIds row { g with state := state, shared := shared, cache := cache }) := by
  have hbs := h.books.exclusive.blockSize_pos
  set seq : ForwardSeq := ⟨tokens, positionsFrom g.cache.length tokens.length, g.cache⟩ with hseq
  have hformed : seq.Formed := ⟨hne, rfl, h.committed⟩
  have hroom : Room g.shared [seq] 0 := by
    unfold Room
    rw [h.alone]
    simp only [List.map_cons, List.map_nil, List.sum_cons, List.sum_nil, Multiset.card_zero,
      List.length_nil, add_zero]
    refine (ceilDiv_le_iff_le_mul hbs).mpr ?_
    rw [h.capacity, h.length]
    exact hfits
  obtain ⟨called, hcall, hlawful⟩ := m.call_lawful hm g.state ⟨false, [seq]⟩
    (fun fs hfs => (List.mem_singleton.mp hfs) ▸ hformed) h.geom h.books hroom
  obtain ⟨called', hcall', hbooks, hlen, hshape, _⟩ := m.call_returns g.state
    (show PoolBooks g.shared ((⟨false, [seq]⟩ : ForwardRequest).seqs.map (·.cache)) 0 from h.books)
  obtain rfl : called = called' := Except.ok.inj (hcall.symm.trans hcall')
  obtain ⟨cache, hcaches⟩ := List.length_eq_one_iff.mp hlen
  unfold Generate.forward
  simp only [← hseq, hcall, ok_bind, hcaches]
  cases hlogits : called.logits with
  | error status =>
      refine Or.inl ⟨status, _, ?_, rfl, rfl⟩
      exact (hlawful.refused hm hformed hlogits).1 history h.holds
  | ok logits =>
      obtain ⟨c, hc, hmay, hnext, hlength⟩ := hlawful.answered hm
        (fun fs hfs => (List.mem_singleton.mp hfs) ▸ hformed) h.geom
        h.books.exclusive.layers_pos hlogits (show [seq][0]? = some seq from rfl)
      rw [hcaches] at hc hbooks
      obtain rfl : cache = c := Option.some.inj hc
      obtain ⟨hrow, hholds⟩ := hmay history h.holds
      have hdims := hm.shaped.dims g.state ⟨false, [seq]⟩ g.shared.pool logits
        (hlawful.logits.symm.trans hlogits)
      have hvocab := hm.shaped.vocab_pos
      refine Or.inr ⟨_, called.state, called.shared, cache, hrow, ⟨hbooks,
        hlawful.others.trans h.alone, hshape.geom.trans h.geom, ?_, hnext, ?_, hholds⟩, ?_⟩
      · show called.shared.pool.blockSize * called.shared.pool.numBlocks = capacity
        rw [hshape.blockSize, hshape.numBlocks]
        exact h.capacity
      · rw [List.length_append, ← h.length]
        exact hlength
      · simp only [lastRow_eq hdims (by omega), ok_bind]
        rfl

omit [Zero α] in
theorem Stored.of_place [Zero α] {g' : Loop σ α} (h : Stored m holds capacity g history)
    (hshared : g'.shared = g.shared) (hcache : g'.cache = g.cache) :
    Stored m holds capacity g' history := by
  obtain ⟨hbooks, halone, hgeom, hcapacity, hcommitted, hlength, hholds⟩ := h
  refine ⟨?_, ?_, ?_, ?_, ?_, ?_, ?_⟩
  all_goals simp only [hshared, hcache]
  all_goals assumption

/-! ### The run

Each forward is a turn of the sequence.  The loop is over when the sequence has ended, at the
latest after `max_tokens` turns. -/

section

variable {start : Sequence} {tokens : List Int} {k : Nat}

/-- The sequence has ended after `k` turns, as an answer of `Generate` says. -/
structure Ended (outcome : Outcome) (sampleRow : SampleRow) (promptIds : List Int)
    (start : Sequence) (k : Nat) (answer : StatusOr GenerateResult) (events : List TokenEvent) :
    Prop where
  terminal : (solo outcome sampleRow promptIds start k).1.isTerminal = true
  items : (solo outcome sampleRow promptIds start k).2 = events.map TokenEvent.item
  info : (solo outcome sampleRow promptIds start k).1.finishInfo = StatusOr.finishInfo answer

theorem finishInfo_ended {s : Sequence} {answer : StatusOr GenerateResult}
    (h : s.finishInfo = StatusOr.finishInfo answer) : s.isTerminal = true := by
  have hstate : s.state = (StatusOr.finishInfo answer).terminal := congrArg FinishInfo.terminal h
  unfold Sequence.isTerminal
  rw [hstate]
  cases answer <;> rfl

omit [Zero α] in
/-- A loop that has finished. -/
theorem InStep.ended (h : InStep sampler budget g (solo outcome sampleRow promptIds start k).1
    (solo outcome sampleRow promptIds start k).2) (hdone : g.finished = true) :
    Ended outcome sampleRow promptIds start k (.ok g.result) g.events := by
  have hstate := h.state
  rw [hdone, if_pos rfl] at hstate
  have hinfo := h.info
  rw [hstate] at hinfo
  have hclosed : _ = StatusOr.finishInfo (.ok g.result) := hinfo
  exact ⟨finishInfo_ended hclosed, h.items, hinfo⟩

/-- **A forward is a turn.**  It ends the sequence with an error, or leaves the loop in step. -/
theorem InStep.forward (hm : m.Contract (rowLocal outcome holds))
    (h : InStep sampler budget g (solo outcome sampleRow promptIds start k).1
      (solo outcome sampleRow promptIds start k).2) (hgoing : g.finished = false)
    (hstored : Stored m holds capacity g history) (hne : tokens ≠ [])
    (hfed : history ++ tokens = promptIds ++ g.result.tokens)
    (hfits : history.length + tokens.length ≤ capacity) :
    (∃ status g', forward m sampleRow sampler promptIds tokens g = .ok (.error status, g') ∧
        Ended outcome sampleRow promptIds start (k + 1) (.error status) g'.events) ∨
      ∃ g', forward m sampleRow sampler promptIds tokens g = .ok (.ok (), g') ∧
        InStep sampler budget g' (solo outcome sampleRow promptIds start (k + 1)).1
          (solo outcome sampleRow promptIds start (k + 1)).2 ∧
        Stored m holds capacity g' (promptIds ++ g'.result.tokens.dropLast) ∧
        g'.result.tokens.length = g.result.tokens.length + 1 := by
  have hsolo := solo_succ outcome sampleRow promptIds start k
  rw [if_neg (by simp [EngineLoop.isTerminal_running (h.running hgoing)])] at hsolo
  simp only [Sequence.nextTurn, h.tokens, ← hfed] at hsolo
  rcases hstored.forward hm sampleRow sampler promptIds hne hfits with
    ⟨status, g', hout, hforward, hevents⟩ | ⟨row, state, shared, cache, hout, hstored', hforward⟩
  · rw [hout] at hsolo
    have hinfo : (solo outcome sampleRow promptIds start (k + 1)).1.finishInfo
        = StatusOr.finishInfo (.error status) := by
      rw [hsolo]
      exact h.failed hgoing status
    refine Or.inl ⟨status, g', hforward, finishInfo_ended hinfo, ?_, hinfo⟩
    rw [hsolo, hevents, ← h.items]
    exact List.append_nil _
  · rw [hout] at hsolo
    have hstep : InStep sampler budget { g with state := state, shared := shared, cache := cache }
        (solo outcome sampleRow promptIds start k).1
        (solo outcome sampleRow promptIds start k).2 :=
      ⟨h.sampler, h.tokens, h.checker, h.items, h.state, h.info, h.unfinished, h.limit, h.within⟩
    have hconsumed := InStep.consume sampleRow promptIds hstep hgoing row
    simp only [Sequence.turn] at hsolo
    rw [hforward]
    generalize Generate.consume sampleRow sampler promptIds row _ = r at hconsumed ⊢
    generalize (solo outcome sampleRow promptIds start k).1.answer sampleRow promptIds row = a
      at hconsumed hsolo
    cases hconsumed with
    | failed hevents hinfo =>
        refine Or.inl ⟨_, _, rfl, ?_, ?_, ?_⟩
        · rw [hsolo]
          exact finishInfo_ended hinfo
        · rw [hsolo, hevents, ← h.items]
          exact List.append_nil _
        · rw [hsolo]
          exact hinfo
    | went hstep' htokens hplace =>
        obtain ⟨token, htokens⟩ := htokens
        refine Or.inr ⟨_, rfl, ?_, ?_, ?_⟩
        · rw [hsolo]
          exact hstep'
        · rw [htokens, List.dropLast_concat]
          exact hfed ▸ hstored'.of_place hplace.1 hplace.2
        · rw [htokens]
          exact List.length_append

/-- The decode loop, from the first token on. -/
theorem decode_ends (hm : m.Contract (rowLocal outcome holds))
    (hbudget : (promptIds.length : Int) + budget ≤ capacity + 1) (fuel : Nat) :
    ∀ {g : Loop σ α} {k : Nat}, InStep sampler budget g
        (solo outcome sampleRow promptIds start k).1
        (solo outcome sampleRow promptIds start k).2 →
      Stored m holds capacity g (promptIds ++ g.result.tokens.dropLast) →
      g.result.tokens ≠ [] → budget ≤ g.result.tokens.length + fuel →
      ∃ decoded g' k', decode m sampleRow sampler promptIds fuel g = .ok (decoded, g') ∧
        Ended outcome sampleRow promptIds start k' (decoded.map fun _ => g'.result) g'.events := by
  induction fuel with
  | zero =>
      intro g k h _ _ hfuel
      have hdone : g.finished = true := h.within.resolve_right (by omega)
      exact ⟨.ok (), g, k, by rw [decode, if_pos hdone]; rfl, h.ended hdone⟩
  | succ fuel ih =>
      intro g k h hstored hne hfuel
      by_cases hdone : g.finished = true
      · exact ⟨.ok (), g, k, by rw [decode, if_pos hdone]; rfl, h.ended hdone⟩
      have hgoing : g.finished = false := by simpa using hdone
      have hlt := h.within.resolve_left hdone
      obtain ⟨token, hlast⟩ := Option.isSome_iff_exists.mp (List.getLast?_isSome.mpr hne)
      have hsplit := List.dropLast_append_getLast? token hlast
      have hlength := congrArg List.length hsplit
      rw [List.length_append, List.length_singleton] at hlength
      rw [decode, if_neg hdone]
      simp only [hlast]
      rcases h.forward hm hgoing hstored (List.cons_ne_nil token [])
          (by rw [List.append_assoc, hsplit])
          (by rw [List.length_append, List.length_singleton]; omega) with
        ⟨status, g', hforward, hended⟩ | ⟨g', hforward, hstep, hstored', hmore⟩
      · exact ⟨.error status, g', k + 1, by rw [hforward]; rfl, hended⟩
      · obtain ⟨decoded, g'', k', hdecode, hended⟩ := ih hstep hstored'
          (List.ne_nil_of_length_pos (by omega)) (by omega)
        exact ⟨decoded, g'', k', by rw [hforward]; exact hdecode, hended⟩

end

/-! ### From the first check to the answer

The checks ask for room for the whole run.  Behind them are two reservations, which throw where
`max_tokens` is absurd. -/

/-- A new pool is small: its ids are 32 bits wide and its blocks have 64 positions at most. -/
theorem capacity_new {geom : CacheGeometry} {blockSize numBlocks : Int} {pool : BlockPool α}
    (hpool : BlockPool.create geom blockSize numBlocks = .ok pool) (hids : numBlocks ≤ 2 ^ 31) :
    PagedKvCache.new.capacity pool = (pool.blockSize * pool.numBlocks : Nat) ∧
      PagedKvCache.new.capacity pool ≤ 2 ^ 37 := by
  have hcreated := BlockPool.create_ok hpool
  have hblocks := hcreated.numBlocks_pos
  have hsize := hcreated.blockSize_pos
  have hvalid : blockSize ≤ 64 := by
    unfold BlockPool.create at hpool
    obtain ⟨_, _, hpool⟩ := bind_eq_ok.mp hpool
    by_cases hbs : isValidBlockSize blockSize = true
    · simp only [isValidBlockSize, Bool.or_eq_true, decide_eq_true_eq] at hbs
      omega
    · simp [hbs, bind, Except.bind, throw, throwThe, MonadExceptOf.throw] at hpool
  have hcapacity : PagedKvCache.new.capacity pool = numBlocks * blockSize := by
    unfold PagedKvCache.capacity BlockPool.freeBlocks
    rw [hcreated.pool_eq]
    show (0 : Int) * _ + ((numBlocks.toNat : Int) - 0) * (blockSize.toNat : Int) = _
    rw [Int.toNat_of_nonneg hblocks.le, Int.toNat_of_nonneg hsize.le, zero_mul, zero_add, sub_zero]
  refine ⟨?_, ?_⟩
  · rw [hcapacity, hcreated.pool_eq]
    show _ = ((blockSize.toNat * numBlocks.toNat : Nat) : Int)
    rw [Int.natCast_mul, Int.toNat_of_nonneg hblocks.le, Int.toNat_of_nonneg hsize.le, mul_comm]
  · rw [hcapacity]
    exact (mul_le_mul hids hvalid hsize.le (by decide)).trans (by decide)

/-- A cache that is to be filled with one run, in a new pool. -/
theorem stored_new {blockSize numBlocks : Int} {pool : BlockPool α}
    (hpool : BlockPool.create m.geometry blockSize numBlocks = .ok pool) (hids : numBlocks ≤ 2 ^ 31)
    (hempty : ∀ p : BlockPool α, holds (PagedKvCache.new.log p) [])
    (hcache : g.cache = .new) (hshared : g.shared = ⟨pool, []⟩) :
    Stored m holds (pool.blockSize * pool.numBlocks) g [] := by
  have hcreated := BlockPool.create_ok hpool
  have hexclusive := hcreated.exclusive hids
  refine ⟨⟨?_, ?_⟩, ?_, ?_, ?_, ?_, ?_, ?_⟩
  · rw [hshared, hcache]
    exact hexclusive
  · rw [hshared, hcache]
    intro c hc
    rw [List.mem_singleton.mp hc]
    exact PagedKvCache.new_wf hexclusive.layers_pos
  · rw [hshared]
  · rw [hshared, hcreated.pool_eq]
    rfl
  · rw [hshared]
  · rw [hcache]
    rfl
  · rw [hcache]
    rfl
  · rw [hcache]
    exact hempty _

section

variable {request : Request} {drawnSeed : Nat} {start : Sequence} {checker : StopChecker}
  {shared : SharedPool α} {state : σ} {decoded : StatusOr Unit} {g' g'' : Loop σ α}

omit [Zero α] in
/-- What a loop starts from. -/
theorem inStep_start (hstart : Sequence.create request drawnSeed = .ok start)
    (hsampler : Sampler.create request.params drawnSeed = .ok sampler)
    (hchecker : StopChecker.create request.params request.eosIds request.tokenizer
      request.skipSpecialTokens = .ok checker) (hmax : 0 < request.params.maxTokens)
    (outcome : Outcome) (sampleRow : SampleRow) (promptIds : List Int)
    (state : σ) (shared : SharedPool α) :
    InStep sampler request.params.maxTokens ⟨state, shared, .new, checker, {}, false, []⟩
      (solo outcome sampleRow promptIds start 0).1
      (solo outcome sampleRow promptIds start 0).2 := by
  unfold Sequence.create at hstart
  rw [hsampler, ok_bind, hchecker, ok_bind] at hstart
  cases hstart
  refine ⟨rfl, rfl, rfl, rfl, rfl, rfl, fun _ => ⟨rfl, rfl, rfl⟩, fun _ => ?_, Or.inr hmax⟩
  unfold StopChecker.create at hchecker
  split at hchecker
  · cases hchecker
  · cases hchecker
    rfl

omit [Zero α] in
/-- What `Generate` holds against the capacity of an empty cache. -/
theorem peak_eq (request : Request) : ((PagedKvCache.new.length : Int) + request.promptIds.length
    + (request.params.maxTokens - 1)) = Engine.peakLength request := by
  unfold Engine.peakLength
  show (0 : Int) + _ + _ = _
  omega

/-- A run that passes every check up to the reservations. -/
structure Checks (request : Request) (drawnSeed : Nat) (shared : SharedPool α)
    (sampler : Sampler) (checker : StopChecker) : Prop where
  nonempty : request.promptIds ≠ []
  samples : Sampler.create request.params drawnSeed = .ok sampler
  params : sampler.params = request.params
  stops : StopChecker.create request.params request.eosIds request.tokenizer
    request.skipSpecialTokens = .ok checker
  room : wrapInt64 (Engine.peakLength request) ≤ PagedKvCache.new.capacity shared.pool

omit [Zero α] in
/-- A budget that no vector can have ends the run with an exception. -/
theorem Checks.throws (h : Checks request drawnSeed shared sampler checker)
    (hmax : (2 ^ 63 - 1) / 4 < request.params.maxTokens) (m : Model σ α) (sampleRow : SampleRow)
    (state : σ) : generate m sampleRow state shared .new request.promptIds request.options drawnSeed
      = .error .lengthError := by
  unfold generate Request.options
  simp only [List.isEmpty_iff, h.nonempty, if_false, h.samples, h.stops, h.params, peak_eq,
    if_neg (not_lt.mpr h.room)]
  rw [reserve, if_pos hmax]
  rfl

omit [Zero α] in
/-- A run whose prefill fails. -/
theorem Checks.failed (h : Checks request drawnSeed shared sampler checker)
    (hreserve : request.params.Reservable) {status : Status}
    (hforward : forward m sampleRow sampler request.promptIds request.promptIds
      ⟨state, shared, .new, checker, {}, false, []⟩ = .ok (.error status, g')) :
    generate m sampleRow state shared .new request.promptIds request.options drawnSeed
      = .ok (.error status, g'.events) := by
  unfold generate Request.options
  simp only [List.isEmpty_iff, h.nonempty, if_false, h.samples, h.stops, h.params, peak_eq,
    if_neg (not_lt.mpr h.room), reserve_iff.mpr hreserve.1, ok_bind, hforward]
  split
  · rw [reserve_iff.mpr (hreserve.2 ‹_›)]
    rfl
  · rfl

omit [Zero α] in
/-- A run that gets to its decode loop. -/
theorem Checks.looped (h : Checks request drawnSeed shared sampler checker)
    (hreserve : request.params.Reservable)
    (hforward : forward m sampleRow sampler request.promptIds request.promptIds
      ⟨state, shared, .new, checker, {}, false, []⟩ = .ok (.ok (), g'))
    (hdecode : decode m sampleRow sampler request.promptIds request.params.maxTokens.toNat g'
      = .ok (decoded, g'')) :
    generate m sampleRow state shared .new request.promptIds request.options drawnSeed
      = .ok (decoded.map fun _ => g''.result, g''.events) := by
  unfold generate Request.options
  simp only [List.isEmpty_iff, h.nonempty, if_false, h.samples, h.stops, h.params, peak_eq,
    if_neg (not_lt.mpr h.room), reserve_iff.mpr hreserve.1, ok_bind, hforward, hdecode]
  split
  · rw [reserve_iff.mpr (hreserve.2 ‹_›)]
    cases decoded <;> rfl
  · cases decoded <;> rfl

/-- **`Generate` alone.**  A run whose cache has room for its peak answers what its sequence comes
to. -/
theorem Checks.ends (h : Checks request drawnSeed shared sampler checker)
    (hm : m.Contract (rowLocal outcome holds))
    (hempty : ∀ p : BlockPool α, holds (PagedKvCache.new.log p) [])
    {blockSize numBlocks : Int} {pool : BlockPool α} (hshared : shared = ⟨pool, []⟩)
    (hpool : BlockPool.create m.geometry blockSize numBlocks = .ok pool) (hids : numBlocks ≤ 2 ^ 31)
    (hstart : Sequence.create request drawnSeed = .ok start)
    (hpeak : Engine.peakLength request < 2 ^ 63) (sampleRow : SampleRow) (state : σ) :
    ∃ answer events k, generate m sampleRow state shared .new request.promptIds request.options
        drawnSeed = .ok (answer, events) ∧
      Ended outcome sampleRow request.promptIds start k answer events := by
  have hserves := (sequenceCreate_iff drawnSeed).mp ⟨start, hstart⟩
  have hmax := validateSamplingParams_maxTokens hserves.valid
  obtain ⟨hcapacity, hsmall⟩ := capacity_new hpool hids
  have hlow : 0 ≤ Engine.peakLength request := by
    unfold Engine.peakLength
    omega
  have hroom : Engine.peakLength request ≤ PagedKvCache.new.capacity pool := by
    rw [← wrapInt64_of_fits (by omega) hpeak]
    have hchecked := h.room
    rw [hshared] at hchecked
    exact hchecked
  have hbudget : (request.promptIds.length : Int) + request.params.maxTokens
      ≤ (pool.blockSize * pool.numBlocks : Nat) + 1 := by
    unfold Engine.peakLength at hroom
    omega
  have hreserve : request.params.Reservable := by
    unfold Engine.peakLength at hroom
    refine ⟨?_, fun _ => ?_⟩ <;> omega
  have hstep := inStep_start hstart h.samples h.stops hmax outcome sampleRow request.promptIds
    state shared
  have hstored : Stored m holds (pool.blockSize * pool.numBlocks)
      (⟨state, shared, .new, checker, {}, false, []⟩ : Loop σ α) [] :=
    stored_new hpool hids hempty rfl hshared
  rcases hstep.forward hm rfl hstored h.nonempty (List.append_nil _).symm
      (by simp only [List.length_nil]; omega) with
    ⟨status, g', hforward, hended⟩ | ⟨g', hforward, hstep', hstored', hmore⟩
  · exact ⟨.error status, g'.events, 1, h.failed hreserve hforward, hended⟩
  · obtain ⟨decoded, g'', k, hdecode, hended⟩ := decode_ends hm hbudget
      request.params.maxTokens.toNat hstep' hstored' (List.ne_nil_of_length_pos (by omega))
      (by omega)
    exact ⟨decoded.map fun _ => g''.result, g''.events, k, h.looped hreserve hforward hdecode,
      hended⟩

end

end Generate

/-! ### The engine

A request that has been accepted is served alone, and so is `Generate`'s. -/

namespace Engine

variable {σ α : Type} [Zero α] {S : Services σ α} {outcome : Outcome}
  {holds : KvLog α → List Int → Prop} {e e' : Engine σ α} {request : Request} {drawnSeed id : Nat}
  {start : Sequence} {k j : Nat} {answer : StatusOr GenerateResult} {events : List TokenEvent}
  {closing : List ChannelOp} {asked : Prop} {geom : CacheGeometry} {blockSize numBlocks : Int}
  {state : σ} {pool : BlockPool α} {config : EngineConfig}

omit [Zero α] in
theorem AsAlone.servedAs
    (h : AsAlone outcome S.sampleRow request.promptIds start id asked k closing e')
    (hasked : ¬asked)
    (hended : Generate.Ended outcome S.sampleRow request.promptIds start j answer events) :
    e'.loop.ServedAs id answer events := by
  have hops := h.ops
  rcases h.closing with rfl | ⟨hc, _⟩ | ⟨hterm, rfl⟩
  · rw [List.append_nil] at hops
    refine ⟨?_, fun info hclose => ?_⟩
    · rw [hops]
      unfold answerOps
      rw [← hended.items]
      refine List.IsPrefix.trans ?_ (List.prefix_append _ _)
      rcases Nat.le_total k j with hle | hle
      · exact (solo_grows hle).map _
      · rw [solo_ended hended.terminal hle]
    · rw [hops] at hclose
      obtain ⟨item, _, heq⟩ := List.mem_map.mp hclose
      cases heq
  · exact absurd hc hasked
  · have hall : e'.loop.opsOf id = answerOps id answer events := by
      rw [hops, solo_unique hterm hended.terminal, hended.items, hended.info]
      rfl
    exact ⟨hall ▸ List.prefix_refl _, fun _ _ => hall⟩

/-- **A request among others is served as `Generate` serves it alone**, however submits, cancels
and steps interleave, whatever the limits and the size of the pool, and however often the request
is evicted and prefilled again: exactly when its peak length is a 64-bit number.  Any other request
gets past the checks of both, and `Generate` throws. -/
theorem run_as_generate_iff (hm : S.model.Contract (rowLocal outcome holds))
    (hempty : ∀ p : BlockPool α, holds (PagedKvCache.new.log p) [])
    (hroom : ∀ tokens status, outcome tokens = .error status → status.code ≠ .resourceExhausted)
    (hpool : BlockPool.create geom blockSize numBlocks = .ok pool) (hids : numBlocks ≤ 2 ^ 31)
    (h : (aloneSystem S state pool config).Reachable e)
    (hsubmit : (e.submit request drawnSeed).1 = .ok id) {calls : List EngineCall}
    (hcalls : ∀ call ∈ calls, (∀ use, call ≠ .use use) ∧ call ≠ .stop ∧ call ≠ .cancel id)
    (hrun : calls.foldlM (Engine.run S) (e.submit request drawnSeed).2 = .ok e')
    {blockSize' numBlocks' : Int} {pool' : BlockPool α} (state' : σ)
    (hpool' : BlockPool.create S.model.geometry blockSize' numBlocks' = .ok pool')
    (hids' : numBlocks' ≤ 2 ^ 31)
    (hfits : wrapInt64 (peakLength request) ≤ PagedKvCache.new.capacity pool')
    (hprompt : (request.promptIds.length : Int) ≤ (2 ^ 63 - 1) / 4) :
    (∃ answer events, generate S.model S.sampleRow state' ⟨pool', []⟩ .new request.promptIds
        request.options drawnSeed = .ok (answer, events) ∧ e'.loop.ServedAs id answer events) ↔
      peakLength request < 2 ^ 63 := by
  obtain ⟨start, hstart, k, closing, halone⟩ := run_as_alone hm hempty hroom hpool hids h hsubmit
    (fun call hc => ⟨(hcalls call hc).1, (hcalls call hc).2.1⟩) hrun
  obtain ⟨_, hvalid⟩ := submit_accepts_iff.mp ⟨id, hsubmit⟩
  have hserves := (sequenceCreate_iff drawnSeed).mp ⟨start, hstart⟩
  obtain ⟨checker, hchecker⟩ := (stopCreate_iff request.eosIds request.skipSpecialTokens).mpr
    hserves.stops
  have hchecks : Generate.Checks request drawnSeed (⟨pool', []⟩ : SharedPool α)
      ⟨request.params, Sampler.resolveSeed request.params drawnSeed⟩ checker :=
    ⟨(validateSubmit_accepts_iff.mp hvalid).1, samplerCreate_ok drawnSeed hserves.valid, rfl,
      hchecker, hfits⟩
  constructor
  · rintro ⟨answer, events, hgenerate, _⟩
    by_contra hc
    rw [hchecks.throws (by unfold peakLength at hc; omega)] at hgenerate
    cases hgenerate
  · intro hpeak
    obtain ⟨answer, events, j, hgenerate, hended⟩ := hchecks.ends hm hempty rfl hpool' hids' hstart
      hpeak S.sampleRow state'
    exact ⟨answer, events, hgenerate,
      halone.servedAs (fun hc => (hcalls _ hc).2.2 rfl) hended⟩

end Engine

/-! ### Two runs

A request that is evicted in the middle, and one that `Generate` throws at. -/

/-- The second of two sequences is evicted and prefilled again, and ends as `Generate` does. -/
theorem run_as_generate_evicted : ∃ (e' : Engine Unit Int) (answer : StatusOr GenerateResult)
    (events : List TokenEvent), e'.loop.preemptionCount = 1 ∧
      (∃ info, .close 2 info ∈ e'.loop.opsOf 2) ∧
      generate (zeroModel false) (zeroServices false).sampleRow () ⟨zeroPool, []⟩ .new
        (zeroRequest 8).promptIds (zeroRequest 8).options 0 = .ok (answer, events) ∧
      e'.loop.ServedAs 2 answer events := by
  obtain ⟨e, e', hreach, hsubmit, hcalls, hcount, hclosed, _⟩ := evicted_run
  have hpool : BlockPool.create ⟨1, 1, 1, .float32⟩ 8 3 = .ok zeroPool := rfl
  obtain ⟨answer, events, hgenerate, hserved⟩ :=
    (Engine.run_as_generate_iff zeroModel_rowLocal (fun _ => trivial) (fun _ _ h => by cases h)
      hpool (by decide) hreach hsubmit (by simp) hcalls () hpool (by decide) (by decide)
      (by decide)).mpr (by decide)
  exact ⟨e', answer, events, hcount, hclosed, hgenerate, hserved⟩

/-- A request of two tokens for all the tokens there could be, which ends at the first zero. -/
def endedRequest : Request where
  promptIds := [0, 0]
  params := { temperature := .finite 0, maxTokens := 2 ^ 63 - 1 }
  eosIds := [0]
  tokenizer := none

/-- **The engine serves what `Generate` throws at**: the peak wraps, so both let the request pass;
its first token ends it, and `Generate` cannot reserve its vectors. -/
theorem generate_throws : (∃ e : Engine Unit Int,
    zeroRun false [.submit endedRequest 0, .step] = .ok e ∧
      e.loop.opsOf 1 = [.push 1 ⟨0, [], none⟩,
        .close 1 { finishReason := .stop, stopTrigger := .eosId }]) ∧
    generate (zeroModel false) (zeroServices false).sampleRow () ⟨zeroPool, []⟩ .new
      endedRequest.promptIds endedRequest.options 0 = .error .lengthError := by
  refine ⟨?_, rfl⟩
  obtain ⟨e, hrun, htest⟩ := exists_of_test (zeroRun false [.submit endedRequest 0, .step])
    (fun e => decide (e.loop.opsOf 1 = [.push 1 ⟨0, [], none⟩,
      .close 1 { finishReason := .stop, stopTrigger := .eosId }])) (by decide +kernel)
  exact ⟨e, hrun, of_decide_eq_true htest⟩

end InferenceEngine
