/-
What the assembler leaves in its staging.

The loop of `Flatten` keeps one invariant, `Assembled`: the five vectors describe the sequences
seen so far.  It holds at the end of the list after a success, and at the sequence that was
refused after an error.  So an error leaves the sequences in front of the refused one staged,
and nothing is staged exactly when the refused one is the first.
-/
import InferenceEngine.Engine.BatchAssembler
import InferenceEngine.Model.BatchRequest
import Mathlib.Data.List.GetD
import Mathlib.Data.List.Range

namespace InferenceEngine.BatchAssembler

variable {κ : Type}

/-! ### The sequences

What the staging is to be is a function of the sequences.  A total or a position that does not
fit 32 bits is where the source says nothing. -/

namespace SeqInput

/-- What a sequence must be to be staged. -/
def Accepted (decode : Bool) (s : SeqInput κ) : Prop :=
  s.cache.isSome = true ∧ s.sampler.isSome = true ∧ s.tokenIds ≠ [] ∧
    (decode = true → s.tokenIds.length = 1)

instance (decode : Bool) (s : SeqInput κ) : Decidable (s.Accepted decode) :=
  inferInstanceAs (Decidable (_ ∧ _ ∧ _ ∧ _))

/-- The committed length of the cache of a sequence. -/
def base (length : κ → Nat) (s : SeqInput κ) : Nat := s.cache.elim 0 length

/-- The absolute positions of the tokens of a sequence. -/
def absolutePositions (length : κ → Nat) (s : SeqInput κ) : List Int :=
  (List.range s.tokenIds.length).map fun t => ((s.base length + t : Nat) : Int)

end SeqInput

/-- How many tokens some sequences have together. -/
def tokenCount (seqs : List (SeqInput κ)) : Nat := (seqs.map fun s => s.tokenIds.length).sum

/-- The total of the tokens and every position fit an `std::int32_t`. -/
structure Fits (length : κ → Nat) (seqs : List (SeqInput κ)) : Prop where
  tokens : tokenCount seqs < 2 ^ 31
  positions : ∀ s ∈ seqs, ∀ t < s.tokenIds.length, s.base length + t < 2 ^ 31

/-- The staging describes `seqs`, in order. -/
structure Assembled (length : κ → Nat) (seqs : List (SeqInput κ)) (staged : Staging κ) :
    Prop where
  tokenIds : staged.tokenIds = seqs.flatMap SeqInput.tokenIds
  positions : staged.positions = seqs.flatMap (SeqInput.absolutePositions length)
  cuSeqlens : staged.cuSeqlens
    = (List.range (seqs.length + 1)).map fun b => ((tokenCount (seqs.take b) : Nat) : Int)
  caches : staged.caches.map some = seqs.map SeqInput.cache
  sampleRows : staged.sampleRows = seqs.map fun s => ⟨s.sampler, s.context⟩

/-- No sequence is staged: the vectors are as an empty batch has them. -/
def Staging.Vacant (staged : Staging κ) : Prop := staged = ⟨[], [], [0], [], []⟩

theorem tokenCount_snoc (seqs : List (SeqInput κ)) (s : SeqInput κ) :
    tokenCount (seqs ++ [s]) = tokenCount seqs + s.tokenIds.length := by
  simp [tokenCount]

/-- The prefix sums of a list with one more sequence. -/
theorem prefixSums_snoc (done : List (SeqInput κ)) (s : SeqInput κ) :
    ((List.range ((done ++ [s]).length + 1)).map fun b =>
        ((tokenCount ((done ++ [s]).take b) : Nat) : Int))
      = ((List.range (done.length + 1)).map fun b => ((tokenCount (done.take b) : Nat) : Int))
        ++ [((tokenCount (done ++ [s]) : Nat) : Int)] := by
  have hlength : (done ++ [s]).length = done.length + 1 := by simp
  rw [hlength, List.range_succ, List.map_append]
  congr 1
  · refine List.map_congr_left fun b hb => ?_
    have hle := List.mem_range.mp hb
    rw [List.take_append_of_le_length (by omega)]
  · rw [List.map_singleton, ← hlength, List.take_length]

theorem Assembled.empty (length : κ → Nat) :
    Assembled length [] (⟨[], [], [0], [], []⟩ : Staging κ) :=
  ⟨rfl, rfl, rfl, rfl, rfl⟩

/-- The staging is vacant when it describes no sequence, and only then. -/
theorem Assembled.vacant_iff {length : κ → Nat} {seqs : List (SeqInput κ)} {staged : Staging κ}
    (h : Assembled length seqs staged) : staged.Vacant ↔ seqs = [] := by
  constructor
  · intro hvacant
    have hcaches := h.caches
    rw [hvacant] at hcaches
    exact List.map_eq_nil_iff.mp hcaches.symm
  · intro hnil
    subst hnil
    obtain ⟨tokenIds, positions, cuSeqlens, caches, sampleRows⟩ := staged
    obtain ⟨h1, h2, h3, h4, h5⟩ := h
    simp only [List.flatMap_nil, List.map_nil, List.map_eq_nil_iff] at h1 h2 h4 h5
    subst h1 h2 h4 h5
    exact congrArg (fun cu => (⟨[], [], cu, [], []⟩ : Staging κ)) h3

/-! ### One sequence

The checks of a sequence come before anything is staged for it. -/

theorem validate_accepted {decode : Bool} {s : SeqInput κ} (h : s.Accepted decode) (b : Nat) :
    ∃ cache, s.cache = some cache ∧ validate decode b s = .ok cache := by
  obtain ⟨hcache, hsampler, htokens, hsingle⟩ := h
  obtain ⟨cache, hcache⟩ := Option.isSome_iff_exists.mp hcache
  refine ⟨cache, hcache, ?_⟩
  have hlength := List.length_pos_iff.mpr htokens
  unfold validate
  rw [hcache]
  dsimp only
  rw [if_neg (by rw [Option.isNone_eq_false_iff.mpr hsampler]; simp), if_neg (by omega),
    if_neg ?_]
  intro hdecode
  simp only [Bool.and_eq_true, decide_eq_true_eq] at hdecode
  exact hdecode.2 (hsingle hdecode.1)

theorem validate_refused {decode : Bool} {s : SeqInput κ} (h : ¬s.Accepted decode) (b : Nat) :
    ∃ message, validate decode b s = .error (invalidArgumentError message) := by
  unfold validate
  cases hcache : s.cache with
  | none => exact ⟨_, rfl⟩
  | some cache =>
      dsimp only
      by_cases hsampler : s.sampler.isNone = true
      · rw [if_pos hsampler]
        exact ⟨_, rfl⟩
      rw [if_neg hsampler]
      by_cases hempty : s.tokenIds.length < 1
      · rw [if_pos hempty]
        exact ⟨_, rfl⟩
      rw [if_neg hempty]
      by_cases hmany : (decode && s.tokenIds.length ≠ 1) = true
      · rw [if_pos hmany]
        exact ⟨_, rfl⟩
      -- a sequence that passes the four checks is accepted
      refine absurd ⟨?_, ?_, ?_, ?_⟩ h
      · rw [hcache]
        rfl
      · simpa [Option.isSome_iff_ne_none] using hsampler
      · intro hnil
        rw [hnil] at hempty
        exact hempty Nat.one_pos
      · intro hdecode
        rw [hdecode] at hmany
        simpa using hmany

theorem positionsFrom_of_lt {base count : Nat} (h : ∀ t < count, base + t < 2 ^ 31) :
    positionsFrom base count = (List.range count).map fun t => ((base + t : Nat) : Int) := by
  unfold positionsFrom
  refine List.map_congr_left fun t ht => ?_
  have hlt := h t (List.mem_range.mp ht)
  rw [toInt32_of_lt (by omega) (by omega)]
  rfl

theorem int32_add {running count : Nat} (h : running + count < 2 ^ 31) :
    int32 ((running : Int) + toInt32 count) = .ok ((running + count : Nat) : Int) := by
  rw [toInt32_of_lt (by omega) (by omega)]
  exact if_pos ⟨by omega, by omega⟩

variable {length : κ → Nat} {decode : Bool}

/-- The turn of a sequence that passes its checks. -/
theorem stageOne_of_validate {s : SeqInput κ} {b : Nat} {cache : κ} {running : Int} {total : Int}
    (hvalid : validate decode b s = .ok cache)
    (htotal : int32 (running + toInt32 s.tokenIds.length) = .ok total) (staged : Staging κ) :
    stageOne length decode running (s, b) staged
      = .ok (.ok total, Staging.pushRow cache ⟨s.sampler, s.context⟩
          (Staging.pushCuSeqlen total (Staging.pushTokens (length cache) s.tokenIds staged))) := by
  have hcache : (Fallible.ofExcept (validate decode b s) : Fallible Fault Status (Staging κ) κ)
      staged = .ok (.ok cache, staged) := by
    unfold Fallible.ofExcept
    rw [hvalid]
  have hrunning : ∀ staged' : Staging κ,
      (Fallible.ofChecked (int32 (running + toInt32 s.tokenIds.length)) :
        Fallible Fault Status (Staging κ) Int) staged' = .ok (.ok total, staged') := by
    intro staged'
    unfold Fallible.ofChecked
    rw [htotal]
  unfold stageOne
  refine (Fallible.bind_of_ok hcache).trans ?_
  refine (Fallible.bind_of_ok rfl).trans ?_
  exact (Fallible.bind_of_ok (hrunning _)).trans rfl

/-- **The step**: an accepted sequence joins those that are staged. -/
theorem stageOne_accepted {done : List (SeqInput κ)} {staged : Staging κ} {s : SeqInput κ}
    (h : Assembled length done staged) (hs : s.Accepted decode) (b : Nat)
    (hfits : Fits length (done ++ [s])) :
    ∃ staged', stageOne length decode (tokenCount done : Nat) (s, b) staged
        = .ok (.ok (tokenCount (done ++ [s]) : Nat), staged') ∧
      Assembled length (done ++ [s]) staged' := by
  obtain ⟨cache, hcache, hvalid⟩ := validate_accepted hs b
  have htotal : int32 ((tokenCount done : Nat) + toInt32 s.tokenIds.length)
      = .ok ((tokenCount (done ++ [s]) : Nat) : Int) := by
    have hlt := hfits.tokens
    rw [tokenCount_snoc] at hlt ⊢
    exact int32_add hlt
  have hbase : s.base length = length cache := by
    rw [SeqInput.base, hcache]
    rfl
  have hpositions := hfits.positions s (by simp)
  rw [hbase] at hpositions
  refine ⟨_, stageOne_of_validate hvalid htotal staged, ?_, ?_, ?_, ?_, ?_⟩
  · simp [Staging.pushTokens, Staging.pushCuSeqlen, Staging.pushRow, h.tokenIds]
  · simp [Staging.pushTokens, Staging.pushCuSeqlen, Staging.pushRow, h.positions,
      positionsFrom_of_lt hpositions, SeqInput.absolutePositions, hbase]
  · rw [prefixSums_snoc, ← h.cuSeqlens]
    rfl
  · simp [Staging.pushTokens, Staging.pushCuSeqlen, Staging.pushRow, h.caches, hcache]
  · simp [Staging.pushTokens, Staging.pushCuSeqlen, Staging.pushRow, h.sampleRows]

/-- A sequence that is not accepted ends the loop, and leaves what is staged. -/
theorem stageOne_refused {s : SeqInput κ} {b : Nat} {status : Status}
    (h : validate decode b s = .error status) (running : Int) (staged : Staging κ) :
    stageOne length decode running (s, b) staged = .ok (.error status, staged) := by
  unfold stageOne
  refine Fallible.bind_of_error ?_
  unfold Fallible.ofExcept
  rw [h]

/-! ### The loop

One induction over the sequences in front of the first that is refused. -/

theorem Fits.of_append {seqs rest : List (SeqInput κ)} (h : Fits length (seqs ++ rest)) :
    Fits length seqs := by
  refine ⟨?_, fun s hs => h.positions s (List.mem_append_left _ hs)⟩
  have htotal := h.tokens
  unfold tokenCount at htotal ⊢
  rw [List.map_append, List.sum_append] at htotal
  omega

/-- **The run**: accepted sequences are staged one after the other. -/
theorem fold_accepted : ∀ {seqs done : List (SeqInput κ)} {staged : Staging κ},
    Assembled length done staged → (∀ s ∈ seqs, s.Accepted decode) →
    Fits length (done ++ seqs) → ∀ b,
    ∃ staged', Fallible.fold (stageOne length decode) (seqs.zipIdx b) (tokenCount done : Nat)
        staged = .ok (.ok (tokenCount (done ++ seqs) : Nat), staged') ∧
      Assembled length (done ++ seqs) staged' := by
  intro seqs
  induction seqs with
  | nil =>
      intro done staged h _ _ b
      rw [List.append_nil]
      exact ⟨staged, rfl, h⟩
  | cons s rest ih =>
      intro done staged h haccepted hfits b
      rw [List.append_cons] at hfits ⊢
      obtain ⟨staged₁, hstep, h₁⟩ :=
        stageOne_accepted h (haccepted s (by simp)) b hfits.of_append
      obtain ⟨staged₂, hrun, h₂⟩ :=
        ih h₁ (fun s' hs' => haccepted s' (List.mem_cons_of_mem _ hs')) hfits (b + 1)
      refine ⟨staged₂, ?_, h₂⟩
      rw [List.zipIdx_cons, Fallible.fold, Fallible.bind_of_ok hstep]
      exact hrun

/-- A batch of accepted sequences is staged. -/
theorem stageAll_accepted {seqs : List (SeqInput κ)} (haccepted : ∀ s ∈ seqs, s.Accepted decode)
    (hfits : Fits length seqs) (prior : Staging κ) :
    ∃ staged, stageAll length decode seqs prior = .ok (.ok (), staged) ∧
      Assembled length seqs staged := by
  obtain ⟨staged, hrun, h⟩ := fold_accepted (Assembled.empty length) haccepted hfits 0
  refine ⟨staged, ?_, h⟩
  unfold stageAll
  refine (Fallible.bind_of_ok rfl).trans ?_
  refine (Fallible.bind_of_ok rfl).trans ?_
  exact (Fallible.bind_of_ok hrun).trans rfl

/-- The first sequence that is refused leaves those in front of it staged. -/
theorem stageAll_refused {done : List (SeqInput κ)} {s : SeqInput κ} {status : Status}
    (haccepted : ∀ s ∈ done, s.Accepted decode) (hfits : Fits length done)
    (hrefused : validate decode done.length s = .error status) (prior : Staging κ) :
    ∃ staged, Assembled length done staged ∧ ∀ rest,
      stageAll length decode (done ++ s :: rest) prior = .ok (.error status, staged) := by
  obtain ⟨staged, hrun, h⟩ := fold_accepted (Assembled.empty length) haccepted hfits 0
  refine ⟨staged, h, fun rest => ?_⟩
  have hloop : Fallible.fold (stageOne length decode) (done ++ s :: rest).zipIdx
      (tokenCount ([] : List (SeqInput κ)) : Nat) ⟨[], [], [0], [], []⟩
      = .ok (.error status, staged) := by
    rw [List.zipIdx_append, Fallible.fold_append_of_ok hrun, List.zipIdx_cons, Fallible.fold]
    refine Fallible.bind_of_error (stageOne_refused ?_ _ _)
    rw [Nat.zero_add]
    exact hrefused
  unfold stageAll
  refine (Fallible.bind_of_ok rfl).trans ?_
  refine (Fallible.bind_of_ok rfl).trans ?_
  exact Fallible.bind_of_error hloop

/-- Sequences are all accepted, or one of them is the first that is not. -/
theorem accepted_or_first_refused (decode : Bool) (seqs : List (SeqInput κ)) :
    (∀ s ∈ seqs, s.Accepted decode) ∨
      ∃ done s rest, seqs = done ++ s :: rest ∧ (∀ s ∈ done, s.Accepted decode) ∧
        ¬s.Accepted decode := by
  cases hfind : seqs.find? fun s => !decide (s.Accepted decode) with
  | none => exact Or.inl fun s hs => by simpa using List.find?_eq_none.mp hfind s hs
  | some s =>
      obtain ⟨hs, done, rest, heq, hdone⟩ := List.find?_eq_some_iff_append.mp hfind
      refine Or.inr ⟨done, s, rest, heq, fun s' hs' => ?_, by simpa using hs⟩
      simpa using hdone s' hs'

/-! ### The contract

A refused sequence behind the front leaves those before it staged. -/

/-- What a call is to have done: after a success the staging describes the batch, and after an
`InvalidArgument` no sequence is staged. -/
def Contract (length : κ → Nat) (seqs : List (SeqInput κ)) :
    Checked (StatusOr Unit × Staging κ) → Prop
  | .ok (.ok (), staged) => Assembled length seqs staged
  | .ok (.error status, staged) => status.code = .invalidArgument → staged.Vacant
  | .error _ => False

/-- Every sequence is accepted, or the first one is not. -/
def FaultAtFront (decode : Bool) (seqs : List (SeqInput κ)) : Prop :=
  (∀ s ∈ seqs, s.Accepted decode) ∨ ∃ s rest, seqs = s :: rest ∧ ¬s.Accepted decode

theorem stageAll_contract {seqs : List (SeqInput κ)} (hfits : Fits length seqs)
    (prior : Staging κ) :
    Contract length seqs (stageAll length decode seqs prior) ↔ FaultAtFront decode seqs := by
  rcases accepted_or_first_refused decode seqs with haccepted | hfirst
  · obtain ⟨staged, hrun, h⟩ := stageAll_accepted haccepted hfits prior
    rw [hrun]
    exact ⟨fun _ => Or.inl haccepted, fun _ => h⟩
  · obtain ⟨done, s, rest, rfl, hdone, hs⟩ := hfirst
    obtain ⟨message, hrefused⟩ := validate_refused hs done.length
    obtain ⟨staged, h, hrun⟩ :=
      stageAll_refused hdone hfits.of_append hrefused prior
    rw [hrun rest]
    -- what is staged is what stands in front of the sequence that was refused
    have hvacant : Contract length (done ++ s :: rest)
        (.ok (.error (invalidArgumentError message), staged)) ↔ done = [] :=
      ⟨fun hcontract => h.vacant_iff.mp (hcontract rfl), fun hnil _ => h.vacant_iff.mpr hnil⟩
    rw [hvacant]
    constructor
    · intro hnil
      subst hnil
      exact Or.inr ⟨s, rest, rfl, hs⟩
    · rintro (hall | ⟨s', rest', heq, hs'⟩)
      · exact absurd (hall s (by simp)) hs
      · cases done with
        | nil => rfl
        | cons first done =>
            obtain ⟨rfl, _⟩ := List.cons.inj heq
            exact absurd (hdone first (by simp)) hs'

/-- **Assembly keeps its contract exactly when a sequence that is refused, if there is one,
stands at the front of the batch.** -/
theorem assemble_contract {κ : Type} (length : κ → Nat) (seqs : List (SeqInput κ))
    (prior : Staging κ) (hfits : Fits length seqs) :
    (Contract length seqs (assemblePrefill length seqs prior) ↔ FaultAtFront false seqs) ∧
      (Contract length seqs (assembleDecode length seqs prior) ↔ FaultAtFront true seqs) :=
  ⟨stageAll_contract hfits prior, stageAll_contract hfits prior⟩

/-- Two sequences with caches of 3 and 5 tokens, the second of which brings no token. -/
def secondEmpty : List (SeqInput Nat) :=
  [⟨[7, 8], some 3, some ⟨{}, 0⟩, ⟨[7, 8], []⟩⟩, ⟨[], some 5, some ⟨{}, 0⟩, ⟨[], []⟩⟩]

theorem assemble_contract_secondEmpty :
    (Contract id secondEmpty (assemblePrefill id secondEmpty Staging.cleared)
        ↔ FaultAtFront false secondEmpty) ∧
      (Contract id secondEmpty (assembleDecode id secondEmpty Staging.cleared)
        ↔ FaultAtFront true secondEmpty) :=
  assemble_contract id secondEmpty Staging.cleared ⟨by decide, by decide⟩

/-- The second sequence is refused, and the first one stays staged. -/
theorem assemblePrefill_secondEmpty :
    ¬Contract id secondEmpty (assemblePrefill id secondEmpty Staging.cleared) := by
  intro hcontract
  have hvacant : (⟨[7, 8], [3, 4], [0, 2], [3], [⟨some ⟨{}, 0⟩, ⟨[7, 8], []⟩⟩]⟩ :
      Staging Nat).Vacant := hcontract rfl
  exact absurd (congrArg Staging.caches hvacant) (by decide)

/-! ### The batches of the engine

The engine's batches are kept by sequence, and `flatten` is what the loop computes of them. -/

/-- One sequence's part of a forward, seen from the assembler. -/
structure Describes (s : BatchSeqInput) (part : ForwardSeq) : Prop where
  tokenIds : part.tokenIds = s.tokenIds
  positions : part.positions = (SeqInput.ofSeq s).absolutePositions PagedKvCache.length
  cache : some part.cache = s.cache

theorem flattenOne_eq (decode : Bool) (b : Nat) (s : BatchSeqInput) :
    flattenOne decode b s = (validate decode b (SeqInput.ofSeq s)).map fun cache =>
      ⟨s.tokenIds, positionsFrom cache.length s.tokenIds.length, cache⟩ := by
  unfold flattenOne validate SeqInput.ofSeq
  cases hcache : s.cache with
  | none => rfl
  | some cache =>
      dsimp only
      split_ifs <;> rfl

theorem flatten_eq (decode : Bool) (seqs : List BatchSeqInput) :
    flatten decode seqs = (seqs.zipIdx.mapM fun sb => flattenOne decode sb.2 sb.1) >>= fun parts =>
      .ok ⟨parts, seqs.map fun s => ⟨s.sampler, s.context⟩⟩ := by
  unfold flatten
  rw [List.mapIdx_eq_zipIdx_map, List.mapM_map]
  rfl

theorem mapM_accepted : ∀ {seqs : List BatchSeqInput},
    (∀ s ∈ seqs, (SeqInput.ofSeq s).Accepted decode) →
    (∀ s ∈ seqs, ∀ t < s.tokenIds.length,
      (SeqInput.ofSeq s).base PagedKvCache.length + t < 2 ^ 31) →
    ∀ b, ∃ parts, (seqs.zipIdx b).mapM (fun sb => flattenOne decode sb.2 sb.1) = .ok parts ∧
      List.Forall₂ Describes seqs parts := by
  intro seqs
  induction seqs with
  | nil => exact fun _ _ b => ⟨[], rfl, .nil⟩
  | cons s rest ih =>
      intro haccepted hpositions b
      obtain ⟨cache, hcache, hvalid⟩ := validate_accepted (haccepted s (by simp)) b
      obtain ⟨parts, hparts, hrest⟩ :=
        ih (fun s' hs' => haccepted s' (List.mem_cons_of_mem _ hs'))
          (fun s' hs' => hpositions s' (List.mem_cons_of_mem _ hs')) (b + 1)
      have hbase : (SeqInput.ofSeq s).base PagedKvCache.length = cache.length := by
        rw [SeqInput.base, hcache]
        rfl
      have hpos := hpositions s (by simp)
      rw [hbase] at hpos
      refine ⟨⟨s.tokenIds, positionsFrom cache.length s.tokenIds.length, cache⟩ :: parts, ?_, ?_⟩
      · rw [List.zipIdx_cons, List.mapM_cons, flattenOne_eq, hvalid, hparts]
        rfl
      · refine .cons ⟨rfl, ?_, hcache.symm⟩ hrest
        rw [positionsFrom_of_lt hpos, SeqInput.absolutePositions, hbase]
        rfl

/-- What the staging of a batch has in common with the batch kept by sequence. -/
structure Flattens (inputs : BatchInputs) (staged : Staging PagedKvCache) : Prop where
  tokenIds : staged.tokenIds = inputs.seqs.flatMap ForwardSeq.tokenIds
  positions : staged.positions = inputs.seqs.flatMap ForwardSeq.positions
  caches : staged.caches = inputs.seqs.map ForwardSeq.cache
  sampleRows : staged.sampleRows = inputs.sampleRows
  cuSeqlens : staged.cuSeqlens = (List.range (inputs.seqs.length + 1)).map fun b =>
    ((((inputs.seqs.take b).flatMap ForwardSeq.tokenIds).length : Nat) : Int)
  lengths : ∀ s ∈ inputs.seqs, s.positions.length = s.tokenIds.length

theorem describes_of_mem {seqs : List BatchSeqInput} {parts : List ForwardSeq}
    (h : List.Forall₂ Describes seqs parts) {part : ForwardSeq} (hpart : part ∈ parts) :
    ∃ s, Describes s part := by
  induction h with
  | nil => exact absurd hpart List.not_mem_nil
  | cons hs _ ih =>
      rcases List.mem_cons.mp hpart with rfl | hpart
      · exact ⟨_, hs⟩
      · exact ih hpart

theorem tokenCount_describes {seqs : List BatchSeqInput} {parts : List ForwardSeq}
    (h : List.Forall₂ Describes seqs parts) (b : Nat) :
    tokenCount ((seqs.map SeqInput.ofSeq).take b)
      = ((parts.take b).flatMap ForwardSeq.tokenIds).length := by
  induction h generalizing b with
  | nil =>
      rw [List.map_nil, List.take_nil, List.take_nil]
      rfl
  | @cons s part _ _ hs _ ih =>
      cases b with
      | zero => rfl
      | succ b =>
          rw [List.map_cons, List.take_succ_cons, List.take_succ_cons, List.flatMap_cons,
            List.length_append, ← ih b, hs.tokenIds]
          exact List.sum_cons

theorem flattens_of_describes {seqs : List BatchSeqInput} {parts : List ForwardSeq}
    (h : List.Forall₂ Describes seqs parts) {staged : Staging PagedKvCache}
    (hstaged : Assembled PagedKvCache.length (seqs.map SeqInput.ofSeq) staged) :
    Flattens ⟨parts, seqs.map fun s => ⟨s.sampler, s.context⟩⟩ staged := by
  have hshared : (seqs.map SeqInput.ofSeq).flatMap SeqInput.tokenIds
        = parts.flatMap ForwardSeq.tokenIds ∧
      (seqs.map SeqInput.ofSeq).flatMap (SeqInput.absolutePositions PagedKvCache.length)
        = parts.flatMap ForwardSeq.positions ∧
      (seqs.map SeqInput.ofSeq).map SeqInput.cache
        = (parts.map ForwardSeq.cache).map some := by
    clear hstaged
    induction h with
    | nil => exact ⟨rfl, rfl, rfl⟩
    | cons hs _ ih =>
        simp only [List.map_cons, List.flatMap_cons]
        rw [ih.1, ih.2.1, ih.2.2, hs.tokenIds, hs.positions, hs.cache]
        exact ⟨rfl, rfl, rfl⟩
  refine ⟨hstaged.tokenIds.trans hshared.1, hstaged.positions.trans hshared.2.1, ?_, ?_, ?_, ?_⟩
  · have hcaches := hstaged.caches.trans hshared.2.2
    exact List.map_injective_iff.mpr (Option.some_injective _) hcaches
  · rw [hstaged.sampleRows, List.map_map]
    rfl
  · rw [hstaged.cuSeqlens, List.length_map, h.length_eq]
    exact List.map_congr_left fun b _ => congrArg Nat.cast (tokenCount_describes h b)
  · intro part hpart
    obtain ⟨s, hs⟩ := describes_of_mem h hpart
    rw [hs.positions, hs.tokenIds, SeqInput.absolutePositions, List.length_map,
      List.length_range]
    rfl

/-- **The engine's `flatten` is what the loop does**: they answer the same, and the staging of a
success is the batch laid out flat. -/
theorem stageAll_flatten {seqs : List BatchSeqInput}
    (hfits : Fits PagedKvCache.length (seqs.map SeqInput.ofSeq)) (prior : Staging PagedKvCache) :
    ∃ staged, stageAll PagedKvCache.length decode (seqs.map SeqInput.ofSeq) prior
        = .ok ((flatten decode seqs).map fun _ => (), staged) ∧
      ∀ inputs, flatten decode seqs = .ok inputs → Flattens inputs staged := by
  have hpositions : ∀ s ∈ seqs, ∀ t < s.tokenIds.length,
      (SeqInput.ofSeq s).base PagedKvCache.length + t < 2 ^ 31 :=
    fun s hs => hfits.positions _ (List.mem_map_of_mem hs)
  rcases accepted_or_first_refused decode (seqs.map SeqInput.ofSeq) with haccepted | hfirst
  · obtain ⟨staged, hrun, h⟩ := stageAll_accepted haccepted hfits prior
    obtain ⟨parts, hparts, hdescribes⟩ :=
      mapM_accepted (fun s hs => haccepted _ (List.mem_map_of_mem hs)) hpositions 0
    have hflatten := flatten_eq decode seqs
    rw [hparts, Except.ok_bind] at hflatten
    rw [hrun, hflatten]
    refine ⟨staged, rfl, fun inputs hinputs => ?_⟩
    cases hinputs
    exact flattens_of_describes hdescribes h
  · obtain ⟨done, s, rest, heq, hdone, hs⟩ := hfirst
    obtain ⟨done', tail, rfl, rfl, htail⟩ := List.map_eq_append_iff.mp heq
    obtain ⟨s', rest', rfl, rfl, rfl⟩ := List.map_eq_cons_iff.mp htail
    obtain ⟨message, hrefused⟩ := validate_refused hs done'.length
    obtain ⟨parts, hparts, _⟩ :=
      mapM_accepted (fun s hs => hdone _ (List.mem_map_of_mem hs))
        (fun s hs => hpositions s (List.mem_append_left _ hs)) 0
    have hflatten := flatten_eq decode (done' ++ s' :: rest')
    rw [List.zipIdx_append, List.mapM_append, hparts, Except.ok_bind, List.zipIdx_cons,
      List.mapM_cons, Nat.zero_add, flattenOne_eq, hrefused] at hflatten
    rw [List.map_append, List.map_cons] at hfits ⊢
    have hrefused' : validate decode (done'.map SeqInput.ofSeq).length (SeqInput.ofSeq s')
        = .error (invalidArgumentError message) := by
      rw [List.length_map]
      exact hrefused
    obtain ⟨staged, h, hrun⟩ := stageAll_refused hdone hfits.of_append hrefused' prior
    rw [hrun, hflatten]
    exact ⟨staged, rfl, fun inputs hinputs => by cases hinputs⟩

/-! ### The request a backend reads

The engine's model is asked by sequence, a backend with flat vectors.  The backend cuts these at
the prefix sums and finds the sequences again. -/

/-- `MakeForwardRequest` of the flat vectors; a cache is known by its place. -/
def Staging.request (staged : Staging κ) : Backend.ForwardRequest staged.caches.length where
  tokenIds := staged.tokenIds
  positions := staged.positions
  cache := none
  logitsMode := .last
  cuSeqlens := staged.cuSeqlens
  caches := (List.finRange staged.caches.length).map some

/-- A piece of a list that is made of pieces. -/
theorem take_drop_flatMap {ι α : Type} (f : ι → List α) {l : List ι} {b : Nat} {x : ι}
    (hx : l[b]? = some x) :
    ((l.flatMap f).drop ((l.take b).flatMap f).length).take (f x).length = f x := by
  obtain ⟨hb, rfl⟩ := List.getElem?_eq_some_iff.mp hx
  have hl : l = l.take b ++ l[b] :: l.drop (b + 1) := by
    rw [← List.drop_eq_getElem_cons hb, List.take_append_drop]
  have hflat : l.flatMap f
      = (l.take b).flatMap f ++ (f l[b] ++ (l.drop (b + 1)).flatMap f) := by
    rw [← List.flatMap_cons, ← List.flatMap_append, ← hl]
  rw [hflat, List.drop_left, List.take_left]

section

variable {inputs : BatchInputs} {staged : Staging PagedKvCache} {b : Nat} {s : ForwardSeq}

/-- As many positions as tokens lie in front of a sequence. -/
theorem Flattens.positions_before (h : Flattens inputs staged) (b : Nat) :
    ((inputs.seqs.take b).flatMap ForwardSeq.positions).length
      = ((inputs.seqs.take b).flatMap ForwardSeq.tokenIds).length := by
  rw [List.length_flatMap, List.length_flatMap]
  exact congrArg List.sum (List.map_congr_left fun s hs => h.lengths s (List.mem_of_mem_take hs))

theorem Flattens.cu (h : Flattens inputs staged) (hb : b ≤ inputs.seqs.length) :
    staged.request.cu b = ((inputs.seqs.take b).flatMap ForwardSeq.tokenIds).length := by
  show (staged.cuSeqlens.getD b 0).toNat = _
  rw [h.cuSeqlens, List.getD_eq_getElem _ _ (by
    rw [List.length_map, List.length_range]
    omega), List.getElem_map, List.getElem_range, Int.toNat_natCast]

theorem Flattens.seqLen (h : Flattens inputs staged) (hs : inputs.seqs[b]? = some s) :
    staged.request.seqLen b = s.tokenIds.length := by
  obtain ⟨hb, hget⟩ := List.getElem?_eq_some_iff.mp hs
  unfold Backend.ForwardRequest.seqLen
  rw [h.cu hb, h.cu hb.le, List.take_succ_eq_append_getElem hb, List.flatMap_append,
    List.length_append, Nat.add_sub_cancel_left, List.flatMap_singleton, hget]

/-- **Cut at its prefix sums, the flat request is the request by sequence.** -/
theorem Flattens.member (h : Flattens inputs staged)
    (hs : inputs.makeForwardRequest.seqs[b]? = some s) :
    (staged.request.member b).tokenIds = s.tokenIds ∧
      (staged.request.member b).positions = s.positions ∧
      ∃ i, (staged.request.member b).cache = some i ∧ staged.caches.get i = s.cache := by
  have hs : inputs.seqs[b]? = some s := hs
  obtain ⟨hb, hget⟩ := List.getElem?_eq_some_iff.mp hs
  have hmem : s ∈ inputs.seqs := hget ▸ List.getElem_mem hb
  refine ⟨?_, ?_, ?_⟩
  · show (staged.tokenIds.drop (staged.request.cu b)).take (staged.request.seqLen b) = _
    rw [h.tokenIds, h.cu hb.le, h.seqLen hs]
    exact take_drop_flatMap _ hs
  · show (staged.positions.drop (staged.request.cu b)).take (staged.request.seqLen b) = _
    rw [h.positions, h.cu hb.le, h.seqLen hs, ← h.positions_before b, ← h.lengths s hmem]
    exact take_drop_flatMap _ hs
  · have hlength : staged.caches.length = inputs.seqs.length := by
      rw [h.caches, List.length_map]
    refine ⟨⟨b, hlength ▸ hb⟩, ?_, ?_⟩
    · show ((List.finRange staged.caches.length).map some).getD b none = _
      rw [List.getD_eq_getElem _ _ (by
        rw [List.length_map, List.length_finRange]
        exact hlength ▸ hb), List.getElem_map, List.getElem_finRange]
      rfl
    · rw [List.get_eq_getElem]
      simp only [h.caches, List.getElem_map, hget]

/-- **What the loop stages is the request of the engine**, laid out flat. -/
theorem stageAll_request {seqs : List BatchSeqInput}
    (hfits : Fits PagedKvCache.length (seqs.map SeqInput.ofSeq)) (prior : Staging PagedKvCache)
    (hinputs : flatten decode seqs = .ok inputs) :
    ∃ staged, stageAll PagedKvCache.length decode (seqs.map SeqInput.ofSeq) prior
        = .ok (.ok (), staged) ∧ staged.request.isBatched = inputs.makeForwardRequest.batched ∧
      ∀ b s, inputs.makeForwardRequest.seqs[b]? = some s →
        (staged.request.member b).tokenIds = s.tokenIds ∧
          (staged.request.member b).positions = s.positions ∧
          ∃ i, (staged.request.member b).cache = some i ∧ staged.caches.get i = s.cache := by
  obtain ⟨staged, hrun, hflattens⟩ := stageAll_flatten hfits prior
  have h := hflattens inputs hinputs
  rw [hinputs] at hrun
  refine ⟨staged, hrun, ?_, fun b s hs => h.member hs⟩
  show (!staged.cuSeqlens.isEmpty || _) = true
  rw [h.cuSeqlens, List.range_succ, List.map_append]
  simp

end

end InferenceEngine.BatchAssembler
