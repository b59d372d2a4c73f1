/-
When the up-front length checks can be trusted.

`Submit` and `Generate` add two or three 64-bit lengths and compare the sum with their
bounds.  As long as the sum fits, acceptance means what it should.  From 2^63 on the sum
wraps to a negative number, which is below every bound, and the request is accepted;
`admission_exact_iff` says that this is the only way for it to go wrong.
-/
import InferenceEngine.Engine.Generate
import InferenceEngine.Proofs.PoolSizing
import InferenceEngine.Runtime.Engine

namespace InferenceEngine

open Except

/-! ### Wrapping

A sum that leaves the 64 bits once comes back on the other side. -/

theorem wrapInt64_of_fits {x : Int} (hlow : -(2 ^ 63) ≤ x) (hhigh : x < 2 ^ 63) :
    wrapInt64 x = x := by
  unfold wrapInt64
  rw [Int.bmod_def]
  split <;> omega

theorem wrapInt64_of_once {x : Int} (hlow : 2 ^ 63 ≤ x) (hhigh : x < 2 ^ 64 + 2 ^ 63) :
    wrapInt64 x = x - 2 ^ 64 := by
  unfold wrapInt64
  rw [Int.bmod_def]
  split <;> omega

/-! ### What the two entry points check besides lengths

These checks read the parameters and the stop condition alone.  Whatever the lengths are, they
pass or fail alike. -/

/-- What `Sampler::Create` and `StopChecker::Create` ask of a request. -/
structure Serves (params : SamplingParams) (tokenizer : Option Tokenizer) : Prop where
  valid : validateSamplingParams params = .ok ()
  stops : params.stopStrings = [] ∨ tokenizer.isSome

theorem validateSamplingParams_maxTokens {params : SamplingParams}
    (h : validateSamplingParams params = .ok ()) : 0 < params.maxTokens := by
  unfold validateSamplingParams at h
  simp only [bind, Except.bind, throw, throwThe, MonadExceptOf.throw, pure, Except.pure] at h
  iterate 6
    split at h
    · cases h
  split at h
  · cases h
  · omega

theorem samplerCreate_ok {params : SamplingParams} (seed : Nat)
    (h : validateSamplingParams params = .ok ()) :
    Sampler.create params seed = .ok ⟨params, Sampler.resolveSeed params seed⟩ := by
  rw [Sampler.create, h, ok_bind]
  rfl

theorem samplerCreate_error {params : SamplingParams} {status : Status} (seed : Nat)
    (h : validateSamplingParams params = .error status) :
    Sampler.create params seed = .error status := by
  rw [Sampler.create, h]
  rfl

theorem stopCreate_iff {params : SamplingParams} (eosIds : List Int)
    {tokenizer : Option Tokenizer} (skip : Bool) :
    (∃ checker, StopChecker.create params eosIds tokenizer skip = .ok checker) ↔
      params.stopStrings = [] ∨ tokenizer.isSome := by
  unfold StopChecker.create
  cases hstops : params.stopStrings with
  | nil => simp
  | cons stop stops =>
    cases tokenizer with
    | none => simp
    | some t => simp

theorem sequenceCreate_iff {request : Request} (seed : Nat) :
    (∃ seq, Sequence.create request seed = .ok seq) ↔
      Serves request.params request.tokenizer := by
  unfold Sequence.create
  cases hvalid : validateSamplingParams request.params with
  | error status =>
    rw [samplerCreate_error seed hvalid]
    refine ⟨fun ⟨_, h⟩ => (by cases h), fun h => ?_⟩
    rw [h.valid] at hvalid
    cases hvalid
  | ok u =>
    rw [samplerCreate_ok seed hvalid, ok_bind]
    constructor
    · rintro ⟨seq, h⟩
      obtain ⟨checker, hchecker, _⟩ := bind_eq_ok.mp h
      exact ⟨hvalid, (stopCreate_iff _ _).mp ⟨checker, hchecker⟩⟩
    · intro h
      obtain ⟨checker, hchecker⟩ :=
        (stopCreate_iff request.eosIds request.skipSpecialTokens).mpr h.stops
      rw [hchecker, ok_bind]
      exact ⟨_, rfl⟩

/-! ### Submit

The length a request may reach is added up once and held to three bounds.  Where the sum wraps
it is negative, and every one of them lets it pass. -/

namespace Engine

variable {σ α : Type}

/-- The length a request reaches when nothing stops it early. -/
def peakLength (request : Request) : Int := request.promptIds.length + request.params.maxTokens - 1

/-- The bounds a submitted request is held to. -/
structure Fits (e : Engine σ α) (request : Request) : Prop where
  budget : peakLength request ≤ e.loop.config.maxNumBatchedTokens
  modelLen : 0 < e.loop.maxModelLen → peakLength request ≤ e.loop.maxModelLen
  pool : peakLength request ≤ (e.loop.shared.pool.numBlocks : Int) * e.loop.shared.pool.blockSize

/-- A request that nothing but its length keeps out. -/
structure Admissible (e : Engine σ α) (request : Request) : Prop where
  nonempty : request.promptIds ≠ []
  serves : Serves request.params request.tokenizer
  running : e.queue.stopRequested = false

/-- The 64-bit values of an engine, as `Create` and `BlockPool::Create` leave them. -/
structure Settings (e : Engine σ α) : Prop where
  budget_pos : 0 < e.loop.config.maxNumBatchedTokens
  budget_lt : e.loop.config.maxNumBatchedTokens < 2 ^ 63
  modelLen_lt : e.loop.maxModelLen < 2 ^ 63
  capacity_lt : (e.loop.shared.pool.numBlocks : Int) * e.loop.shared.pool.blockSize < 2 ^ 63

/-- A new engine over a created pool starts with such values, when it is given such values. -/
theorem create_settings [Zero α] {S : Services σ α} {state : σ} {pool : BlockPool α}
    {config : EngineConfig} {e : Engine σ α} {geom : CacheGeometry} {blockSize numBlocks : Int}
    (hpool : BlockPool.create geom blockSize numBlocks = .ok pool)
    (hbudget : config.maxNumBatchedTokens < 2 ^ 63) (hlen : config.maxModelLen < 2 ^ 63)
    (hpositions : S.model.maxPositionEmbeddings < 2 ^ 63)
    (h : create S state pool config = .ok e) : e.Settings := by
  have hcapacity := BlockPool.create_capacity_lt hpool
  unfold create at h
  simp only [bind, Except.bind, throw, throwThe, MonadExceptOf.throw] at h
  split at h
  · cases h
  split at h
  · cases h
  rename_i hpos
  split at h
  · cases h
  split at h
  · cases h
  split at h
  · cases h
  cases h
  refine ⟨not_le.mp hpos, hbudget, ?_, hcapacity⟩
  show (if config.maxModelLen = 0 then S.model.maxPositionEmbeddings else config.maxModelLen)
    < 2 ^ 63
  split
  · exact hpositions
  · exact hlen

theorem validateSubmit_accepts_iff {e : EngineLoop σ α} {request : Request} {seed : Nat} :
    (∃ seq, validateSubmit e request seed = .ok seq) ↔
      request.promptIds ≠ [] ∧ Serves request.params request.tokenizer ∧
      wrapInt64 (peakLength request) ≤ e.config.maxNumBatchedTokens ∧
      (0 < e.maxModelLen → wrapInt64 (peakLength request) ≤ e.maxModelLen) ∧
      wrapInt64 (peakLength request)
        ≤ wrapInt64 ((e.shared.pool.numBlocks : Int) * e.shared.pool.blockSize) := by
  -- the peak as the code writes it
  have hpeak : 0 < request.params.maxTokens → (request.promptIds.length : Int)
      + (if 0 < request.params.maxTokens then request.params.maxTokens - 1 else 0)
      = peakLength request := by
    intro hmax
    rw [if_pos hmax, peakLength]
    omega
  constructor
  · rintro ⟨seq, h⟩
    unfold validateSubmit at h
    simp only [bind, Except.bind, throw, throwThe, MonadExceptOf.throw] at h
    generalize hgenerated : (if 0 < request.params.maxTokens then request.params.maxTokens - 1
      else 0) = generated at h hpeak
    split at h
    · cases h
    rename_i hempty
    split at h
    · cases h
    rename_i hbudget
    split at h
    · cases h
    rename_i hmodel
    split at h
    · cases h
    rename_i hpool
    have hserves := (sequenceCreate_iff seed).mp ⟨seq, h⟩
    rw [hpeak (validateSamplingParams_maxTokens hserves.valid)] at hbudget hmodel hpool
    refine ⟨?_, hserves, not_lt.mp hbudget, ?_, not_lt.mp hpool⟩
    · simpa [List.isEmpty_iff] using hempty
    · intro hpos
      exact not_lt.mp fun hlt => hmodel ⟨hpos, hlt⟩
  · rintro ⟨hempty, hserves, hbudget, hmodel, hpool⟩
    obtain ⟨seq, hseq⟩ := (sequenceCreate_iff seed).mpr hserves
    refine ⟨seq, ?_⟩
    have hmodel' : ¬ (0 < e.maxModelLen ∧ e.maxModelLen < wrapInt64 (peakLength request)) :=
      fun ⟨hpos, hlt⟩ => absurd (hmodel hpos) (not_le.mpr hlt)
    unfold validateSubmit
    simp only [hpeak (validateSamplingParams_maxTokens hserves.valid), List.isEmpty_iff, hempty,
      if_false, if_neg (not_lt.mpr hbudget), if_neg hmodel', if_neg (not_lt.mpr hpool)]
    exact hseq

theorem submit_accepts_iff {e : Engine σ α} {request : Request} {seed : Nat} :
    (∃ id, (e.submit request seed).1 = .ok id) ↔
      e.queue.stopRequested = false ∧ ∃ seq, validateSubmit e.loop request seed = .ok seq := by
  unfold submit
  cases validateSubmit e.loop request seed with
  | error status => simp
  | ok seq =>
    cases e.queue.stopRequested with
    | true => simp
    | false => simp

/-- A sum that fits is compared as it is. -/
theorem fits_of_submit {e : Engine σ α} {request : Request} {seed : Nat} (hs : e.Settings)
    (hsum : peakLength request < 2 ^ 63)
    (h : ∃ id, (e.submit request seed).1 = .ok id) : e.Fits request := by
  obtain ⟨_, hvalid⟩ := submit_accepts_iff.mp h
  obtain ⟨_, hserves, hbudget, hmodel, hpool⟩ := validateSubmit_accepts_iff.mp hvalid
  have hmax := validateSamplingParams_maxTokens hserves.valid
  have hpos : 0 ≤ peakLength request := by
    unfold peakLength
    omega
  rw [wrapInt64_of_fits (by omega) hsum] at hbudget hmodel hpool
  have hnonneg : 0 ≤ (e.loop.shared.pool.numBlocks : Int) * e.loop.shared.pool.blockSize :=
    mul_nonneg (Int.natCast_nonneg _) (Int.natCast_nonneg _)
  rw [wrapInt64_of_fits (by omega) hs.capacity_lt] at hpool
  exact ⟨hbudget, hmodel, hpool⟩

/-- A sum that wraps is below every bound. -/
theorem submit_of_wraps {e : Engine σ α} {request : Request} {seed : Nat} (hs : e.Settings)
    (hsum : 2 ^ 63 ≤ peakLength request) (hprompt : (request.promptIds.length : Int) < 2 ^ 63)
    (hmax : request.params.maxTokens < 2 ^ 63) (h : e.Admissible request) :
    ∃ id, (e.submit request seed).1 = .ok id := by
  have hlt : peakLength request < 2 ^ 64 := by
    unfold peakLength
    omega
  have hwrap := wrapInt64_of_once hsum (by omega)
  have hnonneg : 0 ≤ (e.loop.shared.pool.numBlocks : Int) * e.loop.shared.pool.blockSize :=
    mul_nonneg (Int.natCast_nonneg _) (Int.natCast_nonneg _)
  have hbudget := hs.budget_pos
  refine submit_accepts_iff.mpr ⟨h.running, validateSubmit_accepts_iff.mpr
    ⟨h.nonempty, h.serves, ?_, ?_, ?_⟩⟩
  · omega
  · intro hpos
    omega
  · rw [wrapInt64_of_fits (by omega) hs.capacity_lt]
    omega

/-- **`Submit` holds a request to its bounds** exactly when the sum fits, unless something
else keeps the request out. -/
theorem submit_fits_iff {e : Engine σ α} {request : Request} {seed : Nat} (hs : e.Settings)
    (hprompt : (request.promptIds.length : Int) < 2 ^ 63)
    (hmax : request.params.maxTokens < 2 ^ 63) :
    ((∃ id, (e.submit request seed).1 = .ok id) → e.Fits request) ↔
      peakLength request < 2 ^ 63 ∨ ¬ e.Admissible request := by
  constructor
  · intro h
    by_contra hc
    obtain ⟨hsum, hadmissible⟩ := not_or.mp hc
    have hfits := h (submit_of_wraps hs (not_lt.mp hsum) hprompt hmax (not_not.mp hadmissible))
    have := hfits.budget
    have := hs.budget_lt
    omega
  · rintro (hsum | hadmissible) h
    · exact fits_of_submit hs hsum h
    · obtain ⟨hrunning, hvalid⟩ := submit_accepts_iff.mp h
      obtain ⟨hempty, hserves, _⟩ := validateSubmit_accepts_iff.mp hvalid
      exact absurd ⟨hempty, hserves, hrunning⟩ hadmissible

end Engine

/-! ### Generate

The prompt and the budget are added up in two steps, and each of them may wrap.  That a run gets
past its checks shows in what it answers: its first forward. -/

namespace Generate

variable {α : Type}

/-- A model that answers every forward with `status`, and does nothing else. -/
def refusing (status : Status) : Model Unit α where
  geometry := ⟨1, 1, 1, .float32⟩
  vocabSize := 1
  maxPositionEmbeddings := 1
  forward := fun state _ _ => (⟨[], .error status⟩, state)

/-- The run gets as far as its first forward: whatever that answers is what it returns. -/
def Proceeds (shared : SharedPool α) (cache : PagedKvCache) (promptIds : List Int)
    (options : GenerateOptions) (drawnSeed : Nat) : Prop :=
  ∀ sampleRow status, generate (refusing status) sampleRow () shared cache promptIds options
    drawnSeed = .ok (.error status, [])

/-- The length the cache reaches when nothing stops the run early. -/
def peakLength (cache : PagedKvCache) (promptIds : List Int) (options : GenerateOptions) : Int :=
  cache.length + promptIds.length + options.sampling.maxTokens - 1

/-- A run that nothing but its length keeps from its first forward. -/
structure Startable (promptIds : List Int) (options : GenerateOptions) : Prop where
  nonempty : promptIds ≠ []
  serves : Serves options.sampling options.tokenizer
  tokens : options.sampling.maxTokens ≤ (2 ^ 63 - 1) / 4
  logprobs : 0 < options.sampling.logprobs → options.sampling.maxTokens ≤ (2 ^ 63 - 1) / 32

theorem reserve_iff {n size : Int} : reserve n size = .ok () ↔ n ≤ (2 ^ 63 - 1) / size := by
  unfold reserve
  split
  · rename_i h
    exact ⟨fun hc => (by cases hc), fun hc => absurd h (not_lt.mpr hc)⟩
  · rename_i h
    exact ⟨fun _ => not_lt.mp h, fun _ => rfl⟩

/-- The first forward of a refused run. -/
theorem forward_refusing (status : Status) (sampleRow : SampleRow) (sampler : Sampler)
    (promptIds tokenIds : List Int) (g : Loop Unit α) :
    forward (refusing status) sampleRow sampler promptIds tokenIds g = .ok (.error status, g) :=
  rfl

theorem proceeds_of_startable {shared : SharedPool α} {cache : PagedKvCache}
    {promptIds : List Int} {options : GenerateOptions} {drawnSeed : Nat}
    (h : Startable promptIds options)
    (hpeak : wrapInt64 (peakLength cache promptIds options) ≤ cache.capacity shared.pool) :
    Proceeds shared cache promptIds options drawnSeed := by
  intro sampleRow status
  obtain ⟨checker, hchecker⟩ :=
    (stopCreate_iff options.eosIds options.skipSpecialTokens).mpr h.serves.stops
  have hsum : (cache.length : Int) + promptIds.length + (options.sampling.maxTokens - 1)
      = peakLength cache promptIds options := by
    unfold peakLength
    omega
  unfold generate
  simp only [List.isEmpty_iff, h.nonempty, if_false, samplerCreate_ok drawnSeed h.serves.valid,
    hchecker, hsum, if_neg (not_lt.mpr hpeak), reserve_iff.mpr h.tokens, ok_bind,
    forward_refusing]
  split
  · rename_i hlogprobs
    rw [reserve_iff.mpr (h.logprobs hlogprobs)]
    rfl
  · rfl

/-- A run that fails one of the checks does not look at the model. -/
theorem generate_refused {shared : SharedPool α} {cache : PagedKvCache}
    {promptIds : List Int} {options : GenerateOptions} (drawnSeed : Nat) (sampleRow : SampleRow)
    (status status' : Status) (h : ¬ (Startable promptIds options ∧
      wrapInt64 (peakLength cache promptIds options) ≤ cache.capacity shared.pool)) :
    generate (refusing status) sampleRow () shared cache promptIds options drawnSeed
      = generate (refusing status') sampleRow () shared cache promptIds options drawnSeed := by
  have hsum : (cache.length : Int) + promptIds.length + (options.sampling.maxTokens - 1)
      = peakLength cache promptIds options := by
    unfold peakLength
    omega
  by_cases hempty : promptIds = []
  · unfold generate
    simp only [List.isEmpty_iff, hempty, if_true]
  cases hvalid : validateSamplingParams options.sampling with
  | error reason =>
    unfold generate
    simp only [List.isEmpty_iff, hempty, if_false, samplerCreate_error drawnSeed hvalid]
  | ok u =>
  cases hchecker : StopChecker.create options.sampling options.eosIds options.tokenizer
      options.skipSpecialTokens with
  | error reason =>
    unfold generate
    simp only [List.isEmpty_iff, hempty, if_false, samplerCreate_ok drawnSeed hvalid, hchecker]
  | ok checker =>
  by_cases hpeak : cache.capacity shared.pool < wrapInt64 (peakLength cache promptIds options)
  · unfold generate
    simp only [List.isEmpty_iff, hempty, if_false, samplerCreate_ok drawnSeed hvalid,
      hchecker, hsum, if_pos hpeak]
  · -- what is left to fail is one of the two reservations
    unfold generate
    simp only [List.isEmpty_iff, hempty, if_false, samplerCreate_ok drawnSeed hvalid,
      hchecker, hsum, if_neg hpeak]
    by_cases htokens : options.sampling.maxTokens ≤ (2 ^ 63 - 1) / 4
    · rw [reserve_iff.mpr htokens, ok_bind, ok_bind]
      by_cases hlogprobs : 0 < options.sampling.logprobs ∧
          (2 ^ 63 - 1) / 32 < options.sampling.maxTokens
      · rw [if_pos hlogprobs.1, if_pos hlogprobs.1, reserve, if_pos hlogprobs.2]
        rfl
      · refine absurd ⟨⟨hempty, ⟨hvalid, (stopCreate_iff _ _).mp ⟨checker, hchecker⟩⟩, htokens,
          fun hpos => ?_⟩, not_lt.mp hpeak⟩ h
        exact not_lt.mp fun hlt => hlogprobs ⟨hpos, hlt⟩
    · rw [reserve, if_pos (not_le.mp htokens)]
      rfl

/-- A run that proceeds has passed every check. -/
theorem startable_of_proceeds {shared : SharedPool α} {cache : PagedKvCache}
    {promptIds : List Int} {options : GenerateOptions} {drawnSeed : Nat}
    (h : Proceeds shared cache promptIds options drawnSeed) :
    Startable promptIds options ∧
      wrapInt64 (peakLength cache promptIds options) ≤ cache.capacity shared.pool := by
  by_contra hc
  have hsame := generate_refused drawnSeed (fun _ _ _ _ _ => .error okStatus)
    okStatus (internalError "") hc
  rw [h, h] at hsame
  cases hsame

/-- **`Generate` holds a run to the capacity of its cache** exactly when the sum fits, or wraps
twice and lands above the capacity, unless something else keeps the run from starting. -/
theorem proceeds_fits_iff {shared : SharedPool α} {cache : PagedKvCache}
    {promptIds : List Int} {options : GenerateOptions} {drawnSeed : Nat}
    (hcapacity : 0 ≤ cache.capacity shared.pool ∧ cache.capacity shared.pool < 2 ^ 63)
    (hstart : (cache.length : Int) < 2 ^ 63) (hprompt : (promptIds.length : Int) < 2 ^ 63)
    (hmax : options.sampling.maxTokens < 2 ^ 63) :
    (Proceeds shared cache promptIds options drawnSeed →
        peakLength cache promptIds options ≤ cache.capacity shared.pool) ↔
      peakLength cache promptIds options < 2 ^ 63 ∨
        cache.capacity shared.pool + 2 ^ 64 < peakLength cache promptIds options ∨
        ¬ Startable promptIds options := by
  constructor
  · intro h
    by_contra hc
    obtain ⟨hsum, hc⟩ := not_or.mp hc
    obtain ⟨hland, hstartable⟩ := not_or.mp hc
    have hwrap := wrapInt64_of_once (not_lt.mp hsum) (by omega)
    have hle := h (proceeds_of_startable (not_not.mp hstartable) (by omega))
    omega
  · intro hcond h
    obtain ⟨hstartable, hpeak⟩ := startable_of_proceeds h
    have hpos : 0 ≤ peakLength cache promptIds options := by
      have := validateSamplingParams_maxTokens hstartable.serves.valid
      unfold peakLength
      omega
    rcases hcond with hsum | hland | hnot
    · rwa [wrapInt64_of_fits (by omega) hsum] at hpeak
    · have hlt : peakLength cache promptIds options < 2 ^ 64 + 2 ^ 63 := by
        unfold peakLength
        omega
      rw [wrapInt64_of_once (by omega) hlt] at hpeak
      omega
    · exact absurd hstartable hnot

end Generate

/-! ### Both

One request for as many tokens as can be counted gets through both. -/

/-- **Admission arithmetic.**  `Submit` lets through only what fits its bounds, and `Generate`
starts only what fits its cache, exactly when the sum of the lengths does not wrap onto the
accepting side. -/
theorem admission_exact_iff {σ α : Type} :
    (∀ (e : Engine σ α) (request : Request) (seed : Nat), e.Settings →
      (request.promptIds.length : Int) < 2 ^ 63 → request.params.maxTokens < 2 ^ 63 →
      (((∃ id, (e.submit request seed).1 = .ok id) → e.Fits request) ↔
        Engine.peakLength request < 2 ^ 63 ∨ ¬ e.Admissible request)) ∧
    ∀ (shared : SharedPool α) (cache : PagedKvCache) (promptIds : List Int)
      (options : GenerateOptions) (seed : Nat),
      0 ≤ cache.capacity shared.pool → cache.capacity shared.pool < 2 ^ 63 →
      (cache.length : Int) < 2 ^ 63 → (promptIds.length : Int) < 2 ^ 63 →
      options.sampling.maxTokens < 2 ^ 63 →
      ((Generate.Proceeds shared cache promptIds options seed →
          Generate.peakLength cache promptIds options ≤ cache.capacity shared.pool) ↔
        Generate.peakLength cache promptIds options < 2 ^ 63 ∨
          cache.capacity shared.pool + 2 ^ 64 < Generate.peakLength cache promptIds options ∨
          ¬ Generate.Startable promptIds options) :=
  ⟨fun _ _ _ hs hprompt hmax => Engine.submit_fits_iff hs hprompt hmax,
    fun _ _ _ _ _ hnonneg hcapacity hstart hprompt hmax =>
      Generate.proceeds_fits_iff ⟨hnonneg, hcapacity⟩ hstart hprompt hmax⟩

/-- A request for as many tokens as a signed 64-bit integer can count. -/
def endlessRequest : Request where
  promptIds := [1, 1]
  params := { maxTokens := 2 ^ 63 - 1 }
  eosIds := []
  tokenizer := none

/-- An engine over a pool of four blocks of eight tokens. -/
def smallEngine : Engine Unit Int where
  queue := { commands := [], nextId := 1, nextArrival := 0, stopRequested := false }
  loop :=
    { config := ⟨4, 64, 32⟩
      maxModelLen := 32
      state := ()
      shared := ⟨BlockPool.new ⟨1, 1, 1, .float32⟩ 8 4, []⟩
      requests := ∅
      waiting := []
      running := []
      preemptionCount := 0
      outbox := [] }

theorem smallEngine_settings : smallEngine.Settings := by
  refine ⟨?_, ?_, ?_, ?_⟩ <;> decide

/-- `Submit` accepts two prompt tokens and 2^63 - 1 more on an engine of 32 tokens. -/
theorem submit_endless :
    (smallEngine.submit endlessRequest 0).1 = .ok 1 ∧ ¬ smallEngine.Fits endlessRequest := by
  refine ⟨?_, fun h => ?_⟩
  · decide +kernel
  · have hbudget := h.budget
    revert hbudget
    decide

/-- A request that fits is held to its bounds, and a run that fits its cache may start. -/
theorem admission_exact_iff_short :
    smallEngine.Fits { endlessRequest with params := { maxTokens := 4 } } ∧
      (Generate.Proceeds smallEngine.loop.shared PagedKvCache.new [1, 1]
          ⟨{ maxTokens := 4 }, [], none, true⟩ 0 →
        Generate.peakLength PagedKvCache.new [1, 1] ⟨{ maxTokens := 4 }, [], none, true⟩ ≤ 32) :=
  ⟨(admission_exact_iff.1 smallEngine { endlessRequest with params := { maxTokens := 4 } } 0
      smallEngine_settings (by decide) (by decide)).mpr (.inl (by decide))
      ⟨1, by decide +kernel⟩,
    ((admission_exact_iff (σ := Unit)).2 smallEngine.loop.shared PagedKvCache.new [1, 1]
      ⟨{ maxTokens := 4 }, [], none, true⟩ 0 (by decide) (by decide) (by decide) (by decide)
      (by decide)).mpr (.inl (by decide))⟩

end InferenceEngine
