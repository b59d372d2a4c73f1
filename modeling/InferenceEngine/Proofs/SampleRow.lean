/-
When sampling a row returns a token of the vocabulary.

The finiteness check looks at the row before the penalties and the temperature.  Both can take
a finite logit beyond the largest float, so what decides is the exact value of a logit behind
each operation: the first one out of range turns the logit into an infinity of its sign, and
no later operation brings it back.  The draw is a token of the vocabulary if none of them
leaves upwards and one of them stays, and otherwise it is the fallback value.
-/
import InferenceEngine.Proofs.Draw

namespace InferenceEngine

open Except

/-! ### The condition

A logit goes through a few operations.  In exact arithmetic each has a value, and the first
value beyond the largest float decides what the code is left with. -/

/-- The number a finite float is. -/
def F32.value : F32 → Rat
  | .finite x => x
  | _ => 0

/-- The operations on the logit of `v`, in exact arithmetic and in the order of the code. -/
def logitSteps (params : SamplingParams) (context : SampleContext) (v : Nat) :
    List (Rat → Rat) :=
  (if params.repetitionPenalty ≠ .finite 1 ∧
      ((v : Int) ∈ context.promptIds ∨ (v : Int) ∈ context.generatedIds) then
    [fun x => if x < 0 then x * params.repetitionPenalty.value
      else x / params.repetitionPenalty.value]
  else []) ++
  (if params.frequencyPenalty ≠ .finite 0 ∧ (v : Int) ∈ context.generatedIds then
    [fun x => x - params.frequencyPenalty.value * toInt32 (context.generatedIds.count (v : Int))]
  else []) ++
  (if params.presencePenalty ≠ .finite 0 ∧ (v : Int) ∈ context.generatedIds then
    [fun x => x - params.presencePenalty.value]
  else []) ++
  [fun x => x / params.temperature.value]

/-- The operations of the penalties: all but the division by the temperature. -/
def penaltySteps (params : SamplingParams) (context : SampleContext) (v : Nat) :
    List (Rat → Rat) :=
  (logitSteps params context v).dropLast

theorem logitSteps_eq (params : SamplingParams) (context : SampleContext) (v : Nat) :
    logitSteps params context v
      = penaltySteps params context v ++ [fun x => x / params.temperature.value] := by
  unfold penaltySteps logitSteps
  rw [List.dropLast_concat]

/-- The exact values of a logit behind each operation. -/
def exactResults : (steps : List (Rat → Rat)) → (x : Rat) → List Rat
  | [], _ => []
  | step :: steps, x => step x :: exactResults steps (step x)

/-- The first of them beyond the largest float. -/
def firstBeyond (steps : List (Rat → Rat)) (x : Rat) : Option Rat :=
  (exactResults steps x).find? fun y => decide (float32Max < |y|)

/-- No logit leaves the range upwards, and one stays within it. -/
structure StaysInRange (params : SamplingParams) (context : SampleContext) (logits : List F32) :
    Prop where
  below : ∀ (v : Nat) (x y : Rat), logits[v]? = some (F32.finite x) →
    firstBeyond (logitSteps params context v) x = some y → y < 0
  within : ∃ (v : Nat) (x : Rat), logits[v]? = some (F32.finite x) ∧
    firstBeyond (logitSteps params context v) x = none

/-- The same for any operations on the logits. -/
structure LogitsInRange (steps : Nat → List (Rat → Rat)) (logits : List F32) : Prop where
  below : ∀ (v : Nat) (x y : Rat), logits[v]? = some (F32.finite x) →
    firstBeyond (steps v) x = some y → y < 0
  within : ∃ (v : Nat) (x : Rat), logits[v]? = some (F32.finite x) ∧
    firstBeyond (steps v) x = none

theorem staysInRange_iff {params : SamplingParams} {context : SampleContext} {logits : List F32} :
    StaysInRange params context logits ↔ LogitsInRange (logitSteps params context) logits :=
  ⟨fun h => ⟨h.below, h.within⟩, fun h => ⟨h.below, h.within⟩⟩

/-- `token` passed the filters on the row `work`: top-k did not mask it, and the nucleus kept
its positive probability. -/
structure Survives (m : FloatModel) (work : List F32) (params : SamplingParams) (token : Nat) :
    Prop where
  topK : (applyTopK work params.topK)[token]? = work[token]? ∧
    work[token]? ≠ some (F32.infinity true)
  topP : ∃ kept, applyTopP m (softmax m (applyTopK work params.topK)) params.topP = .ok kept ∧
    kept[token]? = (softmax m (applyTopK work params.topK))[token]? ∧ IsPositive kept token

/-- `SampleRow` does not fault, and a token it returns is in the vocabulary and passed the
filters. -/
def DrawsFromVocabulary (m : FloatModel) (logits : List F32) (context : SampleContext)
    (params : SamplingParams) (seed : BitVec 64) (wantLogprobs : Bool) : Prop :=
  ∃ outcome, sampleRow m logits context params seed wantLogprobs = .ok outcome ∧
    ∀ result, outcome = .ok result → 0 ≤ result.token ∧ result.token < logits.length ∧
      ∃ row, penalizedRow m logits context params = .ok row ∧
        Survives m (applyTemperature m row params.temperature) params result.token.toNat

/-! ### Exact operations

Each operation of the code rounds its exact result once, or turns it into an infinity.  Nothing
brings an infinity back, so the operations behind it do not matter. -/

/-- An operation of the code on a number or an infinity. -/
def Follows (g : F32 → F32) (h : Rat → Rat) : Prop :=
  (∀ x, g (.finite x) = .bounded float32Max (h x)) ∧
    ∀ negative, g (.infinity negative) = .infinity negative

/-- The operations of the code one after the other, as the exact ones determine them. -/
def settle : (steps : List (Rat → Rat)) → F32 → F32
  | step :: steps, .finite x => settle steps (.bounded float32Max (step x))
  | _, x => x

theorem settle_infinity (steps : List (Rat → Rat)) (negative : Bool) :
    settle steps (.infinity negative) = .infinity negative := by
  cases steps <;> rfl

theorem settle_nan (steps : List (Rat → Rat)) : settle steps .nan = .nan := by
  cases steps <;> rfl

theorem settle_append (steps steps' : List (Rat → Rat)) (x : F32) :
    settle (steps ++ steps') x = settle steps' (settle steps x) := by
  induction steps generalizing x with
  | nil => cases x <;> rfl
  | cons step steps ih =>
      cases x with
      | nan => rw [settle_nan, settle_nan, settle_nan]
      | infinity negative => rw [settle_infinity, settle_infinity, settle_infinity]
      | finite x =>
          rw [List.cons_append, settle, settle]
          exact ih _

theorem settle_one {g : F32 → F32} {h : Rat → Rat} (hg : Follows g h) (hnan : g .nan = .nan)
    (x : F32) : settle [h] x = g x := by
  cases x with
  | nan => rw [settle_nan, hnan]
  | infinity negative => rw [settle_infinity, hg.2]
  | finite x =>
      rw [settle, hg.1]
      unfold F32.bounded
      split <;> rfl

theorem settle_ne_nan (steps : List (Rat → Rat)) {x : F32} (hx : x ≠ .nan) :
    settle steps x ≠ .nan := by
  induction steps generalizing x with
  | nil => cases x <;> first | exact absurd rfl hx | nofun
  | cons step steps ih =>
      cases x with
      | nan => exact absurd rfl hx
      | infinity negative => rw [settle_infinity]; nofun
      | finite x =>
          refine ih ?_
          unfold F32.bounded
          split <;> nofun

/-- A logit that leaves the range is the infinity of the sign it leaves with. -/
theorem settle_beyond : ∀ (steps : List (Rat → Rat)) (x y : Rat), firstBeyond steps x = some y →
    settle steps (.finite x) = .infinity (y < 0) := by
  intro steps
  induction steps with
  | nil => intro x y h; cases h
  | cons step steps ih =>
      intro x y h
      unfold firstBeyond exactResults at h
      rw [settle]
      by_cases hbeyond : float32Max < |step x|
      · rw [List.find?_cons_of_pos (by simpa using hbeyond)] at h
        cases h
        rw [F32.bounded_of_lt hbeyond, settle_infinity]
      · rw [List.find?_cons_of_neg (by simpa using hbeyond)] at h
        rw [F32.bounded_of_le (not_lt.mp hbeyond)]
        exact ih _ _ h

/-- A logit that stays in range is finite. -/
theorem settle_within : ∀ (steps : List (Rat → Rat)) (x : Rat), firstBeyond steps x = none →
    ∃ y, settle steps (.finite x) = .finite y := by
  intro steps
  induction steps with
  | nil => intro x _; exact ⟨x, rfl⟩
  | cons step steps ih =>
      intro x h
      unfold firstBeyond exactResults at h
      rw [settle]
      by_cases hbeyond : float32Max < |step x|
      · rw [List.find?_cons_of_pos (by simpa using hbeyond)] at h
        cases h
      · rw [List.find?_cons_of_neg (by simpa using hbeyond)] at h
        rw [F32.bounded_of_le (not_lt.mp hbeyond)]
        exact ih _ h

/-! ### The history

The loops over the ids collect who has occurred and how often.  An id outside the vocabulary
ends the row with a status. -/

/-- What the loops over the ids collect. -/
structure Collected (history : TokenHistory) (seen : Int → Prop) (count : Int → Option Int) :
    Prop where
  nodup : history.seen.Nodup
  seen_iff : ∀ v, v ∈ history.seen ↔ seen v
  lookup : ∀ v, history.counts.lookup v = count v

theorem validateTokenId_ok {vocab : Nat} {id : Int} (h : 0 ≤ id ∧ id < vocab) (source : String) :
    validateTokenId vocab id source = .ok () :=
  if_neg (by omega)

theorem collectGenerated_collected (vocab : Nat) : ∀ (ids : List Int) (history : TokenHistory),
    (∀ id ∈ ids, 0 ≤ id ∧ id < vocab) → history.seen.Nodup →
    ∃ history', collectGenerated vocab ids history = .ok history' ∧
      Collected history' (fun v => v ∈ ids ∨ v ∈ history.seen) fun v =>
        if v ∈ ids then some (toInt32 ((history.counts.lookup v).getD 0 + ids.count v))
        else history.counts.lookup v := by
  intro ids
  induction ids with
  | nil =>
      intro history _ hnodup
      exact ⟨history, rfl, hnodup, by simp, by simp⟩
  | cons id ids ih =>
      intro history hids hnodup
      obtain ⟨history', hrun, hnodup', hseen, hlookup⟩ := ih
        ⟨history.counts.insert id (toInt32 ((history.counts.lookup id).getD 0 + 1)),
          history.seen.insert id⟩
        (fun other hother => hids other (List.mem_cons_of_mem _ hother)) (hnodup.insert)
      refine ⟨history', ?_, hnodup', ?_, ?_⟩
      · rw [collectGenerated, validateTokenId_ok (hids id (by simp)), ok_bind, hrun]
      · intro v
        rw [hseen, List.mem_insert_iff, List.mem_cons]
        constructor
        · rintro (h | h | h)
          exacts [.inl (.inr h), .inl (.inl h), .inr h]
        · rintro ((h | h) | h)
          exacts [.inr (.inl h), .inl h, .inr (.inr h)]
      · intro v
        rw [hlookup]
        by_cases hv : v = id
        · subst hv
          rw [AList.lookup_insert, if_pos (show v ∈ v :: ids by simp), List.count_cons_self]
          by_cases hmem : v ∈ ids
          · rw [if_pos hmem, Option.getD_some]
            unfold toInt32
            rw [Int.bmod_add_bmod]
            push_cast
            ring_nf
          · rw [if_neg hmem, List.count_eq_zero_of_not_mem hmem]
            rfl
        · have hcons : v ∈ id :: ids ↔ v ∈ ids := by simp [hv]
          rw [AList.lookup_insert_ne hv, List.count_cons_of_ne (Ne.symm hv)]
          simp only [hcons]

theorem collectPrompt_collected (vocab : Nat) : ∀ (ids : List Int) (history : TokenHistory),
    (∀ id ∈ ids, 0 ≤ id ∧ id < vocab) → history.seen.Nodup →
    ∃ history', collectPrompt vocab ids history = .ok history' ∧
      Collected history' (fun v => v ∈ ids ∨ v ∈ history.seen) history.counts.lookup := by
  intro ids
  induction ids with
  | nil =>
      intro history _ hnodup
      exact ⟨history, rfl, hnodup, by simp, by simp⟩
  | cons id ids ih =>
      intro history hids hnodup
      obtain ⟨history', hrun, hnodup', hseen, hlookup⟩ :=
        ih { history with seen := history.seen.insert id }
          (fun other hother => hids other (List.mem_cons_of_mem _ hother)) (hnodup.insert)
      refine ⟨history', ?_, hnodup', ?_, hlookup⟩
      · rw [collectPrompt, validateTokenId_ok (hids id (by simp)), ok_bind, hrun]
      · intro v
        rw [hseen, List.mem_insert_iff, List.mem_cons]
        constructor
        · rintro (h | h | h)
          exacts [.inl (.inr h), .inl (.inl h), .inr h]
        · rintro ((h | h) | h)
          exacts [.inr (.inl h), .inl h, .inr (.inr h)]

/-! ### Penalties

Each of the three penalties is a loop over the ids that have occurred, and touches every logit
at most once. -/

/-- The loop changes the logits of its ids, each once. -/
theorem updateLogits_getElem? {κ : Type} (tokenId : κ → Int) (f : κ → F32 → F32) :
    ∀ (keys : List κ) (logits : List F32), (keys.map tokenId).Nodup →
    (∀ key ∈ keys, 0 ≤ tokenId key) → ∀ v : Nat,
    (updateLogits tokenId f keys logits)[v]? =
      match keys.find? fun key => tokenId key = v with
      | none => logits[v]?
      | some key => logits[v]?.map (f key) := by
  intro keys
  induction keys with
  | nil => intro logits _ _ v; rfl
  | cons key keys ih =>
      intro logits hnodup hnonneg v
      rw [List.map_cons, List.nodup_cons] at hnodup
      rw [updateLogits, ih _ hnodup.2
        fun other hother => hnonneg other (List.mem_cons_of_mem _ hother),
        List.getElem?_modify]
      have h0 := hnonneg key (by simp)
      by_cases hv : tokenId key = v
      · have hnone : keys.find? (fun other => tokenId other = v) = none := by
          rw [List.find?_eq_none]
          intro other hother hsame
          rw [decide_eq_true_eq, ← hv] at hsame
          exact hnodup.1 (hsame ▸ List.mem_map_of_mem hother)
        rw [hnone, List.find?_cons_of_pos (by simpa using hv)]
        simp only
        rw [show (tokenId key).toNat = v by omega]
        simp
      · rw [List.find?_cons_of_neg (by simpa using hv)]
        have hne : (tokenId key).toNat ≠ v := by omega
        simp [hne]

/-- One penalty on the row, active or not. -/
theorem penalty_getElem? {κ : Type} (active : Prop) [Decidable active] (tokenId : κ → Int)
    (f : κ → F32 → F32) (exact : κ → Rat → Rat) {keys : List κ}
    {pick : Nat → Option κ} (hpick : ∀ v : Nat, (keys.find? fun key => tokenId key = v) = pick v)
    (hnodup : (keys.map tokenId).Nodup) (hnonneg : ∀ key ∈ keys, 0 ≤ tokenId key)
    (hfollows : ∀ key ∈ keys, Follows (f key) (exact key))
    (hnan : ∀ key, f key .nan = .nan) (logits : List F32) (v : Nat) :
    (if active then updateLogits tokenId f keys logits else logits)[v]? =
      logits[v]?.map (settle (if active then ((pick v).map exact).toList else [])) := by
  have hnone : logits[v]? = logits[v]?.map (settle []) := by
    cases hx : logits[v]? with
    | none => rfl
    | some x => cases x <;> rfl
  by_cases h : active
  · rw [if_pos h, if_pos h, updateLogits_getElem? tokenId f keys logits hnodup hnonneg v]
    cases hkey : keys.find? fun key => tokenId key = v with
    | none => rw [← hpick, hkey]; exact hnone
    | some key =>
        rw [← hpick, hkey]
        cases hx : logits[v]? with
        | none => rfl
        | some x =>
            have hsettle := settle_one (hfollows key (List.mem_of_find?_eq_some hkey))
              (hnan key) x
            simp only [Option.map_some, Option.toList_some, hsettle]
  · rw [if_neg h, if_neg h]
    exact hnone

/-- A row settled twice is settled once. -/
theorem settled_append {logits row row' : List F32} {steps steps' : Nat → List (Rat → Rat)}
    (hrow : ∀ v, row[v]? = logits[v]?.map (settle (steps v)))
    (hrow' : ∀ v, row'[v]? = row[v]?.map (settle (steps' v))) (v : Nat) :
    row'[v]? = logits[v]?.map (settle (steps v ++ steps' v)) := by
  rw [hrow', hrow]
  cases hx : logits[v]? with
  | none => rfl
  | some x =>
      simp only [Option.map_some]
      rw [settle_append]

theorem settled_length {logits row : List F32} {steps : Nat → List (Rat → Rat)}
    (hrow : ∀ v, row[v]? = logits[v]?.map (settle (steps v))) : row.length = logits.length := by
  have hiff : ∀ v, row.length ≤ v ↔ logits.length ≤ v := by
    intro v
    rw [← List.getElem?_eq_none_iff, ← List.getElem?_eq_none_iff, hrow, Option.map_eq_none_iff]
  have h1 := hiff row.length
  have h2 := hiff logits.length
  omega

/-! ### Accepted parameters

The checks of the parameters keep divisors away from zero and everything finite. -/

/-- What `ValidateSamplingParams` says about the numbers of the stages. -/
structure Accepted (params : SamplingParams) (t r p f : Rat) : Prop where
  temperature : params.temperature = .finite t
  repetition : params.repetitionPenalty = .finite r
  repetition_pos : 0 < r
  presence : params.presencePenalty = .finite p
  frequency : params.frequencyPenalty = .finite f
  frequency_le : |f| ≤ 2

theorem finite_of_isFinite {x : F32} (h : x.isFinite = true) : ∃ y, x = .finite y := by
  cases x with
  | finite y => exact ⟨y, rfl⟩
  | nan => cases h
  | infinity negative => cases h

theorem validateSamplingParams_accepted {params : SamplingParams}
    (h : validateSamplingParams params = .ok ()) : ∃ t r p f, Accepted params t r p f := by
  unfold validateSamplingParams at h
  simp only [bind, Except.bind, throw, throwThe, MonadExceptOf.throw, pure, Except.pure] at h
  split at h
  · cases h
  rename_i htemperature
  split at h
  · cases h
  split at h
  · cases h
  split at h
  · cases h
  rename_i hrepetition
  split at h
  · cases h
  rename_i hpresence
  split at h
  · cases h
  rename_i hfrequency
  simp only [Bool.or_eq_true, Bool.not_eq_true', not_or, Bool.not_eq_false]
    at htemperature hrepetition hpresence hfrequency
  obtain ⟨t, ht⟩ := finite_of_isFinite htemperature.1
  obtain ⟨r, hr⟩ := finite_of_isFinite hrepetition.1
  obtain ⟨p, hp⟩ := finite_of_isFinite hpresence.1.1
  obtain ⟨f, hf⟩ := finite_of_isFinite hfrequency.1.1
  rw [hr] at hrepetition
  rw [hf] at hfrequency
  simp only [F32.le, F32.lt, decide_eq_true_eq, not_le, not_lt] at hrepetition hfrequency
  exact ⟨t, r, p, f, ht, hr, hrepetition.2, hp, hf,
    abs_le.mpr ⟨hfrequency.1.2, hfrequency.2⟩⟩

theorem follows_repetition {log : F32 → F32} {r : Rat} (hr : 0 < r) :
    Follows (repeatedLogit (boundedFloats log) (.finite r))
      fun x => if x < 0 then x * r else x / r := by
  refine ⟨fun x => ?_, fun negative => ?_⟩
  · unfold repeatedLogit
    simp only
    by_cases h : x < 0
    · rw [if_pos (show F32.lt (.finite x) (.finite 0) = true by simpa [F32.lt] using h), if_pos h]
      rfl
    · rw [if_neg (show ¬ F32.lt (.finite x) (.finite 0) = true by simpa [F32.lt] using h),
        if_neg h]
      exact if_neg hr.ne'
  · have hsign : decide (r < 0) = false := decide_eq_false (not_lt.mpr hr.le)
    cases negative with
    | true =>
        refine (if_neg hr.ne').trans ?_
        rw [hsign]
        rfl
    | false =>
        show F32.infinity (false != decide (r < 0)) = _
        rw [hsign]
        rfl

theorem follows_sub {round : Rat → F32} (hround : round = F32.bounded float32Max) (p : Rat) :
    Follows (fun x => x.sub round (.finite p)) fun x => x - p := by
  subst hround
  exact ⟨fun x => rfl, fun negative => rfl⟩

theorem follows_div (log : F32 → F32) {t : Rat} (ht : 0 < t) :
    Follows (fun x => x.div (boundedFloats log).single (.finite t)) fun x => x / t := by
  refine ⟨fun x => if_neg ht.ne', fun negative => ?_⟩
  show F32.infinity (negative != decide (t < 0)) = _
  rw [decide_eq_false (not_lt.mpr ht.le)]
  cases negative <;> rfl

/-- The product of the frequency penalty is exact. -/
theorem frequency_product {log : F32 → F32} {f : Rat} (hf : |f| ≤ 2) (count : Int) :
    F32.mul (boundedFloats log).single (.finite f) ((boundedFloats log).single (toInt32 count))
      = .finite (f * toInt32 count) := by
  have hcount : |(toInt32 count : Rat)| ≤ 2 ^ 31 := by
    have hlo : -(2 : Int) ^ 31 ≤ toInt32 count := by
      unfold toInt32
      have := Int.le_bmod (x := count) (m := 2 ^ 32) (by norm_num)
      omega
    have hhi : toInt32 count < 2 ^ 31 := by
      unfold toInt32
      have := Int.bmod_lt (x := count) (m := 2 ^ 32) (by norm_num)
      omega
    exact abs_le.mpr ⟨by exact_mod_cast hlo, by exact_mod_cast hhi.le⟩
  have hprod : |f * (toInt32 count : Rat)| ≤ 2 * 2 ^ 31 := by
    rw [abs_mul]
    exact mul_le_mul hf hcount (abs_nonneg _) (by norm_num)
  rw [show (boundedFloats log).single (toInt32 count : Rat) = .finite (toInt32 count : Rat) from
    F32.bounded_of_le (le_trans hcount (by norm_num [float32Max]))]
  exact F32.bounded_of_le (le_trans hprod (by norm_num [float32Max]))

/-! ### The row of the draw

The penalties and the temperature are put together for one logit, in the order of the code. -/

theorem find?_entries (v : Int) : ∀ entries : List (Sigma fun _ : Int => Int),
    (entries.map fun entry => (entry.1, entry.2)).find? (fun entry => entry.1 = v)
      = (entries.dlookup v).map fun count => (v, count) := by
  intro entries
  induction entries with
  | nil => rfl
  | cons entry entries ih =>
      obtain ⟨id, count⟩ := entry
      rw [List.map_cons]
      by_cases h : id = v
      · subst h
        rw [List.find?_cons_of_pos (by simp), List.dlookup_cons_eq]
        rfl
      · rw [List.find?_cons_of_neg (by simpa using h), List.dlookup_cons_ne _ _ (Ne.symm h), ih]

theorem find?_seen (v : Int) (seen : List Int) :
    seen.find? (fun id => id = v) = if v ∈ seen then some v else none := by
  by_cases h : v ∈ seen
  · rw [if_pos h]
    cases hfind : seen.find? (fun id => id = v) with
    | none => exact absurd (List.find?_eq_none.mp hfind v h) (by simp)
    | some id =>
        have := List.find?_some hfind
        simp only [decide_eq_true_eq] at this
        rw [this]
  · rw [if_neg h, List.find?_eq_none]
    intro id hid heq
    simp only [decide_eq_true_eq] at heq
    exact h (heq ▸ hid)

theorem entries_nodup (history : TokenHistory) : (history.entries.map Prod.fst).Nodup := by
  unfold TokenHistory.entries
  rw [List.map_map]
  exact history.counts.nodupKeys

theorem mem_entries {history : TokenHistory} {entry : Int × Int} (h : entry ∈ history.entries) :
    (history.counts.lookup entry.1).isSome := by
  unfold TokenHistory.entries at h
  obtain ⟨e, he, rfl⟩ := List.mem_map.mp h
  rw [AList.lookup_isSome, AList.mem_keys]
  exact List.mem_map_of_mem he

section

variable {params : SamplingParams} {context : SampleContext} {logits : List F32}
  {t r p f : Rat}

/-- What both loops over the ids collect. -/
theorem collect_history (logits : List F32)
    (hprompt : ∀ id ∈ context.promptIds, 0 ≤ id ∧ id < logits.length)
    (hgenerated : ∀ id ∈ context.generatedIds, 0 ≤ id ∧ id < logits.length) :
    ∃ before history, collectGenerated logits.length context.generatedIds ⟨∅, []⟩ = .ok before ∧
      collectPrompt logits.length context.promptIds before = .ok history ∧
      Collected history (fun v => v ∈ context.promptIds ∨ v ∈ context.generatedIds) fun v =>
        if v ∈ context.generatedIds then
          some (toInt32 (context.generatedIds.count v)) else none := by
  obtain ⟨before, hbefore, hcollected⟩ := collectGenerated_collected logits.length
    context.generatedIds ⟨∅, []⟩ hgenerated List.nodup_nil
  obtain ⟨history, hhistory, hnodup, hseen, hlookup⟩ := collectPrompt_collected logits.length
    context.promptIds before hprompt hcollected.nodup
  refine ⟨before, history, hbefore, hhistory, hnodup, ?_, ?_⟩
  · intro v
    rw [hseen, hcollected.seen_iff]
    simp
  · intro v
    rw [hlookup, hcollected.lookup]
    simp

/-- The row behind the penalties, given the history. -/
def penalized (m : FloatModel) (params : SamplingParams) (history : TokenHistory)
    (logits : List F32) : List F32 :=
  let logits := if params.repetitionPenalty ≠ .finite 1 then
    applyRepetition m params.repetitionPenalty history.seen logits else logits
  let logits := if params.frequencyPenalty ≠ .finite 0 then
    applyFrequency m params.frequencyPenalty history.entries logits else logits
  if params.presencePenalty ≠ .finite 0 then
    applyPresence m params.presencePenalty history.entries logits else logits

theorem penalizedRow_eq {m : FloatModel} {before history : TokenHistory}
    (hbefore : collectGenerated logits.length context.generatedIds ⟨∅, []⟩ = .ok before)
    (hhistory : collectPrompt logits.length context.promptIds before = .ok history) :
    penalizedRow m logits context params = .ok (penalized m params history logits) := by
  unfold penalizedRow applyPenalties
  by_cases h : ¬ params.repetitionPenalty ≠ .finite 1 ∧ ¬ params.presencePenalty ≠ .finite 0 ∧
      ¬ params.frequencyPenalty ≠ .finite 0
  · rw [if_pos h]
    obtain ⟨hr, hp, hf⟩ := h
    unfold penalized
    simp only [if_neg hr, if_neg hp, if_neg hf]
  · rw [if_neg h, hbefore, ok_bind, hhistory, ok_bind]
    rfl

/-- The penalties in the order of the code, each with what it does in exact arithmetic. -/
theorem penalizedRow_settled (log : F32 → F32) (hparams : Accepted params t r p f)
    (hprompt : ∀ id ∈ context.promptIds, 0 ≤ id ∧ id < logits.length)
    (hgenerated : ∀ id ∈ context.generatedIds, 0 ≤ id ∧ id < logits.length) :
    ∃ row, penalizedRow (boundedFloats log) logits context params = .ok row ∧ ∀ v : Nat,
      row[v]? = logits[v]?.map (settle (penaltySteps params context v)) := by
  obtain ⟨before, history, hbefore, hhistory, hcollected⟩ :=
    collect_history logits hprompt hgenerated
  have hseen0 : ∀ id ∈ history.seen, 0 ≤ id := by
    intro id hid
    rcases (hcollected.seen_iff id).mp hid with h | h
    · exact (hprompt id h).1
    · exact (hgenerated id h).1
  have hentries : ∀ entry ∈ history.entries, 0 ≤ entry.1 ∧
      ∃ count : Int, entry.2 = toInt32 count := by
    intro entry hentry
    obtain ⟨e, he, rfl⟩ := List.mem_map.mp hentry
    have hlookup : history.counts.lookup e.1 = some e.2 := AList.mem_lookup_iff.mpr he
    rw [hcollected.lookup] at hlookup
    by_cases hmem : e.1 ∈ context.generatedIds
    · rw [if_pos hmem] at hlookup
      exact ⟨(hgenerated _ hmem).1, _, (Option.some.inj hlookup).symm⟩
    · rw [if_neg hmem] at hlookup
      cases hlookup
  have hpick : ∀ v : Nat, (history.entries.find? fun entry => Prod.fst entry = (v : Int)) =
      if (v : Int) ∈ context.generatedIds then
        some ((v : Int), toInt32 (context.generatedIds.count (v : Int))) else none := by
    intro v
    refine (find?_entries v _).trans ?_
    rw [show history.counts.entries.dlookup (v : Int) = history.counts.lookup (v : Int) from rfl,
      hcollected.lookup]
    by_cases hmem : (v : Int) ∈ context.generatedIds
    · rw [if_pos hmem, if_pos hmem]; rfl
    · rw [if_neg hmem, if_neg hmem]; rfl
  -- the three penalties, each on the row before
  have h1 := penalty_getElem? (params.repetitionPenalty ≠ .finite 1) id
    (fun _ => repeatedLogit (boundedFloats log) params.repetitionPenalty)
    (fun _ x => if x < 0 then x * params.repetitionPenalty.value
      else x / params.repetitionPenalty.value)
    (fun v => find?_seen v history.seen) (by rw [List.map_id]; exact hcollected.nodup) hseen0
    (by
      intro key _
      rw [hparams.repetition]
      exact follows_repetition hparams.repetition_pos)
    (fun _ => by rw [hparams.repetition]; rfl)
  have h2 := penalty_getElem? (params.frequencyPenalty ≠ .finite 0) Prod.fst
    (fun (entry : Int × Int) x => x.sub (boundedFloats log).single
      (params.frequencyPenalty.mul (boundedFloats log).single ((boundedFloats log).single entry.2)))
    (fun entry x => x - params.frequencyPenalty.value * entry.2) hpick (entries_nodup history)
    (fun entry hentry => (hentries entry hentry).1)
    (by
      intro entry hentry
      obtain ⟨_, count, hcount⟩ := hentries entry hentry
      rw [hparams.frequency, hcount, frequency_product hparams.frequency_le]
      exact follows_sub rfl _)
    (fun _ => rfl)
  have h3 := penalty_getElem? (params.presencePenalty ≠ .finite 0) Prod.fst
    (fun (_ : Int × Int) x => x.sub (boundedFloats log).single params.presencePenalty)
    (fun _ x => x - params.presencePenalty.value) hpick (entries_nodup history)
    (fun entry hentry => (hentries entry hentry).1)
    (by
      intro entry _
      rw [hparams.presence]
      exact follows_sub rfl _)
    (fun _ => rfl)
  have hall : ∀ v, (penalized (boundedFloats log) params history logits)[v]? = _ :=
    settled_append (h1 logits) (settled_append (h2 _) (h3 _))
  refine ⟨_, penalizedRow_eq hbefore hhistory, ?_⟩
  intro v
  rw [hall v]
  congr 2
  simp only [hcollected.seen_iff]
  unfold penaltySteps logitSteps
  rw [List.dropLast_concat, List.append_assoc]
  by_cases hgen : (v : Int) ∈ context.generatedIds <;>
    by_cases hprm : (v : Int) ∈ context.promptIds <;> simp [hgen, hprm]

theorem applyTemperature_settled (log : F32 → F32) (hparams : Accepted params t r p f)
    (ht : 0 < t) (row : List F32) (v : Nat) :
    (applyTemperature (boundedFloats log) row params.temperature)[v]?
      = row[v]?.map (settle [fun x => x / params.temperature.value]) := by
  unfold applyTemperature
  rw [List.getElem?_map, hparams.temperature]
  cases hx : row[v]? with
  | none => rfl
  | some x =>
      have hsettle := settle_one (follows_div log ht) rfl x
      simp only [Option.map_some, F32.value, hsettle]

/-- The row of the draw. -/
theorem penalizedRow_settles (log : F32 → F32) (hparams : Accepted params t r p f)
    (hprompt : ∀ id ∈ context.promptIds, 0 ≤ id ∧ id < logits.length)
    (hgenerated : ∀ id ∈ context.generatedIds, 0 ≤ id ∧ id < logits.length) (ht : 0 < t) :
    ∃ row, penalizedRow (boundedFloats log) logits context params = .ok row ∧ ∀ v,
      (applyTemperature (boundedFloats log) row params.temperature)[v]?
        = logits[v]?.map (settle (logitSteps params context v)) := by
  obtain ⟨row, hrow, hsettled⟩ := penalizedRow_settled log hparams hprompt hgenerated
  refine ⟨row, hrow, fun v => ?_⟩
  rw [logitSteps_eq]
  exact settled_append hsettled (applyTemperature_settled log hparams ht row) v

end

/-! ### Rows that pass the finiteness check

What passes is a row of numbers with masked entries among them, at least one number included. -/

theorem checkFiniteLoop_spec : ∀ (rest : List F32) (v : Nat) (anyFinite : Bool),
    checkFiniteLoop rest v anyFinite = .ok () →
    (∀ x ∈ rest, x = .infinity true ∨ ∃ y, x = .finite y) ∧
      (anyFinite = true ∨ ∃ y, F32.finite y ∈ rest) := by
  intro rest
  induction rest with
  | nil =>
      intro v anyFinite h
      refine ⟨by simp, ?_⟩
      cases anyFinite with
      | true => exact .inl rfl
      | false => cases h
  | cons x rest ih =>
      intro v anyFinite h
      rw [checkFiniteLoop] at h
      cases x with
      | nan => cases h
      | infinity negative =>
          cases negative with
          | false => cases h
          | true =>
              obtain ⟨hall, hany⟩ := ih _ _ h
              refine ⟨?_, ?_⟩
              · intro z hz
                rcases List.mem_cons.mp hz with rfl | hz
                · exact .inl rfl
                · exact hall z hz
              · rcases hany with hany | ⟨y, hy⟩
                · exact .inl (by simpa [F32.isFinite] using hany)
                · exact .inr ⟨y, List.mem_cons_of_mem _ hy⟩
      | finite y =>
          obtain ⟨hall, _⟩ := ih _ _ h
          refine ⟨?_, .inr ⟨y, by simp⟩⟩
          intro z hz
          rcases List.mem_cons.mp hz with rfl | hz
          · exact .inr ⟨y, rfl⟩
          · exact hall z hz

theorem checkFiniteLoop_of_logits : ∀ {rest : List F32} (v : Nat) {anyFinite : Bool},
    (∀ x ∈ rest, x = .infinity true ∨ ∃ y, x = .finite y) →
    (anyFinite = true ∨ ∃ y, F32.finite y ∈ rest) → checkFiniteLoop rest v anyFinite = .ok () := by
  intro rest
  induction rest with
  | nil =>
      intro v anyFinite _ hany
      rcases hany with rfl | ⟨y, hy⟩
      · rfl
      · cases hy
  | cons x rest ih =>
      intro v anyFinite hall hany
      have hrest := fun z hz => hall z (List.mem_cons_of_mem x hz)
      rcases hall x (by simp) with rfl | ⟨y, rfl⟩
      · refine ih (v + 1) hrest ?_
        rcases hany with rfl | ⟨y, hy⟩
        · exact Or.inl rfl
        · exact Or.inr ⟨y, by simpa using hy⟩
      · exact ih (v + 1) hrest (Or.inl (by simp [F32.isFinite]))

/-- What the check asks of a row. -/
theorem checkFinite_iff {logits : List F32} : checkFinite logits = .ok () ↔ IsLogits logits := by
  constructor
  · intro h
    obtain ⟨hall, hany⟩ := checkFiniteLoop_spec logits 0 false h
    exact ⟨hall, hany.resolve_left (by simp)⟩
  · intro h
    exact checkFiniteLoop_of_logits 0 h.masked_or_finite (Or.inr h.some_finite)

/-- Finite values, one at least, and masked ones have a finite maximum. -/
theorem IsLogits.peaked {row : List F32} (h : IsLogits row) : ∃ top, Peaked row top := by
  obtain ⟨hmem, _, hle⟩ := foldl_max_spec row (.infinity true) nofun h.number
  obtain ⟨y, hy⟩ := h.some_finite
  have hyle := hle _ hy
  generalize row.foldl F32.max (.infinity true) = top at hmem hle hyle
  have hin : ∃ z, top = .finite z ∧ F32.finite z ∈ row := by
    rcases hmem with rfl | hmem
    · exact absurd hyle (by simp [F32.le])
    · rcases h.masked_or_finite top hmem with rfl | ⟨z, rfl⟩
      · exact absurd hyle (by simp [F32.le])
      · exact ⟨z, rfl, hmem⟩
  obtain ⟨z, rfl, hz⟩ := hin
  refine ⟨z, hz, ?_⟩
  intro x hx
  rcases h.masked_or_finite x hx with rfl | ⟨w, rfl⟩
  · exact .inl rfl
  · have hw := hle _ hx
    simp only [F32.le, decide_eq_true_eq] at hw
    exact .inr ⟨w, hw, rfl⟩

section

variable {steps : Nat → List (Rat → Rat)} {logits work : List F32}

/-- A row in range stays a row of logits. -/
theorem LogitsInRange.isLogits (h : LogitsInRange steps logits) (hlogits : IsLogits logits)
    (hwork : ∀ v, work[v]? = logits[v]?.map (settle (steps v))) : IsLogits work := by
  constructor
  · intro x hx
    obtain ⟨v, hv⟩ := List.mem_iff_getElem?.mp hx
    rw [hwork, Option.map_eq_some_iff] at hv
    obtain ⟨y, hy, rfl⟩ := hv
    rcases hlogits.masked_or_finite y (List.mem_of_getElem? hy) with rfl | ⟨z, rfl⟩
    · exact .inl (settle_infinity _ _)
    · cases hbeyond : firstBeyond (steps v) z with
      | none => exact .inr (settle_within _ _ hbeyond)
      | some w =>
          rw [settle_beyond _ _ _ hbeyond, decide_eq_true (h.below v z w hy hbeyond)]
          exact .inl rfl
  · obtain ⟨v, x, hx, hwithin⟩ := h.within
    obtain ⟨y, hy⟩ := settle_within _ _ hwithin
    refine ⟨y, List.mem_of_getElem? (i := v) ?_⟩
    rw [hwork, hx, ← hy]
    rfl

/-- Otherwise its maximum is an infinity. -/
theorem unpeaked_of_not_inRange (h : ¬LogitsInRange steps logits) (hlogits : IsLogits logits)
    (hwork : ∀ v, work[v]? = logits[v]?.map (settle (steps v))) : Unpeaked work := by
  refine ⟨?_, ?_, ?_⟩
  · intro hnil
    have hlen := settled_length hwork
    obtain ⟨y, hy⟩ := hlogits.some_finite
    rw [hnil] at hlen
    rw [List.length_eq_zero_iff.mp hlen.symm] at hy
    cases hy
  · intro x hx
    obtain ⟨v, hv⟩ := List.mem_iff_getElem?.mp hx
    rw [hwork, Option.map_eq_some_iff] at hv
    obtain ⟨y, hy, rfl⟩ := hv
    exact settle_ne_nan _ (hlogits.number y (List.mem_of_getElem? hy))
  · by_cases htop : F32.infinity false ∈ work
    · exact .inl htop
    · refine .inr ?_
      -- no logit leaves upwards, so none stays
      have hbelow : ∀ (v : Nat) (x w : Rat), logits[v]? = some (F32.finite x) →
          firstBeyond (steps v) x = some w → w < 0 := by
        intro v x w hx hbeyond
        by_contra hw
        refine htop (List.mem_of_getElem? (i := v) ?_)
        rw [hwork, hx, Option.map_some, settle_beyond _ _ _ hbeyond, decide_eq_false hw]
      intro z hz
      obtain ⟨v, hv⟩ := List.mem_iff_getElem?.mp hz
      rw [hwork, Option.map_eq_some_iff] at hv
      obtain ⟨x, hx, rfl⟩ := hv
      rcases hlogits.masked_or_finite x (List.mem_of_getElem? hx) with rfl | ⟨x, rfl⟩
      · exact settle_infinity _ _
      · cases hbeyond : firstBeyond (steps v) x with
        | none => exact absurd ⟨hbelow, v, x, hx, hbeyond⟩ h
        | some w =>
            rw [settle_beyond _ _ _ hbeyond, decide_eq_true (hbelow v x w hx hbeyond)]

end

/-! ### The draw

With a finite maximum the draw returns a token that passed the filters.  With an infinite one
the probabilities are NaNs and the draw falls through to its last line. -/

section

variable {m : FloatModel} {work : List F32} {top : Rat} (params : SamplingParams)
  (seed step : BitVec 64) (wantLogprobs : Bool)

/-- From a row with a finite maximum the draw returns a token that passed the filters. -/
theorem drawToken_peaked (hm : m.Lawful) (h : Peaked work top) (hlen : work.length ≤ 2 ^ 31) :
    (drawToken m work params seed step wantLogprobs).Returns fun result =>
      0 ≤ result.token ∧ result.token < work.length ∧
        Survives m work params result.token.toNat := by
  have hpeak := h.topK params.topK
  have hrow : (applyTopK work params.topK).length ≤ 2 ^ 31 := by
    rw [applyTopK_length]; exact hlen
  have hprobs : (softmax m (applyTopK work params.topK)).length = work.length := by
    rw [softmax_length, applyTopK_length]
  have hpos : ∃ v, IsPositive (softmax m (applyTopK work params.topK)) v := by
    obtain ⟨p, hp, hp0⟩ := hpeak.softmax_pos hm hrow
    obtain ⟨v, hv⟩ := List.mem_iff_getElem?.mp hp
    exact ⟨v, p, hv, hp0⟩
  unfold drawToken
  simp only
  obtain ⟨kept, hkept, hnucleus⟩ := applyTopP_nucleus (m := m) (by rw [hprobs]; exact hlen) hpos
    params.topP
  obtain ⟨v, hv, hvpos⟩ := selectByCdf_positive (m := m) hnucleus.nonempty
    (philoxUniformDouble seed step 0)
  have hlt : v < work.length := by
    have hv' := hvpos.lt
    rw [hnucleus.length, hprobs] at hv'
    exact hv'
  rw [hkept, ok_bind, hv, toInt32_index (by omega)]
  have hsurvives : Survives m work params v := by
    obtain ⟨p, hp, hp0⟩ := hvpos
    have hsame : kept[v]? = (softmax m (applyTopK work params.topK))[v]? := by
      rcases hnucleus.zeroed v with hz | hz
      · exact hz
      · rw [hz] at hp
        cases hp
        exact absurd hp0 (by simp [F32.lt])
    have hmask := hpeak.not_masked hm hrow (hsame ▸ hp) hp0
    have htopK : (applyTopK work params.topK)[v]? = work[v]? :=
      (applyTopK_getElem? work params.topK v).resolve_right hmask
    exact ⟨⟨htopK, htopK ▸ hmask⟩, kept, hkept, hsame, p, hp, hp0⟩
  have hresult : (0 : Int) ≤ (v : Int) ∧ (v : Int) < work.length ∧
      Survives m work params (v : Int).toNat :=
    ⟨by omega, by omega, by rw [Int.toNat_natCast]; exact hsurvives⟩
  cases wantLogprobs with
  | true =>
      rw [if_pos rfl]
      refine Returns.bind (extractLogprobs_returns (by rw [logSoftmax_length]; exact hlen)
        (by omega) (by rw [logSoftmax_length]; omega) params.logprobs) fun logprobs _ => ?_
      exact returns_pure hresult
  | false => exact returns_pure hresult

/-- From a row whose maximum is an infinity it is the fallback value, and with
log-probabilities a read outside the row. -/
theorem drawToken_unpeaked (hm : m.Lawful) (h : Unpeaked work) :
    drawToken m work params seed step wantLogprobs =
      if wantLogprobs then .error .outOfBounds else .ok ⟨-1, none⟩ := by
  have hnan := (h.topK params.topK).softmax_nan hm
  unfold drawToken
  simp only
  rw [applyTopP_nan hnan, ok_bind, selectByCdf_none]
  · cases wantLogprobs <;> rfl
  · intro v hv
    obtain ⟨p, hp, hp0⟩ := hv
    rw [hnan p (List.mem_of_getElem? hp)] at hp0
    cases hp0

end

/-- **Sampling returns a token of the vocabulary exactly when the logits stay in range.**  The
ids of a row with at most `2 ^ 31` entries fit their type; of a longer one the condition is
still necessary. -/
theorem sampleRow_draws (log : F32 → F32) (params : SamplingParams)
    (hparams : validateSamplingParams params = .ok ())
    (htemperature : F32.lt (.finite 0) params.temperature = true) (seed : BitVec 64)
    (context : SampleContext) (logits : List F32)
    (hprompt : ∀ id ∈ context.promptIds, 0 ≤ id ∧ id < logits.length)
    (hgenerated : ∀ id ∈ context.generatedIds, 0 ≤ id ∧ id < logits.length)
    (hfinite : checkFinite logits = .ok ()) (wantLogprobs : Bool) :
    (DrawsFromVocabulary (boundedFloats log) logits context params seed wantLogprobs →
      StaysInRange params context logits) ∧
    (logits.length ≤ 2 ^ 31 → StaysInRange params context logits →
      DrawsFromVocabulary (boundedFloats log) logits context params seed wantLogprobs) := by
  obtain ⟨t, r, p, f, haccepted⟩ := validateSamplingParams_accepted hparams
  have ht : 0 < t := by
    rw [haccepted.temperature] at htemperature
    simpa [F32.lt] using htemperature
  have hlogits := checkFinite_iff.mp hfinite
  have hne : logits ≠ [] := by
    intro hnil
    obtain ⟨y, hy⟩ := hlogits.some_finite
    rw [hnil] at hy
    cases hy
  obtain ⟨row, hrow, hwork⟩ := penalizedRow_settles log haccepted hprompt hgenerated ht
  have hlength := settled_length hwork
  have hstochastic : sampleRow (boundedFloats log) logits context params seed wantLogprobs =
      drawToken (boundedFloats log) (applyTemperature (boundedFloats log) row params.temperature)
        params seed (BitVec.ofNat 64 context.generatedIds.length) wantLogprobs >>= fun result =>
          pure (.ok result) := by
    unfold sampleRow
    rw [if_neg]
    · unfold sampleStochastic
      rw [if_neg hne, hfinite, hrow]
    · rw [haccepted.temperature]
      intro hzero
      cases hzero
      exact absurd ht (by simp)
  constructor
  · intro hdraws
    by_contra hout
    obtain ⟨outcome, houtcome, hresult⟩ := hdraws
    rw [hstochastic, drawToken_unpeaked _ _ _ _ (boundedFloats_lawful log)
      (unpeaked_of_not_inRange (fun h => hout (staysInRange_iff.mpr h)) hlogits hwork)] at houtcome
    cases wantLogprobs with
    | true => cases houtcome
    | false =>
        cases houtcome
        exact absurd (hresult _ rfl).1 (by simp)
  · intro hlen hin
    obtain ⟨top, hpeak⟩ := ((staysInRange_iff.mp hin).isLogits hlogits hwork).peaked
    obtain ⟨result, hdraw, h0, hlt, hsurvives⟩ := drawToken_peaked params seed
      (BitVec.ofNat 64 context.generatedIds.length) wantLogprobs (boundedFloats_lawful log) hpeak
        (by rw [hlength]; exact hlen)
    refine ⟨.ok result, by rw [hstochastic, hdraw]; rfl, ?_⟩
    intro result' hresult'
    cases hresult'
    rw [hlength] at hlt
    exact ⟨h0, hlt, row, hrow, hsurvives⟩

/-- Accepted parameters that take a logit of ten beyond the largest float. -/
def coldParams : SamplingParams :=
  { temperature := .finite (1 / 2 ^ 126), maxTokens := 1 }

theorem sampleRow_draws_plain :
    validateSamplingParams { maxTokens := 1 } = .ok () ∧
    checkFinite [F32.finite 10, F32.infinity true] = .ok () ∧
    ((DrawsFromVocabulary (boundedFloats id) [F32.finite 10, F32.infinity true] ⟨[0], [0]⟩
        { maxTokens := 1 } 7 true →
      StaysInRange { maxTokens := 1 } ⟨[0], [0]⟩ [F32.finite 10, F32.infinity true]) ∧
    ([F32.finite 10, F32.infinity true].length ≤ 2 ^ 31 →
      StaysInRange { maxTokens := 1 } ⟨[0], [0]⟩ [F32.finite 10, F32.infinity true] →
      DrawsFromVocabulary (boundedFloats id) [F32.finite 10, F32.infinity true] ⟨[0], [0]⟩
        { maxTokens := 1 } 7 true)) :=
  ⟨by rfl, by rfl, sampleRow_draws id { maxTokens := 1 } (by rfl) (by rfl) 7 ⟨[0], [0]⟩
    [F32.finite 10, F32.infinity true] (by simp) (by simp) (by rfl) true⟩

/-- With them every check passes, and the token is the fallback value. -/
theorem sampleRow_returns_fallback :
    validateSamplingParams coldParams = .ok () ∧
    F32.lt (.finite 0) coldParams.temperature = true ∧
    checkFinite [F32.finite 10] = .ok () ∧
    sampleRow (boundedFloats id) [F32.finite 10] ⟨[], []⟩ coldParams 0 false
      = .ok (.ok ⟨-1, none⟩) ∧
    ¬ DrawsFromVocabulary (boundedFloats id) [F32.finite 10] ⟨[], []⟩ coldParams 0 false := by
  have hrun : sampleRow (boundedFloats id) [F32.finite 10] ⟨[], []⟩ coldParams 0 false
      = .ok (.ok ⟨-1, none⟩) := by decide +kernel
  refine ⟨by decide +kernel, by decide +kernel, by decide +kernel, hrun, ?_⟩
  intro hdraws
  obtain ⟨outcome, houtcome, hresult⟩ := hdraws
  rw [hrun] at houtcome
  cases houtcome
  exact absurd (hresult _ rfl).1 (by decide)

end InferenceEngine
