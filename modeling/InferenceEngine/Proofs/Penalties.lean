/-
Penalties depend on the set of the tokens and on how often each was generated.

Each loop changes the logits of distinct ids, each once, so what it leaves at a logit does not
depend on the order of the ids.  The containers hold the set of the ids and the counts, whatever
the order in which they were filled.  A refused history is refused before the row is touched.
-/
import InferenceEngine.Proofs.Logprobs
import InferenceEngine.Sampling.Penalties

namespace InferenceEngine

open Except

/-! ### Loops over a hash container

A hash container hands out its elements in no order one may rely on.  A loop that changes each
logit once leaves the same row in all of them. -/

/-- The key of an id is found in any order. -/
theorem find?_perm {κ : Type} {tokenId : κ → Int} {keys keys' : List κ} (h : keys'.Perm keys)
    (hnodup : (keys.map tokenId).Nodup) (v : Int) :
    keys'.find? (fun key => tokenId key = v) = keys.find? fun key => tokenId key = v := by
  cases hfound : keys.find? fun key => tokenId key = v with
  | none =>
      rw [List.find?_eq_none] at hfound ⊢
      exact fun key hkey => hfound key (h.mem_iff.mp hkey)
  | some key =>
      have hkey := List.find?_some hfound
      have hmem := List.mem_of_find?_eq_some hfound
      cases hfound' : keys'.find? fun key => tokenId key = v with
      | none => exact absurd hkey (List.find?_eq_none.mp hfound' key (h.mem_iff.mpr hmem))
      | some key' =>
          have hkey' := List.find?_some hfound'
          have hmem' := h.mem_iff.mp (List.mem_of_find?_eq_some hfound')
          simp only [decide_eq_true_eq] at hkey hkey'
          rw [List.inj_on_of_nodup_map hnodup hmem' hmem (hkey'.trans hkey.symm)]

/-- **A loop over distinct ids leaves the same row in every order.** -/
theorem updateLogits_perm {κ : Type} (tokenId : κ → Int) (f : κ → F32 → F32) {keys keys' : List κ}
    (h : keys'.Perm keys) (hnodup : (keys.map tokenId).Nodup)
    (hnonneg : ∀ key ∈ keys, 0 ≤ tokenId key) (logits : List F32) :
    updateLogits tokenId f keys' logits = updateLogits tokenId f keys logits := by
  refine List.ext_getElem? fun v => ?_
  rw [updateLogits_getElem? tokenId f keys logits hnodup hnonneg v,
    updateLogits_getElem? tokenId f keys' logits ((h.map tokenId).nodup_iff.mpr hnodup)
      (fun key hkey => hnonneg key (h.mem_iff.mp hkey)) v, find?_perm h hnodup]

/-! ### The history

The two loops over the ids fill the containers or refuse.  What they collect is a set and a
count for each id, and a refusal names an id that is not in the vocabulary. -/

/-- The counters count with whatever increment they have. -/
theorem collectGeneratedWith_collected (next : Int → Int) (vocab : Nat) :
    ∀ (ids : List Int) (history : TokenHistory), (∀ id ∈ ids, 0 ≤ id ∧ id < vocab) →
    history.seen.Nodup →
    ∃ history', collectGeneratedWith next vocab ids history = .ok history' ∧
      Collected history' (fun v => v ∈ ids ∨ v ∈ history.seen) fun v =>
        if v ∈ ids then some (next^[ids.count v] ((history.counts.lookup v).getD 0))
        else history.counts.lookup v := by
  intro ids
  induction ids with
  | nil =>
      intro history _ hnodup
      exact ⟨history, rfl, hnodup, by simp, by simp⟩
  | cons id ids ih =>
      intro history hids hnodup
      obtain ⟨history', hrun, hnodup', hseen, hlookup⟩ := ih
        ⟨history.counts.insert id (next ((history.counts.lookup id).getD 0)),
          history.seen.insert id⟩
        (fun other hother => hids other (List.mem_cons_of_mem _ hother)) (hnodup.insert)
      refine ⟨history', ?_, hnodup', ?_, ?_⟩
      · rw [collectGeneratedWith, validateTokenId_ok (hids id (by simp)), ok_bind, hrun]
      · intro v
        rw [hseen, List.mem_insert_iff, List.mem_cons]
        tauto
      · intro v
        rw [hlookup]
        by_cases hv : v = id
        · subst hv
          rw [AList.lookup_insert, if_pos (show v ∈ v :: ids by simp), List.count_cons_self,
            Function.iterate_succ_apply]
          by_cases hmem : v ∈ ids
          · rw [if_pos hmem, Option.getD_some]
          · rw [if_neg hmem, List.count_eq_zero_of_not_mem hmem, Function.iterate_zero_apply]
        · have hcons : v ∈ id :: ids ↔ v ∈ ids := by simp [hv]
          rw [AList.lookup_insert_ne hv, List.count_cons_of_ne (Ne.symm hv)]
          simp only [hcons]

/-- The loop of the model counts in an `int32`. -/
theorem collectGenerated_eq (vocab : Nat) : ∀ (ids : List Int) (history : TokenHistory),
    collectGenerated vocab ids history = collectGeneratedWith nextInt32 vocab ids history := by
  intro ids
  induction ids with
  | nil => intro history; rfl
  | cons id ids ih =>
      intro history
      rw [collectGenerated, collectGeneratedWith]
      cases validateTokenId vocab id "generated" with
      | error status => rfl
      | ok _ => exact ih _

/-- A refused id is named by an `InvalidArgument`. -/
theorem validateTokenId_invalid {vocab : Nat} {id : Int} (h : ¬(0 ≤ id ∧ id < vocab))
    (source : String) :
    ∃ message, validateTokenId vocab id source = .error (invalidArgumentError message) :=
  ⟨_, if_pos (by omega)⟩

theorem collectGeneratedWith_refused (next : Int → Int) {vocab : Nat} :
    ∀ {ids : List Int} (history : TokenHistory), (∃ id ∈ ids, ¬(0 ≤ id ∧ id < vocab)) →
    ∃ message, collectGeneratedWith next vocab ids history
      = .error (invalidArgumentError message) := by
  intro ids
  induction ids with
  | nil =>
      rintro history ⟨id, hid, _⟩
      cases hid
  | cons id ids ih =>
      rintro history ⟨other, hother, hbad⟩
      rw [collectGeneratedWith]
      by_cases hid : 0 ≤ id ∧ id < vocab
      · rw [validateTokenId_ok hid, ok_bind]
        rcases List.mem_cons.mp hother with rfl | hin
        · exact absurd hid hbad
        · exact ih _ ⟨other, hin, hbad⟩
      · obtain ⟨message, hmessage⟩ := validateTokenId_invalid hid "generated"
        rw [hmessage]
        exact ⟨message, rfl⟩

theorem collectPrompt_invalid {vocab : Nat} : ∀ {ids : List Int} (history : TokenHistory),
    (∃ id ∈ ids, ¬(0 ≤ id ∧ id < vocab)) →
    ∃ message, collectPrompt vocab ids history = .error (invalidArgumentError message) := by
  intro ids
  induction ids with
  | nil =>
      rintro history ⟨id, hid, _⟩
      cases hid
  | cons id ids ih =>
      rintro history ⟨other, hother, hbad⟩
      rw [collectPrompt]
      by_cases hid : 0 ≤ id ∧ id < vocab
      · rw [validateTokenId_ok hid, ok_bind]
        rcases List.mem_cons.mp hother with rfl | hin
        · exact absurd hid hbad
        · exact ih _ ⟨other, hin, hbad⟩
      · obtain ⟨message, hmessage⟩ := validateTokenId_invalid hid "prompt"
        rw [hmessage]
        exact ⟨message, rfl⟩

/-- Whether and how the loops fail depends on the ids alone. -/
theorem collectGeneratedWith_status (next next' : Int → Int) (vocab : Nat) :
    ∀ (ids : List Int) (history history' : TokenHistory),
      (collectGeneratedWith next vocab ids history).map (fun _ => ())
        = (collectGeneratedWith next' vocab ids history').map fun _ => () := by
  intro ids
  induction ids with
  | nil => intro history history'; rfl
  | cons id ids ih =>
      intro history history'
      rw [collectGeneratedWith, collectGeneratedWith]
      cases validateTokenId vocab id "generated" with
      | error status => rfl
      | ok _ => exact ih _ _

theorem collectPrompt_status (vocab : Nat) : ∀ (ids : List Int) (history history' : TokenHistory),
    (collectPrompt vocab ids history).map (fun _ => ())
      = (collectPrompt vocab ids history').map fun _ => () := by
  intro ids
  induction ids with
  | nil => intro history history'; rfl
  | cons id ids ih =>
      intro history history'
      rw [collectPrompt, collectPrompt]
      cases validateTokenId vocab id "prompt" with
      | error status => rfl
      | ok _ => exact ih _ _

/-- Every id of both histories is in the vocabulary. -/
def HistoryInRange (vocab : Nat) (promptIds generatedIds : List Int) : Prop :=
  (∀ id ∈ promptIds, 0 ≤ id ∧ id < vocab) ∧ ∀ id ∈ generatedIds, 0 ≤ id ∧ id < vocab

/-- All penalties are at their defaults. -/
def AtDefaults (repetitionPenalty presencePenalty frequencyPenalty : F32) : Prop :=
  ¬repetitionPenalty ≠ .finite 1 ∧ ¬presencePenalty ≠ .finite 0 ∧ ¬frequencyPenalty ≠ .finite 0

/-- The row behind the penalties, given the history. -/
def penalizedBy (m : FloatModel) (orders : PenaltyOrders) (history : TokenHistory)
    (repetitionPenalty presencePenalty frequencyPenalty : F32) (logits : List F32) : List F32 :=
  let logits := if repetitionPenalty ≠ .finite 1 then
    applyRepetition m repetitionPenalty (orders.repetition.arrange history.seen) logits else logits
  let logits := if frequencyPenalty ≠ .finite 0 then
    applyFrequency m frequencyPenalty (orders.frequency.arrange history.entries) logits else logits
  if presencePenalty ≠ .finite 0 then
    applyPresence m presencePenalty (orders.presence.arrange history.entries) logits else logits

/-- Containers that hand out their elements as they hold them. -/
def PenaltyOrders.stored : PenaltyOrders :=
  ⟨⟨id, .refl⟩, ⟨id, .refl⟩, ⟨id, .refl⟩⟩

section

variable {m : FloatModel} {next : Int → Int} {orders : PenaltyOrders} {logits : List F32}
  {promptIds generatedIds : List Int} {repetitionPenalty presencePenalty frequencyPenalty : F32}

/-- What both loops over the ids collect. -/
theorem collectWith_history (next : Int → Int)
    (h : HistoryInRange logits.length promptIds generatedIds) :
    ∃ before history, collectGeneratedWith next logits.length generatedIds ⟨∅, []⟩ = .ok before ∧
      collectPrompt logits.length promptIds before = .ok history ∧
      Collected history (fun v => v ∈ promptIds ∨ v ∈ generatedIds) fun v =>
        if v ∈ generatedIds then some (next^[generatedIds.count v] 0) else none := by
  obtain ⟨before, hbefore, hcollected⟩ := collectGeneratedWith_collected next logits.length
    generatedIds ⟨∅, []⟩ h.2 List.nodup_nil
  obtain ⟨history, hhistory, hnodup, hseen, hlookup⟩ := collectPrompt_collected logits.length
    promptIds before h.1 hcollected.nodup
  refine ⟨before, history, hbefore, hhistory, hnodup, ?_, ?_⟩
  · intro v
    rw [hseen, hcollected.seen_iff]
    simp
  · intro v
    rw [hlookup, hcollected.lookup]
    simp

/-- The ids of a collected history are those of the two lists. -/
theorem Collected.ids_nonneg {history : TokenHistory} {count : Int → Option Int}
    (hcollected : Collected history (fun v => v ∈ promptIds ∨ v ∈ generatedIds) fun v =>
      if v ∈ generatedIds then count v else none)
    (h : HistoryInRange logits.length promptIds generatedIds) :
    (∀ id ∈ history.seen, 0 ≤ id) ∧ ∀ entry ∈ history.entries, 0 ≤ entry.1 := by
  constructor
  · intro id hid
    rcases (hcollected.seen_iff id).mp hid with hmem | hmem
    · exact (h.1 id hmem).1
    · exact (h.2 id hmem).1
  · intro entry hentry
    have hlookup := mem_entries hentry
    rw [hcollected.lookup] at hlookup
    by_cases hmem : entry.1 ∈ generatedIds
    · exact (h.2 _ hmem).1
    · rw [if_neg hmem] at hlookup
      exact absurd hlookup (by simp)

/-- **The orders of the containers do not matter.** -/
theorem penalizedBy_stored {history : TokenHistory} (hnodup : history.seen.Nodup)
    (hseen : ∀ id ∈ history.seen, 0 ≤ id) (hentries : ∀ entry ∈ history.entries, 0 ≤ entry.1)
    (orders : PenaltyOrders) :
    penalizedBy m orders history repetitionPenalty presencePenalty frequencyPenalty logits
      = penalizedBy m .stored history repetitionPenalty presencePenalty frequencyPenalty
          logits := by
  have hrepetition : ∀ row, applyRepetition m repetitionPenalty
      (orders.repetition.arrange history.seen) row
        = applyRepetition m repetitionPenalty history.seen row := fun row =>
    updateLogits_perm id _ (orders.repetition.perm _) (by rw [List.map_id]; exact hnodup) hseen row
  have hfrequency : ∀ row, applyFrequency m frequencyPenalty
      (orders.frequency.arrange history.entries) row
        = applyFrequency m frequencyPenalty history.entries row := fun row =>
    updateLogits_perm Prod.fst _ (orders.frequency.perm _) (entries_nodup history) hentries row
  have hpresence : ∀ row, applyPresence m presencePenalty
      (orders.presence.arrange history.entries) row
        = applyPresence m presencePenalty history.entries row := fun row =>
    updateLogits_perm Prod.fst _ (orders.presence.perm _) (entries_nodup history) hentries row
  unfold penalizedBy
  simp only [hrepetition, hfrequency, hpresence]
  rfl

/-- Penalties at their defaults leave the row alone. -/
theorem applyPenaltiesInPlace_defaults
    (h : AtDefaults repetitionPenalty presencePenalty frequencyPenalty) :
    applyPenaltiesInPlace m next orders logits promptIds generatedIds repetitionPenalty
      presencePenalty frequencyPenalty = (.ok (), logits) :=
  if_pos h

/-- A history in the vocabulary is accepted. -/
theorem applyPenaltiesInPlace_accepted (next : Int → Int)
    (repetitionPenalty presencePenalty frequencyPenalty : F32)
    (h : HistoryInRange logits.length promptIds generatedIds) :
    ∃ history, Collected history (fun v => v ∈ promptIds ∨ v ∈ generatedIds) (fun v =>
        if v ∈ generatedIds then some (next^[generatedIds.count v] 0) else none) ∧
      ∀ m orders, applyPenaltiesInPlace m next orders logits promptIds generatedIds
        repetitionPenalty presencePenalty frequencyPenalty
          = (.ok (), penalizedBy m .stored history repetitionPenalty presencePenalty
              frequencyPenalty logits) := by
  obtain ⟨before, history, hbefore, hhistory, hcollected⟩ := collectWith_history next h
  refine ⟨history, hcollected, ?_⟩
  intro m orders
  obtain ⟨hseen, hentries⟩ := hcollected.ids_nonneg h
  rw [← penalizedBy_stored hcollected.nodup hseen hentries orders]
  unfold applyPenaltiesInPlace
  by_cases hdefaults : AtDefaults repetitionPenalty presencePenalty frequencyPenalty
  · unfold AtDefaults at hdefaults
    rw [if_pos hdefaults]
    unfold penalizedBy
    simp only [if_neg hdefaults.1, if_neg hdefaults.2.1, if_neg hdefaults.2.2]
  · unfold AtDefaults at hdefaults
    rw [if_neg hdefaults, hbefore]
    dsimp only
    rw [hhistory]
    rfl

/-- A history that is not is refused before the row is touched. -/
theorem applyPenaltiesInPlace_refused (m : FloatModel) (next : Int → Int) (orders : PenaltyOrders)
    (hactive : ¬AtDefaults repetitionPenalty presencePenalty frequencyPenalty)
    (h : ¬HistoryInRange logits.length promptIds generatedIds) :
    ∃ message, applyPenaltiesInPlace m next orders logits promptIds generatedIds
      repetitionPenalty presencePenalty frequencyPenalty
        = (.error (invalidArgumentError message), logits) := by
  unfold AtDefaults at hactive
  unfold applyPenaltiesInPlace
  rw [if_neg hactive]
  by_cases hgenerated : ∀ id ∈ generatedIds, 0 ≤ id ∧ id < logits.length
  · have hprompt : ∃ id ∈ promptIds, ¬(0 ≤ id ∧ id < logits.length) := by
      by_contra hnone
      exact h ⟨fun id hid => by_contra fun hout => hnone ⟨id, hid, hout⟩, hgenerated⟩
    obtain ⟨before, hbefore, _⟩ := collectGeneratedWith_collected next logits.length generatedIds
      ⟨∅, []⟩ hgenerated List.nodup_nil
    obtain ⟨message, hmessage⟩ := collectPrompt_invalid before hprompt
    rw [hbefore]
    dsimp only
    rw [hmessage]
    exact ⟨message, rfl⟩
  · have hsome : ∃ id ∈ generatedIds, ¬(0 ≤ id ∧ id < logits.length) := by
      by_contra hnone
      exact hgenerated fun id hid => by_contra fun hout => hnone ⟨id, hid, hout⟩
    obtain ⟨message, hmessage⟩ :=
      collectGeneratedWith_refused next ⟨∅, []⟩ hsome
    rw [hmessage]
    exact ⟨message, rfl⟩

/-- What has been collected was in the vocabulary. -/
theorem historyInRange_of_collect {before history : TokenHistory}
    (hbefore : collectGeneratedWith next logits.length generatedIds ⟨∅, []⟩ = .ok before)
    (hhistory : collectPrompt logits.length promptIds before = .ok history) :
    HistoryInRange logits.length promptIds generatedIds := by
  constructor
  · intro id hid
    by_contra hout
    obtain ⟨message, hmessage⟩ := collectPrompt_invalid before ⟨id, hid, hout⟩
    rw [hmessage] at hhistory
    cases hhistory
  · intro id hid
    by_contra hout
    obtain ⟨message, hmessage⟩ :=
      collectGeneratedWith_refused next ⟨∅, []⟩ ⟨id, hid, hout⟩
    rw [hmessage] at hbefore
    cases hbefore

/-- **The outcome does not depend on the orders of the containers.** -/
theorem applyPenaltiesInPlace_orders (m : FloatModel) (next : Int → Int) (orders : PenaltyOrders)
    (logits : List F32) (promptIds generatedIds : List Int)
    (repetitionPenalty presencePenalty frequencyPenalty : F32) :
    applyPenaltiesInPlace m next orders logits promptIds generatedIds repetitionPenalty
        presencePenalty frequencyPenalty
      = applyPenaltiesInPlace m next .stored logits promptIds generatedIds repetitionPenalty
          presencePenalty frequencyPenalty := by
  by_cases h : HistoryInRange logits.length promptIds generatedIds
  · obtain ⟨history, _, hrun⟩ := applyPenaltiesInPlace_accepted next repetitionPenalty
      presencePenalty frequencyPenalty h
    rw [hrun, hrun]
  · by_cases hdefaults : AtDefaults repetitionPenalty presencePenalty frequencyPenalty
    · rw [applyPenaltiesInPlace_defaults hdefaults, applyPenaltiesInPlace_defaults hdefaults]
    · unfold AtDefaults at hdefaults
      rw [applyPenaltiesInPlace, applyPenaltiesInPlace, if_neg hdefaults, if_neg hdefaults]
      cases hbefore : collectGeneratedWith next logits.length generatedIds ⟨∅, []⟩ with
      | error status => rfl
      | ok before =>
          dsimp only
          cases hhistory : collectPrompt logits.length promptIds before with
          | error status => rfl
          | ok history => exact absurd (historyInRange_of_collect hbefore hhistory) h

/-- A refused call does not depend on how the counters count. -/
theorem applyPenaltiesInPlace_next (m : FloatModel) (next next' : Int → Int)
    (orders : PenaltyOrders) (h : ¬HistoryInRange logits.length promptIds generatedIds) :
    applyPenaltiesInPlace m next orders logits promptIds generatedIds repetitionPenalty
        presencePenalty frequencyPenalty
      = applyPenaltiesInPlace m next' orders logits promptIds generatedIds repetitionPenalty
          presencePenalty frequencyPenalty := by
  by_cases hdefaults : AtDefaults repetitionPenalty presencePenalty frequencyPenalty
  · rw [applyPenaltiesInPlace_defaults hdefaults, applyPenaltiesInPlace_defaults hdefaults]
  · unfold AtDefaults at hdefaults
    rw [applyPenaltiesInPlace, applyPenaltiesInPlace, if_neg hdefaults, if_neg hdefaults]
    have hgenerated := collectGeneratedWith_status next next' logits.length generatedIds ⟨∅, []⟩
      ⟨∅, []⟩
    cases hbefore : collectGeneratedWith next logits.length generatedIds ⟨∅, []⟩ with
    | error status =>
        cases hbefore' : collectGeneratedWith next' logits.length generatedIds ⟨∅, []⟩ with
        | error status' =>
            rw [hbefore, hbefore'] at hgenerated
            cases hgenerated
            rfl
        | ok before' =>
            rw [hbefore, hbefore'] at hgenerated
            cases hgenerated
    | ok before =>
        cases hbefore' : collectGeneratedWith next' logits.length generatedIds ⟨∅, []⟩ with
        | error status' =>
            rw [hbefore, hbefore'] at hgenerated
            cases hgenerated
        | ok before' =>
            have hprompt := collectPrompt_status logits.length promptIds before before'
            dsimp only
            cases hhistory : collectPrompt logits.length promptIds before with
            | ok history => exact absurd (historyInRange_of_collect hbefore hhistory) h
            | error status =>
                cases hhistory' : collectPrompt logits.length promptIds before' with
                | ok history' => exact absurd (historyInRange_of_collect hbefore' hhistory') h
                | error status' =>
                    rw [hhistory, hhistory'] at hprompt
                    cases hprompt
                    rfl

/-- **In place and by value, `ApplyPenalties` is the same function.** -/
theorem applyPenaltiesInPlace_eq (m : FloatModel) (orders : PenaltyOrders) (logits : List F32)
    (promptIds generatedIds : List Int) (repetitionPenalty presencePenalty frequencyPenalty : F32) :
    applyPenaltiesInPlace m nextInt32 orders logits promptIds generatedIds repetitionPenalty
        presencePenalty frequencyPenalty
      = match applyPenalties m logits promptIds generatedIds repetitionPenalty presencePenalty
          frequencyPenalty with
        | .ok row => (.ok (), row)
        | .error status => (.error status, logits) := by
  rw [applyPenaltiesInPlace_orders, applyPenaltiesInPlace, applyPenalties, collectGenerated_eq]
  by_cases hdefaults : AtDefaults repetitionPenalty presencePenalty frequencyPenalty
  · unfold AtDefaults at hdefaults
    rw [if_pos hdefaults, if_pos hdefaults]
  · unfold AtDefaults at hdefaults
    rw [if_neg hdefaults, if_neg hdefaults]
    cases collectGeneratedWith nextInt32 logits.length generatedIds ⟨∅, []⟩ with
    | error status => rfl
    | ok before =>
        rw [ok_bind]
        dsimp only
        cases collectPrompt logits.length promptIds before with
        | error status => rfl
        | ok history => rfl

end

/-! ### Exact arithmetic

Counters that never overflow and operations that never round make of each logit one expression
in its count, which is the documented formula. -/

section

variable {e : Rat → Rat} {log : F32 → F32} {r p f : Rat}

theorem F32.sub_zero_exact (x : F32) : x.sub .finite (.finite 0) = x := by
  cases x with
  | finite x => rw [F32.sub, sub_zero]
  | infinity s => rfl
  | nan => rfl

/-- A penalty of one repetition changes nothing. -/
theorem repeatedLogit_one (e : Rat → Rat) (log : F32 → F32) (x : F32) :
    repeatedLogit (exactFloats e log) (.finite 1) x = x := by
  unfold repeatedLogit
  cases x with
  | finite x => simp [F32.lt, F32.mul, F32.div, exactFloats]
  | infinity s => cases s <;> rfl
  | nan => rfl

/-- What one loop makes of a logit, active or not. -/
theorem penaltyLoop_getElem? {κ : Type} {active : Prop} [Decidable active] {tokenId : κ → Int}
    {change : κ → F32 → F32} {keys : List κ} {after : F32 → F32} {logits : List F32} {v : Nat}
    (hnodup : (keys.map tokenId).Nodup) (hnonneg : ∀ key ∈ keys, 0 ≤ tokenId key)
    (hoff : ¬active → ∀ x, after x = x)
    (hnone : (keys.find? fun key => tokenId key = v) = none → ∀ x, after x = x)
    (hsome : ∀ key, (keys.find? fun key => tokenId key = v) = some key →
      ∀ x, after x = change key x) :
    (if active then updateLogits tokenId change keys logits else logits)[v]?
      = logits[v]?.map after := by
  by_cases h : active
  · rw [if_pos h, updateLogits_getElem? tokenId change keys logits hnodup hnonneg v]
    cases hfind : keys.find? fun key => tokenId key = v with
    | none =>
        rw [show after = id from funext (hnone hfind), Option.map_id]
        rfl
    | some key => rw [funext (hsome key hfind)]
  · rw [if_neg h, show after = id from funext (hoff h), Option.map_id]
    rfl

/-- **A logit behind the penalties.** -/
theorem penalizedBy_getElem? {promptIds generatedIds : List Int} {logits : List F32}
    {history : TokenHistory}
    (hcollected : Collected history (fun v => v ∈ promptIds ∨ v ∈ generatedIds) fun v =>
      if v ∈ generatedIds then some (generatedIds.count v : Int) else none)
    (h : HistoryInRange logits.length promptIds generatedIds) (v : Nat) :
    (penalizedBy (exactFloats e log) .stored history (.finite r) (.finite p) (.finite f)
      logits)[v]? = logits[v]?.map (penalizedLogit r p f
        (decide ((v : Int) ∈ promptIds ∨ (v : Int) ∈ generatedIds))
        (generatedIds.count (v : Int))) := by
  obtain ⟨hseen, hentries⟩ := hcollected.ids_nonneg h
  have hentry : (history.entries.find? fun entry => Prod.fst entry = (v : Int)) =
      if (v : Int) ∈ generatedIds then some ((v : Int), (generatedIds.count (v : Int) : Int))
      else none := by
    refine (find?_entries v _).trans ?_
    rw [show history.counts.entries.dlookup (v : Int) = history.counts.lookup (v : Int) from rfl,
      hcollected.lookup]
    split <;> rfl
  have hnever : (v : Int) ∉ generatedIds → generatedIds.count (v : Int) = 0 :=
    List.count_eq_zero_of_not_mem
  -- the three loops, each on the row before
  have h1 : ∀ row : List F32, (if F32.finite r ≠ .finite 1 then
      applyRepetition (exactFloats e log) (.finite r) history.seen row else row)[v]?
        = row[v]?.map fun x =>
            if decide ((v : Int) ∈ promptIds ∨ (v : Int) ∈ generatedIds) = true then
              repeatedLogit (exactFloats e log) (.finite r) x
            else x := by
    intro row
    refine penaltyLoop_getElem? (by rw [List.map_id]; exact hcollected.nodup) hseen ?_ ?_ ?_
    · intro hoff x
      rw [not_not.mp hoff, repeatedLogit_one, ite_self]
    · intro hnone x
      have hmem : (v : Int) ∉ history.seen := by
        intro hin
        exact List.find?_eq_none.mp hnone (v : Int) hin (decide_eq_true rfl)
      rw [hcollected.seen_iff] at hmem
      rw [if_neg (by simpa using hmem)]
    · intro key hsome x
      have hkey : key = (v : Int) := by simpa using List.find?_some hsome
      have hmem := (hcollected.seen_iff _).mp (List.mem_of_find?_eq_some hsome)
      rw [hkey] at hmem
      rw [if_pos (by simpa using hmem)]
  have h2 : ∀ row : List F32, (if F32.finite f ≠ .finite 0 then
      applyFrequency (exactFloats e log) (.finite f) history.entries row else row)[v]?
        = row[v]?.map fun x =>
            x.sub .finite (.finite (f * generatedIds.count (v : Int))) := by
    intro row
    refine penaltyLoop_getElem? (entries_nodup history) hentries ?_ ?_ ?_
    · intro hoff x
      have hf : f = 0 := by simpa using hoff
      rw [hf, zero_mul, F32.sub_zero_exact]
    · intro hnone x
      rw [hentry] at hnone
      have hmem : (v : Int) ∉ generatedIds := by
        intro hin
        rw [if_pos hin] at hnone
        cases hnone
      rw [hnever hmem, Nat.cast_zero, mul_zero, F32.sub_zero_exact]
    · intro key hsome x
      rw [hentry] at hsome
      split at hsome
      · cases hsome
        rfl
      · cases hsome
  have h3 : ∀ row : List F32, (if F32.finite p ≠ .finite 0 then
      applyPresence (exactFloats e log) (.finite p) history.entries row else row)[v]?
        = row[v]?.map fun x => x.sub .finite
            (.finite (if 0 < generatedIds.count (v : Int) then p else 0)) := by
    intro row
    refine penaltyLoop_getElem? (entries_nodup history) hentries ?_ ?_ ?_
    · intro hoff x
      have hp : p = 0 := by simpa using hoff
      rw [hp, ite_self, F32.sub_zero_exact]
    · intro hnone x
      rw [hentry] at hnone
      have hmem : (v : Int) ∉ generatedIds := by
        intro hin
        rw [if_pos hin] at hnone
        cases hnone
      rw [hnever hmem, if_neg (lt_irrefl 0), F32.sub_zero_exact]
    · intro key hsome x
      rw [hentry] at hsome
      split at hsome
      · rename_i hin
        rw [if_pos (List.count_pos_iff.mpr hin)]
        rfl
      · cases hsome
  refine (h3 _).trans ((congrArg _ ((h2 _).trans (congrArg _ (h1 logits)))).trans ?_)
  cases logits[v]? with
  | none => rfl
  | some x => rfl

/-- Counting in exact arithmetic. -/
theorem succ_iterate (n : Nat) : (fun count : Int => count + 1)^[n] 0 = n := by
  induction n with
  | zero => rfl
  | succ n ih => rw [Function.iterate_succ_apply', ih, Nat.cast_succ]

/-- An `int32` counts like that below `2 ^ 31`. -/
theorem nextInt32_iterate {n : Nat} (h : n < 2 ^ 31) : nextInt32^[n] 0 = n := by
  induction n with
  | zero => rfl
  | succ n ih =>
      rw [Function.iterate_succ_apply', ih (by omega), nextInt32]
      exact toInt32_of_lt (by omega) (by omega)

end

/-- The penalties in exact arithmetic, with counters that count exactly. -/
def exactPenalties (e : Rat → Rat) (log : F32 → F32) (r p f : Rat) (orders : PenaltyOrders)
    (logits : List F32) (promptIds generatedIds : List Int) : StatusOr Unit × List F32 :=
  applyPenaltiesInPlace (exactFloats e log) (· + 1) orders logits promptIds generatedIds (.finite r)
    (.finite p) (.finite f)

section

variable (e : Rat → Rat) (log : F32 → F32) (r p f : Rat) (orders : PenaltyOrders)
  (logits : List F32) (promptIds generatedIds : List Int)

/-- A penalty call that returns makes of every logit what its token asks for. -/
theorem exactPenalties_ok (h : HistoryInRange logits.length promptIds generatedIds ∨
    AtDefaults (.finite r) (.finite p) (.finite f)) :
    exactPenalties e log r p f orders logits promptIds generatedIds
      = (.ok (), logits.mapIdx fun v x => penalizedLogit r p f
          (decide ((v : Int) ∈ promptIds ∨ (v : Int) ∈ generatedIds))
          (generatedIds.count (v : Int)) x) := by
  unfold exactPenalties
  by_cases hdefaults : AtDefaults (.finite r) (.finite p) (.finite f)
  · rw [applyPenaltiesInPlace_defaults hdefaults]
    congr 1
    obtain ⟨hr, hp, hf⟩ := hdefaults
    simp only [ne_eq, F32.finite.injEq, not_not] at hr hp hf
    subst hr hp hf
    refine List.ext_getElem? fun v => ?_
    rw [List.getElem?_mapIdx]
    have hsame : ∀ seen count x, penalizedLogit 1 0 0 seen count x = x := by
      intro seen count x
      have hone := repeatedLogit_one e log x
      unfold repeatedLogit at hone
      unfold penalizedLogit
      rw [zero_mul, ite_self, F32.sub_zero_exact, F32.sub_zero_exact]
      cases seen with
      | false => rfl
      | true => exact hone
    cases logits[v]? with
    | none => rfl
    | some x => rw [Option.map_some, hsame]
  · have hrange := h.resolve_right hdefaults
    obtain ⟨history, hcollected, hrun⟩ := applyPenaltiesInPlace_accepted
      (fun count : Int => count + 1) (.finite r) (.finite p) (.finite f) hrange
    simp only [succ_iterate] at hcollected
    rw [hrun]
    congr 1
    refine List.ext_getElem? fun v => ?_
    rw [List.getElem?_mapIdx]
    exact penalizedBy_getElem? hcollected hrange v

end

/-- **Penalties depend only on token sets and counts.** -/
theorem exactPenalties_sets_and_counts (e : Rat → Rat) (log : F32 → F32) (r p f : Rat)
    (orders : PenaltyOrders) (logits : List F32) (promptIds generatedIds : List Int) :
    let outcome := exactPenalties e log r p f orders logits promptIds generatedIds
    -- what a call that succeeds makes of each logit
    (outcome.1 = .ok () → outcome.2 = logits.mapIdx fun v x => penalizedLogit r p f
      (decide ((v : Int) ∈ promptIds ∨ (v : Int) ∈ generatedIds))
      (generatedIds.count (v : Int)) x) ∧
    -- which calls fail, and how
    (HistoryInRange logits.length promptIds generatedIds → outcome.1 = .ok ()) ∧
    (¬HistoryInRange logits.length promptIds generatedIds →
      ¬AtDefaults (.finite r) (.finite p) (.finite f) →
      ∃ message, outcome = (.error (invalidArgumentError message), logits)) ∧
    -- what does not matter
    (∀ orders', exactPenalties e log r p f orders' logits promptIds generatedIds = outcome) ∧
    (∀ promptIds' generatedIds', (∀ id, id ∈ promptIds' ↔ id ∈ promptIds) →
      generatedIds'.Perm generatedIds →
      let outcome' := exactPenalties e log r p f orders logits promptIds' generatedIds'
      outcome'.2 = outcome.2 ∧ (outcome'.1 = .ok () ↔ outcome.1 = .ok ())) ∧
    -- the counters of the code
    ((∀ id, generatedIds.count id < 2 ^ 31) →
      applyPenaltiesInPlace (exactFloats e log) nextInt32 orders logits promptIds generatedIds
        (.finite r) (.finite p) (.finite f) = outcome) := by
  intro outcome
  have hok := exactPenalties_ok e log r p f
  have hrefused : ∀ {promptIds generatedIds : List Int},
      ¬HistoryInRange logits.length promptIds generatedIds →
      ¬AtDefaults (.finite r) (.finite p) (.finite f) →
      ∃ message, exactPenalties e log r p f orders logits promptIds generatedIds
        = (.error (invalidArgumentError message), logits) :=
    fun hout hactive => applyPenaltiesInPlace_refused _ _ _ hactive hout
  refine ⟨?_, ?_, fun hout hactive => hrefused hout hactive, ?_, ?_, ?_⟩
  · intro hreturns
    by_cases h : HistoryInRange logits.length promptIds generatedIds ∨
        AtDefaults (.finite r) (.finite p) (.finite f)
    · exact congrArg Prod.snd (hok orders logits promptIds generatedIds h)
    · obtain ⟨hout, hactive⟩ := not_or.mp h
      obtain ⟨message, hmessage⟩ := hrefused hout hactive
      rw [show outcome = _ from hmessage] at hreturns
      cases hreturns
  · intro h
    exact congrArg Prod.fst (hok orders logits promptIds generatedIds (.inl h))
  · intro orders'
    exact (applyPenaltiesInPlace_orders _ _ _ _ _ _ _ _ _).trans
      (applyPenaltiesInPlace_orders _ _ _ _ _ _ _ _ _).symm
  · intro promptIds' generatedIds' hprompt hgenerated
    have hrange : HistoryInRange logits.length promptIds' generatedIds' ↔
        HistoryInRange logits.length promptIds generatedIds := by
      unfold HistoryInRange
      simp only [hprompt, hgenerated.mem_iff]
    by_cases h : HistoryInRange logits.length promptIds generatedIds ∨
        AtDefaults (.finite r) (.finite p) (.finite f)
    · have h' := h.imp_left hrange.mpr
      rw [show outcome = _ from hok orders logits promptIds generatedIds h,
        hok orders logits promptIds' generatedIds' h']
      refine ⟨?_, Iff.rfl⟩
      simp only [hprompt, hgenerated.mem_iff, hgenerated.count_eq]
    · obtain ⟨hout, hactive⟩ := not_or.mp h
      obtain ⟨message, hmessage⟩ := hrefused hout hactive
      obtain ⟨message', hmessage'⟩ := hrefused (mt hrange.mp hout) hactive
      rw [show outcome = _ from hmessage, hmessage']
      exact ⟨rfl, by simp, by simp⟩
  · intro hcount
    by_cases h : HistoryInRange logits.length promptIds generatedIds
    · rw [show outcome = _ from hok orders logits promptIds generatedIds (.inl h)]
      obtain ⟨history, hcollected, hrun⟩ := applyPenaltiesInPlace_accepted nextInt32 (.finite r)
        (.finite p) (.finite f) h
      simp only [nextInt32_iterate (hcount _)] at hcollected
      rw [hrun]
      congr 1
      refine List.ext_getElem? fun v => ?_
      rw [List.getElem?_mapIdx]
      exact penalizedBy_getElem? hcollected h v
    · exact applyPenaltiesInPlace_next _ _ _ _ h

end InferenceEngine
