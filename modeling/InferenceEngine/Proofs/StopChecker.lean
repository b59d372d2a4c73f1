/-
What a stop checker streams.

The detokenizer holds the tail of an incomplete character and the matcher the tail of an
incomplete stop string.  Until the end the deltas, with the two tails, are the bytes of the
ids; at the end each kind of stop releases or drops them in its own way.
-/
import InferenceEngine.Proofs.Detokenize
import InferenceEngine.Proofs.Stop

namespace InferenceEngine

open Occurrences

/-- The order in which the conditions are checked. -/
def StopTrigger.rank : StopTrigger → Nat
  | .none => 0
  | .eosId => 1
  | .stopTokenId => 2
  | .stopString => 3
  | .maxTokens => 4

/-- The text that is known once some ids have been pushed. -/
def knownText (t : Tokenizer) (skip : Bool) (ids : List Int) : Text :=
  ((DetokenizerStream.new t skip).pushAll ids).1.flatMap textOf

namespace StopChecker

variable {c c' : StopChecker} {t : Tokenizer} {skip : Bool} {seen : List Int} {id : Int}
  {emitted : Text} {eosIds : List Int} {params : SamplingParams}

/-- The stop conditions of a request, for the last of some ids. -/
def Applies (params : SamplingParams) (eosIds : List Int) (t : Tokenizer) (skip : Bool)
    (seen : List Int) (id : Int) : StopTrigger → Prop
  | .none => False
  | .eosId => id ∈ eosIds
  | .stopTokenId => id ∈ params.stopTokenIds
  | .stopString => ¬Absent params.stopStrings (knownText t skip (seen ++ [id]))
  | .maxTokens => params.maxTokens ≤ (seen ++ [id]).length

/-- The trigger that applies before all others that do. -/
structure FirstApplies (params : SamplingParams) (eosIds : List Int) (t : Tokenizer) (skip : Bool)
    (seen : List Int) (id : Int) (trigger : StopTrigger) : Prop where
  applies : Applies params eosIds t skip seen id trigger
  first : ∀ other, Applies params eosIds t skip seen id other → trigger.rank ≤ other.rank

/-- A checker that has seen some ids and has not finished. -/
structure Watching (params : SamplingParams) (eosIds : List Int) (t : Tokenizer) (skip : Bool)
    (seen : List Int) (emitted : Text) (c : StopChecker) : Prop where
  eosIds_eq : c.eosIds = eosIds
  stopTokenIds : c.stopTokenIds = params.stopTokenIds
  maxTokens : c.maxTokens = params.maxTokens
  trigger : c.trigger = .none
  detok : c.detok = some ((DetokenizerStream.new t skip).pushAll seen).2
  matcher : StopStringMatcher.Holding params.stopStrings (knownText t skip seen) emitted c.matcher

theorem create_watching (eosIds : List Int) (t : Tokenizer) (skip : Bool)
    (hne : ∀ stop ∈ params.stopStrings, stop ≠ []) :
    ∃ c, create params eosIds (some t) skip = .ok c ∧ Watching params eosIds t skip [] [] c := by
  unfold create
  rw [if_neg (by simp)]
  exact ⟨_, rfl, rfl, rfl, rfl, rfl, rfl, StopStringMatcher.holding_new hne⟩

/-- What is still held when a stream ends. -/
def tail (t : Tokenizer) (skip : Bool) (seen : List Int) : Text :=
  ((DetokenizerStream.new t skip).pushAll seen).2.finish.1

/-- **Nothing is lost in the two buffers.** -/
theorem decode_eq_knownText (skip : Bool) (hin : ∀ id ∈ seen, (t.tokenBytes id).isSome) :
    t.decode seen skip = .ok (knownText t skip seen ++ tail t skip seen) := by
  have hdecode := DetokenizerStream.pushAll_decode t skip seen
  have haccepted : t.accepted seen = seen := List.filter_eq_self.mpr hin
  rwa [haccepted] at hdecode

theorem knownText_snoc (seen : List Int) (id : Int) : knownText t skip (seen ++ [id])
    = knownText t skip seen
      ++ textOf (((DetokenizerStream.new t skip).pushAll seen).2.push id).1 := by
  unfold knownText
  rw [DetokenizerStream.pushAll_append, List.flatMap_append]
  simp [DetokenizerStream.pushAll]

/-- The text of one id. -/
theorem Watching.detokenize (h : Watching params eosIds t skip seen emitted c)
    (hin : (t.tokenBytes id).isSome) :
    ∃ piece, (c.detokenize id).1 = .ok piece ∧
      knownText t skip (seen ++ [id]) = knownText t skip seen ++ piece ∧
      (c.detokenize id).2 = { c with
        detok := some ((DetokenizerStream.new t skip).pushAll (seen ++ [id])).2 } := by
  have hpush := DetokenizerStream.push_spec ((DetokenizerStream.new t skip).pushAll seen).2 id
  have ht := (DetokenizerStream.pushAll_spec seen (d := .new t skip) (Or.inl rfl)).tokenizer
  obtain ⟨piece, hpiece⟩ := hpush.ok.mpr (by rw [ht]; exact hin)
  refine ⟨piece, ?_, ?_, ?_⟩
  · unfold StopChecker.detokenize
    rw [h.detok]
    exact hpiece
  · rw [knownText_snoc, hpiece]
    rfl
  · unfold StopChecker.detokenize
    rw [h.detok, DetokenizerStream.pushAll_append]
    rfl

/-- Everything that is held is released. -/
theorem finish_released {d : DetokenizerStream} (h : c.trigger ≠ .stopString)
    (hd : c.detok = some d) : c.finish.1 = c.matcher.held ++ d.finish.1 := by
  unfold finish
  rw [if_neg h]
  simp only [hd, StopStringMatcher.flush]

theorem finish_dropped (h : c.trigger = .stopString) : c.finish.1 = [] := by
  unfold finish
  rw [if_pos h]

/-- How a stream ended: nothing is missing, or the text is cut before a stop string. -/
inductive Ended (params : SamplingParams) (eosIds : List Int) (t : Tokenizer) (skip : Bool)
    (seen : List Int) (id : Int) (text : Text) (step : StepResult) : Prop
  | released (hfirst : FirstApplies params eosIds t skip seen id step.trigger)
      (htrigger : step.trigger ≠ .stopString)
      (htext : text = knownText t skip (seen ++ [id]) ++ tail t skip (seen ++ [id]))
  | trimmed (hfirst : FirstApplies params eosIds t skip seen id step.trigger)
      (htrigger : step.trigger = .stopString) (pos : Nat)
      (hearliest : Earliest params.stopStrings (knownText t skip (seen ++ [id])) pos
        step.matchedStop)
      (htext : text = (knownText t skip (seen ++ [id])).take pos)

/-- What one `Observe` comes to: the stream goes on, or it has ended. -/
def Observed (params : SamplingParams) (eosIds : List Int) (t : Tokenizer) (skip : Bool)
    (seen : List Int) (id : Int) (emitted : Text) (step : StepResult) (c' : StopChecker) : Prop :=
  (step.finished = false ∧ (∀ trigger, ¬Applies params eosIds t skip seen id trigger) ∧
    Watching params eosIds t skip (seen ++ [id]) (emitted ++ step.textDelta) c') ∨
  (step.finished = true ∧
    Ended params eosIds t skip seen id (emitted ++ step.textDelta ++ c'.finish.1) step)

/-- The last condition, once the others do not apply. -/
private theorem observeLength_spec {delta : Text} {seen' : List Int} (hseen : seen' = seen ++ [id])
    (h : Watching params eosIds t skip seen' (emitted ++ delta) c) (heos : id ∉ eosIds)
    (hstop : id ∉ params.stopTokenIds) :
    Observed params eosIds t skip seen id emitted
      (c.observeLength delta seen'.length).1 (c.observeLength delta seen'.length).2 := by
  subst hseen
  have hothers : ∀ trigger, Applies params eosIds t skip seen id trigger →
      trigger = .maxTokens := by
    intro trigger happlies
    cases trigger with
    | none => exact absurd happlies fun hc => hc
    | eosId => exact absurd happlies heos
    | stopTokenId => exact absurd happlies hstop
    | stopString => exact absurd h.matcher.absent happlies
    | maxTokens => rfl
  unfold observeLength
  by_cases hmax : c.maxTokens ≤ ((seen ++ [id]).length : Int)
  · rw [if_pos hmax]
    have hfirst : FirstApplies params eosIds t skip seen id .maxTokens := by
      refine ⟨?_, fun other hother => by rw [hothers other hother]⟩
      unfold Applies
      rw [← h.maxTokens]
      exact hmax
    have hfinish := finish_released (c := { c with trigger := .maxTokens }) nofun h.detok
    refine Or.inr ⟨rfl, .released hfirst nofun ?_⟩
    rw [hfinish, h.matcher.split]
    simp only [List.append_assoc]
    rfl
  · rw [if_neg hmax]
    refine Or.inl ⟨rfl, fun trigger happlies => ?_, h⟩
    obtain rfl := hothers trigger happlies
    unfold Applies at happlies
    rw [← h.maxTokens] at happlies
    exact hmax happlies

private theorem idTrigger_cases (h : Watching params eosIds t skip seen emitted c) (id : Int) :
    (id ∈ eosIds ∧ c.idTrigger id = .eosId) ∨
      (id ∉ eosIds ∧ id ∈ params.stopTokenIds ∧ c.idTrigger id = .stopTokenId) ∨
      (id ∉ eosIds ∧ id ∉ params.stopTokenIds ∧ c.idTrigger id = .none) := by
  unfold idTrigger
  rw [h.eosIds_eq, h.stopTokenIds]
  by_cases heos : id ∈ eosIds
  · exact Or.inl ⟨heos, if_pos heos⟩
  · rw [if_neg heos]
    by_cases hstop : id ∈ params.stopTokenIds
    · exact Or.inr (Or.inl ⟨heos, hstop, if_pos hstop⟩)
    · exact Or.inr (Or.inr ⟨heos, hstop, if_neg hstop⟩)

/-- The trigger an id is stopped by is the first that applies. -/
private theorem firstApplies_idTrigger (h : Watching params eosIds t skip seen emitted c)
    (hne : c.idTrigger id ≠ .none) :
    FirstApplies params eosIds t skip seen id (c.idTrigger id) ∧ c.idTrigger id ≠ .stopString := by
  rcases idTrigger_cases h id with ⟨heos, heq⟩ | ⟨heos, hstop, heq⟩ | ⟨_, _, heq⟩
  · rw [heq]
    refine ⟨⟨heos, fun other hother => ?_⟩, nofun⟩
    cases other with
    | none => exact absurd hother fun hc => hc
    | _ => decide
  · rw [heq]
    refine ⟨⟨hstop, fun other hother => ?_⟩, nofun⟩
    cases other with
    | none => exact absurd hother fun hc => hc
    | eosId => exact absurd hother heos
    | _ => decide
  · exact absurd heq hne

private theorem firstApplies_stopString (heos : id ∉ eosIds) (hstop : id ∉ params.stopTokenIds)
    (h : ¬Absent params.stopStrings (knownText t skip (seen ++ [id]))) :
    FirstApplies params eosIds t skip seen id .stopString := by
  refine ⟨h, fun other hother => ?_⟩
  cases other with
  | none => exact absurd hother fun hc => hc
  | eosId => exact absurd hother heos
  | stopTokenId => exact absurd hother hstop
  | stopString => exact le_refl _
  | maxTokens => decide

/-- **One `Observe`.** -/
theorem Watching.observe (h : Watching params eosIds t skip seen emitted c)
    (hin : (t.tokenBytes id).isSome) :
    ∃ step, (c.observe id ((seen ++ [id]).length : Nat)).1 = .ok step ∧
      Observed params eosIds t skip seen id emitted step
        (c.observe id ((seen ++ [id]).length : Nat)).2 := by
  obtain ⟨piece, hpiece, hknown, hc⟩ := h.detokenize hin
  have hdetok : c.detokenize id = (.ok piece, { c with
      detok := some ((DetokenizerStream.new t skip).pushAll (seen ++ [id])).2 }) :=
    Prod.ext hpiece hc
  unfold StopChecker.observe
  rw [hdetok]
  dsimp only
  have hid : ∀ d : Option DetokenizerStream,
      ({ c with detok := d } : StopChecker).idTrigger id = c.idTrigger id := fun _ => rfl
  rw [hid]
  by_cases htrigger : c.idTrigger id ≠ .none
  · rw [if_pos htrigger]
    obtain ⟨hfirst, hnot⟩ := firstApplies_idTrigger h htrigger
    refine ⟨_, rfl, Or.inr ⟨rfl, .released hfirst hnot ?_⟩⟩
    rw [finish_released hnot rfl, hknown, h.matcher.split]
    simp [StopStringMatcher.flush, tail]
  rw [if_neg htrigger]
  obtain ⟨heos, hstop⟩ : id ∉ eosIds ∧ id ∉ params.stopTokenIds := by
    rcases idTrigger_cases h id with ⟨_, heq⟩ | ⟨_, _, heq⟩ | ⟨heos, hstop, _⟩
    · exact absurd (by rw [heq]; decide) htrigger
    · exact absurd (by rw [heq]; decide) htrigger
    · exact ⟨heos, hstop⟩
  rw [show ({ c with detok := some ((DetokenizerStream.new t skip).pushAll (seen ++ [id])).2 } :
    StopChecker).matcher.stops = params.stopStrings from h.matcher.stops_eq]
  by_cases hstops : params.stopStrings ≠ []
  · rw [if_pos hstops]
    rcases h.matcher.feed piece with ⟨pos, stop, hearliest, hfound, hemit⟩ | ⟨hfound, hholding⟩
    · -- the text known so far is cut before a stop string
      simp only [hfound]
      rw [← hknown] at hearliest hemit
      refine ⟨_, rfl,
        Or.inr ⟨rfl, .trimmed (firstApplies_stopString heos hstop fun hc => ?_) rfl pos
        hearliest ?_⟩⟩
      · exact hc stop hearliest.mem pos hearliest.occurs
      · rw [finish_dropped rfl, List.append_nil]
        exact hemit
    · simp only [hfound]
      rw [← hknown] at hholding
      exact ⟨_, rfl, observeLength_spec rfl ⟨h.eosIds_eq, h.stopTokenIds, h.maxTokens, h.trigger,
        rfl,
        hholding⟩ heos hstop⟩
  · rw [if_neg hstops]
    have hholding := h.matcher.pass (not_not.mp hstops) piece
    rw [← hknown] at hholding
    exact ⟨_, rfl, observeLength_spec rfl ⟨h.eosIds_eq, h.stopTokenIds, h.maxTokens, h.trigger, rfl,
      hholding⟩ heos hstop⟩

/-! ### A whole stream

The ids are observed one by one until a condition applies.  What has been streamed is at each
point the text that is known, without what the buffers hold back. -/

/-- No condition applies to any of the ids `ids` that follow `seen`. -/
def NoneApplies (params : SamplingParams) (eosIds : List Int) (t : Tokenizer) (skip : Bool)
    (seen ids : List Int) : Prop :=
  ∀ front id back, ids = front ++ id :: back →
    ∀ trigger, ¬Applies params eosIds t skip (seen ++ front) id trigger

theorem NoneApplies.cons {ids : List Int}
    (h : ∀ trigger, ¬Applies params eosIds t skip seen id trigger)
    (hrest : NoneApplies params eosIds t skip (seen ++ [id]) ids) :
    NoneApplies params eosIds t skip seen (id :: ids) := by
  intro front id' back hsplit
  cases front with
  | nil =>
      obtain ⟨rfl, -⟩ := List.cons.inj hsplit
      rw [List.append_nil]
      exact h
  | cons a front =>
      obtain ⟨rfl, hids⟩ := List.cons.inj hsplit
      have := hrest front id' back hids
      rwa [List.append_assoc] at this

/-- What observing some more ids comes to. -/
inductive StreamsFrom (params : SamplingParams) (eosIds : List Int) (t : Tokenizer) (skip : Bool)
    (seen : List Int) (emitted : Text) (ids : List Int) (r : Streamed) : Prop
  | whole (hobserved : r.observed = ids) (hlast : r.last = none)
      (hnone : NoneApplies params eosIds t skip seen ids)
      (htext : emitted ++ r.text = knownText t skip (seen ++ ids) ++ tail t skip (seen ++ ids))
  | ended (front : List Int) (id : Int) (back : List Int) (step : StepResult)
      (hids : ids = front ++ id :: back) (hobserved : r.observed = front ++ [id])
      (hlast : r.last = some step) (hnone : NoneApplies params eosIds t skip seen front)
      (hended : Ended params eosIds t skip (seen ++ front) id (emitted ++ r.text) step)

theorem Watching.stream : ∀ {ids seen : List Int} {emitted : Text} {c : StopChecker},
    Watching params eosIds t skip seen emitted c → (∀ id ∈ ids, (t.tokenBytes id).isSome) →
      ∃ r, c.stream seen.length ids = .ok r ∧
        StreamsFrom params eosIds t skip seen emitted ids r := by
  intro ids
  induction ids with
  | nil =>
      intro seen emitted c h _
      refine ⟨_, rfl, .whole rfl rfl (fun front id back hsplit => by simp at hsplit) ?_⟩
      have htrigger : c.trigger ≠ .stopString := by
        rw [h.trigger]
        nofun
      rw [finish_released htrigger h.detok, List.append_nil, h.matcher.split, List.append_assoc]
      rfl
  | cons id ids ih =>
      intro seen emitted c h hin
      obtain ⟨step, hstep, hobserved⟩ := h.observe (hin id (by simp))
      have hcount : (seen ++ [id]).length = seen.length + 1 := by simp
      unfold StopChecker.stream
      rw [hcount] at hstep hobserved
      simp only [hstep]
      rcases hobserved with ⟨hgo, hnone, hwatch⟩ | ⟨hend, hended⟩
      · obtain ⟨r, hr, hrest⟩ := ih hwatch fun id' hid' => hin id' (List.mem_cons_of_mem _ hid')
        rw [hcount] at hr
        rw [hgo, if_neg Bool.false_ne_true, hr]
        refine ⟨_, rfl, ?_⟩
        cases hrest with
        | whole hobs hlast hnones htext =>
            refine .whole (by rw [← hobs]) hlast (hnones.cons hnone) ?_
            rw [List.append_assoc] at htext
            rw [List.append_assoc] at htext
            exact htext
        | ended front id' back step' hids hobs hlast hnones hended =>
            refine .ended (id :: front) id' back step' (by rw [hids]; rfl) (by rw [hobs]; rfl) hlast
              (hnones.cons hnone) ?_
            rw [List.append_assoc, List.append_assoc] at hended
            exact hended
      · rw [hend, if_pos rfl]
        refine ⟨_, rfl, .ended [] id ids step rfl rfl rfl
          (fun front id' back hsplit => by simp at hsplit) ?_⟩
        rw [List.append_nil, ← List.append_assoc]
        exact hended

/-- What the clients of a checker are promised of the text, the ids and the trigger. -/
structure Streams (params : SamplingParams) (eosIds : List Int) (t : Tokenizer) (skip : Bool)
    (ids : List Int) (r : Streamed) : Prop where
  observed : r.observed <+: ids
  complete : r.last = none → r.observed = ids ∧ NoneApplies params eosIds t skip [] ids
  first : ∀ step, r.last = some step → ∃ seen id, r.observed = seen ++ [id] ∧
    NoneApplies params eosIds t skip [] seen ∧
    FirstApplies params eosIds t skip seen id step.trigger
  decoded : (∀ step, r.last = some step → step.trigger ≠ .stopString) →
    t.decode r.observed skip = .ok r.text
  trimmed : ∀ step, r.last = some step → step.trigger = .stopString →
    step.matchedStop ∈ params.stopStrings ∧ Absent params.stopStrings r.text ∧
      ∃ rest, t.decode r.observed skip = .ok (r.text ++ step.matchedStop ++ rest)
  bounded : 0 < params.maxTokens → (r.observed.length : Int) ≤ params.maxTokens ∧
    (params.maxTokens ≤ ids.length → r.last ≠ none)

/-- Ids none of which has finished the stream are fewer than `max_tokens`. -/
private theorem NoneApplies.length_lt {ids : List Int} (hmax : 0 < params.maxTokens)
    (h : NoneApplies params eosIds t skip [] ids) : (ids.length : Int) < params.maxTokens := by
  rcases List.eq_nil_or_concat ids with rfl | ⟨front, id, rfl⟩
  · exact hmax
  · by_contra hc
    refine h front id [] (by simp) .maxTokens ?_
    unfold Applies
    rw [List.nil_append]
    rw [List.concat_eq_append] at hc
    omega

/-- A text cut before the earliest stop string contains none. -/
private theorem absent_take {stops : List Text} {text stop : Text} {pos : Nat}
    (hne : ∀ stop ∈ stops, stop ≠ []) (h : Earliest stops text pos stop) :
    Absent stops (text.take pos) := by
  intro w hw q hq
  have hend := hq.end_le (hne w hw)
  have hpos := List.length_pos_iff.mpr (hne w hw)
  have hle := h.least w hw q (occursAt_take hq)
  rw [List.length_take] at hend
  omega

/-- **What a stop checker streams is what `decode` says**, up to the stop. -/
theorem create_streams (t : Tokenizer) (skip : Bool) (eosIds : List Int) (params : SamplingParams)
    (hne : ∀ stop ∈ params.stopStrings, stop ≠ []) (ids : List Int)
    (hin : ∀ id ∈ ids, (t.tokenBytes id).isSome) :
    ∃ c r, create params eosIds (some t) skip = .ok c ∧ c.stream 0 ids = .ok r ∧
      Streams params eosIds t skip ids r := by
  obtain ⟨c, hc, hwatch⟩ := create_watching eosIds t skip hne
  obtain ⟨r, hr, hstreams⟩ := hwatch.stream hin
  refine ⟨c, r, hc, hr, ?_⟩
  cases hstreams with
  | whole hobs hlast hnone htext =>
      rw [List.nil_append, List.nil_append] at htext
      refine ⟨by rw [hobs], fun _ => ⟨hobs, hnone⟩, fun step hs => ?_, fun _ => ?_,
        fun step hs => ?_,
        fun hmax => ?_⟩
      · rw [hlast] at hs
        cases hs
      · rw [hobs, htext]
        exact decode_eq_knownText skip hin
      · rw [hlast] at hs
        cases hs
      · have hlt := hnone.length_lt hmax
        rw [hobs]
        exact ⟨hlt.le, fun hle => by omega⟩
  | ended front id back step hids hobs hlast hnone hended =>
      have hfirst : FirstApplies params eosIds t skip front id step.trigger := by
        cases hended with
        | released hfirst => exact hfirst
        | trimmed hfirst => exact hfirst
      have hseen : ∀ id' ∈ front ++ [id], (t.tokenBytes id').isSome := by
        intro id' hid'
        refine hin id' ?_
        rw [hids]
        simp only [List.mem_append, List.mem_cons] at hid' ⊢
        tauto
      have hdecode := decode_eq_knownText skip hseen
      refine ⟨⟨back, by rw [hobs, hids]; simp⟩, fun hc => ?_, fun step' hs => ?_, fun hnot => ?_,
        fun step' hs htrigger => ?_, fun hmax => ?_⟩
      · rw [hlast] at hc
        cases hc
      · rw [hlast] at hs
        cases hs
        exact ⟨front, id, hobs, hnone, hfirst⟩
      · cases hended with
        | released _ _ htext =>
            rw [hobs, hdecode]
            exact congrArg _ htext.symm
        | trimmed _ htrigger => exact absurd htrigger (hnot step hlast)
      · rw [hlast] at hs
        cases hs
        cases hended with
        | released _ hnot => exact absurd htrigger hnot
        | trimmed _ _ pos hearliest htext =>
            rw [List.nil_append, List.nil_append] at htext
            rw [List.nil_append] at hearliest
            refine ⟨hearliest.mem, ?_, ?_⟩
            · rw [htext]
              exact absent_take hne hearliest
            · obtain ⟨rest, hrest⟩ := hearliest.occurs
              refine ⟨rest ++ tail t skip (front ++ [id]), ?_⟩
              rw [hobs, hdecode, htext, ← List.append_assoc, List.append_assoc _ _ rest, hrest,
                List.take_append_drop]
      · have hlt := hnone.length_lt hmax
        rw [hobs, hlast]
        refine ⟨?_, fun _ => by simp⟩
        rw [List.length_append, List.length_singleton]
        omega

/-- A tokenizer of two tokens, `a` and `b`, and the stop string `ab`. -/
theorem create_streams_ab :
    ∃ c r, create { stopStrings := [[97, 98]], maxTokens := 3 } [7]
        (some ⟨fun id => if id = 0 then some [97] else if id = 1 then some [98] else none,
          fun _ => false, 2⟩) false = .ok c ∧ c.stream 0 [0, 1, 0] = .ok r ∧
      Streams { stopStrings := [[97, 98]], maxTokens := 3 } [7]
        ⟨fun id => if id = 0 then some [97] else if id = 1 then some [98] else none,
          fun _ => false, 2⟩ false [0, 1, 0] r :=
  create_streams _ false [7] { stopStrings := [[97, 98]], maxTokens := 3 } (by decide) [0, 1, 0]
    (by decide)

end StopChecker

end InferenceEngine
