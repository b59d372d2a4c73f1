/-
Whom a recovery evicts.

The scan takes the latest arrival among the other running sequences, so what it takes is
younger than the member exactly when anything that runs is.  When the member is itself the
latest arrival the scan takes an older sequence, which the recovery evicts all the same.
-/
import InferenceEngine.Proofs.EngineRuns
import InferenceEngine.Runtime.Recovery

namespace InferenceEngine

open Except

namespace EngineLoop

variable {σ α : Type} {e e' : EngineLoop σ α} {id : Nat} {entry : Entry} {S : Services σ α}
  {commands : List Command}

/-! ### The scan

The scan keeps the latest arrival so far and leaves out the member that it is made for. -/

/-- What the scan comes to: the latest arrival among the others, or 0 if no other runs. -/
structure Chosen (e : EngineLoop σ α) (exclude v : Nat) : Prop where
  nobody : v = 0 → ∀ w, w ≠ exclude → ¬e.Runs w
  latest : v ≠ 0 → v ≠ exclude ∧ ∃ entry, e.requests.lookup v = some entry ∧
    entry.seq.state = .running ∧ ∀ w entry', w ≠ exclude → e.requests.lookup w = some entry' →
      entry'.seq.state = .running → entry'.request.arrivalIndex ≤ entry.request.arrivalIndex

/-- The scan, with some sequences still to come. -/
structure Scanning (e : EngineLoop σ α) (exclude : Nat) (rest : List Nat) (best : Nat × Nat) :
    Prop where
  listed : ∀ id ∈ rest, id ∈ e.running
  holds : best.1 ≠ 0 → best.1 ≠ exclude ∧ ∃ entry, e.requests.lookup best.1 = some entry ∧
    entry.seq.state = .running ∧ entry.request.arrivalIndex = best.2
  seen : ∀ w entry', w ≠ exclude → w ∉ rest → e.requests.lookup w = some entry' →
    entry'.seq.state = .running → best.1 ≠ 0 ∧ entry'.request.arrivalIndex ≤ best.2

theorem scanVictim_scanning (hl : e.Listed) {exclude : Nat} {rest : List Nat} {best : Nat × Nat}
    (h : Scanning e exclude (id :: rest) best) :
    (e.scanVictim exclude best id).Returns (Scanning e exclude rest) := by
  have hrest : ∀ id' ∈ rest, id' ∈ e.running :=
    fun id' h' => h.listed id' (List.mem_cons_of_mem _ h')
  have hid : id ∈ e.requests := hl.mem_of_running (h.listed id (by simp))
  obtain ⟨entry, hentry⟩ := IdMap.exists_of_mem hid
  -- a sequence that is no candidate leaves the best as it is
  have hskip : ¬(id ≠ exclude ∧ entry.seq.state = .running) → Scanning e exclude rest best := by
    intro hno
    refine ⟨hrest, h.holds, fun w entry' hw hmem hlook hrun => h.seen w entry' hw ?_ hlook hrun⟩
    intro hc
    rcases List.mem_cons.mp hc with rfl | hc
    · rw [hentry] at hlook
      cases hlook
      exact hno ⟨hw, hrun⟩
    · exact hmem hc
  unfold scanVictim
  by_cases hex : id = exclude
  · rw [if_pos hex]
    exact returns_pure (hskip fun hc => hc.1 hex)
  · rw [if_neg hex, entry_eq hentry, ok_bind]
    by_cases hrun : entry.seq.state = .running
    · rw [if_neg (fun hc => hc hrun)]
      by_cases hlate : best.1 = 0 ∨ best.2 < entry.request.arrivalIndex
      · simp only [if_pos hlate]
        refine returns_pure ⟨hrest, fun _ => ⟨hex, entry, hentry, hrun, rfl⟩, ?_⟩
        intro w entry' hw hmem hlook hrun'
        refine ⟨(hl.positive id hid).ne', ?_⟩
        by_cases hwid : w = id
        · subst hwid
          rw [hentry] at hlook
          cases hlook
          exact le_refl _
        · obtain ⟨hne, hle⟩ := h.seen w entry' hw (by simp [hwid, hmem]) hlook hrun'
          exact hle.trans (hlate.resolve_left hne).le
      · simp only [if_neg hlate]
        rw [not_or, not_lt] at hlate
        refine returns_pure ⟨hrest, h.holds, fun w entry' hw hmem hlook hrun' => ?_⟩
        by_cases hwid : w = id
        · subst hwid
          rw [hentry] at hlook
          cases hlook
          exact hlate
        · exact h.seen w entry' hw (by simp [hwid, hmem]) hlook hrun'
    · rw [if_pos hrun]
      exact returns_pure (hskip fun hc => hrun hc.2)

/-- **`PickPreemptionVictim`** takes the latest arrival among the others. -/
theorem pickVictim_chosen (hl : e.Listed) (exclude : Nat) :
    (e.pickPreemptionVictim exclude).Returns (Chosen e exclude) := by
  unfold pickPreemptionVictim
  refine Returns.bind (Returns.foldlM (Scanning e exclude) ?_ e.running (0, 0) ⟨fun _ h => h,
    fun h => absurd rfl h, ?_⟩) ?_
  · intro id rest best h
    exact scanVictim_scanning hl h
  · intro w entry' _ hmem hlook hrun
    exact absurd (hl.running_of_state hlook hrun) hmem
  · intro best h
    refine returns_pure ⟨fun h0 w hw hruns => ?_, fun hne => ?_⟩
    · obtain ⟨entry', hlook, hrun⟩ := hruns
      exact (h.seen w entry' hw List.not_mem_nil hlook hrun).1 h0
    · obtain ⟨hex, entry, hlook, hrun, harrival⟩ := h.holds hne
      refine ⟨hex, entry, hlook, hrun, fun w entry' hw hlook' hrun' => ?_⟩
      rw [harrival]
      exact (h.seen w entry' hw List.not_mem_nil hlook' hrun').2

/-- **The choice respects the order of arrival** exactly when somebody younger runs or nobody
else does. -/
theorem respectsArrival_iff (hl : e.Listed) (id : Nat) :
    e.RespectsArrival id ↔ ((∃ w, w ≠ id ∧ e.Runs w) → ∃ w, e.Younger id w) := by
  obtain ⟨v, hv, hchosen⟩ := pickVictim_chosen hl id
  have hpick : ∀ v', e.pickPreemptionVictim id = .ok v' ↔ v' = v := by
    intro v'
    rw [hv]
    exact ⟨fun h => (Except.ok.inj h).symm, fun h => h ▸ rfl⟩
  have hyounger : ∀ w, e.Younger id w → w ≠ id ∧ e.Runs w := by
    rintro w ⟨entry, entryw, hl₁, hl₂, hrun, hlt⟩
    refine ⟨?_, entryw, hl₂, hrun⟩
    rintro rfl
    rw [hl₁] at hl₂
    cases hl₂
    exact lt_irrefl _ hlt
  constructor
  · rintro h ⟨w, hne, hruns⟩
    by_contra hnone
    have hgive := h.last.mpr fun v' hv' => hnone ⟨v', hv'⟩
    exact hchosen.nobody ((hpick 0).mp hgive).symm w hne hruns
  · intro h
    refine ⟨?_, ?_, ?_⟩
    · rintro v' ⟨hv', hne⟩
      obtain rfl := (hpick v').mp hv'
      obtain ⟨hex, entryᵥ, hlook, hrun, hmax⟩ := hchosen.latest hne
      obtain ⟨w, entry, entryw, hl₁, hl₂, hrun', hlt⟩ := h ⟨v', hex, entryᵥ, hlook, hrun⟩
      have hw := (hyounger w ⟨entry, entryw, hl₁, hl₂, hrun', hlt⟩).1
      exact ⟨entry, entryᵥ, hl₁, hlook, hrun, lt_of_lt_of_le hlt (hmax w entryw hw hl₂ hrun')⟩
    · intro hgive w hw
      obtain ⟨hne, hruns⟩ := hyounger w hw
      exact hchosen.nobody ((hpick 0).mp hgive).symm w hne hruns
    · intro hnone
      refine (hpick 0).mpr ?_
      by_contra hv0
      obtain ⟨hex, entryᵥ, hlook, hrun, _⟩ := hchosen.latest (Ne.symm hv0)
      obtain ⟨w, hw⟩ := h ⟨v, hex, entryᵥ, hlook, hrun⟩
      exact hnone w hw

/-! ### The lists when a member is refused

What has led up to a refusal moves requests between the lists and changes no arrival. -/

theorem DecodePass.listed {pass : List Nat} (h : DecodePass S commands e pass e')
    (hl : e.Listed) (hq : Queued commands e) : e'.Listed := by
  obtain ⟨e₁, out, e₂, h₁, h₂, h₃, _⟩ := h.reached
  have hl₁ := (retireCancelled_ordered hl hq _ h₁).listed
  have hl₂ := (beforePasses_ordered hl₁ _ h₂).listed
  exact (runBatchPass_steady S true _ e₂ _ h₃).listed hl₂

theorem RecoveryTurn.listed {pass : List Nat} (h : RecoveryTurn S pass e id e') (hl : e.Listed) :
    e'.Listed := by
  obtain ⟨seqs, inputs, preLen, status, e₁, before, after, e₂, entry, cache, cut, _, _, _, hfwd, _,
    hbefore, _, _, _, hcut, rfl⟩ := h.reached
  have hl₁ := (forward_revised S e pass _ _ hfwd).steady.listed hl
  have hl₂ := (Steady.foldlM (recoverOne_steady S false pass preLen) before e₁ _ hbefore).listed hl₁
  have hgeom := truncate_geom cache _ _ _ hcut
  have hrev := (revised_shared e₂ { e₂.shared with pool := cut.2.2 } hgeom).trans
    (revised_setCache _ id cut.2.1)
  exact hrev.steady.listed hl₂

theorem RefusedFrom.listed (h : RefusedFrom S id e e') (hl : e.Listed) : e'.Listed := by
  induction h with
  | refused h =>
      obtain ⟨entry, called, hat⟩ := executeAndDeliver_ensures S _ false id _ h
      exact hat.revised.steady.listed hl
  | again h _ _ hevict _ ih =>
      obtain ⟨entry, called, hat⟩ := executeAndDeliver_ensures S _ false id _ h
      exact ih ((preemptSequence_steady _ _ _ hevict).listed (hat.revised.steady.listed hl))

theorem Refused.listed (h : Refused S commands e id e') (hl : e.Listed)
    (hq : Queued commands e) : e'.Listed := by
  obtain ⟨pass, e₁, e₂, hpass, hturn, hrefused⟩ := h.reached
  exact hrefused.listed (hturn.listed (hpass.listed hl hq))

/-- What the recovery does with a refused member: it evicts a victim and tries the member again,
or it gives the member up. -/
theorem recoverMember_refused {fuel : Nat} (h : e.executeAndDeliver S false id = .ok (false, e')) :
    recoverMember S false id (fuel + 1) e = (e'.pickPreemptionVictim id >>= fun victim =>
      if victim = 0 then e'.fail id noVictimError
      else e'.preemptSequence victim >>= recoverMember S false id fuel) := by
  rw [EngineLoop.recoverMember, h]
  rfl

/-- **A choice that respects the order of arrival** is one of two things: somebody younger is
evicted and the member is tried again, or nobody younger runs and the member is given up. -/
theorem RespectsArrival.recovers {fuel : Nat} (hr : e'.RespectsArrival id) (hl : e'.Listed)
    (h : e.executeAndDeliver S false id = .ok (false, e')) :
    (∃ v, e'.Younger id v ∧ recoverMember S false id (fuel + 1) e
        = e'.preemptSequence v >>= recoverMember S false id fuel) ∨
      (∀ v, ¬e'.Younger id v) ∧
        recoverMember S false id (fuel + 1) e = e'.fail id noVictimError := by
  obtain ⟨v, hv, -⟩ := pickVictim_chosen hl id
  rw [recoverMember_refused h, hv, ok_bind]
  by_cases h0 : v = 0
  · rw [if_pos h0]
    have hgive : e'.GivesUp id := hv.trans (congrArg Except.ok h0)
    exact Or.inr ⟨hr.last.mp hgive, rfl⟩
  · rw [if_neg h0]
    exact Or.inl ⟨v, hr.victim v ⟨hv, h0⟩, rfl⟩

end EngineLoop

open EngineLoop

/-- **Whenever a decode is refused for want of a block**, in any step of any reachable engine,
the recovery respects the order of arrival if and only if the member is alone or somebody
younger runs. -/
theorem Engine.refused_respects_iff {σ α : Type} {S : Services σ α} {state : σ}
    {pool : BlockPool α} {config : EngineConfig} {e : Engine σ α} {id : Nat}
    {e' : EngineLoop σ α} (h : (engineSystem S state pool config).Reachable e)
    (hrefused : Refused S e.queue.commands e.loop id e') :
    e'.RespectsArrival id ↔ ((∃ w, w ≠ id ∧ e'.Runs w) → ∃ w, e'.Younger id w) := by
  have hb := reachable_booked h
  exact respectsArrival_iff (hrefused.listed hb.listed hb.queued) id

/-! ### Two runs

Somebody else drains the pool while two sequences decode.  It depends on which of them is
refused whether the order of arrival is respected. -/

namespace Engine

variable {σ α : Type} {S : Services σ α} {e e' : Engine σ α}

/-- What a list of calls leads to. -/
theorem reachable_of_foldlM {state : σ} {pool : BlockPool α} {config : EngineConfig}
    {calls : List EngineCall} (h : (engineSystem S state pool config).Reachable e)
    (hrun : calls.foldlM (Engine.run S) e = .ok e') :
    (engineSystem S state pool config).Reachable e' := by
  induction calls generalizing e with
  | nil =>
      cases hrun
      exact h
  | cons call calls ih =>
      rw [List.foldlM_cons] at hrun
      obtain ⟨e₁, he₁, hrest⟩ := bind_eq_ok.mp hrun
      exact ih (h.step he₁) hrest

end Engine

namespace EngineLoop

/-- The first refusal of member `b` of the next decode pass, computed. -/
def firstRefusal {σ α : Type} (S : Services σ α) (commands : List Command) (b : Nat)
    (e : EngineLoop σ α) : Checked (Nat × EngineLoop σ α) := do
  let e ← retireCancelled S (e.drainCommands commands)
  let (out, e) ← e.beforePasses
  let e ← runBatchPass S true (out.prefill.map (·.id)) e
  let pass ← e.decodeMembers out.decode
  let seqs ← pass.mapM (e.buildPassInput false)
  match BatchAssembler.flatten true seqs, pass[b]? with
  | .ok inputs, some id => do
      let preLen ← pass.mapM e.cacheLength
      let (logits, e) ← e.forward S pass inputs.makeForwardRequest
      let e ← (pass.take b).foldlM (recoverOne S false pass preLen) e
      match logits, e.requests.lookup id with
      | .error _, some entry =>
        match entry.seq.state, entry.seq.cache with
        | .running, some cache => do
            let (_, cache, pool) ← cache.truncate (preForwardLength pass preLen id) e.shared.pool
            let e := { e with shared := { e.shared with pool := pool } }.setCache id cache
            let (advanced, e) ← e.executeAndDeliver S false id
            if advanced then throw .outOfFuel
            pure (id, e)
        | _, _ => throw .outOfFuel
      | _, _ => throw .outOfFuel
  | _, _ => throw .outOfFuel

theorem firstRefusal_refused {σ α : Type} {S : Services σ α} {commands : List Command} {b : Nat}
    {e : EngineLoop σ α} : (firstRefusal S commands b e).Ensures fun r =>
      Refused S commands e r.1 r.2 := by
  unfold firstRefusal
  refine Ensures.bind (ensures_self _) fun e₁ h₁ => Ensures.bind (ensures_self _) ?_
  rintro ⟨out, e₂⟩ h₂
  refine Ensures.bind (ensures_self _) fun e₃ h₃ => Ensures.bind (ensures_self _) fun pass h₄ => ?_
  refine Ensures.bind (ensures_self _) fun seqs hseqs => ?_
  cases hflat : BatchAssembler.flatten true seqs with
  | error status => exact ensures_throw _
  | ok inputs =>
      cases hid : pass[b]? with
      | none => exact ensures_throw _
      | some id =>
          refine Ensures.bind (ensures_self _) fun preLen hpre => Ensures.bind (ensures_self _) ?_
          rintro ⟨logits, e₄⟩ hfwd
          refine Ensures.bind (ensures_self _) fun e₅ hbefore => ?_
          cases logits with
          | ok logits => exact ensures_throw _
          | error status =>
              cases hl : e₅.requests.lookup id with
              | none => exact ensures_throw _
              | some entry =>
                  simp only
                  cases hstate : entry.seq.state <;> cases hcache : entry.seq.cache <;>
                    try exact ensures_throw _
                  rename_i cache
                  refine Ensures.bind (ensures_self _) fun cut hcut => ?_
                  refine Ensures.bind (ensures_self _) ?_
                  rintro ⟨advanced, e₆⟩ htry
                  cases advanced with
                  | true => exact ensures_throw _
                  | false =>
                      refine ensures_pure ⟨pass, e₃, _, ⟨e₁, out, e₂, h₁, h₂, h₃, h₄⟩, ⟨seqs,
                        inputs, preLen, status, e₄, pass.take b, pass.drop (b + 1), e₅, entry,
                        cache, cut, hseqs, hflat, hpre, hfwd, ?_, hbefore, hl, hstate, hcache,
                        hcut, rfl⟩, .refused htry⟩
                      obtain ⟨hlt, hget⟩ := List.getElem?_eq_some_iff.mp hid
                      rw [← hget, ← List.drop_eq_getElem_cons hlt, List.take_append_drop]

end EngineLoop

/-- A block of keys or values of one layer, one head and one dimension. -/
def zeroRows (count : Nat) : Tensor Int := ⟨[count, 1, 1], .float32, true, fun _ => 0⟩

/-- A model of one layer that gives the one token of its vocabulary for an answer.  If `drains`,
somebody takes a block while it decodes a batch. -/
def zeroModel (drains : Bool) : Model Unit Int where
  geometry := ⟨1, 1, 1, .float32⟩
  vocabSize := 1
  maxPositionEmbeddings := 64
  forward := fun state request _ =>
    (⟨(if drains && request.batched && request.seqs.all fun s => s.cache.length ≠ 0 then
          [.other .allocate] else []) ++
        request.seqs.mapIdx fun b s =>
          .append b 0 (zeroRows s.tokenIds.length) (zeroRows s.tokenIds.length),
      .ok ⟨[request.seqs.length, 1], .float32, true, fun _ => .finite 0⟩⟩, state)

/-- The model that answers zero and a sampler that always draws id 0. -/
def zeroServices (drains : Bool) : Services Unit Int where
  model := zeroModel drains
  sampleRow := fun _ _ _ _ _ => .ok {}
  order := id
  order_perm := fun _ => .refl _

/-- A greedy request with a prompt of some length. -/
def zeroRequest (length : Nat) : Request where
  promptIds := List.replicate length 0
  params := { temperature := .finite 0, maxTokens := 4 }
  eosIds := []
  tokenizer := none

/-- Three blocks of eight tokens. -/
def zeroPool : BlockPool Int := .new ⟨1, 1, 1, .float32⟩ 8 3

/-- Four sequences and 64 tokens a step. -/
def zeroConfig : EngineConfig := ⟨4, 64, 0⟩

/-- An engine that has made one step with two requests, and the first refusal of member `b` in
the next. -/
def starved (first second b : Nat) : Checked (Engine Unit Int × Nat × EngineLoop Unit Int) :=
  match Engine.create (zeroServices true) () zeroPool zeroConfig with
  | .error status => .error (.checkFailed status.message)
  | .ok e => do
      let e ← [EngineCall.submit (zeroRequest first) 0, .submit (zeroRequest second) 0,
        .step].foldlM (Engine.run (zeroServices true)) e
      let r ← firstRefusal (zeroServices true) e.queue.commands b e.loop
      pure (e, r)

theorem starved_refused (first second b : Nat) :
    (starved first second b).Ensures fun r =>
      (engineSystem (zeroServices true) () zeroPool zeroConfig).Reachable r.1 ∧
        Refused (zeroServices true) r.1.queue.commands r.1.loop r.2.1 r.2.2 := by
  unfold starved
  cases he : Engine.create (zeroServices true) () zeroPool zeroConfig with
  | error status => exact ensures_error _
  | ok e =>
      refine Ensures.bind (ensures_self _) fun e₁ he₁ => Ensures.bind firstRefusal_refused ?_
      intro r hr
      exact ensures_pure ⟨Engine.reachable_of_foldlM (.init he) he₁, hr⟩

/-- The arrival and the state of a request. -/
def EngineLoop.standing (e : EngineLoop Unit Int) (id : Nat) : Option (Nat × SeqState) :=
  (e.requests.lookup id).map fun entry => (entry.request.arrivalIndex, entry.seq.state)

theorem standing_eq_some {e : EngineLoop Unit Int} {id : Nat} {p : Nat × SeqState}
    (h : e.standing id = some p) : ∃ entry, e.requests.lookup id = some entry ∧
      entry.request.arrivalIndex = p.1 ∧ entry.seq.state = p.2 := by
  obtain ⟨entry, hl, rfl⟩ := Option.map_eq_some_iff.mp h
  exact ⟨entry, hl, rfl, rfl⟩

/-- The first of two requests needs a block that is gone: the second, which is younger, makes
room for it. -/
theorem refused_respects_older : ∃ e id e',
    (engineSystem (zeroServices true) () zeroPool zeroConfig).Reachable e ∧
      Refused (zeroServices true) e.queue.commands e.loop id e' ∧ e'.RespectsArrival id := by
  obtain ⟨⟨e, id, e'⟩, hrun, htest⟩ := exists_of_test (starved 8 1 0)
    (fun r => r.2.1 = 1 && r.2.2.standing 1 = some (0, .running) &&
      r.2.2.standing 2 = some (1, .running)) (by decide +kernel)
  obtain ⟨hreach, hrefused⟩ := starved_refused 8 1 0 _ hrun
  simp only [Bool.and_eq_true, decide_eq_true_eq] at htest
  obtain ⟨⟨rfl, h₁⟩, h₂⟩ := htest
  obtain ⟨entry₁, hl₁, harr₁, _⟩ := standing_eq_some h₁
  obtain ⟨entry₂, hl₂, harr₂, hrun₂⟩ := standing_eq_some h₂
  refine ⟨e, 1, e', hreach, hrefused, (Engine.refused_respects_iff hreach hrefused).mpr fun _ => ?_⟩
  refine ⟨2, entry₁, entry₂, hl₁, hl₂, hrun₂, ?_⟩
  rw [harr₁, harr₂]
  decide

/-- **An older sequence is evicted for a younger one.**  The second of two requests needs a block
that is gone, and the first, which has already been given its token, makes room for it. -/
theorem refused_evicts_older : ¬∀ (e : Engine Unit Int) (id : Nat) (e' : EngineLoop Unit Int),
    (engineSystem (zeroServices true) () zeroPool zeroConfig).Reachable e →
      Refused (zeroServices true) e.queue.commands e.loop id e' → e'.RespectsArrival id := by
  intro hall
  obtain ⟨⟨e, id, e'⟩, hrun, htest⟩ := exists_of_test (starved 1 8 1)
    (fun r => r.2.1 = 2 && r.2.2.standing 1 = some (0, .running) &&
      r.2.2.standing 2 = some (1, .running) && r.2.2.pickPreemptionVictim 2 = .ok 1)
    (by decide +kernel)
  obtain ⟨hreach, hrefused⟩ := starved_refused 1 8 1 _ hrun
  simp only [Bool.and_eq_true, decide_eq_true_eq] at htest
  obtain ⟨⟨⟨rfl, h₁⟩, h₂⟩, hvictim⟩ := htest
  obtain ⟨entry₁, hl₁, harr₁, _⟩ := standing_eq_some h₁
  obtain ⟨entry₂, hl₂, harr₂, _⟩ := standing_eq_some h₂
  obtain ⟨entry, entryᵥ, hl, hlᵥ, _, hlt⟩ :=
    (hall e 2 e' hreach hrefused).victim 1 ⟨hvictim, by decide⟩
  rw [hl₂] at hl
  rw [hl₁] at hlᵥ
  cases hl
  cases hlᵥ
  rw [harr₁, harr₂] at hlt
  exact absurd hlt (by decide)

end InferenceEngine
