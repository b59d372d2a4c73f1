/-
A request among others is served as if it were alone.

A step handles its members through lists, maps and one pool.  Seen from one request it is little:
the request waits, or has one turn, which its own tokens and its own log decide; it may be
evicted before or after; and when its sequence has ended its channel is closed and it is gone.

With a model whose rows are a function of a sequence's own tokens, each turn is the next turn of
the sequence alone.  So whatever is submitted and cancelled beside it, however the batches are
made and whoever is evicted when, its channel gets what `solo` says.
-/
import InferenceEngine.Proofs.EngineAccounts
import InferenceEngine.Proofs.EngineChannels
import InferenceEngine.Runtime.Turn

namespace InferenceEngine

open Except BlockPool

/-! ### Turns and cores

The core of a sequence is what a client could see of it.  Its place in the engine, that is its
cache, its state and its counter, has no influence on what a turn makes of the core. -/

namespace Sequence

variable {s : Sequence} {sampleRow : SampleRow} {promptIds : List Int} {t : Turn}

/-- Delivering a token leaves a sequence's place alone, but for the counter. -/
theorem deliver_core (h : s.state = .running) (next : SampleResult) :
    (s.deliver next).2 = (s.core.deliver next).2 ∧
      (s.deliver next).1.core = (s.core.deliver next).1.core ∧
      (s.deliver next).1.finishInfo = (s.core.deliver next).1.finishInfo := by
  unfold deliver core
  simp only [appendGenerated, numGenerated]
  cases (s.stop.observe next.token ↑(s.generatedIds ++ [next.token]).length).1 with
  | error status => exact ⟨rfl, rfl, rfl⟩
  | ok step =>
      by_cases hf : step.finished = true
      · simp only [if_pos hf]
        exact ⟨trivial, rfl, rfl⟩
      · simp only [if_neg hf]
        refine ⟨trivial, trivial, ?_⟩
        unfold finishInfo
        rw [h]

/-- **A turn does not depend on the place of a sequence.** -/
theorem turn_core (h : s.state = .running) (sampleRow : SampleRow) (promptIds : List Int)
    (t : Turn) :
    (s.turn sampleRow promptIds t).2 = (s.core.turn sampleRow promptIds t).2 ∧
      (s.turn sampleRow promptIds t).1.core = (s.core.turn sampleRow promptIds t).1.core ∧
      (s.turn sampleRow promptIds t).1.finishInfo
        = (s.core.turn sampleRow promptIds t).1.finishInfo := by
  cases t with
  | waits =>
      refine ⟨rfl, rfl, ?_⟩
      unfold turn finishInfo core
      rw [h]
  | refused status => exact ⟨rfl, rfl, rfl⟩
  | answered row =>
      unfold turn answer
      simp only
      rw [show s.core.sampler = s.sampler from rfl,
        show s.core.generatedIds = s.generatedIds from rfl]
      cases s.sampler.sampleWithLogprobs sampleRow row ⟨promptIds, s.generatedIds⟩ with
      | error status => exact ⟨rfl, rfl, rfl⟩
      | ok next => exact deliver_core h next

theorem finishInfo_state {s s' : Sequence} (h : s.finishInfo = s'.finishInfo) :
    s.state = s'.state := congrArg FinishInfo.terminal h

theorem isTerminal_eq {s s' : Sequence} (h : s.state = s'.state) :
    s.isTerminal = s'.isTerminal := by
  unfold isTerminal
  rw [h]

theorem isTerminal_failed (s : Sequence) (status : Status) :
    (s.failed status).isTerminal = true := by
  simp [isTerminal, failed]

/-- A sequence that runs still runs after its turn, or has ended. -/
theorem turn_state (h : s.state = .running) (sampleRow : SampleRow) (promptIds : List Int)
    (t : Turn) :
    (s.turn sampleRow promptIds t).1.state = .running ∨
      (s.turn sampleRow promptIds t).1.isTerminal = true := by
  cases t with
  | waits => exact Or.inl h
  | refused status => exact Or.inr (isTerminal_failed s status)
  | answered row =>
      unfold turn answer
      simp only
      cases s.sampler.sampleWithLogprobs sampleRow row ⟨promptIds, s.generatedIds⟩ with
      | error status => exact Or.inr (isTerminal_failed s status)
      | ok next =>
          rcases (deliver_cases h next).2.2 with ⟨hst, _⟩ | ⟨hst, _⟩ | ⟨hst, _⟩
          · exact Or.inl hst
          · exact Or.inr (by simp [isTerminal, hst])
          · exact Or.inr (by simp [isTerminal, hst])

@[simp] theorem core_generatedIds (s : Sequence) : s.core.generatedIds = s.generatedIds := rfl

@[simp] theorem core_core (s : Sequence) : s.core.core = s.core := rfl

theorem core_ensureCache (s : Sequence) (st : SeqState) :
    ({ s.ensureCache with state := st } : Sequence).core = s.core := by
  unfold ensureCache core
  cases s.cache <;> rfl

end Sequence

namespace EngineLoop

variable {σ α : Type} {e e' e₀ e₁ e₂ e₃ : EngineLoop σ α} {id : Nat}
  {entry : Entry} {S : Services σ α} {gone : List Nat} {ops : List ChannelOp}

/-! ### Retirement, seen from one request

A request whose sequence has ended is closed with its descriptor and gone.  Any other is left
alone. -/

theorem closeEnded_filter (e : EngineLoop σ α) {gone : List Nat} (hnd : gone.Nodup) (id : Nat) :
    (gone.flatMap e.closeEnded).filter (·.id = id) = if id ∈ gone then e.closeEnded id else [] := by
  have hone : ∀ k, (e.closeEnded k).filter (·.id = id) = if k = id then e.closeEnded k else [] := by
    intro k
    unfold closeEnded
    cases e.requests.lookup k with
    | none => simp
    | some entry => by_cases hk : k = id <;> simp [ChannelOp.id, hk]
  induction gone with
  | nil => rfl
  | cons k rest ih =>
      obtain ⟨hk, hrest⟩ := List.nodup_cons.mp hnd
      rw [List.flatMap_cons, List.filter_append, hone, ih hrest]
      by_cases hid : k = id
      · subst hid
        rw [if_pos rfl, if_neg hk, if_pos List.mem_cons_self, List.append_nil]
      · rw [if_neg hid, List.nil_append]
        simp [Ne.symm hid]

/-- What the end of a step makes of one request. -/
theorem Departed.request (h : Departed e gone (gone.flatMap e.closeEnded) e')
    (hnd : gone.Nodup) (hgone : ∀ id, id ∈ gone ↔ e.HasEnded id)
    (hl : e.requests.lookup id = some entry) :
    (entry.seq.isTerminal = true → id ∉ e'.requests ∧
        e'.opsOf id = e.opsOf id ++ [.close id entry.seq.finishInfo]) ∧
      (entry.seq.isTerminal = false → e'.requests.lookup id = some entry ∧
        e'.opsOf id = e.opsOf id) := by
  have hops : e'.opsOf id = e.opsOf id ++ if id ∈ gone then e.closeEnded id else [] := by
    unfold opsOf
    rw [h.outbox, List.filter_append, closeEnded_filter e hnd id]
  have hiff : id ∈ gone ↔ entry.seq.isTerminal = true := by
    rw [hgone]
    refine ⟨?_, fun hterm => ⟨entry, hl, hterm⟩⟩
    rintro ⟨entry', hl', hterm⟩
    rw [hl] at hl'
    cases hl'
    exact hterm
  refine ⟨fun hterm => ⟨fun hc => ?_, ?_⟩, fun hterm => ⟨?_, ?_⟩⟩
  · obtain ⟨entry', hl'⟩ := IdMap.exists_of_mem hc
    exact ((h.lookup id entry').mp hl').1 (hiff.mpr hterm)
  · rw [hops, if_pos (hiff.mpr hterm)]
    unfold closeEnded
    rw [hl]
    rfl
  · exact (h.lookup id entry).mpr ⟨fun hc => by simp [hiff.mp hc] at hterm, hl⟩
  · rw [hops, if_neg fun hc => by simp [hiff.mp hc] at hterm, List.append_nil]

/-! ### A pass, seen from one request

A member has its turn, and anybody may be evicted.  Nobody else changes. -/

variable [Zero α] {may : Answers α} {prefill : Bool} {ms : List (Nat × Entry)}
  {turn prefilled decoded : Nat → Turn} {evicted : List Nat} {out : SchedulerOutput} {t : Turn}
  {seq : Sequence} {g₀ g : KvLog α}

/-- What the turn `t` has made of a sequence whose log was `g₀`: it is `seq` now, and its log
`g`.  It may have been evicted as well. -/
structure Turned (S : Services σ α) (may : Answers α) (g₀ : KvLog α) (entry : Entry)
    (prefill : Bool) (t : Turn) (seq : Sequence) (g : KvLog α) : Prop where
  core : seq.core = (entry.after S.sampleRow t).core
  terminal : seq.isTerminal = (entry.after S.sampleRow t).isTerminal
  finish : seq.isTerminal = true → seq.finishInfo = (entry.after S.sampleRow t).finishInfo
  running : seq.state = .running → ∃ row, t = .answered row ∧
    may g₀ (entry.passTokens prefill) (.ok (row, g))
  answered : ∀ row, t = .answered row → ∃ g, may g₀ (entry.passTokens prefill) (.ok (row, g))
  refused : ∀ status, t = .refused status → ∃ cause,
    may g₀ (entry.passTokens prefill) (.error cause) ∧
      (cause = status ∨ cause.code = .resourceExhausted)

omit [Zero α] in
theorem isTerminal_running {s : Sequence} (h : s.state = .running) : s.isTerminal = false := by
  simp [Sequence.isTerminal, h]

omit [Zero α] in
/-- Eviction changes nothing but a sequence's place. -/
theorem Turned.evict (h : Turned S may g₀ entry prefill t seq g) (hrun : seq.state = .running)
    (g' : KvLog α) : Turned S may g₀ entry prefill t seq.evicted g' := by
  have hstop : seq.evicted.isTerminal = false := by simp [Sequence.isTerminal, Sequence.evicted]
  refine ⟨h.core, ?_, fun hc => absurd hc (by simp [hstop]), fun hc => ?_, h.answered, h.refused⟩
  · rw [← h.terminal, hstop, isTerminal_running hrun]
  · simp [Sequence.evicted] at hc

omit [Zero α] in
/-- A sequence that has no turn. -/
theorem Turned.idle (hstate : entry.seq.state ≠ .running) :
    Turned S may g₀ entry prefill .waits entry.seq g :=
  ⟨rfl, rfl, fun _ => rfl, fun hc => absurd hc hstate, fun _ hc => by simp at hc,
    fun _ hc => by simp at hc⟩

omit [Zero α] in
/-- What a pass has made of a request whose turn has come. -/
theorem After.turned (h : After S True may prefill entry g₀ t (id ∈ evicted) (id ∈ []) seq g)
    (hrun : entry.seq.state = .running) (hturn : id ∈ evicted ∨ t ≠ .waits) :
    Turned S may g₀ entry prefill t seq g := by
  have hterm := Sequence.turn_state hrun S.sampleRow entry.request.promptIds t
  by_cases hgone : id ∈ evicted
  · obtain ⟨hafter, hseq⟩ := h.evicted hgone
    have hstop : seq.isTerminal = false := by simp [hseq, Sequence.isTerminal, Sequence.evicted]
    refine ⟨by rw [hseq]; rfl, ?_, fun hc => absurd hc (by simp [hstop]), fun hc => ?_,
      h.answered trivial, fun status ht => ?_⟩
    · rw [hstop, isTerminal_running hafter]
    · simp [hseq, Sequence.evicted] at hc
    · rw [ht] at hafter
      cases hafter
  · have hwaits := hturn.resolve_left hgone
    obtain ⟨hkept, _⟩ := h.kept hgone
    have hstate : seq.state = (entry.after S.sampleRow t).state := by rw [hkept]
    have hserved := (h.served trivial hgone hwaits).lawful
    refine ⟨by rw [hkept]; rfl, Sequence.isTerminal_eq hstate, fun _ => by rw [hkept]; rfl,
      fun hc => ?_, h.answered trivial, fun status ht => ?_⟩
    · cases t with
      | waits => exact absurd rfl hwaits
      | refused status =>
          rw [hstate] at hc
          cases hc
      | answered row => exact ⟨row, rfl, hserved⟩
    · rw [ht] at hserved
      rcases hserved with hmay | ⟨_, _, cause, hcode, hmay⟩
      · exact ⟨status, hmay, Or.inl rfl⟩
      · exact ⟨cause, hmay, Or.inr hcode⟩

/-- A request that does not run is as it was after a pass of others. -/
theorem Turning.asleep (h : Turning S may prefill e₀ ms turn evicted [] e) (hm : e₀.Members ms)
    (hid : id ∉ ms.map (·.1)) (hl : e₀.requests.lookup id = some entry)
    (hstate : entry.seq.state ≠ .running) : e.requests.lookup id = some entry :=
  (h.untouched hid (fun hc => hstate (h.ran hm hc hl)) hl).1

/-- What a pass posts to a channel. -/
theorem Turning.opsOf_eq (h : Turning S may prefill e₀ ms turn evicted [] e)
    (hl : e₀.requests.lookup id = some entry) : e.opsOf id = e₀.opsOf id
      ++ (entry.item S.sampleRow (turn id)).toList.map (.push id) := by
  have hout := h.outbox id
  unfold turnOps at hout
  rw [hl] at hout
  exact hout

/-- A member of a pass, after the pass. -/
theorem Turning.turned (h : Turning S may prefill e₀ ms turn evicted [] e) (hm : e₀.Members ms)
    (hid : id ∈ ms.map (·.1)) (hl : e₀.requests.lookup id = some entry) :
    ∃ seq, e.requests.lookup id = some { entry with seq := seq } ∧
      Turned S may (entry.seq.held.log e₀.shared.pool) entry prefill (turn id) seq
        (seq.held.log e.shared.pool) := by
  obtain ⟨m, hin, rfl⟩ := List.mem_map.mp hid
  have hrun := (hm.ready m hin).1
  rw [hm.entries m hin] at hl
  cases hl
  obtain ⟨seq, hseq, hafter⟩ := h.entry m.1 m.2 (hm.entries m hin)
  exact ⟨seq, hseq, hafter.turned hrun ((h.inside m.1 hid).resolve_left List.not_mem_nil)⟩

/-- A request that is no member of a pass may be evicted in it. -/
theorem Turning.bystander {seq' : Sequence}
    (h : Turning S may prefill e₀ ms turn evicted [] e) (hm : e₀.Members ms)
    (hid : id ∉ ms.map (·.1)) (hl : e₀.requests.lookup id = some { entry with seq := seq' })
    (ht : Turned S may g₀ entry true t seq' (seq'.held.log e₀.shared.pool)) :
    ∃ seq, e.requests.lookup id = some { entry with seq := seq } ∧
      Turned S may g₀ entry true t seq (seq.held.log e.shared.pool) := by
  by_cases hgone : id ∈ evicted
  · obtain ⟨seq, hseq, hafter⟩ := h.entry id _ hl
    have hwaits := h.outside id hid
    rw [hwaits] at hafter
    have hrun : seq'.state = .running := h.ran hm hgone hl
    have heq : seq = seq'.evicted := (hafter.evicted hgone).2
    refine ⟨seq, hseq, ?_⟩
    rw [heq]
    exact ht.evict hrun _
  · obtain ⟨hseq, hlog⟩ := h.untouched hid hgone hl
    refine ⟨seq', hseq, ?_⟩
    have hsame : seq'.held.log e.shared.pool = seq'.held.log e₀.shared.pool := hlog
    rw [hsame]
    exact ht

/-! ### A step, seen from one request

The two passes give a request one turn at most, because whoever is prefilled does not decode in
the same step. -/

/-- What a step makes of a live request: `t` is the turn it has, with what its log and its tokens
have been answered, and what follows for its channel and its place. -/
structure Advanced (S : Services σ α) (may : Answers α) (e : EngineLoop σ α) (id : Nat)
    (entry : Entry) (prefill : Bool) (t : Turn) (e' : EngineLoop σ α) : Prop where
  place : if prefill then entry.seq.Parked else t = .waits ∨ entry.seq.Ready
  answered : ∀ row, t = .answered row → ∃ g, may (entry.seq.held.log e.shared.pool)
    (entry.passTokens prefill) (.ok (row, g))
  refused : ∀ status, t = .refused status → ∃ cause, may (entry.seq.held.log e.shared.pool)
    (entry.passTokens prefill) (.error cause) ∧ (cause = status ∨ cause.code = .resourceExhausted)
  ops : e'.opsOf id = e.opsOf id
    ++ (entry.seq.core.turn S.sampleRow entry.request.promptIds t).2.toList.map (.push id)
    ++ if (entry.seq.core.turn S.sampleRow entry.request.promptIds t).1.isTerminal then
        [.close id (entry.seq.core.turn S.sampleRow entry.request.promptIds t).1.finishInfo]
      else []
  ended : (entry.seq.core.turn S.sampleRow entry.request.promptIds t).1.isTerminal = true →
    id ∉ e'.requests
  live : (entry.seq.core.turn S.sampleRow entry.request.promptIds t).1.isTerminal = false →
    ∃ seq, e'.requests.lookup id = some { entry with seq := seq } ∧
      seq.core = (entry.seq.core.turn S.sampleRow entry.request.promptIds t).1.core ∧
      (seq.state = .running → ∃ row, t = .answered row ∧
        may (entry.seq.held.log e.shared.pool) (entry.passTokens prefill)
          (.ok (row, seq.held.log e'.shared.pool)))

omit [Zero α] in
/-- A turn comes to the same wherever the sequence that has it stands. -/
theorem after_core {entry entry' : Entry} {sampleRow : SampleRow}
    (hcore : entry'.seq.core = entry.seq.core) (hrequest : entry'.request = entry.request)
    (ht : t = .waits ∨ entry'.seq.state = .running) :
    entry'.item sampleRow t = (entry.seq.core.turn sampleRow entry.request.promptIds t).2 ∧
      (entry'.after sampleRow t).core
        = (entry.seq.core.turn sampleRow entry.request.promptIds t).1.core ∧
      (entry'.seq.isTerminal = false → (entry'.after sampleRow t).isTerminal
        = (entry.seq.core.turn sampleRow entry.request.promptIds t).1.isTerminal) ∧
      ((entry'.after sampleRow t).isTerminal = true → entry'.seq.isTerminal = false →
        (entry'.after sampleRow t).finishInfo
          = (entry.seq.core.turn sampleRow entry.request.promptIds t).1.finishInfo) := by
  unfold Entry.item Entry.after
  rw [hrequest, ← hcore]
  rcases ht with rfl | hrun
  · refine ⟨rfl, rfl, fun h => h.trans (isTerminal_running rfl).symm, fun h h' => ?_⟩
    rw [show (entry'.seq.turn sampleRow entry.request.promptIds .waits).1 = entry'.seq from rfl,
      h'] at h
    exact absurd h Bool.false_ne_true
  · obtain ⟨hitem, hturn, hfinish⟩ := Sequence.turn_core hrun sampleRow
      entry.request.promptIds t
    exact ⟨hitem, hturn, fun _ => Sequence.isTerminal_eq (Sequence.finishInfo_state hfinish),
      fun _ _ => hfinish⟩

/-- From the end of the passes to the end of the step. -/
theorem Executed.advanced (entry₁ : Entry)
    (hex : Executed S may e out e₁ prefilled e₂ decoded evicted e₃ gone e')
    (hplace : if prefill then entry.seq.Parked else t = .waits ∨ entry.seq.Ready)
    (hcore : entry₁.seq.core = entry.seq.core) (hrequest : entry₁.request = entry.request)
    (hcancel : entry₁.cancelRequested = entry.cancelRequested)
    (hwhere : t = .waits ∨ entry₁.seq.state = .running) (hlive : entry₁.seq.isTerminal = false)
    (hl : e₃.requests.lookup id = some { entry₁ with seq := seq })
    (ht : Turned S may (entry.seq.held.log e.shared.pool) entry₁ prefill t seq
      (seq.held.log e₃.shared.pool))
    (hops : e₃.opsOf id = e.opsOf id ++ (entry₁.item S.sampleRow t).toList.map (.push id)) :
    Advanced S may e id entry prefill t e' := by
  have htokens : entry₁.passTokens prefill = entry.passTokens prefill := by
    have hgenerated := congrArg Sequence.generatedIds hcore
    simp only [Sequence.core_generatedIds] at hgenerated
    unfold Entry.passTokens
    rw [hrequest, hgenerated]
  obtain ⟨hitem, hturn, hterm, hfinish⟩ := after_core hcore hrequest hwhere
  have hseqterm : seq.isTerminal
      = (entry.seq.core.turn S.sampleRow entry.request.promptIds t).1.isTerminal := by
    rw [ht.terminal]
    exact hterm hlive
  obtain ⟨hclosed, hkept⟩ := hex.departed.request hex.nodup hex.ended hl
  refine ⟨hplace, fun row h => ?_, fun status h => ?_, ?_, fun h => ?_, fun h => ?_⟩
  · rw [← htokens]
    exact ht.answered row h
  · rw [← htokens]
    exact ht.refused status h
  · rw [← hitem, ← hseqterm]
    by_cases hc : seq.isTerminal = true
    · rw [if_pos hc, (hclosed hc).2, hops, ← hfinish (ht.terminal ▸ hc) hlive, ← ht.finish hc]
    · rw [if_neg hc, (hkept (Bool.eq_false_iff.mpr hc)).2, hops, List.append_nil]
  · exact (hclosed (hseqterm.trans h)).1
  · refine ⟨seq, ?_, ht.core.trans hturn, fun hrun => ?_⟩
    · rw [(hkept (hseqterm.trans h)).1, hrequest, hcancel]
    · obtain ⟨row, hrow, hmay⟩ := ht.running hrun
      refine ⟨row, hrow, ?_⟩
      rw [PagedKvCache.log_of_store hex.departed.store, ← htokens]
      exact hmay

/-- **A step, seen from one request.** -/
theorem Executed.request (hex : Executed S may e out e₁ prefilled e₂ decoded evicted e₃ gone e')
    (h : e.Alone S) (hl : e.requests.lookup id = some entry) :
    Advanced S may e id entry (decide (id ∈ out.prefill.map (·.id)))
      (if id ∈ out.prefill.map (·.id) then prefilled id else decoded id) e' := by
  obtain ⟨ms, hms, hm, hpre⟩ := hex.prefill
  obtain ⟨ms', hms', hm', hdec⟩ := hex.decode
  have hprep := hex.prepared
  have hs := h.settled
  have hout : e₁.opsOf id = e.opsOf id := by
    unfold opsOf
    rw [hprep.arranged.outbox]
  have hlive := (hs.not_terminal hl)
  by_cases hin : id ∈ out.prefill.map (·.id)
  · -- it is admitted, has its turn in the prefill pass, and may be evicted in the decode pass
    rw [if_pos hin, decide_eq_true hin]
    obtain ⟨entry', hl', hparked, hl₁⟩ := hprep.taken hs hin
    rw [hl] at hl'
    cases hl'
    have hdecode : id ∉ ms'.map (·.1) := by
      rw [hms']
      intro hc
      obtain ⟨_, _, _, _, hnot⟩ := hprep.kept hs hc
      exact hnot hin
    obtain ⟨seq₂, hl₂, ht₂⟩ := hpre.turned hm (hms ▸ hin) hl₁
    obtain ⟨seq₃, hl₃, ht₃⟩ := hdec.bystander hm' hdecode hl₂ ht₂
    have hheld : entry.seq.ensureCache.held.log e₁.shared.pool
        = entry.seq.held.log e.shared.pool := by
      rw [hparked.held_eq]
      unfold Sequence.held
      rw [hparked.ensured]
      exact PagedKvCache.new_log _ _
    have hheld' : ({ entry.seq.ensureCache with state := .running } : Sequence).held.log
        e₁.shared.pool = entry.seq.held.log e.shared.pool := hheld
    rw [hheld'] at ht₃
    refine Executed.advanced
      { entry with seq := { entry.seq.ensureCache with state := .running } } hex hparked
        (entry.seq.core_ensureCache _) rfl rfl (Or.inr rfl)
      (isTerminal_running rfl) hl₃ ht₃ ?_
    rw [hdec.opsOf_eq hl₂, hdec.outside id hdecode, hpre.opsOf_eq hl₁, hout]
    exact List.append_nil _
  rw [if_neg hin, decide_eq_false hin]
  have hprefill : id ∉ ms.map (·.1) := hms ▸ hin
  by_cases hdecode : id ∈ out.decode
  · -- it runs, and the prefill pass does not concern it
    obtain ⟨entry', hl', hready, hl₁, _⟩ := hprep.kept hs hdecode
    rw [hl] at hl'
    cases hl'
    obtain ⟨hl₂, hlog₂⟩ := hpre.untouched hprefill List.not_mem_nil hl₁
    obtain ⟨seq₃, hl₃, ht₃⟩ := hdec.turned hm' (hms' ▸ hdecode) hl₂
    rw [hlog₂, PagedKvCache.log_of_store hprep.arranged.store] at ht₃
    refine Executed.advanced entry hex (Or.inr hready) rfl rfl rfl
      (Or.inr hready.1) hlive hl₃ ht₃ ?_
    rw [hdec.opsOf_eq hl₂, hpre.opsOf_eq hl₁, hpre.outside id hprefill, hout]
    exact congrArg (· ++ _) (List.append_nil _)
  · -- it waits, or is evicted to make room
    have hwaits := hdec.outside id (hms' ▸ hdecode)
    rw [hwaits]
    have hl₁ : ∃ seq, e₁.requests.lookup id = some { entry with seq := seq } ∧
        seq.core = entry.seq.core ∧ seq.state ≠ .running ∧ seq.isTerminal = false := by
      rw [hprep.arranged.lookup id, hl]
      by_cases hvictim : id ∈ out.preempt
      · refine ⟨entry.seq.evicted, ?_, rfl, by simp [Sequence.evicted],
          by simp [Sequence.isTerminal, Sequence.evicted]⟩
        simp only [Option.map_some, Entry.arrange, if_pos hvictim]
      · refine ⟨entry.seq, ?_, rfl, fun hrun => ?_, hlive⟩
        · simp only [Option.map_some, Entry.arrange, if_neg hvictim, if_neg hin]
        · have hmem := (hs.sound.running_of_state hl hrun).1
          rcases List.mem_append.mp (hprep.split.symm.subset hmem) with hc | hc
          · exact hdecode hc
          · exact hvictim hc
    obtain ⟨seq₁, hl₁, hcore, hstate, hstop⟩ := hl₁
    have hl₂ := hpre.asleep hm hprefill hl₁ hstate
    have hl₃ := hdec.asleep hm' (hms' ▸ hdecode) hl₂ hstate
    refine Executed.advanced { entry with seq := seq₁ } hex (Or.inl rfl) hcore rfl rfl
      (Or.inl rfl) hstop hl₃ (Turned.idle hstate) ?_
    rw [hdec.opsOf_eq hl₂, hpre.opsOf_eq hl₁, hpre.outside id hprefill, hwaits, hout]
    exact congrArg (· ++ _) (List.append_nil _)

/-- A step leaves a request that is not there alone. -/
theorem Executed.absent (hex : Executed S may e out e₁ prefilled e₂ decoded evicted e₃ gone e')
    (hid : id ∉ e.requests) : id ∉ e'.requests ∧ e'.opsOf id = e.opsOf id := by
  obtain ⟨ms, _, _, hpre⟩ := hex.prefill
  obtain ⟨ms', _, _, hdec⟩ := hex.decode
  have hnone : ∀ {e : EngineLoop σ α}, id ∉ e.requests → e.requests.lookup id = none :=
    fun h => AList.lookup_eq_none.mpr h
  have hid₁ : id ∉ e₁.requests := by
    intro hc
    obtain ⟨entry, hl⟩ := IdMap.exists_of_mem hc
    rw [hex.prepared.arranged.lookup id, hnone hid] at hl
    cases hl
  have hid₂ : id ∉ e₂.requests := fun hc => hid₁ ((hpre.mem id).mp hc)
  have hid₃ : id ∉ e₃.requests := fun hc => hid₂ ((hdec.mem id).mp hc)
  refine ⟨fun hc => ?_, ?_⟩
  · obtain ⟨entry, hl⟩ := IdMap.exists_of_mem hc
    exact hid₃ (IdMap.mem_of_lookup ((hex.departed.lookup id entry).mp hl).2)
  · have hquiet : ∀ {S : Services σ α} {e : EngineLoop σ α} {t : Turn}, id ∉ e.requests →
        turnOps S e id t = [] := by
      intro S e t h
      unfold turnOps
      rw [hnone h]
    have hnot : id ∉ gone := fun hc => by
      obtain ⟨entry, hl, _⟩ := (hex.ended id).mp hc
      exact hid₃ (IdMap.mem_of_lookup hl)
    show e'.outbox.filter _ = e.outbox.filter _
    rw [hex.departed.outbox, List.filter_append, closeEnded_filter e₃ hex.nodup id, if_neg hnot,
      List.append_nil, hdec.outbox id, hquiet hid₂, List.append_nil, hpre.outbox id, hquiet hid₁,
      List.append_nil, hex.prepared.arranged.outbox]

end EngineLoop

/-! ### The end of a sequence

A checker that has seen `max_tokens` tokens ends its sequence, so a turn that does not end it
leaves it one token longer and still short of that number. -/

namespace StopChecker

theorem observeLength_within (c : StopChecker) (delta : Text) (n : Int) :
    (c.observeLength delta n).2.maxTokens = c.maxTokens ∧
      ((c.observeLength delta n).1.finished = true ∨ n < c.maxTokens) := by
  unfold observeLength
  split
  · exact ⟨rfl, Or.inl rfl⟩
  · rename_i h
    exact ⟨rfl, Or.inr (not_le.mp h)⟩

theorem observe_within {c : StopChecker} {id n : Int} {step : StepResult}
    (h : (c.observe id n).1 = .ok step) : (c.observe id n).2.maxTokens = c.maxTokens ∧
      (step.finished = true ∨ n < c.maxTokens) := by
  have hdetok : (c.detokenize id).2.maxTokens = c.maxTokens := by
    unfold detokenize
    cases c.detok <;> rfl
  unfold observe at h ⊢
  cases hpiece : (c.detokenize id).1 with
  | error status =>
      simp only [hpiece] at h
      cases h
  | ok delta =>
      simp only [hpiece] at h ⊢
      split at h
      · rename_i htrigger
        rw [if_pos htrigger]
        cases h
        exact ⟨hdetok, Or.inl rfl⟩
      · rename_i htrigger
        rw [if_neg htrigger]
        split at h
        · rename_i hstops
          rw [if_pos hstops]
          cases hfound : ((c.detokenize id).2.matcher.feed delta).1.found with
          | some stop =>
              simp only [hfound] at h ⊢
              cases h
              exact ⟨hdetok, Or.inl rfl⟩
          | none =>
              simp only [hfound] at h ⊢
              cases h
              obtain ⟨hsame, hwithin⟩ := observeLength_within
                { (c.detokenize id).2 with
                  matcher := ((c.detokenize id).2.matcher.feed delta).2 }
                ((c.detokenize id).2.matcher.feed delta).1.emit n
              exact ⟨hsame.trans hdetok, hwithin.imp_right fun hlt => hlt.trans_eq hdetok⟩
        · rename_i hstops
          rw [if_neg hstops]
          cases h
          obtain ⟨hsame, hwithin⟩ := observeLength_within (c.detokenize id).2 delta n
          exact ⟨hsame.trans hdetok, hwithin.imp_right fun hlt => hlt.trans_eq hdetok⟩

end StopChecker

/-- A turn that is no waiting and does not end a sequence. -/
theorem Sequence.turn_going {s : Sequence} {sampleRow : SampleRow} {promptIds : List Int} {t : Turn}
    (h : s.state = .running) (ht : t ≠ .waits)
    (hlive : (s.turn sampleRow promptIds t).1.isTerminal = false) :
    (s.turn sampleRow promptIds t).1.stop.maxTokens = s.stop.maxTokens ∧
      (s.turn sampleRow promptIds t).1.generatedIds.length = s.generatedIds.length + 1 ∧
      ((s.turn sampleRow promptIds t).1.generatedIds.length : Int) < s.stop.maxTokens := by
  cases t with
  | waits => exact absurd rfl ht
  | refused status =>
      rw [show (s.turn sampleRow promptIds (.refused status)).1 = s.failed status from rfl,
        isTerminal_failed] at hlive
      cases hlive
  | answered row =>
      unfold turn answer at hlive ⊢
      simp only at hlive ⊢
      cases hsample : s.sampler.sampleWithLogprobs sampleRow row ⟨promptIds, s.generatedIds⟩ with
      | error status =>
          simp only [hsample, isTerminal_failed] at hlive
          cases hlive
      | ok next =>
          simp only [hsample] at hlive ⊢
          have hids := (deliver_cases h next).2.1
          have hlength : (s.deliver next).1.generatedIds.length = s.generatedIds.length + 1 := by
            rw [hids]
            exact List.length_append
          rw [hlength]
          unfold deliver appendGenerated numGenerated at hlive ⊢
          simp only at hlive ⊢
          cases hobs : (s.stop.observe next.token
              ((s.generatedIds ++ [next.token]).length : Nat)).1 with
          | error status =>
              simp only [hobs, isTerminal_failed] at hlive
              cases hlive
          | ok step =>
              obtain ⟨hlimit, hlt⟩ := StopChecker.observe_within hobs
              simp only [hobs] at hlive ⊢
              by_cases hf : step.finished = true
              · rw [if_pos hf] at hlive
                cases hlive
              · rw [if_neg hf]
                refine ⟨hlimit, trivial, ?_⟩
                have := hlt.resolve_left hf
                rw [List.length_append, List.length_singleton] at this
                exact this

/-! ### A request that is served alone

`solo` gives turns to one sequence and nothing else happens.  A live request is always some
number of turns into it, and a turn among others is the next one. -/

section

variable {outcome : Outcome} {sampleRow : SampleRow} {promptIds : List Int} {start : Sequence}
  {k : Nat}

theorem solo_succ (outcome : Outcome) (sampleRow : SampleRow) (promptIds : List Int)
    (start : Sequence) (k : Nat) : solo outcome sampleRow promptIds start (k + 1)
    = if (solo outcome sampleRow promptIds start k).1.isTerminal then
        solo outcome sampleRow promptIds start k
      else
        let s := (solo outcome sampleRow promptIds start k).1
        let t := s.nextTurn outcome promptIds
        ((s.turn sampleRow promptIds t).1,
          (solo outcome sampleRow promptIds start k).2
            ++ (s.turn sampleRow promptIds t).2.toList) := by
  rw [solo]

/-- A sequence runs until it has ended. -/
theorem solo_state : (solo outcome sampleRow promptIds start k).1.state = .running ∨
    (solo outcome sampleRow promptIds start k).1.isTerminal = true := by
  induction k with
  | zero => exact Or.inl rfl
  | succ k ih =>
      rw [solo_succ]
      rcases ih with hrun | hterm
      · rw [if_neg (by simp [EngineLoop.isTerminal_running hrun])]
        exact Sequence.turn_state hrun _ _ _
      · rw [if_pos hterm]
        exact Or.inr hterm

end

/-- An answered turn that does not end a sequence adds one token. -/
theorem Sequence.turn_generated {s : Sequence} {sampleRow : SampleRow} {promptIds : List Int}
    {row : List F32} (h : s.state = .running)
    (hlive : (s.turn sampleRow promptIds (.answered row)).1.isTerminal = false) :
    ∃ token, (s.turn sampleRow promptIds (.answered row)).1.generatedIds
      = s.generatedIds ++ [token] := by
  unfold turn answer at hlive ⊢
  simp only at hlive ⊢
  cases hsample : s.sampler.sampleWithLogprobs sampleRow row ⟨promptIds, s.generatedIds⟩ with
  | error status =>
      rw [hsample] at hlive
      exact absurd (isTerminal_failed s status) (by simp only at hlive; simp [hlive])
  | ok next => exact ⟨next.token, (deliver_cases h next).2.1⟩

namespace EngineLoop

section

variable {σ α : Type} [Zero α] {e e' e₁ : EngineLoop σ α} {id k : Nat} {entry : Entry}
  {S : Services σ α} {outcome : Outcome} {holds : KvLog α → List Int → Prop} {start : Sequence}
  {prefill : Bool} {t : Turn} {gone cancelled : List Nat} {commands : List Command}
  {r : Bool × EngineLoop σ α} {asked : Prop} {promptIds : List Int}

/-- A live request that has had `k` turns of the sequence alone; `asked` says whether anybody
has cancelled it. -/
structure Following (S : Services σ α) (outcome : Outcome) (holds : KvLog α → List Int → Prop)
    (start : Sequence) (asked : Prop) (e : EngineLoop σ α) (id : Nat)
    (entry : Entry) (k : Nat) : Prop where
  lookup : e.requests.lookup id = some entry
  going : (solo outcome S.sampleRow entry.request.promptIds start k).1.state = .running
  core : entry.seq.core = (solo outcome S.sampleRow entry.request.promptIds start k).1.core
  ops : e.opsOf id
    = (solo outcome S.sampleRow entry.request.promptIds start k).2.map (.push id)
  holding : entry.seq.state = .running → holds (entry.seq.held.log e.shared.pool)
    (entry.request.promptIds ++ entry.seq.generatedIds.dropLast)
  marked : entry.cancelRequested = true → asked

/-- A request that has been closed, after `k` turns of the sequence alone. -/
structure Concluded (S : Services σ α) (outcome : Outcome) (start : Sequence) (asked : Prop)
    (e : EngineLoop σ α) (id : Nat) (promptIds : List Int) (k : Nat) (info : FinishInfo) :
    Prop where
  gone : id ∉ e.requests
  ops : e.opsOf id = (solo outcome S.sampleRow promptIds start k).2.map (.push id)
    ++ [.close id info]
  info : asked ∧ info = { terminal := .cancelled } ∨
    (solo outcome S.sampleRow promptIds start k).1.isTerminal = true ∧
      info = (solo outcome S.sampleRow promptIds start k).1.finishInfo

/-- What has become of a request. -/
def Fate (S : Services σ α) (outcome : Outcome) (holds : KvLog α → List Int → Prop)
    (start : Sequence) (asked : Prop) (promptIds : List Int) (e : EngineLoop σ α) (id : Nat) :
    Prop :=
  (∃ entry k, Following S outcome holds start asked e id entry k ∧
      entry.request.promptIds = promptIds) ∨
    ∃ k info, Concluded S outcome start asked e id promptIds k info

/-- What the model was asked follows from what the cache held. -/
theorem Following.history (hf : Following S outcome holds start asked e id entry k)
    (hs : e.Settled) (hempty : ∀ p : BlockPool α, holds (PagedKvCache.new.log p) [])
    (hplace : if prefill then entry.seq.Parked else t = .waits ∨ entry.seq.Ready)
    (ht : t ≠ .waits) : ∃ history, holds (entry.seq.held.log e.shared.pool) history ∧
      history ++ entry.passTokens prefill
        = entry.request.promptIds ++ entry.seq.generatedIds := by
  cases prefill with
  | true =>
      refine ⟨[], ?_, rfl⟩
      rw [Sequence.Parked.held_eq hplace]
      exact hempty _
  | false =>
      have hready : entry.seq.Ready := hplace.resolve_left ht
      obtain ⟨_, _, hgen⟩ := hs.sound.decodeMember hf.lookup hready.1
      refine ⟨_, hf.holding hready.1, ?_⟩
      obtain ⟨token, htoken⟩ := Option.isSome_iff_exists.mp (List.getLast?_isSome.mpr hgen)
      unfold Entry.passTokens
      simp only [Bool.false_eq_true, if_false]
      rw [htoken, List.append_assoc]
      congr 1
      exact List.dropLast_append_getLast? token htoken

/-- The turn a request has is the next turn of its sequence alone. -/
theorem Following.turn_eq (hf : Following S outcome holds start asked e id entry k) (hs : e.Settled)
    (hempty : ∀ p : BlockPool α, holds (PagedKvCache.new.log p) [])
    (hroom : ∀ tokens status, outcome tokens = .error status → status.code ≠ .resourceExhausted)
    (hadv : Advanced S (rowLocal outcome holds) e id entry prefill t e') (ht : t ≠ .waits) :
    t = (solo outcome S.sampleRow entry.request.promptIds start k).1.nextTurn outcome
      entry.request.promptIds := by
  obtain ⟨history, hholds, htokens⟩ := hf.history hs hempty hadv.place ht
  have hgen : (solo outcome S.sampleRow entry.request.promptIds start k).1.generatedIds
      = entry.seq.generatedIds := by
    have hcore := congrArg Sequence.generatedIds hf.core
    simp only [Sequence.core_generatedIds] at hcore
    exact hcore.symm
  unfold Sequence.nextTurn
  rw [hgen, ← htokens]
  cases t with
  | waits => exact absurd rfl ht
  | answered row =>
      obtain ⟨g, hmay⟩ := hadv.answered row rfl
      rw [(hmay history hholds).1]
  | refused status =>
      obtain ⟨cause, hmay, hcause⟩ := hadv.refused status rfl
      have hout : outcome (history ++ entry.passTokens prefill) = .error cause :=
        hmay history hholds
      rw [hout, hcause.resolve_right (hroom _ _ hout)]

/-- **A turn among others is a turn alone.** -/
theorem Following.advance (hf : Following S outcome holds start asked e id entry k) (hs : e.Settled)
    (hempty : ∀ p : BlockPool α, holds (PagedKvCache.new.log p) [])
    (hroom : ∀ tokens status, outcome tokens = .error status → status.code ≠ .resourceExhausted)
    (hadv : Advanced S (rowLocal outcome holds) e id entry prefill t e') :
    Fate S outcome holds start asked entry.request.promptIds e' id := by
  by_cases ht : t = .waits
  · -- nothing has happened to it but that it may have been evicted
    subst ht
    have hlive : (entry.seq.core.turn S.sampleRow entry.request.promptIds .waits).1.isTerminal
        = false := isTerminal_running rfl
    obtain ⟨seq, hl, hcore, hrun⟩ := hadv.live hlive
    refine Or.inl ⟨{ entry with seq := seq }, k, ⟨hl, hf.going, hcore.trans hf.core, ?_,
      fun hstate => ?_, hf.marked⟩, rfl⟩
    · have hops := hadv.ops
      rw [hlive, if_neg Bool.false_ne_true, List.append_nil] at hops
      rw [hops, hf.ops]
      exact List.append_nil _
    · obtain ⟨row, hc, _⟩ := hrun hstate
      simp at hc
  have hnext := hf.turn_eq hs hempty hroom hadv ht
  have hgoing := hf.going
  -- the turn is the same for the sequence alone
  obtain ⟨hitem, hcore, hfinish⟩ := Sequence.turn_core hgoing S.sampleRow
    entry.request.promptIds t
  rw [← hf.core] at hitem hcore hfinish
  have hterm := Sequence.isTerminal_eq (Sequence.finishInfo_state hfinish)
  have hsolo := solo_succ outcome S.sampleRow entry.request.promptIds start k
  rw [if_neg (by simp [isTerminal_running hgoing])] at hsolo
  simp only at hsolo
  rw [← hnext] at hsolo
  have hitems : e'.opsOf id
      = (solo outcome S.sampleRow entry.request.promptIds start (k + 1)).2.map (.push id)
        ++ if (solo outcome S.sampleRow entry.request.promptIds start (k + 1)).1.isTerminal then
            [.close id (solo outcome S.sampleRow
              entry.request.promptIds start (k + 1)).1.finishInfo]
          else [] := by
    rw [hsolo, hadv.ops, hf.ops, List.map_append]
    simp only
    rw [hitem, hterm, hfinish]
  cases hend : (solo outcome S.sampleRow entry.request.promptIds start (k + 1)).1.isTerminal with
  | true =>
      rw [hend, if_pos rfl] at hitems
      refine Or.inr ⟨k + 1, _, hadv.ended ?_, hitems, Or.inr ⟨hend, rfl⟩⟩
      rw [hsolo] at hend
      exact hterm ▸ hend
  | false =>
      rw [hend, if_neg Bool.false_ne_true, List.append_nil] at hitems
      have hlive : (entry.seq.core.turn S.sampleRow entry.request.promptIds t).1.isTerminal
          = false := by
        rw [hsolo] at hend
        exact hterm ▸ hend
      obtain ⟨seq, hl, hseq, hrun⟩ := hadv.live hlive
      refine Or.inl ⟨{ entry with seq := seq }, k + 1, ⟨hl, ?_, ?_, hitems, fun hstate => ?_,
        hf.marked⟩, rfl⟩
      · exact solo_state.resolve_right (by simp only; simp [hend])
      · rw [hsolo]
        exact hseq.trans hcore.symm
      · obtain ⟨row, rfl, hmay⟩ := hrun hstate
        obtain ⟨history, hholds, htokens⟩ := hf.history hs hempty hadv.place ht
        obtain ⟨token, htoken⟩ := Sequence.turn_generated (s := entry.seq.core) rfl hlive
        have hgen : seq.generatedIds = entry.seq.generatedIds ++ [token] := by
          have hids := congrArg Sequence.generatedIds hseq
          simp only [Sequence.core_generatedIds] at hids htoken
          rw [hids, htoken]
        show holds _ (entry.request.promptIds ++ seq.generatedIds.dropLast)
        rw [hgen, List.dropLast_concat, ← htokens]
        exact (hmay history hholds).2

/-! ### A whole step

Cancelled requests leave before the passes and ended ones after them.  In between each live
request moves on by one turn or waits. -/

theorem closeAsCancelled_filter {gone : List Nat} (hnd : gone.Nodup) (id : Nat) :
    (gone.map closeAsCancelled).filter (·.id = id)
      = if id ∈ gone then [closeAsCancelled id] else [] := by
  induction gone with
  | nil => rfl
  | cons j rest ih =>
      obtain ⟨hj, hrest⟩ := List.nodup_cons.mp hnd
      rw [List.map_cons, List.filter_cons, ih hrest]
      by_cases hid : j = id
      · subst hid
        simp [closeAsCancelled, ChannelOp.id, hj]
      · simp [closeAsCancelled, ChannelOp.id, hid, Ne.symm hid]

/-- What the retirement of cancelled requests makes of a request's fate. -/
theorem Fate.departed (h : Fate S outcome holds start asked promptIds e id)
    (hd : Departed e gone (gone.map closeAsCancelled) e') (hnd : gone.Nodup)
    (hgone : ∀ id, id ∈ gone ↔ e.Marked id) : Fate S outcome holds start asked promptIds e' id := by
  have hops : e'.opsOf id = e.opsOf id ++ if id ∈ gone then [closeAsCancelled id] else [] := by
    unfold opsOf
    rw [hd.outbox, List.filter_append, closeAsCancelled_filter hnd id]
  rcases h with ⟨entry, k, hf, hprompt⟩ | ⟨k, info, hc⟩
  · by_cases hin : id ∈ gone
    · rw [if_pos hin, hf.ops, hprompt] at hops
      obtain ⟨entry', hl', hmark⟩ := (hgone id).mp hin
      rw [hf.lookup] at hl'
      cases hl'
      refine Or.inr ⟨k, _, fun hmem => ?_, hops, Or.inl ⟨hf.marked hmark, rfl⟩⟩
      obtain ⟨entry', hl'⟩ := IdMap.exists_of_mem hmem
      exact ((hd.lookup id entry').mp hl').1 hin
    · rw [if_neg hin, List.append_nil] at hops
      refine Or.inl ⟨entry, k, ⟨(hd.lookup id entry).mpr ⟨hin, hf.lookup⟩, hf.going, hf.core,
        hops.trans hf.ops, fun hrun => ?_, hf.marked⟩, hprompt⟩
      rw [PagedKvCache.log_of_store hd.store]
      exact hf.holding hrun
  · have hin : id ∉ gone := fun hin => by
      obtain ⟨entry, hl, _⟩ := (hgone id).mp hin
      exact hc.gone (IdMap.mem_of_lookup hl)
    rw [if_neg hin, List.append_nil] at hops
    refine Or.inr ⟨k, info, fun hmem => ?_, hops.trans hc.ops, hc.info⟩
    obtain ⟨entry, hl⟩ := IdMap.exists_of_mem hmem
    exact hc.gone (IdMap.mem_of_lookup ((hd.lookup id entry).mp hl).2)

/-- **A step keeps a request to its fate.** -/
theorem Round.fate
    (h : Round S (rowLocal outcome holds) commands e cancelled e₁ r)
    (hempty : ∀ p : BlockPool α, holds (PagedKvCache.new.log p) [])
    (hroom : ∀ tokens status, outcome tokens = .error status → status.code ≠ .resourceExhausted)
    (hfate : Fate S outcome holds start asked promptIds (e.drainCommands commands) id) :
    Fate S outcome holds start asked promptIds r.2 id := by
  have hstart := hfate.departed h.departed h.nodup h.marked
  rcases h.outcome with ⟨hr, _⟩ | ⟨_, _, out, e₂, prefilled, e₃, decoded, evicted, e₄, gone, hex⟩
  · rw [hr]
    exact hstart
  · rcases hstart with ⟨entry, k, hf, hprompt⟩ | ⟨k, info, hc⟩
    · rw [← hprompt]
      exact hf.advance h.alone.settled hempty hroom (hex.request h.alone hf.lookup)
    · obtain ⟨hgone, hops⟩ := hex.absent hc.gone
      exact Or.inr ⟨k, info, hgone, hops.trans hc.ops, hc.info⟩

end

/-! ### Draining the queue

Commands are taken in their order.  A submit makes a request live and a cancel marks it. -/

section

variable {σ α : Type} {e : EngineLoop σ α} {id : Nat} {entry : Entry} {commands : List Command}

theorem drainCommands_shared (commands : List Command) (e : EngineLoop σ α) :
    (e.drainCommands commands).shared = e.shared := by
  unfold drainCommands
  refine List.foldlRecOn (motive := fun e' => e'.shared = e.shared) (b := e) commands
    drainCommand rfl ?_
  intro e₁ h c _
  cases c with
  | submit entry => exact h
  | cancel id =>
      unfold drainCommand
      cases hl : e₁.requests.lookup id with
      | none => simpa only [hl] using h
      | some entry => simpa only [hl] using h

/-- A live request stays as it is, but that it may be marked. -/
theorem drainCommands_live (commands : List Command) (h : e.requests.lookup id = some entry) :
    ∃ mark, (e.drainCommands commands).requests.lookup id
        = some { entry with cancelRequested := mark } ∧
      (mark = true → entry.cancelRequested = true ∨ .cancel id ∈ commands) := by
  unfold drainCommands
  refine List.foldlRecOn (motive := fun e' => ∃ mark, e'.requests.lookup id
      = some { entry with cancelRequested := mark } ∧
    (mark = true → entry.cancelRequested = true ∨ .cancel id ∈ commands)) (b := e) commands
    drainCommand ⟨entry.cancelRequested, h, Or.inl⟩ ?_
  rintro e₁ ⟨mark, hl, hmark⟩ c hc
  cases c with
  | submit new =>
      refine ⟨mark, ?_, hmark⟩
      unfold drainCommand
      simp only
      split
      · exact hl
      · rename_i hfresh
        rw [AList.lookup_insert_ne]
        · exact hl
        · rintro rfl
          exact hfresh (IdMap.mem_of_lookup hl)
  | cancel j =>
      unfold drainCommand
      cases hj : e₁.requests.lookup j with
      | none => exact ⟨mark, by simpa only [hj] using hl, hmark⟩
      | some other =>
          simp only [hj]
          by_cases hne : id = j
          · subst hne
            rw [hl] at hj
            cases hj
            exact ⟨true, AList.lookup_insert _, fun _ => Or.inr hc⟩
          · exact ⟨mark, (AList.lookup_insert_ne hne).trans hl, hmark⟩

/-- A request that waits in the queue is live once the queue is drained. -/
theorem drainCommands_submitted {before after : List Command}
    (hq : Queued (before ++ .submit entry :: after) e) :
    ∃ mark, (e.drainCommands (before ++ .submit entry :: after)).requests.lookup entry.request.id
        = some { entry with cancelRequested := mark } ∧
      (mark = true → entry.cancelRequested = true ∨ .cancel entry.request.id ∈ after) := by
  have hmem : entry.request.id ∈ submitted (before ++ .submit entry :: after) := by
    simp [submitted]
  have hnew : entry.request.id ∉ (e.drainCommands before).requests := by
    intro hc
    obtain ⟨entry', hl'⟩ := IdMap.exists_of_mem hc
    rcases drainCommands_request before e _ _ hl' with ⟨old, hl, _⟩ | ⟨new, hnew, hid, _⟩
    · exact hq.fresh _ hmem (IdMap.mem_of_lookup hl)
    · have hnd := hq.distinct
      rw [show submitted (before ++ .submit entry :: after)
        = submitted before ++ entry.request.id :: submitted after by simp [submitted]] at hnd
      have hbefore : entry.request.id ∈ submitted before :=
        List.mem_filterMap.mpr ⟨_, hnew, by simp [hid]⟩
      exact (List.nodup_append.mp hnd).2.2 _ hbefore _ List.mem_cons_self rfl
  have hsplit : e.drainCommands (before ++ .submit entry :: after)
      = ((e.drainCommands before).drainCommand (.submit entry)).drainCommands after := by
    unfold drainCommands
    rw [List.foldl_append, List.foldl_cons]
  rw [hsplit]
  refine drainCommands_live after ?_
  unfold drainCommand
  simp only [if_neg hnew]
  exact AList.lookup_insert _

end

end EngineLoop

/-! ### Runs

The fate of a request is kept by every call, from its submission to the end of the run. -/

namespace Engine

open EngineLoop

variable {σ α : Type} [Zero α] {S : Services σ α} {e e' e₀ : Engine σ α} {id drawnSeed : Nat}
  {geom : CacheGeometry} {blockSize numBlocks : Int} {state : σ} {pool : BlockPool α}
  {config : EngineConfig} {call : EngineCall} {outcome : Outcome}
  {holds : KvLog α → List Int → Prop} {start : Sequence} {request : Request} {asked : Prop}
  {promptIds : List Int}

/-- An accepted request: it waits in the queue, or its fate has begun. -/
def Accepted (S : Services σ α) (outcome : Outcome) (holds : KvLog α → List Int → Prop)
    (start : Sequence) (asked : Prop) (promptIds : List Int) (id : Nat) (e : Engine σ α) : Prop :=
  (∃ (request : Request) (before after : List Command), request.id = id ∧
      request.promptIds = promptIds ∧ (.cancel id ∈ after → asked) ∧
      e.queue.commands = before ++ .submit ⟨request, start, false⟩ :: after) ∨
    (Fate S outcome holds start asked promptIds e.loop id ∧ (.cancel id ∈ e.queue.commands → asked))

/-- An accepted request, once the queue is drained. -/
theorem Accepted.drained (h : Accepted S outcome holds start asked promptIds id e)
    (hrest : e.AtRest S) :
    Fate S outcome holds start asked promptIds (e.loop.drainCommands e.queue.commands) id := by
  have hops : (e.loop.drainCommands e.queue.commands).opsOf id = e.loop.opsOf id := by
    unfold opsOf
    rw [drainCommands_outbox]
  rcases h with ⟨request, before, after, rfl, rfl, hcancel, hsplit⟩ |
    ⟨⟨entry, k, hf, hprompt⟩ | ⟨k, info, hc⟩, hcancel⟩
  · have hin : .submit ⟨request, start, false⟩ ∈ e.queue.commands := by
      rw [hsplit]
      simp
    obtain ⟨mark, hl, hmark⟩ := drainCommands_submitted (hsplit ▸ hrest.queued)
    rw [← hsplit] at hl
    refine Or.inl ⟨⟨request, start, mark⟩, 0, ⟨hl, rfl, rfl, ?_, fun hrun => ?_, fun h => ?_⟩, rfl⟩
    · rw [hops]
      refine List.filter_eq_nil_iff.mpr fun op hop hc => ?_
      have hid := of_decide_eq_true hc
      exact (hrest.posted op hop).2 (hid ▸ List.mem_filterMap.mpr ⟨_, hin, rfl⟩)
    · have hwaiting := (hrest.queued.unstarted _ hin).state
      have hstate : start.state = .running := hrun
      rw [hstate] at hwaiting
      cases hwaiting
    · exact hcancel ((hmark h).resolve_left Bool.false_ne_true)
  · obtain ⟨mark, hl, hmark⟩ := drainCommands_live e.queue.commands hf.lookup
    refine Or.inl ⟨{ entry with cancelRequested := mark }, k,
      ⟨hl, hf.going, hf.core, hops.trans hf.ops, fun hrun => ?_, fun h => ?_⟩, hprompt⟩
    · rw [drainCommands_shared]
      exact hf.holding hrun
    · exact (hmark h).elim hf.marked hcancel
  · refine Or.inr ⟨k, info, fun hmem => ?_, hops.trans hc.ops, hc.info⟩
    obtain ⟨entry', hl'⟩ := IdMap.exists_of_mem hmem
    rcases drainCommands_request _ _ _ _ hl' with ⟨entry, hl, _⟩ | ⟨entry, hin, hid, _⟩
    · exact hc.gone (IdMap.mem_of_lookup hl)
    · have hclose : ChannelOp.close id info ∈ e.loop.opsOf id := by
        rw [hc.ops]
        simp
      exact (hrest.posted _ (List.mem_of_mem_filter hclose)).2
        (List.mem_filterMap.mpr ⟨_, hin, by simp [hid, ChannelOp.id]⟩)

/-- A command joins the queue. -/
theorem Accepted.enqueue (h : Accepted S outcome holds start asked promptIds id e) {c : Command}
    {queue : CommandQueue} (hqueue : queue.commands = e.queue.commands ++ [c])
    (hasked : c = .cancel id → asked) :
    Accepted S outcome holds start asked promptIds id { e with queue := queue } := by
  rcases h with ⟨request, before, after, hid, hprompt, hcancel, hsplit⟩ | ⟨hf, hcancel⟩
  · refine Or.inl ⟨request, before, after ++ [c], hid, hprompt, fun hin => ?_, ?_⟩
    · rcases List.mem_append.mp hin with hin | hin
      · exact hcancel hin
      · exact hasked (List.mem_singleton.mp hin).symm
    · show queue.commands = _
      rw [hqueue, hsplit, List.append_assoc]
      rfl
  · refine Or.inr ⟨hf, fun hin => ?_⟩
    have hin : .cancel id ∈ queue.commands := hin
    rw [hqueue] at hin
    rcases List.mem_append.mp hin with hin | hin
    · exact hcancel hin
    · exact hasked (List.mem_singleton.mp hin).symm

/-- Every call but a stop keeps an accepted request. -/
theorem Accepted.run (hm : S.model.Contract (rowLocal outcome holds))
    (hempty : ∀ p : BlockPool α, holds (PagedKvCache.new.log p) [])
    (hroom : ∀ tokens status, outcome tokens = .error status → status.code ≠ .resourceExhausted)
    (h : Accepted S outcome holds start asked promptIds id e) (halone : e.Alone S)
    (huse : ∀ use, call ≠ .use use) (hstop : call ≠ .stop) (hasked : call = .cancel id → asked)
    (hrun : e.run S call = .ok e') : Accepted S outcome holds start asked promptIds id e' := by
  cases call with
  | submit new seed =>
      cases hrun
      unfold Engine.submit
      cases validateSubmit e.loop new seed with
      | error status => exact h
      | ok seq =>
          simp only
          by_cases hc : e.queue.stopRequested = true
          · rw [if_pos hc]
            exact h
          · rw [if_neg hc]
            exact h.enqueue rfl fun hc => by simp at hc
  | cancel k =>
      cases hrun
      refine h.enqueue rfl fun hc => hasked ?_
      cases hc
      rfl
  | step =>
      obtain ⟨⟨more, e₁⟩, hstep, heq⟩ := bind_eq_ok.mp hrun
      obtain ⟨⟨more', loop⟩, hloop, hpair⟩ := bind_eq_ok.mp hstep
      cases heq
      cases hpair
      obtain ⟨cancelled, e₁, hround⟩ := (halone.round hm).of_eq hloop
      exact Or.inr ⟨hround.fate hempty hroom (h.drained halone.toAtRest),
        fun hc => absurd hc List.not_mem_nil⟩
  | stop => exact absurd rfl hstop
  | use u => exact absurd rfl (huse u)

/-- A request that has just been accepted. -/
theorem accepted_submit (S : Services σ α) (outcome : Outcome)
    (holds : KvLog α → List Int → Prop) (asked : Prop)
    (h : (e.submit request drawnSeed).1 = .ok id) : ∃ start,
    Sequence.create request drawnSeed = .ok start ∧
      Accepted S outcome holds start asked request.promptIds id (e.submit request drawnSeed).2 := by
  revert h
  unfold Engine.submit
  cases hseq : validateSubmit e.loop request drawnSeed with
  | error status => exact fun h => by simp at h
  | ok start =>
      simp only
      by_cases hstop : e.queue.stopRequested = true
      · rw [if_pos hstop]
        exact fun h => by simp at h
      · rw [if_neg hstop]
        intro h
        cases h
        exact ⟨start, validateSubmit_create e.loop request drawnSeed start hseq,
          Or.inl ⟨{ request with id := e.queue.nextId, arrivalIndex := e.queue.nextArrival },
            e.queue.commands, [], rfl, rfl, fun hc => absurd hc List.not_mem_nil, rfl⟩⟩

/-- What the channel of a request has been given: the first items of its sequence alone; and it
is open, or has been closed because somebody cancelled the request, or with what the sequence
alone comes to. -/
structure AsAlone (outcome : Outcome) (sampleRow : SampleRow) (promptIds : List Int)
    (start : Sequence) (id : Nat) (asked : Prop) (k : Nat) (closing : List ChannelOp)
    (e : Engine σ α) : Prop where
  ops : e.loop.opsOf id
    = (solo outcome sampleRow promptIds start k).2.map (.push id) ++ closing
  closing : closing = [] ∨ asked ∧ closing = [.close id { terminal := .cancelled }] ∨
    (solo outcome sampleRow promptIds start k).1.isTerminal = true ∧
      closing = [.close id (solo outcome sampleRow promptIds start k).1.finishInfo]

theorem Accepted.asAlone (h : Accepted S outcome holds start asked promptIds id e)
    (hrest : e.AtRest S) :
    ∃ k closing, AsAlone outcome S.sampleRow promptIds start id asked k closing e := by
  rcases h with ⟨request, before, after, rfl, _, _, hsplit⟩ |
    ⟨⟨entry, k, hf, rfl⟩ | ⟨k, info, hc⟩, _⟩
  · refine ⟨0, [], ?_, Or.inl rfl⟩
    refine List.filter_eq_nil_iff.mpr fun op hop hc => ?_
    have hid := of_decide_eq_true hc
    refine (hrest.posted op hop).2 (hid ▸ List.mem_filterMap.mpr
      ⟨.submit ⟨request, start, false⟩, ?_, rfl⟩)
    rw [hsplit]
    simp
  · exact ⟨k, [], hf.ops.trans (List.append_nil _).symm, Or.inl rfl⟩
  · refine ⟨k, _, hc.ops, Or.inr ?_⟩
    rcases hc.info with ⟨hasked, rfl⟩ | ⟨hterm, rfl⟩
    · exact Or.inl ⟨hasked, rfl⟩
    · exact Or.inr ⟨hterm, rfl⟩

/-- The calls that follow on a submit. -/
theorem Accepted.foldlM (hm : S.model.Contract (rowLocal outcome holds))
    (hempty : ∀ p : BlockPool α, holds (PagedKvCache.new.log p) [])
    (hroom : ∀ tokens status, outcome tokens = .error status → status.code ≠ .resourceExhausted)
    {calls : List EngineCall}
    (hcalls : ∀ call ∈ calls, (∀ use, call ≠ .use use) ∧ call ≠ .stop)
    (hasked : .cancel id ∈ calls → asked)
    (h : Accepted S outcome holds start asked promptIds id e) (halone : e.Alone S) :
    (calls.foldlM (Engine.run S) e).Ensures fun e' =>
      Accepted S outcome holds start asked promptIds id e' ∧ e'.Alone S := by
  induction calls generalizing e with
  | nil => exact ensures_pure ⟨h, halone⟩
  | cons call rest ih =>
      obtain ⟨huse, hstop⟩ := hcalls call List.mem_cons_self
      rw [List.foldlM_cons]
      refine Ensures.bind (ensures_self _) fun e' hrun => ?_
      refine ih (fun c hc => hcalls c (List.mem_cons_of_mem _ hc))
        (fun hc => hasked (List.mem_cons_of_mem _ hc)) ?_ (halone.run hm huse hrun)
      exact h.run hm hempty hroom halone huse hstop
        (fun hc => hasked (hc ▸ List.mem_cons_self)) hrun

/-- **A request among others is served as if it were alone.**  However submits, cancels and steps
interleave, whatever the limits and the size of the pool, and however often it is evicted and
prefilled again, an accepted request is delivered what its sequence yields alone, item by item,
and is closed as the sequence alone ends, unless somebody cancels it.  A batch that fails, and a
member whose own forward or sampling fails, change nothing for the others. -/
theorem run_as_alone (hm : S.model.Contract (rowLocal outcome holds))
    (hempty : ∀ p : BlockPool α, holds (PagedKvCache.new.log p) [])
    (hroom : ∀ tokens status, outcome tokens = .error status → status.code ≠ .resourceExhausted)
    (hpool : BlockPool.create geom blockSize numBlocks = .ok pool) (hids : numBlocks ≤ 2 ^ 31)
    (h : (aloneSystem S state pool config).Reachable e)
    (hsubmit : (e.submit request drawnSeed).1 = .ok id) {calls : List EngineCall}
    (hcalls : ∀ call ∈ calls, (∀ use, call ≠ .use use) ∧ call ≠ .stop)
    (hrun : calls.foldlM (Engine.run S) (e.submit request drawnSeed).2 = .ok e') :
    ∃ start, Sequence.create request drawnSeed = .ok start ∧ ∃ k closing,
      AsAlone outcome S.sampleRow request.promptIds start id (.cancel id ∈ calls) k closing e' := by
  obtain ⟨halone, _⟩ := reachable_alone hm hpool hids h
  obtain ⟨start, hstart, haccepted⟩ := accepted_submit S outcome holds
    (.cancel id ∈ calls) hsubmit
  have hnext : (e.submit request drawnSeed).2.Alone S :=
    halone.run hm
      (fun _ (hc : EngineCall.submit request drawnSeed = _) => by simp at hc) rfl
  obtain ⟨hacc, hdone⟩ := haccepted.foldlM hm hempty hroom hcalls (fun hc => hc) hnext _ hrun
  exact ⟨start, hstart, hacc.asAlone hdone.toAtRest⟩

end Engine

/-! ### One run

Two sequences that do not fit together.  The second one is evicted in the middle and gets the
same tokens in the end. -/

/-- The model that answers zero answers by the tokens of a sequence. -/
theorem zeroModel_rowLocal : (zeroModel false).Contract
    (rowLocal (fun _ => .ok [.finite 0]) fun _ _ => True) := by
  have hc := zeroModel_contract
  refine ⟨hc.shaped, hc.undisturbed, hc.layered, ?_, ?_⟩
  · intro state request pool logits hformed hlogits b s hs
    refine ⟨(hc.answers state request pool logits hformed hlogits b s hs).1,
      fun _ _ => ⟨?_, trivial⟩⟩
    cases hlogits
    have hb : b < request.seqs.length := (List.getElem?_eq_some_iff.mp hs).1
    have hmin : min 1 (request.seqs.length - b) = 1 := by omega
    show (Except.ok [.finite 0] : StatusOr (List F32)) = _
    congr 1
    show _ = BatchedSampler.row (Tensor.values _) 1 b
    unfold BatchedSampler.row Tensor.values Tensor.numel FlatMemory.indices
    rw [List.map_const', List.drop_replicate, List.take_replicate]
    simp [hmin]
  · intro state s pool status _ h
    cases h

theorem evicted_run : ∃ e e' : Engine Unit Int,
    (aloneSystem (zeroServices false) () zeroPool zeroConfig).Reachable e ∧
      (e.submit (zeroRequest 8) 0).1 = .ok 2 ∧
      (List.replicate 9 EngineCall.step).foldlM (Engine.run (zeroServices false))
        (e.submit (zeroRequest 8) 0).2 = .ok e' ∧
      e'.loop.preemptionCount = 1 ∧ (∃ info, .close 2 info ∈ e'.loop.opsOf 2) ∧
      2 ∉ e'.loop.requests := by
  obtain ⟨e, hrun, htest⟩ := exists_of_test (zeroRun false [.submit (zeroRequest 8) 0])
    (fun e => decide ((e.submit (zeroRequest 8) 0).1.toOption = some 2) &&
      ((List.replicate 9 EngineCall.step).foldlM (Engine.run (zeroServices false))
        (e.submit (zeroRequest 8) 0).2).toOption.any fun e' =>
          e'.loop.preemptionCount = 1 &&
            (e'.loop.opsOf 2).contains (.close 2 { stopTrigger := .maxTokens }) &&
            (e'.loop.requests.lookup 2).isNone) (by decide +kernel)
  rw [Bool.and_eq_true, decide_eq_true_eq] at htest
  obtain ⟨hid, htest⟩ := htest
  have hsubmit : (e.submit (zeroRequest 8) 0).1 = .ok 2 := by
    cases h : (e.submit (zeroRequest 8) 0).1 with
    | error status =>
        rw [h] at hid
        cases hid
    | ok id =>
        rw [h] at hid
        cases hid
        rfl
  cases hcalls : (List.replicate 9 EngineCall.step).foldlM (Engine.run (zeroServices false))
      (e.submit (zeroRequest 8) 0).2 with
  | error status =>
      rw [hcalls] at htest
      cases htest
  | ok e' =>
      rw [hcalls] at htest
      simp only [Except.toOption, Option.any_some, Bool.and_eq_true, decide_eq_true_eq,
        List.contains_iff_mem, Option.isNone_iff_eq_none] at htest
      obtain ⟨⟨hcount, hclosed⟩, hgone⟩ := htest
      exact ⟨e, e', zeroRun_alone (by simp) e hrun, hsubmit, hcalls, hcount, ⟨_, hclosed⟩,
        AList.lookup_eq_none.mp hgone⟩

/-- The second of two sequences that outgrow three blocks is evicted and prefilled again. -/
theorem run_as_alone_evicted : ∃ e' : Engine Unit Int,
    e'.loop.preemptionCount = 1 ∧ e'.loop.opsOf 2 ≠ [] ∧ (2 ∉ e'.loop.requests) ∧
      ∃ start, Sequence.create (zeroRequest 8) 0 = .ok start ∧ ∃ k closing,
        Engine.AsAlone (fun _ => .ok [.finite 0]) (zeroServices false).sampleRow
          (zeroRequest 8).promptIds start 2 (.cancel 2 ∈ List.replicate 9 EngineCall.step) k
          closing e' := by
  obtain ⟨e, e', hreach, hsubmit, hcalls, hcount, ⟨info, hclosed⟩, hgone⟩ := evicted_run
  have hpool : BlockPool.create ⟨1, 1, 1, .float32⟩ 8 3 = .ok zeroPool := rfl
  exact ⟨e', hcount, List.ne_nil_of_mem hclosed, hgone,
    Engine.run_as_alone zeroModel_rowLocal (fun _ => trivial) (fun _ _ h => by cases h) hpool
      (by decide) hreach hsubmit (by simp) hcalls⟩

end InferenceEngine
