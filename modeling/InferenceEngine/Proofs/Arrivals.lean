/-
First come, first served.

Requests are numbered as they arrive, so the order of arrival is that of the ids.  A submit goes
to the end of the queue, admission takes the front of it, and whoever is evicted is younger than
everybody who goes on running and older than everybody who waits.  Each of these keeps what waits
in order and behind what runs.

Together they do not: a step that evicts may admit, with the blocks it has just been given back,
somebody who has waited behind the victim.
-/
import InferenceEngine.Proofs.Clients
import InferenceEngine.Proofs.EngineAccounts

namespace InferenceEngine

open Except BlockPool

namespace EngineLoop

variable {σ α : Type} {S : Services σ α} {may : Answers α} {e e' e₁ : EngineLoop σ α}
  {commands : List Command} {out : SchedulerOutput}

/-- What waits is in order, and behind whatever runs. -/
structure Sorted (e : EngineLoop σ α) : Prop where
  waiting : e.waiting.Pairwise (· < ·)
  running : ∀ id ∈ e.running, ∀ id' ∈ e.waiting, id < id'

/-- Requests are numbered as they arrive. -/
def Numbered (e : EngineLoop σ α) : Prop :=
  ∀ id entry, e.requests.lookup id = some entry → entry.request.arrivalIndex + 1 = id

theorem Sorted.firstCome (h : e.Sorted) (hn : e.Numbered) : e.FirstCome := by
  have hlt : ∀ id id', id < id' → ∀ entry entry', e.requests.lookup id = some entry →
      e.requests.lookup id' = some entry' →
        entry.request.arrivalIndex < entry'.request.arrivalIndex := by
    intro id id' hlt entry entry' hl hl'
    have := hn id entry hl
    have := hn id' entry' hl'
    omega
  exact ⟨h.waiting.imp fun hids => hlt _ _ hids,
    fun id hid id' hid' => hlt id id' (h.running id hid id' hid')⟩

/-! ### What keeps the order

Requests that leave take nothing out of order, and those that are submitted are the last. -/

theorem Sorted.departed {gone : List Nat} {ops : List ChannelOp} (h : e.Sorted)
    (hd : Departed e gone ops e') : e'.Sorted := by
  refine ⟨?_, ?_⟩
  · rw [hd.waiting]
    exact h.waiting.filter _
  · rw [hd.waiting, hd.running]
    intro id hid id' hid'
    exact h.running id (List.mem_filter.mp hid).1 id' (List.mem_filter.mp hid').1

theorem drainCommands_lists (commands : List Command) (e : EngineLoop σ α) :
    (e.drainCommands commands).waiting = e.waiting ++ submitted commands ∧
      (e.drainCommands commands).running = e.running := by
  induction commands generalizing e with
  | nil => exact ⟨(List.append_nil _).symm, rfl⟩
  | cons command rest ih =>
      obtain ⟨hwaiting, hrunning⟩ := ih (e.drainCommand command)
      have hcons : e.drainCommands (command :: rest)
          = (e.drainCommand command).drainCommands rest := rfl
      rw [hcons, hwaiting, hrunning]
      cases command with
      | submit entry => exact ⟨by simp [drainCommand, submitted], rfl⟩
      | cancel id =>
          unfold drainCommand
          cases hl : e.requests.lookup id with
          | none =>
              simp only [hl]
              exact ⟨rfl, trivial⟩
          | some entry =>
              simp only [hl]
              exact ⟨rfl, trivial⟩

/-- The submitted requests are the last. -/
theorem Sorted.drain (h : e.Sorted) (hl : e.Listed) (hq : (submitted commands).Pairwise (· < ·))
    (hbehind : ∀ id ∈ e.requests, ∀ id' ∈ submitted commands, id < id') :
    (e.drainCommands commands).Sorted := by
  obtain ⟨hwaiting, hrunning⟩ := drainCommands_lists commands e
  refine ⟨?_, ?_⟩
  · rw [hwaiting]
    refine List.pairwise_append.mpr ⟨h.waiting, hq, fun id hid id' hid' => ?_⟩
    exact hbehind id ((hl.live id).mp (List.mem_append_left _ hid)) id' hid'
  · rw [hwaiting, hrunning]
    intro id hid id' hid'
    rcases List.mem_append.mp hid' with hid' | hid'
    · exact h.running id hid id' hid'
    · exact hbehind id ((hl.live id).mp (List.mem_append_right _ hid)) id' hid'

/-! ### The plan

Victims come latest first, all of them behind those that are kept.  What is admitted is the front
of what waits. -/

/-- The plan of a settled engine, by the numbers of the requests. -/
structure InTurn (e : EngineLoop σ α) (out : SchedulerOutput) : Prop where
  descending : out.preempt.Pairwise fun id id' => id' < id
  youngest : ∀ id ∈ out.preempt, ∀ id' ∈ out.decode, id' < id
  front : ∃ rest, e.waiting = out.prefill.map (·.id) ++ rest

theorem Settled.inTurn (h : e.Settled) (hn : e.Numbered) (hplan : e.scheduleStep = .ok out)
    (hsplit : (out.decode ++ out.preempt).Perm e.running) : e.InTurn out := by
  obtain ⟨ws, rs, hr⟩ := h.roster
  obtain ⟨kept, victims, admitted, rest, hp⟩ :=
    (Scheduler.schedule_spec (h.sound.planValid ws rs)).of_eq (hr.scheduleStep_eq ▸ hplan)
  -- the scheduler compares arrivals, which are the numbers less one
  have harrival : ∀ s ∈ kept ++ victims, s.1.arrivalIndex + 1 = s.1.id := by
    intro s hmem
    have hfst : s.1 ∈ (e.planInputs ws rs).running := by
      have := List.mem_map_of_mem (f := Prod.fst) (hp.account.perm.subset hmem)
      rwa [List.zipIdx_map_fst] at this
    obtain ⟨m, hm, heq⟩ := List.mem_map.mp hfst
    rw [← heq]
    exact hn m.1 m.2 (hr.runs m hm).1
  have hbefore : ∀ v ∈ kept ++ victims, ∀ w ∈ kept ++ victims, Scheduler.Before v w →
      w.1.id ≤ v.1.id := by
    intro v hv w hw hlater
    have := harrival v hv
    have := harrival w hw
    unfold Scheduler.Before at hlater
    omega
  have hnodup : (out.decode ++ out.preempt).Nodup :=
    hsplit.nodup_iff.mpr (List.nodup_append.mp h.sound.once).2.1
  refine ⟨?_, ?_, ?_⟩
  · have hle : out.preempt.Pairwise fun id id' => id' ≤ id := by
      rw [hp.preempt, List.pairwise_map]
      exact hp.account.descending.imp_of_mem fun hv hw =>
        hbefore _ (List.mem_append_right _ hv) _ (List.mem_append_right _ hw)
    exact hle.imp₂ (fun _ _ hle hne => lt_of_le_of_ne hle (Ne.symm hne))
      (List.nodup_append.mp hnodup).2.1
  · intro id hid id' hid'
    rw [hp.preempt] at hid
    rw [hp.decode] at hid'
    obtain ⟨v, hv, rfl⟩ := List.mem_map.mp hid
    obtain ⟨w, hw, rfl⟩ := List.mem_map.mp hid'
    refine lt_of_le_of_ne (hbefore v (List.mem_append_right _ hv) w (List.mem_append_left _ hw)
      (hp.account.latest v hv w hw)) fun heq => ?_
    refine (List.nodup_append.mp hnodup).2.2 _ ?_ _ ?_ heq
    · rw [hp.decode]
      exact List.mem_map_of_mem hw
    · rw [hp.preempt]
      exact List.mem_map_of_mem hv
  · refine ⟨rest.map (·.id), ?_⟩
    have hids : (e.planInputs ws rs).waiting.map (·.id) = e.waiting := by
      rw [← hr.waiting]
      exact List.map_map ..
    rw [← hids, hp.admitted.split, hp.prefill, List.map_append, List.map_map]
    rfl

/-- What is left when the front of a list is taken out. -/
private theorem filter_front {front rest : List Nat} (h : (front ++ rest).Nodup) :
    (front ++ rest).filter (· ∉ front) = rest := by
  rw [List.filter_append, List.filter_eq_nil_iff.mpr fun id hid => by simpa using hid,
    List.nil_append, List.filter_eq_self.mpr fun id hid => ?_]
  exact decide_eq_true fun hc => (List.nodup_append.mp h).2.2 id hc id hid rfl

variable [Zero α]

omit [Zero α] in
/-- A plan that evicts nobody or admits nobody keeps the order. -/
theorem Prepared.sorted (h : Prepared e out e₁) (hs : e.Settled) (hn : e.Numbered)
    (hsorted : e.Sorted) (hone : out.preempt = [] ∨ out.prefill = []) : e₁.Sorted := by
  have hturn := hs.inTurn hn h.planned h.split
  have hvictim : ∀ id ∈ out.preempt, id ∈ e.running := fun id hid =>
    h.split.subset (List.mem_append_right _ hid)
  rcases hone with hnone | hnone
  · obtain ⟨rest, hrest⟩ := hturn.front
    have hnodup := (List.nodup_append.mp hs.sound.once).1
    have hordered := hsorted.waiting
    rw [hrest] at hnodup hordered
    have hwaiting : e₁.waiting = rest := by
      rw [h.arranged.waiting, hnone, List.reverse_nil, List.nil_append, hrest]
      exact filter_front hnodup
    obtain ⟨-, hordered', hfront⟩ := List.pairwise_append.mp hordered
    refine ⟨by rw [hwaiting]; exact hordered', ?_⟩
    rw [hwaiting, h.arranged.running]
    intro id hid id' hid'
    rcases List.mem_append.mp hid with hid | hid
    · exact hsorted.running id (List.mem_filter.mp hid).1 id'
        (hrest ▸ List.mem_append_right _ hid')
    · exact hfront id hid id' hid'
  · have hwaiting : e₁.waiting = out.preempt.reverse ++ e.waiting := by
      rw [h.arranged.waiting, hnone]
      simp
    refine ⟨?_, ?_⟩
    · rw [hwaiting]
      exact List.pairwise_append.mpr ⟨List.pairwise_reverse.mpr hturn.descending, hsorted.waiting,
        fun id hid id' hid' => hsorted.running id (hvictim id (List.mem_reverse.mp hid)) id' hid'⟩
    · rw [hwaiting, h.arranged.running, hnone]
      intro id hid id' hid'
      rw [List.map_nil, List.append_nil] at hid
      obtain ⟨hrun, hkept⟩ := List.mem_filter.mp hid
      rcases List.mem_append.mp hid' with hid' | hid'
      · refine hturn.youngest id' (List.mem_reverse.mp hid') id ?_
        exact (List.mem_append.mp (h.split.symm.subset hrun)).resolve_right
          (of_decide_eq_true hkept)
      · exact hsorted.running id hrun id' hid'

/-! ### A step

A model that never refuses for want of room lets nobody be evicted in the middle of a pass. -/

theorem Turning.sorted {prefill : Bool} {ms : List (Nat × Entry)} {turn : Nat → Turn}
    {rest : List Nat} (h : Turning S may prefill e ms turn [] rest e') (hsorted : e.Sorted) :
    e'.Sorted := by
  refine ⟨?_, ?_⟩
  · rw [h.waiting]
    exact hsorted.waiting
  · rw [h.waiting, h.running]
    intro id hid id' hid'
    exact hsorted.running id (List.mem_filter.mp hid).1 id' hid'

theorem Executed.sorted {e₂ e₃ : EngineLoop σ α} {prefilled decoded : Nat → Turn}
    {evicted gone : List Nat}
    (hex : Executed S may e out e₁ prefilled e₂ decoded evicted e₃ gone e')
    (hroom : ¬MayExhaust may) (hs : e.Settled) (hn : e.Numbered) (hsorted : e.Sorted)
    (hone : out.preempt = [] ∨ out.prefill = []) : e'.Sorted := by
  obtain ⟨_, _, _, hprefill⟩ := hex.prefill
  obtain ⟨_, _, _, hdecode⟩ := hex.decode
  obtain rfl : evicted = [] := by
    by_contra hevicted
    exact hroom (hdecode.pressed hevicted)
  exact (hdecode.sorted (hprefill.sorted (hex.prepared.sorted hs hn hsorted hone))).departed
    hex.departed

theorem Round.sorted {cancelled : List Nat} {r : Bool × EngineLoop σ α}
    (h : Round S may commands e cancelled e₁ r) (hroom : ¬MayExhaust may)
    (hn : (e.drainCommands commands).Numbered) (hsorted : (e.drainCommands commands).Sorted)
    (hone : ∀ out, e₁.scheduleStep = .ok out → out.preempt = [] ∨ out.prefill = []) :
    r.2.Sorted := by
  have hsorted₁ := hsorted.departed h.departed
  have hn₁ : e₁.Numbered := fun id entry hl => hn id entry ((h.departed.lookup id entry).mp hl).2
  rcases h.outcome with ⟨hr, _⟩ | ⟨_, _, out, e₂, prefilled, e₃, decoded, evicted, e₄, gone, hex⟩
  · rw [hr]
    exact hsorted₁
  · exact hex.sorted hroom h.alone.settled hn₁ hsorted₁ (hone out hex.prepared.planned)

end EngineLoop

/-! ### Runs

Between two calls the order is that of the ids, through the lists and the command queue. -/

namespace Engine

open EngineLoop

variable {σ α : Type} {S : Services σ α} {may : Answers α} {e e' : Engine σ α}
  {geom : CacheGeometry} {blockSize numBlocks : Int} {state : σ} {pool : BlockPool α}
  {config : EngineConfig} {call : EngineCall}

/-- An engine between two calls whose requests are in order; those that have not been drained are
the last. -/
structure InOrder (e : Engine σ α) : Prop where
  sorted : e.loop.Sorted
  queue : (submitted e.queue.commands).Pairwise (· < ·)
  behind : ∀ id ∈ e.loop.requests, ∀ id' ∈ submitted e.queue.commands, id < id'

theorem InOrder.empty (hw : e.loop.waiting = []) (hrun : e.loop.running = [])
    (hc : e.queue.commands = []) : e.InOrder := by
  refine ⟨⟨?_, ?_⟩, ?_, ?_⟩
  · rw [hw]
    exact List.Pairwise.nil
  · rw [hrun]
    exact fun id hid => absurd hid List.not_mem_nil
  · rw [hc]
    exact List.Pairwise.nil
  · rw [hc]
    exact fun _ _ id' hid' => absurd hid' List.not_mem_nil

/-- A submit that is accepted takes the next number. -/
theorem InOrder.submit (h : e.InOrder) (hb : e.Booked S) (request : Request) (drawnSeed : Nat) :
    (e.submit request drawnSeed).2.InOrder := by
  unfold Engine.submit
  cases validateSubmit e.loop request drawnSeed with
  | error status => exact h
  | ok seq =>
      simp only
      by_cases hstop : e.queue.stopRequested = true
      · rw [if_pos hstop]
        exact h
      · rw [if_neg hstop]
        refine ⟨h.sorted, ?_, ?_⟩
        · show (submitted (e.queue.commands ++ [.submit _])).Pairwise (· < ·)
          rw [submitted_append]
          refine List.pairwise_append.mpr ⟨h.queue, List.pairwise_singleton _ _, ?_⟩
          intro id hid id' hid'
          rw [List.mem_singleton.mp hid']
          exact hb.below id (Or.inr hid)
        · intro id hid id' hid'
          rw [submitted_append] at hid'
          rcases List.mem_append.mp hid' with hid' | hid'
          · exact h.behind id hid id' hid'
          · rw [List.mem_singleton.mp hid']
            exact hb.below id (Or.inl hid)

variable [Zero α]

/-- A call keeps the order, unless it is a step that evicts and admits. -/
theorem InOrder.run (hm : S.model.Contract may) (hroom : ¬MayExhaust may) (h : e.InOrder)
    (halone : e.Alone S) (hserved : e.Served S) (hcall : ∀ use, call ≠ .use use)
    (hone : ¬EvictsAndAdmits S e call) (hrun : e.run S call = .ok e') : e'.InOrder := by
  cases call with
  | submit request drawnSeed =>
      cases hrun
      exact h.submit halone.toBooked request drawnSeed
  | cancel id =>
      cases hrun
      refine ⟨h.sorted, ?_, ?_⟩
      · show (submitted (e.queue.commands ++ [.cancel id])).Pairwise (· < ·)
        rw [submitted_cancel]
        exact h.queue
      · show ∀ id' ∈ e.loop.requests, ∀ id'' ∈ submitted (e.queue.commands ++ [.cancel id]), _
        rw [submitted_cancel]
        exact h.behind
  | step =>
      obtain ⟨⟨more, e₁⟩, hstep, heq⟩ := bind_eq_ok.mp hrun
      obtain ⟨⟨more', loop⟩, hloop, hpair⟩ := bind_eq_ok.mp hstep
      cases heq
      cases hpair
      obtain ⟨cancelled, e₁, hround⟩ := (halone.round hm).of_eq hloop
      have hn : (e.loop.drainCommands e.queue.commands).Numbered := by
        intro id entry hl
        rcases drainCommands_request _ _ id entry hl with
          ⟨entry', hl', hr⟩ | ⟨entry', hin, hid, hr⟩
        · rw [hr]
          exact hserved.arrived id entry' hl'
        · rw [hr, hid]
          exact hserved.arriving entry' hin
      refine ⟨?_, List.Pairwise.nil, fun _ _ id' hid' => absurd hid' List.not_mem_nil⟩
      refine hround.sorted hroom hn (h.sorted.drain halone.listed h.queue h.behind)
        fun out hout => ?_
      by_contra hboth
      rw [not_or] at hboth
      refine hone ⟨rfl, out, ?_, hboth⟩
      unfold Engine.nextPlan
      rw [hround.retired]
      exact hout
  | stop =>
      obtain ⟨loop, hloop, heq⟩ := bind_eq_ok.mp hrun
      cases heq
      obtain ⟨_, hw, hr, _⟩ := shutdown_empty S _ _ loop hloop
      exact .empty hw hr rfl
  | use u => exact absurd rfl (hcall u)

/-- **First come, first served.**  As long as no step both evicts and admits, what waits is in the
order of arrival and behind whatever runs, in every state between two calls, when nobody else uses
the pool and the model never refuses a sequence it has room for. -/
theorem reachable_firstCome (hm : S.model.Contract may) (hroom : ¬MayExhaust may)
    (hpool : BlockPool.create geom blockSize numBlocks = .ok pool) (hids : numBlocks ≤ 2 ^ 31)
    (h : ((aloneSystem S state pool config).restrict fun e call =>
      ¬EvictsAndAdmits S e call).Reachable e) : e.loop.FirstCome := by
  have hall : e.InOrder ∧ e.Alone S ∧ e.Served S := by
    refine h.invariant (I := fun e => e.InOrder ∧ e.Alone S ∧ e.Served S) ?_ ?_
    · intro e he
      obtain ⟨_, _, _, hw, hr, hc, _⟩ := create_ensures S state pool config e he
      exact ⟨.empty hw hr hc, .create hpool hids he, .create hpool hids he⟩
    · rintro e call e' _ ⟨hin, halone, hserved⟩ ⟨hone, hcall, hrun⟩
      exact ⟨hin.run hm hroom halone hserved hcall hone hrun, halone.run hm hcall hrun,
        hserved.run hm.shaped hcall hrun⟩
  exact hall.1.sorted.firstCome hall.2.2.arrived

end Engine

/-! ### Two runs

Two sequences fill a block each, and the older one takes the last block of three.  If somebody has
come meanwhile, he is admitted into the block of the younger one. -/

instance {σ α : Type} (S : Services σ α) (e : Engine σ α) :
    DecidablePred (EvictsAndAdmits S e) := fun call =>
  match call with
  | .step =>
      match h : e.nextPlan S with
      | .ok out => decidable_of_iff (out.preempt ≠ [] ∧ out.prefill ≠ []) (by
          constructor
          · exact fun hboth => ⟨rfl, out, h, hboth⟩
          · rintro ⟨_, out', h', hboth⟩
            cases h.symm.trans h'
            exact hboth)
      | .error _ => isFalse (by
          rintro ⟨_, out', h', _⟩
          cases h.symm.trans h')
  | .submit _ _ => isFalse fun h => nomatch h.1
  | .cancel _ => isFalse fun h => nomatch h.1
  | .stop => isFalse fun h => nomatch h.1
  | .use _ => isFalse fun h => nomatch h.1

/-- The calls of a run, carried out one by one as long as no step evicts and admits. -/
def orderlyRun (calls : List EngineCall) : Checked (Engine Unit Int) :=
  match Engine.create (zeroServices false) () zeroPool zeroConfig with
  | .error status => .error (.checkFailed status.message)
  | .ok e => calls.foldlM (fun e call =>
      if EvictsAndAdmits (zeroServices false) e call then .error (.checkFailed "evicts and admits")
      else e.run (zeroServices false) call) e

theorem orderlyRun_reached {calls : List EngineCall}
    (hcalls : ∀ call ∈ calls, ∀ use, call ≠ .use use) : (orderlyRun calls).Ensures
      ((aloneSystem (zeroServices false) () zeroPool zeroConfig).restrict fun e call =>
        ¬EvictsAndAdmits (zeroServices false) e call).Reachable := by
  unfold orderlyRun
  cases he : Engine.create (zeroServices false) () zeroPool zeroConfig with
  | error status => exact ensures_error _
  | ok e =>
      refine (Ensures.foldlM (fun rest e => (∀ call ∈ rest, ∀ use, call ≠ .use use) ∧
        ((aloneSystem (zeroServices false) () zeroPool zeroConfig).restrict fun e call =>
          ¬EvictsAndAdmits (zeroServices false) e call).Reachable e) ?_ calls e
            ⟨hcalls, .init he⟩).mono fun _ h => h.2
      rintro call rest e ⟨hcalls, hreach⟩ e' hrun
      refine ⟨fun c hc => hcalls c (List.mem_cons_of_mem _ hc), ?_⟩
      by_cases hboth : EvictsAndAdmits (zeroServices false) e call
      · rw [if_pos hboth] at hrun
        cases hrun
      · rw [if_neg hboth] at hrun
        exact .step hreach ⟨hboth, hcalls call List.mem_cons_self, hrun⟩

/-- The younger sequence is evicted, and nobody waits behind it. -/
theorem reachable_firstCome_evicted : ∃ e,
    ((aloneSystem (zeroServices false) () zeroPool zeroConfig).restrict fun e call =>
      ¬EvictsAndAdmits (zeroServices false) e call).Reachable e ∧
      e.loop.waiting = [2, 3] ∧ e.loop.running = [1] ∧ e.loop.FirstCome := by
  obtain ⟨e, hrun, htest⟩ := exists_of_test (orderlyRun
    [.submit (zeroRequest 8) 0, .submit (zeroRequest 8) 0, .step, .submit (zeroRequest 17) 0,
      .step])
    (fun e => e.loop.waiting = [2, 3] && e.loop.running = [1]) (by decide +kernel)
  rw [Bool.and_eq_true, decide_eq_true_eq, decide_eq_true_eq] at htest
  have hreach := orderlyRun_reached (by simp) e hrun
  have hroom : ¬EngineLoop.MayExhaust (fun _ _ (answer : StatusOr (List F32 × KvLog Int)) =>
      ∃ served, answer = .ok served) := by
    rintro ⟨_, _, _, _, _, h⟩
    cases h
  have hpool : BlockPool.create ⟨1, 1, 1, .float32⟩ 8 3 = .ok zeroPool := rfl
  exact ⟨e, hreach, htest.1, htest.2,
    Engine.reachable_firstCome zeroModel_contract hroom hpool (by decide) hreach⟩

/-- **The last to come is served before the victim of the same step**: the model never fails and
nobody else uses the pool, yet 3 runs while 2 waits. -/
theorem firstCome_inverted :
    (∃ may, (zeroModel false).Contract may ∧ ∀ g tokens status, ¬may g tokens (.error status)) ∧
      ∃ e, (aloneSystem (zeroServices false) () zeroPool zeroConfig).Reachable e ∧
        e.loop.waiting = [2] ∧ e.loop.running = [1, 3] ∧ ¬e.loop.FirstCome := by
  refine ⟨⟨_, zeroModel_contract, fun g tokens status h => ?_⟩, ?_⟩
  · obtain ⟨_, h⟩ := h
    cases h
  · obtain ⟨e, hrun, htest⟩ := exists_of_test (zeroRun false
      [.submit (zeroRequest 8) 0, .submit (zeroRequest 8) 0, .step, .submit (zeroRequest 8) 0,
        .step])
      (fun e => e.loop.waiting = [2] && e.loop.running = [1, 3] &&
        e.loop.standing 2 = some (1, .preempted) && e.loop.standing 3 = some (2, .running))
      (by decide +kernel)
    simp only [Bool.and_eq_true, decide_eq_true_eq] at htest
    obtain ⟨⟨⟨hw, hr⟩, h2⟩, h3⟩ := htest
    obtain ⟨entry₂, hl₂, ha₂, _⟩ := standing_eq_some h2
    obtain ⟨entry₃, hl₃, ha₃, _⟩ := standing_eq_some h3
    refine ⟨e, zeroRun_alone (by simp) e hrun, hw, hr, fun hfirst => ?_⟩
    have hlt := hfirst.running 3 (by rw [hr]; simp) 2 (by rw [hw]; simp) entry₃ entry₂ hl₃ hl₂
    rw [ha₂, ha₃] at hlt
    exact absurd hlt (by decide)

end InferenceEngine
