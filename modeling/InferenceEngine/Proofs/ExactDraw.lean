/-
The draw in exact arithmetic.

The stages are followed one by one.  The penalties and the temperature leave finite logits
finite and masked ones masked; top-k masks what is below the `k`-th largest logit; the softmax
of the row is the list of the survivors' probabilities; top-p makes the reference of it; and the
inverse transform finds the index at which the running sum of what is kept crosses `u * M`.
-/
import InferenceEngine.Proofs.Nucleus
import InferenceEngine.Proofs.Philox
import InferenceEngine.Proofs.SampleRow

namespace InferenceEngine

open Except RunningSum

variable {e : Rat → Rat} {log : F32 → F32}

/-! ### Penalties and temperature

What is masked stays masked and what is finite stays finite.  Which tokens can be drawn is thus
not decided here. -/

/-- A change that leaves finite logits finite and masked ones masked. -/
def Keeps (g : F32 → F32) : Prop :=
  (∀ x, ∃ y, g (.finite x) = .finite y) ∧ g (.infinity true) = .infinity true

/-- The rows are masked in the same places, and finite where they differ. -/
def SameMask (logits row : List F32) : Prop :=
  ∀ v : Nat, row[v]? = logits[v]? ∨
    ∃ a b, logits[v]? = some (F32.finite a) ∧ row[v]? = some (F32.finite b)

theorem SameMask.refl (logits : List F32) : SameMask logits logits := fun _ => Or.inl rfl

theorem SameMask.trans {logits row row' : List F32} (h : SameMask logits row)
    (h' : SameMask row row') : SameMask logits row' := by
  intro v
  rcases h' v with heq' | ⟨a', b', ha', hb'⟩
  · rw [heq']
    exact h v
  · rcases h v with heq | ⟨a, b, ha, _⟩
    · exact Or.inr ⟨a', b', heq ▸ ha', hb'⟩
    · exact Or.inr ⟨a, b', ha, hb'⟩

theorem SameMask.isLogits {logits row : List F32} (h : SameMask logits row)
    (hlogits : IsLogits logits) : IsLogits row := by
  constructor
  · intro x hx
    obtain ⟨v, hv⟩ := List.mem_iff_getElem?.mp hx
    rcases h v with heq | ⟨a, b, _, hb⟩
    · exact hlogits.masked_or_finite x (List.mem_of_getElem? (heq ▸ hv))
    · rw [hb] at hv
      exact Or.inr ⟨b, (Option.some.inj hv).symm⟩
  · obtain ⟨y, hy⟩ := hlogits.some_finite
    obtain ⟨v, hv⟩ := List.mem_iff_getElem?.mp hy
    rcases h v with heq | ⟨a, b, _, hb⟩
    · exact ⟨y, List.mem_of_getElem? (heq.trans hv)⟩
    · exact ⟨b, List.mem_of_getElem? hb⟩

theorem SameMask.length_eq {logits row : List F32} (h : SameMask logits row) :
    row.length = logits.length := by
  have hiff : ∀ v : Nat, row.length ≤ v ↔ logits.length ≤ v := by
    intro v
    rw [← List.getElem?_eq_none_iff, ← List.getElem?_eq_none_iff]
    rcases h v with heq | ⟨a, b, ha, hb⟩
    · rw [heq]
    · rw [ha, hb]
      simp
  have h1 := hiff row.length
  have h2 := hiff logits.length
  omega

/-- A change of one logit. -/
theorem sameShape_modify {g : F32 → F32} (hg : Keeps g) {logits : List F32}
    (hlogits : IsLogits logits) (i : Nat) : SameMask logits (logits.modify i g) := by
  intro v
  rw [List.getElem?_modify]
  by_cases hi : i = v
  · subst hi
    cases hx : logits[i]? with
    | none => exact Or.inl (by simp)
    | some x =>
        rcases hlogits.masked_or_finite x (List.mem_of_getElem? hx) with rfl | ⟨y, rfl⟩
        · exact Or.inl (by simp [hg.2])
        · obtain ⟨z, hz⟩ := hg.1 y
          exact Or.inr ⟨y, z, rfl, by simp [hz]⟩
  · exact Or.inl (by simp [hi])

theorem sameShape_updateLogits {κ : Type} (tokenId : κ → Int) {f : κ → F32 → F32}
    (hf : ∀ key, Keeps (f key)) : ∀ {keys : List κ} {logits : List F32}, IsLogits logits →
      SameMask logits (updateLogits tokenId f keys logits) := by
  intro keys
  induction keys with
  | nil => exact fun _ => SameMask.refl _
  | cons key keys ih =>
      intro logits hlogits
      have hfirst := sameShape_modify (hf key) hlogits (tokenId key).toNat
      exact hfirst.trans (ih (hfirst.isLogits hlogits))

theorem keeps_repetition {r : Rat} (hr : 0 < r) :
    Keeps (repeatedLogit (exactFloats e log) (.finite r)) := by
  have hsign : decide (r < 0) = false := decide_eq_false (not_lt.mpr hr.le)
  constructor
  · intro x
    unfold repeatedLogit
    by_cases h : F32.lt (.finite x) (.finite 0) = true
    · rw [if_pos h]
      exact ⟨x * r, rfl⟩
    · rw [if_neg h]
      exact ⟨x / r, if_neg hr.ne'⟩
  · unfold repeatedLogit
    refine (if_pos rfl).trans ((if_neg hr.ne').trans ?_)
    rw [hsign]
    rfl

theorem keeps_sub (p : Rat) : Keeps fun x => x.sub (exactFloats e log).single (.finite p) :=
  ⟨fun x => ⟨x - p, rfl⟩, rfl⟩

theorem keeps_div {t : Rat} (ht : 0 < t) :
    Keeps fun x => x.div (exactFloats e log).single (.finite t) := by
  refine ⟨fun x => ⟨x / t, if_neg ht.ne'⟩, ?_⟩
  show F32.infinity (true != decide (t < 0)) = _
  rw [decide_eq_false (not_lt.mpr ht.le)]
  rfl

section

variable {params : SamplingParams} {t q : Rat}

/-- A penalty that may be off. -/
theorem sameShape_ite {active : Prop} [Decidable active] {logits changed : List F32}
    (h : SameMask logits changed) : SameMask logits (if active then changed else logits) := by
  split
  · exact h
  · exact SameMask.refl _

theorem sameShape_penalized (hparams : ExactSettings params t q) {history : TokenHistory}
    {logits : List F32} (hlogits : IsLogits logits) :
    SameMask logits (penalized (exactFloats e log) params history logits) := by
  obtain ⟨r, hr, hr0⟩ := hparams.repetition
  obtain ⟨p, hp⟩ := hparams.presence
  obtain ⟨f, hf⟩ := hparams.frequency
  unfold penalized
  dsimp only
  rw [hr, hp, hf]
  have h1 : SameMask logits (if F32.finite r ≠ .finite 1 then
      applyRepetition (exactFloats e log) (.finite r) history.seen logits else logits) :=
    sameShape_ite (sameShape_updateLogits id (fun _ => keeps_repetition hr0) hlogits)
  refine h1.trans ?_
  have hlogits1 := h1.isLogits hlogits
  generalize (if F32.finite r ≠ .finite 1 then
      applyRepetition (exactFloats e log) (.finite r) history.seen logits else logits)
    = repeated at hlogits1 ⊢
  have hfrequency : ∀ entry : Int × Int, Keeps fun x => x.sub (exactFloats e log).single
      ((F32.finite f).mul (exactFloats e log).single ((exactFloats e log).single entry.2)) :=
    fun entry => keeps_sub (f * entry.2)
  have h2 : SameMask repeated (if F32.finite f ≠ .finite 0 then
      applyFrequency (exactFloats e log) (.finite f) history.entries repeated else repeated) :=
    sameShape_ite (sameShape_updateLogits Prod.fst hfrequency hlogits1)
  exact h2.trans (sameShape_ite (sameShape_updateLogits Prod.fst (fun _ => keeps_sub p)
    (h2.isLogits hlogits1)))

/-- What the penalties and the temperature make of a row. -/
theorem sameShape_work (hparams : ExactSettings params t q) {logits row : List F32}
    (hlogits : IsLogits logits) {context : SampleContext}
    (hrow : penalizedRow (exactFloats e log) logits context params = .ok row) :
    SameMask logits (applyTemperature (exactFloats e log) row params.temperature) := by
  have hpenalized : SameMask logits row := by
    unfold penalizedRow applyPenalties at hrow
    dsimp only at hrow
    split at hrow
    · cases hrow
      exact SameMask.refl _
    · obtain ⟨before, _, hrow⟩ := bind_eq_ok.mp hrow
      obtain ⟨history, _, hrow⟩ := bind_eq_ok.mp hrow
      have heq := Except.ok.inj hrow
      rw [← heq]
      exact sameShape_penalized hparams hlogits
  refine hpenalized.trans fun v => ?_
  have hkeeps : Keeps fun x => x.div (exactFloats e log).single (.finite t) :=
    keeps_div hparams.temperature_pos
  unfold applyTemperature
  rw [hparams.temperature, List.getElem?_map]
  cases hx : row[v]? with
  | none => exact Or.inl rfl
  | some x =>
      rcases (hpenalized.isLogits hlogits).masked_or_finite x (List.mem_of_getElem? hx) with
        rfl | ⟨y, rfl⟩
      · exact Or.inl (congrArg some hkeeps.2)
      · obtain ⟨z, hz⟩ := hkeeps.1 y
        exact Or.inr ⟨y, z, rfl, congrArg some hz⟩

end

/-! ### Top-k

The filter masks what is below the `k`-th largest logit.  Ties with it survive. -/

theorem applyTopK_eq {work : List F32} (hwork : ∀ x ∈ work, x ≠ .nan) (k : Int) :
    applyTopK work k = work.map fun x => if keptByTopK work k x then x else .infinity true := by
  unfold applyTopK
  by_cases hoff : k ≤ 0 ∨ (work.length : Int) ≤ k
  · rw [if_pos hoff]
    refine (List.map_id'' (fun x => ?_) work).symm
    have hkept : keptByTopK work k x = true := by
      unfold keptByTopK
      rcases hoff with h | h <;> simp [h]
    exact if_pos hkept
  · rw [if_neg hoff]
    -- without a NaN the two comparisons sort alike
    have hsort : (work.mergeSort fun a b => !a.lt b) = work.mergeSort fun a b => b.le a := by
      have hmap := List.map_mergeSort (r := fun a b : F32 => !a.lt b) (f := id)
        (s := fun a b : F32 => b.le a) (l := work) fun a ha b hb => by
          rw [F32.lt_eq_not_le (hwork a ha) (hwork b hb), Bool.not_not]
          rfl
      simpa using hmap
    have hindex : (k - 1).toNat = k.toNat - 1 := by omega
    dsimp only
    rw [hsort, hindex]
    refine List.map_congr_left fun x hx => ?_
    have hmem : kthLargest work k.toNat ∈ work := by
      have hlt : k.toNat - 1 < (work.mergeSort fun a b => b.le a).length := by
        rw [List.length_mergeSort]
        omega
      unfold kthLargest
      rw [List.getD_eq_getElem?_getD, List.getElem?_eq_getElem hlt, Option.getD_some]
      exact (List.mergeSort_perm work _).mem_iff.mp (List.getElem_mem hlt)
    have hkept : keptByTopK work k x = !x.lt (kthLargest work k.toNat) := by
      obtain ⟨h0, hle⟩ := not_or.mp hoff
      unfold keptByTopK
      rw [F32.lt_eq_not_le (hwork x hx) (hwork _ hmem)]
      simp [h0, hle]
    rw [hkept]
    show (if x.lt (kthLargest work k.toNat) = true then F32.infinity true else x) = _
    cases x.lt (kthLargest work k.toNat) <;> rfl

/-! ### Softmax

Masked entries get the weight zero and the others a positive one.  In exact arithmetic the
weights sum to one after the division. -/

theorem foldl_add_finite (weights : List Rat) : ∀ c : Rat,
    (weights.map F32.finite).foldl (F32.add (exactFloats e log).double) (.finite c)
      = .finite (c + weights.sum) := by
  induction weights with
  | nil => intro c; simp
  | cons w weights ih =>
      intro c
      rw [List.map_cons, List.foldl_cons, List.sum_cons, ← add_assoc]
      exact ih (c + w)

theorem sumDoubles_finite_exact (weights : List Rat) :
    sumDoubles (exactFloats e log) (weights.map F32.finite) = .finite weights.sum := by
  unfold sumDoubles
  rw [foldl_add_finite, zero_add]

section

variable {work : List F32} {top : Rat} {k : Int}

theorem expShifted_exact (hpeak : Peaked work top) :
    expShifted (exactFloats e log) (applyTopK work k)
      = (survivorWeights e top work k).map F32.finite := by
  unfold expShifted survivorWeights
  rw [(hpeak.topK k).max_eq, applyTopK_eq hpeak.number, List.map_map, List.map_map]
  refine List.map_congr_left fun x hx => ?_
  simp only [Function.comp_apply]
  rcases hpeak.le x hx with rfl | ⟨y, _, rfl⟩
  · rw [ite_self]
    rfl
  · cases keptByTopK work k (.finite y) <;> rfl

theorem survivorWeights_nonneg (he : ∀ x, 0 < e x) : ∀ w ∈ survivorWeights e top work k, 0 ≤ w := by
  intro w hw
  obtain ⟨x, _, rfl⟩ := List.mem_map.mp hw
  cases x with
  | finite y =>
      dsimp only
      split
      · exact (he _).le
      · exact le_refl _
  | nan => exact le_refl _
  | infinity s => exact le_refl _

/-- The largest logit survives. -/
theorem survivorWeights_sum_pos (he : ∀ x, 0 < e x) (hpeak : Peaked work top) :
    0 < (survivorWeights e top work k).sum := by
  have htop := (hpeak.topK k).mem
  rw [applyTopK_eq hpeak.number, List.mem_map] at htop
  obtain ⟨x, hx, hkept⟩ := htop
  have hmem : e (top - top) ∈ survivorWeights e top work k := by
    refine List.mem_map.mpr ⟨x, hx, ?_⟩
    cases hk : keptByTopK work k x with
    | false =>
        rw [hk] at hkept
        cases hkept
    | true =>
        rw [hk, if_pos rfl] at hkept
        subst hkept
        exact if_pos rfl
  exact lt_of_lt_of_le (he _) (List.single_le_sum (survivorWeights_nonneg he) _ hmem)

theorem softmax_exact (he : ∀ x, 0 < e x) (hpeak : Peaked work top) :
    softmax (exactFloats e log) (applyTopK work k)
      = (survivorProbs e top work k).map F32.finite := by
  have hsum := survivorWeights_sum_pos (k := k) he hpeak
  unfold softmax survivorProbs
  rw [expShifted_exact hpeak]
  dsimp only
  rw [sumDoubles_finite_exact, List.map_map, List.map_map]
  refine List.map_congr_left fun w _ => ?_
  have hinv : F32.div (exactFloats e log).double (.finite 1)
      (.finite (survivorWeights e top work k).sum)
      = .finite (1 / (survivorWeights e top work k).sum) := if_neg hsum.ne'
  simp only [Function.comp_apply]
  rw [hinv]
  show F32.finite (w * (1 / (survivorWeights e top work k).sum)) = _
  rw [mul_one_div]

theorem survivorProbs_length : (survivorProbs e top work k).length = work.length := by
  simp [survivorProbs, survivorWeights]

theorem survivorProbs_nonneg (he : ∀ x, 0 < e x) (hpeak : Peaked work top) :
    ∀ p ∈ survivorProbs e top work k, 0 ≤ p := by
  intro p hp
  obtain ⟨w, hw, rfl⟩ := List.mem_map.mp hp
  exact div_nonneg (survivorWeights_nonneg he w hw) (survivorWeights_sum_pos he hpeak).le

theorem survivorProbs_sum (he : ∀ x, 0 < e x) (hpeak : Peaked work top) :
    (survivorProbs e top work k).sum = 1 := by
  have hsum := survivorWeights_sum_pos (k := k) he hpeak
  unfold survivorProbs
  dsimp only
  have hscale : ∀ (weights : List Rat) (s : Rat),
      (weights.map fun w => w / s).sum = weights.sum / s := by
    intro weights s
    induction weights with
    | nil => simp
    | cons w weights ih => rw [List.map_cons, List.sum_cons, ih, List.sum_cons, add_div]
  rw [hscale, div_self hsum.ne']

/-- A token with a positive probability has a logit that passes top-k. -/
theorem kept_of_probOf_pos {v : Nat} (hpos : 0 < probOf (survivorProbs e top work k) v) :
    ∃ y, work[v]? = some (.finite y) ∧ keptByTopK work k (.finite y) = true := by
  unfold probOf survivorProbs survivorWeights at hpos
  dsimp only at hpos
  rw [List.getD_eq_getElem?_getD, List.getElem?_map, List.getElem?_map] at hpos
  cases hx : work[v]? with
  | none =>
      rw [hx] at hpos
      exact absurd hpos (lt_irrefl _)
  | some x =>
      rw [hx] at hpos
      cases x with
      | finite y =>
          refine ⟨y, rfl, ?_⟩
          by_contra hkept
          simp [hkept] at hpos
      | nan => simp at hpos
      | infinity s => simp at hpos

end

/-! ### Top-p

The nucleus is the shortest list of best tokens whose mass reaches the threshold. -/

/-- With all the mass as the threshold the reference keeps every positive token. -/
theorem topPReference_one {probs : List Rat} (hnonneg : ∀ p ∈ probs, 0 ≤ p)
    (hsum : probs.sum = 1) : topPReference probs 1 = probs := by
  refine List.ext_getElem? fun v => ?_
  by_cases hv : v < probs.length
  case neg =>
    rw [List.getElem?_eq_none, List.getElem?_eq_none (by omega)]
    rw [topPReference_length]
    omega
  rw [topPReference_getElem? hv, List.getElem?_eq_getElem hv, ← probOf_eq hv]
  by_cases hin : v ∈ nucleusIds probs 1
  · rw [if_pos hin]
  rw [if_neg hin]
  -- the tokens before `v` have all the mass, so it has none
  have hmass : 1 ≤ massBefore probs v := by
    by_contra hlt
    exact hin ((mem_nucleusIds hnonneg).mpr ⟨hv, not_le.mp hlt⟩)
  have hle : massBefore probs v + probOf probs v ≤ probs.sum := massBefore_add_le hnonneg hv
  have hzero : probOf probs v = 0 :=
    le_antisymm (by linarith) (probOf_nonneg hnonneg v)
  rw [hzero]

theorem applyTopP_exact {probs : List Rat} (hnonneg : ∀ p ∈ probs, 0 ≤ p) (hsum : probs.sum = 1)
    (hlen : probs.length ≤ 2 ^ 31) {q : Rat} (h0 : 0 < q) (h1 : q ≤ 1) :
    applyTopP (exactFloats e log) (probs.map F32.finite) (.finite q)
      = .ok ((topPReference probs q).map F32.finite) := by
  rcases lt_or_eq_of_le h1 with hlt | rfl
  · exact applyTopP_eq_reference hnonneg hlen h0 hlt
  · rw [topPReference_one hnonneg hsum]
    exact if_pos (by simp [F32.le])

/-! ### The inverse transform

The running sums of the kept probabilities cut the interval into parts, one for each kept
token.  The draw returns the token in whose part the scaled uniform number lies. -/

theorem cdfLoop_crosses {t : Rat} (fallback : Int) : ∀ {rest : List Rat} (v : Nat) {c : Rat},
    (∀ p ∈ rest, 0 ≤ p) → c ≤ t → t < c + rest.sum →
    ∃ k : Nat, cdfLoop (exactFloats e log) (.finite t) fallback (rest.map F32.finite) v (.finite c)
        = toInt32 (v + k : Nat) ∧ Crosses rest (t - c) k := by
  intro rest
  induction rest with
  | nil =>
      intro v c _ hc ht
      rw [List.sum_nil, add_zero] at ht
      exact absurd (lt_of_le_of_lt hc ht) (lt_irrefl _)
  | cons p rest ih =>
      intro v c hnonneg hc ht
      have hloop : cdfLoop (exactFloats e log) (.finite t) fallback ((p :: rest).map F32.finite) v
          (.finite c)
          = if t < c + p ∧ 0 < p then toInt32 v
            else cdfLoop (exactFloats e log) (.finite t) fallback (rest.map F32.finite) (v + 1)
              (.finite (c + p)) := by
        rw [List.map_cons, cdfLoop]
        simp [F32.add, F32.lt, exactFloats]
      rw [hloop]
      by_cases hcross : t < c + p ∧ 0 < p
      · rw [if_pos hcross]
        exact ⟨0, rfl, crosses_cons_zero (by linarith) (by linarith [hcross.1])⟩
      · rw [if_neg hcross]
        have hp := hnonneg p (by simp)
        have hnext : c + p ≤ t := by
          by_contra hlt
          have hpos : ¬0 < p := fun h => hcross ⟨not_le.mp hlt, h⟩
          linarith
        rw [List.sum_cons, ← add_assoc] at ht
        obtain ⟨k, hk, hcrosses⟩ := ih (v + 1)
          (fun p' hp' => hnonneg p' (List.mem_cons_of_mem _ hp'))
          hnext ht
        refine ⟨k + 1, ?_, ?_⟩
        · rw [hk, Nat.add_right_comm, Nat.add_assoc]
        · rw [← sub_sub] at hcrosses
          exact crosses_cons_succ hcrosses

theorem selectByCdf_crosses {kept : List Rat} (hnonneg : ∀ p ∈ kept, 0 ≤ p) (hsum : 0 < kept.sum)
    (hlen : kept.length ≤ 2 ^ 31) {u : Rat} (h0 : 0 ≤ u) (h1 : u < 1) :
    ∃ v : Nat, selectByCdf (exactFloats e log) (kept.map F32.finite) (.finite u) = (v : Int) ∧
      Crosses kept (u * kept.sum) v := by
  unfold selectByCdf
  rw [sumDoubles_finite_exact]
  have htarget : F32.mul (exactFloats e log).double (.finite u) (.finite kept.sum)
      = .finite (u * kept.sum) := rfl
  have hlt : u * kept.sum < 0 + kept.sum := by
    rw [zero_add]
    exact mul_lt_of_lt_one_left hsum h1
  have hloop : ∃ k : Nat, cdfLoop (exactFloats e log) (.finite (u * kept.sum))
      (lastPositive (kept.map F32.finite) 0 (-1)) (kept.map F32.finite) 0 (.finite 0)
      = toInt32 (0 + k : Nat) ∧ Crosses kept (u * kept.sum - 0) k :=
    cdfLoop_crosses _ 0 hnonneg (mul_nonneg h0 hsum.le) hlt
  obtain ⟨k, hk, hcrosses⟩ := hloop
  rw [sub_zero] at hcrosses
  refine ⟨k, ?_, hcrosses⟩
  obtain ⟨w, hw, _⟩ := hcrosses.pos
  have hklt := (List.getElem?_eq_some_iff.mp hw).1
  rw [htarget, hk, Nat.zero_add, toInt32_index (by omega)]

/-! ### The selection

The stages are composed.  A token is selected on an interval whose length is its share of the
mass that was kept. -/

/-- The row behind top-k and top-p, as probabilities. -/
def keptProbs (e : Rat → Rat) (top : Rat) (work : List F32) (k : Int) (q : Rat) : List Rat :=
  topPReference (survivorProbs e top work k) q

/-- The token `v` is what the uniform number `u` selects from the scaled row `work`. -/
structure Selected (e : Rat → Rat) (top : Rat) (work : List F32) (k : Int) (q u : Rat) (v : Nat) :
    Prop where
  topK : 0 < k → k < work.length →
    ∃ x, work[v]? = some x ∧ (kthLargest work k.toNat).le x = true
  nucleus : v ∈ nucleusIds (survivorProbs e top work k) q
  survivor : 0 < probOf (survivorProbs e top work k) v
  crosses : ∀ w, Crosses (keptProbs e top work k q) (u * (keptProbs e top work k q).sum) w ↔ w = v

section

variable {work : List F32} {top : Rat} {params : SamplingParams} {t q : Rat}

theorem keptProbs_nonneg (he : ∀ x, 0 < e x) (hpeak : Peaked work top) (k : Int) :
    ∀ p ∈ keptProbs e top work k q, 0 ≤ p := by
  intro p hp
  obtain ⟨v, hv⟩ := List.mem_iff_getElem?.mp hp
  have hlt := (List.getElem?_eq_some_iff.mp hv).1
  unfold keptProbs at hv hlt
  rw [topPReference_length] at hlt
  rw [topPReference_getElem? hlt] at hv
  cases hv
  split
  · exact probOf_nonneg (survivorProbs_nonneg he hpeak) v
  · exact le_refl _

theorem keptProbs_sum_pos (he : ∀ x, 0 < e x) (hpeak : Peaked work top) (k : Int) (hq : 0 < q) :
    0 < (keptProbs e top work k q).sum := by
  have hnonneg : ∀ p ∈ survivorProbs e top work k, 0 ≤ p := survivorProbs_nonneg he hpeak
  have hpos : ∃ p ∈ survivorProbs e top work k, 0 < p := by
    by_contra hnone
    have hzero : (survivorProbs e top work k).sum = 0 := by
      refine List.sum_eq_zero fun p hp => le_antisymm ?_ (hnonneg p hp)
      exact not_lt.mp fun h => hnone ⟨p, hp, h⟩
    rw [survivorProbs_sum he hpeak] at hzero
    exact one_ne_zero hzero
  obtain ⟨v, hv, hv0⟩ := nucleusIds_positive hnonneg hpos hq
  have hlt := ((mem_nucleusIds hnonneg).mp hv).1
  have hget : (topPReference (survivorProbs e top work k) q)[v]? = _ :=
    topPReference_getElem? hlt
  rw [if_pos hv] at hget
  exact lt_of_lt_of_le hv0
    (List.single_le_sum (keptProbs_nonneg he hpeak k) _ (List.mem_of_getElem? hget))

/-- A token with a positive kept probability passed both filters. -/
theorem keptProbs_pos {k : Int} {v : Nat} {p : Rat} (hv : (keptProbs e top work k q)[v]? = some p)
    (hp : 0 < p) :
    v ∈ nucleusIds (survivorProbs e top work k) q ∧ 0 < probOf (survivorProbs e top work k) v := by
  have hlt := (List.getElem?_eq_some_iff.mp hv).1
  unfold keptProbs at hv hlt
  rw [topPReference_length] at hlt
  rw [topPReference_getElem? hlt] at hv
  cases hv
  by_cases hin : v ∈ nucleusIds (survivorProbs e top work k) q
  · rw [if_pos hin] at hp
    exact ⟨hin, hp⟩
  · rw [if_neg hin] at hp
    exact absurd hp (lt_irrefl _)

/-- **The draw at `u`.** -/
theorem drawAt_selected (he : ∀ x, 0 < e x) (hpeak : Peaked work top)
    (hparams : ExactSettings params t q) (hlen : work.length ≤ 2 ^ 31) {u : Rat} (h0 : 0 ≤ u)
    (h1 : u < 1) :
    ∃ v : Nat, drawAt (exactFloats e log) work params (.finite u) = .ok (v : Int) ∧
      Selected e top work params.topK q u v := by
  have hnonneg := keptProbs_nonneg (q := q) he hpeak params.topK
  have hsum := keptProbs_sum_pos he hpeak params.topK hparams.topP_pos
  have hlength : (keptProbs e top work params.topK q).length = work.length := by
    unfold keptProbs
    rw [topPReference_length, survivorProbs_length]
  have hselect : ∃ v : Nat, selectByCdf (exactFloats e log)
      ((keptProbs e top work params.topK q).map F32.finite) (.finite u) = (v : Int) ∧
      Crosses (keptProbs e top work params.topK q)
        (u * (keptProbs e top work params.topK q).sum) v :=
    selectByCdf_crosses hnonneg hsum (by rw [hlength]; exact hlen) h0 h1
  obtain ⟨v, hv, hcrosses⟩ := hselect
  obtain ⟨p, hp, hp0⟩ := hcrosses.pos
  obtain ⟨hnucleus, hsurvivor⟩ := keptProbs_pos hp hp0
  refine ⟨v, ?_, ?_, hnucleus, hsurvivor, ?_⟩
  · unfold drawAt
    rw [softmax_exact he hpeak, hparams.topP, applyTopP_exact (survivorProbs_nonneg he hpeak)
      (survivorProbs_sum he hpeak) (by rw [survivorProbs_length]; exact hlen) hparams.topP_pos
      hparams.topP_le, ok_bind]
    exact congrArg Except.ok hv
  · intro hk hlt
    obtain ⟨y, hy, hkept⟩ := kept_of_probOf_pos hsurvivor
    refine ⟨_, hy, ?_⟩
    unfold keptByTopK at hkept
    simpa [not_le.mpr hk, not_le.mpr hlt] using hkept
  · intro w
    constructor
    · exact fun hw => hw.unique hnonneg hcrosses
    · rintro rfl
      exact hcrosses

/-- A draw that selects each kept token on an interval of its own, as long as the token's share
of what is kept, and no other token. -/
structure SelectsByShare (draw : Rat → Checked Int) (kept : List Rat) : Prop where
  mass_pos : 0 < kept.sum
  interval : ∀ (v : Nat) (p : Rat), kept[v]? = some p → 0 < p → ∀ u, 0 ≤ u → u < 1 →
    (draw u = .ok (v : Int) ↔
      (kept.take v).sum / kept.sum ≤ u ∧ u < (kept.take (v + 1)).sum / kept.sum)
  length : ∀ (v : Nat) (p : Rat), kept[v]? = some p →
    (kept.take (v + 1)).sum / kept.sum - (kept.take v).sum / kept.sum = p / kept.sum
  bounds : ∀ v : Nat, 0 ≤ (kept.take v).sum / kept.sum ∧ (kept.take v).sum / kept.sum ≤ 1
  filtered : ∀ v : Nat, (∀ p, kept[v]? = some p → ¬0 < p) → ∀ u, 0 ≤ u → u < 1 →
    draw u ≠ .ok (v : Int)

theorem drawAt_share (he : ∀ x, 0 < e x) (hpeak : Peaked work top)
    (hparams : ExactSettings params t q) (hlen : work.length ≤ 2 ^ 31) :
    SelectsByShare (fun u => drawAt (exactFloats e log) work params (.finite u))
      (keptProbs e top work params.topK q) := by
  have hsum := keptProbs_sum_pos he hpeak params.topK hparams.topP_pos
  have hnonneg := keptProbs_nonneg (q := q) he hpeak params.topK
  have hdraws : ∀ (u : Rat) (v : Nat), 0 ≤ u → u < 1 →
      (drawAt (exactFloats e log) work params (.finite u) = .ok (v : Int) ↔
        Crosses (keptProbs e top work params.topK q)
          (u * (keptProbs e top work params.topK q).sum) v) := by
    intro u v h0 h1
    have hdraw : ∃ w : Nat, drawAt (exactFloats e log) work params (.finite u) = .ok (w : Int) ∧
        Selected e top work params.topK q u w := drawAt_selected he hpeak hparams hlen h0 h1
    obtain ⟨w, hw, hselected⟩ := hdraw
    rw [hw, hselected.crosses]
    constructor
    · intro heq
      exact (Int.ofNat.inj (Except.ok.inj heq)).symm
    · rintro rfl
      rfl
  refine ⟨hsum, ?_, fun v p hv => interval_length hv, fun v => ⟨?_, ?_⟩, ?_⟩
  · intro v p _ _ u h0 h1
    rw [hdraws u v h0 h1, crosses_mul_iff hsum]
  · have hle := sum_take_mono hnonneg (Nat.zero_le v)
    rw [List.take_zero, List.sum_nil] at hle
    exact div_nonneg hle hsum.le
  · rw [div_le_one hsum]
    have hle := sum_take_mono hnonneg
      (Nat.le_max_left v (keptProbs e top work params.topK q).length)
    rwa [List.take_of_length_le (Nat.le_max_right _ _)] at hle
  · intro v hnone u h0 h1 hdraw
    obtain ⟨p, hp, hp0⟩ := ((hdraws u v h0 h1).mp hdraw).pos
    exact hnone p hp hp0

end

/-- **Stochastic selection in exact arithmetic.**  Of a row of logits whose history is in the
vocabulary, `SampleStochastic` returns what `drawAt` selects for the number of the generator; and
for every number in the unit interval that is the token of the crossing, which passed top-k and
is in the nucleus of the survivors, so that each kept token is drawn by its share. -/
theorem sampleStochastic_selects (e : Rat → Rat) (he : ∀ x, 0 < e x) (log : F32 → F32)
    (params : SamplingParams) (t q : Rat) (hparams : ExactSettings params t q)
    (context : SampleContext) (logits row : List F32) (hlogits : IsLogits logits)
    (hlen : logits.length ≤ 2 ^ 31)
    (hrow : penalizedRow (exactFloats e log) logits context params = .ok row) :
    let work := applyTemperature (exactFloats e log) row params.temperature
    ∃ top, maxLogit work = .finite top ∧
      (∀ seed step, ∃ u, philoxUniformDouble seed step 0 = .finite u ∧ 0 ≤ u ∧ u < 1 ∧
        sampleStochastic (exactFloats e log) logits context params seed step false
          = (drawAt (exactFloats e log) work params (.finite u)).map
              fun token => .ok ⟨token, none⟩) ∧
      (∀ u : Rat, 0 ≤ u → u < 1 → ∃ v : Nat,
        drawAt (exactFloats e log) work params (.finite u) = .ok (v : Int) ∧
          Selected e top work params.topK q u v) ∧
      SelectsByShare (fun u => drawAt (exactFloats e log) work params (.finite u))
        (keptProbs e top work params.topK q) := by
  intro work
  have hshape : SameMask logits work := sameShape_work hparams hlogits hrow
  have hwork := hshape.isLogits hlogits
  obtain ⟨top, hpeak⟩ := hwork.peaked
  have hlength : work.length ≤ 2 ^ 31 := by
    rw [hshape.length_eq]
    exact hlen
  refine ⟨top, hpeak.max_eq, ?_, fun u h0 h1 => drawAt_selected he hpeak hparams hlength h0 h1,
    drawAt_share he hpeak hparams hlength⟩
  intro seed step
  obtain ⟨u, hu, h0, h1⟩ := philoxUniformDouble_unit seed step 0
  refine ⟨u, hu, h0, h1, ?_⟩
  have hne : logits ≠ [] := by
    intro hnil
    obtain ⟨y, hy⟩ := hlogits.some_finite
    rw [hnil] at hy
    cases hy
  unfold sampleStochastic drawToken drawAt
  rw [if_neg hne, checkFinite_iff.mpr hlogits, hrow]
  dsimp only
  rw [hu]
  show (applyTopP (exactFloats e log) (softmax (exactFloats e log) (applyTopK work params.topK))
    params.topP >>= _) >>= _ = _
  cases applyTopP (exactFloats e log) (softmax (exactFloats e log) (applyTopK work params.topK))
    params.topP <;> rfl

/-- A positive, strictly increasing function to stand for the exponential. -/
def hyperbola (x : Rat) : Rat := if x < 0 then 1 / (1 - x) else 1 + x

theorem hyperbola_pos (x : Rat) : 0 < hyperbola x := by
  unfold hyperbola
  split
  · apply div_pos <;> linarith
  · linarith

/-- A penalty on the first token, and half of the mass of the two best ones. -/
def penaltyParams : SamplingParams :=
  { temperature := .finite (1 / 2), topK := 2, topP := .finite (1 / 2),
    repetitionPenalty := .finite 2, maxTokens := 1 }

theorem sampleStochastic_selects_pair :
    let work := applyTemperature (exactFloats hyperbola id)
      [.finite 1, .infinity true, .finite (3 / 2)] penaltyParams.temperature
    ∃ top, maxLogit work = .finite top ∧
      (∀ seed step, ∃ u, philoxUniformDouble seed step 0 = .finite u ∧ 0 ≤ u ∧ u < 1 ∧
        sampleStochastic (exactFloats hyperbola id) [.finite 2, .infinity true, .finite (3 / 2)]
            ⟨[0], []⟩ penaltyParams seed step false
          = (drawAt (exactFloats hyperbola id) work penaltyParams (.finite u)).map
              fun token => .ok ⟨token, none⟩) ∧
      (∀ u : Rat, 0 ≤ u → u < 1 → ∃ v : Nat,
        drawAt (exactFloats hyperbola id) work penaltyParams (.finite u) = .ok (v : Int) ∧
          Selected hyperbola top work penaltyParams.topK (1 / 2) u v) ∧
      SelectsByShare (fun u => drawAt (exactFloats hyperbola id) work penaltyParams (.finite u))
        (keptProbs hyperbola top work penaltyParams.topK (1 / 2)) :=
  sampleStochastic_selects hyperbola hyperbola_pos id penaltyParams (1 / 2) (1 / 2)
    ⟨rfl, by norm_num, ⟨2, rfl, by norm_num⟩, ⟨0, rfl⟩, ⟨0, rfl⟩, rfl, by norm_num, by norm_num⟩
    ⟨[0], []⟩ [.finite 2, .infinity true, .finite (3 / 2)]
    [.finite 1, .infinity true, .finite (3 / 2)] ⟨by simp, 2, by simp⟩ (by simp)
    (by decide +kernel)

end InferenceEngine
