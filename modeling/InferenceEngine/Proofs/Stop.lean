/-
Stop strings, chunk by chunk.

Between two chunks the matcher holds a tail of the text in which no stop string has occurred,
and no stop string that is still to come can begin before that tail.  A match is therefore the
earliest occurrence in the text seen so far.  It need not be the earliest one in the whole
text: a stop string that began earlier may still be incomplete.
-/
import InferenceEngine.Engine.Stop
import InferenceEngine.Lib.Words

namespace InferenceEngine

open Occurrences

variable {stops : List Text} {stop text chunk emitted : Text} {pos : Nat}

/-! ### Searching

The search takes the least place at which one of the stop strings occurs. -/

theorem findText_spec (stop text : Text) : match findText stop text with
    | some pos => OccursAt stop text pos ∧ ∀ q, OccursAt stop text q → pos ≤ q
    | none => ∀ q, ¬OccursAt stop text q := by
  induction text with
  | nil =>
      unfold findText
      by_cases hstop : stop.isEmpty = true
      · rw [if_pos hstop]
        rw [List.isEmpty_iff.mp hstop]
        exact ⟨List.nil_prefix, fun q _ => Nat.zero_le q⟩
      · rw [if_neg hstop]
        intro q hq
        unfold OccursAt at hq
        rw [List.drop_nil, List.prefix_nil] at hq
        exact hstop (List.isEmpty_iff.mpr hq)
  | cons c text ih =>
      unfold findText
      by_cases hpre : stop.isPrefixOf (c :: text) = true
      · rw [if_pos hpre]
        exact ⟨List.isPrefixOf_iff_prefix.mp hpre, fun q _ => Nat.zero_le q⟩
      · rw [if_neg hpre]
        have hzero : ¬OccursAt stop (c :: text) 0 := fun hc =>
          hpre (List.isPrefixOf_iff_prefix.mpr hc)
        cases hfind : findText stop text with
        | none =>
            rw [hfind] at ih
            intro q hq
            cases q with
            | zero => exact hzero hq
            | succ q => exact ih q hq
        | some pos =>
            rw [hfind] at ih
            refine ⟨ih.1, fun q hq => ?_⟩
            cases q with
            | zero => exact absurd hq hzero
            | succ q => exact Nat.succ_le_succ (ih.2 q hq)

theorem earliest_spec (stops : List Text) (text : Text) :
    match StopStringMatcher.earliest stops text with
    | some (pos, stop) => Earliest stops text pos stop
    | none => Absent stops text := by
  induction stops using List.reverseRecOn with
  | nil => intro w hw; exact absurd hw List.not_mem_nil
  | append_singleton stops stop ih =>
      have hfind := findText_spec stop text
      have hsnoc : ∀ w ∈ stops ++ [stop], w ∈ stops ∨ w = stop := fun w hw =>
        (List.mem_append.mp hw).imp_right List.mem_singleton.mp
      unfold StopStringMatcher.earliest at ih ⊢
      rw [List.foldl_append, List.foldl_cons, List.foldl_nil]
      revert ih
      generalize stops.foldl _ none = best
      intro ih
      cases hfound : findText stop text with
      | none =>
          rw [hfound] at hfind
          cases best with
          | none =>
              intro w hw q hq
              rcases hsnoc w hw with hw | rfl
              · exact ih w hw q hq
              · exact hfind q hq
          | some best =>
              obtain ⟨bestPos, bestStop⟩ := best
              refine ⟨ih.occurs, fun w hw q hq => ?_, ?_⟩
              · rcases hsnoc w hw with hw | rfl
                · exact ih.least w hw q hq
                · exact absurd hq (hfind q)
              · obtain ⟨front, back, hstops, hfront⟩ := ih.first
                exact ⟨front, back ++ [stop], by rw [hstops]; simp, hfront⟩
      | some pos =>
          rw [hfound] at hfind
          obtain ⟨hocc, hleast⟩ := hfind
          cases best with
          | none =>
              refine ⟨hocc, fun w hw q hq => ?_, stops, [], by simp, fun w hw => ih w hw pos⟩
              rcases hsnoc w hw with hw | rfl
              · exact absurd hq (ih w hw q)
              · exact hleast q hq
          | some best =>
              obtain ⟨bestPos, bestStop⟩ := best
              dsimp only
              by_cases hlt : pos < bestPos
              · rw [if_pos hlt]
                refine ⟨hocc, fun w hw q hq => ?_, stops, [], by simp, fun w hw hc => ?_⟩
                · rcases hsnoc w hw with hw | rfl
                  · exact le_trans hlt.le (ih.least w hw q hq)
                  · exact hleast q hq
                · exact absurd (ih.least w hw pos hc) (by omega)
              · rw [if_neg hlt]
                refine ⟨ih.occurs, fun w hw q hq => ?_, ?_⟩
                · rcases hsnoc w hw with hw | rfl
                  · exact ih.least w hw q hq
                  · exact le_trans (by omega) (hleast q hq)
                · obtain ⟨front, back, hstops, hfront⟩ := ih.first
                  exact ⟨front, back ++ [stop], by rw [hstops]; simp, hfront⟩

/-- What the search finds is the earliest occurrence. -/
theorem earliest_eq_some_iff :
    StopStringMatcher.earliest stops text = some (pos, stop) ↔ Earliest stops text pos stop := by
  have hspec := earliest_spec stops text
  refine ⟨fun h => by rwa [h] at hspec, fun h => ?_⟩
  revert hspec
  cases StopStringMatcher.earliest stops text with
  | none => intro hspec; exact absurd h.occurs (hspec stop h.mem pos)
  | some found =>
      intro hspec
      obtain ⟨hpos, hstop⟩ := hspec.unique h
      exact congrArg some (Prod.ext hpos hstop)

theorem earliest_eq_none_iff :
    StopStringMatcher.earliest stops text = none ↔ Absent stops text := by
  have hspec := earliest_spec stops text
  refine ⟨fun h => by rwa [h] at hspec, fun h => ?_⟩
  revert hspec
  cases StopStringMatcher.earliest stops text with
  | none => intro _; rfl
  | some found => intro hspec; exact absurd hspec.occurs (h _ hspec.mem _)

/-! ### Holding back

A tail is held as long as it could be the beginning of a stop string.  Nothing that is still to
come can begin before it. -/

theorem overlapFrom_le (text stop : Text) (len : Nat) : overlapFrom text stop len ≤ len := by
  induction len with
  | zero => exact le_refl _
  | succ len ih =>
      unfold overlapFrom
      split
      · exact le_refl _
      · exact le_trans ih (Nat.le_succ _)

theorem le_overlapFrom {n len : Nat} (hle : n ≤ len)
    (h : text.drop (text.length - n) = stop.take n) : n ≤ overlapFrom text stop len := by
  induction len with
  | zero => exact hle
  | succ len ih =>
      unfold overlapFrom
      by_cases hlen : text.drop (text.length - (len + 1)) = stop.take (len + 1)
      · rw [if_pos hlen]
        exact hle
      · rw [if_neg hlen]
        refine ih ?_
        by_contra hc
        obtain rfl : n = len + 1 := by omega
        exact hlen h

private theorem le_foldl_max {f : Text → Nat} : ∀ {l : List Text} {n : Nat},
    n ≤ l.foldl (fun hold x => max hold (f x)) n ∧
      ∀ x ∈ l, f x ≤ l.foldl (fun hold x => max hold (f x)) n := by
  intro l
  induction l with
  | nil => intro n; exact ⟨le_refl _, by simp⟩
  | cons a l ih =>
      intro n
      obtain ⟨hn, hl⟩ := ih (n := max n (f a))
      refine ⟨le_trans (le_max_left _ _) hn, fun x hx => ?_⟩
      rcases List.mem_cons.mp hx with rfl | hx
      · exact le_trans (le_max_right _ _) hn
      · exact hl x hx

private theorem foldl_max_le {f : Text → Nat} {b : Nat} : ∀ {l : List Text} {n : Nat}, n ≤ b →
    (∀ x ∈ l, f x ≤ b) → l.foldl (fun hold x => max hold (f x)) n ≤ b := by
  intro l
  induction l with
  | nil => intro n hn _; exact hn
  | cons a l ih =>
      intro n hn h
      exact ih (max_le hn (h a (by simp))) fun x hx => h x (List.mem_cons_of_mem _ hx)

/-- The bytes that are held back. -/
def holdLength (stops : List Text) (held : Text) : Nat :=
  stops.foldl (fun hold stop => max hold (longestPrefixOverlap held stop)) 0

theorem holdLength_le (stops : List Text) (held : Text) : holdLength stops held ≤ held.length := by
  refine foldl_max_le (Nat.zero_le _) fun stop _ => ?_
  exact le_trans (overlapFrom_le _ _ _) (min_le_left _ _)

/-- What the search for an overlap finds. -/
theorem overlapFrom_spec (text stop : Text) (len : Nat) :
    overlapFrom text stop len = 0 ∨
      text.drop (text.length - overlapFrom text stop len)
        = stop.take (overlapFrom text stop len) := by
  induction len with
  | zero => exact Or.inl rfl
  | succ len ih =>
      unfold overlapFrom
      by_cases hlen : text.drop (text.length - (len + 1)) = stop.take (len + 1)
      · rw [if_pos hlen]
        exact Or.inr hlen
      · rw [if_neg hlen]
        exact ih

private theorem foldl_max_mem {f : Text → Nat} : ∀ {l : List Text} {n : Nat},
    l.foldl (fun hold x => max hold (f x)) n = n ∨
      ∃ x ∈ l, l.foldl (fun hold x => max hold (f x)) n = f x := by
  intro l
  induction l with
  | nil => intro n; exact Or.inl rfl
  | cons a l ih =>
      intro n
      rcases ih (n := max n (f a)) with h | ⟨x, hx, h⟩
      · rcases max_choice n (f a) with hm | hm
        · exact Or.inl (h.trans hm)
        · exact Or.inr ⟨a, by simp, h.trans hm⟩
      · exact Or.inr ⟨x, List.mem_cons_of_mem _ hx, h⟩

/-- What is held back is the beginning of a stop string. -/
theorem holdLength_begun (hne : ∀ stop ∈ stops, stop ≠ []) (held : Text) :
    held.drop (held.length - holdLength stops held) = [] ∨
      ∃ stop ∈ stops, held.drop (held.length - holdLength stops held) <+: stop ∧
        (held.drop (held.length - holdLength stops held)).length < stop.length := by
  have hzero : holdLength stops held = 0 →
      held.drop (held.length - holdLength stops held) = [] := by
    intro h0
    rw [h0, Nat.sub_zero, List.drop_length]
  rcases foldl_max_mem (f := longestPrefixOverlap held) (l := stops) (n := 0) with h |
    ⟨stop, hmem, h⟩
  · exact Or.inl (hzero h)
  · change holdLength stops held = longestPrefixOverlap held stop at h
    have hle := overlapFrom_le held stop (min held.length (stop.length - 1))
    have hpos := List.length_pos_iff.mpr (hne stop hmem)
    change longestPrefixOverlap held stop ≤ _ at hle
    rcases overlapFrom_spec held stop (min held.length (stop.length - 1)) with h0 | hover
    · exact Or.inl (hzero (h.trans h0))
    · refine Or.inr ⟨stop, hmem, ?_, ?_⟩
      · rw [h]
        exact hover ▸ List.take_prefix _ _
      · rw [List.length_drop, h]
        omega

/-- **Every stop string that is still to come begins in what is held back.** -/
theorem le_of_occursAt_append {held more : Text} (hmem : stop ∈ stops) (habsent : Absent stops held)
    (h : OccursAt stop (held ++ more) pos) :
    held.length - holdLength stops held ≤ pos := by
  by_contra hlt
  have hpos : pos ≤ held.length := by omega
  have hend : held.length < pos + stop.length := by
    by_contra hc
    exact habsent stop hmem pos (h.of_append (by omega))
  have hbegun := h.begun hpos hend
  have hover : held.length - pos ≤ longestPrefixOverlap held stop := by
    refine le_overlapFrom (le_min (Nat.sub_le _ _) (by omega)) ?_
    rw [Nat.sub_sub_self hpos]
    exact hbegun
  have hhold : longestPrefixOverlap held stop ≤ holdLength stops held := le_foldl_max.2 stop hmem
  omega

/-! ### Feeding

One chunk either completes a match or lengthens the text in which there is none.  The next chunk
starts from the same invariant. -/

namespace StopStringMatcher

/-- A matcher that has been fed `text` and has found nothing in it. -/
structure Holding (stops : List Text) (text emitted : Text) (m : StopStringMatcher) : Prop where
  stops_eq : m.stops = stops
  matched : m.matched = false
  split : text = emitted ++ m.held
  absent : Absent stops text
  late : ∀ stop ∈ stops, ∀ more pos, OccursAt stop (text ++ more) pos → emitted.length ≤ pos
  idle : stops = [] → m.held = []

theorem holding_new (hne : ∀ stop ∈ stops, stop ≠ []) : Holding stops [] [] (new stops) := by
  refine ⟨rfl, rfl, rfl, fun stop hstop pos h => ?_, fun _ _ _ _ _ => Nat.zero_le _, fun _ => rfl⟩
  unfold OccursAt at h
  rw [List.drop_nil, List.prefix_nil] at h
  exact hne stop hstop h

/-- **One chunk**: either the earliest occurrence in the text so far, or nothing in it. -/
theorem Holding.feed {m : StopStringMatcher} (h : Holding stops text emitted m) (chunk : Text) :
    (∃ pos stop, Earliest stops (text ++ chunk) pos stop ∧ (m.feed chunk).1.found = some stop ∧
      emitted ++ (m.feed chunk).1.emit = (text ++ chunk).take pos) ∨
    ((m.feed chunk).1.found = none ∧
      Holding stops (text ++ chunk) (emitted ++ (m.feed chunk).1.emit) (m.feed chunk).2) := by
  have hsplit : text ++ chunk = emitted ++ (m.held ++ chunk) := by
    rw [← List.append_assoc, ← h.split]
  have hlate : ∀ stop ∈ stops, ∀ q, OccursAt stop (emitted ++ (m.held ++ chunk)) q →
      emitted.length ≤ q := by
    intro stop hstop q hq
    rw [← hsplit] at hq
    exact h.late stop hstop chunk q hq
  unfold StopStringMatcher.feed
  by_cases hstops : stops = []
  · -- nothing to look for: a pure pass-through
    have hcond : (m.matched || m.stops.isEmpty) = true := by
      rw [h.stops_eq, hstops]
      simp
    rw [if_pos hcond]
    refine Or.inr ⟨rfl, h.stops_eq, h.matched, ?_, ?_, ?_, h.idle⟩
    · rw [h.idle hstops, List.append_nil, hsplit, h.idle hstops, List.nil_append]
    · rw [hstops]
      exact fun stop hstop => absurd hstop List.not_mem_nil
    · rw [hstops]
      exact fun stop hstop => absurd hstop List.not_mem_nil
  · have hcond : (m.matched || m.stops.isEmpty) = false := by
      rw [h.stops_eq, h.matched, Bool.false_or, List.isEmpty_eq_false_iff]
      exact hstops
    rw [if_neg (by rw [hcond]; exact Bool.false_ne_true)]
    simp only [h.stops_eq]
    cases hfound : earliest stops (m.held ++ chunk) with
    | some found =>
        obtain ⟨pos, stop⟩ := found
        refine Or.inl ⟨emitted.length + pos, stop, ?_, rfl, ?_⟩
        · rw [hsplit]
          exact (earliest_append_iff hlate).mpr (earliest_eq_some_iff.mp hfound)
        · rw [hsplit, List.take_length_add_append]
    | none =>
        have habsent := earliest_eq_none_iff.mp hfound
        have hle := holdLength_le stops (m.held ++ chunk)
        dsimp only
        refine Or.inr ⟨rfl, rfl, h.matched, ?_, ?_, ?_, fun hc => absurd hc hstops⟩
        · rw [List.append_assoc, List.take_append_drop, hsplit]
        · rw [hsplit]
          exact (absent_append_iff hlate).mpr habsent
        · intro stop hstop more q hq
          have hmin := h.late stop hstop (chunk ++ more) q (by rw [← List.append_assoc]; exact hq)
          obtain ⟨d, rfl⟩ := Nat.le.dest hmin
          rw [hsplit, List.append_assoc, occursAt_append_iff] at hq
          have := le_of_occursAt_append hstop habsent hq
          show (emitted ++ (m.held ++ chunk).take
            ((m.held ++ chunk).length - holdLength stops (m.held ++ chunk))).length ≤ _
          rw [List.length_append, List.length_take]
          omega

/-- After a chunk without a match, what is held is the beginning of a stop string. -/
theorem feed_begun {m : StopStringMatcher} (hne : ∀ stop ∈ m.stops, stop ≠ [])
    (hheld : m.held = [] ∨ ∃ stop ∈ m.stops, m.held <+: stop ∧ m.held.length < stop.length)
    (hfound : (m.feed chunk).1.found = none) :
    (m.feed chunk).2.held = [] ∨
      ∃ stop ∈ m.stops, (m.feed chunk).2.held <+: stop ∧
        (m.feed chunk).2.held.length < stop.length := by
  unfold StopStringMatcher.feed at hfound ⊢
  by_cases hcond : (m.matched || m.stops.isEmpty) = true
  · rw [if_pos hcond]
    exact hheld
  · rw [if_neg hcond] at hfound ⊢
    dsimp only at hfound ⊢
    cases hearliest : earliest m.stops (m.held ++ chunk) with
    | some found =>
        rw [hearliest] at hfound
        cases hfound
    | none => exact holdLength_begun hne (m.held ++ chunk)

/-- What is held is the longest tail that a later chunk may complete. -/
theorem Holding.longestBegun {m : StopStringMatcher} (h : Holding stops text emitted m)
    (hheld : m.held = [] ∨ ∃ stop ∈ stops, m.held <+: stop ∧ m.held.length < stop.length) :
    LongestBegun stops text m.held := by
  refine ⟨⟨emitted, h.split.symm⟩, hheld, fun t hs w hw hp _ => ?_⟩
  obtain ⟨more, hocc⟩ := occursAt_of_begun hs hp
  have hlate := h.late w hw more _ hocc
  have hle := hs.length_le
  have hlen := congrArg List.length h.split
  rw [List.length_append] at hlen
  omega

/-- What holds after some calls of `Feed`: nothing has matched, or the last one has. -/
def FedUntil (stops : List Text) (run : FeedRun) : Prop :=
  match run.found with
  | none =>
      run.emitted ++ run.matcher.held = run.fed ∧
        LongestBegun stops run.fed run.matcher.held ∧ Absent stops run.fed
  | some stop => stop ∈ stops ∧ (run.emitted ++ stop) <+: run.fed ∧ Absent stops run.emitted

/-- A match is announced with everything before it, in which no stop string occurs. -/
theorem emitted_of_earliest {part : Text} (h : Earliest stops part pos stop)
    (hne : ∀ stop ∈ stops, stop ≠ []) :
    (part.take pos ++ stop) <+: part ∧ Absent stops (part.take pos) := by
  refine ⟨?_, fun w hw q hq => ?_⟩
  · conv_rhs => rw [← List.take_append_drop pos part]
    exact (List.prefix_append_right_inj _).mpr h.occurs
  · have hleast := h.least w hw q (occursAt_take hq)
    have hend := hq.end_le (hne w hw)
    have hpos := List.length_pos_iff.mpr (hne w hw)
    rw [List.length_take] at hend
    omega

/-- The calls, from a matcher that has been fed `text`. -/
theorem Holding.feedUntil (hne : ∀ stop ∈ stops, stop ≠ []) :
    ∀ (chunks : List Text) {text emitted : Text} {m : StopStringMatcher},
      Holding stops text emitted m →
      (m.held = [] ∨ ∃ stop ∈ stops, m.held <+: stop ∧ m.held.length < stop.length) →
      FedUntil stops
        { m.feedUntil chunks with
          fed := text ++ (m.feedUntil chunks).fed
          emitted := emitted ++ (m.feedUntil chunks).emitted } := by
  intro chunks
  induction chunks with
  | nil =>
      intro text emitted m h hheld
      unfold StopStringMatcher.feedUntil FedUntil
      simp only [List.append_nil]
      exact ⟨h.split.symm, h.longestBegun hheld, h.absent⟩
  | cons chunk chunks ih =>
      intro text emitted m h hheld
      unfold StopStringMatcher.feedUntil
      rcases h.feed chunk with ⟨pos, stop, hearliest, hfound, hemit⟩ | ⟨hfound, hholding⟩
      · simp only [hfound]
        unfold FedUntil
        simp only [hemit]
        exact ⟨hearliest.mem, emitted_of_earliest hearliest hne⟩
      · simp only [hfound]
        have hbegun := feed_begun (m := m) (by rw [h.stops_eq]; exact hne)
          (by rw [h.stops_eq]; exact hheld) hfound
        rw [h.stops_eq] at hbegun
        have hrest := ih hholding hbegun
        rw [List.append_assoc, List.append_assoc] at hrest
        exact hrest

/-- Everything is fed until something matches. -/
theorem feedUntil_fed : ∀ (chunks : List Text) (m : StopStringMatcher),
    (m.feedUntil chunks).fed <+: chunks.flatten ∧
      ((m.feedUntil chunks).found = none → (m.feedUntil chunks).fed = chunks.flatten) := by
  intro chunks
  induction chunks with
  | nil => intro m; exact ⟨List.prefix_refl _, fun _ => rfl⟩
  | cons chunk chunks ih =>
      intro m
      unfold StopStringMatcher.feedUntil
      rw [List.flatten_cons]
      cases hfound : (m.feed chunk).1.found with
      | some stop =>
          simp only [hfound]
          exact ⟨List.prefix_append _ _, nofun⟩
      | none =>
          simp only [hfound]
          obtain ⟨hpre, hall⟩ := ih (m.feed chunk).2
          exact ⟨(List.prefix_append_right_inj _).mpr hpre, fun h => by rw [hall h]⟩

/-- **What `Feed` keeps.**  As long as nothing has matched, the text emitted and the tail held are
the text fed, the tail is the longest with which a stop string may begin, and no stop string has
occurred; at the match, the text emitted is what is in front of it, and contains none. -/
theorem feedUntil_new (stops : List Text) (hne : ∀ stop ∈ stops, stop ≠ [])
    (chunks : List Text) :
    FedUntil stops ((new stops).feedUntil chunks) ∧
      ((new stops).feedUntil chunks).fed <+: chunks.flatten ∧
      (((new stops).feedUntil chunks).found = none →
        ((new stops).feedUntil chunks).fed = chunks.flatten) := by
  refine ⟨?_, feedUntil_fed chunks _⟩
  have h := Holding.feedUntil hne chunks (holding_new hne) (Or.inl rfl)
  simpa only [List.nil_append] using h

/-- A self-overlapping stop string across two chunks: `aab`, fed as `aaa` and `b`. -/
theorem feedUntil_new_aab :
    FedUntil [[97, 97, 98]] ((new [[97, 97, 98]]).feedUntil [[97, 97, 97], [98]]) ∧
      ((new [[97, 97, 98]]).feedUntil [[97, 97, 97], [98]]).emitted = [97] :=
  ⟨(feedUntil_new [[97, 97, 98]] (by decide) [[97, 97, 97], [98]]).1, by decide⟩

/-- Without stop strings a text passes by the matcher. -/
theorem Holding.pass {m : StopStringMatcher} (hstops : stops = [])
    (h : Holding stops text emitted m)
    (chunk : Text) : Holding stops (text ++ chunk) (emitted ++ chunk) m := by
  have hnone : ∀ stop, stop ∉ stops := fun stop hc => by simp [hstops] at hc
  refine ⟨h.stops_eq, h.matched, ?_, fun stop hs => absurd hs (hnone stop),
    fun stop hs => absurd hs (hnone stop), h.idle⟩
  rw [h.split, h.idle hstops, List.append_nil, List.append_nil]

/-! ### A text in chunks

The same text may be stopped differently when it is cut differently, and this is exactly when
one stop string can be complete while an earlier one is not. -/

/-- **What a match is**: the earliest occurrence in the chunks fed so far.  Fed to the end, the
text is trimmed as the first part of it in which a stop string occurs would be. -/
theorem Holding.feedAll : ∀ (chunks : List Text) {text emitted : Text} {m : StopStringMatcher},
    Holding stops text emitted m →
    (∃ part rest pos stop, text ++ chunks.flatten = part ++ rest ∧ Earliest stops part pos stop ∧
      emitted ++ (m.feedAll chunks).1 = part.take pos ∧ (m.feedAll chunks).2 = some stop) ∨
    (Absent stops (text ++ chunks.flatten) ∧
      emitted ++ (m.feedAll chunks).1 = text ++ chunks.flatten ∧
      (m.feedAll chunks).2 = none) := by
  intro chunks
  induction chunks with
  | nil =>
      intro text emitted m h
      rw [List.flatten_nil, List.append_nil]
      exact Or.inr ⟨h.absent, h.split.symm, rfl⟩
  | cons chunk chunks ih =>
      intro text emitted m h
      unfold StopStringMatcher.feedAll
      rw [List.flatten_cons, ← List.append_assoc]
      rcases h.feed chunk with ⟨pos, stop, hearliest, hfound, hemit⟩ | ⟨hfound, hholding⟩
      · simp only [hfound]
        exact Or.inl ⟨text ++ chunk, chunks.flatten, pos, stop, rfl, hearliest, hemit, rfl⟩
      · simp only [hfound]
        rcases ih hholding with ⟨part, rest, pos, stop, htext, hearliest, hemit, hstop⟩ |
          ⟨habsent, hemit, hstop⟩
        · exact Or.inl ⟨part, rest, pos, stop, htext, hearliest,
            by rw [← hemit, List.append_assoc], hstop⟩
        · exact Or.inr ⟨habsent, by rw [← hemit, List.append_assoc], hstop⟩

end StopStringMatcher

/-- Stop strings that are seen before an earlier one is complete are taken for it. -/
private theorem unambiguous_of_trimmed (hne : ∀ stop ∈ stops, stop ≠ [])
    (h : ∀ chunks : List Text,
      (StopStringMatcher.new stops).feedAll chunks = trimAtStop stops chunks.flatten) :
    Unambiguous stops := by
  intro front word back hstops
  by_contra hc
  rw [not_or] at hc
  obtain ⟨hfront, habsent⟩ := hc
  have hmem : word ∈ stops := by
    rw [hstops]
    simp
  have hword := hne word hmem
  -- in `word` as a whole it is `word` that is earliest
  have hall : Earliest stops word 0 word := by
    refine ⟨List.prefix_rfl, fun w hw q _ => Nat.zero_le q, front, back, hstops,
      fun w hw hocc => ?_⟩
    exact hfront ⟨w, hw, hocc⟩
  -- without its last byte it is another one
  have hsplit : word = word.dropLast ++ [word.getLast hword] :=
    (List.dropLast_concat_getLast hword).symm
  have hchunks := h [word.dropLast, [word.getLast hword]]
  have hflat : [word.dropLast, [word.getLast hword]].flatten = word := by
    simpa using List.dropLast_concat_getLast hword
  rw [hflat, trimAtStop, earliest_eq_some_iff.mpr hall] at hchunks
  have hfound := congrArg Prod.snd hchunks
  unfold StopStringMatcher.feedAll at hfound
  rcases (StopStringMatcher.holding_new hne).feed word.dropLast with
    ⟨pos, stop, hearliest, hstop, _⟩ | ⟨_, hholding⟩
  · simp only [hstop, Option.some.injEq] at hfound
    have hend := hearliest.occurs.end_le (hne stop hearliest.mem)
    have hpos := List.length_pos_iff.mpr hword
    rw [List.nil_append, List.length_dropLast, hfound] at hend
    omega
  · exact habsent hholding.absent

private theorem chunkingInvariant_of_unambiguous (hne : ∀ stop ∈ stops, stop ≠ [])
    (h : Unambiguous stops) : ChunkingInvariant stops := by
  have htrimmed : ∀ chunks : List Text,
      (StopStringMatcher.new stops).feedAll chunks = trimAtStop stops chunks.flatten := by
    intro chunks
    unfold trimAtStop
    rcases (StopStringMatcher.holding_new hne).feedAll chunks with
      ⟨part, rest, pos, stop, htext, hearliest, hemit, hstop⟩ | ⟨habsent, hemit, hstop⟩
    · rw [List.nil_append] at htext hemit
      cases hfound : StopStringMatcher.earliest stops chunks.flatten with
      | none =>
          have habsent := earliest_eq_none_iff.mp hfound
          rw [htext] at habsent
          exact absurd (hearliest.occurs.append rest) (habsent stop hearliest.mem pos)
      | some found =>
          have hall := earliest_eq_some_iff.mp hfound
          rw [htext] at hall
          obtain ⟨hpos, hsame⟩ := h.earliest_of_append hne hall hearliest
          have hle := hearliest.occurs.end_le (hne stop hearliest.mem)
          dsimp only
          rw [htext, hpos, hsame, List.take_append_of_le_length (by omega)]
          exact Prod.ext hemit hstop
    · rw [List.nil_append] at habsent hemit
      rw [List.nil_append] at hemit
      rw [earliest_eq_none_iff.mpr habsent]
      exact Prod.ext hemit hstop
  refine ⟨fun chunks chunks' hsame => ?_, htrimmed⟩
  rw [htrimmed, htrimmed, hsame]

/-- **Chunks do not matter exactly when the stop strings cannot be taken for one another.** -/
theorem chunkingInvariant_iff (stops : List Text) (hne : ∀ stop ∈ stops, stop ≠ []) :
    ChunkingInvariant stops ↔ Unambiguous stops :=
  ⟨fun h => unambiguous_of_trimmed hne h.trimmed, chunkingInvariant_of_unambiguous hne⟩

theorem chunkingInvariant_iff_pair :
    (∀ stop ∈ ([[97, 98], [97, 98, 99]] : List Text), stop ≠ []) ∧
      (ChunkingInvariant [[97, 98], [97, 98, 99]]
        ↔ Unambiguous ([[97, 98], [97, 98, 99]] : List Text)) :=
  ⟨by decide, chunkingInvariant_iff [[97, 98], [97, 98, 99]] (by decide)⟩

/-- With the stop strings `abcd` and `bc`, the text `abcd` is stopped by the first one when it
comes in one piece, and by the second one when it comes as `abc` and `d`. -/
theorem chunking_matters : ¬ChunkingInvariant [[97, 98, 99, 100], [98, 99]] := by
  intro h
  have hsame := h.same [[97, 98, 99, 100]] [[97, 98, 99], [100]] rfl
  exact absurd hsame (by decide)

end InferenceEngine
