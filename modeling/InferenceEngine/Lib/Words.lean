/-
Where words occur in a text, and how far a run of steps goes.

A text arrives in pieces and some words are looked for in it.  An occurrence that has been
seen stays one whatever follows; an occurrence that is only completed by what follows has
begun with a tail of what was there.

Positions are ordered and every step goes up.  A position has one step that leads to it, or one
that leads away from it, so the longest run before it, or behind it, is found one step at a
time.
-/
import Mathlib.Data.List.Basic
import Mathlib.Data.List.Infix
import Mathlib.Logic.Relation
import Mathlib.Order.Basic

namespace Occurrences

variable {α : Type*} {word text more : List α} {words : List (List α)} {pos n : Nat}

/-- `word` occurs in `text` at `pos`. -/
def OccursAt (word text : List α) (pos : Nat) : Prop := word <+: text.drop pos

theorem OccursAt.append (h : OccursAt word text pos) (more : List α) :
    OccursAt word (text ++ more) pos := by
  unfold OccursAt at *
  rw [List.drop_append]
  exact h.trans (List.prefix_append _ _)

theorem OccursAt.end_le (h : OccursAt word text pos) (hne : word ≠ []) :
    pos + word.length ≤ text.length := by
  have hle := List.IsPrefix.length_le h
  have hpos := List.length_pos_iff.mpr hne
  rw [List.length_drop] at hle
  omega

/-- An occurrence that ends within the first part is one of the first part. -/
theorem OccursAt.of_append (h : OccursAt word (text ++ more) pos)
    (hle : pos + word.length ≤ text.length) : OccursAt word text pos := by
  unfold OccursAt at *
  rw [List.drop_append_of_le_length (by omega)] at h
  refine List.prefix_of_prefix_length_le h (List.prefix_append _ _) ?_
  rw [List.length_drop]
  omega

theorem occursAt_take (h : OccursAt word (text.take n) pos) : OccursAt word text pos := by
  have := h.append (text.drop n)
  rwa [List.take_append_drop] at this

/-- An occurrence in the second part, counted from the beginning. -/
theorem occursAt_append_iff {front : List α} :
    OccursAt word (front ++ text) (front.length + pos) ↔ OccursAt word text pos := by
  unfold OccursAt
  rw [List.drop_length_add_append]

/-- An occurrence that what follows completes has begun with a tail of the text. -/
theorem OccursAt.begun (h : OccursAt word (text ++ more) pos) (hpos : pos ≤ text.length)
    (hlt : text.length < pos + word.length) :
    text.drop pos = word.take (text.length - pos) := by
  unfold OccursAt at h
  rw [List.drop_append_of_le_length hpos] at h
  have hpre : text.drop pos <+: word :=
    List.prefix_of_prefix_length_le (List.prefix_append _ _) h (by rw [List.length_drop]; omega)
  rw [List.prefix_iff_eq_take.mp hpre, List.length_drop]

/-- A word that occurs within another one occurs wherever that one does. -/
theorem OccursAt.within {inner : List α} {q : Nat} (h : OccursAt word text pos)
    (hinner : OccursAt inner word q) : OccursAt inner text (pos + q) := by
  obtain ⟨rest, hrest⟩ := h
  unfold OccursAt at *
  rw [← List.drop_drop, ← hrest, List.drop_append]
  exact hinner.trans (List.prefix_append _ _)

/-- Two occurrences that overlap share what they have in common. -/
theorem OccursAt.inside {inner : List α} {q : Nat} (h : OccursAt word text pos)
    (hinner : OccursAt inner text (pos + q)) (hle : q + inner.length ≤ word.length) :
    OccursAt inner word q := by
  unfold OccursAt at *
  rw [← List.drop_drop] at hinner
  have hpre : word.drop q <+: (text.drop pos).drop q := by
    obtain ⟨rest, hrest⟩ := h
    rw [← hrest, List.drop_append_of_le_length (by omega)]
    exact List.prefix_append _ _
  refine List.prefix_of_prefix_length_le hinner hpre ?_
  rw [List.length_drop]
  omega

/-- The longest tail of a text with which a word begins that the text does not complete; the
empty one if there is no other. -/
structure LongestBegun (words : List (List α)) (text tail : List α) : Prop where
  suffix : tail <:+ text
  begun : tail = [] ∨ ∃ w ∈ words, tail <+: w ∧ tail.length < w.length
  longest : ∀ t, t <:+ text → ∀ w ∈ words, t <+: w → t.length < w.length → t.length ≤ tail.length

/-- A word that a tail begins may still occur where the tail is. -/
theorem occursAt_of_begun {tail : List α} (hs : tail <:+ text) (hp : tail <+: word) :
    ∃ more, OccursAt word (text ++ more) (text.length - tail.length) := by
  obtain ⟨front, rfl⟩ := hs
  obtain ⟨more, rfl⟩ := hp
  refine ⟨more, ?_⟩
  unfold OccursAt
  rw [List.length_append, Nat.add_sub_cancel, List.append_assoc, List.drop_left]

/-! ### The earliest occurrence

Of the words that occur, the one that begins first is reported, and the first listed of those
that begin there. -/

/-- None of the words occurs. -/
def Absent (words : List (List α)) (text : List α) : Prop :=
  ∀ w ∈ words, ∀ pos, ¬OccursAt w text pos

/-- `word` is the first listed of the words that occur first. -/
structure Earliest (words : List (List α)) (text : List α) (pos : Nat) (word : List α) : Prop where
  occurs : OccursAt word text pos
  least : ∀ w ∈ words, ∀ q, OccursAt w text q → pos ≤ q
  first : ∃ front back, words = front ++ word :: back ∧ ∀ w ∈ front, ¬OccursAt w text pos

theorem Earliest.mem (h : Earliest words text pos word) : word ∈ words := by
  obtain ⟨front, back, hwords, _⟩ := h.first
  rw [hwords]
  simp

theorem Earliest.unique {pos' : Nat} {word' : List α} (h : Earliest words text pos word)
    (h' : Earliest words text pos' word') : pos = pos' ∧ word = word' := by
  have hpos : pos = pos' :=
    le_antisymm (h.least word' h'.mem pos' h'.occurs) (h'.least word h.mem pos h.occurs)
  subst hpos
  refine ⟨rfl, ?_⟩
  obtain ⟨front, back, hwords, hfront⟩ := h.first
  obtain ⟨front', back', hwords', hfront'⟩ := h'.first
  rw [hwords] at hwords'
  rcases List.append_eq_append_iff.mp hwords' with ⟨mid, hmid, hrest⟩ | ⟨mid, hmid, hrest⟩
  · cases mid with
    | nil => exact (List.cons.inj hrest).1
    | cons a mid =>
        refine absurd h.occurs (hfront' word ?_)
        rw [hmid, (List.cons.inj hrest).1]
        simp
  · cases mid with
    | nil => exact (List.cons.inj hrest).1.symm
    | cons a mid =>
        refine absurd h'.occurs (hfront word' ?_)
        rw [hmid, (List.cons.inj hrest).1]
        simp

/-- Words that have not occurred yet may be looked for in a part of the text. -/
theorem earliest_append_iff {front : List α}
    (hlate : ∀ w ∈ words, ∀ q, OccursAt w (front ++ text) q → front.length ≤ q) :
    Earliest words (front ++ text) (front.length + pos) word ↔ Earliest words text pos word := by
  refine ⟨fun h => ⟨occursAt_append_iff.mp h.occurs, ?_, ?_⟩,
    fun h => ⟨occursAt_append_iff.mpr h.occurs, ?_, ?_⟩⟩
  · intro w hw q hq
    have := h.least w hw (front.length + q) (occursAt_append_iff.mpr hq)
    omega
  · obtain ⟨before, after, hwords, hbefore⟩ := h.first
    exact ⟨before, after, hwords, fun w hw hc => hbefore w hw (occursAt_append_iff.mpr hc)⟩
  · intro w hw q hq
    have hle := hlate w hw q hq
    obtain ⟨d, rfl⟩ := Nat.le.dest hle
    exact Nat.add_le_add_left (h.least w hw d (occursAt_append_iff.mp hq)) _
  · obtain ⟨before, after, hwords, hbefore⟩ := h.first
    exact ⟨before, after, hwords, fun w hw hc => hbefore w hw (occursAt_append_iff.mp hc)⟩

theorem absent_append_iff {front : List α}
    (hlate : ∀ w ∈ words, ∀ q, OccursAt w (front ++ text) q → front.length ≤ q) :
    Absent words (front ++ text) ↔ Absent words text := by
  refine ⟨fun h w hw q hq => h w hw _ (occursAt_append_iff.mpr hq), fun h w hw q hq => ?_⟩
  obtain ⟨d, rfl⟩ := Nat.le.dest (hlate w hw q hq)
  exact h w hw d (occursAt_append_iff.mp hq)

/-! ### Words that cannot be taken for one another

A text that comes in parts may be searched part by part only if no word is seen before the end
of another that begins earlier. -/

/-- No word is seen before the end of a word that is reported: each word begins with one
listed before it, and is never reported itself, or no word occurs before its last letter. -/
def Unambiguous (words : List (List α)) : Prop :=
  ∀ front word back, words = front ++ word :: back →
    (∃ w ∈ front, w <+: word) ∨ Absent words word.dropLast

/-- The earliest occurrence in a text is the earliest in each part of it in which any word
occurs. -/
theorem Unambiguous.earliest_of_append (h : Unambiguous words) (hne : ∀ w ∈ words, w ≠ [])
    (hall : Earliest words (text ++ more) pos word) {pos' : Nat} {word' : List α}
    (hpart : Earliest words text pos' word') : pos = pos' ∧ word = word' := by
  suffices hin : OccursAt word text pos by
    refine Earliest.unique ⟨hin, fun w hw q hq => hall.least w hw q (hq.append more), ?_⟩ hpart
    obtain ⟨front, back, hwords, hfront⟩ := hall.first
    exact ⟨front, back, hwords, fun w hw hc => hfront w hw (hc.append more)⟩
  refine hall.occurs.of_append ?_
  by_contra hlt
  -- the word is not complete, so another one has been seen within it
  obtain ⟨front, back, hwords, hfront⟩ := hall.first
  rcases h front word back hwords with ⟨w, hw, hpre⟩ | habsent
  · exact hfront w hw (hpre.trans hall.occurs)
  · have hocc := hpart.occurs
    have hend := hocc.end_le (hne word' hpart.mem)
    have hle : pos ≤ pos' := hall.least word' hpart.mem pos' (hocc.append more)
    obtain ⟨d, rfl⟩ := Nat.le.dest hle
    have hinside : OccursAt word' word d := hall.occurs.inside (hocc.append more) (by omega)
    have hword : OccursAt word' (word.dropLast ++ word.drop (word.length - 1)) d := by
      rw [List.dropLast_eq_take, List.take_append_drop]
      exact hinside
    refine habsent word' hpart.mem d (hword.of_append ?_)
    rw [List.length_dropLast]
    omega

end Occurrences

namespace Runs

open Relation

variable {α : Type*} [Preorder α] {step : α → α → Prop}

/-- A run does not go down. -/
theorem le_of_run (hup : ∀ a b, step a b → a ≤ b)
    {a b : α} (h : ReflTransGen step a b) : a ≤ b := by
  induction h with
  | refl => exact le_refl a
  | tail _ hlast ih => exact ih.trans (hup _ _ hlast)

/-- The longest run that ends at `stop` and does not begin before `floor` begins at `start`. -/
structure LongestBefore (step : α → α → Prop) (floor stop start : α) : Prop where
  floor_le : floor ≤ start
  run : ReflTransGen step start stop
  longest : ∀ a, floor ≤ a → ReflTransGen step a stop → start ≤ a

/-- The longest run that begins at `start` ends at `stop`. -/
structure LongestAfter (step : α → α → Prop) (start stop : α) : Prop where
  run : ReflTransGen step start stop
  longest : ∀ b, ReflTransGen step start b → b ≤ stop

/-- Nothing leads to `stop`. -/
theorem LongestBefore.refl {floor stop : α} (hup : ∀ a b, step a b → a ≤ b) (hle : floor ≤ stop)
    (hnone : ∀ a, floor ≤ a → ¬step a stop) : LongestBefore step floor stop stop := by
  refine ⟨hle, .refl, ?_⟩
  intro a ha hrun
  rcases hrun.cases_tail with heq | ⟨mid, hmid, hlast⟩
  · exact le_of_eq heq
  · exact absurd hlast (hnone mid (ha.trans (le_of_run hup hmid)))

/-- The one step that leads to `stop` comes from `mid`. -/
theorem LongestBefore.extend {floor mid stop start : α} (hup : ∀ a b, step a b → a ≤ b)
    (hone : ∀ a a' b, step a b → step a' b → a = a') (h : LongestBefore step floor mid start)
    (hlast : step mid stop) : LongestBefore step floor stop start := by
  refine ⟨h.floor_le, h.run.tail hlast, ?_⟩
  intro a ha hrun
  rcases hrun.cases_tail with heq | ⟨mid', hmid', hlast'⟩
  · rw [← heq]
    exact le_of_run hup (h.run.tail hlast)
  · rw [hone mid' mid stop hlast' hlast] at hmid'
    exact h.longest a ha hmid'

/-- Nothing leads away from `start`. -/
theorem LongestAfter.refl {start : α} (hnone : ∀ b, ¬step start b) :
    LongestAfter step start start := by
  refine ⟨.refl, ?_⟩
  intro b hrun
  rcases hrun.cases_head with heq | ⟨mid, hfirst, _⟩
  · exact le_of_eq heq.symm
  · exact absurd hfirst (hnone mid)

/-- The one step that leads away from `start` goes to `mid`. -/
theorem LongestAfter.extend {start mid stop : α} (hup : ∀ a b, step a b → a ≤ b)
    (hone : ∀ a b b', step a b → step a b' → b = b') (h : LongestAfter step mid stop)
    (hfirst : step start mid) : LongestAfter step start stop := by
  refine ⟨.head hfirst h.run, ?_⟩
  intro b hrun
  rcases hrun.cases_head with heq | ⟨mid', hfirst', hmid'⟩
  · rw [← heq]
    exact le_of_run hup (.head hfirst h.run)
  · rw [hone start mid' mid hfirst' hfirst] at hmid'
    exact h.longest b hmid'

end Runs
