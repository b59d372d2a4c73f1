/-
The text between the added tokens.

The scan goes on from the end of one match and has passed no place where a token of its turn
begins, so a match is the leftmost one, and its bucket is searched from the longest content on.
A codepoint is delimited by its bytes from both ends, so the whitespace next to a match is one
run, and either strip takes all of it.
-/
import InferenceEngine.Lib.Words
import InferenceEngine.Proofs.Codec
import InferenceEngine.Proofs.Encode

namespace InferenceEngine

open BpeTokenizer Except Occurrences Relation Runs

/-! ### The bytes of a codepoint

A codepoint can be found backwards, since the byte it begins with continues no other. -/

private theorem lead_notContinuation : ∀ x : Fin 256, isContinuation (UInt8.ofNat x) = true →
    decodeLead (UInt8.ofNat x) = none := by decide +kernel

/-- A sequence begins with its only byte that continues no other. -/
theorem decodeUtf8_lead {bytes : Text} {codepoint length : Nat}
    (h : decodeUtf8 bytes = some (codepoint, length)) :
    isContinuation (bytes.getD 0 0) = false ∧
      ∀ i, 0 < i → i < length → isContinuation (bytes.getD i 0) = true := by
  have hle := (decodeUtf8_length h).2
  cases bytes with
  | nil => exact absurd h (by simp [decodeUtf8])
  | cons lead rest =>
      rw [decodeUtf8] at h
      cases hlead : decodeLead lead with
      | none =>
          rw [hlead] at h
          exact absurd h (by simp)
      | some r =>
          obtain ⟨n, c⟩ := r
          rw [hlead] at h
          dsimp only at h
          split at h
          · exact absurd h (by simp)
          obtain ⟨c', hcontinue, he⟩ := Option.map_eq_some_iff.mp h
          cases he
          constructor
          · by_contra hc
            have hnone := lead_notContinuation ⟨lead.toNat, lead.toNat_lt⟩
            rw [UInt8.ofNat_toNat] at hnone
            rw [hnone (by simpa using hc)] at hlead
            exact absurd hlead (by simp)
          · intro i hi hlt
            obtain ⟨i, rfl⟩ : ∃ k, i = k + 1 := ⟨i - 1, by omega⟩
            rw [List.length_cons] at hle
            have hin : i < (rest.take (length - 1)).length := by
              rw [List.length_take]
              omega
            have hmem := List.getElem_mem hin
            rw [List.getElem_take] at hmem
            rw [List.getD_cons_succ, List.getD_eq_getElem _ _ (by omega)]
            exact decodeContinue_tail _ _ _ _ hcontinue _ hmem

/-! ### Whitespace next to a place

Between two places there is at most one whitespace codepoint, so the runs of whitespace that end
or begin at a place are a chain. -/

variable {u : UnicodeTables} {text : Text}

/-- A whitespace codepoint stands between two places. -/
def WhitespaceAt (u : UnicodeTables) (text : Text) (start stop : Nat) : Prop :=
  ∃ codepoint length, decodeUtf8 (text.drop start) = some (codepoint, length) ∧
    u.isWhitespace codepoint = true ∧ stop = start + length

namespace WhitespaceAt

theorem bounds {start stop : Nat} (h : WhitespaceAt u text start stop) :
    start < stop ∧ stop ≤ text.length := by
  obtain ⟨codepoint, length, hdecode, _, rfl⟩ := h
  obtain ⟨hpos, hle⟩ := decodeUtf8_length hdecode
  rw [List.length_drop] at hle
  omega

theorem up (start stop : Nat) (h : WhitespaceAt u text start stop) : start ≤ stop :=
  le_of_lt h.bounds.1

/-- The byte the codepoint begins with is the last one before its end that continues no
other. -/
theorem bytes {start stop : Nat} (h : WhitespaceAt u text start stop) :
    isContinuation (text.getD start 0) = false ∧
      ∀ i, start < i → i < stop → isContinuation (text.getD i 0) = true := by
  obtain ⟨codepoint, length, hdecode, _, rfl⟩ := h
  have hget : ∀ i, (text.drop start).getD i 0 = text.getD (start + i) 0 := by
    intro i
    rw [List.getD_eq_getElem?_getD, List.getD_eq_getElem?_getD, List.getElem?_drop]
  obtain ⟨hlead, htail⟩ := decodeUtf8_lead hdecode
  refine ⟨by rwa [hget] at hlead, ?_⟩
  intro i hi hlt
  obtain ⟨d, rfl⟩ := Nat.le.dest (le_of_lt hi)
  rw [← hget]
  exact htail d (by omega) (by omega)

theorem start_unique (start start' stop : Nat) (h : WhitespaceAt u text start stop)
    (h' : WhitespaceAt u text start' stop) : start = start' := by
  obtain ⟨hlead, htail⟩ := h.bytes
  obtain ⟨hlead', htail'⟩ := h'.bytes
  rcases Nat.lt_trichotomy start start' with hlt | heq | hlt
  · exact absurd (htail start' hlt h'.bounds.1) (Bool.eq_false_iff.mp hlead')
  · exact heq
  · exact absurd (htail' start hlt h.bounds.1) (Bool.eq_false_iff.mp hlead)

theorem stop_unique (start stop stop' : Nat) (h : WhitespaceAt u text start stop)
    (h' : WhitespaceAt u text start stop') : stop = stop' := by
  obtain ⟨_, _, hdecode, _, rfl⟩ := h
  obtain ⟨_, _, hdecode', _, rfl⟩ := h'
  rw [hdecode] at hdecode'
  cases hdecode'
  rfl

end WhitespaceAt

/-! ### The strips

Each turn of a strip is one step along that chain, and it stops where there is no other. -/

theorem floor_le_leadBackward {floor : Nat} : ∀ {lead : Nat}, floor ≤ lead →
    floor ≤ leadBackward text floor lead := by
  intro lead
  induction lead with
  | zero => intro h; exact h
  | succ lead ih =>
      intro h
      rw [leadBackward]
      split
      · rename_i hback
        exact ih (by omega)
      · exact h

/-- The way back to the byte a codepoint begins with. -/
theorem leadBackward_eq {floor start : Nat} (hfloor : floor ≤ start)
    (hlead : isContinuation (text.getD start 0) = false) : ∀ {lead : Nat}, start ≤ lead →
    (∀ i, start < i → i ≤ lead → isContinuation (text.getD i 0) = true) →
    leadBackward text floor lead = start := by
  intro lead
  induction lead with
  | zero =>
      intro hle _
      rw [leadBackward]
      omega
  | succ lead ih =>
      intro hle htail
      rw [leadBackward]
      by_cases he : start = lead + 1
      · rw [if_neg, he]
        intro hback
        rw [← he, hlead] at hback
        exact absurd hback.2 (by simp)
      · rw [if_pos ⟨by omega, htail (lead + 1) (by omega) (le_refl _)⟩]
        exact ih (by omega) fun i hi hlt => htail i hi (by omega)

/-- **The strip before a match takes the longest run of whitespace that ends there.** -/
theorem stripWhitespaceBackward_longest (u : UnicodeTables) (text : Text) (floor : Nat) :
    ∀ (fuel start : Nat), floor ≤ start → start ≤ fuel →
      LongestBefore (WhitespaceAt u text) floor start
        (u.stripWhitespaceBackward text floor fuel start) := by
  intro fuel
  induction fuel with
  | zero =>
      intro start hfloor hfuel
      refine .refl WhitespaceAt.up hfloor ?_
      intro a _ h
      have := h.bounds
      omega
  | succ fuel ih =>
      intro start hfloor hfuel
      rw [UnicodeTables.stripWhitespaceBackward]
      by_cases hlt : floor < start
      · rw [if_pos hlt]
        dsimp only
        have hback : floor ≤ leadBackward text floor (start - 1) :=
          floor_le_leadBackward (by omega)
        have honly : ∀ a, floor ≤ a → WhitespaceAt u text a start →
            leadBackward text floor (start - 1) = a := by
          intro a ha h
          have hbounds := h.bounds
          obtain ⟨hlead, htail⟩ := h.bytes
          exact leadBackward_eq ha hlead (by omega) fun i hi hle => htail i hi (by omega)
        generalize leadBackward text floor (start - 1) = lead at hback honly ⊢
        have hstop : ¬WhitespaceAt u text lead start →
            LongestBefore (WhitespaceAt u text) floor start start := by
          intro hnone
          refine .refl WhitespaceAt.up hfloor ?_
          intro a ha h
          rw [honly a ha h] at hnone
          exact hnone h
        cases hdecode : decodeUtf8 (text.drop lead) with
        | none =>
            refine hstop ?_
            rintro ⟨_, _, hsome, _⟩
            rw [hdecode] at hsome
            exact absurd hsome (by simp)
        | some r =>
            obtain ⟨codepoint, length⟩ := r
            dsimp only
            split
            · rename_i hwhite
              have hlast : WhitespaceAt u text lead start :=
                ⟨codepoint, length, hdecode, hwhite.2, hwhite.1.symm⟩
              have hless := hlast.bounds.1
              exact (ih lead hback (by omega)).extend WhitespaceAt.up WhitespaceAt.start_unique
                hlast
            · rename_i hwhite
              refine hstop ?_
              rintro ⟨_, _, hsome, hspace, hend⟩
              rw [hdecode] at hsome
              cases hsome
              exact hwhite ⟨hend.symm, hspace⟩
      · rw [if_neg hlt]
        refine .refl WhitespaceAt.up hfloor ?_
        intro a ha h
        have := h.bounds
        omega

/-- **The strip behind a match takes the longest run of whitespace that begins there.** -/
theorem stripWhitespaceForward_longest (u : UnicodeTables) (text : Text) :
    ∀ (fuel stop : Nat), text.length ≤ stop + fuel →
      LongestAfter (WhitespaceAt u text) stop (u.stripWhitespaceForward text fuel stop) := by
  intro fuel
  induction fuel with
  | zero =>
      intro stop hfuel
      refine .refl ?_
      intro b h
      have := h.bounds
      omega
  | succ fuel ih =>
      intro stop hfuel
      rw [UnicodeTables.stripWhitespaceForward]
      by_cases hlt : stop < text.length
      · rw [if_pos hlt]
        cases hdecode : decodeUtf8 (text.drop stop) with
        | none =>
            refine .refl ?_
            rintro b ⟨_, _, hsome, _⟩
            rw [hdecode] at hsome
            exact absurd hsome (by simp)
        | some r =>
            obtain ⟨codepoint, length⟩ := r
            dsimp only
            split
            · rename_i hwhite
              have hfirst : WhitespaceAt u text stop (stop + length) :=
                ⟨codepoint, length, hdecode, hwhite, rfl⟩
              have hless := hfirst.bounds.1
              exact (ih (stop + length) (by omega)).extend WhitespaceAt.up
                WhitespaceAt.stop_unique hfirst
            · rename_i hwhite
              refine .refl ?_
              rintro b ⟨_, _, hsome, hspace, _⟩
              rw [hdecode] at hsome
              cases hsome
              exact hwhite hspace
      · rw [if_neg hlt]
        refine .refl ?_
        intro b h
        have := h.bounds
        omega

/-! ### The token at a place

The bucket of a byte holds the tokens that begin with it, the longest content first.  The first
one that matches is therefore the longest. -/

section

variable (tokens : List AddedToken) (matchNormalized : Bool)

/-- No token of this turn occurs at a place. -/
def NoneAt (text : Text) (pos : Nat) : Prop :=
  ∀ token ∈ tokens, token.normalized = matchNormalized → ¬OccursAt token.content text pos

/-- A token of this turn occurs at a place, and none there has longer content. -/
structure LongestAt (text : Text) (pos : Nat) (token : AddedToken) : Prop where
  mem : token ∈ tokens
  turn : token.normalized = matchNormalized
  occurs : OccursAt token.content text pos
  longest : ∀ other ∈ tokens, other.normalized = matchNormalized →
    OccursAt other.content text pos → other.content.length ≤ token.content.length

end

section

variable {tokens : List AddedToken} {matchNormalized : Bool} {pos : Nat}

/-- A token that occurs at a place is in the bucket of the byte there. -/
theorem mem_bucket_of_occursAt {token : AddedToken} (h : OccursAt token.content text pos)
    (hmem : token ∈ tokens) (hne : token.content ≠ []) :
    ∃ i ∈ bucketAt (buildBuckets tokens) (text.getD pos 0), tokens[i]? = some token := by
  obtain ⟨i, hi⟩ := List.mem_iff_getElem?.mp hmem
  refine ⟨i, (mem_buildBuckets tokens _ i).mpr ⟨token, hi, ?_⟩, hi⟩
  obtain ⟨rest, hrest⟩ := h
  have hget : (text.drop pos).getD 0 0 = text.getD pos 0 := by
    rw [List.getD_eq_getElem?_getD, List.getD_eq_getElem?_getD, List.getElem?_drop, Nat.add_zero]
  rw [← hget, ← hrest]
  cases hc : token.content with
  | nil => exact absurd hc hne
  | cons byte content => rfl

/-- A byte that begins no token has no bucket. -/
theorem noneAt_of_lookup (hne : ∀ token ∈ tokens, token.content ≠ [])
    (h : (buildBuckets tokens).lookup (text.getD pos 0) = none) :
    NoneAt tokens matchNormalized text pos := by
  intro token hmem _ hocc
  obtain ⟨i, hi, _⟩ := mem_bucket_of_occursAt hocc hmem (hne token hmem)
  unfold bucketAt at hi
  rw [h] at hi
  exact absurd hi (by simp)

/-- **A bucket is searched for the longest content.** -/
theorem matchBucket_longest (hne : ∀ token ∈ tokens, token.content ≠ []) {bucket : List Nat}
    (h : (buildBuckets tokens).lookup (text.getD pos 0) = some bucket) :
    (matchBucket tokens matchNormalized (text.drop pos) bucket).Returns fun found =>
      (∀ token, found = some token → LongestAt tokens matchNormalized text pos token) ∧
        (found = none → NoneAt tokens matchNormalized text pos) := by
  have hbucket : bucketAt (buildBuckets tokens) (text.getD pos 0) = bucket := by
    unfold bucketAt
    rw [h]
    rfl
  have hsorted := buildBuckets_sorted tokens (text.getD pos 0)
  rw [hbucket] at hsorted
  have hlong : (bucket.filterMap fun i => tokens[i]?).Pairwise fun token other =>
      other.content.length ≤ token.content.length := by
    rw [List.pairwise_filterMap]
    exact hsorted.imp fun hij token htoken other hother => hij token other htoken hother
  have hall : ∀ token ∈ tokens, OccursAt token.content text pos →
      token ∈ bucket.filterMap fun i => tokens[i]? := by
    intro token hmem hocc
    obtain ⟨i, hi, htoken⟩ := mem_bucket_of_occursAt hocc hmem (hne token hmem)
    rw [hbucket] at hi
    exact List.mem_filterMap.mpr ⟨i, hi, htoken⟩
  rw [matchBucket_eq matchNormalized (text.drop pos) bucket (buildBuckets_lt tokens _ bucket h)]
  refine returns_ok ⟨?_, ?_⟩
  · intro token hfound
    obtain ⟨hmatch, front, back, hsplit, hfront⟩ := List.find?_eq_some_iff_append.mp hfound
    obtain ⟨hturn, hocc⟩ := of_decide_eq_true hmatch
    obtain ⟨i, _, htoken⟩ := List.mem_filterMap.mp (List.mem_of_find?_eq_some hfound)
    refine ⟨List.mem_of_getElem? htoken, hturn, List.isPrefixOf_iff_prefix.mp hocc, ?_⟩
    intro other hmem hother hocc'
    have hin := hall other hmem hocc'
    rw [hsplit] at hin hlong
    rcases List.mem_append.mp hin with hbefore | hbehind
    · have hnot := hfront other hbefore
      rw [decide_eq_true ⟨hother, List.isPrefixOf_iff_prefix.mpr hocc'⟩] at hnot
      exact absurd hnot (by simp)
    · rcases List.mem_cons.mp hbehind with rfl | hbehind
      · exact le_refl _
      · exact (List.pairwise_cons.mp (List.pairwise_append.mp hlong).2.1).1 other hbehind
  · intro hfound token hmem hturn hocc
    have hnot := List.find?_eq_none.mp hfound token (hall token hmem hocc)
    exact hnot (decide_eq_true ⟨hturn, List.isPrefixOf_iff_prefix.mpr hocc⟩)

end

/-! ### What the pieces stand for

A piece that was matched says which token it is, but not how much whitespace went with it.  The
segments say that as well, so that the text can be put together again. -/

/-- A match of a token behind `floor`, where the match before it ended: the whitespace before
the content begins at `start`, the content at `pos`, and the whitespace behind it ends at
`stop`. -/
structure AddedMatch where
  token : AddedToken
  floor : Nat
  start : Nat
  pos : Nat
  stop : Nat

/-- A part of the text, or a match. -/
inductive SplitSegment
  | text (start stop : Nat)
  | token (found : AddedMatch)

section

variable (u : UnicodeTables) (text : Text) (tokens : List AddedToken) (matchNormalized : Bool)

/-- The end of the content. -/
def AddedMatch.contentEnd (found : AddedMatch) : Nat := found.pos + found.token.content.length

/-- A match is the first one behind its floor and the longest there, with all the whitespace
its token strips. -/
structure AddedMatch.Sound (found : AddedMatch) : Prop where
  floor_le : found.floor ≤ found.pos
  leftmost : ∀ q, found.floor ≤ q → q < found.pos → NoneAt tokens matchNormalized text q
  longest : LongestAt tokens matchNormalized text found.pos found.token
  before : if found.token.lstrip then
      LongestBefore (WhitespaceAt u text) found.floor found.pos found.start
    else found.start = found.pos
  behind : if found.token.rstrip then
      LongestAfter (WhitespaceAt u text) found.contentEnd found.stop
    else found.stop = found.contentEnd

namespace SplitSegment

/-- The piece that is handed on. -/
def piece : SplitSegment → AddedSplitPiece
  | .text start stop => ⟨substr text start (stop - start), -1⟩
  | .token found => ⟨[], found.token.id⟩

/-- The bytes: those of the piece, or the content between the whitespace that was stripped. -/
def bytes : SplitSegment → Text
  | .text start stop => substr text start (stop - start)
  | .token found => substr text found.start (found.pos - found.start) ++ found.token.content ++
      substr text found.contentEnd (found.stop - found.contentEnd)

/-- A part of the text is not empty, and no token begins in it. -/
def Sound : SplitSegment → Prop
  | .text start stop => start < stop ∧
      ∀ q, start ≤ q → q < stop → NoneAt tokens matchNormalized text q
  | .token found => found.Sound u text tokens matchNormalized

/-- Segments follow each other from `here` to the end; a match knows where the one before it
ended, and a part of the text begins there. -/
def Follows (length : Nat) : (floor here : Nat) → List SplitSegment → Prop
  | _, here, [] => here = length
  | floor, here, .text start stop :: segments =>
      here = floor ∧ start = here ∧ Follows length floor stop segments
  | floor, here, .token found :: segments =>
      found.floor = floor ∧ found.start = here ∧ Follows length found.stop found.stop segments

end SplitSegment

end

section

variable {tokens : List AddedToken} {matchNormalized : Bool}

namespace AddedMatch.Sound

variable {found : AddedMatch} (h : found.Sound u text tokens matchNormalized)

include h

theorem start_le : found.start ≤ found.pos := by
  have hbefore := h.before
  split at hbefore
  · exact le_of_run WhitespaceAt.up hbefore.run
  · exact le_of_eq hbefore

theorem floor_le_start : found.floor ≤ found.start := by
  have hbefore := h.before
  split at hbefore
  · exact hbefore.floor_le
  · rw [hbefore]
    exact h.floor_le

theorem contentEnd_le_stop : found.contentEnd ≤ found.stop := by
  have hbehind := h.behind
  split at hbehind
  · exact le_of_run WhitespaceAt.up hbehind.run
  · exact le_of_eq hbehind.symm

theorem stop_le (hne : found.token.content ≠ []) : found.stop ≤ text.length := by
  have hend : found.contentEnd ≤ text.length := h.longest.occurs.end_le hne
  have hbehind := h.behind
  split at hbehind
  · rcases hbehind.run.cases_tail with heq | ⟨mid, _, hlast⟩
    · rw [heq]
      exact hend
    · exact hlast.bounds.2
  · rw [hbehind]
    exact hend

/-- The bytes of a match are those of the text from its start to its stop. -/
theorem drop_start : text.drop found.start
    = (SplitSegment.token found).bytes text ++ text.drop found.stop := by
  have hle : found.pos ≤ found.contentEnd := Nat.le_add_right _ _
  have hcontent : substr text found.pos (found.contentEnd - found.pos) = found.token.content := by
    unfold substr contentEnd
    rw [Nat.add_sub_cancel_left, ← List.prefix_iff_eq_take.mp h.longest.occurs]
  rw [BpeTokenizer.drop_eq_substr text h.start_le, BpeTokenizer.drop_eq_substr text hle, hcontent,
    BpeTokenizer.drop_eq_substr text h.contentEnd_le_stop, SplitSegment.bytes]
  simp only [List.append_assoc]

end AddedMatch.Sound

/-- **With the contents put back and the stripped bytes restored, the segments are the text.** -/
theorem SplitSegment.Follows.flatten_bytes : ∀ {segments : List SplitSegment} {floor here : Nat},
    Follows text.length floor here segments →
    (∀ s ∈ segments, s.Sound u text tokens matchNormalized) →
    (segments.map (bytes text)).flatten = text.drop here := by
  intro segments
  induction segments with
  | nil =>
      intro floor here h _
      rw [show here = text.length from h, List.drop_length]
      rfl
  | cons segment segments ih =>
      intro floor here h hsound
      have hrest := fun s hs => hsound s (List.mem_cons_of_mem segment hs)
      have hfirst := hsound segment List.mem_cons_self
      rw [List.map_cons, List.flatten_cons]
      cases segment with
      | text start stop =>
          obtain ⟨_, rfl, hfollows⟩ := h
          rw [ih hfollows hrest, BpeTokenizer.drop_eq_substr text (le_of_lt hfirst.1)]
          rfl
      | token found =>
          obtain ⟨_, rfl, hfollows⟩ := h
          rw [ih hfollows hrest, AddedMatch.Sound.drop_start hfirst]

/-- The match that the scan makes of the longest token at a place, with the whitespace it strips
on either side. -/
theorem AddedMatch.sound_of_longest {token : AddedToken} {segmentStart pos start stop : Nat}
    (hle : segmentStart ≤ pos)
    (hnone : ∀ q, segmentStart ≤ q → q < pos → NoneAt tokens matchNormalized text q)
    (hlongest : LongestAt tokens matchNormalized text pos token)
    (hstart : (if token.lstrip then u.stripWhitespaceBackward text segmentStart pos pos else pos)
      = start)
    (hstop : (if token.rstrip then u.stripWhitespaceForward text text.length
      (pos + token.content.length) else pos + token.content.length) = stop) :
    (AddedMatch.mk token segmentStart start pos stop).Sound u text tokens matchNormalized := by
  refine ⟨hle, hnone, hlongest, ?_, ?_⟩
  · show if token.lstrip then _ else start = pos
    rw [← hstart]
    split
    · exact stripWhitespaceBackward_longest u text segmentStart pos pos hle (le_refl _)
    · rfl
  · show if token.rstrip then _ else stop = pos + token.content.length
    rw [← hstop]
    split
    · exact stripWhitespaceForward_longest u text _ _ (by omega)
    · rfl

/-- These pieces are those of segments that lead from `here` to the end of the text. -/
def HandedOn (u : UnicodeTables) (text : Text) (tokens : List AddedToken) (matchNormalized : Bool)
    (here : Nat) (pieces : List AddedSplitPiece) : Prop :=
  ∃ segments : List SplitSegment, pieces = segments.map (SplitSegment.piece text) ∧
    SplitSegment.Follows text.length here here segments ∧
    ∀ s ∈ segments, s.Sound u text tokens matchNormalized

/-- A match, and the part of the text before it unless that is empty. -/
theorem HandedOn.cons {found : AddedMatch} {rest : List AddedSplitPiece}
    (hsound : found.Sound u text tokens matchNormalized)
    (h : HandedOn u text tokens matchNormalized found.stop rest) :
    HandedOn u text tokens matchNormalized found.floor
      ((if found.floor < found.start then
        [⟨substr text found.floor (found.start - found.floor), -1⟩] else []) ++
          ⟨[], found.token.id⟩ :: rest) := by
  obtain ⟨segments, rfl, hfollows, hall⟩ := h
  have htail : ∀ s ∈ SplitSegment.token found :: segments,
      s.Sound u text tokens matchNormalized := by
    intro s hs
    rcases List.mem_cons.mp hs with rfl | hs
    · exact hsound
    · exact hall s hs
  by_cases htext : found.floor < found.start
  · rw [if_pos htext]
    refine ⟨.text found.floor found.start :: .token found :: segments, rfl,
      ⟨rfl, rfl, rfl, rfl, hfollows⟩, fun s hs => ?_⟩
    rcases List.mem_cons.mp hs with rfl | hs
    · exact ⟨htext, fun q hq hqlt => hsound.leftmost q hq (hqlt.trans_le hsound.start_le)⟩
    · exact htail s hs
  · rw [if_neg htext]
    have hnotext : found.start = found.floor :=
      le_antisymm (Nat.le_of_not_lt htext) hsound.floor_le_start
    exact ⟨.token found :: segments, rfl, ⟨rfl, hnotext, hfollows⟩, htail⟩

/-- The rest of a text in which no token begins. -/
theorem HandedOn.tail {here : Nat} (hle : here ≤ text.length)
    (hnone : ∀ q, here ≤ q → q < text.length → NoneAt tokens matchNormalized text q) :
    HandedOn u text tokens matchNormalized here
      (if here < text.length then [⟨text.drop here, -1⟩] else []) := by
  by_cases htext : here < text.length
  · rw [if_pos htext]
    refine ⟨[.text here text.length], ?_, ⟨rfl, rfl, rfl⟩, fun s hs => ?_⟩
    · rw [List.map_singleton, SplitSegment.piece, substr,
        List.take_of_length_le (by rw [List.length_drop])]
    · rw [List.mem_singleton.mp hs]
      exact ⟨htext, hnone⟩
  · rw [if_neg htext]
    refine ⟨[], rfl, ?_, fun s hs => absurd hs List.not_mem_nil⟩
    show here = text.length
    omega

/-- What the rest of the scan hands on, from a place up to which no token occurs. -/
theorem splitOnLoop_segments (hne : ∀ token ∈ tokens, token.content ≠ []) :
    ∀ (fuel segmentStart pos : Nat) (pieces : List AddedSplitPiece), segmentStart ≤ pos →
      pos ≤ text.length → text.length < pos + fuel →
      (∀ q, segmentStart ≤ q → q < pos → NoneAt tokens matchNormalized text q) →
      (splitOnLoop u text tokens (buildBuckets tokens) matchNormalized fuel segmentStart pos
        pieces).Returns fun out => ∃ rest, out = pieces ++ rest ∧
          HandedOn u text tokens matchNormalized segmentStart rest := by
  intro fuel
  induction fuel with
  | zero => intro segmentStart pos pieces _ _ hfuel; omega
  | succ fuel ih =>
      intro segmentStart pos pieces hle hpos hfuel hnone
      rw [splitOnLoop]
      by_cases hlt : pos < text.length
      · rw [if_pos hlt]
        -- a place with no token is passed
        have hpass : NoneAt tokens matchNormalized text pos → _ := fun hhere =>
          ih segmentStart (pos + 1) pieces (by omega) (by omega) (by omega) (by
            intro q hq hqlt
            rcases Nat.lt_succ_iff_lt_or_eq.mp hqlt with hbefore | rfl
            · exact hnone q hq hbefore
            · exact hhere)
        cases hlookup : (buildBuckets tokens).lookup (text.getD pos 0) with
        | none => exact hpass (noneAt_of_lookup hne hlookup)
        | some bucket =>
            refine Returns.bind (matchBucket_longest hne hlookup) fun result hresult => ?_
            cases result with
            | none => exact hpass (hresult.2 rfl)
            | some token =>
                have hlongest := hresult.1 token rfl
                have hcontent := hne token hlongest.mem
                have hlen := List.length_pos_of_ne_nil hcontent
                dsimp only
                generalize hstart : (if token.lstrip then
                  u.stripWhitespaceBackward text segmentStart pos pos else pos) = start
                generalize hstop : (if token.rstrip then u.stripWhitespaceForward text text.length
                  (pos + token.content.length) else pos + token.content.length) = stop
                have hsound := AddedMatch.sound_of_longest hle hnone hlongest hstart hstop
                have hend : pos + token.content.length ≤ stop := hsound.contentEnd_le_stop
                refine (ih stop stop _ (le_refl _) (hsound.stop_le hcontent) (by omega) (by
                  intro q hq hqlt
                  omega)).mono ?_
                rintro out ⟨rest, rfl, hrest⟩
                refine ⟨_, ?_, hrest.cons hsound⟩
                split <;> simp
      · rw [if_neg hlt]
        have htail := HandedOn.tail (u := u) (hle.trans hpos) fun q hq hqlt =>
          hnone q hq (by omega)
        refine returns_ok ⟨_, ?_, htail⟩
        split <;> simp

end

/-- **Splitting is leftmost and longest and drops nothing but the whitespace next to a match.** -/
theorem splitOnAddedTokens_segments (u : UnicodeTables) (text : Text) (tokens : List AddedToken)
    (matchNormalized : Bool) (hne : ∀ token ∈ tokens, token.content ≠ []) :
    (splitOnAddedTokens u text tokens (buildBuckets tokens) matchNormalized).Returns fun pieces =>
      ∃ segments : List SplitSegment, pieces = segments.map (SplitSegment.piece text) ∧
        (segments.map (SplitSegment.bytes text)).flatten = text ∧
        SplitSegment.Follows text.length 0 0 segments ∧
        ∀ s ∈ segments, s.Sound u text tokens matchNormalized := by
  refine (splitOnLoop_segments hne (text.length + 1) 0 0 [] (le_refl _) (Nat.zero_le _)
    (by omega) ?_).mono ?_
  · intro q _ hq
    omega
  · rintro pieces ⟨_, rfl, segments, rfl, hfollows, hsound⟩
    refine ⟨segments, List.nil_append _, ?_, hfollows, hsound⟩
    rw [hfollows.flatten_bytes hsound, List.drop_zero]

/-- `<s>`, which strips on both sides, and `<s>>`, which strips nothing. -/
def stripTokens : List AddedToken :=
  [{ id := 7, content := ascii "<s>", special := true, singleWord := false, lstrip := true,
      rstrip := true, normalized := false },
    { id := 8, content := ascii "<s>>", special := true, singleWord := false, lstrip := false,
      rstrip := false, normalized := false }]

theorem splitOnAddedTokens_segments_strip : (∀ token ∈ stripTokens, token.content ≠ []) ∧
    (splitOnAddedTokens asciiTables (ascii "a  <s> <s>> b") stripTokens
      (buildBuckets stripTokens) false).Returns fun pieces =>
        ∃ segments : List SplitSegment,
          pieces = segments.map (SplitSegment.piece (ascii "a  <s> <s>> b")) ∧
          (segments.map (SplitSegment.bytes (ascii "a  <s> <s>> b"))).flatten
            = ascii "a  <s> <s>> b" ∧
          SplitSegment.Follows (ascii "a  <s> <s>> b").length 0 0 segments ∧
          ∀ s ∈ segments, s.Sound asciiTables (ascii "a  <s> <s>> b") stripTokens false :=
  ⟨by decide +kernel,
    splitOnAddedTokens_segments asciiTables _ stripTokens false (by decide +kernel)⟩

end InferenceEngine
