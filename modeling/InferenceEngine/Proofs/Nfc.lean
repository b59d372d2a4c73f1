/-
The fast path of NFC normalization and the full algorithm.

An inert codepoint is one that its decomposition composes to again, whatever stands before it:
what it decomposes to begins with a starter that nothing composes with.  So a segment can be
cut in front of an inert codepoint, and a run of them is normalized to itself.

What the two paths can differ in is the way back to bytes.  The fast path copies the text; the
full algorithm writes every codepoint anew, and so in its shortest form.
-/
import InferenceEngine.Tokenizer.Nfc
import InferenceEngine.Proofs.Codec

namespace InferenceEngine

namespace NfcTables

variable {n : NfcTables}

/-! ### What the tables say of inert codepoints

The tables are generated and large.  That ASCII is inert and that inert codepoints recompose is
all that the algorithm needs of them. -/

/-- Neighbours that canonical ordering leaves alone. -/
def InOrder (n : NfcTables) (before after : Nat) : Prop :=
  n.combiningClass after = 0 ∨ n.combiningClass before ≤ n.combiningClass after

/-- A starter that is never the second element of a composition. -/
def Opens (n : NfcTables) (codepoint : Nat) : Prop :=
  n.combiningClass codepoint = 0 ∧ ∀ first, n.composePair first codepoint = none

/-- A codepoint that its decomposition composes to again, whatever stands before it.  One that
has no decomposition does, if it opens a segment. -/
structure Recomposes (n : NfcTables) (codepoint head : Nat) (tail : List Nat) : Prop where
  decompose : n.decompose codepoint = head :: tail
  opens : n.Opens head
  inOrder : List.IsChain n.InOrder (head :: tail)
  compose : tail.foldlM n.composePair head = some codepoint

/-- What the generated tables guarantee. -/
structure Facts (n : NfcTables) : Prop where
  ascii : ∀ c < 0x80, n.isNfcInert c = true
  inert : ∀ c, n.isNfcInert c = true → ∃ head tail, n.Recomposes c head tail

theorem Opens.recomposes {c : Nat} (h : n.Opens c) (hplain : n.decompose c = [c]) :
    n.Recomposes c c [] := ⟨hplain, h, .singleton _, rfl⟩

/-! ### Canonical ordering

Non-starters are sorted between starters, so a text can be ordered on either side of a starter
by itself. -/

/-- A non-starter does not pass a starter. -/
private theorem moveBack_append {head : Nat} (hhead : n.combiningClass head = 0)
    (ccc c : Nat) (base : List Nat) (done : List Nat) :
    n.moveBack ccc c (done ++ head :: base) = n.moveBack ccc c done ++ head :: base := by
  induction done with
  | nil =>
      show (if ccc < n.combiningClass head then _ else _) = _
      rw [hhead, if_neg (Nat.not_lt_zero _)]
      rfl
  | cons previous done ih =>
      rw [List.cons_append, moveBack, moveBack]
      by_cases hlt : ccc < n.combiningClass previous
      · rw [if_pos hlt, if_pos hlt, ih, List.cons_append]
      · rw [if_neg hlt, if_neg hlt]
        rfl

/-- What stands before a starter stays as it is. -/
private theorem reorderLoop_base {head : Nat} (hhead : n.combiningClass head = 0)
    (base rest : List Nat) : ∀ done,
      n.reorderLoop rest (done ++ head :: base)
        = base.reverse ++ head :: n.reorderLoop rest done := by
  induction rest with
  | nil => intro done; simp [reorderLoop]
  | cons c rest ih =>
      intro done
      rw [reorderLoop, reorderLoop]
      by_cases hc : n.combiningClass c = 0
      · rw [if_pos hc, if_pos hc]
        exact ih (c :: done)
      · rw [if_neg hc, if_neg hc, moveBack_append hhead]
        exact ih _

private theorem reorderLoop_append (rest rest' : List Nat) : ∀ done,
    n.reorderLoop (rest ++ rest') done = n.reorderLoop rest' (n.reorderLoop rest done).reverse := by
  induction rest with
  | nil => intro done; simp [reorderLoop]
  | cons c rest ih =>
      intro done
      rw [List.cons_append, reorderLoop, reorderLoop]
      by_cases hc : n.combiningClass c = 0
      · rw [if_pos hc, if_pos hc]
        exact ih _
      · rw [if_neg hc, if_neg hc]
        exact ih _

/-- **Ordering can be done on both sides of a starter.** -/
theorem reorder_append {head : Nat} (hhead : n.combiningClass head = 0) (before rest : List Nat) :
    n.reorder (before ++ head :: rest) = n.reorder before ++ head :: n.reorder rest := by
  unfold reorder
  rw [reorderLoop_append, reorderLoop]
  rw [if_pos hhead]
  have hbase := reorderLoop_base hhead (n.reorderLoop before []).reverse rest []
  rwa [List.nil_append, List.reverse_reverse] at hbase

theorem reorder_cons {head : Nat} (hhead : n.combiningClass head = 0) (rest : List Nat) :
    n.reorder (head :: rest) = head :: n.reorder rest := reorder_append hhead [] rest

private theorem reorderLoop_inOrder (rest : List Nat) : ∀ last done,
    List.IsChain n.InOrder (last :: rest) →
    n.reorderLoop rest (last :: done) = (last :: done).reverse ++ rest := by
  induction rest with
  | nil => intro last done _; simp [reorderLoop]
  | cons c rest ih =>
      intro last done h
      rw [List.isChain_cons_cons] at h
      have hstep : n.reorderLoop (c :: rest) (last :: done)
          = n.reorderLoop rest (c :: last :: done) := by
        rw [reorderLoop]
        by_cases hc : n.combiningClass c = 0
        · rw [if_pos hc]
        · rw [if_neg hc, moveBack, if_neg (Nat.not_lt.mpr (h.1.resolve_left hc))]
      rw [hstep, ih c (last :: done) h.2]
      simp

/-- What is in order stays as it is. -/
theorem reorder_inOrder {head : Nat} {tail : List Nat} (hhead : n.combiningClass head = 0)
    (h : List.IsChain n.InOrder (head :: tail)) : n.reorder (head :: tail) = head :: tail := by
  unfold reorder
  rw [reorderLoop]
  rw [if_pos hhead, reorderLoop_inOrder tail head [] h]
  rfl

/-! ### Canonical composition

A codepoint that opens a segment is not composed with anything before it. -/

/-- What has been written before the starter stays as it is. -/
private theorem composeLoop_base (base rest : List Nat) : ∀ written starter starterPos lastCcc,
    n.composeLoop rest (base ++ written) starter (base.length + starterPos) lastCcc
      = base ++ n.composeLoop rest written starter starterPos lastCcc := by
  induction rest with
  | nil => intro written starter starterPos lastCcc; rfl
  | cons c rest ih =>
      intro written starter starterPos lastCcc
      have hset : ∀ x, (base ++ written).set (base.length + starterPos) x
          = base ++ written.set starterPos x := by
        intro x
        rw [List.set_append_right _ _ (Nat.le_add_right _ _), Nat.add_sub_cancel_left]
      rw [composeLoop, composeLoop]
      rw [List.append_assoc, List.length_append]
      cases n.composePair starter c with
      | none =>
          dsimp only
          by_cases hc : n.combiningClass c = 0
          · rw [if_pos hc, if_pos hc]
            exact ih _ _ _ _
          · rw [if_neg hc, if_neg hc]
            exact ih _ _ _ _
      | some composed =>
          dsimp only
          by_cases hlast : lastCcc < n.combiningClass c ∨ lastCcc = 0
          · rw [if_pos hlast, if_pos hlast, hset]
            exact ih _ _ _ _
          · rw [if_neg hlast, if_neg hlast]
            by_cases hc : n.combiningClass c = 0
            · rw [if_pos hc, if_pos hc]
              exact ih _ _ _ _
            · rw [if_neg hc, if_neg hc]
              exact ih _ _ _ _

/-- A codepoint that opens a segment starts anew. -/
private theorem composeLoop_opens {head : Nat} (hhead : n.Opens head) (rest before : List Nat) :
    ∀ written starter starterPos lastCcc,
      n.composeLoop (before ++ head :: rest) written starter starterPos lastCcc
        = n.composeLoop before written starter starterPos lastCcc
          ++ n.composeLoop rest [head] head 0 0 := by
  induction before with
  | nil =>
      intro written starter starterPos lastCcc
      have hstep : n.composeLoop (head :: rest) written starter starterPos lastCcc
          = n.composeLoop rest (written ++ [head]) head written.length 0 := by
        rw [composeLoop]
        simp only [hhead.2, hhead.1, if_true]
      rw [List.nil_append, hstep]
      exact composeLoop_base written rest [head] head 0 0
  | cons c before ih =>
      intro written starter starterPos lastCcc
      rw [List.cons_append, composeLoop, composeLoop]
      cases n.composePair starter c with
      | none =>
          dsimp only
          by_cases hc : n.combiningClass c = 0
          · rw [if_pos hc, if_pos hc]
            exact ih _ _ _ _
          · rw [if_neg hc, if_neg hc]
            exact ih _ _ _ _
      | some composed =>
          dsimp only
          by_cases hlast : lastCcc < n.combiningClass c ∨ lastCcc = 0
          · rw [if_pos hlast, if_pos hlast]
            exact ih _ _ _ _
          · rw [if_neg hlast, if_neg hlast]
            by_cases hc : n.combiningClass c = 0
            · rw [if_pos hc, if_pos hc]
              exact ih _ _ _ _
            · rw [if_neg hc, if_neg hc]
              exact ih _ _ _ _

/-- **Composition can be done on both sides of a codepoint that opens a segment.** -/
theorem compose_append {head : Nat} (hhead : n.Opens head) (before rest : List Nat) :
    n.compose (before ++ head :: rest) = n.compose before ++ n.compose (head :: rest) := by
  have hright : n.compose (head :: rest) = n.composeLoop rest [head] head 0 0 := by
    rw [compose, if_pos hhead.1]
  rw [hright]
  cases before with
  | nil =>
      rw [List.nil_append, hright]
      rfl
  | cons first before =>
      rw [List.cons_append, compose, compose]
      exact composeLoop_opens hhead rest before _ _ _ _

private theorem composeLoop_fold (tail : List Nat) : ∀ {head c : Nat},
    tail.foldlM n.composePair head = some c → n.composeLoop tail [head] head 0 0 = [c] := by
  induction tail with
  | nil =>
      intro head c h
      cases h
      rfl
  | cons second tail ih =>
      intro head c h
      rw [List.foldlM_cons] at h
      obtain ⟨composed, hpair, h⟩ := Option.bind_eq_some_iff.mp h
      rw [composeLoop]
      rw [hpair]
      dsimp only
      rw [if_pos (Or.inr rfl)]
      exact ih h

/-! ### Segments

Ordering and composition both work on either side of the cut, so normalization does. -/

private theorem normalizeCodepoints_nil : n.normalizeCodepoints [] = [] := rfl

/-- **A segment can be cut in front of an inert codepoint.** -/
theorem normalizeCodepoints_append (hfacts : n.Facts) (before : List Nat) {c : Nat}
    (hc : n.isNfcInert c = true) (rest : List Nat) :
    n.normalizeCodepoints (before ++ c :: rest)
      = n.normalizeCodepoints before ++ n.normalizeCodepoints (c :: rest) := by
  obtain ⟨head, tail, h⟩ := hfacts.inert c hc
  unfold normalizeCodepoints
  rw [List.flatMap_append, List.flatMap_cons, h.decompose, List.cons_append,
    reorder_append h.opens.1, reorder_cons h.opens.1]
  exact compose_append h.opens _ _

private theorem normalizeCodepoints_singleton (hfacts : n.Facts) {c : Nat}
    (hc : n.isNfcInert c = true) : n.normalizeCodepoints [c] = [c] := by
  obtain ⟨head, tail, h⟩ := hfacts.inert c hc
  unfold normalizeCodepoints
  rw [List.flatMap_cons, List.flatMap_nil, List.append_nil, h.decompose,
    reorder_inOrder h.opens.1 h.inOrder, compose, if_pos h.opens.1]
  exact composeLoop_fold tail h.compose

/-- **A run of inert codepoints is normalized to itself.** -/
theorem normalizeCodepoints_inert (hfacts : n.Facts) {run : List Nat}
    (hrun : ∀ c ∈ run, n.isNfcInert c = true) : n.normalizeCodepoints run = run := by
  induction run with
  | nil => rfl
  | cons c run ih =>
      have hsingle := normalizeCodepoints_singleton hfacts (hrun c List.mem_cons_self)
      cases run with
      | nil => exact hsingle
      | cons d run =>
          have hd := hrun d (List.mem_cons_of_mem _ List.mem_cons_self)
          have hcut := normalizeCodepoints_append hfacts [c] hd run
          rw [List.singleton_append] at hcut
          rw [hcut, hsingle, ih fun e he => hrun e (List.mem_cons_of_mem _ he)]
          rfl

end NfcTables

/-! ### Scanning

The text is read as a list of items.  Both paths are described by what they write for it. -/

/-- What the decoder finds at a place of a text: a sequence with its codepoint, or a byte that
does not decode. -/
structure ScanItem where
  codepoint : Option Nat
  bytes : Text

/-- The items of a text.  Every turn consumes a byte, so the length of the text bounds the
turns. -/
def scanLoop : (fuel : Nat) → Text → List ScanItem
  | 0, _ => []
  | _ + 1, [] => []
  | fuel + 1, byte :: rest =>
      match decodeUtf8 (byte :: rest) with
      | some (codepoint, length) =>
          ⟨some codepoint, (byte :: rest).take length⟩
            :: scanLoop fuel ((byte :: rest).drop length)
      | none => ⟨none, [byte]⟩ :: scanLoop fuel rest

/-- The items of a text. -/
def scan (text : Text) : List ScanItem := scanLoop text.length text

/-- Every sequence of a text is as short as its codepoint allows. -/
def Shortest (text : Text) : Prop :=
  ∀ item ∈ scan text, ∀ c, item.codepoint = some c → (utf8Bytes c).length = item.bytes.length

/-- A sequence is no shorter than its codepoint allows. -/
structure ScanItem.Sound (item : ScanItem) : Prop where
  length_le : ∀ c, item.codepoint = some c → (utf8Bytes c).length ≤ item.bytes.length
  shortest : ∀ c, item.codepoint = some c →
    (item.bytes = utf8Bytes c ↔ (utf8Bytes c).length = item.bytes.length)

private theorem drop_lt {text : Text} {codepoint length : Nat}
    (h : decodeUtf8 text = some (codepoint, length)) :
    (text.drop length).length < text.length := by
  obtain ⟨hpos, hle⟩ := decodeUtf8_length h
  rw [List.length_drop]
  omega

theorem scanLoop_flatMap : ∀ {fuel : Nat} {text : Text}, text.length ≤ fuel →
    (scanLoop fuel text).flatMap ScanItem.bytes = text := by
  intro fuel
  induction fuel with
  | zero =>
      intro text h
      rw [List.length_eq_zero_iff.mp (Nat.le_zero.mp h)]
      rfl
  | succ fuel ih =>
      intro text h
      cases text with
      | nil => rfl
      | cons byte rest =>
          rw [scanLoop]
          cases hd : decodeUtf8 (byte :: rest) with
          | none =>
              rw [List.length_cons] at h
              show [byte] ++ (scanLoop fuel rest).flatMap ScanItem.bytes = _
              rw [ih (by omega)]
              rfl
          | some r =>
              obtain ⟨codepoint, length⟩ := r
              have hlt := drop_lt hd
              show (byte :: rest).take length ++ (scanLoop fuel _).flatMap ScanItem.bytes = _
              rw [ih (by omega), List.take_append_drop]

theorem scan_flatMap (text : Text) : (scan text).flatMap ScanItem.bytes = text :=
  scanLoop_flatMap (Nat.le_refl _)

private theorem scanLoop_fuel : ∀ {fuel fuel' : Nat} {text : Text}, text.length ≤ fuel →
    text.length ≤ fuel' → scanLoop fuel text = scanLoop fuel' text := by
  intro fuel
  induction fuel with
  | zero =>
      intro fuel' text h h'
      rw [List.length_eq_zero_iff.mp (Nat.le_zero.mp h)]
      cases fuel' <;> rfl
  | succ fuel ih =>
      intro fuel' text h h'
      cases text with
      | nil => cases fuel' <;> rfl
      | cons byte rest =>
          rw [List.length_cons] at h h'
          obtain ⟨fuel', rfl⟩ : ∃ k, fuel' = k + 1 := ⟨fuel' - 1, by omega⟩
          rw [scanLoop, scanLoop]
          cases hd : decodeUtf8 (byte :: rest) with
          | none =>
              dsimp only
              exact congrArg (List.cons _) (ih (by omega) (by omega))
          | some r =>
              have hlt := drop_lt hd
              rw [List.length_cons] at hlt
              dsimp only
              exact congrArg (List.cons _) (ih (by omega) (by omega))

theorem scan_sequence {text : Text} {codepoint length : Nat}
    (h : decodeUtf8 text = some (codepoint, length)) :
    scan text = ⟨some codepoint, text.take length⟩ :: scan (text.drop length) := by
  cases text with
  | nil => cases h
  | cons byte rest =>
      have hlt := drop_lt h
      unfold scan
      rw [List.length_cons] at hlt ⊢
      rw [scanLoop, h]
      dsimp only
      rw [scanLoop_fuel (Nat.le_of_lt_succ hlt) (Nat.le_refl _)]

theorem scan_byte {byte : UInt8} {rest : Text} (h : decodeUtf8 (byte :: rest) = none) :
    scan (byte :: rest) = ⟨none, [byte]⟩ :: scan rest := by
  unfold scan
  rw [List.length_cons, scanLoop, h]

/-- The bytes of some items. -/
def bytesOf (items : List ScanItem) : Text := items.flatMap ScanItem.bytes

/-- **The items of a text can be cut anywhere: either part is scanned alike on its own.** -/
theorem scan_cut : ∀ (before after : List ScanItem) {text : Text},
    scan text = before ++ after →
    scan (bytesOf before) = before ∧ scan (bytesOf after) = after := by
  intro before
  induction before with
  | nil =>
      intro after text h
      refine ⟨rfl, ?_⟩
      rw [List.nil_append] at h
      rw [bytesOf, ← h, scan_flatMap]
  | cons item before ih =>
      intro after text h
      cases text with
      | nil => cases h
      | cons byte rest =>
          cases hd : decodeUtf8 (byte :: rest) with
          | none =>
              rw [scan_byte hd] at h
              obtain ⟨rfl, hrest⟩ := List.cons.inj h
              obtain ⟨hbefore, hafter⟩ := ih after hrest
              refine ⟨?_, hafter⟩
              have hbytes : rest = bytesOf before ++ bytesOf after := by
                rw [← scan_flatMap rest, hrest]
                exact List.flatMap_append
              -- with less after it the byte does not decode either
              have hnone : decodeUtf8 (byte :: bytesOf before) = none := by
                by_contra hsome
                obtain ⟨⟨c, length⟩, hc⟩ := Option.ne_none_iff_exists'.mp hsome
                have hlong := decodeUtf8_append (bytesOf after) hc
                rw [List.cons_append, ← hbytes, hd] at hlong
                cases hlong
              show scan (byte :: bytesOf before) = _
              rw [scan_byte hnone, hbefore]
          | some r =>
              obtain ⟨c, length⟩ := r
              rw [scan_sequence hd] at h
              obtain ⟨rfl, hrest⟩ := List.cons.inj h
              obtain ⟨hbefore, hafter⟩ := ih after hrest
              refine ⟨?_, hafter⟩
              have hlength : ((byte :: rest).take length).length = length :=
                List.length_take_of_le (decodeUtf8_length hd).2
              show scan ((byte :: rest).take length ++ bytesOf before) = _
              rw [scan_sequence (decodeUtf8_take (bytesOf before) hd),
                List.take_left' hlength, List.drop_left' hlength, hbefore]

theorem scanLoop_items : ∀ (fuel : Nat) (text : Text), ∀ item ∈ scanLoop fuel text,
    item.Sound := by
  intro fuel
  induction fuel with
  | zero =>
      intro text item hitem
      cases hitem
  | succ fuel ih =>
      intro text item hitem
      cases text with
      | nil => cases hitem
      | cons byte rest =>
          rw [scanLoop] at hitem
          cases hd : decodeUtf8 (byte :: rest) with
          | none =>
              rw [hd] at hitem
              rcases List.mem_cons.mp hitem with rfl | hitem
              · exact ⟨by simp, by simp⟩
              · exact ih _ item hitem
          | some r =>
              obtain ⟨codepoint, length⟩ := r
              rw [hd] at hitem
              rcases List.mem_cons.mp hitem with rfl | hitem
              · have hlength : ((byte :: rest).take length).length = length :=
                  List.length_take_of_le (decodeUtf8_length hd).2
                refine ⟨?_, ?_⟩
                · intro c hc
                  cases hc
                  show _ ≤ ((byte :: rest).take length).length
                  rw [hlength]
                  exact utf8Bytes_length_le hd
                · intro c hc
                  cases hc
                  show (byte :: rest).take length = _ ↔ _ = ((byte :: rest).take length).length
                  rw [hlength]
                  exact decodeUtf8_shortest hd
              · exact ih _ item hitem

namespace NfcTables

variable {n : NfcTables}

/-- The bytes written for a segment. -/
def segmentText (n : NfcTables) (buffer : List Nat) : Text :=
  (n.normalizeCodepoints buffer).flatMap utf8Bytes

/-- What the full algorithm writes for some items, with a segment begun. -/
def writeItems (n : NfcTables) : List ScanItem → (buffer : List Nat) → Text
  | [], buffer => n.segmentText buffer
  | ⟨some codepoint, _⟩ :: items, buffer => n.writeItems items (buffer ++ [codepoint])
  | ⟨none, bytes⟩ :: items, buffer => n.segmentText buffer ++ (bytes ++ n.writeItems items [])

private theorem normalizeSegment_eq (buffer : List Nat) (out : Text) :
    n.normalizeSegment buffer out = out ++ n.segmentText buffer := by
  unfold normalizeSegment segmentText
  by_cases h : buffer = []
  · rw [if_pos h, h, normalizeCodepoints_nil, List.flatMap_nil, List.append_nil]
  · rw [if_neg h]

private theorem normalizeLoop_eq : ∀ {fuel : Nat} {text : Text} (buffer : List Nat) (out : Text),
    text.length ≤ fuel →
    n.normalizeLoop fuel text buffer out = out ++ n.writeItems (scanLoop fuel text) buffer := by
  intro fuel
  induction fuel with
  | zero =>
      intro text buffer out h
      exact normalizeSegment_eq buffer out
  | succ fuel ih =>
      intro text buffer out h
      cases text with
      | nil => exact normalizeSegment_eq buffer out
      | cons byte rest =>
          rw [normalizeLoop, scanLoop]
          cases hd : decodeUtf8 (byte :: rest) with
          | none =>
              rw [List.length_cons] at h
              dsimp only
              rw [ih [] _ (by omega), normalizeSegment_eq, writeItems]
              simp only [List.append_assoc]
          | some r =>
              obtain ⟨codepoint, length⟩ := r
              have hlt := drop_lt hd
              dsimp only
              rw [ih _ _ (by omega), writeItems]

/-- **The full algorithm writes the items of the text.** -/
theorem fullPass_eq (text : Text) : n.fullPass text = n.writeItems (scan text) [] :=
  normalizeLoop_eq [] [] (Nat.le_refl _)

/-! ### Where the items can be cut

A segment is written when the next item goes together with nothing before it. -/

/-- Nothing at the front of some items goes together with what stands before them: there is
nothing, a byte that does not decode or an inert codepoint. -/
def Apart (n : NfcTables) (items : List ScanItem) : Prop :=
  ∀ item c, items.head? = some item → item.codepoint = some c → n.isNfcInert c = true

private theorem writeItems_cut (hfacts : n.Facts) (items : List ScanItem) :
    ∀ (before : List Nat) {c : Nat} (rest : List Nat), n.isNfcInert c = true →
      n.writeItems items (before ++ c :: rest)
        = n.segmentText before ++ n.writeItems items (c :: rest) := by
  have hsegment : ∀ (before : List Nat) {c : Nat} (rest : List Nat), n.isNfcInert c = true →
      n.segmentText (before ++ c :: rest) = n.segmentText before ++ n.segmentText (c :: rest) := by
    intro before c rest hc
    unfold segmentText
    rw [normalizeCodepoints_append hfacts before hc, List.flatMap_append]
  induction items with
  | nil => exact hsegment
  | cons item items ih =>
      intro before c rest hc
      obtain ⟨codepoint, bytes⟩ := item
      cases codepoint with
      | none => rw [writeItems, writeItems, hsegment before rest hc, List.append_assoc]
      | some d =>
          rw [writeItems, writeItems, List.append_assoc, List.cons_append]
          exact ih before (rest ++ [d]) hc

/-- **What is apart is written apart.** -/
theorem writeItems_append (hfacts : n.Facts) {after : List ScanItem} (hafter : n.Apart after)
    (before : List ScanItem) : ∀ buffer, n.writeItems (before ++ after) buffer
      = n.writeItems before buffer ++ n.writeItems after [] := by
  induction before with
  | nil =>
      intro buffer
      rw [List.nil_append, writeItems]
      cases after with
      | nil =>
          show n.segmentText buffer = n.segmentText buffer ++ n.segmentText []
          unfold segmentText
          rw [normalizeCodepoints_nil, List.flatMap_nil, List.append_nil]
      | cons item after =>
          obtain ⟨codepoint, bytes⟩ := item
          cases codepoint with
          | none =>
              show n.segmentText buffer ++ _ = n.segmentText buffer ++ (n.segmentText [] ++ _)
              unfold segmentText
              rw [normalizeCodepoints_nil]
              rfl
          | some c =>
              have hc := hafter ⟨some c, bytes⟩ c rfl rfl
              rw [writeItems, writeItems]
              exact writeItems_cut hfacts after buffer [] hc
  | cons item before ih =>
      intro buffer
      obtain ⟨codepoint, bytes⟩ := item
      cases codepoint with
      | none =>
          rw [List.cons_append, writeItems, writeItems, ih, List.append_assoc, List.append_assoc]
      | some c =>
          rw [List.cons_append, writeItems, writeItems]
          exact ih _

/-! ### Inert texts

The full algorithm writes each codepoint as short as possible.  An inert text comes back the
same if it was that short already. -/

/-- A text all of whose bytes decode to inert codepoints. -/
def Inert (n : NfcTables) (text : Text) : Prop :=
  ∀ item ∈ scan text, ∃ c, item.codepoint = some c ∧ n.isNfcInert c = true

/-- What is written for an item on its own. -/
def rewritten (item : ScanItem) : Text :=
  match item.codepoint with
  | some c => utf8Bytes c
  | none => item.bytes

private theorem writeItems_inert (hfacts : n.Facts) : ∀ (items : List ScanItem)
    (buffer : List Nat), (∀ c ∈ buffer, n.isNfcInert c = true) →
    (∀ item ∈ items, ∃ c, item.codepoint = some c ∧ n.isNfcInert c = true) →
    n.writeItems items buffer = buffer.flatMap utf8Bytes ++ items.flatMap rewritten := by
  intro items
  induction items with
  | nil =>
      intro buffer hbuffer _
      rw [writeItems, segmentText, normalizeCodepoints_inert hfacts hbuffer, List.flatMap_nil,
        List.append_nil]
  | cons item items ih =>
      intro buffer hbuffer hitems
      obtain ⟨codepoint, bytes⟩ := item
      obtain ⟨c, hcodepoint, hc⟩ := hitems _ List.mem_cons_self
      have hcodepoint : codepoint = some c := hcodepoint
      subst hcodepoint
      rw [writeItems, ih _ ?_ fun item hitem => hitems item (List.mem_cons_of_mem _ hitem)]
      · rw [List.flatMap_append, List.flatMap_cons, List.append_assoc]
        simp [rewritten]
      · intro d hd
        rcases List.mem_append.mp hd with hd | hd
        · exact hbuffer d hd
        · rw [List.mem_singleton.mp hd]
          exact hc

/-- What is written again is what was there exactly when nothing got shorter. -/
private theorem flatMap_rewritten_iff : ∀ (items : List ScanItem),
    (∀ item ∈ items, item.Sound) →
    (items.flatMap rewritten).length ≤ (items.flatMap ScanItem.bytes).length ∧
    (items.flatMap rewritten = items.flatMap ScanItem.bytes ↔
      ∀ item ∈ items, ∀ c, item.codepoint = some c →
        (utf8Bytes c).length = item.bytes.length) := by
  intro items
  induction items with
  | nil => intro _; simp
  | cons item items ih =>
      intro hitems
      have hitem := hitems item List.mem_cons_self
      obtain ⟨hle, hiff⟩ := ih fun other ho => hitems other (List.mem_cons_of_mem _ ho)
      have hfirst : (rewritten item).length ≤ item.bytes.length := by
        unfold rewritten
        split
        · rename_i c hc
          exact hitem.length_le c hc
        · exact Nat.le_refl _
      have hsame : rewritten item = item.bytes ↔
          ∀ c, item.codepoint = some c → (utf8Bytes c).length = item.bytes.length := by
        unfold rewritten
        split
        · rename_i c hc
          rw [eq_comm, hitem.shortest c hc]
          refine ⟨fun h d hd => ?_, fun h => h c hc⟩
          rw [hc] at hd
          cases hd
          exact h
        · rename_i hnone
          simp [hnone]
      rw [List.flatMap_cons, List.flatMap_cons, List.length_append, List.length_append]
      refine ⟨by omega, ?_⟩
      constructor
      · intro heq
        -- neither part can be longer than what it replaces
        have hlength := congrArg List.length heq
        rw [List.length_append, List.length_append] at hlength
        obtain ⟨hhead, htail⟩ := List.append_inj heq (by omega)
        intro other ho
        rcases List.mem_cons.mp ho with rfl | ho
        · exact hsame.mp hhead
        · exact hiff.mp htail other ho
      · intro hall
        rw [hsame.mpr (hall item List.mem_cons_self),
          hiff.mpr fun other ho => hall other (List.mem_cons_of_mem _ ho)]

/-- **An inert text is rewritten as it was exactly when it is in shortest form.** -/
theorem fullPass_inert (hfacts : n.Facts) {text : Text} (h : n.Inert text) :
    n.fullPass text = text ↔ Shortest text := by
  have hwrite := writeItems_inert hfacts (scan text) [] (by simp) h
  rw [List.flatMap_nil, List.nil_append] at hwrite
  have hiff := (flatMap_rewritten_iff (scan text) (scanLoop_items _ text)).2
  rw [scan_flatMap] at hiff
  rw [fullPass_eq, hwrite, hiff]
  rfl

private theorem inertLoop_iff (hfacts : n.Facts) : ∀ {fuel : Nat} {text : Text},
    text.length ≤ fuel → (n.inertLoop fuel text = true ↔
      ∀ item ∈ scanLoop fuel text, ∃ c, item.codepoint = some c ∧ n.isNfcInert c = true) := by
  intro fuel
  induction fuel with
  | zero => intro text _; simp [inertLoop, scanLoop]
  | succ fuel ih =>
      intro text h
      cases text with
      | nil => simp [inertLoop, scanLoop]
      | cons byte rest =>
          rw [inertLoop, scanLoop]
          by_cases hascii : byte < 0x80
          · -- the shortcut decodes as it skips
            have hd : decodeUtf8 (byte :: rest) = some (byte.toNat, 1) := by
              simp [decodeUtf8, decodeLead, hascii, decodeContinue]
            have hinert := hfacts.ascii byte.toNat (UInt8.lt_iff_toNat_lt.mp hascii)
            rw [if_pos hascii, hd, ih (by rw [List.length_cons] at h; omega)]
            simp [hinert]
          · rw [if_neg hascii]
            cases hd : decodeUtf8 (byte :: rest) with
            | none => simp
            | some r =>
                obtain ⟨codepoint, length⟩ := r
                have hlt := drop_lt hd
                dsimp only
                by_cases hc : n.isNfcInert codepoint = true
                · rw [if_pos hc, ih (by omega)]
                  simp [hc]
                · rw [if_neg hc]
                  simp [hc]

/-- **The fast path is taken on the inert texts.** -/
theorem inertLoop_eq_true_iff (hfacts : n.Facts) (text : Text) :
    n.inertLoop text.length text = true ↔ n.Inert text := inertLoop_iff hfacts (Nat.le_refl _)

theorem nfcNormalize_of_not_inert (hfacts : n.Facts) {text : Text} (h : ¬n.Inert text) :
    n.nfcNormalize text = n.fullPass text := by
  unfold nfcNormalize
  rw [if_neg fun hc => h ((inertLoop_eq_true_iff hfacts text).mp hc)]

/-- **The two paths agree on a text exactly when it is in shortest form or needs the full
algorithm; a byte that does not decode is a barrier; an inert run is written again in its
place.** -/
theorem nfcNormalize_fullPass (n : NfcTables) (hfacts : n.Facts) (text : Text) :
    (n.nfcNormalize text = n.fullPass text ↔ (n.Inert text → Shortest text)) ∧
      (∀ before byte after, scan text = before ++ ⟨none, [byte]⟩ :: after →
        n.nfcNormalize text
          = n.fullPass (bytesOf before) ++ byte :: n.fullPass (bytesOf after)) ∧
      ∀ before run after, scan text = before ++ run ++ after →
        ¬n.Inert text → n.Inert (bytesOf run) → n.Apart after →
        n.nfcNormalize text
          = n.fullPass (bytesOf before) ++ n.fullPass (bytesOf run) ++ n.fullPass (bytesOf after) ∧
        (n.fullPass (bytesOf run) = bytesOf run ↔ Shortest (bytesOf run)) := by
  refine ⟨?_, ?_, ?_⟩
  · by_cases hinert : n.Inert text
    · have hfast : n.nfcNormalize text = text := by
        unfold nfcNormalize
        rw [if_pos ((inertLoop_eq_true_iff hfacts text).mpr hinert)]
      rw [hfast, eq_comm, fullPass_inert hfacts hinert]
      exact ⟨fun h _ => h, fun h => h hinert⟩
    · rw [nfcNormalize_of_not_inert hfacts hinert]
      exact ⟨fun _ h => absurd h hinert, fun _ => rfl⟩
  · intro before byte after hscan
    have hinert : ¬n.Inert text := by
      intro h
      obtain ⟨c, hc, -⟩ := h ⟨none, [byte]⟩ (by rw [hscan]; simp)
      cases hc
    have hapart : n.Apart (⟨none, [byte]⟩ :: after) := by
      intro item c hhead hc
      cases hhead
      cases hc
    have hbefore := (scan_cut _ _ hscan).1
    have hafter : scan (bytesOf after) = after := by
      rw [← List.singleton_append, ← List.append_assoc] at hscan
      exact (scan_cut _ _ hscan).2
    rw [nfcNormalize_of_not_inert hfacts hinert, fullPass_eq, hscan,
      writeItems_append hfacts hapart, fullPass_eq, fullPass_eq, hbefore, hafter]
    rfl
  · intro before run after hscan hinert hrun hapart
    obtain ⟨hfront, hafter⟩ := scan_cut _ _ hscan
    have hbefore : scan (bytesOf before) = before ∧ scan (bytesOf run) = run :=
      scan_cut before run hfront
    have hapartRun : n.Apart run := by
      intro item c hhead hc
      obtain ⟨d, hd, hdInert⟩ := hrun item (by
        rw [hbefore.2]
        exact List.mem_of_mem_head? hhead)
      rw [hc] at hd
      cases hd
      exact hdInert
    refine ⟨?_, fullPass_inert hfacts hrun⟩
    rw [nfcNormalize_of_not_inert hfacts hinert, fullPass_eq, hscan,
      writeItems_append hfacts hapart, writeItems_append hfacts hapartRun, fullPass_eq,
      fullPass_eq, fullPass_eq, hbefore.1, hbefore.2, hafter]

/-! ### Hangul, and a table

The syllables are composed by arithmetic.  The small table shows that the facts can hold. -/

private theorem hangul_constants : kHangulSBase = 0xAC00 ∧ kHangulLBase = 0x1100 ∧
    kHangulVBase = 0x1161 ∧ kHangulTBase = 0x11A7 ∧ kHangulLCount = 19 ∧ kHangulVCount = 21 ∧
    kHangulTCount = 28 ∧ kHangulSCount = 11172 := by decide

private theorem composePair_leading_vowel {first second : Nat}
    (hfirst : 0x1100 ≤ first ∧ first < 0x1113) (hsecond : 0x1161 ≤ second ∧ second < 0x1176) :
    n.composePair first second
      = some (0xAC00 + ((first - 0x1100) * 21 + (second - 0x1161)) * 28) := by
  have := hangul_constants
  unfold composePair
  rw [if_pos (by omega)]
  rfl

private theorem composePair_trailing {first second : Nat}
    (hfirst : 0xAC00 ≤ first ∧ first < 0xAC00 + 11172 ∧ (first - 0xAC00) % 28 = 0)
    (hsecond : 0x11A7 < second ∧ second < 0x11A7 + 28) :
    n.composePair first second = some (first + (second - 0x11A7)) := by
  have := hangul_constants
  unfold composePair
  rw [if_neg (by omega)]
  exact if_pos ⟨hfirst.1, hfirst.2.1, hfirst.2.2, hsecond⟩

private theorem composePair_plain {first second : Nat}
    (hvowel : ¬(0x1161 ≤ second ∧ second < 0x1176))
    (htrailing : ¬(0x11A7 < second ∧ second < 0x11A7 + 28)) :
    n.composePair first second = n.compEntry first second := by
  have := hangul_constants
  unfold composePair
  rw [if_neg (by omega), if_neg (by omega)]

/-- **A Hangul syllable is what it decomposes to**, if no class or composition of the tables is
about its parts. -/
theorem recomposes_hangul (hclass : ∀ c, 0x1100 ≤ c → c < 0x1200 → n.combiningClass c = 0)
    (hentry : ∀ first c, 0x1100 ≤ c → c < 0x1113 → n.compEntry first c = none) {c : Nat}
    (hc : isHangulSyllable c = true) : ∃ head tail, n.Recomposes c head tail := by
  have hrange : 0xAC00 ≤ c ∧ c < 0xAC00 + 11172 := by
    unfold isHangulSyllable at hc
    rw [Bool.and_eq_true, decide_eq_true_eq, decide_eq_true_eq] at hc
    exact hc
  obtain ⟨index, rfl⟩ : ∃ index, c = 0xAC00 + index := ⟨c - 0xAC00, by omega⟩
  have hdecompose : n.decompose (0xAC00 + index)
      = (0x1100 + index / 588) :: (0x1161 + index % 588 / 28) ::
        (if index % 28 ≠ 0 then [0x11A7 + index % 28] else []) := by
    unfold decompose
    rw [if_pos hc]
    unfold decomposeHangul
    simp only [kHangulLBase, kHangulVBase, kHangulSBase, kHangulNCount, kHangulVCount,
      kHangulTCount, kHangulTBase, Nat.add_sub_cancel_left]
    by_cases ht : index % 28 ≠ 0
    · rw [if_pos ht, if_pos ht]
    · rw [if_neg ht, if_neg ht]
  have hopens : n.Opens (0x1100 + index / 588) := by
    refine ⟨hclass _ (by omega) (by omega), fun first => ?_⟩
    rw [composePair_plain (by omega) (by omega)]
    exact hentry first _ (by omega) (by omega)
  have hpair : n.composePair (0x1100 + index / 588) (0x1161 + index % 588 / 28) = _ :=
    composePair_leading_vowel (by omega) (by omega)
  have hlv : 0xAC00 + ((0x1100 + index / 588 - 0x1100) * 21
      + (0x1161 + index % 588 / 28 - 0x1161)) * 28 = 0xAC00 + (index - index % 28) := by omega
  rw [hlv] at hpair
  refine ⟨_, _, hdecompose, hopens, ?_, ?_⟩
  · refine List.isChain_cons_cons.mpr ⟨Or.inl (hclass _ (by omega) (by omega)), ?_⟩
    by_cases ht : index % 28 ≠ 0
    · rw [if_pos ht]
      exact List.isChain_cons_cons.mpr
        ⟨Or.inl (hclass _ (by omega) (by omega)), .singleton _⟩
    · rw [if_neg ht]
      exact .singleton _
  · rw [List.foldlM_cons, hpair]
    by_cases ht : index % 28 ≠ 0
    · have htrailing : n.composePair (0xAC00 + (index - index % 28)) (0x11A7 + index % 28) = _ :=
        composePair_trailing (by omega) (by omega)
      rw [if_pos ht]
      show (n.composePair _ _).bind _ = _
      rw [htrailing, show 0xAC00 + (index - index % 28) + (0x11A7 + index % 28 - 0x11A7)
        = 0xAC00 + index by omega]
      rfl
    · rw [if_neg ht]
      show some (0xAC00 + (index - index % 28)) = _
      rw [show index - index % 28 = index by omega]

/-- A table with one mark and one composition: E and an acute accent. -/
def acuteTables : NfcTables where
  combiningClass c := if c = 0x301 then 230 else 0
  noOrMaybe c := c = 0x301 || (0x1161 ≤ c && c < 0x1176) || (0x11A7 < c && c < 0x11C3)
  canonicalDecomposition c := if c = 0xC9 then [0x45, 0x301] else []
  compEntry first second := if first = 0x45 ∧ second = 0x301 then some 0xC9 else none

theorem acuteTables_facts : acuteTables.Facts := by
  have hentry : ∀ first c, c ≠ 0x301 → acuteTables.compEntry first c = none := by
    intro first c hc
    exact if_neg fun h => hc h.2
  refine ⟨?_, fun c hc => ?_⟩
  · intro c hc
    have hmark : c ≠ 0x301 := by omega
    simp [isNfcInert, acuteTables, hmark]
    omega
  · by_cases hhangul : isHangulSyllable c = true
    · refine recomposes_hangul (fun d hd hd' => if_neg (by omega)) ?_ hhangul
      intro first d hd hd'
      exact hentry first d (by omega)
    have hinert : c ≠ 0x301 ∧ ¬(0x1161 ≤ c ∧ c < 0x1176) ∧ ¬(0x11A7 < c ∧ c < 0x11C3) := by
      unfold isNfcInert acuteTables at hc
      simp only [Bool.and_eq_true, Bool.not_eq_true', Bool.or_eq_false_iff,
        Bool.and_eq_false_iff, decide_eq_false_iff_not, decide_eq_true_eq] at hc
      omega
    obtain ⟨hmark, hvowel, htrailing⟩ := hinert
    by_cases haccent : c = 0xC9
    · subst haccent
      refine ⟨0x45, [0x301], by decide, ⟨by decide, fun first => ?_⟩,
        List.isChain_cons_cons.mpr ⟨Or.inr (by decide), .singleton _⟩, by decide⟩
      rw [composePair_plain (by decide) (by decide)]
      exact hentry first 0x45 (by decide)
    · refine ⟨c, [], Opens.recomposes ⟨if_neg hmark, fun first => ?_⟩ ?_⟩
      · rw [composePair_plain hvowel (by omega)]
        exact hentry first c hmark
      · unfold decompose
        rw [if_neg hhangul]
        simp [acuteTables, haccent]

/-- An accent after what it composes with, a byte that does not decode, and a letter. -/
theorem nfcNormalize_fullPass_acute :
    (acuteTables.nfcNormalize [0x45, 0xCC, 0x81, 0xFF, 0x41]
        = acuteTables.fullPass [0x45, 0xCC, 0x81, 0xFF, 0x41] ↔
      (acuteTables.Inert [0x45, 0xCC, 0x81, 0xFF, 0x41] →
        Shortest [0x45, 0xCC, 0x81, 0xFF, 0x41])) ∧
    acuteTables.nfcNormalize [0x45, 0xCC, 0x81, 0xFF, 0x41]
      = acuteTables.fullPass [0x45, 0xCC, 0x81] ++ 0xFF :: acuteTables.fullPass [0x41] := by
  have h := nfcNormalize_fullPass acuteTables acuteTables_facts [0x45, 0xCC, 0x81, 0xFF, 0x41]
  exact ⟨h.1, h.2.1 [⟨some 0x45, [0x45]⟩, ⟨some 0x301, [0xCC, 0x81]⟩] 0xFF [⟨some 0x41, [0x41]⟩]
    rfl⟩

/-- The letter `A` in two bytes is inert, and stays as it is on its own but not beside an
accent. -/
theorem nfcNormalize_overlong : ¬∀ n : NfcTables, n.Facts → ∀ text,
    n.nfcNormalize text = n.fullPass text := by
  intro h
  have hsame := h acuteTables acuteTables_facts [0xC1, 0x81]
  have hfast : acuteTables.nfcNormalize [0xC1, 0x81] = [0xC1, 0x81] := by decide +kernel
  have hfull : acuteTables.fullPass [0xC1, 0x81] = [0x41] := by decide +kernel
  rw [hfast, hfull] at hsame
  cases hsame

end NfcTables

end InferenceEngine
