/-
A sharded checkpoint answers the same whatever was asked before.

A slot is empty or holds the file that opening its shard would give again, and that file has
passed the check against the index.  So a call does the same with the slot as without it, and
`reply` is what it does without.  The check says that the tensors of the file are those the
index maps to it, which makes the shards a partition once all of them have passed.
-/
import InferenceEngine.Model.Checkpoint
import InferenceEngine.Proofs.Safetensors

namespace InferenceEngine.Checkpoint

open Except

/-! ### The index

Shards are numbered in the order in which they first occur.  The loop keeps the numbering and
the map of names consistent. -/

/-- What an index says, of the items of its document. -/
structure Indexed (items : List (Text × Json)) (index : TextMap Nat) (shardNames : List Text) :
    Prop where
  maps : ∀ name shard, Maps items name shard ↔
    ∃ ordinal : Nat, index.lookup name = some ordinal ∧ shardNames[ordinal]? = some shard
  inRange : ∀ name ordinal, index.lookup name = some ordinal → ordinal < shardNames.length
  bare : ∀ shard ∈ shardNames, isBareFilename shard = true
  nodup : shardNames.Nodup

/-- The ordinals are the positions of the shards. -/
structure Numbered (ordinals : TextMap Nat) (shardNames : List Text) : Prop where
  lookup : ∀ shard ordinal, ordinals.lookup shard = some ordinal ↔
    shardNames[ordinal]? = some shard

theorem Numbered.nodup {ordinals : TextMap Nat} {shardNames : List Text}
    (h : Numbered ordinals shardNames) : shardNames.Nodup := by
  refine List.nodup_iff_injective_get.mpr fun i j hij => Fin.ext ?_
  have hi := (h.lookup _ _).mpr (List.getElem?_eq_getElem i.isLt)
  have hj := (h.lookup _ _).mpr (List.getElem?_eq_getElem j.isLt)
  rw [show shardNames[i.val] = shardNames[j.val] from hij] at hi
  exact Option.some.inj (hi.symm.trans hj)

/-- The number of a shard, old or new. -/
theorem Numbered.emplace {ordinals : TextMap Nat} {shardNames : List Text}
    (h : Numbered ordinals shardNames) (shard : Text) :
    let e := InferenceEngine.emplace ordinals shard shardNames.length
    let shardNames' := if e.2.2 then shardNames ++ [shard] else shardNames
    Numbered e.1 shardNames' ∧ shardNames'[e.2.1]? = some shard ∧ shardNames <+: shardNames' ∧
      ∀ other ∈ shardNames', other ∈ shardNames ∨ other = shard := by
  unfold InferenceEngine.emplace
  cases hl : ordinals.lookup shard with
  | some ordinal =>
      exact ⟨h, (h.lookup _ _).mp hl, List.prefix_refl _, fun other hother => Or.inl hother⟩
  | none =>
      refine ⟨⟨fun other ordinal => ?_⟩, by simp, List.prefix_append _ _, fun other hother => ?_⟩
      · dsimp only
        rw [if_pos rfl]
        by_cases hother : other = shard
        · subst hother
          rw [AList.lookup_insert]
          constructor
          · intro heq
            cases heq
            simp
          · intro heq
            rcases Nat.lt_trichotomy ordinal shardNames.length with hlt | rfl | hgt
            · rw [List.getElem?_append_left hlt] at heq
              rw [(h.lookup _ _).mpr heq] at hl
              cases hl
            · rfl
            · have hlen : (shardNames ++ [other]).length ≤ ordinal := by
                rw [List.length_append, List.length_singleton]
                omega
              rw [List.getElem?_eq_none hlen] at heq
              cases heq
        · rw [AList.lookup_insert_ne hother, h.lookup]
          constructor
          · intro heq
            rw [List.getElem?_append_left (List.getElem?_eq_some_iff.mp heq).1]
            exact heq
          · intro heq
            by_cases hlt : ordinal < shardNames.length
            · rw [List.getElem?_append_left hlt] at heq
              exact heq
            · have hlast := List.mem_of_getElem? heq
              have hend : ordinal = shardNames.length := by
                have := (List.getElem?_eq_some_iff.mp heq).1
                simp at this
                omega
              subst hend
              simp at heq
              exact absurd heq.symm hother
      · simpa using hother

variable {items done : List (Text × Json)} {ordinals : TextMap Nat} {parsed : ParsedIndex}

/-- A shard has one number. -/
theorem Indexed.ordinal_eq {index : TextMap Nat} {shardNames : List Text}
    (h : Indexed items index shardNames) {name shard : Text} {ordinal : Nat}
    (hex : ∃ o : Nat, index.lookup name = some o ∧ shardNames[o]? = some shard)
    (hshard : shardNames[ordinal]? = some shard) : index.lookup name = some ordinal := by
  obtain ⟨o, ho, hother⟩ := hex
  have hlt := (List.getElem?_eq_some_iff.mp hshard).1
  rw [(List.getElem?_inj hlt h.nodup).mp (hshard.trans hother.symm)]
  exact ho

/-- **One item** of the weight map. -/
theorem Indexed.emplace (h : Indexed done parsed.index parsed.shardNames) {name shard : Text}
    {shardNames : List Text} {ordinal : Nat} (hnew : name ∉ done.map Prod.fst)
    (hold : parsed.shardNames <+: shardNames) (hordinal : shardNames[ordinal]? = some shard)
    (hbare : ∀ other ∈ shardNames, isBareFilename other = true) (hnodup : shardNames.Nodup) :
    Indexed (done ++ [(name, .string shard)])
      (InferenceEngine.emplace parsed.index name ordinal).1 shardNames := by
  have hkeep : ∀ (o : Nat) other, parsed.shardNames[o]? = some other →
      shardNames[o]? = some other := by
    intro o other ho
    obtain ⟨rest, rfl⟩ := hold
    rw [List.getElem?_append_left (List.getElem?_eq_some_iff.mp ho).1]
    exact ho
  have hfree : parsed.index.lookup name = none := by
    cases hl : parsed.index.lookup name with
    | none => rfl
    | some o =>
        have hlt := h.inRange name o hl
        have hmaps := (h.maps name _).mpr ⟨o, hl, List.getElem?_eq_getElem hlt⟩
        exact absurd (List.mem_map_of_mem hmaps) hnew
  refine ⟨fun other s => ?_, fun other o ho => ?_, hbare, hnodup⟩
  · rw [Maps, List.mem_append, List.mem_singleton, lookup_emplace]
    by_cases hother : other = name
    · subst hother
      rw [if_pos ⟨rfl, hfree⟩]
      constructor
      · intro hor
        rcases hor with hmem | heq
        · exact absurd (List.mem_map_of_mem hmem) hnew
        · cases heq
          exact ⟨ordinal, rfl, hordinal⟩
      · intro hex
        obtain ⟨o, ho, hs⟩ := hex
        cases ho
        rw [hordinal] at hs
        cases hs
        exact Or.inr rfl
    · rw [if_neg fun hand => hother hand.1]
      constructor
      · intro hor
        rcases hor with hmem | heq
        · obtain ⟨o, ho, hs⟩ := (h.maps other s).mp hmem
          exact ⟨o, ho, hkeep o s hs⟩
        · cases heq
          exact absurd rfl hother
      · intro hex
        obtain ⟨o, ho, hs⟩ := hex
        have hlt := h.inRange other o ho
        refine Or.inl ((h.maps other s).mpr ⟨o, ho, ?_⟩)
        rw [← hs, List.getElem?_eq_getElem hlt]
        exact (hkeep o _ (List.getElem?_eq_getElem hlt)).symm
  · rw [lookup_emplace] at ho
    by_cases hother : other = name ∧ parsed.index.lookup name = none
    · rw [if_pos hother] at ho
      cases ho
      exact (List.getElem?_eq_some_iff.mp hordinal).1
    · rw [if_neg hother] at ho
      exact lt_of_lt_of_le (h.inRange other o ho) hold.length_le

/-- **The loop** numbers the shards and maps the names, when the keys are distinct. -/
theorem indexLoop_indexed : ∀ (rest done : List (Text × Json)) (ordinals : TextMap Nat)
    (parsed parsed' : ParsedIndex), ((done ++ rest).map Prod.fst).Nodup →
    Indexed done parsed.index parsed.shardNames → Numbered ordinals parsed.shardNames →
    indexLoop rest ordinals parsed = .ok parsed' →
    Indexed (done ++ rest) parsed'.index parsed'.shardNames := by
  intro rest
  induction rest with
  | nil =>
      intro done ordinals parsed parsed' _ h _ hrun
      cases hrun
      rw [List.append_nil]
      exact h
  | cons item rest ih =>
      intro done ordinals parsed parsed' hkeys h hnum hrun
      obtain ⟨name, value⟩ := item
      cases value with
      | string shard =>
          rw [indexLoop] at hrun
          by_cases hbare : isBareFilename shard = true
          · rw [if_neg (by simp [hbare])] at hrun
            obtain ⟨hnum', hordinal, hold, hmem⟩ := hnum.emplace shard
            have happend : done ++ (name, Json.string shard) :: rest
                = (done ++ [(name, Json.string shard)]) ++ rest := by simp
            rw [happend] at hkeys ⊢
            have hnew : name ∉ done.map Prod.fst := by
              rw [List.map_append, List.map_append] at hkeys
              have hdisj := (List.nodup_append.mp (List.nodup_append.mp hkeys).1).2.2
              exact fun hin => hdisj name hin name (by simp) rfl
            refine ih _ _ _ _ hkeys (h.emplace hnew hold hordinal (fun other hother => ?_)
              hnum'.nodup) hnum' hrun
            rcases hmem other hother with hother | rfl
            · exact h.bare other hother
            · exact hbare
          · rw [if_pos (by simp [hbare])] at hrun
            cases hrun
      | _ => cases hrun

theorem indexed_nil : Indexed [] ∅ [] where
  maps := by simp [Maps]
  inRange := by simp
  bare := by simp
  nodup := List.nodup_nil

theorem numbered_nil : Numbered ∅ [] := ⟨by simp⟩

theorem parseIndex_indexed {parse : Text → Option Json} {content : Text}
    {fields : List (Text × Json)} (hne : content ≠ [])
    (hparse : parse content = some (.object fields))
    (hfind : (Json.object fields).find "weight_map" = some (.object items))
    (hkeys : (items.map Prod.fst).Nodup) (hrun : parseIndex parse content = .ok parsed) :
    Indexed items parsed.index parsed.shardNames := by
  unfold parseIndex at hrun
  rw [if_neg hne, hparse] at hrun
  dsimp only at hrun
  rw [hfind] at hrun
  exact indexLoop_indexed items [] ∅ ⟨∅, []⟩ parsed hkeys indexed_nil numbered_nil hrun

/-! ### The check of a shard

A file is compared with the names that the index maps to it, in both directions. -/

theorem missingTensors_eq_nil {index : TextMap Nat} {ordinal : Nat} {file : SafetensorsFile} :
    missingTensors index ordinal file = [] ↔
      ∀ name, index.lookup name = some ordinal → name ∈ file.entries := by
  unfold missingTensors
  rw [List.filter_eq_nil_iff]
  constructor
  · intro h name hname
    by_contra hnot
    have hkey : name ∈ index.keys :=
      AList.mem_keys.mp (AList.lookup_isSome.mp (by rw [hname]; rfl))
    exact h name hkey (decide_eq_true ⟨hname, hnot⟩)
  · intro h name _ hdec
    have hand := of_decide_eq_true hdec
    exact hand.2 (h name hand.1)

theorem unexpectedTensors_eq_nil {index : TextMap Nat} {ordinal : Nat} {file : SafetensorsFile}
    {shardNames : List Text} : unexpectedTensors index ordinal file shardNames = [] ↔
      ∀ name, name ∈ file.entries → index.lookup name = some ordinal := by
  unfold unexpectedTensors
  rw [List.filterMap_eq_nil_iff]
  constructor
  · intro h name hname
    have hnone := h name (AList.mem_keys.mp hname)
    cases hl : index.lookup name with
    | none =>
        rw [hl] at hnone
        cases hnone
    | some mapped =>
        rw [hl] at hnone
        by_cases heq : mapped = ordinal
        · rw [heq]
        · dsimp only at hnone
          rw [if_pos heq] at hnone
          cases hnone
  · intro h name hname
    rw [h name (AList.mem_keys.mpr hname)]
    exact if_neg fun hne => hne rfl

/-- **The check** passes exactly the files whose tensors are those mapped to the shard. -/
theorem checkShardConsistency_ok {index : TextMap Nat} {ordinal : Nat} {file : SafetensorsFile}
    {shardNames : List Text} {indexPath : Text} :
    checkShardConsistency index ordinal file shardNames indexPath = .ok () ↔
      ∀ name, name ∈ file.entries ↔ index.lookup name = some ordinal := by
  have hboth : (∀ name, name ∈ file.entries ↔ index.lookup name = some ordinal) ↔
      missingTensors index ordinal file = [] ∧
        unexpectedTensors index ordinal file shardNames = [] := by
    rw [missingTensors_eq_nil, unexpectedTensors_eq_nil]
    constructor
    · exact fun h => ⟨fun name => (h name).mpr, fun name => (h name).mp⟩
    · exact fun h name => ⟨h.2 name, h.1 name⟩
  rw [hboth]
  unfold checkShardConsistency
  dsimp only
  by_cases hnil : missingTensors index ordinal file = [] ∧
      unexpectedTensors index ordinal file shardNames = []
  · rw [if_pos hnil]
    exact ⟨fun _ => hnil, fun _ => rfl⟩
  · rw [if_neg hnil]
    constructor
    · intro h
      cases h
    · intro h
      exact absurd h hnil

/-! ### Calls

A call opens the shard of its name if the slot is empty and answers from the file.  Since the
file system does not change, it does not matter who opened the shard first. -/

variable {fs : FileSystem} {parse : Text → Option Json}

variable (fs parse) in
theorem openPath_returns (path : Text) : ∃ r, openPath fs parse path = .ok r := by
  obtain ⟨r, hr, -⟩ := SafetensorsFile.openFile_returns parse path.show
    (fs.mapFileReadOnly (cString path))
  exact ⟨r, hr⟩

theorem tensor_of_openPath {path : Text} {file : SafetensorsFile}
    (h : openPath fs parse path = .ok (.ok file)) (name : Text) :
    ∃ view, file.tensor name = .ok view := by
  obtain ⟨r, hr, hfile⟩ :=
    SafetensorsFile.openFile_returns parse path.show (fs.mapFileReadOnly (cString path))
  have hok : r = .ok file := Except.ok.inj (hr.symm.trans h)
  obtain ⟨_, _, -, -, -, hopened⟩ := hfile file hok
  exact hopened.tensor_returns name

variable (fs parse) in
/-- What a call answers without what is kept. -/
def reply (c : Checkpoint) (name : Text) : Checked (StatusOr TensorView) :=
  match c.index.lookup name with
  | none => pure (.error (notFoundError
      (c.weightsPath.show ++ ": no tensor named \"" ++ name.show ++ "\"")))
  | some ordinal => do
      match ← openPath fs parse (joinPath c.dir (c.shardNames.getD ordinal [])) with
      | .error status => pure (.error status)
      | .ok file =>
          match checkShardConsistency c.index ordinal file c.shardNames c.weightsPath with
          | .error status => pure (.error status)
          | .ok () => file.tensor name

/-- The two checkpoints differ in what they keep alone. -/
structure SameIndex (c c' : Checkpoint) : Prop where
  dir : c'.dir = c.dir
  weightsPath : c'.weightsPath = c.weightsPath
  shardNames : c'.shardNames = c.shardNames
  index : c'.index = c.index

theorem SameIndex.refl (c : Checkpoint) : SameIndex c c := ⟨rfl, rfl, rfl, rfl⟩

theorem SameIndex.trans {c c' c'' : Checkpoint} (h : SameIndex c c') (h' : SameIndex c' c'') :
    SameIndex c c'' :=
  ⟨h'.dir.trans h.dir, h'.weightsPath.trans h.weightsPath, h'.shardNames.trans h.shardNames,
    h'.index.trans h.index⟩

theorem SameIndex.reply_eq {c c' : Checkpoint} (h : SameIndex c c') (name : Text) :
    reply fs parse c' name = reply fs parse c name := by
  unfold reply
  rw [h.dir, h.weightsPath, h.shardNames, h.index]

variable (fs parse) in
/-- What is kept of a shard is what opening it gives, and it has passed the check. -/
structure Sound (items : List (Text × Json)) (c : Checkpoint) : Prop where
  indexed : Indexed items c.index c.shardNames
  length : c.shards.length = c.shardNames.length
  kept : ∀ (ordinal : Nat) file, c.shards[ordinal]? = some (some file) →
    openPath fs parse (joinPath c.dir (c.shardNames.getD ordinal [])) = .ok (.ok file) ∧
      checkShardConsistency c.index ordinal file c.shardNames c.weightsPath = .ok ()

variable {c c₀ : Checkpoint}

/-! ### The paths that are opened

A path is joined as bytes and cut at the first NUL when it reaches the system.  For a bare name
the cut can only be in the name. -/

theorem isBareFilename_iff {name : Text} : isBareFilename name = true ↔
    name ≠ [] ∧ name ≠ ascii "." ∧ name ≠ ascii ".." ∧ 0x2F ∉ name ∧ 0x5C ∉ name := by
  simp only [isBareFilename, Bool.and_eq_true, decide_eq_true_eq, and_assoc]

theorem head_ne_slash {name : Text} (h : 0x2F ∉ name) : name.head? ≠ some 0x2F := by
  intro hhead
  exact h (List.mem_of_mem_head? hhead)

/-- Joined with the directory, names that are not absolute stay apart. -/
theorem joinPath_injective {dir name name' : Text} (h : 0x2F ∉ name) (h' : 0x2F ∉ name')
    (heq : joinPath dir name = joinPath dir name') : name = name' := by
  unfold joinPath at heq
  rw [if_neg (head_ne_slash h), if_neg (head_ne_slash h')] at heq
  split at heq
  · exact List.append_cancel_left heq
  · exact List.cons_inj_right _ |>.mp (List.append_cancel_left heq)

theorem zero_mem_joinPath {dir name : Text} (hname : 0x2F ∉ name) (h : 0 ∈ dir) :
    0 ∈ joinPath dir name := by
  unfold joinPath
  rw [if_neg (head_ne_slash hname)]
  split <;> exact List.mem_append_left _ h

theorem zero_notMem_cString (path : Text) : 0 ∉ cString path := by
  intro h
  simpa using List.all_eq_true.mp List.all_takeWhile 0 h

theorem slash_notMem_cString {name : Text} (h : 0x2F ∉ name) : 0x2F ∉ cString name :=
  fun hc => h ((List.takeWhile_sublist _).subset hc)

/-- The cut of a path below a directory is in its last part. -/
theorem cString_joinPath {dir name : Text} (hname : 0x2F ∉ name) (h : 0 ∉ dir) :
    cString (joinPath dir name) = joinPath dir (cString name) := by
  have hdir : ∀ b ∈ dir, decide (b ≠ (0 : UInt8)) = true := by
    intro b hb
    exact decide_eq_true fun hc => h (hc ▸ hb)
  unfold joinPath
  rw [if_neg (head_ne_slash hname), if_neg (head_ne_slash (slash_notMem_cString hname))]
  split
  · exact List.takeWhile_append_of_pos hdir
  · rw [cString, List.takeWhile_append_of_pos hdir]
    rfl

/-- **A bare name is opened inside the directory** exactly if what comes before a NUL is bare. -/
theorem inside_iff {dir name : Text} (hname : 0x2F ∉ name) :
    Inside dir (cString (joinPath dir name)) ↔ 0 ∉ dir ∧ isBareFilename (cString name) = true := by
  constructor
  · rintro ⟨other, heq, hnil, hdot, hdots, hslash, hother⟩
    have hzero : 0 ∉ dir := by
      intro h
      have := zero_mem_joinPath hslash h
      rw [← heq] at this
      exact zero_notMem_cString _ this
    rw [cString_joinPath hname hzero] at heq
    rw [joinPath_injective (slash_notMem_cString hname) hslash heq]
    exact ⟨hzero, isBareFilename_iff.mpr ⟨hnil, hdot, hdots, hslash, hother⟩⟩
  · rintro ⟨hzero, hbare⟩
    exact ⟨cString name, cString_joinPath hname hzero, isBareFilename_iff.mp hbare⟩

theorem Indexed.inside_iff (h : Indexed items c.index c.shardNames) {name shard dir : Text}
    (hmaps : Maps items name shard) : Inside dir (cString (joinPath dir shard)) ↔
      0 ∉ dir ∧ isBareFilename (cString shard) = true := by
  obtain ⟨ordinal, -, hshard⟩ := (h.maps name shard).mp hmaps
  obtain ⟨-, -, -, hslash, -⟩ := isBareFilename_iff.mp (h.bare shard (List.mem_of_getElem? hshard))
  exact Checkpoint.inside_iff hslash

/-- What calls for some names open: the shards of these names, those that were not kept before
among them, and no shard is kept without. -/
structure Opened (items : List (Text × Json)) (dir : Text) (names : List Text)
    (c c' : Checkpoint) (paths : List Text) : Prop where
  named : ∀ path ∈ paths, ∃ name ∈ names, ∃ shard, Maps items name shard ∧
    path = cString (joinPath dir shard)
  looked : ∀ name ∈ names, ∀ shard, Maps items name shard → Unmapped c shard →
    cString (joinPath dir shard) ∈ paths
  unmapped : ∀ shard, Unmapped c shard → cString (joinPath dir shard) ∉ paths → Unmapped c' shard

/-- Nothing is asked. -/
theorem Opened.nil (dir : Text) (c : Checkpoint) : Opened items dir [] c c [] where
  named := by simp
  looked := by simp
  unmapped := fun shard h _ => h

/-- One call after the other. -/
theorem Opened.append {dir : Text} {names names' : List Text} {c c' c'' : Checkpoint}
    {paths paths' : List Text} (h : Opened items dir names c c' paths)
    (h' : Opened items dir names' c' c'' paths') :
    Opened items dir (names ++ names') c c'' (paths ++ paths') where
  named := by
    intro path hpath
    rcases List.mem_append.mp hpath with hpath | hpath
    · obtain ⟨name, hname, hshard⟩ := h.named path hpath
      exact ⟨name, List.mem_append_left _ hname, hshard⟩
    · obtain ⟨name, hname, hshard⟩ := h'.named path hpath
      exact ⟨name, List.mem_append_right _ hname, hshard⟩
  looked := by
    intro name hname shard hmaps hunmapped
    by_cases hpath : cString (joinPath dir shard) ∈ paths
    · exact List.mem_append_left _ hpath
    · rcases List.mem_append.mp hname with hname | hname
      · exact absurd (h.looked name hname shard hmaps hunmapped) hpath
      · exact List.mem_append_right _
          (h'.looked name hname shard hmaps (h.unmapped shard hunmapped hpath))
  unmapped := by
    intro shard hunmapped hpath
    rw [List.mem_append, not_or] at hpath
    exact h'.unmapped shard (h.unmapped shard hunmapped hpath.1) hpath.2

/-- A call whose shard is kept, or that has none, opens nothing. -/
theorem Opened.none {dir name : Text}
    (h : ∀ shard, Maps items name shard → ¬Unmapped c shard) :
    Opened items dir [name] c c [] where
  named := by simp
  looked := by
    intro other hother shard hmaps hunmapped
    rw [List.mem_singleton.mp hother] at hmaps
    exact absurd hunmapped (h shard hmaps)
  unmapped := fun shard hunmapped _ => hunmapped

/-- A call that opens its shard, and may keep it. -/
theorem Opened.one {dir name shard : Text} {c' : Checkpoint} (hmaps : Maps items name shard)
    (hone : ∀ other, Maps items name other → other = shard)
    (hkeep : ∀ other, other ≠ shard → Unmapped c other → Unmapped c' other) :
    Opened items dir [name] c c' [cString (joinPath dir shard)] where
  named := by
    intro path hpath
    exact ⟨name, List.mem_singleton_self _, shard, hmaps, List.mem_singleton.mp hpath⟩
  looked := by
    intro other hother shard' hmaps' _
    rw [List.mem_singleton.mp hother] at hmaps'
    rw [hone shard' hmaps']
    exact List.mem_singleton_self _
  unmapped := by
    intro other hunmapped hpath
    refine hkeep other (fun heq => hpath ?_) hunmapped
    rw [heq]
    exact List.mem_singleton_self _

/-- A call that finds its slot empty and passes the file. -/
theorem Sound.keep (h : Sound fs parse items c) {ordinal : Nat} {file : SafetensorsFile}
    (hopen : openPath fs parse (joinPath c.dir (c.shardNames.getD ordinal [])) = .ok (.ok file))
    (hcheck : checkShardConsistency c.index ordinal file c.shardNames c.weightsPath = .ok ()) :
    Sound fs parse items { c with shards := c.shards.set ordinal (some file) } where
  indexed := h.indexed
  length := by
    show (c.shards.set ordinal (some file)).length = _
    rw [List.length_set]
    exact h.length
  kept := fun ordinal' file' hslot => by
    change (c.shards.set ordinal (some file))[ordinal']? = some (some file') at hslot
    by_cases heq : ordinal = ordinal'
    · subst heq
      have hlt := (List.getElem?_eq_some_iff.mp hslot).1
      rw [List.length_set] at hlt
      rw [List.getElem?_set_self hlt] at hslot
      cases hslot
      exact ⟨hopen, hcheck⟩
    · rw [List.getElem?_set_ne heq] at hslot
      exact h.kept ordinal' file' hslot

/-- **One call** answers what it would have answered first, and keeps the books. -/
theorem Sound.tensor (h : Sound fs parse items c) (name : Text) :
    (tensor fs parse c name).Returns fun r =>
      reply fs parse c name = .ok r.1 ∧ SameIndex c r.2.1 ∧ Sound fs parse items r.2.1 ∧
        Opened items c.dir [name] c r.2.1 r.2.2 := by
  unfold Checkpoint.tensor reply
  cases hl : c.index.lookup name with
  | none =>
      refine returns_pure ⟨rfl, SameIndex.refl c, h, Opened.none fun shard hmaps => ?_⟩
      obtain ⟨ordinal, hordinal, -⟩ := (h.indexed.maps name shard).mp hmaps
      rw [hl] at hordinal
      cases hordinal
  | some ordinal =>
      have hlt := h.indexed.inRange name ordinal hl
      have hslot : ordinal < c.shards.length := by rw [h.length]; exact hlt
      have hname : readAt c.shardNames ordinal = .ok (c.shardNames.getD ordinal []) := by
        rw [readAt_natCast hlt, List.getD_eq_getElem _ _ hlt]
      have hget : c.shardNames[ordinal]? = some (c.shardNames.getD ordinal []) := by
        rw [List.getElem?_eq_getElem hlt, List.getD_eq_getElem _ _ hlt]
      have hmaps : Maps items name (c.shardNames.getD ordinal []) :=
        (h.indexed.maps _ _).mpr ⟨ordinal, hl, hget⟩
      have hone : ∀ other, Maps items name other → other = c.shardNames.getD ordinal [] := by
        intro other hother
        obtain ⟨o, ho, hother⟩ := (h.indexed.maps name other).mp hother
        rw [hl] at ho
        cases ho
        exact Option.some.inj (hother.symm.trans hget)
      unfold shard
      simp only [readAt_natCast hslot, ok_bind]
      cases hkept : c.shards[ordinal] with
      | some file =>
          obtain ⟨hopen, hcheck⟩ := h.kept ordinal file
            (by rw [List.getElem?_eq_getElem hslot, hkept])
          obtain ⟨view, hview⟩ := tensor_of_openPath hopen name
          simp only [hopen, hcheck, ok_bind, pure_bind, hview]
          refine returns_pure ⟨rfl, SameIndex.refl c, h, Opened.none fun other hother hun => ?_⟩
          rw [hone other hother] at hun
          have hempty := hun ordinal hget
          rw [List.getElem?_eq_getElem hslot, hkept] at hempty
          cases hempty
      | none =>
          have hsame : Opened items c.dir [name] c c
              [cString (joinPath c.dir (c.shardNames.getD ordinal []))] :=
            Opened.one hmaps hone fun other _ hun => hun
          obtain ⟨opened, hopen⟩ := openPath_returns fs parse
            (joinPath c.dir (c.shardNames.getD ordinal []))
          simp only [hname, hopen, ok_bind]
          cases opened with
          | error status => exact returns_pure ⟨rfl, SameIndex.refl c, h, hsame⟩
          | ok file =>
              dsimp only
              cases hcheck : checkShardConsistency c.index ordinal file c.shardNames
                  c.weightsPath with
              | error status => exact returns_pure ⟨rfl, SameIndex.refl c, h, hsame⟩
              | ok _ =>
                  obtain ⟨view, hview⟩ := tensor_of_openPath hopen name
                  simp only [writeAt_natCast hslot, ok_bind, pure_bind, hview]
                  refine returns_pure ⟨rfl, ⟨rfl, rfl, rfl, rfl⟩, h.keep hopen hcheck,
                    Opened.one hmaps hone fun other hother hun o ho => ?_⟩
                  have hne : ordinal ≠ o := by
                    intro heq
                    subst heq
                    exact hother (Option.some.inj (ho.symm.trans hget))
                  show (c.shards.set ordinal (some file))[o]? = some none
                  rw [List.getElem?_set_ne hne]
                  exact hun o ho

/-- **Any number of calls**, in any order and with any repetition. -/
theorem Sound.tensors (h : Sound fs parse items c) (names : List Text) :
    (tensors fs parse c names).Returns fun r =>
      List.Forall₂ (fun name result => reply fs parse c name = .ok result) names r.1 ∧
        SameIndex c r.2.1 ∧ Sound fs parse items r.2.1 ∧
        Opened items c.dir names c r.2.1 r.2.2 := by
  induction names generalizing c with
  | nil => exact returns_pure ⟨.nil, SameIndex.refl c, h, Opened.nil c.dir c⟩
  | cons name names ih =>
      rw [Checkpoint.tensors]
      refine (h.tensor name).bind fun r hr => ?_
      obtain ⟨result, c', opened⟩ := r
      obtain ⟨hreply, hsame, hsound, hopened⟩ := hr
      refine (ih hsound).bind fun r' hr' => ?_
      obtain ⟨results, c'', later⟩ := r'
      obtain ⟨hreplies, hsame', hsound', hlater⟩ := hr'
      refine returns_pure ⟨.cons hreply (hreplies.imp fun name result hreply' => ?_),
        hsame.trans hsame', hsound', ?_⟩
      · rw [← hsame.reply_eq name]
        exact hreply'
      · rw [hsame.dir] at hlater
        exact hopened.append hlater

/-! ### Histories

Each call keeps the books, so any list of calls does, and each is answered as if it came first. -/

/-- What a success says. -/
theorem Indexed.of_reply (h : Indexed items c.index c.shardNames) {name : Text} {view : TensorView}
    (hreply : reply fs parse c name = .ok (.ok view)) :
    ∃ shard file, Maps items name shard ∧ Valid fs parse c.dir items shard file ∧
      file.tensor name = .ok (.ok view) := by
  unfold reply at hreply
  cases hl : c.index.lookup name with
  | none =>
      rw [hl] at hreply
      cases hreply
  | some ordinal =>
      have hlt := h.inRange name ordinal hl
      have hname : c.shardNames[ordinal]? = some (c.shardNames.getD ordinal []) := by
        rw [List.getD_eq_getElem _ _ hlt, List.getElem?_eq_getElem hlt]
      simp only [hl] at hreply
      obtain ⟨opened, hopen, hreply⟩ := bind_eq_ok.mp hreply
      cases opened with
      | error status => cases hreply
      | ok file =>
          dsimp only at hreply
          cases hcheck : checkShardConsistency c.index ordinal file c.shardNames c.weightsPath with
          | error status =>
              rw [hcheck] at hreply
              cases hreply
          | ok _ =>
              rw [hcheck] at hreply
              refine ⟨_, file, (h.maps _ _).mpr ⟨ordinal, hl, hname⟩, ⟨hopen, fun other => ?_⟩,
                hreply⟩
              rw [checkShardConsistency_ok.mp hcheck other, h.maps]
              exact ⟨fun hother => ⟨ordinal, hother, hname⟩, fun hex => h.ordinal_eq hex hname⟩

/-- A shard that is not valid is not kept, and a call for a tensor of it opens it again. -/
theorem Sound.invalid (h : Sound fs parse items c) {name shard : Text}
    (hmaps : Maps items name shard)
    (hinvalid : ¬∃ file, Valid fs parse c.dir items shard file) :
    (Checkpoint.tensor fs parse c name).Returns fun r =>
      (∃ status, r.1 = .error status) ∧ r.2.1 = c ∧ Unmapped c shard ∧
        r.2.2 = [cString (joinPath c.dir shard)] := by
  obtain ⟨ordinal, hl, hname⟩ := (h.indexed.maps name shard).mp hmaps
  have hlt := h.indexed.inRange name ordinal hl
  have hslot : ordinal < c.shards.length := by rw [h.length]; exact hlt
  have hshard : c.shardNames.getD ordinal [] = shard := by
    rw [List.getD_eq_getElem?_getD, hname]
    rfl
  have hvalid : ∀ (o : Nat) file, c.shardNames[o]? = some shard →
      openPath fs parse (joinPath c.dir shard) = .ok (.ok file) →
      checkShardConsistency c.index o file c.shardNames c.weightsPath = .ok () → False := by
    intro o file ho hopen hcheck
    refine hinvalid ⟨file, hopen, fun other => ?_⟩
    rw [checkShardConsistency_ok.mp hcheck other, h.indexed.maps]
    exact ⟨fun hother => ⟨o, hother, ho⟩, fun hex => h.indexed.ordinal_eq hex ho⟩
  have hunmapped : Unmapped c shard := by
    intro o ho
    have holt : o < c.shards.length := by
      rw [h.length]
      exact (List.getElem?_eq_some_iff.mp ho).1
    rw [List.getElem?_eq_getElem holt]
    cases hkept : c.shards[o] with
    | none => rfl
    | some file =>
        obtain ⟨hopen, hcheck⟩ := h.kept o file (by rw [List.getElem?_eq_getElem holt, hkept])
        have hother : c.shardNames.getD o [] = shard := by
          rw [List.getD_eq_getElem?_getD, ho]
          rfl
        rw [hother] at hopen
        exact (hvalid o file ho hopen hcheck).elim
  have hnone : c.shards[ordinal] = none := by
    have := hunmapped ordinal hname
    rw [List.getElem?_eq_getElem hslot] at this
    exact Option.some.inj this
  have hread : readAt c.shardNames ordinal = .ok shard := by
    rw [readAt_natCast hlt, ← hshard, List.getD_eq_getElem _ _ hlt]
  obtain ⟨opened, hopen⟩ := openPath_returns fs parse (joinPath c.dir shard)
  unfold Checkpoint.tensor Checkpoint.shard
  simp only [hl, readAt_natCast hslot, ok_bind, hnone, hread, hopen]
  cases opened with
  | error status => exact returns_pure ⟨⟨status, rfl⟩, rfl, hunmapped, rfl⟩
  | ok file =>
      dsimp only
      cases hcheck : checkShardConsistency c.index ordinal file c.shardNames c.weightsPath with
      | error status => exact returns_pure ⟨⟨status, rfl⟩, rfl, hunmapped, rfl⟩
      | ok _ => exact (hvalid ordinal file hname hopen hcheck).elim

/-- Valid shards divide the names of the index up. -/
theorem partitions_of_valid {dir : Text} (hkeys : (items.map Prod.fst).Nodup)
    (hvalid : ∀ name shard, Maps items name shard → ∃ file, Valid fs parse dir items shard file) :
    Partitions fs parse dir items := by
  have hshard : ∀ {name shard shard'}, Maps items name shard → Maps items name shard' →
      shard = shard' := by
    intro name shard shard' hm hm'
    have heq := List.inj_on_of_nodup_map hkeys hm hm' rfl
    cases heq
    rfl
  have hentries : ∀ {other shard file name}, Maps items other shard →
      Opens fs parse dir shard file → name ∈ file.entries → Maps items name shard := by
    intro other shard file name hm hopen hname
    obtain ⟨file', hopen', hall⟩ := hvalid other shard hm
    have heq : file' = file := Except.ok.inj (Except.ok.inj (hopen'.symm.trans hopen))
    subst heq
    exact (hall name).mp hname
  refine ⟨fun name shard hm => ?_, fun name => ⟨fun hex => ?_, fun hex => ?_⟩, ?_⟩
  · obtain ⟨file, hopen, -⟩ := hvalid name shard hm
    exact ⟨file, hopen⟩
  · obtain ⟨shard, hm⟩ := hex
    obtain ⟨file, hopen, hall⟩ := hvalid name shard hm
    exact ⟨name, shard, file, hm, hopen, (hall name).mpr hm⟩
  · obtain ⟨other, shard, file, hm, hopen, hname⟩ := hex
    exact ⟨shard, hentries hm hopen hname⟩
  · intro shard shard' file file' name hopen hopen' hex hex' hname hname'
    obtain ⟨other, hm⟩ := hex
    obtain ⟨other', hm'⟩ := hex'
    exact hshard (hentries hm hopen hname) (hentries hm' hopen' hname')

/-- Opening the directory of an index document. -/
theorem sound_of_openDir {dir : Text} (hdoc : IndexDocument fs parse dir items) {opened : List Text}
    (hopen : openDir fs parse dir = .ok (.ok c₀, opened)) :
    Sound fs parse items c₀ ∧ c₀.dir = dir ∧ (∀ shard, Unmapped c₀ shard) ∧
      opened = [cString (joinPath dir indexFile)] := by
  obtain ⟨mapping, fields, hmap, hne, hparse, hfind⟩ := hdoc.mapped
  unfold openDir at hopen
  rw [if_neg (by simp [hdoc.found.1]), if_pos hdoc.found.2] at hopen
  obtain ⟨hresult, rfl⟩ := Prod.ext_iff.mp (Except.ok.inj hopen)
  change openIndexed fs parse dir = .ok c₀ at hresult
  unfold openIndexed at hresult
  dsimp only at hresult
  rw [hmap] at hresult
  dsimp only at hresult
  cases hindex : parseIndex parse mapping.content with
  | error status =>
      rw [hindex] at hresult
      cases hresult
  | ok parsed =>
      rw [hindex] at hresult
      have hindexed := parseIndex_indexed hne hparse hfind hdoc.keys hindex
      dsimp only at hresult
      split at hresult
      · cases hresult
      · cases hresult
        refine ⟨⟨hindexed, by simp, fun ordinal file hslot => ?_⟩, rfl, fun shard o ho => ?_, rfl⟩
        · have hmem := List.mem_of_getElem? hslot
          have hnone := List.eq_of_mem_replicate hmem
          cases hnone
        · exact List.getElem?_replicate_of_lt (List.getElem?_eq_some_iff.mp ho).1

/-- **The paths opened lie inside the directory** exactly if the shards asked for do, and the
directory itself is what the system sees. -/
theorem inside_iff_contained {dir : Text} {names paths : List Text} {c c' : Checkpoint}
    (h : Indexed items c.index c.shardNames) (hnone : ∀ shard, Unmapped c shard)
    (hopened : Opened items dir names c c' paths) :
    (∀ path ∈ cString (joinPath dir indexFile) :: paths, Inside dir path) ↔
      Contained dir items names := by
  have hindex : Inside dir (cString (joinPath dir indexFile)) ↔ 0 ∉ dir := by
    rw [Checkpoint.inside_iff (by decide)]
    exact and_iff_left (by decide)
  rw [List.forall_mem_cons, hindex]
  refine and_congr_right fun hzero => ⟨fun hall name hname shard hmaps => ?_,
    fun hall path hpath => ?_⟩
  · have hpath := hall _ (hopened.looked name hname shard hmaps (hnone shard))
    exact ((h.inside_iff hmaps).mp hpath).2
  · obtain ⟨name, hname, shard, hmaps, rfl⟩ := hopened.named path hpath
    exact (h.inside_iff hmaps).mpr ⟨hzero, hall name hname shard hmaps⟩

/-- **A sharded checkpoint is consistent over any history of calls.**  With the files as they are,
what a call answers does not depend on the calls before it; a success is of a name whose shard
holds just what the index maps to it; a shard that does not open or is not consistent is opened
anew each time; and once every name has been fetched, the shards partition the index.  The paths
opened lie inside the directory exactly if no NUL turns a name into another. -/
theorem sharded_consistent (fs : FileSystem) (parse : Text → Option Json) {dir : Text}
    {items : List (Text × Json)} (hdoc : IndexDocument fs parse dir items) {c₀ : Checkpoint}
    {opened : List Text} (hopen : openDir fs parse dir = .ok (.ok c₀, opened))
    (names : List Text) :
    (Checkpoint.tensors fs parse c₀ names).Returns fun r =>
      Answered fs parse dir items c₀ names r.1 r.2.1 ∧
        ((∀ path ∈ opened ++ r.2.2, Inside dir path) ↔ Contained dir items names) := by
  obtain ⟨hsound, rfl, hnone, rfl⟩ := sound_of_openDir hdoc hopen
  refine (hsound.tensors names).mono fun r hr => ?_
  obtain ⟨hreplies, hsame, hsound', hopened⟩ := hr
  have hsuccess : ∀ name view, (name, .ok view) ∈ names.zip r.1 →
      ∃ shard file, Maps items name shard ∧ Valid fs parse c₀.dir items shard file ∧
        file.tensor name = .ok (.ok view) := fun name view hmem =>
    hsound.indexed.of_reply ((List.forall₂_iff_zip.mp hreplies).2 hmem)
  refine ⟨⟨hreplies.imp fun name result hreply => ?_, hsuccess, fun name shard hmaps hinvalid => ?_,
    fun hall => partitions_of_valid hdoc.keys fun name shard hmaps => ?_⟩,
    inside_iff_contained hsound.indexed hnone hopened⟩
  · refine (hsound.tensor name).mono fun r' hr' => ?_
    exact Except.ok.inj (hr'.1.symm.trans hreply)
  · rw [← hsame.dir] at hinvalid ⊢
    exact hsound'.invalid hmaps hinvalid
  · obtain ⟨view, hmem⟩ := hall name shard hmaps
    obtain ⟨shard', file, hmaps', hvalid, -⟩ := hsuccess name view hmem
    have heq := List.inj_on_of_nodup_map hdoc.keys hmaps hmaps' rfl
    cases heq
    exact ⟨file, hvalid⟩

/-- An index file of one byte. -/
def smallIndexFile : Safetensors.MappedFile :=
  ⟨⟨4096, 1, .cpu, by decide, by decide⟩, [0x69], rfl⟩

/-- A directory with an index of one byte; every other file is the same shard. -/
def smallFiles : FileSystem where
  isDirectory path := path = ascii "m"
  fileExists _ := true
  mapFileReadOnly path :=
    if path = ascii "m/model.safetensors.index.json" then .ok smallIndexFile
    else .ok SafetensorsFile.smallMapping

/-- The items of the index: the tensor of one shard, and one that its shard does not have.  The
name of the second shard goes on after a NUL. -/
def smallIndex : List (Text × Json) :=
  [(ascii "a", .string (ascii "s")), (ascii "b", .string (ascii "r" ++ [0, 0x78]))]

/-- The documents behind the index file and the shards. -/
def smallDocument (text : Text) : Option Json :=
  if text = [0x69] then some (.object [(ascii "weight_map", .object smallIndex)])
  else SafetensorsFile.smallParse text

theorem sharded_consistent_small : ∃ c₀,
    openDir smallFiles smallDocument (ascii "m")
      = .ok (.ok c₀, [ascii "m/model.safetensors.index.json"]) ∧
      (Checkpoint.tensors smallFiles smallDocument c₀ [ascii "a", ascii "b", ascii "a"]).Returns
        fun r => Answered smallFiles smallDocument (ascii "m") smallIndex c₀
            [ascii "a", ascii "b", ascii "a"] r.1 r.2.1 ∧
          ((∀ path ∈ [ascii "m/model.safetensors.index.json"] ++ r.2.2, Inside (ascii "m") path) ↔
            Contained (ascii "m") smallIndex [ascii "a", ascii "b", ascii "a"]) := by
  have hdoc : IndexDocument smallFiles smallDocument (ascii "m") smallIndex :=
    ⟨⟨smallIndexFile, [(ascii "weight_map", .object smallIndex)], rfl, by decide, rfl, rfl⟩,
      ⟨rfl, rfl⟩, by decide⟩
  have hopen : ∃ c₀, openDir smallFiles smallDocument (ascii "m")
      = .ok (.ok c₀, [ascii "m/model.safetensors.index.json"]) := ⟨_, rfl⟩
  obtain ⟨c₀, hopen⟩ := hopen
  exact ⟨c₀, hopen, sharded_consistent smallFiles smallDocument hdoc hopen _⟩

/-! ### A name that the system reads as another

A name with a NUL in it passes the test of bare names, and what is opened is another file. -/

/-- The parent of the directory exists, and is not a file. -/
def parentFiles : FileSystem where
  isDirectory path := path = ascii "m"
  fileExists _ := true
  mapFileReadOnly path :=
    if path = ascii "m/model.safetensors.index.json" then .ok smallIndexFile
    else .error (invalidArgumentError "m/.. is not a regular file")

/-- An index that names the shard `..` with a NUL and a letter behind it. -/
def parentDocument (text : Text) : Option Json :=
  if text = [0x69] then
    some (.object [(ascii "weight_map",
      .object [(ascii "t", .string (ascii ".." ++ [0, 0x78]))])])
  else none

/-- The index is accepted, and the call for its tensor opens the parent of the directory. -/
theorem sharded_opens_parent : ∃ c₀ r c,
    openDir parentFiles parentDocument (ascii "m")
      = .ok (.ok c₀, [ascii "m/model.safetensors.index.json"]) ∧
    Checkpoint.tensors parentFiles parentDocument c₀ [ascii "t"] = .ok (r, c, [ascii "m/.."]) ∧
    ¬Inside (ascii "m") (ascii "m/..") := by
  refine ⟨_, _, _, rfl, rfl, ?_⟩
  show ¬Inside (ascii "m") (cString (joinPath (ascii "m") (ascii ".." ++ [0, 0x78])))
  rw [inside_iff (by decide)]
  decide

end InferenceEngine.Checkpoint
