/-
What opening a safetensors file establishes.

The bytes are untrusted, so the only facts to start from are that the file is its mapping
and that the mapping has addresses.  Every entry that is kept is `Sized`: its range is in
the data section, as long as its elements need, and aligned.  The layout check is the walk
of a list of ranges in order, and it accepts exactly the partitions of the data section.
-/
import InferenceEngine.Lib.Tiling
import InferenceEngine.Model.Safetensors
import InferenceEngine.Proofs.Load
import InferenceEngine.Proofs.TensorView

namespace InferenceEngine

open Except

namespace Safetensors

/-! ### Entries

An entry is checked field by field.  The products and differences on the way are checked as
well, and what passes lies in the data section. -/

/-- `itemsize(dtype)` of an entry. -/
def RawEntry.itemBytes (raw : RawEntry) : Nat := raw.dtype.itemsizeBits / 8

/-- What an entry that is kept satisfies. -/
structure Sized (dataStart dataSize : Nat) (raw : RawEntry) : Prop where
  itemsize : raw.dtype.itemsize = .ok raw.itemBytes
  ordered : raw.begin ≤ raw.end_
  inside : raw.end_ ≤ dataSize
  bytes : raw.end_ - raw.begin = raw.shape.numel * raw.itemBytes
  aligned : (dataStart + raw.begin) % raw.itemBytes = 0

theorem parseSafetensorsDtype_ok {name : Text} {dtype : DataType}
    (h : parseSafetensorsDtype name = .ok dtype) :
    dtype.itemsize = .ok (dtype.itemsizeBits / 8) := by
  unfold parseSafetensorsDtype at h
  split at h
  · rename_i mapping hfind
    injection h with h
    have hmem := List.mem_of_find?_eq_some hfind
    have hall : ∀ m ∈ supported, m.2.itemsize = .ok (m.2.itemsizeBits / 8) := by decide
    rw [← h]
    exact hall mapping hmem
  · split at h
    · cases h
    · cases h

theorem parseDtypeField_ok {value : Json} {name : Text} {dtype : DataType}
    (h : parseDtypeField value name = .ok dtype) :
    dtype.itemsize = .ok (dtype.itemsizeBits / 8) := by
  unfold parseDtypeField at h
  split at h
  · split at h
    · rename_i hparse
      injection h with h
      rw [← h]
      exact parseSafetensorsDtype_ok hparse
    · cases h
  · cases h

theorem parseDataOffsets_ok {value : Json} {name : Text} {dataSize : Nat} {offsets : Nat × Nat}
    (h : parseDataOffsets value name dataSize = .ok offsets) :
    offsets.1 ≤ offsets.2 ∧ offsets.2 ≤ dataSize := by
  unfold parseDataOffsets at h
  split at h
  · obtain ⟨begin, _, h⟩ := bind_eq_ok.mp h
    obtain ⟨end_, _, h⟩ := bind_eq_ok.mp h
    split at h
    · cases h
    · split at h
      · cases h
      · injection h with h
        subst h
        dsimp only
        omega
  · cases h

theorem parseFields_ok {name : Text} {value : Json} {dataSize : Nat} {raw : RawEntry}
    (h : parseFields name value dataSize = .ok raw) :
    raw.dtype.itemsize = .ok raw.itemBytes ∧ raw.begin ≤ raw.end_ ∧ raw.end_ ≤ dataSize := by
  unfold parseFields at h
  split at h
  · split at h
    · cases h
    · obtain ⟨_, _, h⟩ := bind_eq_ok.mp h
      obtain ⟨_, _, h⟩ := bind_eq_ok.mp h
      obtain ⟨_, _, h⟩ := bind_eq_ok.mp h
      obtain ⟨dtype, hdtype, h⟩ := bind_eq_ok.mp h
      obtain ⟨shape, _, h⟩ := bind_eq_ok.mp h
      obtain ⟨offsets, hoffsets, h⟩ := bind_eq_ok.mp h
      injection h with h
      subst h
      exact ⟨parseDtypeField_ok hdtype, parseDataOffsets_ok hoffsets⟩
  · cases h

/-- The checks on an entry compute nothing that wraps, and what passes them is sized. -/
theorem checkEntry_returns {name : Text} {raw : RawEntry} {dataStart dataSize : Nat}
    (hitem : raw.dtype.itemsize = .ok raw.itemBytes) (hordered : raw.begin ≤ raw.end_)
    (hinside : raw.end_ ≤ dataSize) (hfits : dataStart + dataSize < 2 ^ 64) :
    (checkEntry name raw dataStart).Returns fun r =>
      ∀ entry, r = .ok entry → Sized dataStart dataSize entry := by
  unfold checkEntry
  rw [hitem, ok_bind]
  split
  · exact returns_pure (by simp)
  · rename_i expected hexpected
    unfold mulOverflowUnsigned at hexpected
    split at hexpected
    · injection hexpected with hexpected
      rw [uint64_sub hordered (by omega), ok_bind]
      by_cases hspan : raw.end_ - raw.begin = expected
      · rw [if_neg (by simpa using hspan), uint64_natCast (by omega), ok_bind]
        by_cases haligned : (dataStart + raw.begin) % raw.itemBytes = 0
        · rw [if_neg (by simpa using haligned)]
          refine returns_pure ?_
          intro entry he
          injection he with he
          subst he
          exact ⟨hitem, hordered, hinside, hspan.trans hexpected.symm, haligned⟩
        · rw [if_pos haligned]
          exact returns_pure (by simp)
      · rw [if_pos hspan]
        exact returns_pure (by simp)
    · cases hexpected

theorem parseEntry_returns {name : Text} {value : Json} {dataStart dataSize : Nat}
    (hfits : dataStart + dataSize < 2 ^ 64) :
    (parseEntry name value dataSize dataStart).Returns fun r =>
      ∀ entry, r = .ok entry → Sized dataStart dataSize entry := by
  unfold parseEntry
  split
  · exact returns_pure (by simp)
  · rename_i raw hraw
    obtain ⟨hitem, hordered, hinside⟩ := parseFields_ok hraw
    exact checkEntry_returns hitem hordered hinside hfits

/-- The loop over the header keeps every entry sized. -/
theorem itemsLoop_returns {dataSize : Nat} (items : List (Text × Json)) :
    ∀ (parsed : ParsedFile), parsed.dataStart + dataSize < 2 ^ 64 →
      (∀ name raw, parsed.entries.lookup name = some raw →
        Sized parsed.dataStart dataSize raw) →
      (itemsLoop dataSize items parsed).Returns fun r => ∀ result, r = .ok result →
        result.dataStart = parsed.dataStart ∧
          ∀ name raw, result.entries.lookup name = some raw →
            Sized parsed.dataStart dataSize raw := by
  induction items with
  | nil =>
      intro parsed _ hsized
      refine returns_pure ?_
      intro result h
      injection h with h
      subst h
      exact ⟨rfl, hsized⟩
  | cons item items ih =>
      intro parsed hfits hsized
      obtain ⟨name, value⟩ := item
      rw [itemsLoop]
      split
      · split
        · exact returns_pure (by simp)
        · exact ih _ hfits hsized
      · refine (parseEntry_returns hfits).bind ?_
        intro r hr
        cases r with
        | error status => exact returns_pure (by simp)
        | ok entry =>
            refine ih _ hfits ?_
            intro key raw hlookup
            rw [lookup_emplace] at hlookup
            split at hlookup
            · injection hlookup with hlookup
              subst hlookup
              exact hr entry rfl
            · exact hsized key raw hlookup

/-! ### The layout check

The entries are sorted by their beginnings and walked once.  Each is to begin where the one
before it ended, and the last one is to end with the data. -/

/-- The byte ranges of the entries. -/
def byteRanges (entries : TextMap RawEntry) : List (Nat × Nat) :=
  entries.entries.map fun e => (e.2.begin, e.2.end_)

/-- **The walk accepts exactly the ranges that follow one another to the end**, and it wraps
nothing and has a name for every range it calls the previous one. -/
theorem layoutLoop_returns {dataSize : Nat} (ranges : List Range) :
    ∀ (cursor : Nat) (previous : Option Text), (cursor = 0 ∨ previous.isSome) →
      (∀ r ∈ ranges, r.begin < 2 ^ 64) →
      (layoutLoop dataSize cursor previous ranges).Returns fun r =>
        r = .ok () ↔ Tiling.Tiles cursor (ranges.map fun r => (r.begin, r.end_)) dataSize := by
  induction ranges with
  | nil =>
      intro cursor previous _ _
      rw [layoutLoop]
      by_cases h : cursor = dataSize
      · rw [if_neg (by simpa using h)]
        exact returns_pure (by simpa [Tiling.Tiles] using h)
      · rw [if_pos h]
        exact returns_pure (by simpa [Tiling.Tiles] using h)
  | cons range ranges ih =>
      intro cursor previous hprevious hlt
      rw [layoutLoop.eq_def, List.map_cons]
      dsimp only
      by_cases hoverlap : range.begin < cursor
      · rw [if_pos hoverlap]
        cases previous with
        | none => simp at hprevious; omega
        | some previous =>
            refine returns_pure ?_
            simp only [Tiling.Tiles, reduceCtorEq, false_iff]
            omega
      · rw [if_neg hoverlap]
        by_cases hgap : range.begin > cursor
        · have hbegin := hlt range (by simp)
          rw [if_pos hgap, uint64_sub (by omega) hbegin, ok_bind]
          refine returns_pure ?_
          simp only [Tiling.Tiles, reduceCtorEq, false_iff]
          omega
        · rw [if_neg hgap]
          refine (ih range.end_ (some range.name) (.inr rfl)
            fun r hr => hlt r (List.mem_cons_of_mem _ hr)).mono ?_
          intro r hr
          rw [hr, Tiling.Tiles]
          exact ⟨fun h => ⟨by dsimp only; omega, h⟩, fun h => h.2⟩

/-- **`ValidateDataSectionLayout` accepts exactly the partitions of the data section.** -/
theorem validateDataSectionLayout_returns {entries : TextMap RawEntry} {dataSize : Nat}
    (hrange : ∀ name raw, entries.lookup name = some raw →
      raw.begin ≤ raw.end_ ∧ raw.end_ ≤ dataSize)
    (hsize : dataSize < 2 ^ 64) :
    (validateDataSectionLayout entries dataSize).Returns fun r =>
      r = .ok () ↔ Tiling.Partition (byteRanges entries) 0 dataSize := by
  have hentry : ∀ e ∈ entries.entries, e.2.begin ≤ e.2.end_ ∧ e.2.end_ ≤ dataSize := by
    intro e he
    exact hrange e.1 e.2 ((List.mem_dlookup_iff entries.nodupKeys).mpr he)
  let unsorted := entries.entries.map fun e => (⟨e.2.begin, e.2.end_, e.1⟩ : Range)
  let le : Range → Range → Bool := fun a b =>
    a.begin < b.begin || a.begin = b.begin && a.end_ ≤ b.end_
  have hperm : (unsorted.mergeSort le).Perm unsorted := List.mergeSort_perm unsorted le
  have hordered : (unsorted.mergeSort le).Pairwise fun a b => le a b := by
    refine List.pairwise_mergeSort ?_ ?_ unsorted
    · intro a b c hab hbc
      simp only [le, Bool.or_eq_true, Bool.and_eq_true, decide_eq_true_eq] at hab hbc ⊢
      omega
    · intro a b
      simp only [le, Bool.or_eq_true, Bool.and_eq_true, decide_eq_true_eq]
      omega
  have hpairs : ((unsorted.mergeSort le).map fun r => (r.begin, r.end_)).Pairwise
      Tiling.Ordered := by
    refine List.pairwise_map.mpr (hordered.imp ?_)
    intro a b hab
    simp only [le, Bool.or_eq_true, Bool.and_eq_true, decide_eq_true_eq] at hab
    exact hab
  have hbytes : ((unsorted.mergeSort le).map fun r => (r.begin, r.end_)).Perm
      (byteRanges entries) := by
    have hmap : byteRanges entries = unsorted.map fun r => (r.begin, r.end_) := by
      simp only [byteRanges, unsorted, List.map_map]
      rfl
    rw [hmap]
    exact hperm.map _
  refine (layoutLoop_returns _ 0 none (.inl rfl) ?_).mono ?_
  · intro r hr
    obtain ⟨e, he, rfl⟩ := List.mem_map.mp (hperm.mem_iff.mp hr)
    have := hentry e he
    dsimp only
    omega
  · intro r hr
    rw [hr]
    refine (Tiling.partition_iff_tiles hbytes hpairs ?_).symm
    intro p hp
    obtain ⟨e, he, rfl⟩ := List.mem_map.mp hp
    exact (hentry e he).1

/-! ### The whole file

The header is cut off by its length, parsed and checked.  The tensors are then windows of what
is left of the mapping. -/

/-- What a parsed header establishes about a file of `fileSize` bytes. -/
structure Accepted (parsed : ParsedFile) (fileSize : Nat) : Prop where
  dataStart_le : parsed.dataStart ≤ fileSize
  sized : ∀ name raw, parsed.entries.lookup name = some raw →
    Sized parsed.dataStart (fileSize - parsed.dataStart) raw
  partition : Tiling.Partition (byteRanges parsed.entries) 0 (fileSize - parsed.dataStart)

theorem parseHeader_returns (root : Option Json) {dataStart dataSize : Nat}
    (hfits : dataStart + dataSize < 2 ^ 64) :
    (parseHeader root dataStart dataSize).Returns fun r => ∀ parsed, r = .ok parsed →
      parsed.dataStart = dataStart ∧
        (∀ name raw, parsed.entries.lookup name = some raw → Sized dataStart dataSize raw) ∧
        Tiling.Partition (byteRanges parsed.entries) 0 dataSize := by
  unfold parseHeader
  split
  · exact returns_pure (by simp)
  · rename_i items
    refine (itemsLoop_returns items ⟨dataStart, ∅, ∅⟩ hfits (by simp)).bind ?_
    intro r hr
    cases r with
    | error status => exact returns_pure (by simp)
    | ok parsed =>
        obtain ⟨hstart, hsized⟩ := hr parsed rfl
        refine (validateDataSectionLayout_returns
          (fun name raw h => ⟨(hsized name raw h).ordered, (hsized name raw h).inside⟩)
          (by omega)).bind ?_
        intro r hlayout
        cases r with
        | error status => exact returns_pure (by simp)
        | ok _ =>
            refine returns_pure ?_
            intro result h
            injection h with h
            subst h
            exact ⟨hstart, hsized, hlayout.mp rfl⟩
  · exact returns_pure (by simp)

/-- **Parsing wraps nothing, whatever the bytes**, and what it accepts is laid out as the
format has it. -/
theorem parseSafetensors_returns (parse : Text → Option Json) {content : List UInt8}
    (hsize : content.length < 2 ^ 64) :
    (parseSafetensors parse content).Returns fun r =>
      ∀ parsed, r = .ok parsed → Accepted parsed content.length := by
  unfold parseSafetensors
  dsimp only
  by_cases hshort : content.length < 8
  · rw [if_pos hshort]
    exact returns_pure (by simp)
  · rw [if_neg hshort]
    generalize littleEndian (content.take 8) = headerLen
    by_cases hcap : headerLen > maxHeaderLen
    · rw [if_pos hcap]
      exact returns_pure (by simp)
    · have hafter : uint64 ((content.length : Int) - 8) = .ok (content.length - 8) :=
        uint64_sub (b := 8) (by omega) hsize
      rw [if_neg hcap, hafter, ok_bind]
      by_cases hlong : headerLen > content.length - 8
      · rw [if_pos hlong]
        exact returns_pure (by simp)
      · rw [if_neg hlong, uint64_sub (by omega) (by omega), ok_bind,
          uint64_natCast (by omega), ok_bind]
        refine (parseHeader_returns _ (by omega)).mono ?_
        intro r hr parsed h
        obtain ⟨hstart, hsized, hpartition⟩ := hr parsed h
        have hdata : content.length - 8 - headerLen = content.length - parsed.dataStart := by
          omega
        rw [hdata] at hsized hpartition
        refine ⟨by omega, ?_, hpartition⟩
        rw [hstart] at hsized ⊢
        exact hsized

end Safetensors

open Safetensors

namespace SafetensorsFile

theorem lookup_foldl_emplace {β γ : Type} (f : β → γ) (l : List (Sigma fun _ : Text => β)) :
    ∀ (m : TextMap γ) (name : Text),
      (l.foldl (fun m e => (emplace m e.1 (f e.2)).1) m).lookup name
        = (m.lookup name).or ((l.dlookup name).map f) := by
  induction l with
  | nil => intro m name; simp
  | cons e l ih =>
      intro m name
      obtain ⟨key, value⟩ := e
      rw [List.foldl_cons, ih, lookup_emplace]
      by_cases hkey : name = key
      · subst hkey
        rw [List.dlookup_cons_eq]
        cases m.lookup name <;> simp
      · rw [List.dlookup_cons_ne _ _ hkey, if_neg fun h => hkey h.1]

/-- What an open file is. -/
structure Opened (parsed : ParsedFile) (file : SafetensorsFile) : Prop where
  accepted : Safetensors.Accepted parsed file.buffer.sizeBytes
  dataStart : file.dataStart = parsed.dataStart
  entries : ∀ name, file.entries.lookup name = (parsed.entries.lookup name).map keep

/-- What `tensor(name)` returns for an entry of a type that is not reserved. -/
structure Viewed (file : SafetensorsFile) (raw : RawEntry) (view : TensorView) : Prop where
  laid : view.Laid
  buffer : view.buffer = file.buffer
  byteOffset : view.byteOffset = file.dataStart + raw.begin
  shape : view.shape = raw.shape
  dtype : view.dtype = raw.dtype
  inside : view.byteOffset + view.numel * view.itembytes ≤ file.buffer.sizeBytes

namespace Opened

variable {parsed : ParsedFile} {file : SafetensorsFile}

theorem window (h : Opened parsed file) {name : Text} {raw : RawEntry}
    (hraw : parsed.entries.lookup name = some raw) :
    file.dataStart + raw.begin + raw.shape.numel * raw.itemBytes ≤ file.buffer.sizeBytes := by
  have hsized := h.accepted.sized name raw hraw
  have hstart := h.accepted.dataStart_le
  have := hsized.ordered
  have := hsized.inside
  have := hsized.bytes
  rw [h.dataStart]
  omega

theorem tensor_eq (h : Opened parsed file) {name : Text} {raw : RawEntry}
    (hraw : parsed.entries.lookup name = some raw) :
    file.tensor name
      = TensorView.fromBuffer file.buffer (file.dataStart + raw.begin) raw.shape raw.dtype >>=
          fun r => match r with
            | .error status => pure (.error
                ⟨status.code, file.path ++ ": tensor \"" ++ name.show ++ "\": " ++ status.message⟩)
            | .ok view => pure (.ok view) := by
  have hwindow := h.window hraw
  have hsize := TensorView.sizeBytes_lt file.buffer
  unfold tensor
  rw [h.entries, hraw]
  dsimp only [Option.map_some, keep]
  rw [uint64_natCast (by omega)]
  exact ok_bind _ _

theorem tensor_ok (h : Opened parsed file) {name : Text} {raw : RawEntry}
    (hraw : parsed.entries.lookup name = some raw) (hdtype : isReservedDataType raw.dtype = false) :
    ∃ view, file.tensor name = .ok (.ok view) ∧ Viewed file raw view := by
  have hwindow := h.window hraw
  have hview := TensorView.fromBuffer_ok hdtype hwindow
  refine ⟨_, ?_, TensorView.fromBuffer_laid hview, rfl, rfl, rfl, rfl, hwindow⟩
  rw [h.tensor_eq hraw, hview]
  rfl

/-- Looking up a tensor wraps nothing. -/
theorem tensor_returns (h : Opened parsed file) (name : Text) : ∃ r, file.tensor name = .ok r := by
  cases hraw : parsed.entries.lookup name with
  | none =>
      unfold tensor
      rw [h.entries, hraw]
      exact ⟨_, rfl⟩
  | some raw =>
      by_cases hdtype : isReservedDataType raw.dtype = true
      · rw [h.tensor_eq hraw]
        unfold TensorView.fromBuffer
        rw [if_pos hdtype]
        exact ⟨_, rfl⟩
      · obtain ⟨view, hview, _⟩ := h.tensor_ok hraw (by simpa using hdtype)
        exact ⟨_, hview⟩

end Opened

theorem openFile_returns (parse : Text → Option Json) (path : String)
    (mapped : StatusOr MappedFile) :
    (openFile parse path mapped).Returns fun r => ∀ file, r = .ok file →
      ∃ mapping parsed, mapped = .ok mapping ∧
        parseSafetensors parse mapping.content = .ok (.ok parsed) ∧
        file.buffer = mapping.buffer ∧ Opened parsed file := by
  unfold openFile
  cases mapped with
  | error status => exact returns_pure (by simp)
  | ok mapping =>
      have hsize : mapping.content.length < 2 ^ 64 := by
        have := TensorView.sizeBytes_lt mapping.buffer
        have := mapping.size_eq
        omega
      obtain ⟨r, hr, haccepted⟩ := parseSafetensors_returns parse hsize
      dsimp only
      rw [hr, ok_bind]
      cases r with
      | error status => exact returns_pure (by simp)
      | ok parsed =>
          refine returns_pure ?_
          intro file h
          injection h with h
          subst h
          refine ⟨mapping, parsed, rfl, hr, rfl, ?_, rfl, ?_⟩
          · show Safetensors.Accepted parsed mapping.buffer.sizeBytes
            rw [mapping.size_eq]
            exact haccepted parsed rfl
          · intro name
            rw [lookup_foldl_emplace]
            rfl

/-- **Loading is safe on every byte string.**  Opening a file and looking up its tensors wrap
nothing; in a file that opens, the ranges partition the data section, each is as long as its
elements, aligned and inside the file, and can be viewed; and the layout check accepts
exactly the partitions. -/
theorem openFile_safe (parse : Text → Option Json) (path : String)
    (mapped : StatusOr MappedFile) :
    (∃ r, openFile parse path mapped = .ok r) ∧
      (∀ file, openFile parse path mapped = .ok (.ok file) →
        ∃ mapping parsed, mapped = .ok mapping ∧ file.buffer = mapping.buffer ∧
          parseSafetensors parse mapping.content = .ok (.ok parsed) ∧ Opened parsed file ∧
          (∀ name, ∃ r, file.tensor name = .ok r) ∧
          ∀ name raw, parsed.entries.lookup name = some raw →
            isReservedDataType raw.dtype = false →
            ∃ view, file.tensor name = .ok (.ok view) ∧ Viewed file raw view) ∧
      ∀ (entries : TextMap RawEntry) (dataSize : Nat), dataSize < 2 ^ 64 →
        (∀ name raw, entries.lookup name = some raw →
          raw.begin ≤ raw.end_ ∧ raw.end_ ≤ dataSize) →
        (validateDataSectionLayout entries dataSize = .ok (.ok ()) ↔
          Tiling.Partition (byteRanges entries) 0 dataSize) := by
  obtain ⟨r, hr, hfile⟩ := openFile_returns parse path mapped
  refine ⟨⟨r, hr⟩, ?_, ?_⟩
  · intro file h
    rw [hr] at h
    injection h with h
    obtain ⟨mapping, parsed, hmapped, hparsed, hbuffer, hopened⟩ := hfile file h
    exact ⟨mapping, parsed, hmapped, hbuffer, hparsed, hopened, hopened.tensor_returns,
      fun name raw hraw hdtype => hopened.tensor_ok hraw hdtype⟩
  · intro entries dataSize hsize hrange
    obtain ⟨result, hresult, hiff⟩ := validateDataSectionLayout_returns hrange hsize
    rw [hresult, ← hiff]
    simp

/-- The header of a file with one tensor of two bytes. -/
def smallHeader : Text :=
  ascii "\x7b\"a\":\x7b\"dtype\":\"U8\",\"shape\":[2],\"data_offsets\":[0,2]\x7d\x7d"

/-- What the parser makes of it. -/
def smallItems : List (Text × Json) :=
  [(ascii "a", .object [(ascii "data_offsets", .array [.integer 0, .integer 2]),
    (ascii "dtype", .string (ascii "U8")), (ascii "shape", .array [.integer 2])])]

/-- A parser that knows the header. -/
def smallParse (text : Text) : Option Json :=
  if text = smallHeader then some (.object smallItems) else none

/-- The file: the length of its header, the header, and two bytes of data. -/
def smallMapping : MappedFile where
  buffer := ⟨4096, 63, .cpu, by decide, by decide⟩
  content := [53, 0, 0, 0, 0, 0, 0, 0] ++ smallHeader ++ [7, 9]
  size_eq := by decide

/-- The entry of the tensor. -/
def smallEntry : RawEntry := ⟨.uint8, ⟨[2], 2, by decide, by decide, by decide⟩, 0, 2⟩

/-- The entries of the header. -/
def smallEntries : TextMap RawEntry := AList.insert (ascii "a") smallEntry ∅

private theorem smallLayout : validateDataSectionLayout smallEntries 2 = .ok (.ok ()) := by
  have hentries : smallEntries.entries = [⟨ascii "a", smallEntry⟩] := rfl
  unfold validateDataSectionLayout
  simp only [hentries, List.map_cons, List.map_nil, List.mergeSort_singleton]
  rfl

private theorem smallParsed :
    parseSafetensors smallParse smallMapping.content = .ok (.ok ⟨61, smallEntries, ∅⟩) := by
  have hlen : smallMapping.content.length = 63 := by decide +kernel
  have hhead : littleEndian (smallMapping.content.take 8) = 53 := by decide +kernel
  have htext : (smallMapping.content.drop 8).take 53 = smallHeader := by decide +kernel
  have hitems : itemsLoop 2 smallItems ⟨61, ∅, ∅⟩ = .ok (.ok ⟨61, smallEntries, ∅⟩) := rfl
  have hafter : uint64 (((63 : Nat) : Int) - 8) = .ok 55 := by decide
  have hdata : uint64 (((55 : Nat) : Int) - (53 : Nat)) = .ok 2 := by decide
  have hstart : uint64 ((8 + 53 : Nat) : Int) = .ok 61 := by decide
  unfold parseSafetensors
  dsimp only
  rw [hlen, hhead, htext, smallParse, if_pos rfl, if_neg (by decide), if_neg (by decide), hafter,
    ok_bind, if_neg (by decide), hdata, ok_bind, hstart, ok_bind]
  unfold parseHeader
  dsimp only
  rw [hitems, ok_bind]
  dsimp only
  rw [smallLayout]
  rfl

theorem openFile_safe_small :
    ∃ file view, openFile smallParse "small" (.ok smallMapping) = .ok (.ok file) ∧
      file.tensor (ascii "a") = .ok (.ok view) ∧ Viewed file smallEntry view := by
  have hopen : ∃ file, openFile smallParse "small" (.ok smallMapping) = .ok (.ok file) := by
    unfold openFile
    dsimp only
    rw [smallParsed]
    exact ⟨_, rfl⟩
  obtain ⟨file, hfile⟩ := hopen
  obtain ⟨mapping, parsed, hmapping, _, hparsed, _, _, hviews⟩ :=
    (openFile_safe smallParse "small" (.ok smallMapping)).2.1 file hfile
  injection hmapping with hmapping
  rw [← hmapping, smallParsed] at hparsed
  injection hparsed with hparsed
  injection hparsed with hparsed
  obtain ⟨view, hview, hviewed⟩ := hviews (ascii "a") smallEntry (by rw [← hparsed]; rfl) rfl
  exact ⟨file, view, hfile, hview, hviewed⟩

end SafetensorsFile

end InferenceEngine
