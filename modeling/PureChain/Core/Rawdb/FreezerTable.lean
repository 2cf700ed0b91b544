import PureChain.Lib.File
import PureChain.Lib.Except

/-!
# Package `rawdb`: the freezer table

A freezer table keeps numbered blobs, append-only, in a chain of data files,
and one index file of six-byte entries: entry `j + 1` is the data file of item
`itemOffset + j` and the offset of its end there, and entry `0` carries the
first data file and `itemOffset`, the number of items deleted from the tail.
An item starts where the item before it ends when both are in one file, and at
the start of its file otherwise (`getBounds`). `Append` writes a blob at the
end of the head data file, moving to a new file first when the head would grow
past `maxFileSize`; `truncate` cuts the index, moves the head back to the file
of the last item kept and cuts that file.

The invariant is `Layout t bs es`: the index holds the entries `es`, in order
of file and offset, and each item's bytes sit in its file between its start and
its end. `Append` keeps it (`Append_layout`), `Retrieve` reads the blobs back
under it (`Retrieve_layout`), and so does `truncate` for a table that has
deleted nothing from its tail (`truncate_layout`).

The file number of an entry is stored in 16 bits, so all of this needs the
head file's number below `2 ^ 16`. And `truncate` cuts the index to
`items + 1` entries and reads entry `items`, counting from the absolute item
number where the index counts from `itemOffset`: with items deleted from the
tail it keeps the wrong entries, and can cut away the data of items it keeps
(`truncate_ignores_itemOffset`).
-/

namespace PureChain

namespace rawdb

/-- The errors of a freezer table. -/
inductive FreezerError where
  /-- `errOutOfBounds`: the item is not in the table. -/
  | errOutOfBounds
  /-- "appending unexpected item: want %d, have %d" -/
  | unexpectedItem (want got : UInt64)
  /-- "missing data file %d" -/
  | missingDataFile (filenum : UInt32)
  /-- An error of the file system: a short read, a negative size, a file that
  is not on disk. -/
  | io
  /-- `snappy.ErrCorrupt`: a stored blob that does not decode. -/
  | ErrCorrupt
  deriving DecidableEq, Repr

/-- The block format of `snappy`, as the table uses it: a blob `Encode` wrote,
`Decode` reads back. -/
structure snappy where
  Encode : List UInt8 → List UInt8
  Decode : List UInt8 → Except FreezerError (List UInt8)
  Decode_Encode : ∀ b, Decode (Encode b) = .ok b

/-- `indexEntry`: the data file of an item and the offset of its end there. -/
structure indexEntry where
  filenum : UInt32
  offset : UInt32
  deriving DecidableEq, Repr

/-- `indexEntrySize`. -/
def indexEntrySize : ℕ := 6

namespace indexEntry

/-- `indexEntry.unmarshalBinary`. -/
def unmarshalBinary (b : List UInt8) : indexEntry :=
  ⟨(binary.BigEndian.Uint16 (b.take 2)).toUInt32, binary.BigEndian.Uint32 ((b.drop 2).take 4)⟩

/-- `indexEntry.marshallBinary`: the file number goes in as a `uint16`. -/
def marshallBinary (i : indexEntry) : List UInt8 :=
  binary.BigEndian.PutUint16 i.filenum.toUInt16 ++ binary.BigEndian.PutUint32 i.offset

end indexEntry

/-- The openers `openFile` is given. -/
inductive opener where
  | openFreezerFileForAppend
  | openFreezerFileForReadOnly
  | openFreezerFileTruncated
  deriving DecidableEq, Repr

/-- What a file holds once opened, given what is on disk (`none`: no file).
Opening for appending creates a missing file, opening read-only fails on one. -/
def opener.contents : opener → Option (List UInt8) → Except FreezerError (List UInt8)
  | .openFreezerFileForAppend, f => .ok (f.getD [])
  | .openFreezerFileForReadOnly, some f => .ok f
  | .openFreezerFileForReadOnly, none => .error .io
  | .openFreezerFileTruncated, _ => .ok []

/-- `truncateFreezerFile`, on the contents of a file. -/
def truncateFreezerFile (file : List UInt8) (size : ℤ) : Except FreezerError (List UInt8) :=
  match os.Truncate file size with
  | some f => .ok f
  | none => .error .io

/-- `freezerTable`. The open data files are `files`, the head among them the
one numbered `headId`; `disk` is what the data files hold. -/
structure freezerTable where
  items : UInt64
  noCompression : Bool
  maxFileSize : UInt32
  files : UInt32 → Bool
  disk : UInt32 → Option (List UInt8)
  headId : UInt32
  tailId : UInt32
  index : List UInt8
  itemOffset : UInt32
  headBytes : UInt32

namespace freezerTable

/-- The bytes of data file `num`, none when there is no such file. -/
def data (t : freezerTable) (num : UInt32) : List UInt8 := (t.disk num).getD []

/-- `openFile`: a file already open is used as it is, another is opened. -/
def openFile (t : freezerTable) (num : UInt32) (o : opener) : Except FreezerError freezerTable :=
  if t.files num then .ok t
  else do
    let f ← o.contents (t.disk num)
    pure { t with files := Function.update t.files num true, disk := Function.update t.disk num (some f) }

/-- `releaseFile`. -/
def releaseFile (t : freezerTable) (num : UInt32) : freezerTable :=
  { t with files := Function.update t.files num false }

/-- `releaseFilesAfter`: the open files numbered above `num` are closed, and
deleted if `remove`. -/
def releaseFilesAfter (t : freezerTable) (num : UInt32) (remove : Bool) : freezerTable :=
  { t with
    files := fun f => t.files f && !decide (num < f)
    disk := fun f => if remove && t.files f && decide (num < f) then none else t.disk f }

/-! ### `append` -/

/-- The head file is full: the next data file, opened truncated, becomes the
head, and the old head is reopened for reading (an error there is ignored, as in
the source). -/
def nextHead (t : freezerTable) : Except FreezerError freezerTable := do
  let nextID := t.headId + 1
  let t' ← t.openFile nextID .openFreezerFileTruncated
  let released := t'.releaseFile t.headId
  let t' := match released.openFile t.headId .openFreezerFileForReadOnly with
    | .ok t' => t'
    | .error _ => released
  pure { t' with headBytes := 0, headId := nextID }

/-- The blob written at the end of the head file, and its index entry at the end
of the index. -/
def writeItem (t : freezerTable) (encodedBlob : List UInt8) : freezerTable :=
  let newOffset := t.headBytes + UInt32.ofNat encodedBlob.length
  { t with
    disk := Function.update t.disk t.headId (some (t.data t.headId ++ encodedBlob))
    headBytes := newOffset
    index := t.index ++ indexEntry.marshallBinary ⟨t.headId, newOffset⟩
    items := t.items + 1 }

/-- `append`: `(true, t)` asks the caller to call again holding the write lock. -/
def append (t : freezerTable) (item : UInt64) (encodedBlob : List UInt8) (wlock : Bool) :
    Except FreezerError (Bool × freezerTable) :=
  if t.items ≠ item then .error (.unexpectedItem t.items item)
  else
    let bLen : UInt32 := UInt32.ofNat encodedBlob.length
    if t.headBytes + bLen < bLen ∨ t.headBytes + bLen > t.maxFileSize then
      -- writing would overflow the head file: only under the write lock is a new one opened
      if !wlock then .ok (true, t)
      else do
        let t ← t.nextHead
        pure (false, t.writeItem encodedBlob)
    else .ok (false, t.writeItem encodedBlob)

/-- The form a blob is stored in. -/
def encode (codec : snappy) (t : freezerTable) (blob : List UInt8) : List UInt8 :=
  if !t.noCompression then codec.Encode blob else blob

/-- `Append`. -/
def Append (codec : snappy) (t : freezerTable) (item : UInt64) (blob : List UInt8) :
    Except FreezerError freezerTable := do
  let blob := t.encode codec blob
  let (retry, t) ← t.append item blob false
  if retry then
    let (_, t) ← t.append item blob true
    pure t
  else pure t

/-! ### `retrieve` -/

/-- `getBounds`: the start and end of an item in its data file, and the file's
number, from the index entries around it. -/
def getBounds (t : freezerTable) (item : UInt64) : Except FreezerError (UInt32 × UInt32 × UInt32) := do
  let (buffer, ok) := os.ReadAt t.index (List.replicate indexEntrySize 0)
    ((item + 1) * indexEntrySize.toUInt64).toNat
  if !ok then throw .io
  let endIdx := indexEntry.unmarshalBinary buffer
  if item ≠ 0 then
    let (buffer, ok) := os.ReadAt t.index buffer (item * indexEntrySize.toUInt64).toNat
    if !ok then throw .io
    let startIdx := indexEntry.unmarshalBinary buffer
    -- an item that crosses a file boundary is all in the second file, from its start
    if startIdx.filenum ≠ endIdx.filenum then return (0, endIdx.offset, endIdx.filenum)
    return (startIdx.offset, endIdx.offset, endIdx.filenum)
  else
    -- the first item starts at the start of its file
    return (0, endIdx.offset, endIdx.filenum)

/-- `retrieve`: the blob as stored. -/
def retrieve (t : freezerTable) (item : UInt64) : Except FreezerError (List UInt8) := do
  if t.items ≤ item then throw .errOutOfBounds
  if t.itemOffset.toUInt64 > item then throw .errOutOfBounds
  let (startOffset, endOffset, filenum) ← t.getBounds (item - t.itemOffset.toUInt64)
  if !t.files filenum then throw (.missingDataFile filenum)
  let (blob, ok) := os.ReadAt (t.data filenum) (List.replicate (endOffset - startOffset).toNat 0)
    startOffset.toNat
  if !ok then throw .io
  return blob

/-- `Retrieve`. -/
def Retrieve (codec : snappy) (t : freezerTable) (item : UInt64) : Except FreezerError (List UInt8) := do
  let blob ← t.retrieve item
  if t.noCompression then return blob
  codec.Decode blob

/-! ### `truncate` -/

/-- The head moved back to file `num`, when it is not there already: that file is
reopened for appending, and the open files after it are closed and deleted. -/
def headAt (t : freezerTable) (num : UInt32) : Except FreezerError freezerTable :=
  if num ≠ t.headId then do
    let t ← (t.releaseFile num).openFile num .openFreezerFileForAppend
    pure { t.releaseFilesAfter num true with headId := num }
  else pure t

/-- `truncate`: the items from `items` on are discarded. -/
def truncate (t : freezerTable) (items : UInt64) : Except FreezerError freezerTable := do
  let existing := t.items
  if existing ≤ items then return t
  let index ← truncateFreezerFile t.index ((items + 1).toNat * indexEntrySize)
  let (buffer, ok) := os.ReadAt index (List.replicate indexEntrySize 0)
    (items * indexEntrySize.toUInt64).toNat
  if !ok then throw .io
  let expected := indexEntry.unmarshalBinary buffer
  let t ← ({ t with index } : freezerTable).headAt expected.filenum
  let head ← truncateFreezerFile (t.data t.headId) expected.offset.toNat
  return { t with disk := Function.update t.disk t.headId (some head), items, headBytes := expected.offset }

end freezerTable

/-! ### The index, entry by entry -/

namespace indexEntry

@[simp] theorem length_marshallBinary (i : indexEntry) : i.marshallBinary.length = indexEntrySize := rfl

/-- An entry reads back with its file number cut to 16 bits. -/
theorem unmarshalBinary_marshallBinary (i : indexEntry) :
    unmarshalBinary i.marshallBinary = ⟨i.filenum.toUInt16.toUInt32, i.offset⟩ := by
  rw [unmarshalBinary, marshallBinary, List.take_left' (binary.BigEndian.length_PutUint16 _),
    List.drop_left' (binary.BigEndian.length_PutUint16 _),
    List.take_of_length_le (Nat.le_of_eq (binary.BigEndian.length_PutUint32 _)),
    binary.BigEndian.Uint16_PutUint16, binary.BigEndian.Uint32_PutUint32]

/-- An entry whose file number fits in 16 bits reads back as it was. -/
theorem unmarshalBinary_marshallBinary_of_lt {i : indexEntry} (h : i.filenum.toNat < 2 ^ 16) :
    unmarshalBinary i.marshallBinary = i := by
  rw [unmarshalBinary_marshallBinary]
  congr
  apply UInt32.toNat_inj.mp
  rw [UInt16.toNat_toUInt32, UInt32.toNat_toUInt16, Nat.mod_eq_of_lt h]

theorem length_flatMap_marshallBinary (L : List indexEntry) :
    (L.flatMap marshallBinary).length = L.length * indexEntrySize := by
  induction L with
  | nil => rfl
  | cons e L ih => rw [List.flatMap_cons, List.length_append, ih, length_marshallBinary,
      List.length_cons, Nat.succ_mul, Nat.add_comm]

theorem drop_flatMap_marshallBinary (L : List indexEntry) (m : ℕ) :
    (L.flatMap marshallBinary).drop (m * indexEntrySize) = (L.drop m).flatMap marshallBinary := by
  induction L generalizing m with
  | nil => simp
  | cons e L ih =>
    cases m with
    | zero => rfl
    | succ m =>
      rw [List.flatMap_cons, Nat.succ_mul, Nat.add_comm, ← length_marshallBinary e,
        List.drop_length_add_append, length_marshallBinary, ih, List.drop_succ_cons]

theorem take_flatMap_marshallBinary (L : List indexEntry) (m : ℕ) :
    (L.flatMap marshallBinary).take (m * indexEntrySize) = (L.take m).flatMap marshallBinary := by
  induction L generalizing m with
  | nil => simp
  | cons e L ih =>
    cases m with
    | zero => rfl
    | succ m =>
      rw [List.flatMap_cons, Nat.succ_mul, Nat.add_comm, ← length_marshallBinary e,
        List.take_length_add_append, length_marshallBinary, ih, List.take_succ_cons, List.flatMap_cons]

/-- Entry `m` of an index, read where it is. -/
theorem ReadAt_flatMap {L : List indexEntry} {m : ℕ} (hm : m < L.length) {buf : List UInt8}
    (hb : buf.length = indexEntrySize) :
    os.ReadAt (L.flatMap marshallBinary) buf (m * indexEntrySize : ℕ) = (L[m].marshallBinary, true) := by
  have hle : m * indexEntrySize + buf.length ≤ (L.flatMap marshallBinary).length := by
    rw [length_flatMap_marshallBinary, hb, ← Nat.succ_mul]
    exact Nat.mul_le_mul_right _ hm
  rw [os.ReadAt_of_le hle, drop_flatMap_marshallBinary, List.drop_eq_getElem_cons hm,
    List.flatMap_cons, hb, List.take_left' (length_marshallBinary _)]

end indexEntry

/-! ### The layout of a table -/

namespace freezerTable

/-- The order of the entries in the index: by file, and by offset within a file. -/
def EntryLe (a b : indexEntry) : Prop :=
  a.filenum < b.filenum ∨ (a.filenum = b.filenum ∧ a.offset ≤ b.offset)

instance (a b : indexEntry) : Decidable (EntryLe a b) := inferInstanceAs (Decidable (_ ∨ _))

/-- Where item `j` starts in its data file, the entries after the first being
`es`: where the item before it ends when both are in one file, and at the start
of the file otherwise (`getBounds`). -/
def startOf (es : List indexEntry) : ℕ → ℕ
  | 0 => 0
  | j + 1 =>
    if (es.getD j ⟨0, 0⟩).filenum = (es.getD (j + 1) ⟨0, 0⟩).filenum then (es.getD j ⟨0, 0⟩).offset.toNat
    else 0

/-- `t` holds the blobs `bs` as stored, item `itemOffset + j` being `bs[j]`, and
its index the entries `es` after the first; where the head stands is left open
(`Layout` says it). -/
structure Stored (t : freezerTable) (bs : List (List UInt8)) (es : List indexEntry) : Prop where
  length_eq : es.length = bs.length
  items_eq : t.items.toNat = t.itemOffset.toNat + bs.length
  index_eq : t.index = (⟨t.tailId, t.itemOffset⟩ :: es).flatMap indexEntry.marshallBinary
  index_lt : t.index.length < 2 ^ 64
  head_lt : t.headId.toNat < 2 ^ 16
  sorted : es.Pairwise EntryLe
  tail_le : ∀ e ∈ es, t.tailId ≤ e.filenum
  tail_le_head : t.tailId ≤ t.headId
  le_head : ∀ e ∈ es, e.filenum ≤ t.headId
  head : (t.data t.headId).length = t.headBytes.toNat
  open_le : ∀ f, t.files f = true → f ≤ t.headId
  opened : ∀ f, t.tailId ≤ f → f ≤ t.headId → t.files f = true ∧ (t.disk f).isSome
  item : ∀ j (hj : j < es.length) (hb : j < bs.length),
    startOf es j + bs[j].length = es[j].offset.toNat ∧
    ((t.data es[j].filenum).drop (startOf es j)).take bs[j].length = bs[j] ∧
    es[j].offset.toNat ≤ (t.data es[j].filenum).length

/-- A table between operations: it stores `bs` through `es`, and its head file
ends where the last item does. -/
structure Layout (t : freezerTable) (bs : List (List UInt8)) (es : List indexEntry) : Prop
    extends Stored t bs es where
  last : ∀ e ∈ es.getLast?, e.filenum = t.headId ∧ e.offset = t.headBytes
  nil : es = [] → t.headBytes = 0

variable {t : freezerTable} {bs : List (List UInt8)} {es : List indexEntry}

/-- Every item is in the head file or one before it, and in the head file no
further than its end. -/
theorem Layout.le_last (h : Layout t bs es) {e : indexEntry} (he : e ∈ es) :
    e.filenum < t.headId ∨ (e.filenum = t.headId ∧ e.offset ≤ t.headBytes) := by
  have hne : es ≠ [] := List.ne_nil_of_mem he
  obtain ⟨hf, ho⟩ := h.last (es.getLast hne) (by rw [Option.mem_def, List.getLast?_eq_some_getLast hne])
  have hsorted := h.sorted
  rw [← List.dropLast_append_getLast hne] at he hsorted
  rcases List.mem_append.mp he with hin | hlast
  · have hle := (List.pairwise_append.mp hsorted).2.2 e hin _ (List.mem_singleton_self _)
    rw [← hf, ← ho]
    exact hle
  · rw [List.mem_singleton.mp hlast, hf, ho]
    exact Or.inr ⟨rfl, UInt32.le_refl _⟩

/-- Each entry of the index reads back as it was written. -/
theorem Stored.unmarshalBinary (h : Stored t bs es) {e : indexEntry} (he : e ∈ es) :
    indexEntry.unmarshalBinary e.marshallBinary = e :=
  indexEntry.unmarshalBinary_marshallBinary_of_lt
    (Nat.lt_of_le_of_lt (UInt32.le_iff_toNat_le.mp (h.le_head e he)) h.head_lt)

/-- The index has an entry more than there are items. -/
theorem Stored.length_index (h : Stored t bs es) :
    t.index.length = (es.length + 1) * indexEntrySize := by
  rw [h.index_eq, indexEntry.length_flatMap_marshallBinary, List.length_cons]

/-- Entry `m` of the index, at the offset the source computes in `uint64`. -/
theorem Stored.ReadAt_index (h : Stored t bs es) {m : UInt64} (hm : m.toNat < es.length + 1)
    {buf : List UInt8} (hb : buf.length = indexEntrySize) :
    os.ReadAt t.index buf (m * indexEntrySize.toUInt64).toNat =
      ((⟨t.tailId, t.itemOffset⟩ :: es)[m.toNat].marshallBinary, true) := by
  have hlt : m.toNat * indexEntrySize < 2 ^ 64 := by
    have := h.length_index
    have := h.index_lt
    have : m.toNat * indexEntrySize < (es.length + 1) * indexEntrySize :=
      Nat.mul_lt_mul_of_pos_right hm (by decide)
    omega
  have hoff : (m * indexEntrySize.toUInt64).toNat = m.toNat * indexEntrySize := by
    have h6 : indexEntrySize.toUInt64.toNat = indexEntrySize := rfl
    rw [UInt64.toNat_mul, h6, Nat.mod_eq_of_lt hlt]
  rw [hoff, h.index_eq]
  exact indexEntry.ReadAt_flatMap hm hb

/-- `getBounds` reads an item's file, and its start and end there, off the
entries around it. -/
theorem Stored.getBounds (h : Stored t bs es) {j : ℕ} (hj : j < es.length) {item : UInt64}
    (hitem : item.toNat = j) :
    ∃ s : UInt32, t.getBounds item = .ok (s, es[j].offset, es[j].filenum) ∧ s.toNat = startOf es j := by
  subst hitem
  have hsucc : (item + 1).toNat = item.toNat + 1 := by
    have := h.length_index
    have := h.index_lt
    rw [UInt64.toNat_add, UInt64.toNat_one]
    apply Nat.mod_eq_of_lt
    simp only [indexEntrySize] at *
    omega
  have hr1 : os.ReadAt t.index (List.replicate indexEntrySize 0) ((item + 1) * indexEntrySize.toUInt64).toNat =
      (es[item.toNat].marshallBinary, true) := by
    rw [h.ReadAt_index (by rw [hsucc]; omega) List.length_replicate]
    simp only [hsucc, List.getElem_cons_succ]
  have hend := h.unmarshalBinary (List.getElem_mem hj)
  by_cases hi : item.toNat = 0
  · -- the first item starts at the start of its file
    have h0 : item = 0 := UInt64.toNat_inj.mp hi
    subst h0
    refine ⟨0, ?_, rfl⟩
    simp only [freezerTable.getBounds, hr1, hend, Bool.not_true, Bool.false_eq_true, ↓reduceIte,
      ne_eq, not_true_eq_false]
    rfl
  · obtain ⟨j, hj'⟩ : ∃ j, item.toNat = j + 1 := Nat.exists_eq_succ_of_ne_zero hi
    have hjlt : j < es.length := by omega
    have hr2 : os.ReadAt t.index es[item.toNat].marshallBinary (item * indexEntrySize.toUInt64).toNat =
        (es[j].marshallBinary, true) := by
      rw [h.ReadAt_index (by omega) (indexEntry.length_marshallBinary _)]
      simp only [hj', List.getElem_cons_succ]
    have hstart := h.unmarshalBinary (List.getElem_mem hjlt)
    have hne : item ≠ 0 := fun h0 => hi (by rw [h0]; rfl)
    simp only [freezerTable.getBounds, hr1, hend, hr2, hstart, hne, Bool.not_true, Bool.false_eq_true,
      ↓reduceIte, ne_eq, not_false_eq_true]
    have hget : es[item.toNat] = es[j + 1] := by simp only [hj']
    have hs : startOf es item.toNat =
        if es[j].filenum = es[j + 1].filenum then es[j].offset.toNat else 0 := by
      rw [hj', startOf, List.getD_eq_getElem?_getD, List.getD_eq_getElem?_getD,
        List.getElem?_eq_getElem hjlt, List.getElem?_eq_getElem (show j + 1 < es.length by omega),
        Option.getD_some, Option.getD_some]
    rw [hs, hget]
    -- the item starts where the one before it ends only when both are in one file
    by_cases hf : es[j].filenum = es[j + 1].filenum
    · exact ⟨es[j].offset, by simp only [hf, not_true_eq_false, ↓reduceIte]; rfl,
        by simp only [hf, ↓reduceIte]⟩
    · exact ⟨0, by simp only [hf, not_false_eq_true, ↓reduceIte]; rfl, by simp only [hf, ↓reduceIte]; rfl⟩

/-- **`retrieve` reads every item of a table back as it was stored.** -/
theorem Stored.retrieve (h : Stored t bs es) {i : ℕ} (hi : i < bs.length) :
    t.retrieve (UInt64.ofNat (t.itemOffset.toNat + i)) = .ok bs[i] := by
  have hj : i < es.length := h.length_eq ▸ hi
  have h64 : t.itemOffset.toNat + i < 2 ^ 64 := by
    have := h.items_eq
    have := t.items.toNat_lt
    omega
  have hitem : (UInt64.ofNat (t.itemOffset.toNat + i)).toNat = t.itemOffset.toNat + i :=
    UInt64.toNat_ofNat_of_lt' h64
  have hin : ¬ t.items ≤ UInt64.ofNat (t.itemOffset.toNat + i) := by
    rw [UInt64.le_iff_toNat_le, hitem, h.items_eq]
    omega
  have hoff : ¬ t.itemOffset.toUInt64 > UInt64.ofNat (t.itemOffset.toNat + i) := by
    rw [GT.gt, UInt64.lt_iff_toNat_lt, hitem, UInt32.toNat_toUInt64]
    omega
  have hsub : (UInt64.ofNat (t.itemOffset.toNat + i) - t.itemOffset.toUInt64).toNat = i := by
    rw [UInt64.toNat_sub_of_le _ _ (by rw [UInt64.le_iff_toNat_le, hitem, UInt32.toNat_toUInt64]; omega),
      hitem, UInt32.toNat_toUInt64]
    omega
  obtain ⟨s, hb, hs⟩ := h.getBounds hj hsub
  obtain ⟨hlen, hdata, hle⟩ := h.item i hj hi
  have hmem := List.getElem_mem hj
  have hopen := (h.opened es[i].filenum (h.tail_le _ hmem) (h.le_head _ hmem)).1
  have hlen' : (es[i].offset - s).toNat = bs[i].length := by
    rw [UInt32.toNat_sub_of_le _ _ (by rw [UInt32.le_iff_toNat_le]; omega)]
    omega
  have hread : os.ReadAt (t.data es[i].filenum) (List.replicate (es[i].offset - s).toNat 0) s.toNat =
      (bs[i], true) := by
    rw [os.ReadAt_of_le (by rw [List.length_replicate]; omega), List.length_replicate, hlen', hs, hdata]
  simp only [freezerTable.retrieve, hin, hoff, hb, Except.bind_ok, hopen, hread, ↓reduceIte,
    Bool.not_true, Bool.false_eq_true]
  rfl


theorem startOf_append {j : ℕ} (hj : j < es.length) (l : List indexEntry) :
    startOf (es ++ l) j = startOf es j := by
  cases j with
  | zero => rfl
  | succ j =>
    simp only [startOf, List.getD_eq_getElem?_getD, List.getElem?_append_left hj,
      List.getElem?_append_left (show j < es.length by omega)]

/-- A new item starts at the end of the last one when it goes in the same file. -/
theorem startOf_concat (e' : indexEntry) :
    startOf (es ++ [e']) es.length =
      match es.getLast? with
      | none => 0
      | some e => if e.filenum = e'.filenum then e.offset.toNat else 0 := by
  rcases List.eq_nil_or_concat es with rfl | ⟨L, e, rfl⟩
  · rfl
  · simp [startOf, List.getD_eq_getElem?_getD]


theorem data_writeItem (b : List UInt8) (f : UInt32) :
    (t.writeItem b).data f = if f = t.headId then t.data t.headId ++ b else t.data f := by
  by_cases hf : f = t.headId
  · subst hf
    simp [writeItem, data]
  · simp [writeItem, data, hf]

/-- Bytes read from before the end of a file stay as they were when more are
written after them. -/
theorem take_drop_append {l r : List UInt8} {s k : ℕ} (h : s + k ≤ l.length) :
    ((l ++ r).drop s).take k = (l.drop s).take k := by
  rw [List.drop_append_of_le_length (by omega),
    List.take_append_of_le_length (by rw [List.length_drop]; omega)]

/-- Bytes read from before a cut are still there after it. -/
theorem take_drop_take {l : List UInt8} {s k n : ℕ} (h : s + k ≤ n) :
    ((l.take n).drop s).take k = (l.drop s).take k := by
  rw [List.drop_take, List.take_take, Nat.min_eq_left (by omega)]

/-- **Writing an item where the head file ends stores it after the others.** The
new item's entry is the head file and the new end of its bytes. -/
theorem Stored.writeItem (h : Stored t bs es) (b : List UInt8)
    (hle : ∀ e ∈ es, e.filenum < t.headId ∨ (e.filenum = t.headId ∧ e.offset ≤ t.headBytes))
    (hstart : startOf (es ++ [⟨t.headId, t.headBytes + UInt32.ofNat b.length⟩]) es.length =
      t.headBytes.toNat)
    (hfit : t.headBytes.toNat + b.length < 2 ^ 32) (hidx : t.index.length + indexEntrySize < 2 ^ 64) :
    Layout (t.writeItem b) (bs ++ [b]) (es ++ [⟨t.headId, t.headBytes + UInt32.ofNat b.length⟩]) := by
  have hoff : (t.headBytes + UInt32.ofNat b.length).toNat = t.headBytes.toNat + b.length := by
    rw [UInt32.toNat_add, UInt32.toNat_ofNat_of_lt' (Nat.lt_of_le_of_lt (Nat.le_add_left _ _) hfit)]
    exact Nat.mod_eq_of_lt hfit
  have hgrow : t.headBytes ≤ t.headBytes + UInt32.ofNat b.length := by
    rw [UInt32.le_iff_toNat_le, hoff]
    omega
  have hitems : t.items.toNat + 1 < 2 ^ 64 := by
    have := h.length_index
    have := h.items_eq
    have := t.itemOffset.toNat_lt
    have := h.length_eq
    simp only [indexEntrySize] at *
    omega
  refine ⟨⟨?_, ?_, ?_, ?_, h.head_lt, ?_, ?_, h.tail_le_head, ?_, ?_, h.open_le, ?_, ?_⟩, ?_, ?_⟩
  · simp [h.length_eq]
  · simp only [freezerTable.writeItem, List.length_append, List.length_singleton]
    rw [UInt64.toNat_add, UInt64.toNat_one, Nat.mod_eq_of_lt hitems, h.items_eq, Nat.add_assoc]
  · simp only [freezerTable.writeItem, h.index_eq, List.flatMap_cons, List.flatMap_append,
      List.flatMap_nil, List.append_nil, List.append_assoc]
  · simpa only [freezerTable.writeItem, List.length_append, indexEntry.length_marshallBinary] using hidx
  · -- the new entry comes after every other: in a later file, or later in the head file
    refine List.pairwise_append.mpr ⟨h.sorted, List.pairwise_singleton _ _, fun e he e' he' => ?_⟩
    rw [List.mem_singleton.mp he']
    rcases hle e he with hlt | ⟨heq, hle'⟩
    · exact Or.inl hlt
    · exact Or.inr ⟨heq, UInt32.le_trans hle' hgrow⟩
  · intro e he
    rcases List.mem_append.mp he with hold | hnew
    · exact h.tail_le e hold
    · rw [List.mem_singleton.mp hnew]
      exact h.tail_le_head
  · intro e he
    rcases List.mem_append.mp he with hold | hnew
    · exact h.le_head e hold
    · rw [List.mem_singleton.mp hnew]
      exact UInt32.le_refl _
  · show ((t.writeItem b).data t.headId).length = (t.headBytes + UInt32.ofNat b.length).toNat
    rw [data_writeItem, if_pos rfl, List.length_append, h.head, hoff]
  · intro f hf hf'
    refine ⟨(h.opened f hf hf').1, ?_⟩
    by_cases hfh : f = t.headId
    · simp [freezerTable.writeItem, hfh]
    · simpa [freezerTable.writeItem, hfh] using (h.opened f hf hf').2
  · intro j hj hb
    rcases Nat.lt_or_ge j es.length with hlt | hge
    · -- an item stored before: its bytes are before the end of its file
      have hlt' : j < bs.length := h.length_eq ▸ hlt
      obtain ⟨hlen, hdata, hend⟩ := h.item j hlt hlt'
      rw [List.getElem_append_left hlt, List.getElem_append_left hlt', startOf_append hlt, data_writeItem]
      refine ⟨hlen, ?_, ?_⟩
      · split_ifs with hf
        · rw [← hf, take_drop_append (by omega)]
          exact hdata
        · exact hdata
      · split_ifs with hf
        · rw [List.length_append, ← hf]
          omega
        · exact hend
    · -- the new item: it starts where the head file ended
      have hjn : j = es.length := by simp only [List.length_append, List.length_singleton] at hj; omega
      subst hjn
      have hbn : es.length = bs.length := h.length_eq
      rw [List.getElem_append_right (Nat.le_refl _), List.getElem_append_right (Nat.le_of_eq hbn.symm)]
      simp only [Nat.sub_self, hbn, List.getElem_singleton]
      rw [← hbn, hstart, data_writeItem, if_pos rfl, List.drop_left' h.head, List.take_length]
      refine ⟨hoff.symm, rfl, ?_⟩
      exact Nat.le_of_eq (by rw [List.length_append, h.head, hoff])
  · intro e he
    simp only [List.getLast?_concat, Option.mem_def, Option.some.injEq] at he
    subst he
    exact ⟨rfl, rfl⟩
  · intro hnil
    exact absurd hnil (List.append_ne_nil_of_right_ne_nil _ (List.cons_ne_nil _ _))


/-- The next item of a table goes where its head file ends. -/
theorem Layout.startOf_next (h : Layout t bs es) (x : UInt32) :
    startOf (es ++ [⟨t.headId, x⟩]) es.length = t.headBytes.toNat := by
  rw [startOf_concat]
  cases hl : es.getLast? with
  | none =>
    rw [h.nil (List.getLast?_eq_none_iff.mp hl)]
    rfl
  | some e =>
    obtain ⟨hf, ho⟩ := h.last e hl
    simp only [hf, ho, ↓reduceIte]

theorem succ_ne_self (x : UInt32) : x + 1 ≠ x := by
  intro h
  have := congrArg UInt32.toNat h
  rw [UInt32.toNat_add, UInt32.toNat_one] at this
  have := x.toNat_lt
  omega

/-- `nextHead` on a table whose head is open and whose next file is not: that
file, emptied, becomes the head, and nothing else changes. -/
theorem nextHead_eq {f : List UInt8} (hnext : t.files (t.headId + 1) = false)
    (hopen : t.files t.headId = true) (hdisk : t.disk t.headId = some f) :
    t.nextHead = .ok { t with
      files := Function.update t.files (t.headId + 1) true
      disk := Function.update t.disk (t.headId + 1) (some [])
      headBytes := 0
      headId := t.headId + 1 } := by
  -- the old head, reopened for reading, is as it was: open, with the same bytes
  simp [nextHead, openFile, releaseFile, hnext, hopen, hdisk, opener.contents]


/-- The files up to the one after `x` are those up to `x`, and that one. -/
theorem le_succ_iff {x f : UInt32} (hs : (x + 1).toNat = x.toNat + 1) : f ≤ x + 1 ↔ f ≤ x ∨ f = x + 1 := by
  rw [UInt32.le_iff_toNat_le, UInt32.le_iff_toNat_le, hs, ← UInt32.toNat_inj, hs]
  omega

/-- **A table whose head is full moves on to the next file**, which is empty
and comes after every file holding an item; what it stores is unchanged. -/
theorem Layout.nextHead (h : Layout t bs es) (hhead : t.headId.toNat + 1 < 2 ^ 16) :
    ∃ t', t.nextHead = .ok t' ∧ Stored t' bs es ∧ t'.headId = t.headId + 1 ∧ t'.headBytes = 0 ∧
      t'.index = t.index ∧ t'.items = t.items ∧ t'.itemOffset = t.itemOffset ∧
      t'.tailId = t.tailId ∧ t'.maxFileSize = t.maxFileSize ∧ t'.noCompression = t.noCompression ∧
      ∀ e ∈ es, e.filenum < t'.headId := by
  have hs : (t.headId + 1).toNat = t.headId.toNat + 1 := by
    rw [UInt32.toNat_add, UInt32.toNat_one]
    exact Nat.mod_eq_of_lt (by omega)
  have hnext : t.files (t.headId + 1) = false := by
    rcases hf : t.files (t.headId + 1) with _ | _
    · rfl
    · have := UInt32.le_iff_toNat_le.mp (h.open_le _ hf)
      omega
  obtain ⟨hopen, hsome⟩ := h.opened t.headId h.tail_le_head (UInt32.le_refl _)
  obtain ⟨f, hdisk⟩ := Option.isSome_iff_exists.mp hsome
  have hlt : ∀ e ∈ es, e.filenum < t.headId + 1 := fun e he => by
    have := UInt32.le_iff_toNat_le.mp (h.le_head e he)
    rw [UInt32.lt_iff_toNat_lt, hs]
    omega
  have hdata : ∀ g, g ≠ t.headId + 1 →
      (Function.update t.disk (t.headId + 1) (some []) g).getD [] = t.data g := fun g hg => by
    rw [Function.update_of_ne hg]
    rfl
  refine ⟨_, nextHead_eq hnext hopen hdisk, ⟨h.length_eq, h.items_eq, h.index_eq, h.index_lt, by
    rw [hs]; omega, h.sorted, h.tail_le, ?_, fun e he => UInt32.le_of_lt (hlt e he), ?_, ?_, ?_, ?_⟩,
    rfl, rfl, rfl, rfl, rfl, rfl, rfl, rfl, hlt⟩
  · show t.tailId ≤ t.headId + 1
    have := UInt32.le_iff_toNat_le.mp h.tail_le_head
    rw [UInt32.le_iff_toNat_le, hs]
    omega
  · show ((Function.update t.disk (t.headId + 1) (some []) (t.headId + 1)).getD []).length = (0 : UInt32).toNat
    rw [Function.update_self]
    rfl
  · intro g hg
    change Function.update t.files (t.headId + 1) true g = true at hg
    show g ≤ t.headId + 1
    by_cases hgn : g = t.headId + 1
    · exact hgn ▸ UInt32.le_refl _
    · rw [Function.update_of_ne hgn] at hg
      exact (le_succ_iff hs).mpr (Or.inl (h.open_le g hg))
  · intro g hg hg'
    change t.tailId ≤ g at hg
    change g ≤ t.headId + 1 at hg'
    show Function.update t.files (t.headId + 1) true g = true ∧
      (Function.update t.disk (t.headId + 1) (some []) g).isSome
    rcases (le_succ_iff hs).mp hg' with hle | rfl
    · have hgn : g ≠ t.headId + 1 := fun heq => by
        have := UInt32.le_iff_toNat_le.mp hle
        rw [heq, hs] at this
        omega
      rw [Function.update_of_ne hgn, Function.update_of_ne hgn]
      exact h.opened g hg hle
    · simp
  · intro j hj hb
    have hgn := UInt32.ne_of_lt (hlt _ (List.getElem_mem hj))
    obtain ⟨hlen, hbytes, hend⟩ := h.item j hj hb
    refine ⟨hlen, ?_, ?_⟩
    · show List.take bs[j].length (List.drop (startOf es j)
        ((Function.update t.disk (t.headId + 1) (some []) es[j].filenum).getD [])) = bs[j]
      rw [hdata _ hgn]
      exact hbytes
    · show _ ≤ ((Function.update t.disk (t.headId + 1) (some []) es[j].filenum).getD []).length
      rw [hdata _ hgn]
      exact hend


/-- A `uint32` sum comes out below an addend exactly when it wraps. -/
theorem add_lt_iff {a b : UInt32} : a + b < b ↔ 2 ^ 32 ≤ a.toNat + b.toNat := by
  rw [UInt32.lt_iff_toNat_lt, UInt32.toNat_add]
  have := a.toNat_lt
  have := b.toNat_lt
  omega

/-- **`Append` stores a blob after the others**, in the head file when it fits
there and at the start of the next file otherwise. -/
theorem Layout.Append (h : Layout t bs es) (codec : snappy) (blob : List UInt8)
    (hb32 : (t.encode codec blob).length < 2 ^ 32) (hhead : t.headId.toNat + 1 < 2 ^ 16)
    (hidx : t.index.length + indexEntrySize < 2 ^ 64) :
    ∃ t' e, t.Append codec t.items blob = .ok t' ∧ Layout t' (bs ++ [t.encode codec blob]) (es ++ [e]) ∧
      t'.itemOffset = t.itemOffset ∧ t'.tailId = t.tailId ∧ t'.noCompression = t.noCompression ∧
      t'.maxFileSize = t.maxFileSize ∧ t'.headId.toNat ≤ t.headId.toNat + 1 := by
  have hlen : (UInt32.ofNat (t.encode codec blob).length).toNat = (t.encode codec blob).length :=
    UInt32.toNat_ofNat_of_lt' hb32
  by_cases hroll : t.headBytes + UInt32.ofNat (t.encode codec blob).length <
      UInt32.ofNat (t.encode codec blob).length ∨
      t.headBytes + UInt32.ofNat (t.encode codec blob).length > t.maxFileSize
  · -- the head is full: the blob goes at the start of the next file, under the write lock
    obtain ⟨t1, hnh, hst, hid, hhb, hidx1, -, hoff1, htail1, hmax1, hnc1, hlt1⟩ := h.nextHead hhead
    have hstart : startOf (es ++ [⟨t1.headId, t1.headBytes + UInt32.ofNat (t.encode codec blob).length⟩])
        es.length = t1.headBytes.toNat := by
      rw [startOf_concat, hhb]
      cases hl : es.getLast? with
      | none => rfl
      | some e =>
        have hne : e.filenum ≠ t1.headId :=
          UInt32.ne_of_lt (hlt1 e (List.mem_of_getLast? hl))
        simp only [hne, ↓reduceIte]
        rfl
    refine ⟨_, _, ?_, hst.writeItem _ (fun e he => Or.inl (hlt1 e he)) hstart
      (by rw [hhb, UInt32.toNat_zero, Nat.zero_add]; exact hb32) (by rw [hidx1]; exact hidx), hoff1, htail1, hnc1, hmax1, ?_⟩
    · simp only [freezerTable.Append, freezerTable.append, hroll, hnh, ne_eq, not_true_eq_false,
        ↓reduceIte, Bool.not_false, Except.bind_ok, Bool.not_true, Bool.false_eq_true, pure_bind]
      rfl
    · show t1.headId.toNat ≤ _
      rw [hid, UInt32.toNat_add, UInt32.toNat_one]
      exact Nat.mod_le _ _
  · -- the blob fits in the head file
    have hcond := hroll
    rw [not_or, add_lt_iff, Nat.not_le] at hroll
    refine ⟨_, _, ?_, h.toStored.writeItem _ (fun e he => h.le_last he) (h.startOf_next _)
      (by rw [← hlen]; exact hroll.1) hidx, rfl, rfl, rfl, rfl, Nat.le_succ _⟩
    simp only [freezerTable.Append, freezerTable.append, hcond, ne_eq, not_true_eq_false, ↓reduceIte,
      Except.bind_ok, Bool.false_eq_true]
    rfl


theorem startOf_take {j k : ℕ} (hj : j < k) : startOf (es.take k) j = startOf es j := by
  cases j with
  | zero => rfl
  | succ j =>
    simp only [startOf, List.getD_eq_getElem?_getD, List.getElem?_take, hj, Nat.lt_of_succ_lt hj,
      ↓reduceIte]

/-- `headAt`: the head moves back to file `num`, which was open, and the files
after it are closed and gone; the files up to it are as they were. -/
theorem headAt_spec {num : UInt32} (hle : ∀ f, t.files f = true → f ≤ t.headId)
    (hnum : t.files num = true) (hsome : (t.disk num).isSome) :
    ∃ t2, t.headAt num = .ok t2 ∧ t2.headId = num ∧
      (∀ f, t2.files f = (t.files f && !decide (num < f))) ∧ (∀ f, f ≤ num → t2.disk f = t.disk f) ∧
      t2.index = t.index ∧ t2.items = t.items ∧ t2.itemOffset = t.itemOffset ∧ t2.tailId = t.tailId ∧
      t2.headBytes = t.headBytes ∧ t2.noCompression = t.noCompression ∧ t2.maxFileSize = t.maxFileSize := by
  by_cases hh : num = t.headId
  · -- already the head: nothing after it is open
    refine ⟨t, by simp [headAt, hh], hh.symm, fun f => ?_, fun _ _ => rfl, rfl, rfl, rfl, rfl, rfl, rfl, rfl⟩
    cases hf : t.files f with
    | false => rfl
    | true =>
      have := hle f hf
      rw [← hh] at this
      simp [UInt32.not_lt.mpr this]
  · obtain ⟨g, hg⟩ := Option.isSome_iff_exists.mp hsome
    -- reopened for appending, the file keeps its bytes
    let reopened : freezerTable :=
      { t with files := Function.update t.files num true, disk := Function.update t.disk num (some g) }
    have heq : t.headAt num = .ok { reopened.releaseFilesAfter num true with headId := num } := by
      simp [headAt, hh, releaseFile, openFile, hg, opener.contents, reopened]
    refine ⟨_, heq, rfl, fun f => ?_, fun f hf => ?_, rfl, rfl, rfl, rfl, rfl, rfl, rfl⟩
    · by_cases hfn : f = num
      · subst hfn
        simp [releaseFilesAfter, hnum, reopened]
      · simp [releaseFilesAfter, hfn, reopened]
    · have hnlt : ¬ num < f := UInt32.not_lt.mpr hf
      by_cases hfn : f = num
      · subst hfn
        simp [releaseFilesAfter, hg, reopened]
      · simp [releaseFilesAfter, hfn, hnlt, reopened]


/-- Entry `k` of the index of a table that has deleted nothing from its tail:
the first entry for `k = 0`, the end of item `k - 1` otherwise. It is in a file
of the table, within that file, and no item before it ends past it. -/
theorem Layout.entry (h : Layout t bs es) (h0 : t.itemOffset = 0) {k : ℕ} (hk : k ≤ es.length) :
    ∃ x : indexEntry, (⟨t.tailId, t.itemOffset⟩ :: es)[k]? = some x ∧ t.tailId ≤ x.filenum ∧
      x.filenum ≤ t.headId ∧ x.offset.toNat ≤ (t.data x.filenum).length ∧
      (∀ j (hj : j < es.length), j < k → es[j].filenum ≤ x.filenum ∧
        (es[j].filenum = x.filenum → es[j].offset ≤ x.offset)) ∧
      (∀ e ∈ (es.take k).getLast?, e = x) ∧ (es.take k = [] → x.offset = 0) := by
  cases k with
  | zero =>
    refine ⟨_, rfl, UInt32.le_refl _, h.tail_le_head, by simp [h0], fun j _ hj => absurd hj (Nat.not_lt_zero j),
      by simp, fun _ => h0⟩
  | succ k =>
    have hkl : k < es.length := hk
    have hmem := List.getElem_mem hkl
    obtain ⟨-, -, hend⟩ := h.item k hkl (h.length_eq ▸ hkl)
    refine ⟨es[k], by simp, h.tail_le _ hmem, h.le_head _ hmem, hend, fun j hj hjk => ?_, ?_, ?_⟩
    · rcases Nat.lt_or_ge j k with hlt | hge
      · -- an item before the last one kept: ordered before it by the index
        rcases List.pairwise_iff_getElem.mp h.sorted j k hj hkl hlt with hf | ⟨hf, ho⟩
        · exact ⟨UInt32.le_of_lt hf, fun heq => absurd heq (UInt32.ne_of_lt hf)⟩
        · exact ⟨UInt32.le_of_eq hf, fun _ => ho⟩
      · have hjk' : j = k := by omega
        subst hjk'
        exact ⟨UInt32.le_refl _, fun _ => UInt32.le_refl _⟩
    · intro e he
      simp only [List.getLast?_eq_getElem?, List.getElem?_take, List.length_take,
        Nat.min_eq_left (show k + 1 ≤ es.length by omega), Nat.add_sub_cancel, Nat.lt_succ_self,
        ↓reduceIte, List.getElem?_eq_getElem hkl, Option.mem_def, Option.some.injEq] at he
      exact he.symm
    · intro hnil
      have := congrArg List.length hnil
      simp only [List.length_take, List.length_nil] at this
      omega


/-- **`truncate` keeps the first `k` items of a table that has deleted nothing
from its tail**; the head moves back to the file of the last item kept. -/
theorem Layout.truncate (h : Layout t bs es) (h0 : t.itemOffset = 0) {k : ℕ} (hk : k < bs.length) :
    ∃ t', t.truncate (UInt64.ofNat k) = .ok t' ∧ Layout t' (bs.take k) (es.take k) ∧
      t'.itemOffset = t.itemOffset ∧ t'.tailId = t.tailId ∧ t'.noCompression = t.noCompression ∧
      t'.maxFileSize = t.maxFileSize ∧ t'.headId ≤ t.headId := by
  have hkn : k < es.length := h.length_eq ▸ hk
  have hlen := h.length_index
  have hidx := h.index_lt
  have hk64 : (UInt64.ofNat k).toNat = k := UInt64.toNat_ofNat_of_lt' (show k < 2 ^ 64 by
    simp only [indexEntrySize] at hlen
    omega)
  have hexist : ¬ t.items ≤ UInt64.ofNat k := by
    rw [UInt64.le_iff_toNat_le, hk64, h.items_eq, h0]
    simp only [UInt32.toNat_zero, Nat.zero_add, Nat.not_le]
    exact hk
  -- the index is cut to its first `k + 1` entries
  have hsize : (UInt64.ofNat k + 1).toNat = k + 1 := by
    rw [UInt64.toNat_add, hk64, UInt64.toNat_one]
    apply Nat.mod_eq_of_lt
    simp only [indexEntrySize] at hlen
    omega
  have hcut : truncateFreezerFile t.index (((UInt64.ofNat k + 1).toNat : ℤ) * (indexEntrySize : ℤ)) =
      .ok ((⟨t.tailId, t.itemOffset⟩ :: es.take k).flatMap indexEntry.marshallBinary) := by
    rw [← Int.natCast_mul, hsize, truncateFreezerFile, os.Truncate_of_le (by rw [hlen]; exact Nat.mul_le_mul_right _ (by omega)),
      h.index_eq, indexEntry.take_flatMap_marshallBinary, List.take_succ_cons]
  obtain ⟨x, hx, htx, hxh, hxd, hbefore, hlast, hnil'⟩ := h.entry h0 (Nat.le_of_lt hkn)
  -- entry `k` of what is left: the end of the last item kept
  have hread : os.ReadAt ((⟨t.tailId, t.itemOffset⟩ :: es.take k).flatMap indexEntry.marshallBinary)
      (List.replicate indexEntrySize 0) (UInt64.ofNat k * indexEntrySize.toUInt64).toNat =
      (x.marshallBinary, true) := by
    have hm : k < (⟨t.tailId, t.itemOffset⟩ :: es.take k).length := by
      simp only [List.length_cons, List.length_take]
      omega
    have hL : (⟨t.tailId, t.itemOffset⟩ :: es.take k)[k]? = some x := by
      rw [← List.take_succ_cons, List.getElem?_take, if_pos (Nat.lt_succ_self k)]
      exact hx
    have hxk : (⟨t.tailId, t.itemOffset⟩ :: es.take k)[k] = x := by
      have := List.getElem?_eq_getElem hm
      rw [hL] at this
      exact (Option.some.inj this).symm
    have hoff : (UInt64.ofNat k * indexEntrySize.toUInt64).toNat = k * indexEntrySize := by
      have h6 : indexEntrySize.toUInt64.toNat = indexEntrySize := rfl
      rw [UInt64.toNat_mul, hk64, h6]
      apply Nat.mod_eq_of_lt
      simp only [indexEntrySize] at hlen ⊢
      omega
    rw [hoff, indexEntry.ReadAt_flatMap hm List.length_replicate, hxk]
  have hexp : indexEntry.unmarshalBinary x.marshallBinary = x :=
    indexEntry.unmarshalBinary_marshallBinary_of_lt
      (Nat.lt_of_le_of_lt (UInt32.le_iff_toNat_le.mp hxh) h.head_lt)
  -- the head moves back to the file of that entry
  obtain ⟨hxo, hxs⟩ := h.opened x.filenum htx hxh
  let cut : freezerTable :=
    { t with index := (⟨t.tailId, t.itemOffset⟩ :: es.take k).flatMap indexEntry.marshallBinary }
  obtain ⟨t2, hat, hid2, hfiles2, hdisk2, hidx2, hitems2, hoff2, htail2, hhb2, hnc2, hmax2⟩ :=
    headAt_spec (t := cut) h.open_le hxo hxs
  -- and its file is cut at the end of the last item kept
  have hdx : t2.data t2.headId = t.data x.filenum := by
    rw [hid2]
    exact congrArg (fun d => Option.getD d []) (hdisk2 x.filenum (UInt32.le_refl _))
  have hhead : truncateFreezerFile (t2.data t2.headId) x.offset.toNat =
      .ok ((t.data x.filenum).take x.offset.toNat) := by
    rw [hdx, truncateFreezerFile, os.Truncate_of_le hxd]
  have htrunc : t.truncate (UInt64.ofNat k) = .ok { t2 with
      disk := Function.update t2.disk t2.headId (some ((t.data x.filenum).take x.offset.toNat)),
      items := UInt64.ofNat k, headBytes := x.offset } := by
    simp only [freezerTable.truncate, hexist, ↓reduceIte, hcut, Except.bind_ok, hread, Bool.not_true,
      Bool.false_eq_true, hexp]
    simp only [cut] at hat
    rw [hat, Except.bind_ok, hhead, Except.bind_ok]
    rfl
  -- the files up to the new head keep their bytes, but for the head's cut
  have hdata : ∀ g, g ≤ x.filenum →
      ((Function.update t2.disk t2.headId (some ((t.data x.filenum).take x.offset.toNat))) g).getD [] =
        if g = x.filenum then (t.data x.filenum).take x.offset.toNat else t.data g := fun g hg => by
    by_cases hgx : g = x.filenum
    · rw [if_pos hgx, hgx, hid2, Function.update_self]
      rfl
    · rw [if_neg hgx, hid2, Function.update_of_ne hgx, hdisk2 g hg]
      rfl
  have hmem : ∀ e ∈ es.take k, ∃ j, ∃ hj : j < es.length, j < k ∧ es[j] = e := fun e he => by
    obtain ⟨j, hj, rfl⟩ := List.mem_iff_getElem.mp he
    simp only [List.length_take] at hj
    exact ⟨j, by omega, by omega, (List.getElem_take ..).symm⟩
  refine ⟨_, htrunc, ⟨⟨?_, ?_, ?_, ?_, ?_, h.sorted.sublist (List.take_sublist k es), ?_, ?_, ?_, ?_, ?_, ?_, ?_⟩,
    ?_, ?_⟩, hoff2, htail2, hnc2, hmax2, hid2 ▸ hxh⟩
  · simp only [List.length_take, h.length_eq]
  · show (UInt64.ofNat k).toNat = t2.itemOffset.toNat + (bs.take k).length
    rw [hk64, hoff2, h0, List.length_take, Nat.min_eq_left (Nat.le_of_lt hk), UInt32.toNat_zero,
      Nat.zero_add]
  · show t2.index = _
    rw [hidx2, htail2, hoff2]
  · show t2.index.length < 2 ^ 64
    rw [hidx2]
    show ((⟨t.tailId, t.itemOffset⟩ :: es.take k).flatMap indexEntry.marshallBinary).length < 2 ^ 64
    rw [indexEntry.length_flatMap_marshallBinary]
    simp only [List.length_cons, List.length_take, indexEntrySize] at hlen ⊢
    omega
  · show t2.headId.toNat < 2 ^ 16
    rw [hid2]
    exact Nat.lt_of_le_of_lt (UInt32.le_iff_toNat_le.mp hxh) h.head_lt
  · intro e he
    show t2.tailId ≤ e.filenum
    rw [htail2]
    exact h.tail_le e (List.mem_of_mem_take he)
  · show t2.tailId ≤ t2.headId
    rw [htail2, hid2]
    exact htx
  · intro e he
    obtain ⟨j, hj, hjk, rfl⟩ := hmem e he
    show es[j].filenum ≤ t2.headId
    rw [hid2]
    exact (hbefore j hj hjk).1
  · show (((Function.update t2.disk t2.headId (some ((t.data x.filenum).take x.offset.toNat)))
      t2.headId).getD []).length = x.offset.toNat
    rw [Function.update_self]
    simp only [Option.getD_some, List.length_take]
    omega
  · intro g hg
    show g ≤ t2.headId
    rw [hfiles2] at hg
    simp only [Bool.and_eq_true, Bool.not_eq_true', decide_eq_false_iff_not] at hg
    rw [hid2]
    exact UInt32.not_lt.mp hg.2
  · intro g hg hg'
    change t2.tailId ≤ g at hg
    change g ≤ t2.headId at hg'
    rw [htail2] at hg
    rw [hid2] at hg'
    obtain ⟨ho, hs⟩ := h.opened g hg (UInt32.le_trans hg' hxh)
    refine ⟨?_, ?_⟩
    · show t2.files g = true
      rw [hfiles2]
      simp [UInt32.not_lt.mpr hg', ho, cut]
    · show ((Function.update t2.disk t2.headId (some ((t.data x.filenum).take x.offset.toNat))) g).isSome
      by_cases hgx : g = x.filenum
      · rw [hgx, ← hid2, Function.update_self]
        rfl
      · rw [hid2, Function.update_of_ne hgx, hdisk2 g hg']
        exact hs
  · intro j hj hb
    have hjk : j < k := by simp only [List.length_take] at hj; omega
    have hjn : j < es.length := by simp only [List.length_take] at hj; omega
    obtain ⟨hlen', hbytes, hend⟩ := h.item j hjn (h.length_eq ▸ hjn)
    obtain ⟨hfle, hofs⟩ := hbefore j hjn hjk
    simp only [List.getElem_take]
    rw [startOf_take hjk]
    show _ ∧ List.take _ (List.drop _ (((Function.update t2.disk t2.headId
      (some ((t.data x.filenum).take x.offset.toNat))) es[j].filenum).getD [])) = _ ∧ _ ≤ List.length
      (((Function.update t2.disk t2.headId (some ((t.data x.filenum).take x.offset.toNat))) es[j].filenum).getD [])
    rw [hdata _ hfle]
    refine ⟨hlen', ?_, ?_⟩
    · split_ifs with hfx
      · -- in the head file, the item ends before the cut
        rw [← hfx, take_drop_take (by have := UInt32.le_iff_toNat_le.mp (hofs hfx); omega)]
        exact hbytes
      · exact hbytes
    · split_ifs with hfx
      · have hofs' := UInt32.le_iff_toNat_le.mp (hofs hfx)
        have hd : es[j].offset.toNat ≤ (t.data x.filenum).length := hfx ▸ hend
        simp only [List.length_take]
        omega
      · exact hend
  · intro e he
    have hex := hlast e he
    subst hex
    exact ⟨hid2.symm, rfl⟩
  · intro hnil
    exact hnil' hnil


/-- `headAt` leaves no file open after the new head. -/
theorem headAt_open_le (hle : ∀ f, t.files f = true → f ≤ t.headId) (num : UInt32) :
    ∃ t2, t.headAt num = .ok t2 ∧ t2.headId = num ∧ (∀ f, t2.files f = true → f ≤ num) ∧
      t2.index = t.index ∧ t2.itemOffset = t.itemOffset := by
  by_cases hh : num = t.headId
  · exact ⟨t, by simp [headAt, hh], hh.symm, fun f hf => hh ▸ hle f hf, rfl, rfl⟩
  · let reopened : freezerTable := { t with
      files := Function.update t.files num true
      disk := Function.update t.disk num (some ((t.disk num).getD [])) }
    have heq : t.headAt num = .ok { reopened.releaseFilesAfter num true with headId := num } := by
      simp [headAt, hh, releaseFile, openFile, opener.contents, reopened]
    refine ⟨_, heq, rfl, fun f hf => ?_, rfl, rfl⟩
    simp only [releaseFilesAfter, Bool.and_eq_true, Bool.not_eq_true', decide_eq_false_iff_not] at hf
    exact UInt32.not_lt.mp hf.2

/-- **`truncate` counts items from the start of the chain where the index counts
them from `itemOffset`.** A table that has deleted items from its tail, cut to
`k` items with `k` past the entries its index holds, reads a zero entry: its
head moves to file `0`, which is emptied, and the first item it keeps can no
longer be read. -/
theorem truncate_ignores_itemOffset (h : Layout t bs es) (codec : snappy) {k : ℕ} {b : List UInt8}
    (hn : bs.length < k) (hk : k < t.itemOffset.toNat + bs.length) (ho : t.itemOffset.toNat < k)
    (hk6 : (k + 1) * indexEntrySize < 2 ^ 64) (hb : bs.head? = some b) (hb0 : b ≠ []) :
    ∃ t', t.truncate (UInt64.ofNat k) = .ok t' ∧
      ∃ e, t'.Retrieve codec (UInt64.ofNat t.itemOffset.toNat) = .error e := by
  have hlen := h.length_index
  have hes := h.length_eq
  have hidx := h.index_lt
  have hoff32 := t.itemOffset.toNat_lt
  have hk64 : (UInt64.ofNat k).toNat = k := UInt64.toNat_ofNat_of_lt' (show k < 2 ^ 64 by
    simp only [indexEntrySize] at hlen
    omega)
  have hexist : ¬ t.items ≤ UInt64.ofNat k := by
    rw [UInt64.le_iff_toNat_le, hk64, h.items_eq]
    omega
  have hsize : (UInt64.ofNat k + 1).toNat = k + 1 := by
    rw [UInt64.toNat_add, hk64, UInt64.toNat_one]
    apply Nat.mod_eq_of_lt
    simp only [indexEntrySize] at hlen
    omega
  -- the index is padded with zero entries up to `k + 1` of them
  have hle1 : t.index.length ≤ (k + 1) * indexEntrySize := by
    rw [hlen]
    exact Nat.mul_le_mul_right _ (by omega)
  have hcut : truncateFreezerFile t.index (((UInt64.ofNat k + 1).toNat : ℤ) * (indexEntrySize : ℤ)) =
      .ok (t.index ++ List.replicate ((k + 1) * indexEntrySize - t.index.length) 0) := by
    rw [← Int.natCast_mul, hsize, truncateFreezerFile, os.Truncate_natCast, List.take_of_length_le hle1]
  -- and entry `k` is one of them
  have hread : os.ReadAt (t.index ++ List.replicate ((k + 1) * indexEntrySize - t.index.length) 0)
      (List.replicate indexEntrySize 0) (UInt64.ofNat k * indexEntrySize.toUInt64).toNat =
      (List.replicate indexEntrySize 0, true) := by
    have hoff : (UInt64.ofNat k * indexEntrySize.toUInt64).toNat = k * indexEntrySize := by
      have h6 : indexEntrySize.toUInt64.toNat = indexEntrySize := rfl
      rw [UInt64.toNat_mul, hk64, h6]
      apply Nat.mod_eq_of_lt
      simp only [indexEntrySize] at hk6 ⊢
      omega
    have hpast : t.index.length ≤ k * indexEntrySize := by
      rw [hlen]
      exact Nat.mul_le_mul_right _ (by omega)
    have hfits : k * indexEntrySize + (List.replicate indexEntrySize (0 : UInt8)).length ≤
        (t.index ++ List.replicate ((k + 1) * indexEntrySize - t.index.length) 0).length := by
      simp only [List.length_append, List.length_replicate]
      exact Nat.le_of_eq (by rw [Nat.add_sub_cancel' hle1, Nat.succ_mul])
    rw [hoff, os.ReadAt_of_le hfits, List.drop_append, List.drop_eq_nil_of_le hpast,
      List.nil_append, List.drop_replicate, List.take_replicate, List.length_replicate]
    congr
    simp only [indexEntrySize] at hpast hle1 ⊢
    omega
  have hzero : indexEntry.unmarshalBinary (List.replicate indexEntrySize 0) = ⟨0, 0⟩ := by decide
  -- so the head moves to file `0`, closing the files after it, and file `0` is emptied
  obtain ⟨t2, hat, hid2, hopen2, hidx2, hoff2⟩ := headAt_open_le
    (t := { t with index := t.index ++ List.replicate ((k + 1) * indexEntrySize - t.index.length) 0 })
    h.open_le 0
  have hhead : truncateFreezerFile (t2.data t2.headId) ((0 : UInt32).toNat : ℤ) = .ok [] := by
    rw [UInt32.toNat_zero, Int.natCast_zero, ← Int.natCast_zero, truncateFreezerFile, os.Truncate_natCast]
    simp
  have htrunc : t.truncate (UInt64.ofNat k) = .ok { t2 with
      disk := Function.update t2.disk t2.headId (some []), items := UInt64.ofNat k, headBytes := 0 } := by
    simp only [freezerTable.truncate, hexist, ↓reduceIte, hcut, Except.bind_ok, hread, Bool.not_true,
      Bool.false_eq_true, hzero]
    rw [hat, Except.bind_ok, hhead, Except.bind_ok]
    rfl
  refine ⟨_, htrunc, ?_⟩
  -- item `itemOffset` is the first item kept, and its bytes are not all gone
  obtain ⟨rest, rfl⟩ := List.head?_eq_some_iff.mp hb
  have he0 : 0 < es.length := by rw [hes]; exact Nat.zero_lt_succ _
  obtain ⟨hlen0, -, -⟩ := h.item 0 he0 (Nat.zero_lt_succ _)
  have hend0 : es[0].offset.toNat = b.length := by
    rw [← hlen0]
    simp [startOf]
  have ho64 : (UInt64.ofNat t.itemOffset.toNat).toNat = t.itemOffset.toNat :=
    UInt64.toNat_ofNat_of_lt' (show t.itemOffset.toNat < 2 ^ 64 by omega)
  have hin : ¬ UInt64.ofNat k ≤ UInt64.ofNat t.itemOffset.toNat := by
    rw [UInt64.le_iff_toNat_le, hk64, ho64]
    omega
  have hsame : UInt64.ofNat t.itemOffset.toNat = t2.itemOffset.toUInt64 := by
    rw [hoff2]
    apply UInt64.toNat_inj.mp
    rw [ho64, UInt32.toNat_toUInt64]
  have hr1 : os.ReadAt t2.index (List.replicate indexEntrySize 0) ((0 + 1) * indexEntrySize.toUInt64).toNat =
      (es[0].marshallBinary, true) := by
    have h1 : ((0 : UInt64) + 1).toNat < es.length + 1 := by
      rw [UInt64.zero_add, UInt64.toNat_one]
      omega
    rw [hidx2]
    show os.ReadAt (t.index ++ _) _ (((0 + 1 : UInt64) * indexEntrySize.toUInt64).toNat : ℕ) = _
    rw [os.ReadAt_append_of_le (by
        rw [List.length_replicate, hlen]
        have : ((0 + 1 : UInt64) * indexEntrySize.toUInt64).toNat = indexEntrySize := rfl
        rw [this]
        simp only [indexEntrySize]
        omega),
      h.ReadAt_index h1 List.length_replicate]
    rfl
  have hend := h.unmarshalBinary (List.getElem_mem he0)
  have hgb : ({ t2 with
      disk := Function.update t2.disk t2.headId (some [])
      items := UInt64.ofNat k
      headBytes := 0 } : freezerTable).getBounds 0 = .ok (0, es[0].offset, es[0].filenum) := by
    simp only [freezerTable.getBounds, hr1, hend, Bool.not_true, Bool.false_eq_true, ↓reduceIte, ne_eq,
      not_true_eq_false]
    rfl
  have hsub : UInt64.ofNat t.itemOffset.toNat - t2.itemOffset.toUInt64 = 0 := by
    rw [hsame, UInt64.sub_self]
  have hgt : ¬ t2.itemOffset.toUInt64 > UInt64.ofNat t.itemOffset.toNat := by
    rw [← hsame]
    exact UInt64.lt_irrefl _
  have hret : ∃ e, ({ t2 with
      disk := Function.update t2.disk t2.headId (some [])
      items := UInt64.ofNat k
      headBytes := 0 } : freezerTable).retrieve (UInt64.ofNat t.itemOffset.toNat) = .error e := by
    by_cases hf : t2.files es[0].filenum = true
    · -- the item's file is open only if it is file `0`, now empty
      have hf0 : es[0].filenum = 0 := by
        have := UInt32.le_iff_toNat_le.mp (hopen2 _ hf)
        apply UInt32.toNat_inj.mp
        rw [UInt32.toNat_zero] at this ⊢
        omega
      have hempty : ((Function.update t2.disk t2.headId (some [])) es[0].filenum).getD [] = [] := by
        rw [hf0, hid2, Function.update_self]
        rfl
      have hshort : (os.ReadAt [] (List.replicate (es[0].offset - 0).toNat 0) ((0 : UInt32).toNat : ℤ)).2 =
          false := by
        apply os.ReadAt_short
        · rw [UInt32.sub_zero, hend0, ne_eq, List.replicate_eq_nil_iff]
          exact Nat.pos_iff_ne_zero.mp (List.length_pos_of_ne_nil hb0)
        · rw [List.length_replicate, UInt32.sub_zero, hend0, List.length_nil]
          simp only [UInt32.toNat_zero, Int.natCast_zero, Int.toNat_zero, Nat.zero_add]
          exact List.length_pos_of_ne_nil hb0
      refine ⟨.io, ?_⟩
      simp only [freezerTable.retrieve, hin, ↓reduceIte, hgt, hsub, hgb,
        Except.bind_ok, hf, Bool.not_true, Bool.false_eq_true, freezerTable.data, hempty, hshort,
        Bool.not_false]
      rfl
    · -- closed with the files after file `0`
      refine ⟨.missingDataFile es[0].filenum, ?_⟩
      simp only [freezerTable.retrieve, hin, ↓reduceIte, hgt, hsub, hgb,
        Except.bind_ok, hf, Bool.not_false]
      rfl
  obtain ⟨e, he⟩ := hret
  exact ⟨e, by simp only [freezerTable.Retrieve, he, Except.bind_error]⟩

/-- A table that has deleted two items from its tail and holds items `2` and
`3`, the blobs `[1]` and `[2]`, both in file `0`: what `Append` of the two makes
of a table whose index is the entry `(0, 2)` alone. -/
def tailTable : freezerTable where
  items := 4
  noCompression := true
  maxFileSize := 2000000000
  files f := decide (f = 0)
  disk f := if f = 0 then some [1, 2] else none
  headId := 0
  tailId := 0
  index := [⟨0, 2⟩, ⟨0, 1⟩, ⟨0, 2⟩].flatMap indexEntry.marshallBinary
  itemOffset := 2
  headBytes := 2

theorem tailTable_layout : Layout tailTable [[1], [2]] [⟨0, 1⟩, ⟨0, 2⟩] := by
  have hzero : ∀ f : UInt32, f ≤ 0 → f = 0 := fun f hf => by
    apply UInt32.toNat_inj.mp
    have := UInt32.le_iff_toNat_le.mp hf
    rw [UInt32.toNat_zero] at this ⊢
    omega
  refine ⟨⟨rfl, rfl, rfl, by decide, by decide, by decide, by decide, by decide, by decide, rfl,
    fun f hf => ?_, fun f _ hf => ?_, fun j hj hb => ?_⟩, fun e he => ?_, fun h => by simp at h⟩
  · simp only [tailTable, decide_eq_true_eq] at hf
    rw [hf]
    exact UInt32.le_refl _
  · rw [hzero f hf]
    decide
  · simp only [List.length_cons, List.length_nil] at hj
    rcases j with _ | _ | j
    · decide +revert
    · decide +revert
    · omega
  · simp only [List.getLast?_cons_cons, List.getLast?_singleton, Option.mem_def, Option.some.injEq] at he
    subst he
    decide

/-- The identity as a block format, for a table that does not compress. -/
def rawCodec : snappy := ⟨id, Except.ok, fun _ => rfl⟩

theorem truncate_ignores_itemOffset_tailTable :
    Layout tailTable [[1], [2]] [⟨0, 1⟩, ⟨0, 2⟩] ∧ [[1], [2]].length < 3 ∧
      3 < tailTable.itemOffset.toNat + [[1], [2]].length ∧ tailTable.itemOffset.toNat < 3 ∧
      (3 + 1) * indexEntrySize < 2 ^ 64 ∧ [[(1 : UInt8)], [2]].head? = some [1] ∧ [(1 : UInt8)] ≠ [] ∧
      ∃ t', tailTable.truncate (UInt64.ofNat 3) = .ok t' ∧
        ∃ e, t'.Retrieve rawCodec (UInt64.ofNat tailTable.itemOffset.toNat) = .error e :=
  ⟨tailTable_layout, by decide, by decide, by decide, by decide, rfl, by decide,
    truncate_ignores_itemOffset tailTable_layout rawCodec (by decide) (by decide) (by decide) (by decide)
      rfl (by decide)⟩

-- and after the cut to three items, item `2` reads past the end of the emptied file `0`
example : (tailTable.truncate 3 >>= fun t => t.Retrieve rawCodec 2) = .error .io := by decide

/-- An item past the end of the table is out of bounds. -/
theorem retrieve_of_le {item : UInt64} (h : t.items ≤ item) : t.retrieve item = .error .errOutOfBounds := by
  simp [freezerTable.retrieve, h]

/-- **`Retrieve` gives back the blob that was appended**, decoded when the table
compresses. -/
theorem Stored.Retrieve (h : Stored t bs es) (codec : snappy) {i : ℕ} (hi : i < bs.length)
    {blob : List UInt8} (hblob : bs[i] = t.encode codec blob) :
    t.Retrieve codec (UInt64.ofNat (t.itemOffset.toNat + i)) = .ok blob := by
  rw [freezerTable.Retrieve, h.retrieve hi, Except.bind_ok, hblob, freezerTable.encode]
  cases hc : t.noCompression
  · simp only [Bool.not_false, ↓reduceIte, Bool.false_eq_true]
    exact codec.Decode_Encode blob
  · rfl

/-- `Append` of each blob in turn, each at the next item number. -/
def appendAll (codec : snappy) (t : freezerTable) : List (List UInt8) → Except FreezerError freezerTable
  | [] => .ok t
  | blob :: blobs => do
    let t ← t.Append codec t.items blob
    appendAll codec t blobs

/-- **A run of appends stores the blobs one after the other**, in as many files
as it takes, while the file numbers stay in their 16 bits. -/
theorem Layout.appendAll (h : Layout t bs es) (codec : snappy) (blobs : List (List UInt8))
    (hb32 : ∀ blob ∈ blobs, (t.encode codec blob).length < 2 ^ 32)
    (hhead : t.headId.toNat + blobs.length < 2 ^ 16)
    (hidx : t.index.length + blobs.length * indexEntrySize < 2 ^ 64) :
    ∃ t' es', appendAll codec t blobs = .ok t' ∧
      Layout t' (bs ++ blobs.map (t.encode codec)) (es ++ es') ∧ t'.itemOffset = t.itemOffset ∧
      t'.tailId = t.tailId ∧ t'.noCompression = t.noCompression ∧ t'.maxFileSize = t.maxFileSize := by
  induction blobs generalizing t bs es with
  | nil => exact ⟨t, [], rfl, by simpa using h, rfl, rfl, rfl, rfl⟩
  | cons blob blobs ih =>
    simp only [List.length_cons, List.mem_cons, forall_eq_or_imp] at hb32 hhead hidx
    obtain ⟨t1, e, happ, h1, hoff1, htail1, hnc1, hmax1, hid1⟩ :=
      h.Append codec blob hb32.1 (by omega) (by rw [Nat.succ_mul] at hidx; omega)
    have henc : t1.encode codec = t.encode codec := by
      funext b
      simp only [freezerTable.encode, hnc1]
    have hidx1 : t1.index.length = t.index.length + indexEntrySize := by
      rw [h1.length_index, h.length_index, List.length_append, List.length_singleton, Nat.succ_mul]
    obtain ⟨t', es', hrun, h', hoff', htail', hnc', hmax'⟩ :=
      ih h1 (fun b hb => henc ▸ hb32.2 b hb) (by omega) (by rw [hidx1, Nat.succ_mul] at *; omega)
    refine ⟨t', e :: es', ?_, ?_, hoff'.trans hoff1, htail'.trans htail1, hnc'.trans hnc1,
      hmax'.trans hmax1⟩
    · simp only [freezerTable.appendAll, happ, Except.bind_ok, hrun]
    · rw [henc] at h'
      simpa only [List.map_cons, List.append_assoc, List.singleton_append] using h'


-- `tailTable` is what two appends make of one whose index holds only the entry `(0, 2)`
example : ((({ tailTable with
      items := 2
      index := indexEntry.marshallBinary ⟨0, 2⟩
      disk := fun f => if f = 0 then some [] else none
      headBytes := 0 } : freezerTable).appendAll rawCodec [[1], [2]]).map
      fun t => (t.items, t.index, t.headBytes, t.data 0)) =
    .ok (tailTable.items, tailTable.index, tailTable.headBytes, tailTable.data 0) := by decide

end freezerTable

end rawdb

end PureChain
