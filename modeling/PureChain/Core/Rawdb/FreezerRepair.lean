import PureChain.Core.Rawdb.FreezerTable

/-!
# Package `rawdb`: opening a freezer table after a crash

`newCustomTable` opens a table over the index file and the data files as a
crash left them, and `repair` brings the two back in step: it cuts a torn
entry off the end of the index, reads the first entry for the tail and the last
for the head, and then, in `repairLoop`, cuts the head file back to where the
last entry ends, or drops the last entry when the head file ends before it,
slipping back to an earlier file when the entry before is in one. The number of
items is what is left of the index, less the first entry.

A crash here keeps the first `a` bytes of the index and the first `c` of the
head file (`crash`). The loop stops at the last entry whose item is still all
there, so that a crash which keeps at least the first entry leaves the items
before the first one it damaged. A crash that keeps less than the first entry
does not: the index is cut to nothing, and the count of its entries less one
is `-1`, which the source turns into the `uint64` `2 ^ 64 - 1`
(`newCustomTable_torn_first_entry`).
-/

namespace PureChain

namespace rawdb

/-- A truncation succeeds only at a size that is not negative, which the file
then has. -/
theorem truncateFreezerFile_ok {f g : List UInt8} {size : ℤ} (h : truncateFreezerFile f size = .ok g) :
    0 ≤ size ∧ g.length = size.toNat := by
  unfold truncateFreezerFile at h
  split at h
  · cases h
    exact os.length_of_Truncate (by assumption)
  · cases h

theorem truncateFreezerFile_of_le {f : List UInt8} {size : ℕ} (h : size ≤ f.length) :
    truncateFreezerFile f size = .ok (f.take size) := by
  rw [truncateFreezerFile, os.Truncate_of_le h]

namespace freezerTable

set_option linter.unusedVariables false in
/-- The loop of `repair`: `lastIndex` is the last entry of the index, which is
`offsetsSize` bytes long, and `contentSize` the size of the head file, the file
of `lastIndex`. The result is the table and the last entry, the size of the
index and the size of the head file once they agree. -/
def repairLoop (t : freezerTable) (lastIndex : indexEntry) (buffer : List UInt8)
    (offsetsSize contentSize : ℤ) : Except FreezerError (freezerTable × indexEntry × ℤ × ℤ) :=
  let contentExp : ℤ := lastIndex.offset.toNat
  if contentExp = contentSize then .ok (t, lastIndex, offsetsSize, contentSize)
  else if contentExp < contentSize then do
    -- the head file is cut to the last offset, after which the loop's test fails
    let head ← truncateFreezerFile (t.data lastIndex.filenum) contentExp
    pure ({ t with disk := Function.update t.disk lastIndex.filenum (some head) }, lastIndex, offsetsSize,
      contentExp)
  else
    -- the index is cut by an entry; the read of the entry before it may fail, and
    -- the buffer then keeps what it held
    match h : truncateFreezerFile t.index (offsetsSize - indexEntrySize) with
    | .error e => .error e
    | .ok index =>
      let offsetsSize := offsetsSize - indexEntrySize
      let (buffer, _) := os.ReadAt index buffer (offsetsSize - indexEntrySize)
      let newLastIndex := indexEntry.unmarshalBinary buffer
      if newLastIndex.filenum ≠ lastIndex.filenum then do
        -- slipped back into an earlier file, which becomes the head
        let t ← ({ t with index } : freezerTable).releaseFile lastIndex.filenum |>.openFile
          newLastIndex.filenum .openFreezerFileForAppend
        repairLoop t newLastIndex buffer offsetsSize (t.data newLastIndex.filenum).length
      else repairLoop { t with index } newLastIndex buffer offsetsSize contentSize
termination_by offsetsSize.toNat
decreasing_by
  all_goals
    have := (truncateFreezerFile_ok h).1
    simp only [indexEntrySize] at this ⊢
    omega

/-- `preopen`: the files from the tail to the head opened, the ones before the
head for reading and the head for appending. -/
def preopen (t : freezerTable) : Except FreezerError freezerTable := do
  -- the repair might have opened some files already
  let t := t.releaseFilesAfter 0 false
  let t ← (List.range' t.tailId.toNat (t.headId.toNat - t.tailId.toNat)).foldlM
    (fun t i => t.openFile (UInt32.ofNat i) .openFreezerFileForReadOnly) t
  t.openFile t.headId .openFreezerFileForAppend

/-- `repair`: the index and the head file cut until they agree, and the counters
set from what is left of them. -/
def repair (t : freezerTable) : Except FreezerError freezerTable := do
  let buffer := List.replicate indexEntrySize 0
  let size : ℤ := t.index.length
  -- a new index starts with the zero entry
  let index := if size = 0 then t.index ++ buffer else t.index
  -- a torn entry at the end is cut off, and an error there ignored
  let overflow := size.tmod indexEntrySize
  let index :=
    if overflow ≠ 0 then
      match truncateFreezerFile index (size - overflow) with
      | .ok index => index
      | .error _ => index
    else index
  let offsetsSize : ℤ := index.length
  let (buffer, _) := os.ReadAt index buffer 0
  let firstIndex := indexEntry.unmarshalBinary buffer
  let (buffer, _) := os.ReadAt index buffer (offsetsSize - indexEntrySize)
  let lastIndex := indexEntry.unmarshalBinary buffer
  let t ← ({ t with index, tailId := firstIndex.filenum, itemOffset := firstIndex.offset } :
    freezerTable).openFile lastIndex.filenum .openFreezerFileForAppend
  let (t, lastIndex, offsetsSize, contentSize) ←
    t.repairLoop lastIndex buffer offsetsSize (t.data lastIndex.filenum).length
  -- the last entry points to the end of the head file
  preopen { t with
    items := t.itemOffset.toUInt64 + UInt64.ofInt (offsetsSize.tdiv indexEntrySize - 1)
    headBytes := UInt32.ofInt contentSize
    headId := lastIndex.filenum }

/-- `newCustomTable`: a table over an index file and data files as `disk` holds
them, with no file open yet, repaired. -/
def newCustomTable (index : List UInt8) (disk : UInt32 → Option (List UInt8)) (maxFilesize : UInt32)
    (noCompression : Bool) : Except FreezerError freezerTable :=
  repair
    { items := 0, noCompression, maxFileSize := maxFilesize, files := fun _ => false, disk, headId := 0,
      tailId := 0, index, itemOffset := 0, headBytes := 0 }

/-- What a crash leaves of a table: the first `a` bytes of its index, and the
data files with the first `c` bytes of the head file. -/
def crash (t : freezerTable) (a c : ℕ) : List UInt8 × (UInt32 → Option (List UInt8)) :=
  (t.index.take a, Function.update t.disk t.headId (some ((t.data t.headId).take c)))

/-- The table `newCustomTable` opens after a crash of `t`. -/
def reopen (t : freezerTable) (a c : ℕ) : Except FreezerError freezerTable :=
  newCustomTable (t.crash a c).1 (t.crash a c).2 t.maxFileSize t.noCompression

variable {t : freezerTable} {bs : List (List UInt8)} {es : List indexEntry}

/-- Opening a file changes only which files are open and what they hold. -/
theorem openFile_frame {num : UInt32} {o : opener} {t' : freezerTable} (h : t.openFile num o = .ok t') :
    t' = { t with files := t'.files, disk := t'.disk } := by
  unfold openFile at h
  split at h
  · cases h
    rfl
  · obtain ⟨f, -, hf⟩ := Except.bind_eq_ok.mp h
    cases Except.pure_eq_ok.mp hf
    rfl

/-- Opening for appending never fails, and keeps the bytes of a file that is on
disk or not open. -/
theorem openFile_forAppend (num : UInt32) (hopen : t.files num = true → (t.disk num).isSome) :
    t.openFile num .openFreezerFileForAppend = .ok { t with
      files := Function.update t.files num true
      disk := Function.update t.disk num (some (t.data num)) } := by
  unfold openFile
  split
  · next hf =>
    obtain ⟨x, hx⟩ := Option.isSome_iff_exists.mp (hopen hf)
    have hfiles : Function.update t.files num true = t.files := by
      rw [← hf, Function.update_eq_self]
    have hdisk : Function.update t.disk num (some (t.data num)) = t.disk := by
      rw [data, hx, Option.getD_some, ← hx, Function.update_eq_self]
    rw [hfiles, hdisk]
  · rfl

/-- Opening for reading a file that is on disk never fails and keeps its bytes. -/
theorem openFile_forReadOnly {num : UInt32} (hdisk : (t.disk num).isSome) :
    t.openFile num .openFreezerFileForReadOnly = .ok { t with files := Function.update t.files num true } := by
  obtain ⟨x, hx⟩ := Option.isSome_iff_exists.mp hdisk
  unfold openFile
  split
  · next hf =>
    rw [← hf, Function.update_eq_self]
  · simp only [hx, opener.contents, Except.bind_ok]
    rw [← hx, Function.update_eq_self]
    rfl

/-- The loop ends at once when the head file is as long as the last entry says,
or longer, cutting it there. -/
theorem repairLoop_of_le {lastIndex : indexEntry} (buffer : List UInt8) (offsetsSize : ℤ)
    (hdisk : (t.disk lastIndex.filenum).isSome)
    (hle : lastIndex.offset.toNat ≤ (t.data lastIndex.filenum).length) :
    t.repairLoop lastIndex buffer offsetsSize (t.data lastIndex.filenum).length =
      .ok ({ t with
          disk := Function.update t.disk lastIndex.filenum
            (some ((t.data lastIndex.filenum).take lastIndex.offset.toNat)) },
        lastIndex, offsetsSize, lastIndex.offset.toNat) := by
  rw [repairLoop]
  by_cases heq : lastIndex.offset.toNat = (t.data lastIndex.filenum).length
  · -- nothing to cut: the file is left as it is
    obtain ⟨x, hx⟩ := Option.isSome_iff_exists.mp hdisk
    have hkeep : Function.update t.disk lastIndex.filenum
        (some ((t.data lastIndex.filenum).take lastIndex.offset.toNat)) = t.disk := by
      rw [heq, List.take_length, data, hx, Option.getD_some, ← hx, Function.update_eq_self]
    rw [hkeep, if_pos (congrArg Nat.cast heq), heq]
  · have hlt : (lastIndex.offset.toNat : ℤ) < (t.data lastIndex.filenum).length := by omega
    rw [if_neg (by omega), if_pos hlt, truncateFreezerFile_of_le hle, Except.bind_ok]
    rfl

/-- Opening for reading, one after the other, files that are all on disk opens
them and keeps their bytes. -/
theorem foldlM_openFile_forReadOnly (L : List ℕ) (t : freezerTable)
    (hL : ∀ i ∈ L, (t.disk (UInt32.ofNat i)).isSome) :
    L.foldlM (fun t i => t.openFile (UInt32.ofNat i) .openFreezerFileForReadOnly) t =
      .ok { t with files := fun f => t.files f || decide (∃ i ∈ L, UInt32.ofNat i = f) } := by
  induction L generalizing t with
  | nil => simp
  | cons i L ih =>
    rw [List.foldlM_cons, openFile_forReadOnly (hL i List.mem_cons_self), Except.bind_ok,
      ih { t with files := Function.update t.files (UInt32.ofNat i) true }
        (fun j hj => hL j (List.mem_cons_of_mem i hj))]
    congr
    funext f
    by_cases hf : f = UInt32.ofNat i
    · subst hf
      simp
    · simp [Function.update_of_ne hf, Ne.symm hf]

/-- The files a loop `for i := a; i < b; i++` visits. -/
theorem exists_mem_range' {a b f : UInt32} :
    (∃ i ∈ List.range' a.toNat (b.toNat - a.toNat), UInt32.ofNat i = f) ↔ a ≤ f ∧ f < b := by
  rw [UInt32.le_iff_toNat_le, UInt32.lt_iff_toNat_lt]
  constructor
  · rintro ⟨i, hi, rfl⟩
    rw [List.mem_range'_1] at hi
    rw [UInt32.toNat_ofNat_of_lt' (show i < 2 ^ 32 by have := b.toNat_lt; omega)]
    omega
  · intro hf
    refine ⟨f.toNat, List.mem_range'_1.mpr (by omega), UInt32.ofNat_toNat⟩

/-- **`preopen` opens every file from the tail to the head**, when they are all
on disk, and keeps the bytes of every file; of the files open before, only file
`0` stays open. -/
theorem preopen_eq (hth : t.tailId ≤ t.headId)
    (hdisk : ∀ f, t.tailId ≤ f → f ≤ t.headId → (t.disk f).isSome) :
    t.preopen = .ok { t with
      files := fun f => (t.files f && !decide (0 < f)) || decide (t.tailId ≤ f ∧ f ≤ t.headId) } := by
  have hkeep : (t.releaseFilesAfter 0 false).disk = t.disk := by
    funext f
    simp [releaseFilesAfter]
  have hrange : ∀ i ∈ List.range' t.tailId.toNat (t.headId.toNat - t.tailId.toNat),
      ((t.releaseFilesAfter 0 false).disk (UInt32.ofNat i)).isSome := fun i hi => by
    obtain ⟨h1, h2⟩ := exists_mem_range'.1 ⟨i, hi, rfl⟩
    rw [hkeep]
    exact hdisk _ h1 (UInt32.le_of_lt h2)
  have htl : (t.releaseFilesAfter 0 false).tailId = t.tailId := rfl
  have hhd : (t.releaseFilesAfter 0 false).headId = t.headId := rfl
  rw [preopen]
  simp only [htl, hhd]
  rw [foldlM_openFile_forReadOnly _ _ hrange, Except.bind_ok, openFile_forAppend _ (fun _ => by
    rw [hkeep]; exact hdisk _ hth (UInt32.le_refl _))]
  obtain ⟨x, hx⟩ := Option.isSome_iff_exists.mp (hdisk _ hth (UInt32.le_refl _))
  have hdisk' : Function.update t.disk t.headId (some ((t.disk t.headId).getD [])) = t.disk := by
    rw [hx, Option.getD_some, ← hx, Function.update_eq_self]
  simp only [releaseFilesAfter, data, Bool.false_and, Bool.false_eq_true, ↓reduceIte, hdisk']
  congr
  funext f
  -- the head is opened last; the loop opened the files before it
  by_cases hf : f = t.headId
  · subst hf
    simp [hth]
  · rw [Function.update_of_ne hf]
    simp only [exists_mem_range', UInt32.lt_iff_le_and_ne, ne_eq, hf, not_false_eq_true, and_true]

/-- `getBounds` of a table whose index holds nothing reads past its end. -/
theorem getBounds_of_index_nil (h : t.index = []) (item : UInt64) : t.getBounds item = .error .io := by
  simp only [getBounds, h, os.ReadAt_nil (show List.replicate indexEntrySize (0 : UInt8) ≠ [] by decide),
    Bool.not_false, ↓reduceIte]
  rfl

/-- **An index that keeps less than one whole entry is cut to nothing**, and the
table then counts `2 ^ 64 - 1` items: the count of its entries less one, `-1`,
as a `uint64`. -/
theorem repair_torn_index (hpos : 0 < t.index.length) (h6 : t.index.length < indexEntrySize)
    (hclosed : ∀ f, t.files f = false) :
    ∃ t', t.repair = .ok t' ∧ t'.items = 0xFFFFFFFFFFFFFFFF ∧ t'.index = [] := by
  have hne : (t.index.length : ℤ) ≠ 0 := by omega
  have hover : (t.index.length : ℤ).tmod indexEntrySize = t.index.length := by
    rw [Int.tmod_eq_emod_of_nonneg (Int.natCast_nonneg _)]
    exact Int.emod_eq_of_lt (Int.natCast_nonneg _) (by simp only [indexEntrySize] at h6 ⊢; omega)
  -- the torn entry is cut off, and with it the whole index
  have hcut : truncateFreezerFile t.index ((t.index.length : ℤ) - t.index.length) = .ok [] := by
    rw [Int.sub_self]
    exact truncateFreezerFile_of_le (Nat.zero_le t.index.length)
  have hbuf : List.replicate indexEntrySize (0 : UInt8) ≠ [] := by decide
  have hzero : indexEntry.unmarshalBinary (List.replicate indexEntrySize 0) = ⟨0, 0⟩ := by decide
  -- no entry less one, as a `uint64`
  have hwrap : (0 : UInt32).toUInt64 + UInt64.ofInt (((0 : ℕ) : ℤ).tdiv indexEntrySize - 1) =
      0xFFFFFFFFFFFFFFFF := by decide
  simp only [repair, hne, ↓reduceIte, hover, ne_eq, not_false_eq_true, hcut, List.length_nil,
    os.ReadAt_nil hbuf, hzero]
  -- file `0`, the file of the zero entry, is opened and cut to nothing
  rw [openFile_forAppend _ (fun h => absurd h (by simp [hclosed])), Except.bind_ok,
    repairLoop_of_le _ _ ?hdisk ?hle, Except.bind_ok, preopen_eq (UInt32.le_refl _) ?hopen]
  · exact ⟨_, rfl, hwrap, rfl⟩
  case hdisk => simp
  case hle => simp
  case hopen =>
    intro f _ hf
    have hf0 : f = 0 := UInt32.toNat_inj.mp (by
      have := UInt32.le_iff_toNat_le.mp hf
      simp only [UInt32.toNat_zero] at this ⊢
      omega)
    subst hf0
    simp

/-- A table whose index holds nothing has no item that can be read. -/
theorem retrieve_of_index_nil (h : t.index = []) (item : UInt64) : ∃ e, t.retrieve item = .error e := by
  unfold retrieve
  by_cases hout : t.items ≤ item
  · exact ⟨.errOutOfBounds, by simp [hout]⟩
  · by_cases htail : t.itemOffset.toUInt64 > item
    · exact ⟨.errOutOfBounds, by simp [hout, htail]⟩
    · exact ⟨.io, by simp [hout, htail, getBounds_of_index_nil h]⟩

/-- **A crash that leaves less than one whole entry of the index makes the
reopened table count `2 ^ 64 - 1` items**, where none is left, and none of them
can be read. -/
theorem reopen_torn_first_entry (h : Layout t bs es) (codec : snappy) {a : ℕ} (ha : 0 < a)
    (ha6 : a < indexEntrySize) (c : ℕ) :
    ∃ t', t.reopen a c = .ok t' ∧ t'.items = 0xFFFFFFFFFFFFFFFF ∧
      ∀ i, ∃ e, t'.Retrieve codec i = .error e := by
  have hlen : (t.index.take a).length = a := by
    rw [List.length_take, h.length_index]
    simp only [indexEntrySize] at ha6 ⊢
    exact Nat.min_eq_left (by omega)
  -- the table `newCustomTable` repairs
  let t0 : freezerTable :=
    { items := 0, noCompression := t.noCompression, maxFileSize := t.maxFileSize, files := fun _ => false,
      disk := (t.crash a c).2, headId := 0, tailId := 0, index := (t.crash a c).1, itemOffset := 0,
      headBytes := 0 }
  obtain ⟨t', hrep, hitems, hidx⟩ := repair_torn_index (t := t0) (by simp only [t0, crash, hlen]; exact ha)
    (by simp only [t0, crash, hlen]; exact ha6) (fun _ => rfl)
  refine ⟨t', hrep, hitems, fun i => ?_⟩
  obtain ⟨e, he⟩ := retrieve_of_index_nil hidx i
  exact ⟨e, by simp only [Retrieve, he, Except.bind_error]⟩

/-- The table one `Append` of the blob `[7]` makes of a new one: file `0` holds
the blob, and the index the zero entry and the end of the item. -/
def oneItemTable : freezerTable where
  items := 1
  noCompression := true
  maxFileSize := 2000000000
  files f := decide (f = 0)
  disk f := if f = 0 then some [7] else none
  headId := 0
  tailId := 0
  index := [⟨0, 0⟩, ⟨0, 1⟩].flatMap indexEntry.marshallBinary
  itemOffset := 0
  headBytes := 1

-- a new table, with its zero entry and an empty file `0`, takes `[7]` to `oneItemTable`
example : (({ oneItemTable with
      items := 0
      index := indexEntry.marshallBinary ⟨0, 0⟩
      disk := fun f => if f = 0 then some [] else none
      headBytes := 0 } : freezerTable).appendAll rawCodec [[7]]).map
      (fun t => (t.items, t.index, t.headBytes, t.data 0)) =
    .ok (oneItemTable.items, oneItemTable.index, oneItemTable.headBytes, oneItemTable.data 0) := by decide

theorem oneItemTable_layout : Layout oneItemTable [[7]] [⟨0, 1⟩] := by
  have hzero : ∀ f : UInt32, f ≤ 0 → f = 0 := fun f hf => by
    apply UInt32.toNat_inj.mp
    have := UInt32.le_iff_toNat_le.mp hf
    rw [UInt32.toNat_zero] at this ⊢
    omega
  refine ⟨⟨rfl, rfl, rfl, by decide, by decide, by decide, by decide, by decide, by decide, rfl,
    fun f hf => ?_, fun f _ hf => ?_, fun j hj hb => ?_⟩, fun e he => ?_, fun h => by simp at h⟩
  · simp only [oneItemTable, decide_eq_true_eq] at hf
    rw [hf]
    exact UInt32.le_refl _
  · rw [hzero f hf]
    decide
  · simp only [List.length_cons, List.length_nil] at hj
    rcases j with _ | j
    · decide +revert
    · omega
  · simp only [List.getLast?_singleton, Option.mem_def, Option.some.injEq] at he
    subst he
    decide

theorem reopen_torn_first_entry_oneItemTable :
    Layout oneItemTable [[7]] [⟨0, 1⟩] ∧ 0 < 3 ∧ 3 < indexEntrySize ∧
      ∃ t', oneItemTable.reopen 3 1 = .ok t' ∧ t'.items = 0xFFFFFFFFFFFFFFFF ∧
        ∀ i, ∃ e, t'.Retrieve rawCodec i = .error e :=
  ⟨oneItemTable_layout, by decide, by decide,
    reopen_torn_first_entry oneItemTable_layout rawCodec (by decide) (by decide) 1⟩

end freezerTable

end rawdb

end PureChain
