import PureChain.Lib.Rlp

/-!
# Package `rlp`: the encoder's buffer

`rlp.EncodeToBytes` does not build the encoding front to back. The encoder
writes into an `encbuf`: the string data go into `str` as they come, while a
list only records a *list head* – where in `str` its header belongs and, once
the list is closed, its payload size. `listEnd` computes that size from the
buffer's running size, which counts the string data and every header closed so
far (`lhsize`); `toBytes` then interleaves the string data with the headers.

The model takes the buffer as the code has it (`encbuf`, `listhead`, `puthead`,
`putint`, `intsize`) and the writer of an item tree – a value built of
`[]interface{}` and `[]byte` – as `writeItem`: `writeBytes` for a string, and
for a list `w.list()`, the items, then `w.listEnd`.

What writing an item does to the buffer is `writeItem_spec`: it appends string
data and list heads that render, from where the item started, as the item's
encoding – whatever heads follow. So the buffer of a whole tree renders as its
encoding, and `EncodeToBytes` computes `Rlp.Item.encode`
(`EncodeToBytes_eq_encode`).
-/

namespace PureChain

namespace rlp

open Rlp

/-! ### Sizes and headers -/

/-- `intsize`: how many bytes `i` takes, one for zero. -/
def intsize (i : ℕ) : ℕ := if i / 256 = 0 then 1 else intsize (i / 256) + 1
decreasing_by omega

/-- `putint`: the big-endian bytes of `i`, `intsize i` of them. -/
def putint (i : ℕ) : List UInt8 :=
  if i < 256 then [UInt8.ofNat i] else putint (i / 256) ++ [UInt8.ofNat i]
decreasing_by omega

/-- `headsize`: the size of a header for a payload of `size` bytes. -/
def headsize (size : ℕ) : ℕ := if size < 56 then 1 else 1 + intsize size

/-- `puthead`: the one-byte header below 56 bytes, else the tag of the length's
length and the length. -/
def puthead (smalltag largetag : UInt8) (size : ℕ) : List UInt8 :=
  if size < 56 then [smalltag + UInt8.ofNat size]
  else (largetag + UInt8.ofNat (putint size).length) :: putint size

/-- `listhead`: where in the string data a list header belongs, and the list's
payload size (the running header size until the list is closed). -/
structure listhead where
  offset : ℕ
  size : ℕ

/-- `listhead.encode`. -/
def listhead.encode (head : listhead) : List UInt8 := puthead 0xC0 0xF7 head.size

/-- `encbuf`: the string data, the list heads, and the total size of the
headers of the lists closed so far. -/
structure encbuf where
  str : List UInt8
  lheads : List listhead
  lhsize : ℕ

namespace encbuf

/-- A buffer after `reset`. -/
def empty : encbuf := ⟨[], [], 0⟩

/-- `size`: the string data and the closed headers. -/
def size (w : encbuf) : ℕ := w.str.length + w.lhsize

/-- `encodeStringHeader`. -/
def encodeStringHeader (w : encbuf) (size : ℕ) : encbuf :=
  if size < 56 then { w with str := w.str ++ [0x80 + UInt8.ofNat size] }
  else { w with str := w.str ++ ((0xB7 + UInt8.ofNat (putint size).length) :: putint size) }

/-- `encodeString`: a single byte up to `0x7F` stands for itself. -/
def encodeString (w : encbuf) (b : List UInt8) : encbuf :=
  if b.length = 1 ∧ b.headD 0 ≤ 0x7F then { w with str := w.str ++ b }
  else
    let w := w.encodeStringHeader b.length
    { w with str := w.str ++ b }

/-- `list`: a head at the end of the string data, holding the header size so
far; its index is returned. -/
def list (w : encbuf) : ℕ × encbuf :=
  (w.lheads.length, { w with lheads := w.lheads ++ [⟨w.str.length, w.lhsize⟩] })

/-- `listEnd`: the payload size is what the buffer grew by since the head was
put, less the headers closed meanwhile; its header is counted. -/
def listEnd (w : encbuf) (index : ℕ) : encbuf :=
  let lh := w.lheads.getD index ⟨0, 0⟩
  let size := w.size - lh.offset - lh.size
  { w with
    lheads := w.lheads.set index { lh with size := size }
    lhsize := if size < 56 then w.lhsize + 1 else w.lhsize + (1 + intsize size) }

/-- The string data from `strpos` on, each head's header put in at its offset:
the loop of `toBytes`. -/
def render (str : List UInt8) (strpos : ℕ) : List listhead → List UInt8
  | [] => str.drop strpos
  | head :: heads =>
    (str.drop strpos).take (head.offset - strpos) ++ head.encode ++ render str head.offset heads

/-- `toBytes`. -/
def toBytes (w : encbuf) : List UInt8 := render w.str 0 w.lheads

end encbuf

open encbuf

mutual

/-- The writer of an item tree: `writeBytes` for a string; for a list,
`makeSliceWriter`'s `list`, the items through `writeInterface`, and `listEnd`. -/
def writeItem : Item → encbuf → encbuf
  | .str b, w => w.encodeString b
  | .list items, w =>
    let (index, w) := w.list
    (writeItems items w).listEnd index

/-- The items of a list, one after the other. -/
def writeItems : List Item → encbuf → encbuf
  | [], w => w
  | i :: is, w => writeItems is (writeItem i w)

end

/-- `EncodeToBytes` of an item tree. -/
def EncodeToBytes (val : Item) : List UInt8 := (writeItem val encbuf.empty).toBytes

/-! ### Headers are the headers of `Rlp` -/

section Header

theorem putint_eq_beBytes {i : ℕ} (h : 0 < i) : putint i = beBytes i := by
  induction i using Nat.strongRecOn with
  | _ i ih =>
    rw [putint, beBytes_of_pos h]
    split_ifs with hi
    · -- one byte: nothing above it
      rw [Nat.div_eq_of_lt hi, beBytes_zero, List.nil_append, UInt8.ofNat_mod_size]
    · rw [ih (i / 256) (by omega) (by omega), UInt8.ofNat_mod_size]

theorem length_putint (i : ℕ) : (putint i).length = intsize i := by
  induction i using Nat.strongRecOn with
  | _ i ih =>
    rw [putint, intsize]
    split_ifs with h1 h2 h2
    · rfl
    · omega
    · omega
    · rw [List.length_append, ih (i / 256) (by omega), List.length_singleton]

/-- `puthead` with a tag and the tag 55 above it is the header of `Rlp`. -/
theorem puthead_eq_header (short size : ℕ) :
    puthead (UInt8.ofNat short) (UInt8.ofNat (short + 55)) size = header short size := by
  unfold puthead header
  split_ifs with h1 h2 h2
  · rw [UInt8.ofNat_add]
  · omega
  · omega
  · rw [putint_eq_beBytes (by omega), ← UInt8.ofNat_add]

theorem length_puthead (smalltag largetag : UInt8) (size : ℕ) :
    (puthead smalltag largetag size).length = headsize size := by
  unfold puthead headsize
  split_ifs
  · rfl
  · rw [List.length_cons, length_putint]
    omega

theorem listhead_encode (head : listhead) : head.encode = header 0xc0 head.size :=
  puthead_eq_header 0xc0 head.size

end Header

/-! ### The buffer operations -/

namespace encbuf

variable (w : encbuf)

@[simp] theorem str_encodeString (b : List UInt8) :
    (w.encodeString b).str = w.str ++ Rlp.encodeString b := by
  unfold encbuf.encodeString encodeStringHeader
  rcases Rlp.encodeString_cases b with ⟨c, rfl, hc, he⟩ | he
  · have hc' : c ≤ 0x7F := by
      rw [UInt8.le_iff_toNat_le]
      exact Nat.le_of_lt_succ hc
    simp [he, hc']
  · rw [he, ← puthead_eq_header 0x80 b.length, puthead]
    by_cases h1 : b.length = 1 ∧ b.headD 0 ≤ 0x7F
    · -- a single byte up to `0x7F` is never encoded behind a header
      obtain ⟨hl, hb⟩ := h1
      obtain ⟨c, rfl⟩ := List.length_eq_one_iff.mp hl
      have hc : c.toNat < 0x80 := by
        rw [UInt8.le_iff_toNat_le] at hb
        simpa using Nat.lt_succ_of_le hb
      simp [Rlp.encodeString, hc, header] at he
    · rw [if_neg h1]
      split_ifs <;> simp

@[simp] theorem lheads_encodeString (b : List UInt8) : (w.encodeString b).lheads = w.lheads := by
  unfold encbuf.encodeString encodeStringHeader
  split_ifs <;> rfl

@[simp] theorem lhsize_encodeString (b : List UInt8) : (w.encodeString b).lhsize = w.lhsize := by
  unfold encbuf.encodeString encodeStringHeader
  split_ifs <;> rfl

/-- `listEnd` on the head it was given: the head's size set to what the buffer
grew by, and its header counted. -/
theorem listEnd_eq {index : ℕ} {lh : listhead} (hlh : w.lheads.getD index ⟨0, 0⟩ = lh) :
    w.listEnd index =
      { w with
        lheads := w.lheads.set index { lh with size := w.size - lh.offset - lh.size }
        lhsize := w.lhsize + headsize (w.size - lh.offset - lh.size) } := by
  unfold listEnd headsize
  rw [hlh]
  dsimp only
  split_ifs <;> rfl

/-- `render` from `strpos` takes the next `n` bytes of string data as they are,
when no header comes before them. -/
theorem render_advance (str : List UInt8) {strpos n : ℕ} {heads : List listhead}
    (h : ∀ head ∈ heads, strpos + n ≤ head.offset) :
    render str strpos heads = (str.drop strpos).take n ++ render str (strpos + n) heads := by
  cases heads with
  | nil =>
    rw [render, render, ← List.drop_drop, List.take_append_drop]
  | cons head heads =>
    have hh := h head List.mem_cons_self
    rw [render, render, ← List.append_assoc, ← List.append_assoc]
    congr 2
    -- the data before the header split at `n`
    have hsplit : head.offset - strpos = n + (head.offset - (strpos + n)) := by omega
    rw [hsplit, List.take_add, List.drop_drop]

end encbuf

/-! ### Writing an item -/

section Write

/-- A head put in the middle of the list is updated in place. -/
theorem set_append_cons {α : Type} (l r : List α) (a b : α) :
    (l ++ a :: r).set l.length b = l ++ b :: r := by
  induction l with
  | nil => rfl
  | cons x l ih => simp [ih]

theorem getD_append_cons {α : Type} (l r : List α) (a d : α) :
    (l ++ a :: r).getD l.length d = a := by
  simp

mutual

/-- **What writing an item does to the buffer.** It appends string data `S`
and list heads `H` placed within the new data, grows the buffer's size by the
length of the item's encoding, and the heads render the data, from where the
item started, as the item's encoding – whatever data and heads come after. -/
theorem writeItem_spec : ∀ (t : Item) (w : encbuf), ∃ S H,
    (writeItem t w).str = w.str ++ S ∧ (writeItem t w).lheads = w.lheads ++ H ∧
      (∀ h ∈ H, w.str.length ≤ h.offset) ∧
      (writeItem t w).size = w.size + t.encode.length ∧
      ∀ B K, (∀ k ∈ K, w.str.length + S.length ≤ k.offset) →
        render (w.str ++ S ++ B) w.str.length (H ++ K) =
          t.encode ++ render (w.str ++ S ++ B) (w.str.length + S.length) K
  | .str b, w => by
    refine ⟨Rlp.encodeString b, [], by simp [writeItem], by simp [writeItem], by simp, ?_, ?_⟩
    · simp [writeItem, encbuf.size]
      omega
    · intro B K hK
      rw [List.nil_append, encode_str, render_advance _ hK, List.append_assoc, List.drop_left,
        List.take_left]
  | .list items, w => by
    set w₁ : encbuf := { w with lheads := w.lheads ++ [⟨w.str.length, w.lhsize⟩] }
    obtain ⟨S, H, hstr, hheads, hoff, hsize, hrender⟩ := writeItems_spec items w₁
    -- `listEnd` finds its head where `list` put it
    have hget : (writeItems items w₁).lheads.getD w.lheads.length ⟨0, 0⟩ =
        ⟨w.str.length, w.lhsize⟩ := by
      rw [hheads, List.append_assoc, List.singleton_append, getD_append_cons]
    -- and the payload size it computes is the payload's length
    have hpay : (writeItems items w₁).size - w.str.length - w.lhsize =
        (Item.encodeAll items).length := by
      rw [hsize]
      simp only [w₁, encbuf.size]
      omega
    have hw : writeItem (.list items) w = (writeItems items w₁).listEnd w.lheads.length := rfl
    rw [hw, listEnd_eq _ hget]
    simp only [hpay]
    refine ⟨S, ⟨w.str.length, (Item.encodeAll items).length⟩ :: H, hstr, ?_, ?_, ?_, ?_⟩
    · rw [hheads, List.append_assoc, List.singleton_append, set_append_cons]
    · intro h hh
      rcases List.mem_cons.mp hh with rfl | hh
      · exact Nat.le_refl _
      · exact hoff h hh
    · rw [encode_list, List.length_append, ← puthead_eq_header, length_puthead]
      simp only [encbuf.size, w₁] at hsize ⊢
      rw [hstr] at hsize ⊢
      omega
    · intro B K hK
      rw [List.cons_append, render, Nat.sub_self, List.take_zero, List.nil_append, hrender B K hK,
        listhead_encode, encode_list]
      simp only [List.append_assoc]
      rfl

/-- What writing the items of a list does to the buffer: their payload. -/
theorem writeItems_spec : ∀ (items : List Item) (w : encbuf), ∃ S H,
    (writeItems items w).str = w.str ++ S ∧ (writeItems items w).lheads = w.lheads ++ H ∧
      (∀ h ∈ H, w.str.length ≤ h.offset) ∧
      (writeItems items w).size = w.size + (Item.encodeAll items).length ∧
      ∀ B K, (∀ k ∈ K, w.str.length + S.length ≤ k.offset) →
        render (w.str ++ S ++ B) w.str.length (H ++ K) =
          Item.encodeAll items ++ render (w.str ++ S ++ B) (w.str.length + S.length) K
  | [], w =>
    ⟨[], [], by simp [writeItems], by simp [writeItems], by simp, by simp [writeItems], by simp⟩
  | i :: is, w => by
    obtain ⟨S₁, H₁, hstr₁, hheads₁, hoff₁, hsize₁, hrender₁⟩ := writeItem_spec i w
    obtain ⟨S₂, H₂, hstr₂, hheads₂, hoff₂, hsize₂, hrender₂⟩ := writeItems_spec is (writeItem i w)
    rw [hstr₁] at hstr₂ hrender₂ hoff₂
    rw [hheads₁] at hheads₂
    simp only [List.length_append] at hoff₂ hrender₂
    refine ⟨S₁ ++ S₂, H₁ ++ H₂, ?_, ?_, ?_, ?_, ?_⟩
    · rw [writeItems, hstr₂, List.append_assoc]
    · rw [writeItems, hheads₂, List.append_assoc]
    · intro h hh
      rcases List.mem_append.mp hh with hh | hh
      · exact hoff₁ h hh
      · have := hoff₂ h hh
        omega
    · rw [writeItems, hsize₂, hsize₁, encodeAll_cons, List.length_append, Nat.add_assoc]
    · intro B K hK
      simp only [List.length_append] at hK
      -- the rest's heads, and those after, start where the first item's data end
      have hK₁ : ∀ k ∈ H₂ ++ K, w.str.length + S₁.length ≤ k.offset := by
        intro k hk
        rcases List.mem_append.mp hk with hk | hk
        · exact hoff₂ k hk
        · have := hK k hk
          omega
      have hK₂ : ∀ k ∈ K, w.str.length + S₁.length + S₂.length ≤ k.offset := by
        intro k hk
        have := hK k hk
        omega
      have e₁ := hrender₁ (S₂ ++ B) (H₂ ++ K) hK₁
      have e₂ := hrender₂ B K hK₂
      simp only [List.append_assoc] at e₁ e₂ ⊢
      rw [e₁, e₂, encodeAll_cons, List.length_append, Nat.add_assoc, List.append_assoc]

end

/-- **The encoder computes the RLP encoding of the tree.** -/
theorem EncodeToBytes_eq_encode (t : Item) : EncodeToBytes t = t.encode := by
  obtain ⟨S, H, hstr, hheads, -, -, hrender⟩ := writeItem_spec t encbuf.empty
  have h := hrender [] [] (fun _ hk => nomatch hk)
  simp only [encbuf.empty, List.nil_append, List.append_nil, List.length_nil, Nat.zero_add,
    render, List.drop_length] at h
  rw [EncodeToBytes, toBytes, hstr, hheads]
  exact h

/-- The buffer `toBytes` allocates, of the encoder's running size, is filled
exactly. -/
theorem size_writeItem_empty (t : Item) :
    (writeItem t encbuf.empty).size = (EncodeToBytes t).length := by
  obtain ⟨-, -, -, -, -, hsize, -⟩ := writeItem_spec t encbuf.empty
  rw [hsize, EncodeToBytes_eq_encode]
  simp [encbuf.size, encbuf.empty]

end Write

end rlp

end PureChain
