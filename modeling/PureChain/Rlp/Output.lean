import PureChain.Rlp.Int

/-!
# Package `rlp`: the encoder's three outputs

Once a value is written into an `encbuf`, the package hands the encoding out in
three ways: `toBytes` copies it into one slice (`EncodeToBytes`), `toWriter`
writes it to an `io.Writer` piece by piece (`Encode`), and an `encReader`
returns it through `Read` calls on buffers of any size (`EncodeToReader`). All
three walk the string data and put each list head's header in at its offset.

A value is written by the buffer's own operations: `encodeString` for a byte
string, `encodeUint` for a `uint64`, and `list()` … `listEnd(index)` around the
items of a list (`Val`, `writeVal`). A well-nested sequence of these operations
is the writing of such a tree.

The walks of `toWriter` and `encReader` advance their position in the string
data to each head's offset, so they rely on the heads coming in the order of
their offsets, all within the string data (`encbuf.Ordered`); every write keeps
that (`writeItem_ordered`). On such a buffer `toWriter` writes what `toBytes`
returns (`toWriter_eq_toBytes`), and each `Read` returns the next bytes of it,
with `io.EOF` once they are used up (`encReader.Read_spec`). The reader's state
is read as the bytes it has still to return (`encReader.rest`): the piece it
holds, then the string data and headers from its position on; one `next` splits
a piece off the front of them (`encReader.next_spec`).
-/

namespace PureChain

namespace rlp

open Rlp

/-! ### Values and their writing -/

/-- A value written through the buffer's operations: a byte string, a `uint64`,
or a list of values. -/
inductive Val where
  | bytes (b : List UInt8)
  | uint (i : UInt64)
  | list (vs : List Val)

mutual

/-- The item tree a value is encoded as: an unsigned integer is `Item.nat`. -/
def Val.toItem : Val → Item
  | .bytes b => .str b
  | .uint i => Item.nat i.toNat
  | .list vs => .list (Val.toItems vs)

/-- The item trees of a list of values. -/
def Val.toItems : List Val → List Item
  | [] => []
  | v :: vs => v.toItem :: Val.toItems vs

end

open encbuf

mutual

/-- The buffer operations writing a value: `writeBytes`, `writeUint`, and for
a list `list()`, the items, then `listEnd` on the index `list()` returned. -/
def writeVal : Val → encbuf → encbuf
  | .bytes b, w => w.encodeString b
  | .uint i, w => w.encodeUint i
  | .list vs, w =>
    let (index, w) := w.list
    (writeVals vs w).listEnd index

/-- The items of a list, one after the other. -/
def writeVals : List Val → encbuf → encbuf
  | [], w => w
  | v :: vs, w => writeVals vs (writeVal v w)

end

/-! ### Writing a value is writing its item tree -/

namespace encbuf

variable (w : encbuf)

theorem encodeString_eq (b : List UInt8) :
    w.encodeString b = { w with str := w.str ++ Rlp.encodeString b } := by
  rw [← str_encodeString, ← lheads_encodeString w b, ← lhsize_encodeString w b]

end encbuf

mutual

theorem writeVal_eq_writeItem : ∀ (v : Val) (w : encbuf), writeVal v w = writeItem v.toItem w
  | .bytes _, _ => rfl
  | .uint i, w => by
    -- `encodeUint` writes what `encodeString` writes of the minimal bytes
    rw [writeVal, encodeUint_eq, Val.toItem, Item.nat, writeItem, encodeString_eq, encode_str]
  | .list vs, w => by
    show (writeVals vs w.list.2).listEnd w.list.1 = (writeItems (Val.toItems vs) w.list.2).listEnd w.list.1
    rw [writeVals_eq_writeItems]

theorem writeVals_eq_writeItems : ∀ (vs : List Val) (w : encbuf),
    writeVals vs w = writeItems (Val.toItems vs) w
  | [], w => rfl
  | v :: vs, w => by
    rw [writeVals, Val.toItems, writeItems, writeVal_eq_writeItem, writeVals_eq_writeItems]

end

/-! ### The heads in order -/

namespace encbuf

/-- Offsets `os` from position `strpos` on: in order, none before `strpos`,
none past `len` bytes of string data. -/
def placed (len strpos : ℕ) (os : List ℕ) : Prop :=
  (strpos :: os).Pairwise (· ≤ ·) ∧ ∀ o ∈ os, o ≤ len

/-- The heads come in the order of their offsets, all within the string data:
what the slices `w.str[strpos:head.offset]` of `toBytes`, `toWriter` and
`encReader.next` take for granted. -/
def Ordered (w : encbuf) : Prop := placed w.str.length 0 (w.lheads.map listhead.offset)

section Placed

variable {len strpos o : ℕ} {os : List ℕ}

theorem placed_nil : placed len strpos [] :=
  ⟨List.pairwise_singleton _ _, fun _ h => nomatch h⟩

theorem placed_cons_iff :
    placed len strpos (o :: os) ↔ strpos ≤ o ∧ o ≤ len ∧ placed len o os := by
  simp only [placed, List.pairwise_cons, List.mem_cons, forall_eq_or_imp]
  constructor
  · rintro ⟨⟨⟨hs, -⟩, ho, hos⟩, hlo, hlos⟩
    exact ⟨hs, hlo, ⟨⟨ho, hos⟩, hlos⟩⟩
  · rintro ⟨hs, hlo, ⟨⟨ho, hos⟩, hlos⟩⟩
    exact ⟨⟨⟨hs, fun x hx => Nat.le_trans hs (ho x hx)⟩, ho, hos⟩, hlo, hlos⟩

theorem placed.mono_len (h : placed len strpos os) {len' : ℕ} (hlen : len ≤ len') :
    placed len' strpos os :=
  ⟨h.1, fun o ho => Nat.le_trans (h.2 o ho) hlen⟩

/-- A head put at the end of the string data comes last. -/
theorem placed.append_len (h : placed len strpos os) (hs : strpos ≤ len) :
    placed len strpos (os ++ [len]) := by
  refine ⟨?_, ?_⟩
  · rw [← List.cons_append, List.pairwise_append]
    refine ⟨h.1, List.pairwise_singleton _ _, ?_⟩
    intro a ha b hb
    rw [List.mem_singleton] at hb
    rcases List.mem_cons.mp ha with rfl | ha
    · rw [hb]
      exact hs
    · rw [hb]
      exact h.2 a ha
  · intro o ho
    rcases List.mem_append.mp ho with ho | ho
    · exact h.2 o ho
    · exact Nat.le_of_eq (List.mem_singleton.mp ho)

end Placed

variable {w : encbuf}

/-- `listEnd` sets a size: every head keeps its offset. -/
theorem offsets_listEnd (index : ℕ) :
    (w.listEnd index).lheads.map listhead.offset = w.lheads.map listhead.offset := by
  apply List.ext_getElem
  · simp [listEnd]
  · intro n h₁ h₂
    simp only [listEnd, List.getElem_map, List.getElem_set]
    split_ifs with hn
    · subst hn
      simp only [List.length_map, listEnd, List.length_set] at h₁
      simp [List.getElem?_eq_getElem h₁]
    · rfl

theorem Ordered.encodeString (h : w.Ordered) (b : List UInt8) : (w.encodeString b).Ordered := by
  unfold Ordered
  rw [lheads_encodeString, str_encodeString, List.length_append]
  exact h.mono_len (Nat.le_add_right _ _)

theorem Ordered.list (h : w.Ordered) : w.list.2.Ordered := by
  unfold Ordered
  simp only [encbuf.list, List.map_append, List.map_cons, List.map_nil]
  exact h.append_len (Nat.zero_le _)

theorem Ordered.listEnd (h : w.Ordered) (index : ℕ) : (w.listEnd index).Ordered := by
  unfold Ordered
  rw [offsets_listEnd]
  exact h

end encbuf

mutual

/-- Writing keeps the heads in order. -/
theorem writeItem_ordered : ∀ (t : Item) (w : encbuf), w.Ordered → (writeItem t w).Ordered
  | .str b, _, h => h.encodeString b
  | .list items, w, h => (writeItems_ordered items w.list.2 h.list).listEnd w.list.1

theorem writeItems_ordered : ∀ (items : List Item) (w : encbuf), w.Ordered →
    (writeItems items w).Ordered
  | [], _, h => h
  | i :: is, w, h => writeItems_ordered is (writeItem i w) (writeItem_ordered i w h)

end

theorem ordered_empty : encbuf.empty.Ordered := placed_nil

/-! ### `toWriter` -/

namespace encbuf

/-- One round of `toWriter`'s loop over the heads: the string data before the
head, if there is any, then the head's header. The writer takes every write
whole, so `n` is the length of the slice. -/
def writeHead (str : List UInt8) : List UInt8 × ℕ → listhead → List UInt8 × ℕ
  | (out, strpos), head =>
    let (out, strpos) :=
      if head.offset - strpos > 0 then
        let p := (str.drop strpos).take (head.offset - strpos)
        (out ++ p, strpos + p.length)
      else (out, strpos)
    (out ++ head.encode, strpos)

/-- `toWriter`: the bytes written to a writer that accepts every write. -/
def toWriter (w : encbuf) : List UInt8 :=
  let (out, strpos) := w.lheads.foldl (writeHead w.str) ([], 0)
  if strpos < w.str.length then out ++ w.str.drop strpos else out

/-- A round writes the data up to the head and the header, and moves to the
head's offset. -/
theorem writeHead_eq (str : List UInt8) (out : List UInt8) {strpos : ℕ} {head : listhead}
    (hs : strpos ≤ head.offset) (hlen : head.offset ≤ str.length) :
    writeHead str (out, strpos) head =
      (out ++ (str.drop strpos).take (head.offset - strpos) ++ head.encode, head.offset) := by
  simp only [writeHead]
  split_ifs with hpos
  · have hp : ((str.drop strpos).take (head.offset - strpos)).length = head.offset - strpos := by
      rw [List.length_take, List.length_drop]
      omega
    simp only [Prod.mk.injEq, hp, true_and]
    omega
  · obtain rfl : head.offset = strpos := by omega
    simp

/-- The loop over the heads writes what `render` puts before the data after the
last head. -/
theorem foldl_writeHead (str : List UInt8) : ∀ (heads : List listhead) (out : List UInt8)
    (strpos : ℕ), placed str.length strpos (heads.map listhead.offset) →
    ∃ R p, heads.foldl (writeHead str) (out, strpos) = (out ++ R, p) ∧
      R ++ str.drop p = render str strpos heads
  | [], out, strpos, _ => ⟨[], strpos, by simp, by simp [render]⟩
  | head :: heads, out, strpos, h => by
    obtain ⟨hs, hlen, hrest⟩ := placed_cons_iff.1 h
    obtain ⟨R, p, hfold, hR⟩ :=
      foldl_writeHead str heads (out ++ (str.drop strpos).take (head.offset - strpos) ++ head.encode)
        head.offset hrest
    refine ⟨(str.drop strpos).take (head.offset - strpos) ++ head.encode ++ R, p, ?_, ?_⟩
    · rw [List.foldl_cons, writeHead_eq str out hs hlen, hfold]
      simp only [List.append_assoc]
    · rw [render, ← hR]
      simp only [List.append_assoc]

/-- **`toWriter` writes what `toBytes` returns**, on a buffer whose heads are in
order. -/
theorem toWriter_eq_toBytes {w : encbuf} (h : w.Ordered) : w.toWriter = w.toBytes := by
  obtain ⟨R, p, hfold, hR⟩ := foldl_writeHead w.str w.lheads [] 0 h
  unfold toWriter
  rw [hfold, toBytes, ← hR, List.nil_append]
  dsimp only
  split_ifs with hp
  · rfl
  · rw [List.drop_eq_nil_of_le (by omega), List.append_nil]

end encbuf

/-! ### `encReader` -/

/-- `encReader`: the buffer read from, `none` once EOF was met; the index of
the next list head; the position in the string data; and what is left of the
piece being read, empty for Go's `nil` (no piece `next` returns is empty). -/
structure encReader where
  buf : Option encbuf
  lhpos : ℕ
  strpos : ℕ
  piece : List UInt8

namespace encReader

/-- `next`: the next piece of data, empty at EOF. -/
def next (r : encReader) : List UInt8 × encReader :=
  match r.buf with
  | none => ([], r)
  | some buf =>
    if r.piece ≠ [] then
      -- there is still data available for reading
      (r.piece, r)
    else if h : r.lhpos < buf.lheads.length then
      -- before the last list header: the string data up to it, then its header
      let head := buf.lheads[r.lhpos]
      let sizebefore := head.offset - r.strpos
      if sizebefore > 0 then
        ((buf.str.drop r.strpos).take (head.offset - r.strpos),
          { r with strpos := r.strpos + sizebefore })
      else (head.encode, { r with lhpos := r.lhpos + 1 })
    else if r.strpos < buf.str.length then
      -- string data at the end, after all list headers
      (buf.str.drop r.strpos, { r with strpos := buf.str.length })
    else ([], r)

/-- What the reader has left to go through, pieces and headers weighed so that
every piece `next` returns, once used up, lowers it. -/
def pending (r : encReader) : ℕ :=
  match r.buf with
  | none => 0
  | some buf => r.piece.length + 2 * (buf.lheads.length - r.lhpos) + (buf.str.length - r.strpos)

variable {r r' : encReader} {p : List UInt8}

theorem next_none (hb : r.buf = none) : r.next = ([], r) := by
  simp [next, hb]

/-- A piece `next` returns is a step towards EOF: what makes `Read`'s loop end. -/
theorem next_pending_lt (hn : r.next = (p, r')) (hp : p ≠ []) :
    { r' with piece := [] }.pending < r.pending := by
  cases hb : r.buf with
  | none =>
    rw [next_none hb, Prod.mk.injEq] at hn
    exact absurd hn.1.symm hp
  | some buf =>
    simp only [next, hb] at hn
    split_ifs at hn with hpiece hl hsize hs
    all_goals
      obtain ⟨rfl, rfl⟩ := Prod.mk.inj hn
      simp only [pending, hb, List.length_nil]
    · have := List.length_pos_iff.mpr hpiece
      omega
    · -- the data before the head is there: the reader is inside the string data
      have := List.length_pos_iff.mpr hp
      simp only [List.length_take, List.length_drop] at this
      omega
    · omega
    · omega
    · exact absurd rfl hp

/-- The loop of `Read`, with `room` bytes of the buffer free and `out` the
bytes copied into it so far. -/
def readLoop (r : encReader) (room : ℕ) (out : List UInt8) : (List UInt8 × Bool) × encReader :=
  match hn : r.next with
  | (p, r') =>
    if hp : p = [] then
      -- EOF: the buffer is released, and every later call returns EOF too
      ((out, true), { r' with buf := none, piece := [] })
    else if room < p.length then
      -- the piece did not fit: the rest waits for the next call
      ((out ++ p.take room, false), { r' with piece := p.drop room })
    else readLoop { r' with piece := [] } (room - p.length) (out ++ p)
termination_by r.pending
decreasing_by exact next_pending_lt hn hp

/-- `Read` into a buffer of `size` bytes: the bytes it filled, and whether it
returned `io.EOF`. -/
def Read (r : encReader) (size : ℕ) : (List UInt8 × Bool) × encReader := r.readLoop size []

/-! ### What the reader has still to return -/

/-- The bytes the reader has still to return: the piece it holds, then the
string data from its position on, with the headers of the heads from its index
on put in. -/
def rest (r : encReader) : List UInt8 :=
  match r.buf with
  | none => []
  | some buf => r.piece ++ render buf.str r.strpos (buf.lheads.drop r.lhpos)

/-- The heads still to come are in order from the reader's position on. -/
def Inv (r : encReader) : Prop :=
  match r.buf with
  | none => True
  | some buf => placed buf.str.length r.strpos ((buf.lheads.drop r.lhpos).map listhead.offset)

theorem rest_with_piece (hb : r.buf ≠ none) (q : List UInt8) :
    { r with piece := q }.rest = q ++ { r with piece := [] }.rest := by
  obtain ⟨buf, hbuf⟩ := Option.ne_none_iff_exists'.mp hb
  simp [rest, hbuf]

theorem Inv_with_piece (q : List UInt8) : { r with piece := q }.Inv ↔ { r with piece := [] }.Inv :=
  Iff.rfl

theorem listhead_encode_ne_nil (head : listhead) : head.encode ≠ [] := by
  apply List.ne_nil_of_length_pos
  rw [listhead.encode, length_puthead, headsize]
  split_ifs <;> omega

/-- **One `next`.** It splits a piece off the front of what is left to return,
and returns nothing only when nothing is left. -/
theorem next_spec (hr : r.Inv) (hn : r.next = (p, r')) :
    r'.buf = r.buf ∧ p ++ { r' with piece := [] }.rest = r.rest ∧
      { r' with piece := [] }.Inv ∧ (p = [] → r.rest = []) := by
  cases hb : r.buf with
  | none =>
    rw [next_none hb, Prod.mk.injEq] at hn
    obtain ⟨rfl, rfl⟩ := hn
    simp [rest, Inv, hb]
  | some buf =>
    simp only [Inv, hb] at hr
    simp only [next, hb] at hn
    split_ifs at hn with hpiece hl hsize hs
    all_goals obtain ⟨rfl, rfl⟩ := Prod.mk.inj hn
    · -- the piece held
      refine ⟨hb, by simp [rest, hb], ?_, fun h => absurd h hpiece⟩
      simp only [Inv, hb]
      exact hr
    · -- the string data up to the next head: the reader moves to its offset
      rw [not_not] at hpiece
      rw [List.drop_eq_getElem_cons hl, List.map_cons] at hr
      obtain ⟨hs, hlen, hrest⟩ := placed_cons_iff.1 hr
      have hpos : r.strpos + (buf.lheads[r.lhpos].offset - r.strpos) = buf.lheads[r.lhpos].offset := by
        omega
      have hne : (buf.str.drop r.strpos).take (buf.lheads[r.lhpos].offset - r.strpos) ≠ [] := by
        apply List.ne_nil_of_length_pos
        rw [List.length_take, List.length_drop]
        omega
      refine ⟨rfl, ?_, ?_, fun h => absurd h hne⟩
      · simp only [rest, hb, hpiece, List.nil_append, hpos]
        rw [List.drop_eq_getElem_cons hl, render, render, Nat.sub_self, List.take_zero,
          List.nil_append, List.append_assoc]
      · simp only [Inv, hpos]
        rw [List.drop_eq_getElem_cons hl, List.map_cons]
        exact placed_cons_iff.2 ⟨Nat.le_refl _, hlen, hrest⟩
    · -- the next head's header: the reader is at its offset
      rw [not_not] at hpiece
      rw [List.drop_eq_getElem_cons hl, List.map_cons] at hr
      obtain ⟨hs, -, hrest⟩ := placed_cons_iff.1 hr
      have hat : buf.lheads[r.lhpos].offset = r.strpos := by omega
      refine ⟨rfl, ?_, ?_, fun h => absurd h (listhead_encode_ne_nil _)⟩
      · simp only [rest, hb, hpiece, List.nil_append]
        rw [List.drop_eq_getElem_cons hl, render, hat, Nat.sub_self, List.take_zero,
          List.nil_append]
      · simp only [Inv]
        rw [← hat]
        exact hrest
    · -- the string data after the last head
      rw [not_not] at hpiece
      have hdrop : buf.lheads.drop r.lhpos = [] := List.drop_eq_nil_of_le (by omega)
      refine ⟨rfl, ?_, ?_, fun h => by simp [rest, hb, hpiece, hdrop, render, h]⟩
      · simp [rest, hb, hpiece, hdrop, render]
      · simp only [Inv, hdrop, List.map_nil]
        exact placed_nil
    · -- nothing is left
      rw [not_not] at hpiece
      have hdrop : buf.lheads.drop r.lhpos = [] := List.drop_eq_nil_of_le (by omega)
      have hend : buf.str.drop r.strpos = [] := List.drop_eq_nil_of_le (by omega)
      refine ⟨hb, ?_, ?_, fun _ => ?_⟩ <;>
        simp [rest, Inv, hb, hpiece, hdrop, hend, render, placed_nil]

/-- One round of `Read`'s loop, from the piece `next` returns. -/
theorem readLoop_eq (hn : r.next = (p, r')) (room : ℕ) (out : List UInt8) :
    r.readLoop room out =
      if p = [] then ((out, true), { r' with buf := none, piece := [] })
      else if room < p.length then ((out ++ p.take room, false), { r' with piece := p.drop room })
      else readLoop { r' with piece := [] } (room - p.length) (out ++ p) := by
  rw [readLoop]
  split
  rename_i p₁ r₁ hn₁
  rw [hn] at hn₁
  obtain ⟨rfl, rfl⟩ := Prod.mk.inj hn₁
  simp only [dite_eq_ite]

/-- **`Read`'s loop.** It copies the next `room` bytes left to return, and
reports EOF exactly when they are all the bytes left. -/
theorem readLoop_spec (r : encReader) (room : ℕ) (out : List UInt8) (hr : r.Inv) :
    ∃ r'', r.readLoop room out =
        ((out ++ r.rest.take room, decide (r.rest.length ≤ room)), r'') ∧
      r''.Inv ∧ r''.rest = r.rest.drop room := by
  -- on what `Read`'s loop has left to go through
  induction hpend : r.pending using Nat.strong_induction_on generalizing r room out with
  | _ n ih =>
  rcases hn : r.next with ⟨p, r'⟩
  obtain ⟨hbuf, hsplit, hinv, hnil⟩ := next_spec hr hn
  rw [readLoop_eq hn]
  split_ifs with hp hroom
  · -- EOF
    rw [hnil hp]
    exact ⟨{ r' with buf := none, piece := [] }, by simp, by simp [Inv], by simp [rest]⟩
  · -- the piece did not fit
    have hb : r'.buf ≠ none := by
      intro hb
      rw [hb, eq_comm] at hbuf
      rw [next_none hbuf, Prod.mk.injEq] at hn
      exact hp hn.1.symm
    refine ⟨{ r' with piece := p.drop room }, ?_, (Inv_with_piece (p.drop room)).mpr hinv, ?_⟩
    · rw [← hsplit, List.take_append_of_le_length (Nat.le_of_lt hroom), List.length_append]
      congr 2
      exact (decide_eq_false (by omega)).symm
    · rw [rest_with_piece hb, ← hsplit, List.drop_append_of_le_length (Nat.le_of_lt hroom)]
  · -- the piece was used up: on with the next one
    obtain ⟨k, rfl⟩ : ∃ k, room = p.length + k := ⟨room - p.length, by omega⟩
    rw [Nat.add_sub_cancel_left]
    obtain ⟨r'', heq, hinv'', hrest''⟩ :=
      ih _ (hpend ▸ next_pending_lt hn hp) _ k (out ++ p) hinv rfl
    refine ⟨r'', ?_, hinv'', ?_⟩
    · rw [heq, ← hsplit, List.take_append, List.take_of_length_le (Nat.le_add_right p.length k),
        Nat.add_sub_cancel_left, List.length_append, List.append_assoc]
      congr 2
      exact decide_eq_decide.mpr (by omega)
    · rw [hrest'', ← hsplit, List.drop_append, List.drop_eq_nil_of_le (Nat.le_add_right p.length k),
        List.nil_append, Nat.add_sub_cancel_left]

/-- **`Read`.** It returns the next `size` bytes left to return, and `io.EOF`
exactly when no byte is left after them. -/
theorem Read_spec (r : encReader) (size : ℕ) (hr : r.Inv) :
    (r.Read size).1 = (r.rest.take size, decide (r.rest.length ≤ size)) ∧
      (r.Read size).2.Inv ∧ (r.Read size).2.rest = r.rest.drop size := by
  obtain ⟨r'', hloop, hinv, hrest⟩ := readLoop_spec r size [] hr
  rw [Read, hloop]
  exact ⟨by rw [List.nil_append], hinv, hrest⟩

/-- A reader at the start of a buffer has its bytes to return. -/
theorem rest_start (w : encbuf) : (⟨some w, 0, 0, []⟩ : encReader).rest = w.toBytes := by
  simp [rest, toBytes]

theorem Inv_start {w : encbuf} (h : w.Ordered) : (⟨some w, 0, 0, []⟩ : encReader).Inv := by
  show placed w.str.length 0 ((w.lheads.drop 0).map listhead.offset)
  rw [List.drop_zero]
  exact h

end encReader

/-- `EncodeToReader`: the buffer's size, and a reader at its start. -/
def EncodeToReader (val : Val) : ℕ × encReader :=
  let eb := writeVal val encbuf.empty
  (eb.size, ⟨some eb, 0, 0, []⟩)

/-- `Read` calls one after the other, into buffers of the given sizes: the
bytes they filled, and the reader after them. -/
def reads (r : encReader) : List ℕ → List UInt8 × encReader
  | [] => ([], r)
  | size :: sizes =>
    let ((b, _), r) := r.Read size
    let (bs, r) := reads r sizes
    (b ++ bs, r)

/-- Reads one after the other return the bytes left to return in turn. -/
theorem reads_spec (r : encReader) (sizes : List ℕ) (hr : r.Inv) :
    (reads r sizes).1 = r.rest.take sizes.sum ∧ (reads r sizes).2.Inv ∧
      (reads r sizes).2.rest = r.rest.drop sizes.sum := by
  induction sizes generalizing r with
  | nil => exact ⟨by simp [reads], hr, by simp [reads]⟩
  | cons size sizes ih =>
    obtain ⟨hread, hinv, hrest⟩ := r.Read_spec size hr
    rcases hR : r.Read size with ⟨⟨b, eof⟩, r₁⟩
    rw [hR] at hread hinv hrest
    obtain ⟨h₁, h₂, h₃⟩ := ih r₁ hinv
    obtain ⟨rfl, -⟩ := Prod.mk.inj hread
    simp only [reads, hR]
    refine ⟨?_, h₂, ?_⟩
    · rw [h₁, hrest, List.sum_cons, List.take_add]
    · rw [h₃, hrest, List.drop_drop, List.sum_cons]

/-! ### The three outputs of a written value -/

/-- **A written value comes out as its encoding, whichever way it is read.**
After a value is written into a reset buffer by its `encodeString`,
`encodeUint`, `list` and `listEnd` calls, `toBytes` and `toWriter` give the RLP
encoding of its item tree, the buffer's size is the encoding's length, and any
sequence of `Read` calls on the reader `EncodeToReader` returns the encoding in
turn: each call the next bytes of it, with `io.EOF` exactly when it is used up. -/
theorem toBytes_toWriter_Read_eq_encode (v : Val) :
    (writeVal v encbuf.empty).toBytes = v.toItem.encode ∧
      (writeVal v encbuf.empty).toWriter = v.toItem.encode ∧
      (writeVal v encbuf.empty).size = v.toItem.encode.length ∧
      ∀ sizes : List ℕ, (reads (EncodeToReader v).2 sizes).1 = v.toItem.encode.take sizes.sum ∧
        ∀ size : ℕ, ((reads (EncodeToReader v).2 sizes).2.Read size).1 =
          ((v.toItem.encode.drop sizes.sum).take size,
            decide (v.toItem.encode.length ≤ sizes.sum + size)) := by
  have hw : writeVal v encbuf.empty = writeItem v.toItem encbuf.empty := writeVal_eq_writeItem v _
  have hord : (writeVal v encbuf.empty).Ordered := hw ▸ writeItem_ordered _ _ ordered_empty
  have hbytes : (writeVal v encbuf.empty).toBytes = v.toItem.encode := by
    rw [hw]
    exact EncodeToBytes_eq_encode v.toItem
  have hreader : (EncodeToReader v).2.rest = v.toItem.encode := (encReader.rest_start _).trans hbytes
  refine ⟨hbytes, (toWriter_eq_toBytes hord).trans hbytes, ?_, fun sizes => ?_⟩
  · rw [hw, size_writeItem_empty, EncodeToBytes_eq_encode]
  · obtain ⟨h₁, h₂, h₃⟩ := reads_spec (EncodeToReader v).2 sizes (encReader.Inv_start hord)
    refine ⟨by rw [h₁, hreader], fun size => ?_⟩
    obtain ⟨hread, -, -⟩ := encReader.Read_spec _ size h₂
    rw [hread, h₃, hreader, List.length_drop]
    congr 1
    exact decide_eq_decide.mpr (by omega)

end rlp

end PureChain
