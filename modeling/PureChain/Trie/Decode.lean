import PureChain.Rlp.Raw
import PureChain.Trie.Hash

/-!
# `decodeNode`: reading a stored node back

The hasher writes each node it hashes as the RLP encoding of its collapsed form,
and the database gives that encoding back under the digest; `decodeNode` reads
it. A list of two values is a short node: the compact key, then a value when the
key has the terminator and a reference to a child otherwise. A list of seventeen
is a full node: sixteen references, then the value. A reference (`decodeRef`) is
the empty string for nil, a 32-byte string for a child stored under its digest,
which is read as a hash node, or a list for a child small enough to be stored
inside its parent, which is read as a node.

The result is the round trip of the hasher's encoding
(`decodeNode_collapse`): the encoding of a collapsed node of the shape, whatever
follows it, decodes to `node.stored`, the node with each child the hasher hashed
standing as the hash node of its digest. The steps are one lemma for each kind of
reference (`decodeRef_empty`, `decodeRef_digest`, `decodeRef_embedded`), one for
the loop over the sixteen children (`decodeChildren_map`), and the fact that the
compact key gives the key back (`compactToHex_hexToCompact`).

The model leaves out the node flags the decoder sets from the digest it is
given, and the partial node Go returns beside an error, which every caller drops.
-/

namespace PureChain

namespace trie

open Rlp rlp PrefixCode node

/-! ### The decoder -/

/-- The errors of the node decoder, each with the value its message prints. -/
inductive NodeError where
  /-- An error of package `rlp`, or `io.ErrUnexpectedEOF`, returned as it is. -/
  | rlp (e : RlpError)
  /-- "decode error: %v": the input does not start with a list. -/
  | decode (e : RlpError)
  /-- "invalid number of list elements: %v". -/
  | invalidListElements (c : ℕ)
  /-- "invalid value node: %v". -/
  | invalidValueNode (e : RlpError)
  /-- "oversized embedded node (size is %d bytes, want size < %d)", with the size;
  the bound printed is `hashLen`. -/
  | oversizedEmbeddedNode (size : ℕ)
  /-- "invalid RLP string size %d (want 0 or 32)". -/
  | invalidStringSize (size : ℕ)
  /-- `decodeError`: an error, and the path to the child it was met in, innermost
  first. -/
  | decodeError (what : NodeError) (stack : List String)
  deriving DecidableEq, Repr

/-- `wrapError`: the context goes at the end of the path of a `decodeError`; any
other error becomes a `decodeError` whose path is the context. -/
def wrapError (err : NodeError) (ctx : String) : NodeError :=
  match err with
  | .decodeError what stack => .decodeError what (stack ++ [ctx])
  | err => .decodeError err [ctx]

/-- `hashLen`: the length of a hash, `len(common.Hash{})`. -/
def hashLen : ℕ := 32

mutual

/-- `decodeNode`: the node whose encoding starts the input, a short node for a
list of two values and a full node for a list of seventeen. What follows the
first list is not read. -/
def decodeNode (buf : List UInt8) : Except NodeError hashed :=
  if buf = [] then throw (.rlp .ErrUnexpectedEOF)
  else
    match h : SplitList buf with
    | .error e => throw (.decode e)
    | .ok (elems, _) =>
      -- the error of the count is dropped, and the count is then zero
      match (CountValues elems).toOption.getD 0 with
      | 2 => (decodeShort elems).mapError (wrapError · "short")
      | 17 => (decodeFull elems).mapError (wrapError · "full")
      | c => throw (.invalidListElements c)
termination_by (buf.length, 1)
decreasing_by all_goals exact Prod.Lex.left _ _ (SplitList_length_lt h)

/-- `decodeShort`: the compact key, then a value when the key has the terminator,
and a reference to a child otherwise. -/
def decodeShort (elems : List UInt8) : Except NodeError hashed :=
  match h : SplitString elems with
  | .error e => throw (.rlp e)
  | .ok (kbuf, rest) =>
    let key := compactToHex kbuf
    if hasTerm key then
      match SplitString rest with
      | .error e => throw (.invalidValueNode e)
      | .ok (val, _) => pure (.shortNode key (.valueNode val))
    else do
      let (r, _) ← (decodeRef rest).mapError (wrapError · "val")
      pure (.shortNode key r)
termination_by (elems.length, 3)
decreasing_by exact Prod.Lex.left _ _ (SplitString_length_lt h)

/-- `decodeFull`: sixteen references, then the value, nil when it is empty. -/
def decodeFull (elems : List UInt8) : Except NodeError hashed := do
  let (children, rest) ← decodeChildren 0 elems
  match SplitString rest with
  | .error e => throw (.rlp e)
  | .ok (val, _) => pure (.fullNode (children ++ [if 0 < val.length then .valueNode val else .nil]))
termination_by (elems.length, 4)
decreasing_by exact Prod.Lex.right _ (by decide)

/-- The loop of `decodeFull` from child `i` on: a reference for each of the first
sixteen children, the input moving past each. -/
def decodeChildren (i : ℕ) (elems : List UInt8) : Except NodeError (List hashed × List UInt8) :=
  if i < 16 then do
    let (cld, rest) ← (decodeRef elems).mapError (wrapError · ("[" ++ toString i ++ "]"))
    let (cs, rest') ← decodeChildren (i + 1) rest.1
    pure (cld :: cs, rest')
  else pure ([], elems)
termination_by (elems.length, 3)
decreasing_by
  all_goals first
    | exact Prod.Lex.right _ (by decide)
    | exact Prod.Lex.left _ _ rest.property

/-- `decodeRef`: a reference to a child, and the input after it, which is shorter:
an embedded node for a list, which must be no bigger than a hash; nil for the
empty string; a hash node for a string of 32 bytes. -/
def decodeRef (buf : List UInt8) :
    Except NodeError (hashed × {rest : List UInt8 // rest.length < buf.length}) :=
  match h : Split buf with
  | .error e => throw (.rlp e)
  | .ok (kind, val, rest) =>
    if kind = .List then
      -- an embedded node: its encoding must be smaller than a hash
      let size := buf.length - rest.length
      if size > hashLen then throw (.oversizedEmbeddedNode size)
      else (fun n => (n, ⟨rest, (Split_length_lt h).1⟩)) <$> decodeNode buf
    else if kind = .String ∧ val.length = 0 then pure (.nil, ⟨rest, (Split_length_lt h).1⟩)
    else if kind = .String ∧ val.length = 32 then pure (.hashNode val, ⟨rest, (Split_length_lt h).1⟩)
    else throw (.invalidStringSize val.length)
termination_by (buf.length, 2)
decreasing_by exact Prod.Lex.right _ (by decide)

end

/-! ### The decoder on what the encoder writes -/

theorem length_lt_encode_append (t : Item) (rest : List UInt8) : rest.length < (t.encode ++ rest).length := by
  have := List.length_pos_of_ne_nil (encode_ne_nil t)
  rw [List.length_append]
  omega

/-- The empty string is a nil reference. -/
theorem decodeRef_empty (rest : List UInt8) :
    decodeRef ((Item.str []).encode ++ rest) = .ok (.nil, ⟨rest, length_lt_encode_append _ rest⟩) := by
  have hs : Split ((Item.str []).encode ++ rest) = .ok (.String, [], rest) :=
    Split_encodeString_string [] rest (by decide) (by decide)
  rw [decodeRef]
  split
  next e he => exact absurd (hs.symm.trans he) (by simp)
  next kind val rest' he =>
    obtain ⟨rfl, rfl, rfl⟩ : Kind.String = kind ∧ [] = val ∧ rest = rest' := by simpa using hs.symm.trans he
    rfl

/-- A string of 32 bytes is a digest, read as a hash node. -/
theorem decodeRef_digest {d : List UInt8} (hd : d.length = 32) (rest : List UInt8) :
    decodeRef ((Item.str d).encode ++ rest) = .ok (.hashNode d, ⟨rest, length_lt_encode_append _ rest⟩) := by
  have hs : Split ((Item.str d).encode ++ rest) = .ok (.String, d, rest) :=
    Split_encodeString_string d rest (by omega) (by omega)
  rw [decodeRef]
  split
  next e he => exact absurd (hs.symm.trans he) (by simp)
  next kind val rest' he =>
    obtain ⟨rfl, rfl, rfl⟩ : Kind.String = kind ∧ d = val ∧ rest = rest' := by simpa using hs.symm.trans he
    simp [hd]

/-- A list no bigger than a hash is an embedded node, read as the node it encodes. -/
theorem decodeRef_embedded {items : List Item} (hsize : (Item.list items).encode.length ≤ hashLen)
    {n : hashed} (rest : List UInt8) (h : decodeNode ((Item.list items).encode ++ rest) = .ok n) :
    decodeRef ((Item.list items).encode ++ rest) = .ok (n, ⟨rest, length_lt_encode_append _ rest⟩) := by
  have hpay : (Item.encodeAll items).length < 2 ^ 64 := by
    rw [encode_list, List.length_append] at hsize
    unfold hashLen at hsize
    omega
  have hs : Split ((Item.list items).encode ++ rest) = .ok (.List, Item.encodeAll items, rest) := by
    rw [encode_list, Split_list _ rest hpay]
  rw [decodeRef]
  split
  next e he => exact absurd (hs.symm.trans he) (by simp)
  next kind val rest' he =>
    obtain ⟨rfl, rfl, rfl⟩ : Kind.List = kind ∧ Item.encodeAll items = val ∧ rest = rest' := by
      simpa using hs.symm.trans he
    have hlen : ((Item.list items).encode ++ rest).length - rest.length = (Item.list items).encode.length := by
      rw [List.length_append]
      omega
    simp only [if_true, hlen, gt_iff_lt, Nat.not_lt.mpr hsize, if_false, h]
    rfl

/-- A list is read as a short node when it has two values and as a full node
when it has seventeen. -/
theorem decodeNode_list {items : List Item} (hsize : (Item.encodeAll items).length < 2 ^ 64)
    (rest : List UInt8) :
    decodeNode ((Item.list items).encode ++ rest) =
      match items.length with
      | 2 => (decodeShort (Item.encodeAll items)).mapError (wrapError · "short")
      | 17 => (decodeFull (Item.encodeAll items)).mapError (wrapError · "full")
      | c => throw (.invalidListElements c) := by
  have hs : SplitList ((Item.list items).encode ++ rest) = .ok (Item.encodeAll items, rest) := by
    rw [encode_list, SplitList_list _ rest hsize]
  have hcount : (CountValues (Item.encodeAll items)).toOption.getD 0 = items.length := by
    rw [CountValues, countValues_encodeAll items 0 hsize, Nat.zero_add]
    rfl
  rw [decodeNode, if_neg (List.append_ne_nil_of_left_ne_nil (encode_ne_nil _) rest)]
  split
  next e he => exact absurd (hs.symm.trans he) (by simp)
  next elems rest' he =>
    obtain ⟨rfl, rfl⟩ : Item.encodeAll items = elems ∧ rest = rest' := by simpa using hs.symm.trans he
    rw [hcount]

theorem encodeAll_pair (a b : Item) : Item.encodeAll [a, b] = a.encode ++ (b.encode ++ []) := by
  rw [encodeAll_cons, encodeAll_cons, encodeAll_nil]

/-- A short node whose compact key has the terminator is read with its value. -/
theorem decodeShort_value {ns w : List UInt8} (hns : ∀ x ∈ ns, x < 16)
    (hk : (hexToCompact (withTerm ns true)).length < 2 ^ 64) (hw : w.length < 2 ^ 64) :
    decodeShort (Item.encodeAll [.str (hexToCompact (withTerm ns true)), .str w]) =
      .ok (.shortNode (withTerm ns true) (.valueNode w)) := by
  have hs := SplitString_encodeString _ ((Item.str w).encode ++ []) hk
  rw [encodeAll_pair, encode_str, decodeShort]
  split
  next e he => exact absurd (hs.symm.trans he) (by simp)
  next kbuf rest he =>
    obtain ⟨rfl, rfl⟩ : hexToCompact (withTerm ns true) = kbuf ∧ (Item.str w).encode ++ [] = rest := by
      simpa using hs.symm.trans he
    simp only [compactToHex_hexToCompact hns, hasTerm_withTerm hns, if_true, encode_str,
      SplitString_encodeString w [] hw]
    rfl

/-- A short node whose compact key has no terminator is read with the reference
that follows the key. -/
theorem decodeShort_ref {ns : List UInt8} (hns : ∀ x ∈ ns, x < 16)
    (hk : (hexToCompact (withTerm ns false)).length < 2 ^ 64) {v : Item} {r : hashed}
    (hv : decodeRef (v.encode ++ []) = .ok (r, ⟨[], length_lt_encode_append v []⟩)) :
    decodeShort (Item.encodeAll [.str (hexToCompact (withTerm ns false)), v]) = .ok (.shortNode ns r) := by
  have hs := SplitString_encodeString _ (v.encode ++ []) hk
  rw [encodeAll_pair, encode_str, decodeShort]
  split
  next e he => exact absurd (hs.symm.trans he) (by simp)
  next kbuf rest he =>
    obtain ⟨rfl, rfl⟩ : hexToCompact (withTerm ns false) = kbuf ∧ v.encode ++ [] = rest := by
      simpa using hs.symm.trans he
    simp only [compactToHex_hexToCompact hns, hasTerm_withTerm hns, Bool.false_eq_true, if_false, hv,
      Except.mapError_ok, Except.bind_ok]
    rfl

/-- **The loop over the children** reads back a reference for each item the
encoder wrote, when each one is read back on its own. -/
theorem decodeChildren_map {α : Type} (f : α → Item) (g : α → hashed) :
    ∀ (l : List α), (∀ a ∈ l, ∀ rest, decodeRef ((f a).encode ++ rest) =
        .ok (g a, ⟨rest, length_lt_encode_append _ rest⟩)) →
      ∀ (i : ℕ), i + l.length = 16 → ∀ rest,
        decodeChildren i (Item.encodeAll (l.map f) ++ rest) = .ok (l.map g, rest)
  | [], _, i, hi, rest => by
    rw [List.length_nil, Nat.add_zero] at hi
    subst hi
    rw [decodeChildren, if_neg (by decide)]
    rfl
  | a :: l, hfg, i, hi, rest => by
    rw [List.length_cons] at hi
    have hl := decodeChildren_map f g l (fun b hb => hfg b (List.mem_cons_of_mem a hb)) (i + 1) (by omega) rest
    rw [List.map_cons, encodeAll_cons, List.append_assoc, decodeChildren, if_pos (by omega),
      hfg a List.mem_cons_self, Except.mapError_ok, Except.bind_ok]
    dsimp only
    rw [hl, Except.bind_ok, List.map_cons]
    rfl

/-- A full node is read back as sixteen references and the value, nil when it is
empty. -/
theorem decodeFull_map {α : Type} (f : α → Item) (g : α → hashed) {l : List α} (hl : l.length = 16)
    (hfg : ∀ a ∈ l, ∀ rest, decodeRef ((f a).encode ++ rest) = .ok (g a, ⟨rest, length_lt_encode_append _ rest⟩))
    {w : List UInt8} (hw : w.length < 2 ^ 64) :
    decodeFull (Item.encodeAll (l.map f ++ [.str w])) =
      .ok (.fullNode (l.map g ++ [if 0 < w.length then .valueNode w else .nil])) := by
  rw [encodeAll_append, encodeAll_cons, encodeAll_nil, decodeFull,
    decodeChildren_map f g l hfg 0 (by omega), Except.bind_ok]
  dsimp only
  rw [encode_str, SplitString_encodeString w [] hw]
  rfl

/-! ### What a stored node decodes to -/

section Stored

variable (keccak256 : List UInt8 → PureChain.Hash)

namespace node

mutual

/-- **A node as the decoder gives it back** from the encoding the hasher stores
for it: the same node, each child the hasher hashed standing as the hash node of
its digest. -/
def stored (n : node) : hashed :=
  match n with
  | shortNode k c => .shortNode k (childRef c)
  | fullNode cs => .fullNode (childRefs cs)
  | n => n.toHashed
termination_by sizeOf n
decreasing_by
  all_goals first | decreasing_tactic | exact sizeOf_child_lt_shortNode _ _

/-- A child as it stands in its stored parent: the hash node of its digest when
the hasher hashed it, and the child itself, stored, when it is kept inside the
parent. -/
def childRef (c : node) : hashed :=
  match hash keccak256 c false with
  | .hashNode h => .hashNode h
  | _ => stored c
termination_by sizeOf c + 1

/-- The children of a stored full node. -/
def childRefs (cs : List node) : List hashed :=
  match cs with
  | [] => []
  | c :: cs => childRef c :: childRefs cs
termination_by sizeOf cs
decreasing_by
  all_goals first
    | decreasing_tactic
    | have : 0 < sizeOf cs := by cases cs <;> simp
      simp only [List.cons.sizeOf_spec]
      omega

end

variable {keccak256}

theorem stored_shortNode (k : List UInt8) (c : node) :
    stored keccak256 (shortNode k c) = .shortNode k (childRef keccak256 c) := by
  rw [stored]

theorem childRefs_eq_map : ∀ cs : List node, childRefs keccak256 cs = cs.map (childRef keccak256)
  | [] => by rw [childRefs, List.map_nil]
  | c :: cs => by rw [childRefs, childRefs_eq_map cs, List.map_cons]

theorem stored_fullNode (cs : List node) :
    stored keccak256 (fullNode cs) = .fullNode (cs.map (childRef keccak256)) := by
  rw [stored, childRefs_eq_map]

/-- A child the hasher hashed stands as its digest. -/
theorem childRef_of_hash_eq {c : node} {d : List UInt8} (h : hash keccak256 c false = .hashNode d) :
    childRef keccak256 c = .hashNode d := by
  rw [childRef, h]

/-- A child the hasher kept stands as itself. -/
theorem childRef_of_hash_ne {c : node} (h : ∀ d, hash keccak256 c false ≠ .hashNode d) :
    childRef keccak256 c = stored keccak256 c := by
  rw [childRef]
  split
  next d hd => exact absurd hd (h d)
  next => rfl

/-- What neither the hasher nor the store changes: nil and a value node. -/
theorem hash_of_hasChildren_false {n : node} (h : n.hasChildren = false) (force : Bool) :
    hash keccak256 n force = n.toHashed := by
  cases n with
  | nil => rw [hash] <;> simp
  | valueNode w => rw [hash] <;> simp
  | shortNode => simp [hasChildren] at h
  | fullNode => simp [hasChildren] at h

theorem stored_of_hasChildren_false {n : node} (h : n.hasChildren = false) :
    stored keccak256 n = n.toHashed := by
  cases n with
  | nil => rw [stored] <;> simp
  | valueNode w => rw [stored] <;> simp
  | shortNode => simp [hasChildren] at h
  | fullNode => simp [hasChildren] at h

theorem childRef_nil : childRef keccak256 nil = .nil := by
  rw [childRef_of_hash_ne (fun d => by rw [hash_of_hasChildren_false rfl]; exact hashed.noConfusion),
    stored_of_hasChildren_false rfl, toHashed]

theorem childRef_valueNode (w : List UInt8) : childRef keccak256 (valueNode w) = .valueNode w := by
  rw [childRef_of_hash_ne (fun d => by rw [hash_of_hasChildren_false rfl]; exact hashed.noConfusion),
    stored_of_hasChildren_false rfl, toHashed]

end node

theorem collapse_ne_hashNode {c : node} (hch : c.hasChildren) (d : List UInt8) :
    collapse keccak256 c ≠ .hashNode d := by
  obtain ⟨items, hitems⟩ := toItem_collapse keccak256 hch
  intro h
  rw [h, hashed.toItem] at hitems
  exact Item.noConfusion hitems

variable {keccak256}

/-- **A child reads back as it stands in its stored parent**: the digest the
hasher replaced it by, or the child itself when its encoding is kept inside the
parent and reads back. -/
theorem decodeRef_hash {c : node} (hch : c.hasChildren)
    (ih : ∀ rest, decodeNode ((collapse keccak256 c).toItem.encode ++ rest) = .ok (stored keccak256 c))
    (rest : List UInt8) :
    decodeRef ((hash keccak256 c false).toItem.encode ++ rest) =
      .ok (childRef keccak256 c, ⟨rest, length_lt_encode_append _ rest⟩) := by
  have hh := hash_eq_nodeToHash keccak256 hch false
  rcases nodeToHash_cases keccak256 (collapse keccak256 c) false with ⟨he, hlt, -⟩ | he
  · -- kept inside the parent: an embedded list, smaller than a hash
    have hkeep : hash keccak256 c false = collapse keccak256 c := hh.trans he
    rw [childRef_of_hash_ne (fun d => hkeep ▸ collapse_ne_hashNode keccak256 hch d)]
    obtain ⟨items, hitems⟩ := toItem_collapse keccak256 hch
    have hsmall : (Item.list items).encode.length ≤ hashLen := by
      rw [← hitems]
      unfold hashLen
      omega
    rw [hkeep, hitems]
    exact decodeRef_embedded hsmall rest (hitems ▸ ih rest)
  · -- replaced by the 32 bytes of its digest
    have hdig := hh.trans he
    rw [childRef_of_hash_eq hdig, hdig, hashed.toItem]
    exact decodeRef_digest (length_hashData keccak256 _) rest

/-- The value slot of a full node of the shape is written as a string, nil as the
empty one, and that string reads back as the child. -/
theorem childItem_valueSlot {c : node} (hc : c = nil ∨ ∃ w, c = valueNode w ∧ w ≠ []) :
    ∃ w, c.toHashed.childItem = .str w ∧
      childRef keccak256 c = if 0 < w.length then .valueNode w else .nil := by
  rcases hc with rfl | ⟨w, rfl, hw⟩
  · exact ⟨[], by rw [toHashed, hashed.childItem], by rw [childRef_nil, if_neg (by simp)]⟩
  · refine ⟨w, by simp [toHashed, hashed.childItem, hashed.toItem], ?_⟩
    rw [childRef_valueNode, if_pos (List.length_pos_of_ne_nil hw)]

end Stored

/-! ### The round trip -/

section RoundTrip

variable {keccak256 : List UInt8 → PureChain.Hash}

/-- **A stored node reads back**: the encoding the hasher writes for a node with
children of the shape, whose keys lie in a set of terminated hex keys, decodes,
whatever follows it, to the node with each child the hasher hashed standing as the
hash node of its digest. -/
theorem decodeNode_collapse {K : Set (List UInt8)} (hK : TermKeys K) {n : node} (hn : n.Canon)
    (hk : n.KeysIn K) (hch : n.hasChildren) (hsize : ∀ x, Input keccak256 n x → x.length < 2 ^ 64)
    (rest : List UInt8) :
    decodeNode ((collapse keccak256 n).toItem.encode ++ rest) = .ok (stored keccak256 n) := by
  induction hn generalizing K rest with
  | nil => simp [hasChildren] at hch
  | valueNode => simp [hasChildren] at hch
  | @shortNode k c hk0 hfv hc ih =>
    have hwhole := hsize _ (.here hch)
    rcases shortNode_key_cases hK (Canon.shortNode hk0 hfv hc) hk with
      ⟨ns, w, hns, rfl, rfl, hw⟩ | ⟨hk16, cs, rfl⟩
    · -- a leaf: the key has the terminator and the value follows it
      have hitem : (collapse keccak256 (shortNode (withTerm ns true) (valueNode w))).toItem =
          .list [.str (hexToCompact (withTerm ns true)), .str w] := by
        rw [collapse_shortNode, if_neg (by simp [hasChildren]), toHashed, hashed.toItem, hashed.toItem]
      rw [hitem] at hwhole ⊢
      have hpay := length_payload_lt hwhole
      have hkey := length_bytes_lt (Nat.lt_of_le_of_lt (length_encode_le_of_mem List.mem_cons_self) hpay)
      have hval := length_bytes_lt
        (Nat.lt_of_le_of_lt (length_encode_le_of_mem (List.mem_cons_of_mem _ List.mem_cons_self)) hpay)
      rw [decodeNode_list hpay rest]
      dsimp only [List.length_cons, List.length_nil]
      rw [decodeShort_value hns hkey hval, stored_shortNode, childRef_valueNode]
      rfl
    · -- an extension: nibbles, then the reference to a full node
      have hchc : (fullNode cs).hasChildren := rfl
      have hitem : (collapse keccak256 (shortNode k (fullNode cs))).toItem =
          .list [.str (hexToCompact (withTerm k false)), (hash keccak256 (fullNode cs) false).toItem] := by
        rw [collapse_shortNode, if_pos hchc, hashed.toItem]
        rfl
      have hchild := decodeRef_hash hchc
        (fun r => ih (hK.after k) hk.shortNode hchc (fun x hx => hsize x (.below_short hx)) r) []
      rw [hitem] at hwhole ⊢
      have hpay := length_payload_lt hwhole
      have hkey := length_bytes_lt (Nat.lt_of_le_of_lt (length_encode_le_of_mem List.mem_cons_self) hpay)
      rw [decodeNode_list hpay rest]
      dsimp only [List.length_cons, List.length_nil]
      rw [decodeShort_ref hk16 hkey hchild, stored_shortNode]
      rfl
  | @fullNode cs hlen hcount hall ih =>
    have hwhole := hsize _ (.here hch)
    -- the sixteen slots before the value slot, and the value slot
    obtain ⟨front, last, rfl⟩ : ∃ front last, cs = front ++ [last] :=
      ⟨_, _, (List.dropLast_append_getLast (List.ne_nil_of_length_pos (by omega))).symm⟩
    have hfront : front.length = 16 := by
      rw [List.length_append, List.length_singleton] at hlen
      omega
    have hgetD : ∀ j (hj : j < front.length), (front ++ [last]).getD j nil = front[j] := fun j hj => by
      rw [List.getD_append _ _ _ _ hj, List.getD_eq_getElem _ _ hj]
    have hlast : (front ++ [last]).getD 16 nil = last := by
      rw [List.getD_append_right _ _ _ _ (by omega), hfront]
      rfl
    -- each of the sixteen reads back as it stands in the stored node
    have hfg : ∀ c ∈ front, ∀ r,
        decodeRef (((if c.isNil then .valueNode [] else hash keccak256 c false : hashed).childItem).encode ++ r) =
          .ok (childRef keccak256 c, ⟨r, length_lt_encode_append _ r⟩) := by
      intro c hc r
      obtain ⟨j, hj, rfl⟩ := List.mem_iff_getElem.mp hc
      have hmem : front[j] ∈ front ++ [last] := List.mem_append_left _ (List.getElem_mem hj)
      have hcan : ((front ++ [last]).getD j nil).Canon := by
        rw [hgetD j hj]
        exact hall _ hmem
      rcases fullNode_child_cases_lt hK hk (hfront ▸ hj) hcan with h0 | hchj <;> rw [hgetD j hj] at *
      · rw [h0, isNil_nil, if_pos rfl, childRef_nil]
        exact decodeRef_empty r
      · have hkj : front[j].KeysIn (after K [j.toUInt8]) := by
          have := hk.fullNode j.toUInt8
          rwa [toNat_toUInt8 (by omega), hgetD j hj] at this
        rw [if_neg (by simp [isNil_of_hasChildren hchj]), (childItem_hash_false keccak256 hchj).1]
        exact decodeRef_hash hchj
          (ih _ hmem (hK.after [j.toUInt8]) hkj hchj (fun x hx => hsize x (.below_full hmem hx))) r
    -- the value slot: nil or a value, written as a string
    have hcan16 : ((front ++ [last]).getD 16 nil).Canon := by
      rw [hlast]
      exact hall _ (List.mem_append_right _ List.mem_cons_self)
    obtain ⟨w, hwi, hwref⟩ := @childItem_valueSlot keccak256 _
      (hlast ▸ fullNode_child_cases_sixteen hK hk hcan16)
    have hitem : (collapse keccak256 (fullNode (front ++ [last]))).toItem =
        .list ((front.map fun c => (if c.isNil then .valueNode [] else hash keccak256 c false : hashed).childItem) ++
          [.str w]) := by
      rw [toItem_collapse_fullNode, hashFullNodeChildren_append, Nat.zero_add, hfront,
        hashFullNodeChildren_of_le keccak256 0 front (by omega), hashFullNodeChildren_sixteen, List.map_append,
        List.map_map, List.map_singleton, hwi]
      rfl
    rw [hitem] at hwhole ⊢
    have hpay := length_payload_lt hwhole
    have hval := length_bytes_lt
      (Nat.lt_of_le_of_lt (length_encode_le_of_mem (List.mem_append_right _ List.mem_cons_self)) hpay)
    have h17 : ((front.map fun c => (if c.isNil then .valueNode [] else hash keccak256 c false : hashed).childItem) ++
        [Item.str w]).length = 17 := by
      rw [List.length_append, List.length_map, hfront, List.length_singleton]
    rw [decodeNode_list hpay rest, h17, decodeFull_map _ (childRef keccak256) hfront hfg hval, stored_fullNode, List.map_append,
      List.map_singleton, hwref]
    rfl

end RoundTrip

end trie

end PureChain
