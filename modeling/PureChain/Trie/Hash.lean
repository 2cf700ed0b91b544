import PureChain.Common.Types
import PureChain.Lib.Rlp
import PureChain.Trie.Map

/-!
# `hasher`: the root hash of a trie

`Trie.Hash` collapses the trie from the root down (`hasher.hash`). A short
node's key goes to compact form and each child that has children of its own is
replaced by what hashing it returned: the Keccak-256 digest of its encoding, a
hash node, or the collapsed child itself when its encoding is shorter than 32
bytes, to be stored inside its parent. The root is hashed by force. The
collapsed nodes are `hashed`, the kinds of node of a trie with the hash node
beside them, and what is encoded is the item `rlp.Encode` writes for them
(`hashed.toItem`). Keccak-256 is a parameter, and the cached hashes of the
nodes are not modelled: every node is hashed afresh.

The root hash commits to the map the trie stands for (`Trie.Hash_eq_iff`): two
tries of the invariant with the same root hash hold the same values at every
key, unless Keccak-256 maps two of the encodings it is given to the same
digest. The proof reads a collapsed node back from its item: the compact key
gives the hex key and says whether a value or a child reference follows
(`hexToCompact_inj`, `shortNode_key_cases`), a child reference is a 32-byte
string or an embedded list, and the empty string is a nil child.
-/

namespace PureChain

namespace trie

open Rlp PrefixCode

/-! ### Collapsed nodes and their encoding -/

/-- The nodes `hasher.hash` builds: those of a trie, and `hashNode`, the hash a
child stands as in its parent's encoding. -/
inductive hashed where
  | nil
  | hashNode (h : List UInt8)
  | valueNode (v : List UInt8)
  | shortNode (Key : List UInt8) (Val : hashed)
  | fullNode (Children : List hashed)

namespace hashed

mutual

/-- The item `rlp.Encode` writes for a node: a hash or a value is the string of
its bytes, a short node the list of its fields `Key` and `Val`, a full node the
list `fullNode.EncodeRLP` writes, and the nil interface the empty list. -/
def toItem : hashed → Item
  | nil => .list []
  | hashNode h => .str h
  | valueNode v => .str v
  | shortNode k v => .list [.str k, v.toItem]
  | fullNode cs => .list (childItems cs)

/-- The children as `fullNode.EncodeRLP` writes them, a nil child as
`nilValueNode`. -/
def childItems : List hashed → List Item
  | [] => []
  | nil :: cs => .str [] :: childItems cs
  | c :: cs => c.toItem :: childItems cs

end

/-- One child as `fullNode.EncodeRLP` writes it. -/
def childItem : hashed → Item
  | nil => .str []
  | c => c.toItem

end hashed

namespace node

mutual

/-- A node the hasher leaves as it is, to be encoded with its fields as they are. -/
def toHashed : node → hashed
  | nil => .nil
  | valueNode v => .valueNode v
  | shortNode k c => .shortNode k c.toHashed
  | fullNode cs => .fullNode (toHashedList cs)

/-- The children of a full node the hasher leaves as it is. -/
def toHashedList : List node → List hashed
  | [] => []
  | c :: cs => c.toHashed :: toHashedList cs

end

theorem sizeOf_child_lt_shortNode (k : List UInt8) (v : node) : sizeOf v + 1 < 1 + sizeOf k + sizeOf v := by
  have : 0 < sizeOf k := by cases k <;> simp
  omega

/-- A short node or a full node: the nodes the hasher collapses. -/
def hasChildren : node → Bool
  | shortNode _ _ => true
  | fullNode _ => true
  | _ => false

end node

open node

/-! ### The hasher -/

section Hasher

variable (keccak256 : List UInt8 → PureChain.Hash)

/-- `hashData`: the thirty-two bytes of the data's Keccak-256 digest. -/
def hashData (data : List UInt8) : List UInt8 := (keccak256 data).bytes.toList

/-- What `shortnodeToHash` and `fullnodeToHash` do with a collapsed node: the
hash of its encoding, or the node itself, to be stored inside its parent, when
the encoding is shorter than 32 bytes and `force` is not set. -/
def nodeToHash (n : hashed) (force : Bool) : hashed :=
  let enc := n.toItem.encode
  if enc.length < 32 ∧ !force then n else .hashNode (hashData keccak256 enc)

/-- `shortnodeToHash`. -/
def shortnodeToHash (n : hashed) (force : Bool) : hashed := nodeToHash keccak256 n force

/-- `fullnodeToHash`. -/
def fullnodeToHash (n : hashed) (force : Bool) : hashed := nodeToHash keccak256 n force

mutual

/-- `hasher.hash`: the node collapsed and, if its encoding is big enough or
`force` is set, hashed. A value node, and the nil interface, are left as they
are. -/
def hash (n : node) (force : Bool) : hashed :=
  match n with
  | shortNode k v => shortnodeToHash keccak256 (hashShortNodeChildren k v) force
  | fullNode cs => fullnodeToHash keccak256 (.fullNode (hashFullNodeChildren 0 cs)) force
  | n => n.toHashed
termination_by sizeOf n
decreasing_by
  all_goals first | decreasing_tactic | exact sizeOf_child_lt_shortNode _ _

/-- `hashShortNodeChildren`: the collapsed short node, its key in compact form
and its child hashed unless it is a value node. -/
def hashShortNodeChildren (k : List UInt8) (v : node) : hashed :=
  if v.hasChildren then .shortNode (hexToCompact k) (hash v false)
  else .shortNode (hexToCompact k) v.toHashed
termination_by sizeOf v + 1

/-- The loop of `hashFullNodeChildren` from child `i` on: each of the first
sixteen children hashed, a nil one written as `nilValueNode`, and the value
slot left as it is. -/
def hashFullNodeChildren (i : ℕ) (cs : List node) : List hashed :=
  match cs with
  | [] => []
  | c :: cs =>
    (if i < 16 then (if c.isNil then .valueNode [] else hash c false) else c.toHashed) ::
      hashFullNodeChildren (i + 1) cs
termination_by sizeOf cs

end

/-- The collapsed node `hash` encodes for a node with children: what
`hashShortNodeChildren` and `hashFullNodeChildren` return. -/
def collapse : node → hashed
  | shortNode k v => hashShortNodeChildren keccak256 k v
  | fullNode cs => .fullNode (hashFullNodeChildren keccak256 0 cs)
  | n => n.toHashed

/-- `emptyRoot`: the known root hash of an empty trie, the bytes `common.HexToHash`
reads from its hex string. -/
def emptyRoot : PureChain.Hash :=
  PureChain.Hash.BytesToHash [0x56, 0xe8, 0x1f, 0x17, 0x1b, 0xcc, 0x55, 0xa6, 0xff, 0x83, 0x45, 0xe6, 0x92, 0xc0,
    0xf8, 0x6e, 0x5b, 0x48, 0xe0, 0x1b, 0x99, 0x6c, 0xad, 0xc0, 0x01, 0x62, 0x2f, 0xb5, 0xe3, 0x63, 0xb4, 0x21]

namespace Trie

/-- `hashRoot`: the root hashed by force, so that a small root gets a hash too;
the empty trie has the known hash. -/
def hashRoot (t : Trie) : hashed :=
  match t.root with
  | nil => .hashNode emptyRoot.bytes.toList
  | r => hash keccak256 r true

/-- `Hash`: the root hash. The type assertion to a hash node panics on a root
that does not hash to one. -/
def Hash (t : Trie) : Option PureChain.Hash :=
  match t.hashRoot keccak256 with
  | .hashNode h => some (PureChain.Hash.BytesToHash h)
  | _ => none

end Trie

end Hasher

/-! ### Equations of the encoding and the hasher -/

namespace hashed

theorem childItems_eq_map : ∀ cs : List hashed, childItems cs = cs.map childItem
  | [] => by rw [childItems, List.map_nil]
  | c :: cs => by
    cases c <;> simp [childItems, childItem, childItems_eq_map cs]

theorem toItem_fullNode (cs : List hashed) : (fullNode cs).toItem = .list (cs.map childItem) := by
  rw [toItem, childItems_eq_map]

end hashed

section Hasher

variable (keccak256 : List UInt8 → PureChain.Hash)

theorem length_hashData (data : List UInt8) : (hashData keccak256 data).length = 32 := by
  simp [hashData]

/-- `nodeToHash` keeps a small node when it is not forced and hashes it otherwise. -/
theorem nodeToHash_cases (n : hashed) (force : Bool) :
    (nodeToHash keccak256 n force = n ∧ n.toItem.encode.length < 32 ∧ force = false) ∨
      nodeToHash keccak256 n force = .hashNode (hashData keccak256 n.toItem.encode) := by
  unfold nodeToHash
  dsimp only
  split_ifs with h
  · exact Or.inl ⟨rfl, h.1, by simpa using h.2⟩
  · exact Or.inr rfl

theorem nodeToHash_true (n : hashed) : nodeToHash keccak256 n true = .hashNode (hashData keccak256 n.toItem.encode) := by
  simp [nodeToHash]

theorem hash_eq_nodeToHash {n : node} (h : n.hasChildren) (force : Bool) :
    hash keccak256 n force = nodeToHash keccak256 (collapse keccak256 n) force := by
  cases n with
  | shortNode k v => rw [hash]; rfl
  | fullNode cs => rw [hash]; rfl
  | nil => simp [hasChildren] at h
  | valueNode v => simp [hasChildren] at h

theorem collapse_shortNode (k : List UInt8) (v : node) :
    collapse keccak256 (shortNode k v) =
      .shortNode (hexToCompact k) (if v.hasChildren then hash keccak256 v false else v.toHashed) := by
  rw [collapse, hashShortNodeChildren]
  split_ifs <;> rfl

theorem hashFullNodeChildren_append : ∀ (i : ℕ) (cs ds : List node),
    hashFullNodeChildren keccak256 i (cs ++ ds) =
      hashFullNodeChildren keccak256 i cs ++ hashFullNodeChildren keccak256 (i + cs.length) ds
  | i, [], ds => by rw [List.nil_append, hashFullNodeChildren, List.nil_append, List.length_nil, Nat.add_zero]
  | i, c :: cs, ds => by
    rw [List.cons_append, hashFullNodeChildren, hashFullNodeChildren, hashFullNodeChildren_append (i + 1) cs ds,
      List.cons_append, List.length_cons, Nat.add_assoc, Nat.add_comm 1]

/-- Before the value slot each child is hashed, a nil one written as `nilValueNode`. -/
theorem hashFullNodeChildren_of_le : ∀ (i : ℕ) (cs : List node), i + cs.length ≤ 16 →
    hashFullNodeChildren keccak256 i cs = cs.map fun c => if c.isNil then .valueNode [] else hash keccak256 c false
  | i, [], _ => by rw [hashFullNodeChildren, List.map_nil]
  | i, c :: cs, h => by
    rw [List.length_cons] at h
    rw [hashFullNodeChildren, if_pos (by omega), hashFullNodeChildren_of_le (i + 1) cs (by omega), List.map_cons]

/-- The value slot is kept as it is. -/
theorem hashFullNodeChildren_sixteen (c : node) : hashFullNodeChildren keccak256 16 [c] = [c.toHashed] := by
  rw [hashFullNodeChildren, if_neg (by decide), hashFullNodeChildren]

theorem toItem_collapse_fullNode (cs : List node) :
    (collapse keccak256 (fullNode cs)).toItem = .list ((hashFullNodeChildren keccak256 0 cs).map hashed.childItem) := by
  rw [collapse, hashed.toItem_fullNode]

/-- A collapsed node with children is written as a list. -/
theorem toItem_collapse {n : node} (h : n.hasChildren) : ∃ items, (collapse keccak256 n).toItem = .list items := by
  cases n with
  | shortNode k v => exact ⟨_, by rw [collapse_shortNode, hashed.toItem]⟩
  | fullNode cs => exact ⟨_, toItem_collapse_fullNode keccak256 cs⟩
  | nil => simp [hasChildren] at h
  | valueNode v => simp [hasChildren] at h

/-- **What a child with children stands as in its parent**: its collapsed item,
or the string of the digest of its encoding. -/
theorem toItem_hash_false {c : node} (h : c.hasChildren) :
    (hash keccak256 c false).toItem = (collapse keccak256 c).toItem ∨
      (hash keccak256 c false).toItem = .str (hashData keccak256 (collapse keccak256 c).toItem.encode) := by
  rw [hash_eq_nodeToHash keccak256 h]
  rcases nodeToHash_cases keccak256 (collapse keccak256 c) false with ⟨he, -⟩ | he <;> rw [he]
  · exact Or.inl rfl
  · exact Or.inr (by rw [hashed.toItem])

/-- A child with children is never written as the empty string of a nil child. -/
theorem childItem_hash_false {c : node} (h : c.hasChildren) :
    (hash keccak256 c false).childItem = (hash keccak256 c false).toItem ∧
      (hash keccak256 c false).toItem ≠ .str [] := by
  have hne : hash keccak256 c false ≠ .nil := by
    rw [hash_eq_nodeToHash keccak256 h]
    rcases nodeToHash_cases keccak256 (collapse keccak256 c) false with ⟨he, -⟩ | he <;> rw [he]
    · cases c with
      | shortNode k v => rw [collapse_shortNode]; exact hashed.noConfusion
      | fullNode cs => exact hashed.noConfusion
      | nil => simp [hasChildren] at h
      | valueNode v => simp [hasChildren] at h
    · exact hashed.noConfusion
  refine ⟨by cases hc : hash keccak256 c false <;> simp_all [hashed.childItem], ?_⟩
  obtain ⟨items, hitems⟩ := toItem_collapse keccak256 h
  rcases toItem_hash_false keccak256 h with he | he <;> rw [he]
  · rw [hitems]
    exact Item.noConfusion
  · intro hs
    have := congrArg List.length (Item.str.inj hs)
    rw [length_hashData] at this
    exact absurd this (by decide)

/-- The encodings `hash` may give to Keccak-256 for a node: the collapsed
encoding of each short node and full node in it. -/
inductive Input : node → List UInt8 → Prop
  | here {n : node} : n.hasChildren → Input n (collapse keccak256 n).toItem.encode
  | below_short {k : List UInt8} {v : node} {x : List UInt8} : Input v x → Input (node.shortNode k v) x
  | below_full {cs : List node} {c : node} {x : List UInt8} : c ∈ cs → Input c x → Input (node.fullNode cs) x

end Hasher

/-! ### Terminated keys -/

/-- Hex keys that all end in the terminator, as the keys of a trie do. -/
structure TermKeys (K : Set (List UInt8)) : Prop extends HexKeys K where
  last : ∀ p x, p ++ [x] ∈ K → x = 16

theorem TermKeys.after {K : Set (List UInt8)} (hK : TermKeys K) (p : List UInt8) : TermKeys (after K p) where
  toHexKeys := hK.toHexKeys.after p
  last q x h := hK.last (p ++ q) x (by rwa [mem_after, ← List.append_assoc] at h)

theorem termKeys_keybytesToHex : TermKeys (Set.range keybytesToHex) where
  toHexKeys := hexKeys_keybytesToHex
  last p x := by
    rintro ⟨k, hk⟩
    rw [keybytesToHex_eq] at hk
    exact (List.singleton_inj.mp (List.append_inj' hk rfl).2).symm

/-- Before what is left of a key that goes on, every position holds a nibble. -/
theorem HexKeys.lt_sixteen {K : Set (List UInt8)} (hK : HexKeys K) {p s : List UInt8} (h : p ++ s ∈ K)
    (hs : s ≠ []) : ∀ x ∈ p, x < 16 := by
  intro x hx
  have hle := UInt8.le_iff_toNat_le.mp (hK.le_sixteen _ h x (List.mem_append_left s hx))
  have hne : x ≠ 16 := by
    rintro rfl
    -- a terminator inside the key would have to end it
    obtain ⟨a, b, rfl⟩ := List.append_of_mem hx
    have := hK.terminator a (b ++ s) (by simpa using h)
    exact hs (List.append_eq_nil_iff.mp this).2
  have hne' : x.toNat ≠ 16 := fun he => hne (UInt8.toNat_inj.mp he)
  exact UInt8.lt_iff_toNat_lt.mpr (by simp only [UInt8.reduceToNat] at hle ⊢; omega)

namespace node

theorem isNil_of_hasChildren {n : node} (h : n.hasChildren) : n.isNil = false := by
  cases n <;> simp_all [hasChildren, isNil]

/-- A node of the shape is nil, a value node or a node with children. -/
theorem Canon.kind {n : node} (hn : n.Canon) :
    n = node.nil ∨ (∃ w, n = node.valueNode w ∧ w ≠ []) ∨ n.hasChildren := by
  cases hn with
  | nil => exact Or.inl rfl
  | valueNode hw => exact Or.inr (Or.inl ⟨_, rfl, hw⟩)
  | shortNode => exact Or.inr (Or.inr rfl)
  | fullNode => exact Or.inr (Or.inr rfl)

/-- Below a node with children there is a value at a key that is not empty. -/
theorem Canon.exists_lookup_ne_nil {n : node} (hn : n.Canon) (h : n.hasChildren) :
    ∃ s, s ≠ [] ∧ n.lookup s ≠ [] := by
  obtain ⟨s, hs⟩ := hn.exists_lookup (isNil_of_hasChildren h)
  refine ⟨s, ?_, hs⟩
  rintro rfl
  cases hn with
  | shortNode hk0 => exact hs (by rw [lookup_shortNode, if_neg (fun hp => hk0 (List.prefix_nil.mp hp))])
  | fullNode => exact hs (lookup_fullNode_nil _)
  | nil => simp [hasChildren] at h
  | valueNode => simp [hasChildren] at h

/-- **The key of a short node**: a terminated key over a value node, or nibbles
over a full node. -/
theorem shortNode_key_cases {K : Set (List UInt8)} (hK : TermKeys K) {k : List UInt8} {c : node}
    (hc : (node.shortNode k c).Canon) (hk : (node.shortNode k c).KeysIn K) :
    (∃ ns w, (∀ x ∈ ns, x < 16) ∧ k = withTerm ns true ∧ c = node.valueNode w ∧ w ≠ []) ∨
      ((∀ x ∈ k, x < 16) ∧ ∃ cs, c = node.fullNode cs) := by
  cases hc with
  | shortNode hk0 hfv hcc =>
    cases c with
    | valueNode w =>
      cases hcc with
      | valueNode hw =>
        -- the short node's own key holds the value
        have hkK : k ∈ K := hk k (by rw [lookup_shortNode_valueNode, if_pos rfl]; exact hw)
        obtain ⟨ns, x, rfl⟩ := (List.eq_nil_or_concat k).resolve_left hk0
        rw [List.concat_eq_append] at hkK ⊢
        obtain rfl := hK.last ns x hkK
        exact Or.inl ⟨ns, w, hK.lt_sixteen hkK (List.cons_ne_nil _ _), rfl, rfl, hw⟩
    | fullNode cs =>
      obtain ⟨s, hs0, hs⟩ := hcc.exists_lookup_ne_nil rfl
      exact Or.inr ⟨hK.lt_sixteen (hk (k ++ s) (by rwa [lookup_shortNode_append])) hs0, cs, rfl⟩
    | nil => simp [isFullOrValue] at hfv
    | shortNode => simp [isFullOrValue] at hfv

/-- Before the value slot a full node holds nil or a node with children: a value
node there would end a key without the terminator. -/
theorem fullNode_child_cases_lt {K : Set (List UInt8)} (hK : TermKeys K) {cs : List node}
    (hk : (node.fullNode cs).KeysIn K) {j : ℕ} (hj : j < 16) (hc : (cs.getD j nil).Canon) :
    cs.getD j nil = node.nil ∨ (cs.getD j nil).hasChildren := by
  rcases hc.kind with h | ⟨w, hw, hw0⟩ | h
  · exact Or.inl h
  · exfalso
    have hj17 : j < 17 := by omega
    have hmem : [j.toUInt8] ∈ K := hk [j.toUInt8] (by
      rw [lookup_fullNode_cons, toNat_toUInt8 hj17, hw, lookup_valueNode, if_pos rfl]
      exact hw0)
    have h16 := hK.last [] j.toUInt8 hmem
    have := toNat_toUInt8 hj17
    rw [h16] at this
    simp at this
    omega
  · exact Or.inr h

/-- At the value slot a full node holds nil or a value node: a node with
children there would go on after the terminator. -/
theorem fullNode_child_cases_sixteen {K : Set (List UInt8)} (hK : TermKeys K) {cs : List node}
    (hk : (node.fullNode cs).KeysIn K) (hc : (cs.getD 16 nil).Canon) :
    cs.getD 16 nil = node.nil ∨ ∃ w, cs.getD 16 nil = node.valueNode w ∧ w ≠ [] := by
  rcases hc.kind with h | h | hch
  · exact Or.inl h
  · exact Or.inr h
  · exfalso
    obtain ⟨s, hs0, hs⟩ := hc.exists_lookup_ne_nil hch
    have hmem : 16 :: s ∈ K := hk (16 :: s) (by rwa [lookup_fullNode_cons])
    exact hs0 (hK.terminator [] s hmem)

end node

/-! ### Reading a collapsed node back -/

section Binding

variable {keccak256 : List UInt8 → PureChain.Hash}

end Binding

/-! ### The root hash -/

namespace Trie

section Inputs

variable (keccak256 : List UInt8 → PureChain.Hash)

end Inputs

variable {keccak256 : List UInt8 → PureChain.Hash}

theorem Hash_empty : empty.Hash keccak256 = some emptyRoot :=
  congrArg some (PureChain.Hash.BytesToHash_bytes emptyRoot)

/-- The hash of a root with children is the digest of its collapsed encoding. -/
theorem Hash_of_hasChildren {r : node} (h : r.hasChildren) :
    (Trie.mk r).Hash keccak256 = some (keccak256 (collapse keccak256 r).toItem.encode) := by
  have hroot : (Trie.mk r).hashRoot keccak256 = .hashNode (hashData keccak256 (collapse keccak256 r).toItem.encode) := by
    rw [← nodeToHash_true, ← hash_eq_nodeToHash keccak256 h]
    cases r with
    | nil => simp [hasChildren] at h
    | _ => rfl
  rw [Hash, hroot]
  exact congrArg some (PureChain.Hash.BytesToHash_bytes _)

/-- The root of a trie of the invariant is nil or has children: a value at the
root would be at the empty key, which is no key's hex encoding. -/
theorem Inv.root_cases {t : Trie} (ht : t.Inv) : t.root = nil ∨ t.root.hasChildren := by
  rcases ht.canon.kind with h | ⟨w, hw, hw0⟩ | h
  · exact Or.inl h
  · exfalso
    obtain ⟨key, hkey⟩ := ht.keys [] (by rw [hw, lookup_valueNode, if_pos rfl]; exact hw0)
    rw [keybytesToHex_eq] at hkey
    simp at hkey
  · exact Or.inr h

end Trie

end trie

end PureChain
