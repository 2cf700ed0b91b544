import PureChain.Trie.Encoding

/-!
# Package `trie`: the in-memory Merkle Patricia trie

`Trie.TryGet`, `Trie.TryUpdate` and `Trie.TryDelete` walk the nodes of the
trie down a key's hex encoding. `tryGet` reads, `insert` splits a short node
into a branch at the first nibble where the keys differ, and `delete` merges
what is left on the way back up (`reduceFullNode`). This module models the trie
as it sits in memory, before it is committed. Its nodes are `nil`, full nodes,
short nodes and value nodes; the cache flags and the hash nodes of a committed
trie are not modelled. Where the source indexes out of range the model returns
`none`, for the panic.

What the walks compute is in `PureChain.Trie.Map` (the map a node stands for, and
that `tryGet` reads it) and `PureChain.Trie.Update` (that `insert` and `delete`
update it and keep the shape).
-/

namespace PureChain

namespace trie

/-! ### Nodes -/

/-- `node`: the nodes of an in-memory trie, `nil` the nil interface value. The
seventeen `Children` of a full node are the array of the source. -/
inductive node where
  | nil
  | fullNode (Children : List node)
  | shortNode (Key : List UInt8) (Val : node)
  | valueNode (v : List UInt8)

namespace node

/-- `n == nil`. -/
def isNil : node → Bool
  | nil => true
  | _ => false

@[simp] theorem isNil_nil : nil.isNil = true := rfl

theorem eq_nil_of_isNil {c : node} (h : c.isNil = true) : c = nil := by
  cases c <;> simp_all [isNil]

/-- What may stand below a short node: a full node or a value node. -/
def isFullOrValue : node → Bool
  | fullNode _ => true
  | valueNode _ => true
  | _ => false

theorem isNil_of_isFullOrValue {c : node} (h : c.isFullOrValue) : c.isNil = false := by
  cases c <;> simp_all [isFullOrValue, isNil]

theorem sizeOf_lt_of_getElem? {cs : List node} {i : ℕ} {c : node} (h : cs[i]? = some c) :
    sizeOf c < sizeOf (fullNode cs) := by
  have := List.sizeOf_lt_of_mem (List.mem_of_getElem? h)
  simp only [fullNode.sizeOf_spec]
  omega

theorem sizeOf_nil_lt_shortNode (k : List UInt8) (c : node) : sizeOf nil < sizeOf (shortNode k c) := by
  have : 0 < sizeOf c := by cases c <;> simp
  simp only [nil.sizeOf_spec, shortNode.sizeOf_spec]
  omega

end node

open node

/-- `fullNode{}`: seventeen nil children. -/
def emptyChildren : List node := List.replicate 17 nil

/-- `Children[i] = c`; an index past the array is a panic. -/
def setChild (cs : List node) (i : UInt8) (c : node) : Option (List node) :=
  if i.toNat < cs.length then some (cs.set i.toNat c) else none

/-- `concat`: a new slice of `s1` and then `s2`. -/
def concat (s1 s2 : List UInt8) : List UInt8 := s1 ++ s2

/-! ### The three walks of `trie.go` -/

/-- `tryGet`: the value at `key` read from position `pos` on, `[]` (nil) where
there is none. -/
def tryGet (origNode : node) (key : List UInt8) (pos : ℕ) : Option (List UInt8) :=
  match origNode with
  | nil => some []
  | valueNode v => some v
  | shortNode k v =>
    if (key.length : ℤ) - pos < k.length ∨ k ≠ (key.drop pos).take k.length then
      -- key not found in trie
      some []
    else tryGet v key (pos + k.length)
  | fullNode cs =>
    match key[pos]? with
    | none => none
    | some i =>
      match _h : cs[i.toNat]? with
      | none => none
      | some c => tryGet c key (pos + 1)
termination_by sizeOf origNode
decreasing_by
  all_goals first | decreasing_tactic | (apply sizeOf_lt_of_getElem?; assumption)

/-- `insert`: the node with `value` put at `key`, and whether anything changed
(`dirty`). The `prefix` argument only names the path for a hash node's
resolution, and is left out with them. -/
def insert (n : node) (key : List UInt8) (value : node) : Option (Bool × node) :=
  if key.length = 0 then
    match n, value with
    | valueNode v, valueNode w => some (v ≠ w, value)
    -- the type assertion `value.(valueNode)` panics
    | valueNode _, _ => none
    | _, _ => some (true, value)
  else
    match n with
    | shortNode k nv =>
      let matchlen := prefixLen key k
      -- If the whole key matches, keep this short node as is and only update the value.
      if matchlen = k.length then
        match insert nv (key.drop matchlen) value with
        | none => none
        | some (dirty, nn) => if !dirty then some (false, n) else some (true, shortNode k nn)
      else
        -- Otherwise branch out at the index where they differ.
        match k[matchlen]?, key[matchlen]? with
        | some kb, some b => do
          let (_, c₁) ← insert nil (k.drop (matchlen + 1)) nv
          let cs ← setChild emptyChildren kb c₁
          let (_, c₂) ← insert nil (key.drop (matchlen + 1)) value
          let cs ← setChild cs b c₂
          -- Replace this shortNode with the branch if it occurs at index 0.
          if matchlen = 0 then some (true, fullNode cs)
          else some (true, shortNode (key.take matchlen) (fullNode cs))
        | _, _ => none
    | fullNode cs =>
      match key[0]? with
      | none => none
      | some b =>
        match _h : cs[b.toNat]? with
        | none => none
        | some c =>
          match insert c (key.drop 1) value with
          | none => none
          | some (dirty, nn) =>
            if !dirty then some (false, n)
            else (setChild cs b nn).map fun cs => (true, fullNode cs)
    | nil => some (true, shortNode key value)
    | valueNode _ => none
termination_by sizeOf n
decreasing_by
  all_goals first | decreasing_tactic | (apply sizeOf_lt_of_getElem?; assumption) |
    exact sizeOf_nil_lt_shortNode _ _

/-- The index loop of `delete`: the position of the one child that is not nil,
`-1` when there is none and `-2` as soon as there is a second one. -/
def childPos : List node → ℕ → ℤ → ℤ
  | [], _, pos => pos
  | nil :: cs, i, pos => childPos cs (i + 1) pos
  | _ :: cs, i, pos => if pos = -1 then childPos cs (i + 1) i else -2

/-- The end of `delete` at a full node: reduced to a short node if only one
child is left, merged with that child when it is a short node, except at the
value slot `16`. -/
def reduceFullNode (cs : List node) : node :=
  let pos := childPos cs 0 (-1)
  if 0 ≤ pos then
    let c := cs.getD pos.toNat nil
    if pos ≠ 16 then
      match c with
      | shortNode ck cv => shortNode (concat [pos.toNat.toUInt8] ck) cv
      | _ => shortNode [pos.toNat.toUInt8] c
    else shortNode [pos.toNat.toUInt8] c
  else fullNode cs

/-- `delete`: the node with `key` deleted, and whether anything changed. -/
def delete (n : node) (key : List UInt8) : Option (Bool × node) :=
  match n with
  | shortNode k v =>
    let matchlen := prefixLen key k
    -- don't replace n on mismatch
    if matchlen < k.length then some (false, n)
    -- remove n entirely for whole matches
    else if matchlen = key.length then some (true, nil)
    else
      match delete v (key.drop k.length) with
      | none => none
      | some (dirty, child) =>
        if !dirty then some (false, n)
        else
          match child with
          | shortNode ck cv => some (true, shortNode (concat k ck) cv)
          | _ => some (true, shortNode k child)
  | fullNode cs =>
    match key[0]? with
    -- `key[0]` on an empty key panics
    | none => none
    | some b =>
      match _h : cs[b.toNat]? with
      | none => none
      | some c =>
        match delete c (key.drop 1) with
        | none => none
        | some (dirty, nn) =>
          if !dirty then some (false, n)
          else (setChild cs b nn).map fun cs => (true, reduceFullNode cs)
  | valueNode _ => some (true, nil)
  | nil => some (false, nil)
termination_by sizeOf n
decreasing_by
  all_goals first | decreasing_tactic | (apply sizeOf_lt_of_getElem?; assumption)

/-- `Trie`: the root node. The database and the count of unhashed updates are
read only by hashing and committing, which are not modelled. -/
structure Trie where
  root : node

namespace Trie

/-- The zero value `Trie{}`, and the trie `New` opens at the empty root. -/
def empty : Trie := ⟨nil⟩

/-- `TryGet`. -/
def TryGet (t : Trie) (key : List UInt8) : Option (List UInt8) :=
  tryGet t.root (keybytesToHex key) 0

/-- `TryUpdate`: an empty value deletes the key. -/
def TryUpdate (t : Trie) (key value : List UInt8) : Option Trie :=
  let k := keybytesToHex key
  if value.length ≠ 0 then (insert t.root k (valueNode value)).map fun r => ⟨r.2⟩
  else (delete t.root k).map fun r => ⟨r.2⟩

/-- `TryDelete`. -/
def TryDelete (t : Trie) (key : List UInt8) : Option Trie :=
  (delete t.root (keybytesToHex key)).map fun r => ⟨r.2⟩
/-- The calls that change a trie. -/
inductive Op where
  | TryUpdate (key value : List UInt8)
  | TryDelete (key : List UInt8)

/-- One call. -/
def step (t : Trie) : Op → Option Trie
  | .TryUpdate key value => t.TryUpdate key value
  | .TryDelete key => t.TryDelete key

end Trie

end trie

end PureChain
