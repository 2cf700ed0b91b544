import PureChain.Trie.Decode

/-!
# `trie.Database`: the node store between a trie and the disk

A committed trie's nodes wait in the dirty cache (`dirties`), collapsed and with
their keys in compact form, until a flush writes their encodings to the disk
(`diskdb`); a clean cache (`cleans`) may keep encodings read from the disk. Two
readers look a hash up in the same three places in the same order, the clean
cache, the dirty cache, the disk: `Database.Node` gives the encoding, and
`Database.node` the node, decoded from an encoding or expanded from a dirty
entry. Both put what they read from the disk into the clean cache. `insert` adds
a committed node to the dirty cache, counts it as a parent of the children the
cache holds, and appends it to the flush-list.

The store is content addressed, and `Database.Valid` says so: each blob hashes
to its key and lies in a set `S` of encodings on which Keccak-256 is taken to be
injective, and each dirty node expands to what its encoding decodes to. Under
it `node` is `Node` decoded (`node_of_Node`), a read changes no answer of `node`
(`node_fill_node`), and an insert of a node that hashes to its key keeps every
answer `node` gave before (`Keeps.insert`). Those are the facts the trie read
through the store rests on (`PureChain.Trie.Backed`).

Left out: the preimage store of the secure trie, the external children of
`Reference` and the garbage collection of `Dereference`, the statistics and the
metrics, and the locks. A clean cache in the model gives back an empty blob,
which `fastcache` reports as a miss.
-/

namespace PureChain

namespace trie

open Rlp rlp

/-! ### The store -/

/-- `cachedNode`: a collapsed node in the dirty cache, with its encoded size, the
number of live nodes that refer to it, and its neighbours in the flush-list. The
node is `simplifyNode` of what the committer stored, which only drops flags the
model does not have. -/
structure cachedNode where
  node : hashed
  size : ℕ
  parents : ℕ
  flushPrev : PureChain.Hash
  flushNext : PureChain.Hash

/-- `Database`: the disk, the clean cache where one is configured, the dirty
cache, the two ends of the flush-list, and the size of the dirty nodes. -/
structure Database where
  diskdb : PureChain.Hash → Option (List UInt8)
  cleans : Option (PureChain.Hash → Option (List UInt8))
  dirties : PureChain.Hash → Option cachedNode
  oldest : PureChain.Hash
  newest : PureChain.Hash
  dirtiesSize : ℕ

/-- The meta root: the entry `NewDatabaseWithConfig` puts under the zero hash. -/
def metaroot : cachedNode := ⟨.nil, 0, 0, .zero, .zero⟩

/-- `NewDatabaseWithConfig`: an empty dirty cache but for the meta root, and an
empty clean cache when `Cache` megabytes are allowed for one. The journal a clean
cache may be loaded from is left out. -/
def NewDatabaseWithConfig (diskdb : PureChain.Hash → Option (List UInt8)) (Cache : ℕ) : Database where
  diskdb := diskdb
  cleans := if 0 < Cache then some fun _ => none else none
  dirties := fun h => if h = .zero then some metaroot else none
  oldest := .zero
  newest := .zero
  dirtiesSize := 0

/-- `NewDatabase`: no clean cache. -/
def NewDatabase (diskdb : PureChain.Hash → Option (List UInt8)) : Database :=
  NewDatabaseWithConfig diskdb 0

/-! ### Collapsed nodes in the dirty cache -/

namespace hashed

/-- A short node or a full node. -/
def hasChildren : hashed → Bool
  | shortNode _ _ => true
  | fullNode _ => true
  | _ => false

theorem ne_nil_of_hasChildren {r : hashed} (h : r.hasChildren) : r ≠ nil := by
  rintro rfl
  exact absurd h (by decide)

mutual

/-- `expandNode`: a collapsed node in the form a trie holds it, each key back in
hex form; `none` is the panic on a node of another kind, the nil interface. -/
def expandNode : hashed → Option hashed
  | shortNode k v => (expandNode v).map (shortNode (compactToHex k))
  | fullNode cs => (expandChildren cs).map fullNode
  | valueNode v => some (valueNode v)
  | hashNode h => some (hashNode h)
  | nil => none

/-- The loop of `expandNode` over a full node's children: a nil child stays nil. -/
def expandChildren : List hashed → Option (List hashed)
  | [] => some []
  | nil :: cs => (expandChildren cs).map (nil :: ·)
  | c :: cs => do
    let c ← expandNode c
    let cs ← expandChildren cs
    pure (c :: cs)

end

mutual

/-- `forGatherChildren`: the hashes a collapsed node refers to, searched for in its
embedded children and in the first sixteen slots of a full node. -/
def forGatherChildren : hashed → List PureChain.Hash
  | shortNode _ v => forGatherChildren v
  | fullNode cs => gatherChildren 0 cs
  | hashNode h => [PureChain.Hash.BytesToHash h]
  | _ => []

/-- The loop of `forGatherChildren` over a full node's children from slot `i` on. -/
def gatherChildren (i : ℕ) : List hashed → List PureChain.Hash
  | [] => []
  | c :: cs => (if i < 16 then forGatherChildren c else []) ++ gatherChildren (i + 1) cs

end

end hashed

/-- `mustDecodeNode`: the node an encoding decodes to; `none` is the panic on one
that does not decode. The hash it is also given goes only into the node flags
and the panic's text. -/
def mustDecodeNode (buf : List UInt8) : Option hashed := (decodeNode buf).toOption

namespace cachedNode

/-- `rlp`: the encoding of the cached node. -/
def rlp (n : cachedNode) : List UInt8 := n.node.toItem.encode

/-- `obj`: the cached node expanded. -/
def obj (n : cachedNode) : Option hashed := n.node.expandNode

end cachedNode

/-! ### Reading -/

namespace Database

/-- `db.cleans.Get`: the encoding the clean cache holds, if there is a clean cache. -/
def cleanGet (db : Database) (hash : PureChain.Hash) : Option (List UInt8) :=
  match db.cleans with
  | some c => c hash
  | none => none

/-- `db.cleans.Set`, where there is a clean cache. -/
def cleanSet (db : Database) (hash : PureChain.Hash) (enc : List UInt8) : Database :=
  { db with cleans := db.cleans.map fun c => Function.update c hash (some enc) }

/-- `node`: the node stored under `hash`, from the clean cache, the dirty cache or
the disk, the first that has it, and `nil` where none does. A node read from the
disk is put into the clean cache. `none` is a panic: of `mustDecodeNode`, or of
`expandNode` on the meta root. -/
def node (db : Database) (hash : PureChain.Hash) : Option hashed × Database :=
  match db.cleanGet hash with
  | some enc => (mustDecodeNode enc, db)
  | none =>
    match db.dirties hash with
    | some dirty => (dirty.obj, db)
    | none =>
      -- content unavailable in memory, attempt to retrieve from disk
      match db.diskdb hash with
      | none => (some .nil, db)
      | some enc => (mustDecodeNode enc, db.cleanSet hash enc)

/-- `Node`: the encoding stored under `hash`, from the same three places; the zero
hash is the meta root and is not looked up, and an empty blob on the disk is not
found. An encoding read from the disk is put into the clean cache. -/
def Node (db : Database) (hash : PureChain.Hash) : Except String (List UInt8) × Database :=
  if hash = .zero then (throw "not found", db)
  else
    match db.cleanGet hash with
    | some enc => (pure enc, db)
    | none =>
      match db.dirties hash with
      | some dirty => (pure dirty.rlp, db)
      | none =>
        match db.diskdb hash with
        | some enc => if enc.length ≠ 0 then (pure enc, db.cleanSet hash enc) else (throw "not found", db)
        | none => (throw "not found", db)

/-! ### Writing -/

/-- The callback `insert` gives `forChilds`: one more parent, as a `uint32`, for
each child the dirty cache holds. -/
def addParents (dirties : PureChain.Hash → Option cachedNode) : List PureChain.Hash → PureChain.Hash → Option cachedNode
  | [] => dirties
  | child :: rest =>
    addParents
      (match dirties child with
        | some c => Function.update dirties child (some { c with parents := (c.parents + 1) % 2 ^ 32 })
        | none => dirties)
      rest

/-- `insert`: a collapsed node put into the dirty cache under its hash, unless one
is cached there already; it is counted as a parent of its children in the cache
and becomes the newest node of the flush-list. `none` is the panic on a flush-list
whose newest node is not in the cache. -/
def insert (db : Database) (hash : PureChain.Hash) (size : ℕ) (node : hashed) : Option Database :=
  if (db.dirties hash).isSome then some db
  else
    let entry : cachedNode := ⟨node, size % 2 ^ 16, 0, db.newest, .zero⟩
    let dirties := Function.update (addParents db.dirties node.forGatherChildren) hash (some entry)
    let dirtiesSize := db.dirtiesSize + (32 + entry.size)
    -- update the flush-list endpoints
    if db.oldest = .zero then
      some { db with dirties := dirties, oldest := hash, newest := hash, dirtiesSize := dirtiesSize }
    else
      match dirties db.newest with
      | none => none
      | some last =>
        some { db with dirties := Function.update dirties db.newest (some { last with flushNext := hash }),
                       newest := hash, dirtiesSize := dirtiesSize }

/-! ### What a read looks at -/

theorem cleanGet_cleanSet (db : Database) (hash h : PureChain.Hash) (enc : List UInt8) :
    (db.cleanSet hash enc).cleanGet h = if h = hash ∧ db.cleans.isSome then some enc else db.cleanGet h := by
  rcases hc : db.cleans with _ | c
  · simp [cleanGet, cleanSet, hc]
  · by_cases hh : h = hash
    · simp [cleanGet, cleanSet, hc, hh]
    · simp [cleanGet, cleanSet, hc, hh]

@[simp] theorem dirties_cleanSet (db : Database) (hash : PureChain.Hash) (enc : List UInt8) :
    (db.cleanSet hash enc).dirties = db.dirties := rfl

@[simp] theorem diskdb_cleanSet (db : Database) (hash : PureChain.Hash) (enc : List UInt8) :
    (db.cleanSet hash enc).diskdb = db.diskdb := rfl

/-- What `node` answers, from what each layer holds at the hash; of a dirty entry
only the node counts. -/
theorem node_fst (db : Database) (h : PureChain.Hash) :
    (db.node h).1 =
      match db.cleanGet h, (db.dirties h).map cachedNode.node, db.diskdb h with
      | some enc, _, _ => mustDecodeNode enc
      | none, some n, _ => n.expandNode
      | none, none, none => some .nil
      | none, none, some enc => mustDecodeNode enc := by
  unfold node
  rcases db.cleanGet h with _ | enc
  · rcases db.dirties h with _ | d
    · rcases db.diskdb h with _ | enc <;> rfl
    · rfl
  · rfl

theorem node_congr {db db' : Database} {h : PureChain.Hash} (hc : db'.cleanGet h = db.cleanGet h)
    (hd : (db'.dirties h).map cachedNode.node = (db.dirties h).map cachedNode.node)
    (hk : db'.diskdb h = db.diskdb h) : (db'.node h).1 = (db.node h).1 := by
  rw [node_fst, node_fst, hc, hd, hk]

/-- What a read leaves behind: the store, with the disk's blob in the clean cache
when that is where the node came from. -/
theorem node_snd (db : Database) (h : PureChain.Hash) :
    (db.node h).2 =
      match db.cleanGet h, db.dirties h, db.diskdb h with
      | none, none, some enc => db.cleanSet h enc
      | _, _, _ => db := by
  unfold node
  rcases db.cleanGet h with _ | enc
  · rcases db.dirties h with _ | d
    · rcases db.diskdb h with _ | enc <;> rfl
    · rfl
  · rfl

/-- **A read changes no answer of `node`**: the clean cache is only given what the
disk holds at the same hash. -/
theorem node_fill_node (db : Database) (hash h : PureChain.Hash) :
    (((db.node hash).2).node h).1 = (db.node h).1 := by
  rw [node_snd]
  rcases hc : db.cleanGet hash with _ | enc
  · rcases hd : db.dirties hash with _ | d
    · rcases hk : db.diskdb hash with _ | enc
      · rfl
      · -- the disk's blob goes into the clean cache, where the next read finds it first
        by_cases hh : h = hash
        · subst hh
          simp only [node_fst, cleanGet_cleanSet, dirties_cleanSet, diskdb_cleanSet, hc, hd, hk, true_and,
            Option.map_none]
          split_ifs <;> rfl
        · exact node_congr (by rw [cleanGet_cleanSet, if_neg (fun h' => hh h'.1)]) rfl rfl
    · rfl
  · rfl

/-! ### The invariant of a content-addressed store -/

section Valid

variable (keccak256 : List UInt8 → PureChain.Hash)

/-- **The store is content addressed.** Every blob on the disk and in the clean
cache, and the encoding of every dirty node but the meta root, hashes to its key
and lies in `S`; every such dirty node expands to what its encoding decodes to;
and a flush-list that is not empty ends at a node of the dirty cache. -/
structure Valid (S : Set (List UInt8)) (db : Database) : Prop where
  disk : ∀ h y, db.diskdb h = some y → y ∈ S ∧ keccak256 y = h
  clean : ∀ h y, db.cleanGet h = some y → y ∈ S ∧ keccak256 y = h
  dirty : ∀ h d, h ≠ .zero → db.dirties h = some d → d.rlp ∈ S ∧ keccak256 d.rlp = h ∧ d.obj = mustDecodeNode d.rlp
  ends : db.oldest ≠ .zero → (db.dirties db.newest).isSome

/-- `db'` gives every node `db` gives, at the same hash. -/
def Keeps (db db' : Database) : Prop :=
  ∀ h r, (db.node h).1 = some r → r ≠ .nil → (db'.node h).1 = some r

end Valid

theorem Keeps.refl (db : Database) : Keeps db db := fun _ _ hr _ => hr

theorem Keeps.trans {db₁ db₂ db₃ : Database} (h₁ : Keeps db₁ db₂) (h₂ : Keeps db₂ db₃) : Keeps db₁ db₃ :=
  fun h r hr hn => h₂ h r (h₁ h r hr hn) hn

theorem Keeps.node_fill (db : Database) (hash : PureChain.Hash) : Keeps db (db.node hash).2 :=
  fun h _ hr _ => (node_fill_node db hash h).trans hr

section Read

variable {keccak256 : List UInt8 → PureChain.Hash} {S : Set (List UInt8)}

theorem NewDatabase_valid {diskdb : PureChain.Hash → Option (List UInt8)}
    (hdisk : ∀ h y, diskdb h = some y → y ∈ S ∧ keccak256 y = h) : Valid keccak256 S (NewDatabase diskdb) where
  disk := hdisk
  clean h y hy := by simp [NewDatabase, NewDatabaseWithConfig, cleanGet] at hy
  dirty h d hh hd := by simp [NewDatabase, NewDatabaseWithConfig, hh] at hd
  ends h := absurd rfl h

/-- A read keeps the store content addressed. -/
theorem Valid.node_fill {db : Database} (hv : Valid keccak256 S db) (hash : PureChain.Hash) :
    Valid keccak256 S (db.node hash).2 := by
  unfold node
  rcases hc : db.cleanGet hash with _ | enc
  · rcases hd : db.dirties hash with _ | d
    · rcases hk : db.diskdb hash with _ | enc
      · exact hv
      · exact
          { disk := hv.disk
            clean := fun h y hy => by
              rw [cleanGet_cleanSet] at hy
              split_ifs at hy with hh
              · rw [← Option.some.inj hy, hh.1]
                exact hv.disk _ _ hk
              · exact hv.clean h y hy
            dirty := hv.dirty
            ends := hv.ends }
    · exact hv
  · exact hv

/-- **`node` is `Node` decoded**: where `Node` finds an encoding, `node` gives the
node it decodes to. -/
theorem node_of_Node {db : Database} (hv : Valid keccak256 S db) {h : PureChain.Hash} {y : List UInt8}
    (hN : (db.Node h).1 = .ok y) : (db.node h).1 = mustDecodeNode y := by
  by_cases hz : h = .zero
  · rw [Node, if_pos hz] at hN
    exact absurd hN Except.throw_ne_ok
  rw [Node, if_neg hz] at hN
  rw [node_fst]
  rcases hc : db.cleanGet h with _ | enc <;> rw [hc] at hN <;> dsimp only at hN ⊢
  · rcases hd : db.dirties h with _ | d <;> rw [hd] at hN <;> dsimp only at hN ⊢
    · rcases hk : db.diskdb h with _ | enc <;> rw [hk] at hN <;> dsimp only at hN ⊢
      · exact absurd hN Except.throw_ne_ok
      · have hy : enc = y := by split_ifs at hN; simpa using hN
        rw [hy]
        rfl
    · -- a dirty node expands to what its encoding decodes to
      have hy : d.rlp = y := by simpa using hN
      rw [← hy, ← (hv.dirty h d hz hd).2.2]
      rfl
  · rw [show enc = y by simpa using hN]

/-- In a store that is content addressed on `S`, the node under the hash of an
encoding of `S` is nil or what that encoding decodes to. -/
theorem Valid.node_keccak {db : Database} (hv : Valid keccak256 S db) (hinj : Set.InjOn keccak256 S)
    {x : List UInt8} (hx : x ∈ S) (hz : keccak256 x ≠ .zero) :
    (db.node (keccak256 x)).1 = some .nil ∨ (db.node (keccak256 x)).1 = mustDecodeNode x := by
  unfold node
  rcases hc : db.cleanGet (keccak256 x) with _ | y
  · rcases hd : db.dirties (keccak256 x) with _ | d
    · rcases hk : db.diskdb (keccak256 x) with _ | y
      · exact Or.inl rfl
      · obtain ⟨hy, hky⟩ := hv.disk _ _ hk
        exact Or.inr (by rw [hinj hy hx hky])
    · obtain ⟨hy, hky, hobj⟩ := hv.dirty _ d hz hd
      exact Or.inr (by rw [show (d.obj, db).1 = d.obj from rfl, hobj, hinj hy hx hky])
  · obtain ⟨hy, hky⟩ := hv.clean _ _ hc
    exact Or.inr (by rw [hinj hy hx hky])

end Read

/-! ### What an insert changes -/

theorem addParents_node (dirties : PureChain.Hash → Option cachedNode) :
    ∀ (cs : List PureChain.Hash) (h : PureChain.Hash),
      (addParents dirties cs h).map cachedNode.node = (dirties h).map cachedNode.node
  | [], _ => rfl
  | child :: rest, h => by
    rw [addParents, addParents_node _ rest h]
    rcases hc : dirties child with _ | c
    · rfl
    · dsimp only
      by_cases hh : h = child
      · subst hh
        rw [Function.update_self, hc]
        rfl
      · rw [Function.update_of_ne hh]

theorem addParents_isSome (dirties : PureChain.Hash → Option cachedNode) (cs : List PureChain.Hash)
    (h : PureChain.Hash) : (addParents dirties cs h).isSome = (dirties h).isSome := by
  have := congrArg Option.isSome (addParents_node dirties cs h)
  rwa [Option.isSome_map, Option.isSome_map] at this

/-- **What `insert` leaves in the dirty cache**: the new node under its hash when
none was cached there, and every other entry's node as it was. The parent
counts and the flush-list links it also writes are not read by `node`. -/
theorem insert_dirties {db db' : Database} {hash : PureChain.Hash} {size : ℕ} {n : hashed}
    (hi : db.insert hash size n = some db') (k : PureChain.Hash) :
    (db'.dirties k).map cachedNode.node =
      if (db.dirties hash).isNone ∧ k = hash then some n else (db.dirties k).map cachedNode.node := by
  unfold insert at hi
  split_ifs at hi with hs ho
  · cases hi
    rw [if_neg (by rw [Option.isNone_iff_eq_none]; rintro ⟨h0, -⟩; simp [h0] at hs)]
  · cases hi
    by_cases hk : k = hash
    · simp [hk, Option.not_isSome_iff_eq_none.mp hs]
    · simp only [Function.update_of_ne hk, addParents_node, hk, and_false, if_false]
  · dsimp only at hi
    split at hi
    · cases hi
    · next last hl =>
      cases hi
      -- the flush-list link of the old newest node changes, and nothing it stores
      have hkeep : ∀ k, (Function.update (Function.update (addParents db.dirties n.forGatherChildren) hash
          (some ⟨n, size % 2 ^ 16, 0, db.newest, .zero⟩)) db.newest (some { last with flushNext := hash }) k).map
            cachedNode.node = (Function.update (addParents db.dirties n.forGatherChildren) hash
          (some ⟨n, size % 2 ^ 16, 0, db.newest, .zero⟩) k).map cachedNode.node := by
        intro k
        by_cases hk : k = db.newest
        · subst hk
          rw [Function.update_self, hl]
          rfl
        · rw [Function.update_of_ne hk]
      dsimp only
      rw [hkeep]
      by_cases hk : k = hash
      · simp [hk, Option.not_isSome_iff_eq_none.mp hs]
      · simp only [Function.update_of_ne hk, addParents_node, hk, and_false, if_false]

theorem insert_cleans {db db' : Database} {hash : PureChain.Hash} {size : ℕ} {n : hashed}
    (hi : db.insert hash size n = some db') : db'.cleans = db.cleans ∧ db'.diskdb = db.diskdb := by
  unfold insert at hi
  split_ifs at hi
  · cases hi
    exact ⟨rfl, rfl⟩
  · cases hi
    exact ⟨rfl, rfl⟩
  · dsimp only at hi
    split at hi
    · cases hi
    · cases hi
      exact ⟨rfl, rfl⟩

/-- `insert` ends the flush-list at a node of the dirty cache. -/
theorem insert_ends {db db' : Database} {hash : PureChain.Hash} {size : ℕ} {n : hashed}
    (hv : db.oldest ≠ .zero → (db.dirties db.newest).isSome) (hi : db.insert hash size n = some db') :
    db'.oldest ≠ .zero → (db'.dirties db'.newest).isSome := by
  unfold insert at hi
  split_ifs at hi
  · cases hi
    exact hv
  · cases hi
    intro
    simp
  · dsimp only at hi
    split at hi
    · cases hi
    · cases hi
      intro
      by_cases hk : hash = db.newest
      · simp [hk]
      · simp [Function.update_of_ne hk]

/-- **`insert` does not panic** on a flush-list that ends at a cached node. -/
theorem insert_isSome {db : Database} (hv : db.oldest ≠ .zero → (db.dirties db.newest).isSome)
    (hash : PureChain.Hash) (size : ℕ) (n : hashed) : (db.insert hash size n).isSome := by
  unfold insert
  split_ifs with hs ho
  · rfl
  · rfl
  · -- the old newest node is still cached, unless it is the one just written
    dsimp only
    have hnew : (Function.update (addParents db.dirties n.forGatherChildren) hash
        (some ⟨n, size % 2 ^ 16, 0, db.newest, .zero⟩) db.newest).isSome := by
      by_cases hk : db.newest = hash
      · rw [hk, Function.update_self]
        rfl
      · rw [Function.update_of_ne hk, addParents_isSome]
        exact hv ho
    obtain ⟨last, hl⟩ := Option.isSome_iff_exists.mp hnew
    rw [hl]
    rfl

section Insert

variable {keccak256 : List UInt8 → PureChain.Hash} {S : Set (List UInt8)}

/-- What the committer gives `insert`: a node whose encoding lies in `S` and
hashes to the key, and which expands to what its encoding decodes to. -/
def Sound (keccak256 : List UInt8 → PureChain.Hash) (S : Set (List UInt8)) (hash : PureChain.Hash) (n : hashed) :
    Prop :=
  n.toItem.encode ∈ S ∧ keccak256 n.toItem.encode = hash ∧ n.expandNode = mustDecodeNode n.toItem.encode

/-- **`insert` keeps the store content addressed.** -/
theorem Valid.insert {db db' : Database} (hv : Valid keccak256 S db) {hash : PureChain.Hash} {size : ℕ}
    {n : hashed} (hn : hash ≠ .zero → Sound keccak256 S hash n) (hi : db.insert hash size n = some db') :
    Valid keccak256 S db' where
  disk h y hy := hv.disk h y (by rwa [(insert_cleans hi).2] at hy)
  clean h y hy := hv.clean h y (by rwa [cleanGet, (insert_cleans hi).1] at hy)
  dirty h d hz hd := by
    have hmap := insert_dirties hi h
    rw [hd] at hmap
    split_ifs at hmap with hnew
    · -- the new entry
      obtain ⟨-, rfl⟩ := hnew
      have hdn : d.node = n := Option.some.inj hmap
      simp only [cachedNode.rlp, cachedNode.obj, hdn]
      exact hn hz
    · -- an entry that was there, its node unchanged
      obtain ⟨d₀, hd₀, hnode⟩ := Option.map_eq_some_iff.mp hmap.symm
      have hsame := hv.dirty h d₀ hz hd₀
      simp only [cachedNode.rlp, cachedNode.obj] at hnode hsame ⊢
      rwa [← hnode]
  ends := insert_ends hv.ends hi

/-- **An insert keeps every answer `node` gave**: the node under the new key read
before from the disk is what the new entry expands to, the two encodings having
one hash. -/
theorem Keeps.insert {db db' : Database} (hv : Valid keccak256 S db) (hinj : Set.InjOn keccak256 S)
    {hash : PureChain.Hash} {size : ℕ} {n : hashed} (hz : hash ≠ .zero) (hn : Sound keccak256 S hash n)
    (hi : db.insert hash size n = some db') : Keeps db db' := by
  intro k r hr hnil
  have hcl : db'.cleanGet k = db.cleanGet k := by rw [cleanGet, cleanGet, (insert_cleans hi).1]
  have hdisk : db'.diskdb k = db.diskdb k := by rw [(insert_cleans hi).2]
  have hmap := insert_dirties hi k
  split_ifs at hmap with hnew
  · -- the key of the new entry, where nothing was cached
    obtain ⟨hnone, hk⟩ := hnew
    subst hk
    rw [node_fst, hcl, hmap, hdisk]
    rw [node_fst, Option.isNone_iff_eq_none.mp hnone, Option.map_none] at hr
    rcases hc : db.cleanGet k with _ | y <;> rw [hc] at hr
    · rcases hd : db.diskdb k with _ | y <;> rw [hd] at hr
      · exact absurd (Option.some.inj hr).symm hnil
      · -- the disk held the same encoding under the same hash
        obtain ⟨hy, hky⟩ := hv.disk _ _ hd
        show n.expandNode = some r
        rw [hn.2.2, ← hinj hy hn.1 (hky.trans hn.2.1.symm)]
        exact hr
    · exact hr
  · rw [← hr]
    exact node_congr hcl hmap hdisk

/-- After an insert, the node under its key is what the inserted node expands to,
whichever layer it is read from. -/
theorem node_insert_self {db db' : Database} (hv : Valid keccak256 S db) (hinj : Set.InjOn keccak256 S)
    {hash : PureChain.Hash} {size : ℕ} {n : hashed} (hz : hash ≠ .zero) (hn : Sound keccak256 S hash n)
    (hi : db.insert hash size n = some db') : (db'.node hash).1 = n.expandNode := by
  have hmap := insert_dirties hi hash
  rw [node_fst, hmap, cleanGet, (insert_cleans hi).1, (insert_cleans hi).2, ← cleanGet]
  rcases hc : db.cleanGet hash with _ | y
  · rcases hd : db.dirties hash with _ | d
    · simp
    · -- an entry was cached under the key already
      obtain ⟨hy, hky, hobj⟩ := hv.dirty hash d hz hd
      simp only [Option.isNone_some, Option.map_some]
      rw [hn.2.2, ← hinj hy hn.1 (hky.trans hn.2.1.symm), ← hobj]
      rfl
  · obtain ⟨hy, hky⟩ := hv.clean _ _ hc
    rw [hn.2.2, hinj hy hn.1 (hky.trans hn.2.1.symm)]

end Insert

end Database

end trie

end PureChain
