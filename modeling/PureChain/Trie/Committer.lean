import PureChain.Trie.Backed

/-!
# `committer`: writing a hashed trie into its database

`Trie.Commit` hashes the trie, then walks it once more (`commit`) and stores
each node the hasher gave a hash in the database's dirty cache under that hash
(`store`, `Database.insert`), children before their parent; a node too small to
be hashed stays inside its parent. It returns the root hash, and the trie then
holds only the root's hash node: every read after it goes through the database.

The hasher leaves its hashes in the node flags, which the model does not have.
Every node of an in-memory trie was built by an update since the trie was opened
empty, so it is dirty and its flags hold what `hasher.hash` gave it: `commit`
reads the hash it stores a node under from `hash` (`cachedHash`), forced for the
root, and never takes the early return of a clean node.

The result is that a committed trie reads back (`Commit_represents`): what
`commit` stores and returns resolves, through the database it leaves, to the
in-memory node (`commit_spec`), so the trie `Commit` leaves, and the one `New`
opens at the root hash it returns, stand for the trie that was committed. Each
of its reads then answers the committed trie's map (`Trie.TryGet_represents`).
The database stays content addressed, and keeps every node it gave before, as
long as Keccak-256 is injective on its blobs and on the encodings of the trie.

Left out: the leaf callback and the goroutine it runs (`commitLoop`), which
inserts the same nodes in the same order; and the hasher pool.
-/

namespace PureChain

namespace trie

open Rlp rlp PrefixCode node

/-! ### The committer -/

mutual

/-- `estimateSize`: the size `insert` records for a collapsed node, three bytes of
list header counted for a short node or a full node, and one byte for a nil
child of a full node. The value slot of a full node is not counted. `none` is the
panic on a node of another kind. -/
def estimateSize : hashed → Option ℕ
  | .shortNode k v => (estimateSize v).map (3 + k.length + ·)
  | .fullNode cs => (estimateChildren 0 cs).map (3 + ·)
  | .valueNode v => some (1 + v.length)
  | .hashNode h => some (1 + h.length)
  | .nil => none

/-- The loop of `estimateSize` over the first sixteen children of a full node. -/
def estimateChildren (i : ℕ) : List hashed → Option ℕ
  | [] => some 0
  | c :: cs =>
    if i < 16 then do
      let s ← match c with
        | .nil => some 1
        | c => estimateSize c
      let rest ← estimateChildren (i + 1) cs
      pure (s + rest)
    else some 0

end

section Committer

variable (keccak256 : List UInt8 → PureChain.Hash)

/-- The hash `hasher.hash` left in a node's flags: the digest of the hash node it
gave the node, forced for the root, and none for a node small enough to be kept
inside its parent. -/
def cachedHash (n : node) (force : Bool) : Option (List UInt8) :=
  match hash keccak256 n force with
  | .hashNode h => some h
  | _ => none

/-- `store`: a collapsed node with a hash in its flags is inserted into the
database under that hash and stands as the hash node; one without stays as it
is, to be kept inside its parent. -/
def store (n : hashed) (cached : Option (List UInt8)) (db : Database) : Option (hashed × Database) :=
  match cached with
  | none => some (n, db)
  | some h => do
    let size ← estimateSize n
    let db ← db.insert (PureChain.Hash.BytesToHash h) size n
    pure (.hashNode h, db)

mutual

/-- `committer.commit`: the node collapsed, its children committed first, and
stored; what its parent holds in its place. `force` says which hash the hasher
left in the flags, the forced one of the root. A nil node or a value node is the
panic of the source. -/
def commit (n : node) (force : Bool) (db : Database) : Option (hashed × Database) :=
  match n with
  | .shortNode k v => do
    -- a full node below is committed; otherwise the child is a value node
    let (childV, db) ← match v with
      | .fullNode cs => commit (.fullNode cs) false db
      | v => some (v.toHashed, db)
    store (.shortNode (hexToCompact k) childV) (cachedHash keccak256 n force) db
  | .fullNode cs => do
    let (hashedKids, db) ← commitChildren 0 cs db
    store (.fullNode hashedKids) (cachedHash keccak256 n force) db
  | _ => none
termination_by sizeOf n
decreasing_by
  all_goals first
    | (simp only [node.shortNode.sizeOf_spec, node.fullNode.sizeOf_spec]; omega)

/-- `commitChildren`, from child `i` on: each of the first sixteen committed, a nil
one left nil, and the value slot copied as it is. -/
def commitChildren (i : ℕ) (cs : List node) (db : Database) : Option (List hashed × Database) :=
  match cs with
  | [] => some ([], db)
  | c :: cs =>
    if i < 16 then
      if c.isNil then do
        let (rest, db) ← commitChildren (i + 1) cs db
        pure (.nil :: rest, db)
      else do
        let (hc, db) ← commit c false db
        let (rest, db) ← commitChildren (i + 1) cs db
        pure (hc :: rest, db)
    else do
      let (rest, db) ← commitChildren (i + 1) cs db
      pure (c.toHashed :: rest, db)
termination_by sizeOf cs

end

/-- `Trie.Commit`, with the trie's database passed as `db`: the root hash, and the
trie over the database that holds only the root's hash node. The empty trie is
left as it is. `none` is a panic: of the hasher, or of the committer. -/
def Trie.Commit (t : Trie) (db : Database) : Option (PureChain.Hash × backed.Trie) :=
  match t.root with
  | .nil => some (emptyRoot, ⟨db, .nil⟩)
  | root => do
    let rootHash ← t.Hash keccak256
    -- every node of the trie is dirty: the early return of a clean root is not taken
    let (newRoot, db) ← commit keccak256 root true db
    match newRoot with
    | .hashNode h => pure (rootHash, ⟨db, .hashNode h⟩)
    | _ => none

end Committer

/-! ### The steps of the committer -/

section Steps

variable {keccak256 : List UInt8 → PureChain.Hash} {db db₁ db₂ : Database}

theorem commit_shortNode_valueNode (k w : List UInt8) (force : Bool) (db : Database) :
    commit keccak256 (.shortNode k (.valueNode w)) force db =
      store (.shortNode (hexToCompact k) (.valueNode w)) (cachedHash keccak256 (.shortNode k (.valueNode w)) force) db := by
  rw [commit.eq_def]
  rfl

theorem commit_shortNode_fullNode {k : List UInt8} {cs : List node} {r : hashed}
    (h : commit keccak256 (.fullNode cs) false db = some (r, db₁)) (force : Bool) :
    commit keccak256 (.shortNode k (.fullNode cs)) force db =
      store (.shortNode (hexToCompact k) r) (cachedHash keccak256 (.shortNode k (.fullNode cs)) force) db₁ := by
  rw [commit]
  simp only [h]
  rfl

theorem commit_fullNode {cs : List node} {kids : List hashed}
    (h : commitChildren keccak256 0 cs db = some (kids, db₁)) (force : Bool) :
    commit keccak256 (.fullNode cs) force db = store (.fullNode kids) (cachedHash keccak256 (.fullNode cs) force) db₁ := by
  rw [commit]
  simp only [h]
  rfl

/-- `Trie.Commit` of a root that is not nil: the root hash, and the trie holding
the hash node `commit` gave the root. -/
theorem Trie.Commit_of_commit {r : node} (hr : r ≠ nil) {root : PureChain.Hash}
    (hh : (Trie.mk r).Hash keccak256 = some root) {h : List UInt8}
    (hc : commit keccak256 r true db = some (.hashNode h, db₁)) :
    (Trie.mk r).Commit keccak256 db = some (root, ⟨db₁, .hashNode h⟩) := by
  cases r with
  | nil => exact absurd rfl hr
  | _ =>
    simp only [Trie.Commit, hh, hc, Option.bind_eq_bind, Option.bind_some]
    rfl

theorem commitChildren_nil (i : ℕ) (db : Database) : commitChildren keccak256 i [] db = some ([], db) := by
  rw [commitChildren]

theorem commitChildren_cons_nil {i : ℕ} (hi : i < 16) {cs : List node} {kids : List hashed}
    (h : commitChildren keccak256 (i + 1) cs db = some (kids, db₁)) :
    commitChildren keccak256 i (.nil :: cs) db = some (.nil :: kids, db₁) := by
  rw [commitChildren, if_pos hi, if_pos isNil_nil]
  simp only [h, Option.bind_eq_bind, Option.bind_some]
  rfl

theorem commitChildren_cons_commit {i : ℕ} (hi : i < 16) {c : node} (hc : c.isNil = false) {cs : List node}
    {r : hashed} {kids : List hashed} (h₁ : commit keccak256 c false db = some (r, db₁))
    (h₂ : commitChildren keccak256 (i + 1) cs db₁ = some (kids, db₂)) :
    commitChildren keccak256 i (c :: cs) db = some (r :: kids, db₂) := by
  rw [commitChildren, if_pos hi, if_neg (by simp [hc])]
  simp only [h₁, Option.bind_eq_bind, Option.bind_some, h₂]
  rfl

theorem commitChildren_cons_value {i : ℕ} (hi : ¬i < 16) (c : node) {cs : List node} {kids : List hashed}
    (h : commitChildren keccak256 (i + 1) cs db = some (kids, db₁)) :
    commitChildren keccak256 i (c :: cs) db = some (c.toHashed :: kids, db₁) := by
  rw [commitChildren, if_neg hi]
  simp only [h]
  rfl

end Steps

/-! ### Expanding and sizing what the committer stores -/

namespace hashed

theorem expandChildren_cons_nil (cs : List hashed) : expandChildren (nil :: cs) = (expandChildren cs).map (nil :: ·) := by
  rw [expandChildren]

theorem expandChildren_cons {c : hashed} (hc : c ≠ nil) {e : hashed} {cs es : List hashed}
    (h₁ : c.expandNode = some e) (h₂ : expandChildren cs = some es) : expandChildren (c :: cs) = some (e :: es) := by
  cases c with
  | nil => exact absurd rfl hc
  | _ =>
    simp only [expandChildren, h₁, h₂]
    rfl

theorem estimateChildren_cons_isSome {i : ℕ} {c : hashed} {cs : List hashed}
    (hc : i < 16 → c = nil ∨ (estimateSize c).isSome) (hcs : (estimateChildren (i + 1) cs).isSome) :
    (estimateChildren i (c :: cs)).isSome := by
  rw [estimateChildren]
  split_ifs with hi
  · obtain ⟨t, ht⟩ := Option.isSome_iff_exists.mp hcs
    rcases hc hi with rfl | hs
    · simp [ht]
    · obtain ⟨s, hs⟩ := Option.isSome_iff_exists.mp hs
      cases c with
      | nil => simp [estimateSize] at hs
      | _ => simp [hs, ht]
  · rfl

end hashed

/-! ### What a commit gives -/

section Spec

variable {keccak256 : List UInt8 → PureChain.Hash}

/-- The two things the hasher may have done with a node with children: kept it
collapsed, with no hash in its flags, or hashed its encoding. -/
theorem cachedHash_cases {n : node} (hch : n.hasChildren) (force : Bool) :
    (hash keccak256 n force = collapse keccak256 n ∧ cachedHash keccak256 n force = none) ∨
      (hash keccak256 n force = .hashNode (hashData keccak256 (collapse keccak256 n).toItem.encode) ∧
        cachedHash keccak256 n force = some (hashData keccak256 (collapse keccak256 n).toItem.encode)) := by
  rw [cachedHash, hash_eq_nodeToHash keccak256 hch]
  rcases nodeToHash_cases keccak256 (collapse keccak256 n) force with ⟨he, -⟩ | he <;> rw [he]
  · refine Or.inl ⟨rfl, ?_⟩
    split
    · next h hh => exact absurd hh (collapse_ne_hashNode keccak256 hch h)
    · rfl
  · exact Or.inr ⟨rfl, rfl⟩

/-- The key a node is stored under is the digest of its encoding. -/
theorem BytesToHash_hashData (x : List UInt8) :
    PureChain.Hash.BytesToHash (hashData keccak256 x) = keccak256 x :=
  PureChain.Hash.BytesToHash_bytes _

variable (keccak256)

/-- What a committed node stands as in what holds it: the hash node the hasher
gave it, or, kept inside its parent, the node as the decoder gives it back. Below
a parent it is `childRef`. -/
def commitRef (n : node) (force : Bool) : hashed :=
  match hash keccak256 n force with
  | .hashNode h => .hashNode h
  | _ => stored keccak256 n

/-- **What committing `n` gave**: a node written as the hasher's result for `n`,
whose size can be estimated, that expands to `commitRef`, which resolves to `n`
through the database `db`. -/
structure Committed (db : Database) (n : node) (force : Bool) (r : hashed) : Prop where
  item : r.toItem = (hash keccak256 n force).toItem
  size : (estimateSize r).isSome
  expand : r.expandNode = some (commitRef keccak256 n force)
  resolves : backed.Resolves db (commitRef keccak256 n force) n

/-- `c` commits into every content-addressed database: what a parent's commit
needs of a child. -/
def Commits (S : Set (List UInt8)) (c : node) : Prop :=
  ∀ db, Database.Valid keccak256 S db → ∃ r db', commit keccak256 c false db = some (r, db') ∧
    Database.Valid keccak256 S db' ∧ Database.Keeps db db' ∧ Committed keccak256 db' c false r

variable {keccak256}

/-- Only a hash node expands to a hash node. -/
theorem hashed.eq_of_expandNode_hashNode {r : hashed} {h : List UInt8} (he : r.expandNode = some (.hashNode h)) :
    r = .hashNode h := by
  cases r with
  | hashNode h' => rw [hashed.expandNode, Option.some.injEq] at he; exact he
  | _ => simp [hashed.expandNode] at he

theorem hashed.childItem_of_ne_nil {c : hashed} (h : c ≠ .nil) : c.childItem = c.toItem := by
  cases c with
  | nil => exact absurd rfl h
  | _ => rfl

/-- The encoding the hasher stores for a node of the shape decodes to the node as
it is stored. -/
theorem mustDecodeNode_collapse {K : Set (List UInt8)} (hK : TermKeys K) {n : node} (hn : n.Canon)
    (hk : n.KeysIn K) (hch : n.hasChildren) (hsize : ∀ x, Input keccak256 n x → x.length < 2 ^ 64) :
    mustDecodeNode (collapse keccak256 n).toItem.encode = some (stored keccak256 n) := by
  have h := decodeNode_collapse hK hn hk hch hsize []
  rw [List.append_nil] at h
  rw [mustDecodeNode, h]
  rfl

theorem commitRef_false (n : node) : commitRef keccak256 n false = childRef keccak256 n := by
  unfold commitRef
  split
  · next h hh => rw [childRef_of_hash_eq hh]
  · next hh => rw [childRef_of_hash_ne (fun d hd => hh d hd)]

/-- A node with children is stored as a short node or a full node. -/
theorem stored_hasChildren {n : node} (hch : n.hasChildren) : (stored keccak256 n).hasChildren := by
  cases n with
  | shortNode k c => rw [stored_shortNode]; rfl
  | fullNode cs => rw [stored_fullNode]; rfl
  | nil => simp [hasChildren] at hch
  | valueNode v => simp [hasChildren] at hch

theorem Committed.mono {db db' : Database} (hk : Database.Keeps db db') {n : node} {force : Bool} {r : hashed}
    (h : Committed keccak256 db n force r) : Committed keccak256 db' n force r :=
  ⟨h.item, h.size, h.expand, h.resolves.mono hk⟩

theorem Committed.ne_nil {db : Database} {n : node} {force : Bool} {r : hashed}
    (h : Committed keccak256 db n force r) : r ≠ .nil := by
  rintro rfl
  exact absurd h.expand (by simp [hashed.expandNode])

/-- **The loop over a full node's children commits them all**: from slot `i` on,
with each child before the value slot nil or one that commits, and the value
slot nil or a value, the loop gives children written as the hasher writes them,
which expand to the children as the decoder gives them back, each of which
resolves to its child through the database the loop leaves. -/
theorem commitChildren_spec {S : Set (List UInt8)} : ∀ (cs : List node) (i : ℕ) {db : Database}, Database.Valid keccak256 S db →
    (∀ j (hj : j < cs.length), (i + j < 16 → cs[j] = nil ∨ (cs[j].hasChildren ∧ Commits keccak256 S cs[j])) ∧
      (16 ≤ i + j → cs[j] = nil ∨ ∃ w, cs[j] = valueNode w)) →
    ∃ kids db', commitChildren keccak256 i cs db = some (kids, db') ∧ Database.Valid keccak256 S db' ∧
      Database.Keeps db db' ∧
      kids.map hashed.childItem = (hashFullNodeChildren keccak256 i cs).map hashed.childItem ∧
      hashed.expandChildren kids = some (cs.map (childRef keccak256)) ∧ (estimateChildren i kids).isSome ∧
      ∀ c ∈ cs, backed.Resolves db' (childRef keccak256 c) c
  | [], i, db, hv, _ =>
    ⟨[], db, commitChildren_nil i db, hv, .refl _, by rw [hashFullNodeChildren],
      by rw [hashed.expandChildren]; rfl, by rw [estimateChildren]; rfl, by simp⟩
  | c :: cs, i, db, hv, hslot => by
    have hrest : ∀ j (hj : j < cs.length), (i + 1 + j < 16 → cs[j] = nil ∨ (cs[j].hasChildren ∧
        Commits keccak256 S cs[j])) ∧ (16 ≤ i + 1 + j → cs[j] = nil ∨ ∃ w, cs[j] = valueNode w) := by
      intro j hj
      have := hslot (j + 1) (by rw [List.length_cons]; omega)
      rwa [List.getElem_cons_succ, show i + (j + 1) = i + 1 + j by omega] at this
    obtain ⟨hlt, hge⟩ := hslot 0 (by simp)
    rw [List.getElem_cons_zero, Nat.add_zero] at hlt hge
    by_cases hi : i < 16
    · rcases hlt hi with rfl | ⟨hch, hcom⟩
      · -- a nil child stays nil
        obtain ⟨kids, db', h, hv', hk, hitem, hexp, hest, hres⟩ := commitChildren_spec cs (i + 1) hv hrest
        refine ⟨.nil :: kids, db', commitChildren_cons_nil hi h, hv', hk, ?_, ?_,
          hashed.estimateChildren_cons_isSome (fun _ => Or.inl rfl) hest, ?_⟩
        · rw [hashFullNodeChildren, if_pos hi, if_pos isNil_nil, List.map_cons, List.map_cons, hitem]
          rfl
        · rw [hashed.expandChildren_cons_nil, hexp, List.map_cons, childRef_nil]
          rfl
        · refine List.forall_mem_cons.mpr ⟨?_, hres⟩
          rw [childRef_nil]
          exact .nil
      · -- a child with children is committed first
        obtain ⟨r, db₁, h₁, hv₁, hk₁, hcm⟩ := hcom db hv
        obtain ⟨kids, db', h, hv', hk, hitem, hexp, hest, hres⟩ := commitChildren_spec cs (i + 1) hv₁ hrest
        have hnil := isNil_of_hasChildren hch
        refine ⟨r :: kids, db', commitChildren_cons_commit hi hnil h₁ h, hv', hk₁.trans hk, ?_,
          hashed.expandChildren_cons hcm.ne_nil (by rw [hcm.expand, commitRef_false]) hexp,
          hashed.estimateChildren_cons_isSome (fun _ => Or.inr hcm.size) hest, ?_⟩
        · rw [hashFullNodeChildren, if_pos hi, if_neg (by simp [hnil]), List.map_cons, List.map_cons, hitem,
            (childItem_hash_false keccak256 hch).1, hashed.childItem_of_ne_nil hcm.ne_nil, hcm.item]
        · refine List.forall_mem_cons.mpr ⟨?_, hres⟩
          rw [← commitRef_false]
          exact hcm.resolves.mono hk
    · -- the value slot is copied as it is
      obtain ⟨kids, db', h, hv', hk, hitem, hexp, hest, hres⟩ := commitChildren_spec cs (i + 1) hv hrest
      refine ⟨c.toHashed :: kids, db', commitChildren_cons_value hi c h, hv', hk, ?_, ?_,
        by rw [estimateChildren, if_neg hi]; rfl, ?_⟩
      · rw [hashFullNodeChildren, if_neg hi, List.map_cons, List.map_cons, hitem]
      · rcases hge (by omega) with rfl | ⟨w, rfl⟩
        · rw [toHashed, hashed.expandChildren_cons_nil, hexp, List.map_cons, childRef_nil]
          rfl
        · rw [List.map_cons, childRef_valueNode]
          exact hashed.expandChildren_cons (by simp [toHashed]) rfl hexp
      · refine List.forall_mem_cons.mpr ⟨?_, hres⟩
        rcases hge (by omega) with rfl | ⟨w, rfl⟩
        · rw [childRef_nil]
          exact .nil
        · rw [childRef_valueNode]
          exact .valueNode w

section Store

variable {S : Set (List UInt8)} (hinj : Set.InjOn keccak256 S)
include hinj

/-- **`store` gives what the parent holds, and the database it leaves resolves it**:
a collapsed node that encodes as the hasher's collapse of `n`, expands to the
stored `n`, decodes to it, and resolves to `n`, either stays as it is or is
inserted under its digest and stands as the hash node. -/
theorem store_spec {n : node} (hch : n.hasChildren) {P : hashed}
    (hitem : P.toItem = (collapse keccak256 n).toItem) (hsize : (estimateSize P).isSome)
    (hexp : P.expandNode = some (stored keccak256 n))
    (hdec : mustDecodeNode (collapse keccak256 n).toItem.encode = some (stored keccak256 n))
    (hS : (collapse keccak256 n).toItem.encode ∈ S) (hz : keccak256 (collapse keccak256 n).toItem.encode ≠ .zero)
    {db : Database} (hv : Database.Valid keccak256 S db) (hres : backed.Resolves db (stored keccak256 n) n)
    (force : Bool) :
    ∃ r db', store P (cachedHash keccak256 n force) db = some (r, db') ∧ Database.Valid keccak256 S db' ∧
      Database.Keeps db db' ∧ Committed keccak256 db' n force r := by
  rcases cachedHash_cases hch force with ⟨hh, hc⟩ | ⟨hh, hc⟩
  · -- kept inside the parent
    have href : commitRef keccak256 n force = stored keccak256 n := by
      rw [commitRef, hh]
      split
      · next h hh' => exact absurd hh' (collapse_ne_hashNode keccak256 hch h)
      · rfl
    refine ⟨P, db, by rw [hc]; rfl, hv, .refl _, ⟨by rw [hh, hitem], hsize, by rw [href, hexp], href ▸ hres⟩⟩
  · -- inserted under the digest of its encoding
    set x := (collapse keccak256 n).toItem.encode
    have henc : P.toItem.encode = x := by rw [hitem]
    have hsound : Database.Sound keccak256 S (PureChain.Hash.BytesToHash (hashData keccak256 x)) P :=
      ⟨henc ▸ hS, by rw [henc, BytesToHash_hashData], by rw [henc, hexp, hdec]⟩
    have hkey : PureChain.Hash.BytesToHash (hashData keccak256 x) ≠ .zero := by rwa [BytesToHash_hashData]
    obtain ⟨s, hs⟩ := Option.isSome_iff_exists.mp hsize
    obtain ⟨db', hi⟩ := Option.isSome_iff_exists.mp
      (Database.insert_isSome hv.ends (PureChain.Hash.BytesToHash (hashData keccak256 x)) s P)
    have hk := Database.Keeps.insert hv hinj hkey hsound hi
    have hnode := Database.node_insert_self hv hinj hkey hsound hi
    have href : commitRef keccak256 n force = .hashNode (hashData keccak256 x) := by rw [commitRef, hh]
    refine ⟨.hashNode (hashData keccak256 x), db', ?_, hv.insert (fun _ => hsound) hi, hk,
      ⟨by rw [hh], rfl, by rw [href]; rfl, ?_⟩⟩
    · rw [hc, store, hs]
      simp only [Option.bind_eq_bind, Option.bind_some, hi]
      rfl
    · rw [href]
      exact .hashNode (by rw [hnode, hexp]) (stored_hasChildren hch) (hres.mono hk)

/-- **Committing a node of the shape**: whatever content-addressed database it
starts from, `commit` goes through, leaves a database that is still content
addressed and gives every node the first one gave, and what it returns encodes
as the hasher's result for the node and resolves to the node through that
database. The hypotheses are those of reading the node back: keys of a set of
terminated hex keys, and encodings that RLP can write, that lie in the set where
Keccak-256 is injective, and that do not hash to the zero hash of the meta root. -/
theorem commit_spec {K : Set (List UInt8)} (hK : TermKeys K) {n : node} (hn : n.Canon) (hk : n.KeysIn K)
    (hch : n.hasChildren) (hsize : ∀ x, Input keccak256 n x → x.length < 2 ^ 64)
    (hS : ∀ x, Input keccak256 n x → x ∈ S) (hz : ∀ x, Input keccak256 n x → keccak256 x ≠ .zero)
    {db : Database} (hv : Database.Valid keccak256 S db) (force : Bool) :
    ∃ r db', commit keccak256 n force db = some (r, db') ∧ Database.Valid keccak256 S db' ∧
      Database.Keeps db db' ∧ Committed keccak256 db' n force r := by
  induction hn generalizing K db force with
  | nil => simp [hasChildren] at hch
  | valueNode => simp [hasChildren] at hch
  | @shortNode k c hk0 hfv hc ih =>
    have hdec := mustDecodeNode_collapse hK (Canon.shortNode hk0 hfv hc) hk hch hsize
    rcases shortNode_key_cases hK (Canon.shortNode hk0 hfv hc) hk with
      ⟨ns, w, hns, rfl, rfl, hw⟩ | ⟨hk16, cs, rfl⟩
    · -- a leaf: its value is stored inside it
      rw [commit_shortNode_valueNode]
      refine store_spec hinj hch ?_ rfl ?_ hdec (hS _ (.here hch)) (hz _ (.here hch)) hv ?_ force
      · rw [collapse_shortNode, if_neg (by simp [hasChildren])]
        rfl
      · simp only [hashed.expandNode, Option.map_some, compactToHex_hexToCompact hns, stored_shortNode,
          childRef_valueNode]
      · rw [stored_shortNode, childRef_valueNode]
        exact .shortNode (.valueNode w)
    · -- an extension: the full node below is committed first
      obtain ⟨r, db₁, h₁, hv₁, hk₁, hcm⟩ := ih (hK.after k) hk.shortNode rfl
        (fun x hx => hsize x (.below_short hx)) (fun x hx => hS x (.below_short hx))
        (fun x hx => hz x (.below_short hx)) hv false
      have hkey : compactToHex (hexToCompact k) = k := compactToHex_hexToCompact hk16 false
      have hitem : (hashed.shortNode (hexToCompact k) r).toItem =
          (collapse keccak256 (shortNode k (fullNode cs))).toItem := by
        rw [collapse_shortNode, if_pos (show (fullNode cs).hasChildren = true from rfl), hashed.toItem,
          hashed.toItem, hcm.item]
      have hexp : (hashed.shortNode (hexToCompact k) r).expandNode =
          some (stored keccak256 (shortNode k (fullNode cs))) := by
        simp only [hashed.expandNode, hcm.expand, commitRef_false, Option.map_some, hkey, stored_shortNode]
      rw [commit_shortNode_fullNode h₁]
      obtain ⟨r', db', h₂, hv', hk', hcm'⟩ := store_spec hinj hch hitem
        (by simp only [estimateSize, Option.isSome_map]; exact hcm.size) hexp
        hdec (hS _ (.here hch)) (hz _ (.here hch)) hv₁
        (by rw [stored_shortNode, ← commitRef_false]; exact .shortNode hcm.resolves) force
      exact ⟨r', db', h₂, hv', hk₁.trans hk', hcm'⟩
  | @fullNode cs hlen hcount hall ih =>
    have hdec := mustDecodeNode_collapse hK (Canon.fullNode hlen hcount hall) hk hch hsize
    -- what each slot holds: before the value slot nil or a node that commits, in it nil or a value
    have hslot : ∀ j (hj : j < cs.length), (0 + j < 16 → cs[j] = nil ∨ (cs[j].hasChildren ∧
        Commits keccak256 S cs[j])) ∧ (16 ≤ 0 + j → cs[j] = nil ∨ ∃ w, cs[j] = valueNode w) := by
      intro j hj
      have hget : cs.getD j nil = cs[j] := List.getD_eq_getElem _ _ hj
      have hmem : cs[j] ∈ cs := List.getElem_mem hj
      have hcan : (cs.getD j nil).Canon := hget ▸ hall _ hmem
      refine ⟨fun hj16 => ?_, fun hj16 => ?_⟩
      · rcases fullNode_child_cases_lt hK hk (by omega) hcan with h0 | hchj
        · exact Or.inl (hget ▸ h0)
        · rw [hget] at hchj
          have hkj : cs[j].KeysIn (after K [j.toUInt8]) := by
            have := hk.fullNode j.toUInt8
            rwa [toNat_toUInt8 (by omega), hget] at this
          exact Or.inr ⟨hchj, fun db hv => ih _ hmem (hK.after [j.toUInt8]) hkj hchj
            (fun x hx => hsize x (.below_full hmem hx)) (fun x hx => hS x (.below_full hmem hx))
            (fun x hx => hz x (.below_full hmem hx)) hv false⟩
      · have hj16' : j = 16 := by omega
        subst hj16'
        rcases fullNode_child_cases_sixteen hK hk hcan with h0 | ⟨w, hw, -⟩
        · exact Or.inl (hget ▸ h0)
        · exact Or.inr ⟨w, hget ▸ hw⟩
    obtain ⟨kids, db₁, h₁, hv₁, hk₁, hitem, hexp, hest, hres⟩ := commitChildren_spec cs 0 hv hslot
    have hitem' : (hashed.fullNode kids).toItem = (collapse keccak256 (fullNode cs)).toItem := by
      rw [hashed.toItem_fullNode, toItem_collapse_fullNode, hitem]
    have hexp' : (hashed.fullNode kids).expandNode = some (stored keccak256 (fullNode cs)) := by
      simp only [hashed.expandNode, hexp, Option.map_some, stored_fullNode]
    rw [commit_fullNode h₁]
    obtain ⟨r', db', h₂, hv', hk', hcm'⟩ := store_spec hinj hch hitem'
      (by simp only [estimateSize, Option.isSome_map]; exact hest) hexp'
      hdec (hS _ (.here hch)) (hz _ (.here hch)) hv₁
      (by
        rw [stored_fullNode]
        exact .fullNode (List.length_map _) fun j hj hjc => by
          rw [List.getElem_map]
          exact hres _ (List.getElem_mem hjc))
      force
    exact ⟨r', db', h₂, hv', hk₁.trans hk', hcm'⟩

/-- **Committing a trie writes it into its database**: the root of a trie of the
invariant commits into any content-addressed database, which stays content
addressed and answers every node it answered before. `Commit` returns the trie's
root hash, and the trie it leaves holding only the root's hash node stands for
the trie that was committed; so does the trie `New` opens at that hash over the
same database. The hypotheses on the encodings the hasher gives are those of
`commit_spec`, and the root's digest is not the known empty root. -/
theorem Trie.Commit_represents {t : Trie} (ht : t.Inv)
    (hsize : ∀ x, Input keccak256 t.root x → x.length < 2 ^ 64) (hS : ∀ x, Input keccak256 t.root x → x ∈ S)
    (hz : ∀ x, Input keccak256 t.root x → keccak256 x ≠ .zero ∧ keccak256 x ≠ emptyRoot)
    {db : Database} (hv : Database.Valid keccak256 S db) :
    ∃ root T, t.Commit keccak256 db = some (root, T) ∧ t.Hash keccak256 = some root ∧
      Database.Valid keccak256 S T.db ∧ Database.Keeps db T.db ∧ backed.Represents T t ∧
      ∃ T', backed.New root T.db = .ok T' ∧ backed.Represents T' t := by
  obtain ⟨r⟩ := t
  rcases ht.root_cases with h0 | hch
  · -- the empty trie writes nothing, and opens again at the empty root
    dsimp only at h0
    subst h0
    exact ⟨emptyRoot, ⟨db, .nil⟩, rfl, Hash_empty, hv, .refl _, .empty db, _, backed.New_emptyRoot db,
      .empty db⟩
  · dsimp only at hch hsize hS hz
    obtain ⟨r', db', hc, hv', hk, hcm⟩ := commit_spec hinj termKeys_keybytesToHex ht.canon ht.keys hch hsize hS
      (fun x hx => (hz x hx).1) hv true
    -- the root is hashed by force, so `commit` gives its hash node
    have href : commitRef keccak256 r true =
        .hashNode (hashData keccak256 (collapse keccak256 r).toItem.encode) := by
      rw [commitRef, hash_eq_nodeToHash keccak256 hch, nodeToHash_true]
    have hr' := hashed.eq_of_expandNode_hashNode (href ▸ hcm.expand)
    have hres := href ▸ hcm.resolves
    obtain ⟨T', hT', hrep'⟩ := backed.New_represents ht (hz _ (.here hch)).1 (hz _ (.here hch)).2 hres
    have hr0 : r ≠ nil := by
      rintro rfl
      exact absurd hch (by decide)
    refine ⟨_, ⟨db', _⟩, Trie.Commit_of_commit hr0 (Hash_of_hasChildren hch) (hr' ▸ hc),
      Hash_of_hasChildren hch, hv', hk, ⟨ht, hres⟩, T', hT', hrep'⟩

end Store

/-- A one-leaf trie committed with a stand-in digest into a fresh database, and
opened again at its root hash. -/
theorem Commit_represents_leaf :
    ∃ root T, (Trie.mk (.shortNode (keybytesToHex [1]) (.valueNode [7]))).Commit
        (fun _ => ⟨Vector.replicate 32 1⟩) (NewDatabase fun _ => none) = some (root, T) ∧
      ∃ T', backed.New root T.db = .ok T' ∧
        backed.Represents T' ⟨.shortNode (keybytesToHex [1]) (.valueNode [7])⟩ := by
  -- the leaf's only encoding is its own
  have hin : ∀ x, Input (fun _ => ⟨Vector.replicate 32 1⟩) (shortNode (keybytesToHex [1]) (valueNode [7])) x →
      x = (collapse (fun _ => ⟨Vector.replicate 32 1⟩) (shortNode (keybytesToHex [1]) (valueNode [7]))).toItem.encode :=
    fun x hx => by
      cases hx with
      | here => rfl
      | below_short hv => cases hv with
        | here h => exact absurd h (by decide)
  obtain ⟨root, T, hc, -, -, -, -, hnew⟩ := Trie.Commit_represents (Set.injOn_singleton _ _)
    (Trie.Inv_leaf [1] (by decide))
    (fun x hx => by
      rw [hin x hx, collapse_shortNode, if_neg (by decide)]
      decide)
    (fun x hx => hin x hx)
    (fun _ _ => ⟨by decide, by decide⟩)
    (@Database.NewDatabase_valid _ _ (fun _ => none) fun _ _ hy => by simp at hy)
  exact ⟨root, T, hc, hnew⟩

end Spec

end trie

end PureChain
