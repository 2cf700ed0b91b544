import PureChain.Common.Types

/-!
# State objects and their storage caches

A `state.StateObject` is the live copy of one account while blocks are processed:
its consensus data (`Account`: nonce, balance, this fork's lock balance, storage
root and code hash), its storage trie once opened, its code once loaded, and
three caches of storage slots:

* `dirtyStorage`, the slots written in the current transaction;
* `pendingStorage`, the slots written earlier in the block, not yet in the trie;
* `originStorage`, the committed values read so far.

`GetState` reads the first of these that holds the slot and falls back on the
storage trie opened at the account's `Root`, or on the snapshot layer when the
state has one; the committed value it reads is kept in `originStorage`. The
caches are the whole of the account's storage as the object sees it: a slot that
one of them holds is read from there, whatever the root (`GetState_of_cached`).

`erase`, this fork's addition for governance, gives the object the empty code
and the empty root and drops the trie, and leaves the three caches as they are
(`cached_eraseFields`). `revertErase` puts back the code and the root and opens the
trie – unless one is open already.

The database under the state is a parameter (`Database`): the storage committed
under each root, the code under each code hash, the accounts of the state the
database was opened on, and the storage the snapshot layer holds for each of
them. Errors of the database, metrics, the prefetcher and the debugging
`fakeStorage` are left out.
-/

namespace PureChain

namespace state

/-- `emptyRoot`, the root of the empty trie. -/
def emptyRoot : Hash :=
  ⟨#v[0x56, 0xe8, 0x1f, 0x17, 0x1b, 0xcc, 0x55, 0xa6, 0xff, 0x83, 0x45, 0xe6, 0x92, 0xc0, 0xf8, 0x6e,
    0x5b, 0x48, 0xe0, 0x1b, 0x99, 0x6c, 0xad, 0xc0, 0x01, 0x62, 0x2f, 0xb5, 0xe3, 0x63, 0xb4, 0x21]⟩

/-- `emptyCodeHash`, the Keccak-256 of the empty code. -/
def emptyCodeHash : Hash :=
  ⟨#v[0xc5, 0xd2, 0x46, 0x01, 0x86, 0xf7, 0x23, 0x3c, 0x92, 0x7e, 0x7d, 0xb2, 0xdc, 0xc7, 0x03, 0xc0,
    0xe5, 0x00, 0xb6, 0x53, 0xca, 0x82, 0x27, 0x3b, 0x7b, 0xfa, 0xd8, 0x04, 0x5d, 0x85, 0xa4, 0x70]⟩

/-- The contents of a storage trie: every slot's value, zero where absent. -/
abbrev Storage := Hash → Hash

/-- A Go `map[common.Hash]common.Hash`: `none` where the map has no entry. -/
abbrev StorageCache := Hash → Option Hash

/-- `state.Account`, the consensus data of an account. The code hash is a Go
byte slice that always holds a hash once the object exists. -/
structure Account where
  Nonce : UInt64
  Balance : ℤ
  LockBalance : ℤ
  Root : Hash
  CodeHash : Hash

/-- `Account{}` as `newObject` completes it: no balance, the empty code hash and
the zero root, which `newObject` turns into the empty one. -/
def Account.empty : Account := ⟨0, 0, 0, Hash.zero, emptyCodeHash⟩

/-- What the state reads from the database under it. -/
structure Database where
  /-- `OpenStorageTrie(addrHash, root)`: the storage committed under a root. -/
  OpenStorageTrie : Hash → Storage
  /-- `ContractCode(addrHash, codeHash)`. -/
  ContractCode : Hash → List UInt8
  /-- The accounts of the state the database was opened on, read through the
  snapshot or the account trie, which agree. -/
  accounts : Address → Option Account
  /-- `snap.Storage(addrHash, keyHash)`: the storage the snapshot layer holds
  for an account. -/
  SnapStorage : Address → Storage

/-- `state.StateObject`. -/
structure StateObject where
  address : Address
  data : Account
  /-- The storage trie, `none` until first opened. -/
  trie : Option Storage
  /-- The code, `none` (a nil slice) until loaded. -/
  code : Option (List UInt8)
  originStorage : StorageCache
  pendingStorage : StorageCache
  dirtyStorage : StorageCache
  dirtyCode : Bool
  suicided : Bool
  deleted : Bool

/-- `newObject`: the account's data with the zero root made the empty one, and
nothing cached. -/
def newObject (address : Address) (data : Account) : StateObject where
  address := address
  data := { data with Root := if data.Root = Hash.zero then emptyRoot else data.Root }
  trie := none
  code := none
  originStorage := fun _ => none
  pendingStorage := fun _ => none
  dirtyStorage := fun _ => none
  dirtyCode := false
  suicided := false
  deleted := false

namespace StateObject

variable (db : Database)

/-- `empty`: no nonce, no balance, no lock balance, no code (EIP-161). -/
def empty (s : StateObject) : Bool :=
  s.data.Nonce == 0 && s.data.Balance == 0 && s.data.LockBalance == 0 &&
    s.data.CodeHash == emptyCodeHash

/-- `getTrie`: the open trie, or the trie under the account's root, now open. -/
def getTrie (s : StateObject) : Storage × StateObject :=
  match s.trie with
  | some t => (t, s)
  | none =>
    let t := db.OpenStorageTrie s.data.Root
    (t, { s with trie := some t })

/-- `GetCommittedState`: a pending write, a cached committed value, or the value
the snapshot layer or the trie holds, then cached. `snap` is whether the state
has a snapshot layer and `destructed` whether it destructed this account in the
block; such an account reads zero, uncached. -/
def GetCommittedState (snap destructed : Bool) (s : StateObject) (key : Hash) :
    Hash × StateObject :=
  match s.pendingStorage key with
  | some value => (value, s)
  | none =>
    match s.originStorage key with
    | some value => (value, s)
    | none =>
      if snap ∧ destructed then (Hash.zero, s)
      else
        let (value, s) :=
          if snap then (db.SnapStorage s.address key, s)
          else
            let (tr, s) := s.getTrie db
            (tr key, s)
        (value, { s with originStorage := Function.update s.originStorage key (some value) })

/-- `GetState`: a write of this transaction, else the committed value. -/
def GetState (snap destructed : Bool) (s : StateObject) (key : Hash) : Hash × StateObject :=
  match s.dirtyStorage key with
  | some value => (value, s)
  | none => s.GetCommittedState db snap destructed key

/-- `setState`. -/
def setState (s : StateObject) (key value : Hash) : StateObject :=
  { s with dirtyStorage := Function.update s.dirtyStorage key (some value) }

/-- `setBalance`. -/
def setBalance (s : StateObject) (amount : ℤ) : StateObject :=
  { s with data := { s.data with Balance := amount } }

/-- `setLockBalance`. -/
def setLockBalance (s : StateObject) (amount : ℤ) : StateObject :=
  { s with data := { s.data with LockBalance := amount } }

/-- `setNonce`. -/
def setNonce (s : StateObject) (nonce : UInt64) : StateObject :=
  { s with data := { s.data with Nonce := nonce } }

/-- `setCode`. -/
def setCode (s : StateObject) (codeHash : Hash) (code : Option (List UInt8)) : StateObject :=
  { s with code := code, data := { s.data with CodeHash := codeHash }, dirtyCode := true }

/-- `Code`: the loaded code, nil for the empty code hash, else loaded from the
database and kept. -/
def Code (s : StateObject) : Option (List UInt8) × StateObject :=
  match s.code with
  | some code => (some code, s)
  | none =>
    if s.data.CodeHash = emptyCodeHash then (none, s)
    else
      let code := db.ContractCode s.data.CodeHash
      (some code, { s with code := some code })

/-- The fields `erase` writes, after it has loaded the code for the journal: the
empty code and root, and no trie. -/
def eraseFields (s : StateObject) : StateObject :=
  { s with
    code := some []
    data := { s.data with CodeHash := emptyCodeHash, Root := emptyRoot }
    trie := none
    dirtyCode := true }

/-- `revertErase`: the code and root back, and the trie opened under the root –
`getTrie`, which keeps a trie that is already open. -/
def revertErase (s : StateObject) (codeHash : Hash) (code : Option (List UInt8)) (root : Hash) :
    StateObject :=
  let s := { s with code := code, data := { s.data with CodeHash := codeHash, Root := root } }
  { (s.getTrie db).2 with dirtyCode := true }

/-! ### What the caches hold -/

/-- The value of a slot the caches hold, in the order `GetState` consults them. -/
def cached (s : StateObject) (key : Hash) : Option Hash :=
  (s.dirtyStorage key).or ((s.pendingStorage key).or (s.originStorage key))

variable {db}

/-- **A cached slot is read from the cache**, and the read changes nothing. -/
theorem GetState_of_cached {snap destructed : Bool} {s : StateObject} {key value : Hash}
    (h : s.cached key = some value) : s.GetState db snap destructed key = (value, s) := by
  unfold cached at h
  unfold GetState GetCommittedState
  -- the three caches in turn: the first that holds the slot answers
  cases hd : s.dirtyStorage key with
  | some v => simp_all
  | none =>
    cases hp : s.pendingStorage key with
    | some v => simp_all
    | none =>
      cases ho : s.originStorage key with
      | some v => simp_all
      | none => simp_all

/-- Erasing keeps the caches. -/
@[simp] theorem cached_eraseFields (s : StateObject) : s.eraseFields.cached = s.cached := rfl

/-- A write of this transaction is cached. -/
@[simp] theorem cached_setState (s : StateObject) (key value : Hash) :
    (s.setState key value).cached key = some value := by
  simp [cached, setState]

/-! Opening the trie changes the trie only. -/

@[simp] theorem dirtyStorage_getTrie (s : StateObject) :
    (s.getTrie db).2.dirtyStorage = s.dirtyStorage := by
  unfold getTrie
  split <;> rfl

@[simp] theorem pendingStorage_getTrie (s : StateObject) :
    (s.getTrie db).2.pendingStorage = s.pendingStorage := by
  unfold getTrie
  split <;> rfl

@[simp] theorem originStorage_getTrie (s : StateObject) :
    (s.getTrie db).2.originStorage = s.originStorage := by
  unfold getTrie
  split <;> rfl

@[simp] theorem address_getTrie (s : StateObject) : (s.getTrie db).2.address = s.address := by
  unfold getTrie
  split <;> rfl

@[simp] theorem deleted_getTrie (s : StateObject) : (s.getTrie db).2.deleted = s.deleted := by
  unfold getTrie
  split <;> rfl

@[simp] theorem cached_getTrie (s : StateObject) : (s.getTrie db).2.cached = s.cached := by
  funext key
  simp [cached]

/-- Loading the code leaves the caches. -/
@[simp] theorem cached_Code (s : StateObject) : (s.Code db).2.cached = s.cached := by
  unfold Code
  split
  · rfl
  · split <;> rfl

/-- **What a read does**: it answers from the caches; or, on a slot no cache
holds, it reads zero for a destructed account under a snapshot layer; or it
reads the committed value – from the snapshot layer, or from the trie, opened if
need be – and caches it as original. -/
theorem GetState_cases (db : Database) (snap destructed : Bool) (s : StateObject) (key : Hash) :
    (∃ v, s.cached key = some v ∧ s.GetState db snap destructed key = (v, s)) ∨
    (s.cached key = none ∧ snap = true ∧ destructed = true ∧
      s.GetState db snap destructed key = (Hash.zero, s)) ∨
    (s.cached key = none ∧ ∃ v, s.GetState db snap destructed key =
      (v, let s0 := if snap then s else (s.getTrie db).2
          { s0 with originStorage := Function.update s0.originStorage key (some v) })) := by
  cases hc : s.cached key with
  | some v => exact Or.inl ⟨v, rfl, GetState_of_cached hc⟩
  | none =>
    right
    -- no cache holds the slot: the three maps are all empty there
    have hd : s.dirtyStorage key = none := by simp_all [cached]
    have hp : s.pendingStorage key = none := by simp_all [cached]
    have ho : s.originStorage key = none := by simp_all [cached]
    unfold GetState GetCommittedState
    rw [hd, hp, ho]
    by_cases hsd : snap = true ∧ destructed = true
    · left
      exact ⟨rfl, hsd.1, hsd.2, if_pos hsd⟩
    · right
      refine ⟨rfl, ?_⟩
      rw [if_neg hsd]
      cases snap
      · exact ⟨_, rfl⟩
      · exact ⟨_, rfl⟩

/-- A read keeps every slot the caches held. -/
theorem cached_GetState {snap destructed : Bool} {s : StateObject} {key k v : Hash}
    (hk : s.cached k = some v) : (s.GetState db snap destructed key).2.cached k = some v := by
  rcases GetState_cases db snap destructed s key with ⟨w, -, hr⟩ | ⟨-, -, -, hr⟩ | ⟨hnone, w, hr⟩
  · rw [hr]
    exact hk
  · rw [hr]
    exact hk
  · rw [hr]
    -- the slot read was in no cache, so it is not `k`
    have hne : k ≠ key := fun he => by simp_all
    have hk0 : (if snap then s else (s.getTrie db).2).cached k = some v := by
      cases snap
      · simpa using hk
      · simpa using hk
    simpa [cached, Function.update_of_ne hne] using hk0

/-- A read writes the trie and the original values only. -/
theorem GetState_eq_with (db : Database) (snap destructed : Bool) (o : StateObject) (key : Hash) :
    ∃ tr orig, (o.GetState db snap destructed key).2 = { o with trie := tr, originStorage := orig } := by
  rcases GetState_cases db snap destructed o key with ⟨v, -, h⟩ | ⟨-, -, -, h⟩ | ⟨-, v, h⟩
  · exact ⟨o.trie, o.originStorage, by rw [h]⟩
  · exact ⟨o.trie, o.originStorage, by rw [h]⟩
  · rw [h]
    cases snap
    · -- without a snapshot layer the trie may have been opened
      unfold getTrie
      cases o.trie <;> exact ⟨_, _, rfl⟩
    · exact ⟨o.trie, _, rfl⟩

/-- Loading the code writes the code only. -/
theorem Code_eq_with (db : Database) (o : StateObject) : ∃ c, (o.Code db).2 = { o with code := c } := by
  unfold Code
  split
  · exact ⟨o.code, rfl⟩
  · split
    · exact ⟨o.code, rfl⟩
    · exact ⟨_, rfl⟩

/-- A read of a slot no cache holds, without a snapshot layer: the trie, opened
if need be, answers, and the answer is cached as original. -/
theorem GetState_of_uncached (destructed : Bool) {o : StateObject} {key : Hash}
    (hc : o.cached key = none) :
    o.GetState db false destructed key =
      ((o.getTrie db).1 key, { (o.getTrie db).2 with
        originStorage := Function.update o.originStorage key (some ((o.getTrie db).1 key)) }) := by
  have hd : o.dirtyStorage key = none := by simp_all [cached]
  have hp : o.pendingStorage key = none := by simp_all [cached]
  have ho : o.originStorage key = none := by simp_all [cached]
  unfold GetState GetCommittedState
  rw [hd, hp, ho]
  simp

/-- The trie of an object that has none open is the one under its root. -/
theorem getTrie_of_none {o : StateObject} (h : o.trie = none) :
    o.getTrie db = (db.OpenStorageTrie o.data.Root, { o with trie := some (db.OpenStorageTrie o.data.Root) }) := by
  unfold getTrie
  rw [h]

@[simp] theorem address_revertErase (o : StateObject) (codeHash : Hash)
    (code : Option (List UInt8)) (root : Hash) : (o.revertErase db codeHash code root).address = o.address := by
  simp [revertErase]

@[simp] theorem deleted_revertErase (o : StateObject) (codeHash : Hash)
    (code : Option (List UInt8)) (root : Hash) : (o.revertErase db codeHash code root).deleted = o.deleted := by
  simp [revertErase]

/-- Reverting an erasure leaves the caches. -/
@[simp] theorem cached_revertErase (o : StateObject) (codeHash : Hash) (code : Option (List UInt8))
    (root : Hash) : (o.revertErase db codeHash code root).cached = o.cached := by
  funext key
  simp [revertErase, cached]

/-- After a read the slot is cached with the value read, unless it was the zero
of a destructed account. -/
theorem cached_GetState_self (db : Database) (snap destructed : Bool) (s : StateObject) (key : Hash) :
    (s.GetState db snap destructed key).2.cached key = some (s.GetState db snap destructed key).1 ∨
      (snap = true ∧ destructed = true ∧ (s.GetState db snap destructed key).1 = Hash.zero) := by
  rcases GetState_cases db snap destructed s key with ⟨w, hw, hr⟩ | ⟨-, hs, hd, hr⟩ | ⟨hnone, w, hr⟩
  · rw [hr]
    exact Or.inl hw
  · rw [hr]
    exact Or.inr ⟨hs, hd, rfl⟩
  · left
    rw [hr]
    -- the two caches before the original one were empty at the slot, and stay so
    have hd : s.dirtyStorage key = none := by simp_all [cached]
    have hp : s.pendingStorage key = none := by simp_all [cached]
    cases snap <;> simp [cached, hd, hp]

end StateObject

end state

end PureChain
