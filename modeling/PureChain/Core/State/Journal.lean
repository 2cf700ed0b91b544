import PureChain.Core.State.StateObject
import PureChain.Core.Types.Transaction

/-!
# The journaled state database

`state.StateDB` holds the live state objects of a block, the refund counter, the
logs, the preimages and the access list of the transaction, and the **journal**:
one entry per change, recording what the change overwrote. `Snapshot` records
the length of the journal under a fresh id; `RevertToSnapshot` undoes the
entries after it, last first, each entry restoring what it recorded.

Every write goes through a state object that `GetOrNewStateObject` finds or
creates. Reads change the state too: they load accounts into `stateObjects`,
open storage tries and fill the caches of the objects, none of it journaled.

Two invariants are carried by the structure, so that no state breaks them: the
object stored under an address is that address's, and the valid revisions have
increasing ids below the next one and journal indices that do not decrease and
stay within the journal. With them `RevertToSnapshot` is defined on every valid
id.

The journal's count of dirtied addresses, the dirty and pending sets of objects
and everything after `Finalise` (the tries' update and commit) are left out; the
logs keep the fields a log is created with.
-/

namespace PureChain

namespace state

/-- `revision`: the id a snapshot returned and the length of the journal then. -/
structure revision where
  id : ℕ
  journalIndex : ℕ

/-- `accessList`: each address with the index of its slot set, or `-1` for
none, and the slot sets in the order their addresses got one. -/
structure AccessList where
  addresses : Address → Option ℤ
  slots : List (List Hash)

namespace AccessList

/-- `newAccessList`. -/
def newAccessList : AccessList := ⟨fun _ => none, []⟩

/-- `ContainsAddress`. -/
def ContainsAddress (al : AccessList) (address : Address) : Bool := (al.addresses address).isSome

/-- `Contains`: whether the address, and whether the slot, are present. -/
def Contains (al : AccessList) (address : Address) (slot : Hash) : Bool × Bool :=
  match al.addresses address with
  | none => (false, false)
  | some idx => if idx = -1 then (true, false) else (true, slot ∈ al.slots.getD idx.toNat [])

/-- `AddAddress`: whether the address was new. -/
def AddAddress (al : AccessList) (address : Address) : Bool × AccessList :=
  if (al.addresses address).isSome then (false, al)
  else (true, { al with addresses := Function.update al.addresses address (some (-1)) })

/-- `AddSlot`: whether the address, and whether the slot, were new. -/
def AddSlot (al : AccessList) (address : Address) (slot : Hash) : (Bool × Bool) × AccessList :=
  match al.addresses address with
  | some idx =>
    if idx = -1 then
      ((false, true), { addresses := Function.update al.addresses address (some al.slots.length)
                        slots := al.slots ++ [[slot]] })
    else
      let slotmap := al.slots.getD idx.toNat []
      if slot ∈ slotmap then ((false, false), al)
      else ((false, true), { al with slots := al.slots.set idx.toNat (slotmap ++ [slot]) })
  | none =>
    ((true, true), { addresses := Function.update al.addresses address (some al.slots.length)
                     slots := al.slots ++ [[slot]] })

/-- `DeleteSlot`: the slot out of its set, and a set left empty dropped with
those after it. The journal never reverts a slot of an absent address, where the
code panics; the model leaves the list. -/
def DeleteSlot (al : AccessList) (address : Address) (slot : Hash) : AccessList :=
  match al.addresses address with
  | none => al
  | some idx =>
    let slotmap := (al.slots.getD idx.toNat []).erase slot
    if slotmap = [] then
      { addresses := Function.update al.addresses address (some (-1))
        slots := al.slots.take idx.toNat }
    else { al with slots := al.slots.set idx.toNat slotmap }

/-- `DeleteAddress`. -/
def DeleteAddress (al : AccessList) (address : Address) : AccessList :=
  { al with addresses := Function.update al.addresses address none }

end AccessList

/-- The journal entries, with what each recorded. A reset records the address of
the object it replaced, which the code reads from the object. -/
inductive JournalEntry where
  | createObjectChange (account : Address)
  | resetObjectChange (account : Address) (prev : StateObject) (prevdestruct : Bool)
  | suicideChange (account : Address) (prev : Bool) (prevbalance : ℤ)
  | balanceChange (account : Address) (prev : ℤ)
  | lockBalanceChange (account : Address) (prev : ℤ)
  | nonceChange (account : Address) (prev : UInt64)
  | storageChange (account : Address) (key prevalue : Hash)
  | codeChange (account : Address) (prevcode : Option (List UInt8)) (prevhash : Hash)
  | refundChange (prev : UInt64)
  | addLogChange (txhash : Hash)
  | addPreimageChange (hash : Hash)
  | touchChange (account : Address)
  | eraseChange (account : Address) (prevcode : Option (List UInt8)) (prevhash prevroot : Hash)
  | accessListAddAccountChange (address : Address)
  | accessListAddSlotChange (address : Address) (slot : Hash)

/-- `state.StateDB`, with its two invariants. -/
structure StateDB where
  stateObjects : Address → Option StateObject
  /-- Whether the state has a snapshot layer (`snap != nil`). -/
  snap : Bool
  /-- The accounts destructed in the block, by address rather than its hash. -/
  snapDestructs : Address → Bool
  refund : UInt64
  thash : Hash
  logs : Hash → List Log
  logSize : ℕ
  preimages : Hash → Option (List UInt8)
  accessList : Option AccessList
  journal : List JournalEntry
  validRevisions : List revision
  nextRevisionId : ℕ
  /-- The object under an address is that address's. -/
  objects_address : ∀ a obj, stateObjects a = some obj → obj.address = a
  /-- The ids of the valid revisions increase and stay below the next id. -/
  ids_lt : (validRevisions.map revision.id).Pairwise (· < ·) ∧
    ∀ r ∈ validRevisions, r.id < nextRevisionId
  /-- Their journal indices do not decrease and stay within the journal. -/
  indices_le : (validRevisions.map revision.journalIndex).Pairwise (· ≤ ·) ∧
    ∀ r ∈ validRevisions, r.journalIndex ≤ journal.length

namespace StateDB

/-! ### The two writers the invariants rest on -/

theorem objects_address_update (s : StateDB) (object : StateObject) :
    ∀ a obj, Function.update s.stateObjects object.address (some object) a = some obj →
      obj.address = a := by
  intro a obj h
  by_cases ha : a = object.address
  · subst ha
    rw [Function.update_self, Option.some.injEq] at h
    rw [← h]
  · rw [Function.update_of_ne ha] at h
    exact s.objects_address a obj h

theorem objects_address_delete (s : StateDB) (addr : Address) :
    ∀ a obj, Function.update s.stateObjects addr none a = some obj → obj.address = a := by
  intro a obj h
  by_cases ha : a = addr
  · subst ha
    rw [Function.update_self] at h
    cases h
  · rw [Function.update_of_ne ha] at h
    exact s.objects_address a obj h

/-- `New`: nothing live, an empty journal and an empty access list; `snap` is
whether the state has a snapshot layer. -/
def New (snap : Bool) : StateDB where
  stateObjects := fun _ => none
  snap := snap
  snapDestructs := fun _ => false
  refund := 0
  thash := Hash.zero
  logs := fun _ => []
  logSize := 0
  preimages := fun _ => none
  accessList := some AccessList.newAccessList
  journal := []
  validRevisions := []
  nextRevisionId := 0
  objects_address := fun _ _ h => nomatch h
  ids_lt := ⟨List.Pairwise.nil, fun _ h => nomatch h⟩
  indices_le := ⟨List.Pairwise.nil, fun _ h => nomatch h⟩

/-- `SetStateObject`: the object stored under its address. -/
def SetStateObject (s : StateDB) (object : StateObject) : StateDB :=
  { s with
    stateObjects := Function.update s.stateObjects object.address (some object)
    objects_address := s.objects_address_update object }

/-- The object under an address removed, as reverting its creation does. -/
def deleteObject (s : StateDB) (addr : Address) : StateDB :=
  { s with
    stateObjects := Function.update s.stateObjects addr none
    objects_address := s.objects_address_delete addr }

theorem indices_le_append (s : StateDB) (entry : JournalEntry) :
    ∀ r ∈ s.validRevisions, r.journalIndex ≤ (s.journal ++ [entry]).length := by
  intro r hr
  rw [List.length_append, List.length_singleton]
  exact Nat.le_succ_of_le (s.indices_le.2 r hr)

/-- `journal.append`. -/
def append (s : StateDB) (entry : JournalEntry) : StateDB :=
  { s with
    journal := s.journal ++ [entry]
    indices_le := ⟨s.indices_le.1, s.indices_le_append entry⟩ }

/-- What a journal entry does to the live object at an address,
`s.getStateObject(addr)`, found without loading. -/
def modifyObject (s : StateDB) (addr : Address) (f : StateObject → StateObject) : StateDB :=
  match s.stateObjects addr with
  | some obj => if obj.deleted then s else s.SetStateObject (f obj)
  | none => s

variable (db : Database)

/-! ### Reverting one entry -/

/-- `journalEntry.revert`. -/
def revertEntry (s : StateDB) : JournalEntry → StateDB
  | .createObjectChange account => s.deleteObject account
  | .resetObjectChange account prev prevdestruct =>
    let s := s.SetStateObject prev
    if !prevdestruct && s.snap then
      { s with snapDestructs := Function.update s.snapDestructs account false }
    else s
  | .suicideChange account prev prevbalance =>
    s.modifyObject account fun obj => { obj.setBalance prevbalance with suicided := prev }
  | .balanceChange account prev => s.modifyObject account (·.setBalance prev)
  | .lockBalanceChange account prev => s.modifyObject account (·.setLockBalance prev)
  | .nonceChange account prev => s.modifyObject account (·.setNonce prev)
  | .storageChange account key prevalue => s.modifyObject account (·.setState key prevalue)
  | .codeChange account prevcode prevhash =>
    s.modifyObject account (·.setCode prevhash prevcode)
  | .refundChange prev => { s with refund := prev }
  | .addLogChange txhash =>
    -- the last log of the transaction dropped; a transaction left with none
    -- reads as no logs, as its deleted key does
    { s with logs := Function.update s.logs txhash (s.logs txhash).dropLast, logSize := s.logSize - 1 }
  | .addPreimageChange hash => { s with preimages := Function.update s.preimages hash none }
  | .touchChange _ => s
  | .eraseChange account prevcode prevhash prevroot =>
    s.modifyObject account (·.revertErase db prevhash prevcode prevroot)
  | .accessListAddAccountChange address =>
    { s with accessList := s.accessList.map (·.DeleteAddress address) }
  | .accessListAddSlotChange address slot =>
    { s with accessList := s.accessList.map (·.DeleteSlot address slot) }

/-! ### Finding and creating objects -/

/-- `getDeletedStateObject`: the live object, or the account of the database
loaded and made live. -/
def getDeletedStateObject (s : StateDB) (addr : Address) : Option StateObject × StateDB :=
  match s.stateObjects addr with
  | some obj => (some obj, s)
  | none =>
    match db.accounts addr with
    | none => (none, s)
    | some data =>
      let obj := newObject addr data
      (some obj, s.SetStateObject obj)

/-- `getStateObject`: the object, unless it was deleted. -/
def getStateObject (s : StateDB) (addr : Address) : Option StateObject × StateDB :=
  match s.getDeletedStateObject db addr with
  | (some obj, s) => if obj.deleted then (none, s) else (some obj, s)
  | (none, s) => (none, s)

/-- `createObject`: a fresh object in place of the previous one, journaled as a
creation or a reset; the previous object is returned unless it was deleted. -/
def createObject (s : StateDB) (addr : Address) : StateObject × Option StateObject × StateDB :=
  let (prev, s) := s.getDeletedStateObject db addr
  let prevdestruct := s.snap && prev.isSome && s.snapDestructs addr
  let s :=
    if s.snap && prev.isSome && !prevdestruct then
      { s with snapDestructs := Function.update s.snapDestructs addr true }
    else s
  let newobj := (newObject addr Account.empty).setNonce 0
  let s := s.append <| match prev with
    | none => .createObjectChange addr
    | some p => .resetObjectChange addr p prevdestruct
  (newobj, prev.filter (!·.deleted), s.SetStateObject newobj)

/-- `GetOrNewStateObject`. -/
def GetOrNewStateObject (s : StateDB) (addr : Address) : StateObject × StateDB :=
  match s.getStateObject db addr with
  | (some obj, s) => (obj, s)
  | (none, s) =>
    let (newobj, _, s) := s.createObject db addr
    (newobj, s)

end StateDB

/-! ### The journaled methods of a state object

Each takes the object as the state holds it and gives the state with the entry
appended and the object written back. -/

namespace StateObject

variable (db : Database)

/-- `touch`. -/
def touch (obj : StateObject) (s : StateDB) : StateDB := s.append (.touchChange obj.address)

/-- `SetBalance`. -/
def SetBalance (obj : StateObject) (s : StateDB) (amount : ℤ) : StateDB :=
  (s.append (.balanceChange obj.address obj.data.Balance)).SetStateObject (obj.setBalance amount)

/-- `SetLockBalance`. -/
def SetLockBalance (obj : StateObject) (s : StateDB) (amount : ℤ) : StateDB :=
  (s.append (.lockBalanceChange obj.address obj.data.LockBalance)).SetStateObject
    (obj.setLockBalance amount)

/-- `AddBalance`: a zero amount only touches an empty account (EIP-161). -/
def AddBalance (obj : StateObject) (s : StateDB) (amount : ℤ) : StateDB :=
  if amount = 0 then (if obj.empty then obj.touch s else s)
  else obj.SetBalance s (obj.data.Balance + amount)

/-- `AddLockBalance`: a zero amount only touches an empty account. -/
def AddLockBalance (obj : StateObject) (s : StateDB) (amount : ℤ) : StateDB :=
  if amount = 0 then (if obj.empty then obj.touch s else s)
  else obj.SetLockBalance s (obj.data.LockBalance + amount)

/-- `SubBalance`. -/
def SubBalance (obj : StateObject) (s : StateDB) (amount : ℤ) : StateDB :=
  if amount = 0 then s else obj.SetBalance s (obj.data.Balance - amount)

/-- `SubLockBalance`. -/
def SubLockBalance (obj : StateObject) (s : StateDB) (amount : ℤ) : StateDB :=
  if amount = 0 then s else obj.SetLockBalance s (obj.data.LockBalance - amount)

/-- `SetNonce`. -/
def SetNonce (obj : StateObject) (s : StateDB) (nonce : UInt64) : StateDB :=
  (s.append (.nonceChange obj.address obj.data.Nonce)).SetStateObject (obj.setNonce nonce)

/-- `SetCode`: the previous code loaded for the journal. -/
def SetCode (obj : StateObject) (s : StateDB) (codeHash : Hash) (code : List UInt8) : StateDB :=
  let (prevcode, obj) := obj.Code db
  (s.append (.codeChange obj.address prevcode obj.data.CodeHash)).SetStateObject
    (obj.setCode codeHash (some code))

/-- `SetState`: the previous value read, and nothing journaled when it is the
new one. -/
def SetState (obj : StateObject) (s : StateDB) (key value : Hash) : StateDB :=
  let (prev, obj) := obj.GetState db s.snap (s.snapDestructs obj.address) key
  if prev = value then s.SetStateObject obj
  else (s.append (.storageChange obj.address key prev)).SetStateObject (obj.setState key value)

/-- `erase`: the code loaded for the journal, then the empty code and root. -/
def erase (obj : StateObject) (s : StateDB) : StateDB :=
  let (prevcode, obj) := obj.Code db
  (s.append (.eraseChange obj.address prevcode obj.data.CodeHash obj.data.Root)).SetStateObject
    obj.eraseFields

end StateObject

namespace StateDB

variable (db : Database) (keccak256 : List UInt8 → Hash)

/-! ### Writes -/

/-- A write through the object `GetOrNewStateObject` finds or creates: the shape
of every setter of `StateDB` below. -/
def withObject (s : StateDB) (addr : Address) (write : StateObject → StateDB → StateDB) : StateDB :=
  let (obj, s) := s.GetOrNewStateObject db addr
  write obj s

/-- `AddBalance`. -/
def AddBalance (s : StateDB) (addr : Address) (amount : ℤ) : StateDB :=
  s.withObject db addr fun obj s => obj.AddBalance s amount

/-- `SubBalance`. -/
def SubBalance (s : StateDB) (addr : Address) (amount : ℤ) : StateDB :=
  s.withObject db addr fun obj s => obj.SubBalance s amount

/-- `AddLockBalance`. -/
def AddLockBalance (s : StateDB) (addr : Address) (amount : ℤ) : StateDB :=
  s.withObject db addr fun obj s => obj.AddLockBalance s amount

/-- `SubLockBalance`. -/
def SubLockBalance (s : StateDB) (addr : Address) (amount : ℤ) : StateDB :=
  s.withObject db addr fun obj s => obj.SubLockBalance s amount

/-- `SetBalance`. -/
def SetBalance (s : StateDB) (addr : Address) (amount : ℤ) : StateDB :=
  s.withObject db addr fun obj s => obj.SetBalance s amount

/-- `SetLockBalance`. -/
def SetLockBalance (s : StateDB) (addr : Address) (amount : ℤ) : StateDB :=
  s.withObject db addr fun obj s => obj.SetLockBalance s amount

/-- `SetNonce`. -/
def SetNonce (s : StateDB) (addr : Address) (nonce : UInt64) : StateDB :=
  s.withObject db addr fun obj s => obj.SetNonce s nonce

/-- `SetCode`: the code under its Keccak-256. -/
def SetCode (s : StateDB) (addr : Address) (code : List UInt8) : StateDB :=
  s.withObject db addr fun obj s => obj.SetCode db s (keccak256 code) code

/-- `SetState`. -/
def SetState (s : StateDB) (addr : Address) (key value : Hash) : StateDB :=
  s.withObject db addr fun obj s => obj.SetState db s key value

/-- `Suicide`: the account marked and its balance cleared; false for no account. -/
def Suicide (s : StateDB) (addr : Address) : Bool × StateDB :=
  match s.getStateObject db addr with
  | (none, s) => (false, s)
  | (some obj, s) =>
    let s := s.append (.suicideChange addr obj.suicided obj.data.Balance)
    (true, s.SetStateObject { obj.setBalance 0 with suicided := true })

/-- `Erase`: false for no account. -/
def Erase (s : StateDB) (addr : Address) : Bool × StateDB :=
  match s.getStateObject db addr with
  | (none, s) => (false, s)
  | (some obj, s) => (true, obj.erase db s)

/-- `CreateAccount`: a fresh account, with the balance of the one it replaces. -/
def CreateAccount (s : StateDB) (addr : Address) : StateDB :=
  match s.createObject db addr with
  | (newObj, some prev, s) => s.SetStateObject (newObj.setBalance prev.data.Balance)
  | (_, none, s) => s

/-- `AddLog`, under the current transaction's hash. -/
def AddLog (s : StateDB) (log : Log) : StateDB :=
  let s := s.append (.addLogChange s.thash)
  { s with logs := Function.update s.logs s.thash (s.logs s.thash ++ [log]), logSize := s.logSize + 1 }

/-- `AddPreimage`: only a new one is recorded. -/
def AddPreimage (s : StateDB) (hash : Hash) (preimage : List UInt8) : StateDB :=
  if (s.preimages hash).isSome then s
  else
    let s := s.append (.addPreimageChange hash)
    { s with preimages := Function.update s.preimages hash (some preimage) }

/-- `AddRefund`: a `uint64` sum. -/
def AddRefund (s : StateDB) (gas : UInt64) : StateDB :=
  let s := s.append (.refundChange s.refund)
  { s with refund := s.refund + gas }

/-- `SubRefund`: a refund below zero is a panic, `none`. -/
def SubRefund (s : StateDB) (gas : UInt64) : Option StateDB :=
  let s := s.append (.refundChange s.refund)
  if gas > s.refund then none else some { s with refund := s.refund - gas }

/-- `AddAddressToAccessList`. -/
def AddAddressToAccessList (s : StateDB) (addr : Address) : StateDB :=
  let (added, al) := (s.accessList.getD AccessList.newAccessList).AddAddress addr
  let s := { s with accessList := some al }
  if added then s.append (.accessListAddAccountChange addr) else s

/-- `AddSlotToAccessList`. -/
def AddSlotToAccessList (s : StateDB) (addr : Address) (slot : Hash) : StateDB :=
  let ((addrMod, slotMod), al) := (s.accessList.getD AccessList.newAccessList).AddSlot addr slot
  let s := { s with accessList := some al }
  let s := if addrMod then s.append (.accessListAddAccountChange addr) else s
  if slotMod then s.append (.accessListAddSlotChange addr slot) else s

/-! ### Reads -/

/-- A read of the object `getStateObject` finds, with the value for no account:
the shape of the getters below. -/
def readObject {α : Type} (s : StateDB) (addr : Address) (default : α)
    (read : StateObject → α × StateObject) : α × StateDB :=
  match s.getStateObject db addr with
  | (none, s) => (default, s)
  | (some obj, s) =>
    let (a, obj) := read obj
    (a, s.SetStateObject obj)

/-- `GetBalance`. -/
def GetBalance (s : StateDB) (addr : Address) : ℤ × StateDB :=
  s.readObject db addr 0 fun obj => (obj.data.Balance, obj)

/-- `GetLockBalance`. -/
def GetLockBalance (s : StateDB) (addr : Address) : ℤ × StateDB :=
  s.readObject db addr 0 fun obj => (obj.data.LockBalance, obj)

/-- `GetNonce`. -/
def GetNonce (s : StateDB) (addr : Address) : UInt64 × StateDB :=
  s.readObject db addr 0 fun obj => (obj.data.Nonce, obj)

/-- `GetCode`. -/
def GetCode (s : StateDB) (addr : Address) : Option (List UInt8) × StateDB :=
  s.readObject db addr none fun obj => obj.Code db

/-- `GetCodeHash`. -/
def GetCodeHash (s : StateDB) (addr : Address) : Hash × StateDB :=
  s.readObject db addr Hash.zero fun obj => (obj.data.CodeHash, obj)

/-- `GetState`. -/
def GetState (s : StateDB) (addr : Address) (key : Hash) : Hash × StateDB :=
  s.readObject db addr Hash.zero fun obj => obj.GetState db s.snap (s.snapDestructs addr) key

/-- `GetCommittedState`. -/
def GetCommittedState (s : StateDB) (addr : Address) (key : Hash) : Hash × StateDB :=
  s.readObject db addr Hash.zero fun obj =>
    obj.GetCommittedState db s.snap (s.snapDestructs addr) key

/-- `HasSuicided`. -/
def HasSuicided (s : StateDB) (addr : Address) : Bool × StateDB :=
  s.readObject db addr false fun obj => (obj.suicided, obj)

/-- `Exist`: an account, suicided or not. -/
def Exist (s : StateDB) (addr : Address) : Bool × StateDB :=
  s.readObject db addr false fun obj => (true, obj)

/-- `Empty`: no account, or an empty one. -/
def Empty (s : StateDB) (addr : Address) : Bool × StateDB :=
  s.readObject db addr true fun obj => (obj.empty, obj)

/-- `GetRefund`. -/
def GetRefund (s : StateDB) : UInt64 := s.refund

/-- `GetLogs`. -/
def GetLogs (s : StateDB) (hash : Hash) : List Log := s.logs hash

/-- `AddressInAccessList`. -/
def AddressInAccessList (s : StateDB) (addr : Address) : Bool :=
  match s.accessList with
  | none => false
  | some al => al.ContainsAddress addr

/-- `SlotInAccessList`. -/
def SlotInAccessList (s : StateDB) (addr : Address) (slot : Hash) : Bool × Bool :=
  match s.accessList with
  | none => (false, false)
  | some al => al.Contains addr slot

/-! ### Snapshots -/

theorem ids_lt_snapshot (s : StateDB) :
    ((s.validRevisions ++ [revision.mk s.nextRevisionId s.journal.length]).map revision.id).Pairwise (· < ·) ∧
      ∀ r ∈ s.validRevisions ++ [revision.mk s.nextRevisionId s.journal.length], r.id < s.nextRevisionId + 1 := by
  constructor
  · rw [List.map_append, List.pairwise_append]
    refine ⟨s.ids_lt.1, List.pairwise_singleton _ _, ?_⟩
    intro a ha b hb
    rw [List.map_singleton, List.mem_singleton] at hb
    obtain ⟨r, hr, rfl⟩ := List.mem_map.mp ha
    exact hb ▸ s.ids_lt.2 r hr
  · intro r hr
    rcases List.mem_append.mp hr with hr | hr
    · exact Nat.lt_succ_of_lt (s.ids_lt.2 r hr)
    · rw [List.mem_singleton] at hr
      rw [hr]
      exact Nat.lt_succ_self _

theorem indices_le_snapshot (s : StateDB) :
    ((s.validRevisions ++ [revision.mk s.nextRevisionId s.journal.length]).map revision.journalIndex).Pairwise
        (· ≤ ·) ∧
      ∀ r ∈ s.validRevisions ++ [revision.mk s.nextRevisionId s.journal.length], r.journalIndex ≤ s.journal.length := by
  constructor
  · rw [List.map_append, List.pairwise_append]
    refine ⟨s.indices_le.1, List.pairwise_singleton _ _, ?_⟩
    intro a ha b hb
    rw [List.map_singleton, List.mem_singleton] at hb
    obtain ⟨r, hr, rfl⟩ := List.mem_map.mp ha
    exact hb ▸ s.indices_le.2 r hr
  · intro r hr
    rcases List.mem_append.mp hr with hr | hr
    · exact s.indices_le.2 r hr
    · rw [List.mem_singleton] at hr
      rw [hr]

/-- `Snapshot`: a fresh id for the current length of the journal. -/
def Snapshot (s : StateDB) : ℕ × StateDB :=
  (s.nextRevisionId,
    { s with
      nextRevisionId := s.nextRevisionId + 1
      validRevisions := s.validRevisions ++ [revision.mk s.nextRevisionId s.journal.length]
      ids_lt := s.ids_lt_snapshot
      indices_le := s.indices_le_snapshot })

/-- `journal.revert`'s undoing: the entries from the last back to the first. -/
def revertEntries (s : StateDB) (entries : List JournalEntry) : StateDB :=
  entries.foldr (fun entry s => s.revertEntry db entry) s

theorem ids_lt_take (s : StateDB) (idx : ℕ) :
    ((s.validRevisions.take idx).map revision.id).Pairwise (· < ·) ∧
      ∀ r ∈ s.validRevisions.take idx, r.id < s.nextRevisionId :=
  ⟨List.map_take ▸ s.ids_lt.1.sublist (List.take_sublist _ _),
    fun r hr => s.ids_lt.2 r (List.mem_of_mem_take hr)⟩

/-- The revisions before a valid one point no further into the journal. -/
theorem indices_le_take (s : StateDB) {idx : ℕ} (hidx : idx < s.validRevisions.length) :
    ((s.validRevisions.take idx).map revision.journalIndex).Pairwise (· ≤ ·) ∧
      ∀ r ∈ s.validRevisions.take idx,
        r.journalIndex ≤ (s.journal.take (s.validRevisions[idx]).journalIndex).length := by
  refine ⟨List.map_take ▸ s.indices_le.1.sublist (List.take_sublist _ _), fun r hr => ?_⟩
  have hle := s.indices_le.2 _ (List.getElem_mem hidx)
  rw [List.length_take, Nat.min_eq_left hle]
  obtain ⟨j, hj, rfl⟩ := List.getElem_of_mem hr
  rw [List.length_take] at hj
  -- the indices do not decrease along the list
  have hpw := List.pairwise_iff_getElem.mp s.indices_le.1 j idx (by simp; omega) (by simp; omega)
    (by omega)
  simpa using hpw

/-- `RevertToSnapshot`: the entries after the revision undone, and the revisions
from it on dropped; an id that is not a valid revision's is a panic, `none`. -/
def RevertToSnapshot (s : StateDB) (revid : ℕ) : Option StateDB :=
  let idx := s.validRevisions.findIdx fun r => decide (r.id ≥ revid)
  if hidx : idx < s.validRevisions.length then
    if s.validRevisions[idx].id ≠ revid then none
    else
      let snapshot := s.validRevisions[idx].journalIndex
      let r := s.revertEntries db (s.journal.drop snapshot)
      some
        { r with
          journal := s.journal.take snapshot
          validRevisions := s.validRevisions.take idx
          nextRevisionId := s.nextRevisionId
          ids_lt := s.ids_lt_take idx
          indices_le := s.indices_le_take hidx }
  else none

end StateDB

end state

end PureChain
