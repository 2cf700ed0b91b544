import PureChain.Core.State.Journal

/-!
# What `Erase` leaves behind

`StateDB.Erase` is meant to empty a contract: its code and its storage. It
empties the code and points the account at the empty storage root, but the
object keeps its three storage caches, and every slot they hold is read from
them, not from the new root. So a slot written before the erasure still reads
its value after it (`GetState_after_Erase`).

The caches also defeat the journal. A slot first read after the erasure is read
from the empty trie, as zero, and a write to it journals that zero as the value
it overwrote. Reverting to a snapshot taken before the erasure restores the root
– but the entry of the write puts the zero back into the dirty cache, and
`revertErase` keeps the empty trie it finds open. The slot then reads zero
where, at the snapshot, it read its committed value
(`RevertToSnapshot_loses_erased_slot`).

The lemmas first say what the finders and writers do to a live object: one spec
lemma for each, so that the two results are chains of them.
-/

namespace PureChain

namespace state

namespace StateDB

variable {db : Database}

/-- The object the state holds live under an address: present and not deleted. -/
def LiveAt (s : StateDB) (addr : Address) (obj : StateObject) : Prop :=
  s.stateObjects addr = some obj ∧ obj.deleted = false

/-! ### Frame lemmas of the writers -/

@[simp] theorem stateObjects_append (s : StateDB) (e : JournalEntry) :
    (s.append e).stateObjects = s.stateObjects := rfl

@[simp] theorem snap_append (s : StateDB) (e : JournalEntry) : (s.append e).snap = s.snap := rfl

@[simp] theorem snapDestructs_append (s : StateDB) (e : JournalEntry) :
    (s.append e).snapDestructs = s.snapDestructs := rfl

@[simp] theorem journal_append (s : StateDB) (e : JournalEntry) :
    (s.append e).journal = s.journal ++ [e] := rfl

@[simp] theorem validRevisions_append (s : StateDB) (e : JournalEntry) :
    (s.append e).validRevisions = s.validRevisions := rfl

@[simp] theorem stateObjects_SetStateObject (s : StateDB) (o : StateObject) :
    (s.SetStateObject o).stateObjects = Function.update s.stateObjects o.address (some o) := rfl

@[simp] theorem snap_SetStateObject (s : StateDB) (o : StateObject) :
    (s.SetStateObject o).snap = s.snap := rfl

@[simp] theorem snapDestructs_SetStateObject (s : StateDB) (o : StateObject) :
    (s.SetStateObject o).snapDestructs = s.snapDestructs := rfl

@[simp] theorem journal_SetStateObject (s : StateDB) (o : StateObject) :
    (s.SetStateObject o).journal = s.journal := rfl

@[simp] theorem validRevisions_SetStateObject (s : StateDB) (o : StateObject) :
    (s.SetStateObject o).validRevisions = s.validRevisions := rfl

theorem LiveAt.address {s : StateDB} {addr : Address} {obj : StateObject}
    (h : s.LiveAt addr obj) : obj.address = addr :=
  s.objects_address addr obj h.1

/-- Writing back a live object with its address and flags keeps it live. -/
theorem LiveAt_SetStateObject {s : StateDB} {addr : Address} {o : StateObject}
    (ha : o.address = addr) (hd : o.deleted = false) : (s.SetStateObject o).LiveAt addr o := by
  refine ⟨?_, hd⟩
  rw [stateObjects_SetStateObject, ha, Function.update_self]

/-! ### The finders on a live object -/

theorem getDeletedStateObject_of_live {s : StateDB} {addr : Address} {obj : StateObject}
    (h : s.LiveAt addr obj) : s.getDeletedStateObject db addr = (some obj, s) := by
  unfold getDeletedStateObject
  rw [h.1]

theorem getStateObject_of_live {s : StateDB} {addr : Address} {obj : StateObject}
    (h : s.LiveAt addr obj) : s.getStateObject db addr = (some obj, s) := by
  unfold getStateObject
  rw [getDeletedStateObject_of_live h]
  simp [h.2]

theorem GetOrNewStateObject_of_live {s : StateDB} {addr : Address} {obj : StateObject}
    (h : s.LiveAt addr obj) : s.GetOrNewStateObject db addr = (obj, s) := by
  unfold GetOrNewStateObject
  rw [getStateObject_of_live h]

/-- After `GetOrNewStateObject` the object it returns is live under the address. -/
theorem LiveAt_GetOrNewStateObject (s : StateDB) (addr : Address) :
    (s.GetOrNewStateObject db addr).2.LiveAt addr (s.GetOrNewStateObject db addr).1 := by
  unfold GetOrNewStateObject getStateObject getDeletedStateObject
  -- a live object, a loaded account, or a created object
  cases hobj : s.stateObjects addr with
  | some obj =>
    by_cases hdel : obj.deleted = true
    · simp only [hdel, if_true]
      unfold createObject getDeletedStateObject
      simp only [hobj]
      exact LiveAt_SetStateObject rfl rfl
    · simp only [Bool.not_eq_true] at hdel
      simp only [hdel]
      exact ⟨hobj, hdel⟩
  | none =>
    cases hacc : db.accounts addr with
    | some data =>
      simp only [newObject]
      exact LiveAt_SetStateObject rfl rfl
    | none =>
      simp only
      unfold createObject getDeletedStateObject
      simp only [hobj, hacc]
      exact LiveAt_SetStateObject rfl rfl

/-! ### The object methods keep the address and the flag -/

@[simp] theorem address_GetState (o : StateObject) (snap d : Bool) (key : Hash) :
    (o.GetState db snap d key).2.address = o.address := by
  obtain ⟨tr, orig, h⟩ : ∃ tr orig, (o.GetState db snap d key).2 =
      { o with trie := tr, originStorage := orig } := StateObject.GetState_eq_with db snap d o key
  rw [h]

@[simp] theorem deleted_GetState (o : StateObject) (snap d : Bool) (key : Hash) :
    (o.GetState db snap d key).2.deleted = o.deleted := by
  obtain ⟨tr, orig, h⟩ : ∃ tr orig, (o.GetState db snap d key).2 =
      { o with trie := tr, originStorage := orig } := StateObject.GetState_eq_with db snap d o key
  rw [h]

@[simp] theorem address_Code (o : StateObject) : (o.Code db).2.address = o.address := by
  obtain ⟨c, h⟩ : ∃ c, (o.Code db).2 = { o with code := c } := StateObject.Code_eq_with db o
  rw [h]

@[simp] theorem deleted_Code (o : StateObject) : (o.Code db).2.deleted = o.deleted := by
  obtain ⟨c, h⟩ : ∃ c, (o.Code db).2 = { o with code := c } := StateObject.Code_eq_with db o
  rw [h]

@[simp] theorem data_Code (o : StateObject) : (o.Code db).2.data = o.data := by
  obtain ⟨c, h⟩ : ∃ c, (o.Code db).2 = { o with code := c } := StateObject.Code_eq_with db o
  rw [h]

/-! ### `SetState`, `Erase` and `GetState` on a live object -/

/-- **After a write the slot is cached with the value written**, in the object
then live under the address; a zero may instead have been read from a
destructed account and left uncached. -/
theorem SetState_live_cached (s : StateDB) (addr : Address) {key v : Hash} (hv : v ≠ Hash.zero) :
    ∃ o, (s.SetState db addr key v).LiveAt addr o ∧ o.cached key = some v := by
  have hlive : (s.GetOrNewStateObject db addr).2.LiveAt addr (s.GetOrNewStateObject db addr).1 :=
    LiveAt_GetOrNewStateObject s addr
  unfold SetState withObject StateObject.SetState
  generalize s.GetOrNewStateObject db addr = p at hlive ⊢
  obtain ⟨obj, t⟩ := p
  have haddr : obj.address = addr := hlive.address
  dsimp only at hlive ⊢
  -- the value read before the write decides whether a write is journaled
  generalize hr : obj.GetState db t.snap (t.snapDestructs obj.address) key = r
  obtain ⟨prev, o⟩ := r
  have hself := StateObject.cached_GetState_self db t.snap (t.snapDestructs obj.address) obj key
  have ho_addr : o.address = addr := by
    rw [← haddr, ← address_GetState obj t.snap (t.snapDestructs obj.address) key, hr]
  have ho_del : o.deleted = false := by
    rw [← hlive.2, ← deleted_GetState obj t.snap (t.snapDestructs obj.address) key, hr]
  rw [hr] at hself
  dsimp only at hself ⊢
  split_ifs with hp
  · refine ⟨o, LiveAt_SetStateObject ho_addr ho_del, ?_⟩
    rcases hself with h | ⟨-, -, h0⟩
    · rw [h, hp]
    · exact absurd (hp ▸ h0) hv
  · exact ⟨o.setState key v, LiveAt_SetStateObject ho_addr ho_del, StateObject.cached_setState o key v⟩

/-- `SetState` on a live object is the object's. -/
theorem SetState_of_live {s : StateDB} {addr : Address} {obj : StateObject} {key value : Hash}
    (h : s.LiveAt addr obj) : s.SetState db addr key value = obj.SetState db s key value := by
  unfold SetState withObject
  rw [GetOrNewStateObject_of_live h]

/-- `Erase` on a live object: the code loaded, the erasure journaled with the code
hash and the root, and the fields erased. -/
theorem Erase_of_live {s : StateDB} {addr : Address} {obj : StateObject} (h : s.LiveAt addr obj) :
    s.Erase db addr = (true, (s.append (.eraseChange addr (obj.Code db).1 obj.data.CodeHash
      obj.data.Root)).SetStateObject (obj.Code db).2.eraseFields) := by
  unfold Erase StateObject.erase
  rw [getStateObject_of_live h]
  simp only [address_Code, data_Code, h.address]

/-- After `Erase` the object is live with the caches it had. -/
theorem Erase_live_cached {s : StateDB} {addr : Address} {obj : StateObject} (h : s.LiveAt addr obj) :
    ∃ o, (s.Erase db addr).2.LiveAt addr o ∧ o.cached = obj.cached := by
  rw [Erase_of_live h]
  refine ⟨(obj.Code db).2.eraseFields, LiveAt_SetStateObject ?_ ?_, ?_⟩
  · rw [← h.address]
    exact address_Code obj
  · rw [← h.2]
    exact deleted_Code obj
  · rw [StateObject.cached_eraseFields, StateObject.cached_Code]

/-- A slot the live object caches is read from the cache. -/
theorem GetState_of_live_cached {s : StateDB} {addr : Address} {obj : StateObject} {key v : Hash}
    (h : s.LiveAt addr obj) (hc : obj.cached key = some v) : (s.GetState db addr key).1 = v := by
  unfold GetState readObject
  rw [getStateObject_of_live h]
  dsimp only
  rw [StateObject.GetState_of_cached hc]

/-- **`Erase` does not empty the storage.** For every state, every address,
slot and non-zero value: after the value is written to the slot and the account
erased, the slot still reads the value, not zero. -/
theorem GetState_after_Erase (db : Database) (s : StateDB) (addr : Address) (key v : Hash)
    (hv : v ≠ Hash.zero) :
    (((s.SetState db addr key v).Erase db addr).2.GetState db addr key).1 = v := by
  obtain ⟨o, hlive, hcached⟩ : ∃ o, (s.SetState db addr key v).LiveAt addr o ∧ o.cached key = some v :=
    SetState_live_cached s addr hv
  obtain ⟨o', hlive', hcached'⟩ : ∃ o', ((s.SetState db addr key v).Erase db addr).2.LiveAt addr o' ∧
      o'.cached = o.cached := Erase_live_cached hlive
  exact GetState_of_live_cached hlive' (hcached' ▸ hcached)

/-- An empty database and a fresh state: the value `0x0101…01` written to slot
zero of the zero address survives the erasure. -/
theorem GetState_after_Erase_new :
    let db : Database := ⟨fun _ _ => Hash.zero, fun _ => [], fun _ => none, fun _ _ => Hash.zero⟩
    let v : Hash := ⟨Vector.replicate 32 1⟩
    v ≠ Hash.zero ∧
      ((((New false).SetState db Address.zero Hash.zero v).Erase db Address.zero).2.GetState db
        Address.zero Hash.zero).1 = v := by
  intro db v
  have hv : v ≠ Hash.zero := by decide
  exact ⟨hv, GetState_after_Erase db (New false) Address.zero Hash.zero v hv⟩

/-! ### Snapshots and reverts -/

@[simp] theorem stateObjects_Snapshot (s : StateDB) : s.Snapshot.2.stateObjects = s.stateObjects := rfl

@[simp] theorem snap_Snapshot (s : StateDB) : s.Snapshot.2.snap = s.snap := rfl

@[simp] theorem snapDestructs_Snapshot (s : StateDB) :
    s.Snapshot.2.snapDestructs = s.snapDestructs := rfl

@[simp] theorem journal_Snapshot (s : StateDB) : s.Snapshot.2.journal = s.journal := rfl

@[simp] theorem validRevisions_Snapshot (s : StateDB) :
    s.Snapshot.2.validRevisions = s.validRevisions ++ [revision.mk s.nextRevisionId s.journal.length] :=
  rfl

theorem modifyObject_of_live {s : StateDB} {addr : Address} {o : StateObject}
    (h : s.LiveAt addr o) (f : StateObject → StateObject) :
    s.modifyObject addr f = s.SetStateObject (f o) := by
  unfold modifyObject
  rw [h.1]
  simp [h.2]

/-- **Reverting to the last revision** undoes the entries appended since, and
succeeds: the ids before it are smaller. -/
theorem RevertToSnapshot_last {t : StateDB} {vs : List revision} {r n : ℕ}
    (hrev : t.validRevisions = vs ++ [revision.mk r n]) (hlt : ∀ x ∈ vs, x.id < r) :
    ∃ u, t.RevertToSnapshot db r = some u ∧
      u.stateObjects = (t.revertEntries db (t.journal.drop n)).stateObjects ∧
      u.snapDestructs = (t.revertEntries db (t.journal.drop n)).snapDestructs := by
  -- the search for the first id at least `r` stops at the last revision
  have hidx : t.validRevisions.findIdx (fun x => decide (x.id ≥ r)) = vs.length := by
    have hvs : vs.findIdx (fun x => decide (x.id ≥ r)) = vs.length :=
      List.findIdx_eq_length.mpr fun x hx => by simpa using hlt x hx
    rw [hrev, List.findIdx_append, hvs]
    simp
  have hlen : vs.length < t.validRevisions.length := by
    rw [hrev, List.length_append, List.length_singleton]
    exact Nat.lt_succ_self _
  have hget : t.validRevisions[vs.length] = revision.mk r n := by
    simp [hrev]
  unfold RevertToSnapshot
  simp only [hidx, hlen, dite_true, hget, ne_eq, not_true_eq_false, if_false]
  exact ⟨_, rfl, rfl, rfl⟩

/-- Objects live under the same map are live alike. -/
theorem LiveAt_of_stateObjects {s t : StateDB} {addr : Address} {o : StateObject}
    (h : t.stateObjects = s.stateObjects) (hs : s.LiveAt addr o) : t.LiveAt addr o :=
  ⟨h ▸ hs.1, hs.2⟩

/-- **A revert does not give back an erased slot.** Take a state without a
snapshot layer, a live account whose storage slot no cache holds and reads a
non-zero value, and a database whose empty trie reads zero there. Take a
snapshot, erase the account, and write any non-zero value to the slot. Reverting
to the snapshot succeeds, and the slot then reads zero. -/
theorem RevertToSnapshot_loses_erased_slot (db : Database) (s : StateDB) (addr : Address)
    (obj : StateObject) (key w : Hash) (hsnap : s.snap = false) (hlive : s.LiveAt addr obj)
    (hcache : obj.cached key = none) (hempty : db.OpenStorageTrie emptyRoot key = Hash.zero)
    (hv : (s.GetState db addr key).1 ≠ Hash.zero) (hw : w ≠ Hash.zero) :
    ∃ s₄, ((s.Snapshot.2.Erase db addr).2.SetState db addr key w).RevertToSnapshot db
        s.Snapshot.1 = some s₄ ∧ (s₄.GetState db addr key).1 = Hash.zero ∧
        (s₄.GetState db addr key).1 ≠ (s.GetState db addr key).1 := by
  -- the erasure: the object keeps its caches, loses its trie, points at the empty root
  have hlive₁ : s.Snapshot.2.LiveAt addr obj := LiveAt_of_stateObjects (stateObjects_Snapshot s) hlive
  set oE := (obj.Code db).2.eraseFields with hoE
  set s₂ := (s.Snapshot.2.append (.eraseChange addr (obj.Code db).1 obj.data.CodeHash
    obj.data.Root)).SetStateObject oE with hs₂
  have herase : (s.Snapshot.2.Erase db addr).2 = s₂ := by rw [Erase_of_live hlive₁]
  have hlive₂ : s₂.LiveAt addr oE := LiveAt_SetStateObject
    (by rw [hoE, StateObject.eraseFields, address_Code, hlive.address])
    (by rw [hoE, StateObject.eraseFields, deleted_Code, hlive.2])
  -- the write reads the slot from the empty trie: zero, so it journals a zero
  have hcE : oE.cached key = none := by
    rw [hoE, StateObject.cached_eraseFields, StateObject.cached_Code, hcache]
  have hsnap₂ : s₂.snap = false := by simp [hs₂, hsnap]
  have hread : (oE.GetState db s₂.snap (s₂.snapDestructs oE.address) key).1 = Hash.zero := by
    rw [hsnap₂, StateObject.GetState_of_uncached _ hcE, StateObject.getTrie_of_none rfl]
    exact hempty
  set oG := (oE.GetState db s₂.snap (s₂.snapDestructs oE.address) key).2 with hoG
  have hoG_addr : oG.address = addr := by rw [hoG, address_GetState, hlive₂.address]
  have hoG_del : oG.deleted = false := by rw [hoG, deleted_GetState, hlive₂.2]
  set s₃ := (s₂.append (.storageChange oG.address key Hash.zero)).SetStateObject
    (oG.setState key w) with hs₃
  have hwrite : s₂.SetState db addr key w = s₃ := by
    unfold SetState withObject StateObject.SetState
    rw [GetOrNewStateObject_of_live hlive₂]
    dsimp only
    rw [← hoG, hread, if_neg (Ne.symm hw)]
  have hlive₃ : s₃.LiveAt addr (oG.setState key w) := LiveAt_SetStateObject hoG_addr hoG_del
  -- the revert: the write's entry first, then the erasure's
  have hrev : s₃.validRevisions = s.validRevisions ++ [revision.mk s.nextRevisionId s.journal.length] := by
    simp [hs₃, hs₂]
  have hdrop : s₃.journal.drop s.journal.length =
      [.eraseChange addr (obj.Code db).1 obj.data.CodeHash obj.data.Root,
        .storageChange oG.address key Hash.zero] := by
    simp [hs₃, hs₂]
  obtain ⟨u, hu, hobjs, -⟩ := @RevertToSnapshot_last db _ _ _ _ hrev fun x hx => s.ids_lt.2 x hx
  set oS := (oG.setState key w).setState key Hash.zero with hoS
  have hstorage : s₃.revertEntry db (.storageChange oG.address key Hash.zero) = s₃.SetStateObject oS := by
    rw [revertEntry, hoG_addr, modifyObject_of_live hlive₃]
  have hlive₄ : (s₃.SetStateObject oS).LiveAt addr oS := LiveAt_SetStateObject hoG_addr hoG_del
  have hlive₅ : u.LiveAt addr (oS.revertErase db obj.data.CodeHash (obj.Code db).1 obj.data.Root) := by
    refine LiveAt_of_stateObjects hobjs ?_
    rw [hdrop, revertEntries, List.foldr_cons, List.foldr_cons, List.foldr_nil, hstorage, revertEntry,
      modifyObject_of_live hlive₄]
    exact LiveAt_SetStateObject (by rw [StateObject.address_revertErase, hoS]; exact hoG_addr)
      (by rw [StateObject.deleted_revertErase, hoS]; exact hoG_del)
  -- the zero the write journaled is back in the dirty cache
  have hzero : (u.GetState db addr key).1 = Hash.zero :=
    GetState_of_live_cached hlive₅ (by rw [StateObject.cached_revertErase, hoS,
      StateObject.cached_setState])
  refine ⟨u, ?_, hzero, ?_⟩
  · rw [herase, hwrite]
    exact hu
  · rw [hzero]
    exact Ne.symm hv

/-- A state without a snapshot layer holding one account, whose storage root
`0x0101…01` holds `0x0101…01` in every slot while the empty root holds zeros:
after a snapshot, an erasure and a write, the revert leaves slot zero at zero. -/
theorem RevertToSnapshot_loses_erased_slot_one :
    let one : Hash := ⟨Vector.replicate 32 1⟩
    let db : Database :=
      ⟨fun root _ => if root = emptyRoot then Hash.zero else one, fun _ => [], fun _ => none,
        fun _ _ => Hash.zero⟩
    let obj := newObject Address.zero ⟨0, 0, 0, one, emptyCodeHash⟩
    let s := (New false).SetStateObject obj
    (s.snap = false ∧ s.LiveAt Address.zero obj ∧ obj.cached Hash.zero = none ∧
      db.OpenStorageTrie emptyRoot Hash.zero = Hash.zero ∧
      (s.GetState db Address.zero Hash.zero).1 ≠ Hash.zero ∧ one ≠ Hash.zero) ∧
    ∃ s₄, ((s.Snapshot.2.Erase db Address.zero).2.SetState db Address.zero Hash.zero one).RevertToSnapshot
        db s.Snapshot.1 = some s₄ ∧ (s₄.GetState db Address.zero Hash.zero).1 = Hash.zero ∧
        (s₄.GetState db Address.zero Hash.zero).1 ≠ (s.GetState db Address.zero Hash.zero).1 := by
  intro one db obj s
  have h : s.snap = false ∧ s.LiveAt Address.zero obj ∧ obj.cached Hash.zero = none ∧
      db.OpenStorageTrie emptyRoot Hash.zero = Hash.zero ∧
      (s.GetState db Address.zero Hash.zero).1 ≠ Hash.zero ∧ one ≠ Hash.zero :=
    ⟨rfl, LiveAt_SetStateObject rfl rfl, rfl, by decide, by decide, by decide⟩
  exact ⟨h, RevertToSnapshot_loses_erased_slot db s Address.zero obj Hash.zero one h.1 h.2.1 h.2.2.1
    h.2.2.2.1 h.2.2.2.2.1 h.2.2.2.2.2⟩

end StateDB

end state

end PureChain
