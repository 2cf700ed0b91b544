import PureChain.Core.State.Erase

/-!
# What `CreateAccount` keeps

`StateDB.CreateAccount` is what the EVM's `CREATE` does to the new contract's
address. Someone may have sent funds there before the contract existed; the
code's comment promises that they do not disappear, and it carries the old
object's balance over to the fresh one. This fork's accounts also have a lock
balance, and `CreateAccount` does not carry that over. After the call the
account has nonce zero, no code and no storage, and the balance it had. Its
lock balance is zero, whatever it was before (`CreateAccount_drops_lockBalance`).

`createObject` journals one entry, a creation when there was no account and a
reset when there was. Reverting it puts back the object found before the call,
or none, together with the destruct marks of the snapshot layer. What the
storage reads after the call depends on the database: the empty trie must be
empty, and the snapshot must hold no storage for an address it has no account
for. Both hold of a consistent database, and the theorem assumes them.

The lemmas give one spec for each function on the way: `getDeletedStateObject`,
`createObject`, `CreateAccount`, and the revert of the entry.
-/

namespace PureChain

namespace state

namespace StateDB

variable (db : Database)

/-! ### Finding the previous object -/

section Find

variable (s : StateDB) (addr : Address)

/-- What `getDeletedStateObject` writes: the object it returns, made live. -/
theorem stateObjects_getDeletedStateObject :
    (s.getDeletedStateObject db addr).2.stateObjects =
      Function.update s.stateObjects addr (s.getDeletedStateObject db addr).1 := by
  unfold getDeletedStateObject
  -- a live object is written back over itself; a loaded account is stored
  cases hobj : s.stateObjects addr with
  | some obj =>
    dsimp only
    rw [eq_comm, Function.update_eq_self_iff]
    exact hobj.symm
  | none =>
    cases db.accounts addr with
    | none =>
      dsimp only
      rw [eq_comm, Function.update_eq_self_iff]
      exact hobj.symm
    | some data => rfl

/-- `getDeletedStateObject` leaves the state as it is, or stores the account it
loaded. -/
theorem getDeletedStateObject_snd :
    (s.getDeletedStateObject db addr).2 = s ∨
      ∃ o, (s.getDeletedStateObject db addr).2 = s.SetStateObject o := by
  unfold getDeletedStateObject
  split
  · exact .inl rfl
  · split
    · exact .inl rfl
    · exact .inr ⟨_, rfl⟩

@[simp] theorem snap_getDeletedStateObject : (s.getDeletedStateObject db addr).2.snap = s.snap := by
  rcases getDeletedStateObject_snd db s addr with h | ⟨o, h⟩
  · rw [h]
  · rw [h, snap_SetStateObject]

@[simp] theorem snapDestructs_getDeletedStateObject :
    (s.getDeletedStateObject db addr).2.snapDestructs = s.snapDestructs := by
  rcases getDeletedStateObject_snd db s addr with h | ⟨o, h⟩
  · rw [h]
  · rw [h, snapDestructs_SetStateObject]

@[simp] theorem journal_getDeletedStateObject :
    (s.getDeletedStateObject db addr).2.journal = s.journal := by
  rcases getDeletedStateObject_snd db s addr with h | ⟨o, h⟩
  · rw [h]
  · rw [h, journal_SetStateObject]

@[simp] theorem validRevisions_getDeletedStateObject :
    (s.getDeletedStateObject db addr).2.validRevisions = s.validRevisions := by
  rcases getDeletedStateObject_snd db s addr with h | ⟨o, h⟩
  · rw [h]
  · rw [h, validRevisions_SetStateObject]

/-- The previous object: the one live, else the database's account, loaded. -/
theorem fst_getDeletedStateObject :
    (s.getDeletedStateObject db addr).1 =
      (s.stateObjects addr).or ((db.accounts addr).map (newObject addr)) := by
  unfold getDeletedStateObject
  cases s.stateObjects addr with
  | some obj => rfl
  | none => cases db.accounts addr <;> rfl

/-- The previous object is the address's. -/
theorem address_of_getDeletedStateObject {p : StateObject}
    (h : (s.getDeletedStateObject db addr).1 = some p) : p.address = addr := by
  unfold getDeletedStateObject at h
  split at h
  · rename_i obj hobj
    rw [← Option.some.inj h]
    exact s.objects_address addr obj hobj
  · split at h
    · cases h
    · cases h
      rfl

/-- No previous object: none live, and no account in the database. -/
theorem getDeletedStateObject_eq_none (h : (s.getDeletedStateObject db addr).1 = none) :
    s.stateObjects addr = none ∧ db.accounts addr = none := by
  unfold getDeletedStateObject at h
  split at h
  · cases h
  · rename_i hobj
    split at h
    · rename_i hacc
      exact ⟨hobj, hacc⟩
    · cases h

/-- `getStateObject` is `getDeletedStateObject` without a deleted object. -/
theorem getStateObject_fst :
    (s.getStateObject db addr).1 = (s.getDeletedStateObject db addr).1.filter (!·.deleted) := by
  unfold getStateObject
  rcases s.getDeletedStateObject db addr with ⟨_ | obj, s'⟩
  · rfl
  · cases hd : obj.deleted <;> simp [Option.filter, hd]

/-- A read gives what it reads of the object `getStateObject` finds, or the default. -/
theorem readObject_fst {α : Type} (d : α) (read : StateObject → α × StateObject) :
    (s.readObject db addr d read).1 = ((s.getStateObject db addr).1.map (read · |>.1)).getD d := by
  unfold readObject
  rcases s.getStateObject db addr with ⟨_ | obj, s'⟩ <;> rfl

end Find

/-! ### Creating the object -/

/-- **What `createObject` does**: the fresh object, with no nonce, balance, code
or storage, replaces the previous one; the previous one comes back unless it was
deleted; a previous account not yet destructed in the block is marked so for
the snapshot layer; and one entry is journaled, a creation or a reset. -/
theorem createObject_spec (s : StateDB) (addr : Address) :
    let prev := (s.getDeletedStateObject db addr).1
    let t := (s.createObject db addr).2.2
    (s.createObject db addr).1 = (newObject addr Account.empty).setNonce 0 ∧
      (s.createObject db addr).2.1 = prev.filter (!·.deleted) ∧
      t.stateObjects =
        Function.update s.stateObjects addr (some ((newObject addr Account.empty).setNonce 0)) ∧
      t.snap = s.snap ∧
      t.snapDestructs =
        (if s.snap = true ∧ prev.isSome then Function.update s.snapDestructs addr true
         else s.snapDestructs) ∧
      t.journal = s.journal ++ [match prev with
        | none => .createObjectChange addr
        | some p => .resetObjectChange addr p (s.snap && s.snapDestructs addr)] ∧
      t.validRevisions = s.validRevisions := by
  intro prev t
  have hso := stateObjects_getDeletedStateObject db s addr
  have hsnap := snap_getDeletedStateObject db s addr
  have hsd := snapDestructs_getDeletedStateObject db s addr
  have hj := journal_getDeletedStateObject db s addr
  have hv := validRevisions_getDeletedStateObject db s addr
  unfold t createObject
  unfold prev at *
  generalize s.getDeletedStateObject db addr = r at hso hsnap hsd hj hv
  obtain ⟨p, s₁⟩ := r
  dsimp only at hso hsnap hsd hj hv ⊢
  have haddr : ((newObject addr Account.empty).setNonce 0).address = addr := rfl
  refine ⟨rfl, rfl, ?_⟩
  -- a creation, or a reset marked for the snapshot layer unless already destructed
  cases p with
  | none => simp [hso, hsnap, hsd, hj, hv, haddr]
  | some p =>
    cases hsn : s.snap
    · simp [hso, hsnap, hsd, hj, hv, haddr, hsn]
    · cases hd : s.snapDestructs addr
      · simp [hso, hsnap, hsd, hj, hv, haddr, hsn, hd]
      · simp [hso, hsnap, hsd, hj, hv, haddr, hsn, hd]

/-- **What `CreateAccount` does**: the state `createObject` leaves, with the
fresh object given the balance of the previous one, when that one was not
deleted. -/
theorem CreateAccount_spec (s : StateDB) (addr : Address) :
    let c := s.createObject db addr
    let t := s.CreateAccount db addr
    t.stateObjects = Function.update c.2.2.stateObjects addr
        (some (c.1.setBalance ((c.2.1.map (·.data.Balance)).getD 0))) ∧
      t.snap = c.2.2.snap ∧ t.snapDestructs = c.2.2.snapDestructs ∧ t.journal = c.2.2.journal ∧
      t.validRevisions = c.2.2.validRevisions := by
  intro c t
  obtain ⟨hnew, -, hso, -⟩ := createObject_spec db s addr
  unfold t CreateAccount
  unfold c
  generalize s.createObject db addr = r at hnew hso
  obtain ⟨newObj, prev, s'⟩ := r
  dsimp only at hnew hso
  subst hnew
  cases prev with
  | some p => exact ⟨rfl, rfl, rfl, rfl, rfl⟩
  | none =>
    -- the fresh object already holds the balance zero, and is already in place
    refine ⟨?_, rfl, rfl, rfl, rfl⟩
    dsimp only
    rw [hso, Function.update_idem]
    rfl

/-! ### Reads and the revert after `CreateAccount` -/

/-- After `CreateAccount` the fresh object is live, with the balance of the
account `getStateObject` found, or none. -/
theorem LiveAt_CreateAccount (s : StateDB) (addr : Address) :
    (s.CreateAccount db addr).LiveAt addr (((newObject addr Account.empty).setNonce 0).setBalance
      (((s.getStateObject db addr).1.map (·.data.Balance)).getD 0)) := by
  obtain ⟨hso, -⟩ := CreateAccount_spec db s addr
  obtain ⟨hnew, hprev, -⟩ := createObject_spec db s addr
  refine ⟨?_, rfl⟩
  rw [hso, Function.update_self, hnew, hprev, getStateObject_fst]

/-- A slot of the fresh object: it caches nothing and has no trie open, under
the empty root. -/
theorem GetState_fresh (addr : Address) (bal : ℤ) (snap destructed : Bool) (key : Hash) :
    ((((newObject addr Account.empty).setNonce 0).setBalance bal).GetState db snap destructed
        key).1 =
      if snap = true ∧ destructed = true then Hash.zero
      else if snap = true then db.SnapStorage addr key else db.OpenStorageTrie emptyRoot key := by
  cases snap <;> cases destructed <;> rfl

/-- A read of a live object is the object's. -/
theorem readObject_fst_of_live {s : StateDB} {addr : Address} {o : StateObject} {α : Type} (d : α)
    (read : StateObject → α × StateObject) (h : s.LiveAt addr o) :
    (s.readObject db addr d read).1 = (read o).1 := by
  rw [readObject_fst, getStateObject_of_live h]
  rfl

/-- **Reverting `CreateAccount`**: its one journal entry, undone, puts the previous
object back under the address, or none, and the snapshot marks as they were. -/
theorem revertEntry_CreateAccount (s : StateDB) (addr : Address) :
    ∃ e, (s.CreateAccount db addr).journal = s.journal ++ [e] ∧
      ((s.CreateAccount db addr).revertEntry db e).stateObjects =
        Function.update s.stateObjects addr (s.getDeletedStateObject db addr).1 ∧
      ((s.CreateAccount db addr).revertEntry db e).snapDestructs = s.snapDestructs := by
  obtain ⟨hso, hsnap, hsd, hj, -⟩ := CreateAccount_spec db s addr
  obtain ⟨-, -, hso', hsnap', hsd', hj', -⟩ := createObject_spec db s addr
  have haddr : ∀ p, (s.getDeletedStateObject db addr).1 = some p → p.address = addr :=
    fun _ h => address_of_getDeletedStateObject db s addr h
  generalize s.CreateAccount db addr = t at hso hsnap hsd hj
  generalize (s.getDeletedStateObject db addr).1 = prev at hso' hsd' hj' haddr
  rw [hso'] at hso
  rw [hsd'] at hsd
  rw [hsnap'] at hsnap
  rw [hj, hj']
  refine ⟨_, rfl, ?_⟩
  cases prev with
  | none =>
    -- a creation: the object deleted again
    refine ⟨?_, ?_⟩
    · show Function.update t.stateObjects addr none = _
      rw [hso, Function.update_idem, Function.update_idem]
    · show t.snapDestructs = _
      simp [hsd]
  | some p =>
    -- a reset: the previous object written back, the mark taken off if it was new
    have hp : p.address = addr := haddr p rfl
    cases hsn : s.snap <;> cases hd : s.snapDestructs addr <;>
      simp [revertEntry, hso, hsd, hsnap, hp, hsn, hd, Function.update_idem,
        Function.update_eq_self_iff]

/-- **Storage after `CreateAccount` is empty**, over a database whose empty trie
is empty and whose snapshot holds no storage for an address without an account. -/
theorem GetState_CreateAccount (s : StateDB) (addr : Address)
    (hroot : ∀ key, db.OpenStorageTrie emptyRoot key = Hash.zero)
    (hsnap : db.accounts addr = none → ∀ key, db.SnapStorage addr key = Hash.zero) (key : Hash) :
    ((s.CreateAccount db addr).GetState db addr key).1 = Hash.zero := by
  rw [GetState, readObject_fst_of_live db _ _ (LiveAt_CreateAccount db s addr), GetState_fresh]
  obtain ⟨-, hsnap', hsd', -⟩ := CreateAccount_spec db s addr
  obtain ⟨-, -, -, hsnap'', hsd'', -⟩ := createObject_spec db s addr
  -- zero for a destructed account; else the snapshot's storage of an address
  -- that had no account, since one that had is marked; or the empty trie
  split_ifs with hd hsn
  · rfl
  · have hd' : (s.CreateAccount db addr).snapDestructs addr = false := by simpa [hsn] using hd
    rw [hsd', hsd'', hsnap', hsnap''] at *
    cases hp : (s.getDeletedStateObject db addr).1 with
    | some p => simp [hsn, hp] at hd'
    | none => exact hsnap (getDeletedStateObject_eq_none db s addr hp).2 key
  · exact hroot key

/-- **Reverting to a snapshot taken just before `CreateAccount`** puts the object
`getDeletedStateObject` found back under the address, or none, and the snapshot
marks as they were. -/
theorem RevertToSnapshot_CreateAccount (s : StateDB) (addr : Address) :
    ∃ u, (s.Snapshot.2.CreateAccount db addr).RevertToSnapshot db s.Snapshot.1 = some u ∧
      u.stateObjects = Function.update s.stateObjects addr (s.getDeletedStateObject db addr).1 ∧
      u.snapDestructs = s.snapDestructs := by
  -- the one entry after the snapshot is `CreateAccount`'s
  obtain ⟨e, hj, hso, hsd⟩ := revertEntry_CreateAccount db s.Snapshot.2 addr
  obtain ⟨-, -, -, -, hv⟩ := CreateAccount_spec db s.Snapshot.2 addr
  obtain ⟨-, -, -, -, -, -, hv'⟩ := createObject_spec db s.Snapshot.2 addr
  have hrev : (s.Snapshot.2.CreateAccount db addr).validRevisions =
      s.validRevisions ++ [revision.mk s.nextRevisionId s.journal.length] := by
    rw [hv, hv', validRevisions_Snapshot]
  obtain ⟨u, hu, hobjs, hmarks⟩ :=
    @RevertToSnapshot_last db _ _ _ _ hrev fun x hx => s.ids_lt.2 x hx
  have hdrop : (s.Snapshot.2.CreateAccount db addr).journal.drop s.journal.length = [e] := by
    rw [hj, journal_Snapshot, List.drop_left]
  refine ⟨u, hu, ?_, ?_⟩
  · rw [hobjs, hdrop, revertEntries, List.foldr_cons, List.foldr_nil, hso,
      fst_getDeletedStateObject, fst_getDeletedStateObject, stateObjects_Snapshot]
  · rw [hmarks, hdrop, revertEntries, List.foldr_cons, List.foldr_nil, hsd]
    rfl

/-- **`CreateAccount` keeps the balance but not the lock balance.** Over a
database whose empty trie is empty and whose snapshot holds no storage for an
address without an account, after `CreateAccount(addr)` the account has nonce
zero, no code, the empty code hash and no storage, and the balance
`GetBalance` read before. The lock balance reads zero: equal to the one before
only when that was zero. Reverting to a snapshot taken just before puts the
previous object back under the address, and the snapshot marks as they were. -/
theorem CreateAccount_drops_lockBalance (db : Database) (s : StateDB) (addr : Address)
    (hroot : ∀ key, db.OpenStorageTrie emptyRoot key = Hash.zero)
    (hsnap : db.accounts addr = none → ∀ key, db.SnapStorage addr key = Hash.zero) :
    let t := s.CreateAccount db addr
    (t.GetNonce db addr).1 = 0 ∧ (t.GetCode db addr).1 = none ∧
      (t.GetCodeHash db addr).1 = emptyCodeHash ∧ (∀ key, (t.GetState db addr key).1 = Hash.zero) ∧
      (t.GetBalance db addr).1 = (s.GetBalance db addr).1 ∧ (t.GetLockBalance db addr).1 = 0 ∧
      ((t.GetLockBalance db addr).1 = (s.GetLockBalance db addr).1 ↔
        (s.GetLockBalance db addr).1 = 0) ∧
      ∃ u, (s.Snapshot.2.CreateAccount db addr).RevertToSnapshot db s.Snapshot.1 = some u ∧
        u.stateObjects = Function.update s.stateObjects addr (s.getDeletedStateObject db addr).1 ∧
        u.snapDestructs = s.snapDestructs := by
  intro t
  -- every read of the account is a read of the fresh object
  have hlive := LiveAt_CreateAccount db s addr
  have hlock : (t.GetLockBalance db addr).1 = 0 := readObject_fst_of_live db _ _ hlive
  have hbal : (t.GetBalance db addr).1 = (s.GetBalance db addr).1 := by
    rw [GetBalance, readObject_fst_of_live db _ _ hlive, GetBalance, readObject_fst]
    rfl
  refine ⟨readObject_fst_of_live db _ _ hlive, readObject_fst_of_live db _ _ hlive,
    readObject_fst_of_live db _ _ hlive, GetState_CreateAccount db s addr hroot hsnap, hbal, hlock,
    ?_, RevertToSnapshot_CreateAccount db s addr⟩
  rw [hlock, eq_comm]

/-- A database holding the zero address with balance five, locked seven: after
`CreateAccount` the balance is five and the lock balance zero. -/
theorem CreateAccount_drops_lockBalance_seven :
    let db : Database := ⟨fun _ _ => Hash.zero, fun _ => [],
      fun _ => some ⟨0, 5, 7, Hash.zero, emptyCodeHash⟩, fun _ _ => Hash.zero⟩
    (((New false).GetLockBalance db Address.zero).1 = 7 ∧
      (((New false).CreateAccount db Address.zero).GetLockBalance db Address.zero).1 = 0) ∧
      (((New false).CreateAccount db Address.zero).GetBalance db Address.zero).1 =
        ((New false).GetBalance db Address.zero).1 := by
  intro db
  have h := CreateAccount_drops_lockBalance db (New false) Address.zero (fun _ => rfl)
    (fun hacc => absurd hacc (by simp [db]))
  exact ⟨⟨rfl, h.2.2.2.2.2.1⟩, h.2.2.2.2.1⟩

end StateDB

end state

end PureChain
