import PureChain.Core.State.StateObject
import PureChain.Core.Types.TxCodec

/-!
# Package `snapshot`: the slim account format

The account trie stores an account as the RLP of `state.Account`: the nonce, the
balance and this fork's lock balance, the storage root as a `[32]byte` and the
code hash as a byte slice. The snapshot stores it slim (`SlimAccountRLP`): the
same fields in a `snapshot.Account`, whose root is a byte slice, with the empty
root and the empty code hash left out as empty slices. `FullAccount` reads a
slim account back and puts them in again, and `FullAccountRLP` writes the result.

`StateDB` reads accounts from the snapshot when it has one
(`getDeletedStateObject`, `preloadStateObject`): a layer's `Account` decodes the
slim RLP, and the state turns the slice root into a hash with `BytesToHash` and
puts back the empty code hash and, for the zero root, the empty root
(`state.snapshotAccountData`).

For every account whose balances are not negative, the full account read from
the slim encoding is the account itself, and its encoding is the trie's
(`FullAccount_SlimAccountRLP`): a 32-byte root written as a slice and as an array
is the same string, and only what equals the value put back is left out. The
state reads back from the snapshot the data `newObject` makes of the account the
trie stores. The balances are bounded only by what a Go slice can hold.
-/

namespace PureChain

open rlp Rlp

namespace state

/-- `state.Account` as Go declares it and the account trie stores it: the
balances are `*big.Int` pointers and the code hash a byte slice. `Account` is
this data once `newObject` has completed it. -/
structure TrieAccount where
  Nonce : UInt64
  Balance : Option ℤ
  LockBalance : Option ℤ
  Root : Hash
  CodeHash : List UInt8
  deriving DecidableEq

/-- The codec of `state.Account`: its fields in order, the root a `[32]byte`.
The anonymous struct `generateAccounts` decodes the trie's accounts into has the
same fields. -/
def TrieAccount.codec : Codec TrieAccount :=
  Codec.struct (.cons .uint64 (.cons .bigInt (.cons .bigInt (.cons types.hashCodec (.cons .bytes .nil)))))
    (fun ⟨n, b, l, r, c, _⟩ => ⟨n, b, l, r, c⟩)
    (fun a => (a.Nonce, a.Balance, a.LockBalance, a.Root, a.CodeHash, ()))

/-- The data of an account as Go holds it. -/
def Account.toTrie (a : Account) : TrieAccount :=
  ⟨a.Nonce, some a.Balance, some a.LockBalance, a.Root, a.CodeHash.bytes.toList⟩

/-- `StateObject.EncodeRLP`: `rlp.Encode` of the object's account data. -/
def StateObject.EncodeRLP (s : StateObject) : Except RlpError (List UInt8) :=
  TrieAccount.codec.EncodeToBytes s.data.toTrie

end state

namespace snapshot

/-- `emptyRoot` of package `snapshot`: the same constant as the state's. -/
def emptyRoot : Hash := state.emptyRoot

/-- `emptyCode`, `crypto.Keccak256Hash(nil)`: the state's empty code hash. -/
def emptyCode : Hash := state.emptyCodeHash

/-- `snapshot.Account`: `state.Account` with the root a byte slice, so that the
slim format can leave the empty root and code hash out. -/
structure Account where
  Nonce : UInt64
  Balance : Option ℤ
  LockBalance : Option ℤ
  Root : List UInt8
  CodeHash : List UInt8
  deriving DecidableEq

/-- The codec of `snapshot.Account`: its fields in order, the root a byte slice. -/
def Account.codec : Codec Account :=
  Codec.struct (.cons .uint64 (.cons .bigInt (.cons .bigInt (.cons .bytes (.cons .bytes .nil)))))
    (fun ⟨n, b, l, r, c, _⟩ => ⟨n, b, l, r, c⟩)
    (fun a => (a.Nonce, a.Balance, a.LockBalance, a.Root, a.CodeHash, ()))

/-- `SlimAccount`: the account with the empty root and the empty code hash left
out as nil slices. -/
def SlimAccount (nonce : UInt64) (balance lockBalance : Option ℤ) (root : Hash)
    (codehash : List UInt8) : Account :=
  { Nonce := nonce
    Balance := balance
    LockBalance := lockBalance
    Root := if root ≠ emptyRoot then root.bytes.toList else []
    CodeHash := if codehash ≠ emptyCode.bytes.toList then codehash else [] }

/-- `SlimAccountRLP`: the slim account encoded; the encoder's error is the
function's panic. -/
def SlimAccountRLP (nonce : UInt64) (balance lockBalance : Option ℤ) (root : Hash)
    (codehash : List UInt8) : Except RlpError (List UInt8) :=
  Account.codec.EncodeToBytes (SlimAccount nonce balance lockBalance root codehash)

/-- `FullAccount`: a slim account decoded, with an empty root or code hash made
the empty one. -/
def FullAccount (data : List UInt8) : Except RlpError Account := do
  let account ← Account.codec.DecodeBytes data
  let account :=
    if account.Root.length = 0 then { account with Root := emptyRoot.bytes.toList } else account
  let account :=
    if account.CodeHash.length = 0 then { account with CodeHash := emptyCode.bytes.toList }
    else account
  pure account

/-- `FullAccountRLP`: the full account of a slim encoding, encoded. -/
def FullAccountRLP (data : List UInt8) : Except RlpError (List UInt8) := do
  let account ← FullAccount data
  Account.codec.EncodeToBytes account

/-- A layer's `Account(hash)`, the same code on a disk layer and a diff layer,
over the slim RLP `AccountRLP(hash)` gives: no account for an empty blob, else
the blob decoded; a blob that does not decode is the layer's panic. -/
def layerAccount (data : List UInt8) : Except RlpError (Option Account) :=
  if data.length = 0 then pure none else some <$> Account.codec.DecodeBytes data

end snapshot

namespace state

/-- The data `getDeletedStateObject` and `preloadStateObject` hand to `newObject`
for an account read from the snapshot: the root through `BytesToHash`, with the
empty code hash for an empty one and the empty root for the zero one. -/
def snapshotAccountData (acc : snapshot.Account) : TrieAccount :=
  let data : TrieAccount :=
    ⟨acc.Nonce, acc.Balance, acc.LockBalance, Hash.BytesToHash acc.Root, acc.CodeHash⟩
  let data :=
    if data.CodeHash.length = 0 then { data with CodeHash := emptyCodeHash.bytes.toList } else data
  if data.Root = Hash.zero then { data with Root := emptyRoot } else data

end state

/-! ### The codecs -/

section Codecs

theorem state.TrieAccount.codec_spec : state.TrieAccount.codec.Spec :=
  Codec.struct_spec
    (Fields.cons_spec Codec.uint64_spec (Fields.cons_spec Codec.bigInt_spec
      (Fields.cons_spec Codec.bigInt_spec (Fields.cons_spec types.hashCodec_spec
        (Fields.cons_spec Codec.bytes_spec Fields.nil_spec)))))
    fun _ => rfl

theorem snapshot.Account.codec_spec : snapshot.Account.codec.Spec :=
  Codec.struct_spec
    (Fields.cons_spec Codec.uint64_spec (Fields.cons_spec Codec.bigInt_spec
      (Fields.cons_spec Codec.bigInt_spec (Fields.cons_spec Codec.bytes_spec
        (Fields.cons_spec Codec.bytes_spec Fields.nil_spec)))))
    fun _ => rfl

/-- The items an account is written as: a root written as a `[32]byte` and as a
byte slice is the same string. -/
def accountItems (n : UInt64) (b l : ℤ) (root codehash : List UInt8) : Item :=
  .list [.nat n.toNat, .nat b.toNat, .nat l.toNat, .str root, .str codehash]

variable {n : UInt64} {b l : ℤ}

theorem state.TrieAccount.codec_write (hb : 0 ≤ b) (hl : 0 ≤ l) (h : Hash) (c : List UInt8) :
    state.TrieAccount.codec.write ⟨n, some b, some l, h, c⟩ = .ok (accountItems n b l h.bytes.toList c) := by
  simp [state.TrieAccount.codec, Codec.struct, Fields.cons, Fields.nil, Codec.uint64, Codec.bigInt,
    Codec.bytes, types.hashCodec, Codec.map, Codec.byteArray, accountItems, Int.not_lt.mpr hb,
    Int.not_lt.mpr hl]

theorem snapshot.Account.codec_write (hb : 0 ≤ b) (hl : 0 ≤ l) (r c : List UInt8) :
    snapshot.Account.codec.write ⟨n, some b, some l, r, c⟩ = .ok (accountItems n b l r c) := by
  simp [snapshot.Account.codec, Codec.struct, Fields.cons, Fields.nil, Codec.uint64, Codec.bigInt,
    Codec.bytes, accountItems, Int.not_lt.mpr hb, Int.not_lt.mpr hl]

/-- A decoder reads a balance back as the pointer it was. -/
theorem snapshot.Account.codec_read (r c : List UInt8) :
    snapshot.Account.codec.read ⟨n, some b, some l, r, c⟩ = ⟨n, some b, some l, r, c⟩ := rfl

/-- An account whose balances fit a Go slice, and whose root and code hash are at
most hashes, is encoded in fewer than `2 ^ 64` bytes. -/
theorem length_accountItems_lt {r c : List UInt8} (hr : r.length ≤ 32)
    (hc : c.length ≤ 32) (hfit : (beBytes b.toNat).length + (beBytes l.toNat).length < 2 ^ 63) :
    (accountItems n b l r c).encode.length < 2 ^ 64 := by
  have hn := length_encode_nat_le (k := 8) (by have := n.toNat_lt; omega : n.toNat < 256 ^ 8)
    (by omega)
  have hbn := @length_encode_str_le (beBytes b.toNat) (by omega)
  have hln := @length_encode_str_le (beBytes l.toNat) (by omega)
  have hrn := @length_encode_str_le r (by omega)
  have hcn := @length_encode_str_le c (by omega)
  have hpay : (Item.encodeAll [.nat n.toNat, .nat b.toNat, .nat l.toNat, .str r, .str c]).length <
      2 ^ 64 - 9 := by
    simp only [encodeAll_cons, encodeAll_nil, List.append_nil, List.length_append]
    simp only [Item.nat] at hn hbn hln ⊢
    omega
  have := length_encode_list_le (by omega : (Item.encodeAll
    [.nat n.toNat, .nat b.toNat, .nat l.toNat, .str r, .str c]).length < 2 ^ 64)
  rw [accountItems]
  omega

end Codecs

/-! ### The round trip -/

section RoundTrip

open snapshot

variable {n : UInt64} {b l : ℤ}

/-- The root left out is the one `FullAccount` puts back. -/
theorem SlimAccount_Root_refill (balance lockBalance : Option ℤ) (root : Hash) (codehash : List UInt8) :
    (if (SlimAccount n balance lockBalance root codehash).Root.length = 0 then emptyRoot.bytes.toList
      else (SlimAccount n balance lockBalance root codehash).Root) = root.bytes.toList := by
  by_cases h : root = emptyRoot <;> simp [SlimAccount, h]

/-- The code hash left out is the one `FullAccount` puts back. -/
theorem SlimAccount_CodeHash_refill (balance lockBalance : Option ℤ) (root c : Hash) :
    (if (SlimAccount n balance lockBalance root c.bytes.toList).CodeHash.length = 0 then
      emptyCode.bytes.toList else (SlimAccount n balance lockBalance root c.bytes.toList).CodeHash) =
      c.bytes.toList := by
  by_cases h : c.bytes.toList = emptyCode.bytes.toList <;> simp [SlimAccount, h]

/-- **The slim encoding of an account is read back as the slim account.** -/
theorem SlimAccountRLP_spec (hb : 0 ≤ b) (hl : 0 ≤ l) (h c : Hash)
    (hfit : (beBytes b.toNat).length + (beBytes l.toNat).length < 2 ^ 63) :
    ∃ data, SlimAccountRLP n (some b) (some l) h c.bytes.toList = .ok data ∧ data.length ≠ 0 ∧
      Account.codec.DecodeBytes data = .ok (SlimAccount n (some b) (some l) h c.bytes.toList) := by
  set slim := SlimAccount n (some b) (some l) h c.bytes.toList
  have hw : Account.codec.write slim = .ok (accountItems n b l slim.Root slim.CodeHash) :=
    Account.codec_write hb hl _ _
  -- the root and the code hash are left as they are, or left out
  have hr : slim.Root.length ≤ 32 := by
    by_cases hh : h = emptyRoot <;> simp [slim, SlimAccount, hh]
  have hc : slim.CodeHash.length ≤ 32 := by
    by_cases hh : c.bytes.toList = emptyCode.bytes.toList <;> simp [slim, SlimAccount, hh]
  have h64 := length_accountItems_lt (n := n) hr hc hfit
  refine ⟨(accountItems n b l slim.Root slim.CodeHash).encode, ?_, ?_, ?_⟩
  · simp [SlimAccountRLP, Codec.EncodeToBytes, hw, EncodeToBytes_eq_encode, slim]
  · simpa using encode_ne_nil _
  · exact Codec.DecodeBytes_encode Account.codec_spec hw h64

/-- `FullAccount` fills the empty root and code hash of the decoded account. -/
theorem FullAccount_eq_map (data : List UInt8) :
    FullAccount data = (fun a : Account => { a with
      Root := if a.Root.length = 0 then emptyRoot.bytes.toList else a.Root
      CodeHash := if a.CodeHash.length = 0 then emptyCode.bytes.toList else a.CodeHash }) <$>
      Account.codec.DecodeBytes data := by
  rw [FullAccount]
  rcases Account.codec.DecodeBytes data with err | ⟨n, b, l, r, c⟩
  · rfl
  · -- the root is filled first, and the code hash of the result then
    by_cases hr : r = [] <;> by_cases hc : c = [] <;> simp [hr, hc]

/-- `FullAccount` puts back what `SlimAccount` left out. -/
theorem FullAccount_eq (hb : 0 ≤ b) (hl : 0 ≤ l) (h c : Hash)
    (hfit : (beBytes b.toNat).length + (beBytes l.toNat).length < 2 ^ 63) :
    (SlimAccountRLP n (some b) (some l) h c.bytes.toList >>= FullAccount) =
      .ok ⟨n, some b, some l, h.bytes.toList, c.bytes.toList⟩ := by
  obtain ⟨data, hs, -, hd⟩ := SlimAccountRLP_spec hb hl h c hfit
  rw [hs, Except.bind_ok, FullAccount_eq_map, hd]
  show Except.ok _ = _
  beta_reduce
  rw [SlimAccount_Root_refill, SlimAccount_CodeHash_refill]
  rfl

theorem emptyRoot_ne_zero : state.emptyRoot ≠ Hash.zero := by decide

/-- What the state builds from a snapshot account, field by field. -/
theorem snapshotAccountData_eq (acc : snapshot.Account) :
    state.snapshotAccountData acc =
      ⟨acc.Nonce, acc.Balance, acc.LockBalance,
        if Hash.BytesToHash acc.Root = Hash.zero then state.emptyRoot else Hash.BytesToHash acc.Root,
        if acc.CodeHash.length = 0 then state.emptyCodeHash.bytes.toList else acc.CodeHash⟩ := by
  rw [state.snapshotAccountData]
  by_cases hc : acc.CodeHash.length = 0 <;> simp [hc] <;> split_ifs <;> rfl

/-- The state makes of the slim account the data `newObject` makes of the
account. -/
theorem snapshotAccountData_SlimAccount (addr : Address) (h c : Hash) :
    state.snapshotAccountData (SlimAccount n (some b) (some l) h c.bytes.toList) =
      (state.newObject addr ⟨n, b, l, h, c⟩).data.toTrie := by
  -- the empty root comes back through the zero hash, and a root kept through its bytes
  have hroot : Hash.BytesToHash (SlimAccount n (some b) (some l) h c.bytes.toList).Root =
      if h = emptyRoot then Hash.zero else h := by
    by_cases hh : h = emptyRoot <;> simp [SlimAccount, hh, Hash.BytesToHash_nil, Hash.BytesToHash_bytes]
  -- the state puts back its own empty code hash, the constant `FullAccount` uses
  have hcode : (if (SlimAccount n (some b) (some l) h c.bytes.toList).CodeHash.length = 0 then
      state.emptyCodeHash.bytes.toList else (SlimAccount n (some b) (some l) h c.bytes.toList).CodeHash) =
      c.bytes.toList :=
    SlimAccount_CodeHash_refill _ _ _ _
  rw [snapshotAccountData_eq, hroot, hcode]
  by_cases hh : h = emptyRoot
  · simp [hh, emptyRoot, emptyRoot_ne_zero, state.newObject, state.Account.toTrie, SlimAccount]
  · simp [hh, state.newObject, state.Account.toTrie, SlimAccount]

/-- **The snapshot's slim account is the trie's account.** For every account
whose balances are not negative and fit a Go slice: the full encoding of its slim
encoding is the trie's encoding of the account; the full account read from it is
the account, with the root as a byte slice; the state reads from it the data
`newObject` makes of the account; and the trie's encoding is read back as the
account. -/
theorem FullAccount_SlimAccountRLP (addr : Address) (n : UInt64) (b l : ℤ) (h c : Hash)
    (hb : 0 ≤ b) (hl : 0 ≤ l)
    (hfit : (beBytes b.toNat).length + (beBytes l.toNat).length < 2 ^ 63) :
    (∃ enc, state.TrieAccount.codec.EncodeToBytes (state.Account.toTrie ⟨n, b, l, h, c⟩) = .ok enc ∧
      (SlimAccountRLP n (some b) (some l) h c.bytes.toList >>= FullAccountRLP) = .ok enc ∧
      state.TrieAccount.codec.DecodeBytes enc = .ok (state.Account.toTrie ⟨n, b, l, h, c⟩)) ∧
    (SlimAccountRLP n (some b) (some l) h c.bytes.toList >>= FullAccount) =
      .ok ⟨n, some b, some l, h.bytes.toList, c.bytes.toList⟩ ∧
    (Option.map state.snapshotAccountData <$>
      (SlimAccountRLP n (some b) (some l) h c.bytes.toList >>= layerAccount)) =
      .ok (some (state.newObject addr ⟨n, b, l, h, c⟩).data.toTrie) := by
  obtain ⟨data, hs, hne, hd⟩ := SlimAccountRLP_spec (n := n) hb hl h c hfit
  have hfull := FullAccount_eq (n := n) hb hl h c hfit
  -- the trie writes the items the full account is written as
  have htw := state.TrieAccount.codec_write (n := n) hb hl h c.bytes.toList
  have h64 := length_accountItems_lt (n := n) (r := h.bytes.toList) (c := c.bytes.toList)
    (by simp) (by simp) hfit
  refine ⟨⟨(accountItems n b l h.bytes.toList c.bytes.toList).encode, ?_, ?_, ?_⟩, hfull, ?_⟩
  · simp [Codec.EncodeToBytes, state.Account.toTrie, htw, EncodeToBytes_eq_encode]
  · rw [hs, Except.bind_ok] at hfull
    rw [hs, Except.bind_ok, FullAccountRLP, hfull, Except.bind_ok]
    simp [Codec.EncodeToBytes, Account.codec_write hb hl, EncodeToBytes_eq_encode]
  · exact Codec.DecodeBytes_encode state.TrieAccount.codec_spec htw h64
  · rw [hs, Except.bind_ok, layerAccount, if_neg hne, hd]
    simp [snapshotAccountData_SlimAccount addr h c]

/-- An account with a balance and nothing else: its empty root and empty code hash
are both left out of the slim encoding. -/
theorem FullAccount_SlimAccountRLP_fresh :
    ((0 : ℤ) ≤ 5 ∧ (0 : ℤ) ≤ 0 ∧
      (beBytes (5 : ℤ).toNat).length + (beBytes (0 : ℤ).toNat).length < 2 ^ 63) ∧
    (∃ enc, state.TrieAccount.codec.EncodeToBytes
        (state.Account.toTrie ⟨0, 5, 0, state.emptyRoot, state.emptyCodeHash⟩) = .ok enc ∧
      (SlimAccountRLP 0 (some 5) (some 0) state.emptyRoot state.emptyCodeHash.bytes.toList >>=
        FullAccountRLP) = .ok enc ∧
      state.TrieAccount.codec.DecodeBytes enc =
        .ok (state.Account.toTrie ⟨0, 5, 0, state.emptyRoot, state.emptyCodeHash⟩)) ∧
    (SlimAccountRLP 0 (some 5) (some 0) state.emptyRoot state.emptyCodeHash.bytes.toList >>=
      FullAccount) =
      .ok ⟨0, some 5, some 0, state.emptyRoot.bytes.toList, state.emptyCodeHash.bytes.toList⟩ ∧
    (Option.map state.snapshotAccountData <$>
      (SlimAccountRLP 0 (some 5) (some 0) state.emptyRoot state.emptyCodeHash.bytes.toList >>=
        layerAccount)) =
      .ok (some (state.newObject Address.zero ⟨0, 5, 0, state.emptyRoot, state.emptyCodeHash⟩).data.toTrie) :=
  ⟨⟨by decide, Int.le_refl 0, by simp [beBytes_of_lt_256]⟩,
    FullAccount_SlimAccountRLP Address.zero 0 5 0 state.emptyRoot state.emptyCodeHash (by decide)
      (Int.le_refl 0) (by simp [beBytes_of_lt_256])⟩

end RoundTrip

end PureChain
