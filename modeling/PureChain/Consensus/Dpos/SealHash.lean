import PureChain.Consensus.Dpos.Snapshot

/-!
# What a Dpos validator signs

A validator seals a header by signing `SealHash(header, chainId)`, the Keccak-256
of `encodeSigHeader`: the RLP of a hand-written list of the chain id and of
fifteen header fields, with the 65-byte signature cut off the extra-data.
`ecrecover` reads the signature back off the extra-data and recovers the signer
from that hash. The doc comment of `DposRLP` promises that the list is "the
entire header apart from the 65 byte signature".

It is not. The header of this fork has five fields more than go-ethereum's
(`Provider`, `TeamAddress`, `ValidatorRate`, `TeamRate`, `ExtraNonce`), and
none of them is in the list. RLP being injective (`Rlp.Item.encode_injective`),
what the signature commits to is exactly the fifteen fields and the unsigned
extra-data (`encodeSigHeader_eq_iff`); the five others can be changed at will
without touching the signed bytes or the recovered signer, while the bytes the
header is hashed over change with them (`encodeSigHeader_omits_fork_fields`).

`crypto.Ecrecover` and Keccak-256 are not code of this repository: they are the
parameters `Ecrecover` and `keccak256`. The signature cache of `ecrecover`,
keyed by the header hash, is left out.
-/

namespace PureChain

namespace Dpos

open Rlp Header

/-- The list `encodeSigHeader` hands to `rlp.Encode`, the extra-data cut before
its last 65 bytes. -/
def sigHeaderItem (header : Header) (chainId : ℕ) : Item :=
  .list [.nat chainId, hashItem header.ParentHash, hashItem header.UncleHash,
    addressItem header.Coinbase, hashItem header.Root, hashItem header.TxHash,
    hashItem header.ReceiptHash, .str header.Bloom.toList, .nat header.Difficulty,
    .nat header.Number, u64Item header.GasLimit, u64Item header.GasUsed, u64Item header.Time,
    .str (header.Extra.take (header.Extra.length - 65)), hashItem header.MixDigest,
    .str header.Nonce.toList]

/-- `encodeSigHeader`: the bytes written. Slicing `header.Extra[:len(header.Extra)-65]`
panics on a shorter extra-data. -/
def encodeSigHeader (header : Header) (chainId : ℕ) : Except Error (List UInt8) :=
  if header.Extra.length < 65 then throw .panic
  else pure (sigHeaderItem header chainId).encode

/-- `DposRLP`: the bytes a validator signs. -/
def DposRLP (header : Header) (chainId : ℕ) : Except Error (List UInt8) :=
  encodeSigHeader header chainId

section Recover

variable (keccak256 : List UInt8 → PureChain.Hash)
  (Ecrecover : PureChain.Hash → List UInt8 → Except Error (List UInt8))

/-- `SealHash`: Keccak-256 of the signed bytes. -/
def SealHash (header : Header) (chainId : ℕ) : Except Error PureChain.Hash :=
  keccak256 <$> encodeSigHeader header chainId

/-- `ecrecover`, past its cache: the signature is the last 65 bytes of the
extra-data, and the signer the last twenty bytes of the Keccak-256 of the
recovered public key without its prefix byte. -/
def ecrecover (header : Header) (chainId : ℕ) : Except Error Address := do
  if header.Extra.length < extraSeal then throw .errMissingSignature
  let signature := header.Extra.drop (header.Extra.length - extraSeal)
  let hash ← SealHash keccak256 header chainId
  let pubkey ← Ecrecover hash signature
  pure (Address.copyFrom ((keccak256 (pubkey.drop 1)).bytes.toList.drop 12))

end Recover

/-! ### What the signed bytes determine -/

section Spec

variable {header h1 h2 : Header} {chainId : ℕ}

theorem encodeSigHeader_of_le (h : 65 ≤ header.Extra.length) :
    encodeSigHeader header chainId = .ok (sigHeaderItem header chainId).encode := by
  rw [encodeSigHeader, if_neg (by omega)]
  rfl

/-- Two headers have the same signed list exactly when they agree on the chain
id's fifteen companions: every field of go-ethereum's header, the extra-data
without its seal. -/
theorem sigHeaderItem_eq_iff :
    sigHeaderItem h1 chainId = sigHeaderItem h2 chainId ↔
      h1.ParentHash = h2.ParentHash ∧ h1.UncleHash = h2.UncleHash ∧
      h1.Coinbase = h2.Coinbase ∧ h1.Root = h2.Root ∧ h1.TxHash = h2.TxHash ∧
      h1.ReceiptHash = h2.ReceiptHash ∧ h1.Bloom = h2.Bloom ∧
      h1.Difficulty = h2.Difficulty ∧ h1.Number = h2.Number ∧ h1.GasLimit = h2.GasLimit ∧
      h1.GasUsed = h2.GasUsed ∧ h1.Time = h2.Time ∧
      h1.Extra.take (h1.Extra.length - 65) = h2.Extra.take (h2.Extra.length - 65) ∧
      h1.MixDigest = h2.MixDigest ∧ h1.Nonce = h2.Nonce := by
  simp only [sigHeaderItem, Item.list.injEq, List.cons.injEq, hashItem_inj, addressItem_inj,
    u64Item_inj, Item.nat_inj, Item.str.injEq, Vector.toList_inj, and_true, true_and]

/-- The signed list of a header whose chain id, difficulty and number fit in 32
bytes is shorter than `2^64` bytes: the extra-data is a Go slice. -/
theorem length_sigHeaderItem_lt (hc : chainId < 2 ^ 256) (hd : header.Difficulty < 2 ^ 256)
    (hn : header.Number < 2 ^ 256) : (sigHeaderItem header chainId).encode.length < 2 ^ 64 := by
  have h256 : (2 : ℕ) ^ 256 = 256 ^ 32 := Nat.pow_mul 2 8 32
  have hx := header.extra_len_lt
  have hextra := @length_encode_str_le
    (header.Extra.take (header.Extra.length - 65)) (by simp; omega)
  have hbloom := @length_encode_str_le header.Bloom.toList (by simp)
  have hnonce := @length_encode_str_le header.Nonce.toList (by simp)
  have hcn := length_encode_nat_le (h256 ▸ hc) (by omega)
  have hdn := length_encode_nat_le (h256 ▸ hd) (by omega)
  have hnn := length_encode_nat_le (h256 ▸ hn) (by omega)
  have hp := length_hashItem_le header.ParentHash
  have hu := length_hashItem_le header.UncleHash
  have hcb := length_addressItem_le header.Coinbase
  have hr := length_hashItem_le header.Root
  have ht := length_hashItem_le header.TxHash
  have hrc := length_hashItem_le header.ReceiptHash
  have hgl := length_u64Item_le header.GasLimit
  have hgu := length_u64Item_le header.GasUsed
  have htm := length_u64Item_le header.Time
  have hm := length_hashItem_le header.MixDigest
  simp only [List.length_take, Vector.length_toList] at hextra hbloom hnonce
  -- the bounds on the numbers are spent; their 256-bit literals only slow omega down
  clear h256 hc hd hn
  -- the payload is the sixteen encodings one after another, the extra-data's the only long one
  rw [sigHeaderItem]
  refine Nat.lt_of_le_of_lt (length_encode_list_le ?_) ?_ <;>
  · simp only [encodeAll_cons, encodeAll_nil, List.length_append, List.length_nil]
    omega

/-- **What a Dpos signature binds.** For headers whose signed bytes fit the
lengths RLP can state, the bytes agree exactly when the headers agree on the
fifteen fields of the signed list and on the extra-data before the seal. -/
theorem encodeSigHeader_eq_iff (he1 : 65 ≤ h1.Extra.length) (he2 : 65 ≤ h2.Extra.length)
    (hb1 : (sigHeaderItem h1 chainId).encode.length < 2 ^ 64)
    (hb2 : (sigHeaderItem h2 chainId).encode.length < 2 ^ 64) :
    encodeSigHeader h1 chainId = encodeSigHeader h2 chainId ↔
      h1.ParentHash = h2.ParentHash ∧ h1.UncleHash = h2.UncleHash ∧
      h1.Coinbase = h2.Coinbase ∧ h1.Root = h2.Root ∧ h1.TxHash = h2.TxHash ∧
      h1.ReceiptHash = h2.ReceiptHash ∧ h1.Bloom = h2.Bloom ∧
      h1.Difficulty = h2.Difficulty ∧ h1.Number = h2.Number ∧ h1.GasLimit = h2.GasLimit ∧
      h1.GasUsed = h2.GasUsed ∧ h1.Time = h2.Time ∧
      h1.Extra.take (h1.Extra.length - 65) = h2.Extra.take (h2.Extra.length - 65) ∧
      h1.MixDigest = h2.MixDigest ∧ h1.Nonce = h2.Nonce := by
  rw [encodeSigHeader_of_le he1, encodeSigHeader_of_le he2, Except.ok.injEq,
    ← sigHeaderItem_eq_iff]
  exact ⟨Item.encode_injective hb1 hb2, fun h => h ▸ rfl⟩

/-- The signed bytes of one header under two chain ids differ. -/
theorem chainId_eq_of_encodeSigHeader_eq {c1 c2 : ℕ} (he : 65 ≤ header.Extra.length)
    (hb1 : (sigHeaderItem header c1).encode.length < 2 ^ 64)
    (hb2 : (sigHeaderItem header c2).encode.length < 2 ^ 64)
    (heq : encodeSigHeader header c1 = encodeSigHeader header c2) : c1 = c2 := by
  rw [encodeSigHeader_of_le he, encodeSigHeader_of_le he, Except.ok.injEq] at heq
  have hitem := Item.encode_injective hb1 hb2 heq
  simp only [sigHeaderItem, Item.list.injEq, List.cons.injEq, Item.nat_inj] at hitem
  exact hitem.1

end Spec

/-- **The five fields this fork added to the header are not signed.** Changing
`Provider`, `TeamAddress`, `ValidatorRate`, `TeamRate` and `ExtraNonce` of any
header leaves the bytes `encodeSigHeader` writes, and so the signer `ecrecover`
recovers, as they were; yet the bytes the header is hashed over commit to all
five, so as soon as one of them changes the header and its hash preimage do. -/
theorem encodeSigHeader_omits_fork_fields (keccak256 : List UInt8 → PureChain.Hash)
    (Ecrecover : PureChain.Hash → List UInt8 → Except Error (List UInt8)) (chainId : ℕ)
    (h : Header) (provider teamAddress : Address) (validatorRate teamRate : UInt64)
    (extraNonce : BlockNonce) :
    let h' : Header :=
      { h with
        Provider := provider, TeamAddress := teamAddress, ValidatorRate := validatorRate,
        TeamRate := teamRate, ExtraNonce := extraNonce }
    encodeSigHeader h' chainId = encodeSigHeader h chainId ∧
      ecrecover keccak256 Ecrecover h' chainId = ecrecover keccak256 Ecrecover h chainId ∧
      (h'.rlpItem.encode.length < 2 ^ 64 → h.rlpItem.encode.length < 2 ^ 64 →
        h'.rlpItem.encode = h.rlpItem.encode →
        provider = h.Provider ∧ teamAddress = h.TeamAddress ∧ validatorRate = h.ValidatorRate ∧
          teamRate = h.TeamRate ∧ extraNonce = h.ExtraNonce) := by
  intro h'
  -- the signed list reads none of the five fields, so both sides are the same term
  refine ⟨rfl, rfl, fun hb' hb he => ?_⟩
  have heq : h' = h := rlp_encode_injective hb' hb he
  exact ⟨congrArg Header.Provider heq, congrArg Header.TeamAddress heq,
    congrArg Header.ValidatorRate heq, congrArg Header.TeamRate heq,
    congrArg Header.ExtraNonce heq⟩

end Dpos

end PureChain
