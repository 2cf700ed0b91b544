import PureChain.Core.Types.TxCodec
import PureChain.Core.Types.TransactionSigning
import PureChain.Crypto.VersaHash

/-!
# Package `types`: signing a transaction and recovering its sender

A signer hashes the fields a signature covers (`Signer.Hash`), folds the
recovery id of a signature into `V` (`Signer.SignatureValues`), and recovers the
sender from `V`, `R` and `S` (`Signer.Sender`, through `recoverPlain`):

| signer | `V` written | hash signed |
|---|---|---|
| `FrontierSigner`, `HomesteadSigner` | `27 + id` | six fields |
| `EIP155Signer c`, `c ≠ 0` | `35 + id + 2c` | six fields, `c`, `0`, `0` |
| `EIP155Signer 0` | `27 + id` | six fields, `0`, `0`, `0` |
| `eip2930Signer c`, access list | `id` | type byte, `c`, seven fields |

A `V` is *protected* (`isProtectedV`) unless it is `0`, `1`, `27` or `28`; an
unprotected legacy transaction is recovered by the Homestead rules, over the six
fields only.

Package `crypto` is a parameter (`crypto.Secp256k1`): `Sign` and `Ecrecover`,
assumed inverse on every key (`crypto.Secp256k1.Inverse`): a signature is 65
bytes with a low `s` and a recovery id `0` or `1`, and recovering from it the
hash signed gives the signer's public key. Keccak-256 is a parameter too.

Under that assumption a transaction signed for a chain id `c ≠ 0` is recovered
to its signer, is protected, and is refused for any other chain id; an
access-list transaction is so for every chain id (`SignTx_Sender`). For chain id
`0` the EIP-155 signer writes an unprotected `V` over the nine-field hash, and
`Sender` then recovers over the six-field hash
(`Sender_SignTx_chainId_zero`): another hash than the one signed.

A nil `*big.Int`, which `NewTx` and `WithSignature` never leave in a transaction,
makes Go panic where it is read; it reads as zero here.
-/

namespace PureChain

open rlp Rlp

namespace crypto

/-- `SignatureLength`: `R`, `S` and the recovery id. -/
def SignatureLength : ℕ := 65

/-- `secp256k1N`, the order of the curve. -/
def secp256k1N : ℕ := versaHash.CurveN

/-- `secp256k1halfN`. -/
def secp256k1halfN : ℕ := secp256k1N / 2

/-- `ValidateSignatureValues`: `r` and `s` in range, `s` in the lower half after
Homestead, and a recovery id `0` or `1`. -/
def ValidateSignatureValues (v : UInt8) (r s : ℤ) (homestead : Bool) : Bool :=
  if r < 1 ∨ s < 1 then false
  else if homestead ∧ s > secp256k1halfN then false
  else decide (r < secp256k1N ∧ s < secp256k1N ∧ (v = 0 ∨ v = 1))

/-- The functions of package `crypto` the signers use, over private keys `κ`:
`Sign` a hash into `[R || S || V]`, `Ecrecover` the public key a signature of a
hash was made with, and `FromECDSAPub`, a key's public key. -/
structure Secp256k1 (κ : Type) where
  Sign : Hash → κ → Except String (List UInt8)
  Ecrecover : Hash → List UInt8 → Except String (List UInt8)
  FromECDSAPub : κ → List UInt8

variable {κ : Type}

/-- The bytes `R`, `S` and the recovery id of a 65-byte signature. -/
def sigR (sig : List UInt8) : List UInt8 := sig.take 32

def sigS (sig : List UInt8) : List UInt8 := (sig.drop 32).take 32

/-- **`Sign` and `Ecrecover` are inverse on every key**: a signature is 65 bytes
that pass the Homestead check, and the hash signed recovers the key's public
key, an uncompressed one (first byte `4`). -/
structure Secp256k1.Inverse (c : Secp256k1 κ) : Prop where
  sign : ∀ h k, ∃ sig, c.Sign h k = .ok sig ∧ sig.length = SignatureLength ∧
    ValidateSignatureValues (sig.getD 64 0) (beValue (sigR sig)) (beValue (sigS sig)) true
  ecrecover : ∀ h k sig, c.Sign h k = .ok sig → c.Ecrecover h sig = .ok (c.FromECDSAPub k)
  pub : ∀ k, (c.FromECDSAPub k).headD 0 = 4

variable (keccak256 : List UInt8 → PureChain.Hash)

/-- `PubkeyToAddress`: the last twenty bytes of the Keccak hash of the public
key without its first byte. -/
def PubkeyToAddress (pub : List UInt8) : Address :=
  Address.copyFrom ((keccak256 (pub.drop 1)).bytes.toList.drop 12)

end crypto

namespace types

/-- The errors of signing and of recovering a sender. -/
inductive SigError where
  | ErrInvalidChainId
  | ErrTxTypeNotSupported
  | ErrInvalidSig
  /-- `Ecrecover`'s error. -/
  | recover (err : String)
  /-- `errors.New("invalid public key")`. -/
  | errInvalidPublicKey
  /-- `crypto.Sign`'s error. -/
  | sign (err : String)
  /-- `decodeSignature`'s panic on a signature of another length. -/
  | errWrongSize
  deriving DecidableEq

/-! ### The transaction's accessors -/

namespace TxData

def Nonce : TxData → UInt64
  | .legacy tx => tx.Nonce
  | .accessList tx => tx.Nonce

def GasPrice : TxData → Option ℤ
  | .legacy tx => tx.GasPrice
  | .accessList tx => tx.GasPrice

def Gas : TxData → UInt64
  | .legacy tx => tx.Gas
  | .accessList tx => tx.Gas

def To : TxData → Option Address
  | .legacy tx => tx.To
  | .accessList tx => tx.To

def Value : TxData → Option ℤ
  | .legacy tx => tx.Value
  | .accessList tx => tx.Value

def Data : TxData → List UInt8
  | .legacy tx => tx.Data
  | .accessList tx => tx.Data

/-- `accessList()`: none for a legacy transaction. -/
def AccessList : TxData → List AccessTuple
  | .legacy _ => []
  | .accessList tx => tx.AccessList

/-- `rawSignatureValues()`: `V`, `R`, `S`. -/
def rawSignatureValues : TxData → ℤ × ℤ × ℤ
  | .legacy tx => (tx.V.getD 0, tx.R.getD 0, tx.S.getD 0)
  | .accessList tx => (tx.V.getD 0, tx.R.getD 0, tx.S.getD 0)

/-- `setSignatureValues`: a legacy transaction ignores the chain id. -/
def setSignatureValues (chainID : Option ℤ) (v r s : ℤ) : TxData → TxData
  | .legacy tx => .legacy { tx with V := some v, R := some r, S := some s }
  | .accessList tx => .accessList { tx with ChainID := chainID, V := some v, R := some r, S := some s }

end TxData

/-- `isProtectedV`: a `V` of at most eight bits is protected unless it is `0`,
`1`, `27` or `28`; any longer one is. -/
def isProtectedV (V : ℤ) : Bool :=
  if V.natAbs < 2 ^ 8 then
    let v := V.natAbs
    v ≠ 27 ∧ v ≠ 28 ∧ v ≠ 1 ∧ v ≠ 0
  else true

/-- `deriveChainId`: `(v - 35) / 2` in 64-bit arithmetic for a `v` of at most
64 bits, zero for `27` and `28`. -/
def deriveChainId (v : ℤ) : ℤ :=
  if v.natAbs < 2 ^ 64 then
    let u := UInt64.ofNat v.natAbs
    if u = 27 ∨ u = 28 then 0 else ((u - 35) / 2).toNat
  else (v - 35) / 2

/-- `Protected`: a legacy transaction with a protected `V`; every typed one. -/
def Transaction.Protected (tx : Transaction) : Bool :=
  match tx.inner with
  | .legacy l => l.V.isSome && isProtectedV (l.V.getD 0)
  | .accessList _ => true

/-- `ChainId`: derived from `V` for a legacy transaction. -/
def Transaction.ChainId (tx : Transaction) : ℤ :=
  match tx.inner with
  | .legacy l => deriveChainId (l.V.getD 0)
  | .accessList a => a.ChainID.getD 0

end types

open types

/-- `Signer.ChainID`: none for the signers without replay protection. -/
def Signer.ChainID : Signer → Option ℤ
  | .FrontierSigner | .HomesteadSigner => none
  | .EIP155Signer c | .eip2930Signer c => some c

/-- `Signer.Equal`: the same signer, for the same chain id. -/
def Signer.Equal : Signer → Signer → Bool
  | .FrontierSigner, .FrontierSigner => true
  | .HomesteadSigner, .HomesteadSigner => true
  | .EIP155Signer c, .EIP155Signer c' => c = c'
  | .eip2930Signer c, .eip2930Signer c' => c = c'
  | _, _ => false

theorem Signer.Equal_iff {s s' : Signer} : s.Equal s' = true ↔ s = s' := by
  cases s <;> cases s' <;> simp [Signer.Equal]

/-! ### The hashes signed -/

section Hashes

variable (keccak256 : List UInt8 → PureChain.Hash)

namespace types

/-- `rlpHash` of a list of values: the Keccak hash of the list's encoding;
`rlp.Encode` writes nothing when a value cannot be encoded. -/
def rlpHash (values : List (Except RlpError Item)) : Hash :=
  keccak256 (match values.mapM id with
    | .ok ts => (Item.list ts).encode
    | .error _ => [])

/-- `prefixedRlpHash`: the type byte, then the list's encoding. -/
def prefixedRlpHash (typ : UInt8) (values : List (Except RlpError Item)) : Hash :=
  keccak256 (typ :: match values.mapM id with
    | .ok ts => (Item.list ts).encode
    | .error _ => [])

/-- The six fields every legacy signature covers: `Nonce()`, `GasPrice()`,
`Gas()`, `To()`, `Value()`, `Data()`. -/
def txFields (tx : Transaction) : List (Except RlpError Item) :=
  [Codec.uint64.write tx.inner.Nonce, Codec.bigInt.write (copyBig tx.inner.GasPrice),
    Codec.uint64.write tx.inner.Gas, (Codec.nilPtr .String addressCodec).write tx.inner.To,
    Codec.bigInt.write (copyBig tx.inner.Value), Codec.bytes.write tx.inner.Data]

/-- The fields of an EIP-155 signature: the six, the chain id and two zeros. -/
def eip155Fields (chainId : ℕ) (tx : Transaction) : List (Except RlpError Item) :=
  txFields tx ++ [pure (.nat chainId), pure (.nat 0), pure (.nat 0)]

end types

/-- `Hash` of each signer. -/
def Signer.Hash : Signer → types.Transaction → PureChain.Hash
  | .FrontierSigner, tx | .HomesteadSigner, tx => rlpHash keccak256 (txFields tx)
  | .EIP155Signer c, tx => rlpHash keccak256 (eip155Fields c tx)
  | .eip2930Signer c, tx =>
    match tx.inner with
    | .legacy _ => rlpHash keccak256 (eip155Fields c tx)
    | .accessList _ =>
      prefixedRlpHash keccak256 tx.Type
        (pure (.nat c) :: txFields tx ++ [(Codec.slice AccessTuple.codec).write tx.inner.AccessList])

end Hashes

/-! ### Signature values -/

namespace types

/-- `decodeSignature`: `R`, `S` and `V = sig[64] + 27`, in byte arithmetic. -/
def decodeSignature (sig : List UInt8) : Except SigError (ℤ × ℤ × ℤ) :=
  if sig.length ≠ crypto.SignatureLength then throw .errWrongSize
  else pure (beValue (crypto.sigR sig), beValue (crypto.sigS sig), (sig.getD 64 0 + 27).toNat)

/-- `EIP155Signer.SignatureValues`: `V = sig[64] + 35 + 2c` for a chain id
`c ≠ 0`, the Homestead `V` for chain id `0`. -/
def EIP155Signer.SignatureValues (chainId : ℕ) (tx : Transaction) (sig : List UInt8) :
    Except SigError (ℤ × ℤ × ℤ) :=
  if tx.Type ≠ LegacyTxType then throw .ErrTxTypeNotSupported
  else do
    let (R, S, V) ← decodeSignature sig
    if chainId ≠ 0 then pure (R, S, (sig.getD 64 0 + 35).toNat + 2 * chainId)
    else pure (R, S, V)

end types

/-- `SignatureValues` of each signer: `R`, `S` and `V`. -/
def Signer.SignatureValues : Signer → types.Transaction → List UInt8 → Except SigError (ℤ × ℤ × ℤ)
  | .FrontierSigner, tx, sig | .HomesteadSigner, tx, sig =>
    if tx.Type ≠ LegacyTxType then throw .ErrTxTypeNotSupported else decodeSignature sig
  | .EIP155Signer c, tx, sig => EIP155Signer.SignatureValues c tx sig
  | .eip2930Signer c, tx, sig =>
    match tx.inner with
    | .legacy _ => EIP155Signer.SignatureValues c tx sig
    | .accessList a =>
      -- a chain id of zero stands for one not given
      if a.ChainID.getD 0 ≠ 0 ∧ a.ChainID.getD 0 ≠ c then throw .ErrInvalidChainId
      else do
        let (R, S, _) ← decodeSignature sig
        pure (R, S, (sig.getD 64 0).toNat)

namespace types

/-- `WithSignature`: a copy of the transaction carrying the signature values and,
for an access-list transaction, the signer's chain id. -/
def Transaction.WithSignature (tx : Transaction) (signer : Signer) (sig : List UInt8) :
    Except SigError Transaction := do
  let (r, s, v) ← signer.SignatureValues tx sig
  pure { inner := tx.inner.copy.setSignatureValues signer.ChainID v r s, size := none }

end types

/-! ### Recovering the sender -/

section Recovery

variable {κ : Type} (keccak256 : List UInt8 → PureChain.Hash) (crypto : crypto.Secp256k1 κ)

namespace types

/-- `SignTx`: the signer's hash signed, and the signature set. -/
def SignTx (tx : Transaction) (s : Signer) (prv : κ) : Except SigError Transaction := do
  let h := s.Hash keccak256 tx
  let sig ← (crypto.Sign h prv).mapError .sign
  tx.WithSignature s sig

/-- `R` or `S` copied right-aligned into thirty-two bytes. -/
def padded (x : ℤ) : List UInt8 :=
  List.replicate (32 - (beBytes x.natAbs).length) 0 ++ beBytes x.natAbs

/-- `recoverPlain`: the recovery id `V - 27` checked with `R` and `S`, the public
key recovered from the signature rebuilt, and its address. -/
def recoverPlain (sighash : Hash) (R S Vb : ℤ) (homestead : Bool) : Except SigError Address :=
  if Vb.natAbs ≥ 2 ^ 8 then throw .ErrInvalidSig
  else
    let V : UInt8 := (UInt64.ofNat Vb.natAbs - 27).toUInt8
    if !PureChain.crypto.ValidateSignatureValues V R S homestead then throw .ErrInvalidSig
    else
      match crypto.Ecrecover sighash (padded R ++ padded S ++ [V]) with
      | .error err => throw (.recover err)
      | .ok pub =>
        if pub.length = 0 ∨ pub.headD 0 ≠ 4 then throw .errInvalidPublicKey
        else pure (PureChain.crypto.PubkeyToAddress keccak256 pub)

/-- `HomesteadSigner.Sender`, which the EIP-155 signers use for an unprotected
transaction. -/
def HomesteadSigner.Sender (tx : Transaction) : Except SigError Address :=
  if tx.Type ≠ LegacyTxType then throw .ErrTxTypeNotSupported
  else
    let (v, r, s) := tx.inner.rawSignatureValues
    recoverPlain keccak256 crypto (Signer.Hash keccak256 .HomesteadSigner tx) r s v true

end types

/-- `Sender` of each signer. -/
def Signer.Sender : Signer → types.Transaction → Except SigError Address
  | .FrontierSigner, tx =>
    if tx.Type ≠ LegacyTxType then throw .ErrTxTypeNotSupported
    else
      let (v, r, s) := tx.inner.rawSignatureValues
      recoverPlain keccak256 crypto (Signer.Hash keccak256 .FrontierSigner tx) r s v false
  | .HomesteadSigner, tx => HomesteadSigner.Sender keccak256 crypto tx
  | .EIP155Signer c, tx =>
    if tx.Type ≠ LegacyTxType then throw .ErrTxTypeNotSupported
    else if !tx.Protected then HomesteadSigner.Sender keccak256 crypto tx
    else if tx.ChainId ≠ c then throw .ErrInvalidChainId
    else
      let (V, R, S) := tx.inner.rawSignatureValues
      recoverPlain keccak256 crypto (Signer.Hash keccak256 (.EIP155Signer c) tx) R S
        (V - 2 * c - 8) true
  | .eip2930Signer c, tx =>
    let (V, R, S) := tx.inner.rawSignatureValues
    match tx.inner with
    | .legacy _ =>
      if !tx.Protected then HomesteadSigner.Sender keccak256 crypto tx
      else if tx.ChainId ≠ c then throw .ErrInvalidChainId
      else
        recoverPlain keccak256 crypto (Signer.Hash keccak256 (.eip2930Signer c) tx) R S
          (V - 2 * c - 8) true
    | .accessList _ =>
      -- the recovery id `0` or `1` made a Homestead `V`
      if tx.ChainId ≠ c then throw .ErrInvalidChainId
      else recoverPlain keccak256 crypto (Signer.Hash keccak256 (.eip2930Signer c) tx) R S (V + 27) true

namespace types

/-- `sigCache`: the signer a sender was recovered with, and the sender. -/
structure sigCache where
  signer : Signer
  sender : Address

/-- `types.Sender`: the cached sender when the cache is the same signer's, else
the signer's recovery, cached when it succeeds. -/
def Sender (signer : Signer) (cache : Option sigCache) (tx : Transaction) :
    Except SigError Address × Option sigCache :=
  let recover : Except SigError Address × Option sigCache :=
    match signer.Sender keccak256 crypto tx with
    | .ok addr => (.ok addr, some ⟨signer, addr⟩)
    | .error err => (.error err, cache)
  match cache with
  | some sc => if sc.signer.Equal signer then (.ok sc.sender, cache) else recover
  | none => recover

end types

end Recovery

/-! ### The bytes of a signature -/

section SignatureBytes

variable {sig : List UInt8}

/-- `R`, `S` and the recovery id put together are the signature. -/
theorem sig_eq (hlen : sig.length = crypto.SignatureLength) :
    crypto.sigR sig ++ crypto.sigS sig ++ [sig.getD 64 0] = sig := by
  rw [crypto.SignatureLength] at hlen
  have h64 : 64 < sig.length := by omega
  -- the last byte is the recovery id, and what comes before it the two numbers
  have hlast : sig.drop 64 = [sig.getD 64 0] := by
    rw [List.drop_eq_getElem_cons h64, List.drop_eq_nil_of_le (by omega : sig.length ≤ 64 + 1),
      List.getD_eq_getElem?_getD, List.getElem?_eq_getElem h64, Option.getD_some]
  have hS : List.take 32 (List.drop 32 sig) ++ List.drop 64 sig = List.drop 32 sig := by
    rw [show 64 = 32 + 32 from rfl, ← List.drop_drop, List.take_append_drop]
  rw [crypto.sigR, crypto.sigS, ← hlast, List.append_assoc, hS, List.take_append_drop]

/-- Thirty-two bytes read as a number and copied back right-aligned are the
bytes. -/
theorem padded_beValue {bs : List UInt8} (hlen : bs.length = 32) : padded (beValue bs : ℤ) = bs := by
  rw [padded, Int.natAbs_natCast, ← hlen]
  exact replicate_append_beBytes_beValue bs

theorem length_sigR (hlen : sig.length = crypto.SignatureLength) : (crypto.sigR sig).length = 32 := by
  simp [crypto.sigR, crypto.SignatureLength] at hlen ⊢
  omega

theorem length_sigS (hlen : sig.length = crypto.SignatureLength) : (crypto.sigS sig).length = 32 := by
  simp [crypto.sigS, crypto.SignatureLength] at hlen ⊢
  omega

end SignatureBytes

/-! ### Recovering what was signed -/

namespace crypto

theorem ValidateSignatureValues_eq_true {v : UInt8} {r s : ℤ} {homestead : Bool} :
    ValidateSignatureValues v r s homestead = true ↔
      1 ≤ r ∧ 1 ≤ s ∧ (homestead = true → s ≤ secp256k1halfN) ∧ r < secp256k1N ∧ s < secp256k1N ∧
        (v = 0 ∨ v = 1) := by
  have hN : secp256k1halfN < secp256k1N := by decide
  unfold ValidateSignatureValues
  split_ifs with h1 h2
  · simp only [false_iff]
    omega
  · -- a high `s` after Homestead
    simp only [false_iff]
    rintro ⟨-, -, hh, -⟩
    have := hh h2.1
    omega
  · simp only [decide_eq_true_eq]
    constructor
    · rintro ⟨hr, hs, hv⟩
      exact ⟨by omega, by omega, fun hh => by simp_all, hr, hs, hv⟩
    · rintro ⟨-, -, -, hr, hs, hv⟩
      exact ⟨hr, hs, hv⟩

variable {κ : Type} {c : Secp256k1 κ}

/-- What the assumption says of every signature `Sign` makes. -/
theorem Secp256k1.Inverse.sign_eq (hinv : c.Inverse) {h : Hash} {k : κ} {sig : List UInt8}
    (hs : c.Sign h k = .ok sig) :
    sig.length = SignatureLength ∧
      ValidateSignatureValues (sig.getD 64 0) (beValue (sigR sig)) (beValue (sigS sig)) true := by
  obtain ⟨sig', hs', hlen, hv⟩ := hinv.sign h k
  obtain rfl : sig = sig' := Except.ok.inj (hs.symm.trans hs')
  exact ⟨hlen, hv⟩

end crypto

namespace types

/-- A recovery id, `0` or `1`, moved up by `27` or `35` stays a byte. -/
theorem recid_add {v : UInt8} (hv : v = 0 ∨ v = 1) :
    (v + 27).toNat = v.toNat + 27 ∧ (v + 35).toNat = v.toNat + 35 := by
  rcases hv with rfl | rfl <;> decide

variable {κ : Type} {keccak256 : List UInt8 → PureChain.Hash} {crypto : crypto.Secp256k1 κ}

/-- `recoverPlain` of a well-formed signature, given with the Homestead `V`, at
any hash: what `Ecrecover` makes of the signature itself. -/
theorem recoverPlain_of_valid {sig : List UInt8} (hlen : sig.length = PureChain.crypto.SignatureLength)
    (hv : PureChain.crypto.ValidateSignatureValues (sig.getD 64 0) (beValue (PureChain.crypto.sigR sig))
      (beValue (PureChain.crypto.sigS sig)) true) (h : PureChain.Hash) :
    recoverPlain keccak256 crypto h (beValue (PureChain.crypto.sigR sig)) (beValue (PureChain.crypto.sigS sig))
      ((sig.getD 64 0).toNat + 27) true =
      match crypto.Ecrecover h sig with
      | .error err => .error (.recover err)
      | .ok pub =>
        if pub.length = 0 ∨ pub.headD 0 ≠ 4 then .error .errInvalidPublicKey
        else .ok (PureChain.crypto.PubkeyToAddress keccak256 pub) := by
  have hv01 := (PureChain.crypto.ValidateSignatureValues_eq_true.mp hv).2.2.2.2.2
  -- the recovery id comes back from `V - 27`
  have hid : (UInt64.ofNat (((sig.getD 64 0).toNat : ℤ) + 27).natAbs - 27).toUInt8 = sig.getD 64 0 := by
    rcases hv01 with h0 | h1
    · rw [h0]; decide
    · rw [h1]; decide
  -- and the signature rebuilt is the one given
  have hsig : padded (beValue (PureChain.crypto.sigR sig) : ℤ) ++ padded (beValue (PureChain.crypto.sigS sig) : ℤ) ++
      [sig.getD 64 0] = sig := by
    rw [padded_beValue (length_sigR hlen), padded_beValue (length_sigS hlen), sig_eq hlen]
  have hsmall : ¬ (((sig.getD 64 0).toNat : ℤ) + 27).natAbs ≥ 2 ^ 8 := by
    have := UInt8.toNat_lt (sig.getD 64 0)
    rcases hv01 with h0 | h1 <;> simp_all
  unfold recoverPlain
  rw [if_neg hsmall]
  simp only [hid, hv, Bool.not_true, Bool.false_eq_true, if_false]
  rw [hsig]
  rfl

/-- **`recoverPlain` recovers the signer from a signature `Sign` made**, given
with the Homestead `V`. -/
theorem recoverPlain_of_Sign (hinv : crypto.Inverse) {h : PureChain.Hash} {k : κ} {sig : List UInt8}
    (hs : crypto.Sign h k = .ok sig) :
    recoverPlain keccak256 crypto h (beValue (PureChain.crypto.sigR sig)) (beValue (PureChain.crypto.sigS sig))
      ((sig.getD 64 0).toNat + 27) true =
      .ok (PureChain.crypto.PubkeyToAddress keccak256 (crypto.FromECDSAPub k)) := by
  obtain ⟨hlen, hv⟩ := hinv.sign_eq hs
  have hpub := hinv.pub k
  have hne : ¬ ((crypto.FromECDSAPub k).length = 0 ∨ (crypto.FromECDSAPub k).headD 0 ≠ 4) := by
    rintro (h0 | h4)
    · rw [List.length_eq_zero_iff.mp h0] at hpub
      exact absurd hpub (by decide)
    · exact h4 hpub
  rw [recoverPlain_of_valid hlen hv, hinv.ecrecover h k sig hs]
  dsimp only
  rw [if_neg hne]

/-! ### `V` and the chain id -/

/-- An EIP-155 `V`, `35 + id + 2c`, is protected. -/
theorem isProtectedV_of_ge {V : ℤ} (h : 29 ≤ V) : isProtectedV V = true := by
  unfold isProtectedV
  split_ifs
  · simp only [decide_eq_true_eq]
    omega
  · rfl

/-- The Homestead `V`s `27` and `28` are not protected. -/
theorem isProtectedV_homestead {v : ℕ} (hv : v ≤ 1) : isProtectedV ((v : ℤ) + 27) = false := by
  unfold isProtectedV
  rw [if_pos (by omega)]
  simp only [decide_eq_false_iff_not, not_and, not_not]
  omega

/-- **The chain id comes back from an EIP-155 `V`**, in either branch of
`deriveChainId`. -/
theorem deriveChainId_eip155 {v : ℕ} (hv : v ≤ 1) (c : ℕ) : deriveChainId ((v : ℤ) + 35 + 2 * c) = c := by
  unfold deriveChainId
  have habs : ((v : ℤ) + 35 + 2 * c).natAbs = v + 35 + 2 * c := by omega
  rw [habs]
  by_cases hsmall : v + 35 + 2 * c < 2 ^ 64
  · -- 64-bit arithmetic: not `27` or `28`, and the subtraction does not wrap
    have hval : (UInt64.ofNat (v + 35 + 2 * c)).toNat = v + 35 + 2 * c :=
      UInt64.toNat_ofNat_of_lt' hsmall
    have hne : ¬ (UInt64.ofNat (v + 35 + 2 * c) = 27 ∨ UInt64.ofNat (v + 35 + 2 * c) = 28) := by
      rintro (h | h) <;>
      · have := congrArg UInt64.toNat h
        rw [hval] at this
        simp at this
        omega
    have h35 : (35 : UInt64) ≤ UInt64.ofNat (v + 35 + 2 * c) := by
      rw [UInt64.le_iff_toNat_le, hval]
      simp only [UInt64.reduceToNat]
      omega
    rw [if_pos hsmall]
    dsimp only
    rw [if_neg hne, UInt64.toNat_div, UInt64.toNat_sub_of_le _ _ h35, hval]
    simp only [UInt64.reduceToNat]
    omega
  · rw [if_neg hsmall]
    omega

/-! ### What a signature leaves as it was -/

section Resign

variable (d : TxData) (chainID : Option ℤ) (v r s : ℤ)

@[simp] theorem TxData.txType_setSignatureValues :
    (d.setSignatureValues chainID v r s).txType = d.txType := by
  cases d <;> rfl

@[simp] theorem TxData.rawSignatureValues_setSignatureValues :
    (d.setSignatureValues chainID v r s).rawSignatureValues = (v, r, s) := by
  cases d <;> rfl

@[simp] theorem TxData.AccessList_copy_setSignatureValues :
    (d.copy.setSignatureValues chainID v r s).AccessList = d.AccessList := by
  cases d <;> rfl

/-- The signed fields of a transaction are those of its copy with a signature. -/
theorem txFields_copy_setSignatureValues (size : Option ℕ) (tx : Transaction) :
    txFields ⟨tx.inner.copy.setSignatureValues chainID v r s, size⟩ = txFields tx := by
  obtain ⟨d, _⟩ := tx
  cases d <;>
    simp [txFields, TxData.copy, TxData.setSignatureValues, TxData.Nonce, TxData.GasPrice,
      TxData.Gas, TxData.To, TxData.Value, TxData.Data, copyBig]

variable {keccak256 : List UInt8 → PureChain.Hash}

/-- **A signature does not change the hash any signer signs.** -/
theorem Hash_copy_setSignatureValues (signer : Signer) (size : Option ℕ) (tx : Transaction) :
    signer.Hash keccak256 ⟨tx.inner.copy.setSignatureValues chainID v r s, size⟩ =
      signer.Hash keccak256 tx := by
  obtain ⟨d, sz⟩ := tx
  have hf := txFields_copy_setSignatureValues chainID v r s size ⟨d, sz⟩
  cases signer <;> cases d <;>
    simp_all [Signer.Hash, eip155Fields, TxData.copy, TxData.setSignatureValues, Transaction.Type,
      TxData.txType, TxData.AccessList]

end Resign

/-! ### Each signer's values and recovery, case by case -/

section Cases

variable {tx : Transaction} {sig : List UInt8}

theorem decodeSignature_eq (hlen : sig.length = PureChain.crypto.SignatureLength) :
    decodeSignature sig =
      .ok (beValue (PureChain.crypto.sigR sig), beValue (PureChain.crypto.sigS sig), (sig.getD 64 0 + 27).toNat) := by
  simp [decodeSignature, hlen]

/-- A legacy transaction's type. -/
theorem exists_legacy (hty : tx.Type = LegacyTxType) : ∃ l, tx.inner = .legacy l := by
  obtain ⟨d, _⟩ := tx
  cases d with
  | legacy l => exact ⟨l, rfl⟩
  | accessList a =>
    have hne : AccessListTxType ≠ LegacyTxType := by decide
    exact absurd hty hne

/-- **The values an EIP-155 signer writes**: `V = sig[64] + 35 + 2c`, or the
Homestead `V` for chain id `0`. -/
theorem EIP155Signer.SignatureValues_eq {c : ℕ} (hty : tx.Type = LegacyTxType)
    (hlen : sig.length = PureChain.crypto.SignatureLength) :
    EIP155Signer.SignatureValues c tx sig =
      .ok (beValue (PureChain.crypto.sigR sig), beValue (PureChain.crypto.sigS sig),
        if c ≠ 0 then ((sig.getD 64 0 + 35).toNat : ℤ) + 2 * c else (sig.getD 64 0 + 27).toNat) := by
  by_cases hc : c = 0 <;> simp [EIP155Signer.SignatureValues, hty, decodeSignature_eq hlen, hc]

/-- Both replay-protecting signers write a legacy transaction's values as
EIP-155 does. -/
theorem SignatureValues_legacy {c : ℕ} {s : Signer} (hs : s = .EIP155Signer c ∨ s = .eip2930Signer c)
    (hty : tx.Type = LegacyTxType) : s.SignatureValues tx sig = EIP155Signer.SignatureValues c tx sig := by
  obtain ⟨l, hl⟩ := exists_legacy hty
  rcases hs with rfl | rfl
  · rfl
  · simp [Signer.SignatureValues, hl]

/-- Both replay-protecting signers sign a legacy transaction's EIP-155 fields. -/
theorem Hash_legacy {keccak256 : List UInt8 → PureChain.Hash} {c : ℕ} {s : Signer}
    (hs : s = .EIP155Signer c ∨ s = .eip2930Signer c) (hty : tx.Type = LegacyTxType) :
    s.Hash keccak256 tx = rlpHash keccak256 (eip155Fields c tx) := by
  obtain ⟨l, hl⟩ := exists_legacy hty
  rcases hs with rfl | rfl
  · rfl
  · simp [Signer.Hash, hl]

/-- The values the EIP-2930 signer writes for an access-list transaction
carrying no chain id or its own: the recovery id as it is. -/
theorem SignatureValues_accessList {c : ℕ} {a : AccessListTx} (hl : tx.inner = .accessList a)
    (hch : a.ChainID.getD 0 = 0 ∨ a.ChainID.getD 0 = c) (hlen : sig.length = PureChain.crypto.SignatureLength) :
    (Signer.eip2930Signer c).SignatureValues tx sig =
      .ok (beValue (PureChain.crypto.sigR sig), beValue (PureChain.crypto.sigS sig), (sig.getD 64 0).toNat) := by
  have hok : ¬ (a.ChainID.getD 0 ≠ 0 ∧ a.ChainID.getD 0 ≠ c) := by omega
  simp [Signer.SignatureValues, hl, hok, decodeSignature_eq hlen]

/-- `SignTx` signs the signer's hash, and sets that signature. -/
theorem SignTx_eq (keccak256 : List UInt8 → PureChain.Hash) (hinv : crypto.Inverse) (tx : Transaction)
    (s : Signer) (k : κ) :
    ∃ sig, crypto.Sign (s.Hash keccak256 tx) k = .ok sig ∧
      SignTx keccak256 crypto tx s k = tx.WithSignature s sig := by
  obtain ⟨sig, hs, -⟩ := hinv.sign (s.Hash keccak256 tx) k
  exact ⟨sig, hs, by simp [SignTx, hs]⟩

/-- **How the replay-protecting signers recover a protected legacy
transaction**: the chain id is checked, then `V - 2c - 8` is recovered. -/
theorem Sender_legacy_protected {c : ℕ} {s : Signer} (hs : s = .EIP155Signer c ∨ s = .eip2930Signer c)
    {l : LegacyTx} (hl : tx.inner = .legacy l) (hp : tx.Protected = true) :
    s.Sender keccak256 crypto tx =
      if tx.ChainId ≠ c then .error .ErrInvalidChainId
      else recoverPlain keccak256 crypto (s.Hash keccak256 tx) tx.inner.rawSignatureValues.2.1
        tx.inner.rawSignatureValues.2.2 (tx.inner.rawSignatureValues.1 - 2 * c - 8) true := by
  have hty : tx.Type = LegacyTxType := by simp [Transaction.Type, hl, TxData.txType]
  rcases hs with rfl | rfl
  · simp only [Signer.Sender, hty, hp, ne_eq, not_true_eq_false, if_false, Bool.not_true,
      Bool.false_eq_true]
    rfl
  · simp only [Signer.Sender, hl, hp, Bool.not_true, Bool.false_eq_true, if_false]
    rfl

/-- **An unprotected legacy transaction is recovered by the Homestead rules**
under both replay-protecting signers. -/
theorem Sender_legacy_unprotected {c : ℕ} {s : Signer} (hs : s = .EIP155Signer c ∨ s = .eip2930Signer c)
    (hty : tx.Type = LegacyTxType) (hp : tx.Protected = false) :
    s.Sender keccak256 crypto tx = HomesteadSigner.Sender keccak256 crypto tx := by
  obtain ⟨l, hl⟩ := exists_legacy hty
  rcases hs with rfl | rfl
  · simp [Signer.Sender, hty, hp]
  · simp [Signer.Sender, hl, hp]

/-- How the EIP-2930 signer recovers an access-list transaction: the chain id
is checked, then the recovery id made a Homestead `V`. -/
theorem Sender_accessList {c : ℕ} {a : AccessListTx} (hl : tx.inner = .accessList a) :
    (Signer.eip2930Signer c).Sender keccak256 crypto tx =
      if tx.ChainId ≠ c then .error .ErrInvalidChainId
      else recoverPlain keccak256 crypto ((Signer.eip2930Signer c).Hash keccak256 tx)
        tx.inner.rawSignatureValues.2.1 tx.inner.rawSignatureValues.2.2
        (tx.inner.rawSignatureValues.1 + 27) true := by
  simp only [Signer.Sender, hl]
  rfl

/-- A cache of another signer's is not used. -/
theorem Sender_of_not_Equal {s' : Signer} {cache : Option sigCache}
    (hne : ∀ sc ∈ cache, sc.signer ≠ s') :
    (Sender keccak256 crypto s' cache tx).1 = s'.Sender keccak256 crypto tx := by
  rcases cache with _ | sc
  · simp only [Sender]
    split <;> simp_all
  · have hneq : sc.signer.Equal s' = false := Bool.eq_false_iff.mpr (mt Signer.Equal_iff.1 (hne sc rfl))
    simp only [Sender, hneq, Bool.false_eq_true, if_false]
    split <;> simp_all

theorem WithSignature_eq {signer : Signer} {r s v : ℤ}
    (h : signer.SignatureValues tx sig = .ok (r, s, v)) :
    tx.WithSignature signer sig = .ok ⟨tx.inner.copy.setSignatureValues signer.ChainID v r s, none⟩ := by
  simp [Transaction.WithSignature, h]

/-! ### The transactions a signer makes -/

section Signed

variable {chainID : Option ℤ} {v r s : ℤ} {size : Option ℕ}

/-- A signed legacy transaction is protected as its `V` is, and carries the
chain id its `V` stands for. -/
theorem Protected_ChainId_legacy (chainID : Option ℤ) (v r s : ℤ) (size : Option ℕ) {l : LegacyTx}
    (hl : tx.inner = .legacy l) :
    (Transaction.mk (tx.inner.copy.setSignatureValues chainID v r s) size).Protected = isProtectedV v ∧
      (Transaction.mk (tx.inner.copy.setSignatureValues chainID v r s) size).ChainId = deriveChainId v := by
  simp [Transaction.Protected, Transaction.ChainId, hl, TxData.copy, TxData.setSignatureValues]

/-- A signed access-list transaction carries the chain id it was given. -/
theorem ChainId_accessList {a : AccessListTx} (hl : tx.inner = .accessList a) :
    (Transaction.mk (tx.inner.copy.setSignatureValues chainID v r s) size).ChainId = chainID.getD 0 := by
  simp [Transaction.ChainId, hl, TxData.copy, TxData.setSignatureValues]

/-- **A legacy transaction signed for a chain id `c ≠ 0`** is protected,
carries `c`, and its sender is the key's address. -/
theorem Sender_SignTx_legacy (hinv : crypto.Inverse) {c : ℕ} (hc : c ≠ 0) {s : Signer}
    (hs : s = .EIP155Signer c ∨ s = .eip2930Signer c) (hty : tx.Type = LegacyTxType) (k : κ) :
    ∃ stx, SignTx keccak256 crypto tx s k = .ok stx ∧ (∃ l, stx.inner = .legacy l) ∧
      stx.Protected = true ∧ stx.ChainId = c ∧
      s.Sender keccak256 crypto stx = .ok (PureChain.crypto.PubkeyToAddress keccak256 (crypto.FromECDSAPub k)) := by
  obtain ⟨sig, hsign, hst⟩ := SignTx_eq keccak256 hinv tx s k
  obtain ⟨hlen, hval⟩ := hinv.sign_eq hsign
  have hv01 := (PureChain.crypto.ValidateSignatureValues_eq_true.mp hval).2.2.2.2.2
  have hid : (sig.getD 64 0).toNat ≤ 1 := by rcases hv01 with h | h <;> rw [h] <;> decide
  obtain ⟨l, hl⟩ := exists_legacy hty
  -- the `V` written: the recovery id, `35` and twice the chain id
  set V : ℤ := ((sig.getD 64 0).toNat : ℤ) + 35 + 2 * c with hV
  have hvals : s.SignatureValues tx sig =
      .ok (beValue (PureChain.crypto.sigR sig), beValue (PureChain.crypto.sigS sig), V) := by
    rw [SignatureValues_legacy hs hty, EIP155Signer.SignatureValues_eq hty hlen, if_pos hc,
      (recid_add hv01).2]
    push_cast
    rfl
  have hchain : s.ChainID = some (c : ℤ) := by rcases hs with rfl | rfl <;> rfl
  set stx : Transaction := ⟨tx.inner.copy.setSignatureValues (some (c : ℤ)) V
    (beValue (PureChain.crypto.sigR sig)) (beValue (PureChain.crypto.sigS sig)), none⟩ with hstx
  have hlegacy : ∃ l, stx.inner = .legacy l := exists_legacy (by simpa [stx, Transaction.Type] using hty)
  obtain ⟨hprot, hcid⟩ := Protected_ChainId_legacy (some (c : ℤ)) V
    (beValue (PureChain.crypto.sigR sig)) (beValue (PureChain.crypto.sigS sig)) none hl
  rw [← hstx, isProtectedV_of_ge (by omega)] at hprot
  rw [← hstx, hV, deriveChainId_eip155 hid] at hcid
  refine ⟨stx, by rw [hst, WithSignature_eq hvals, hchain], hlegacy, hprot, hcid, ?_⟩
  -- recovery: the chain id matches, and `V - 2c - 8` is the Homestead `V`
  obtain ⟨l', hl'⟩ := hlegacy
  rw [Sender_legacy_protected hs hl' hprot, hcid, if_neg (by simp), hstx, Hash_copy_setSignatureValues]
  simp only [TxData.rawSignatureValues_setSignatureValues]
  have hback : V - 2 * c - 8 = ((sig.getD 64 0).toNat : ℤ) + 27 := by omega
  rw [hback]
  exact recoverPlain_of_Sign hinv hsign

/-- **An access-list transaction signed by the EIP-2930 signer** of any chain
id `c`, carrying no chain id or `c`, is protected, carries `c`, and its sender is
the key's address. -/
theorem Sender_SignTx_accessList (hinv : crypto.Inverse) {c : ℕ} {a : AccessListTx}
    (hl : tx.inner = .accessList a) (hch : a.ChainID.getD 0 = 0 ∨ a.ChainID.getD 0 = c) (k : κ) :
    ∃ stx, SignTx keccak256 crypto tx (.eip2930Signer c) k = .ok stx ∧
      (∃ a', stx.inner = .accessList a') ∧ stx.Protected = true ∧ stx.ChainId = c ∧
      (Signer.eip2930Signer c).Sender keccak256 crypto stx =
        .ok (PureChain.crypto.PubkeyToAddress keccak256 (crypto.FromECDSAPub k)) := by
  obtain ⟨sig, hsign, hst⟩ := SignTx_eq keccak256 hinv tx (.eip2930Signer c) k
  obtain ⟨hlen, -⟩ := hinv.sign_eq hsign
  have hvals := SignatureValues_accessList hl hch hlen
  set stx : Transaction := ⟨tx.inner.copy.setSignatureValues (some (c : ℤ)) (sig.getD 64 0).toNat
    (beValue (PureChain.crypto.sigR sig)) (beValue (PureChain.crypto.sigS sig)), none⟩ with hstx
  have hal : ∃ a', stx.inner = .accessList a' := by
    simp [stx, hl, TxData.copy, TxData.setSignatureValues]
  obtain ⟨a', ha'⟩ := hal
  have hcid : stx.ChainId = c := by
    rw [hstx, ChainId_accessList hl]
    rfl
  have hprot : stx.Protected = true := by simp [Transaction.Protected, ha']
  refine ⟨stx, by rw [hst, WithSignature_eq hvals]; rfl, ⟨a', ha'⟩, hprot, hcid, ?_⟩
  -- recovery: the chain id matches, and the recovery id is made a Homestead `V`
  rw [Sender_accessList ha', hcid, if_neg (by simp), hstx, Hash_copy_setSignatureValues]
  simp only [TxData.rawSignatureValues_setSignatureValues]
  exact recoverPlain_of_Sign hinv hsign

/-- **A legacy transaction signed for chain id `0`** gets a Homestead `V`, so it
is not protected, and its sender is recovered by the Homestead rules: from the
signature over the EIP-155 fields, but at the hash of the six legacy fields. -/
theorem Sender_SignTx_legacy_zero (hinv : crypto.Inverse) {s : Signer}
    (hs : s = .EIP155Signer 0 ∨ s = .eip2930Signer 0) (hty : tx.Type = LegacyTxType) (k : κ) :
    ∃ sig, crypto.Sign (rlpHash keccak256 (eip155Fields 0 tx)) k = .ok sig ∧
      ∃ stx, SignTx keccak256 crypto tx s k = .ok stx ∧ stx.Protected = false ∧
        s.Sender keccak256 crypto stx =
          recoverPlain keccak256 crypto (rlpHash keccak256 (txFields tx)) (beValue (PureChain.crypto.sigR sig))
            (beValue (PureChain.crypto.sigS sig)) ((sig.getD 64 0).toNat + 27) true := by
  obtain ⟨sig, hsign, hst⟩ := SignTx_eq keccak256 hinv tx s k
  rw [Hash_legacy hs hty] at hsign
  obtain ⟨hlen, hval⟩ := hinv.sign_eq hsign
  have hv01 := (PureChain.crypto.ValidateSignatureValues_eq_true.mp hval).2.2.2.2.2
  have hid : (sig.getD 64 0).toNat ≤ 1 := by rcases hv01 with h | h <;> rw [h] <;> decide
  -- chain id `0`: the `V` written is the Homestead one
  have hvals : s.SignatureValues tx sig = .ok (beValue (PureChain.crypto.sigR sig),
      beValue (PureChain.crypto.sigS sig), ((sig.getD 64 0).toNat : ℤ) + 27) := by
    rw [SignatureValues_legacy hs hty, EIP155Signer.SignatureValues_eq hty hlen, (recid_add hv01).1]
    simp
  obtain ⟨l, hl⟩ := exists_legacy hty
  obtain ⟨hprot, -⟩ := Protected_ChainId_legacy s.ChainID (((sig.getD 64 0).toNat : ℤ) + 27)
    (beValue (PureChain.crypto.sigR sig)) (beValue (PureChain.crypto.sigS sig)) none hl
  rw [isProtectedV_homestead hid] at hprot
  refine ⟨sig, hsign, _, by rw [hst, WithSignature_eq hvals], hprot, ?_⟩
  have htyS : (Transaction.mk (tx.inner.copy.setSignatureValues s.ChainID (((sig.getD 64 0).toNat : ℤ) + 27)
      (beValue (PureChain.crypto.sigR sig)) (beValue (PureChain.crypto.sigS sig))) none).Type = LegacyTxType := by
    simpa [Transaction.Type] using hty
  rw [Sender_legacy_unprotected hs htyS hprot, HomesteadSigner.Sender, if_neg (not_not.mpr htyS)]
  simp only [TxData.rawSignatureValues_setSignatureValues]
  rw [Hash_copy_setSignatureValues]
  rfl

end Signed

end Cases

/-! ### What the replay-protecting signers guarantee -/

section Guarantees

variable {κ : Type} (keccak256 : List UInt8 → PureChain.Hash) (crypto : PureChain.crypto.Secp256k1 κ)

/-- What signing with the key `k` guarantees under the replay-protecting
signers: a legacy transaction signed for a chain id `c ≠ 0`, and an access-list
transaction carrying no chain id or its own signed by the EIP-2930 signer of any
chain id, are protected, recovered to the key's address by the signer that
signed them, and refused with `ErrInvalidChainId` by a signer of another chain
id, whatever sender of another signer is cached; an unprotected legacy
transaction is recovered by the Homestead rules. -/
def SignerSpec (k : κ) : Prop :=
  (∀ (c : ℕ) (s : Signer) (tx : Transaction), c ≠ 0 → (s = .EIP155Signer c ∨ s = .eip2930Signer c) →
    tx.Type = LegacyTxType →
    ∃ stx, SignTx keccak256 crypto tx s k = .ok stx ∧ stx.Protected = true ∧
      s.Sender keccak256 crypto stx = .ok (PureChain.crypto.PubkeyToAddress keccak256 (crypto.FromECDSAPub k)) ∧
      ∀ (c' : ℕ) (s' : Signer) (cache : Option sigCache), c' ≠ c →
        (s' = .EIP155Signer c' ∨ s' = .eip2930Signer c') → (∀ sc ∈ cache, sc.signer ≠ s') →
        (Sender keccak256 crypto s' cache stx).1 = .error .ErrInvalidChainId) ∧
  (∀ (c : ℕ) (tx : Transaction) (a : AccessListTx), tx.inner = .accessList a →
    (a.ChainID.getD 0 = 0 ∨ a.ChainID.getD 0 = c) →
    ∃ stx, SignTx keccak256 crypto tx (.eip2930Signer c) k = .ok stx ∧ stx.Protected = true ∧
      (Signer.eip2930Signer c).Sender keccak256 crypto stx =
        .ok (PureChain.crypto.PubkeyToAddress keccak256 (crypto.FromECDSAPub k)) ∧
      ∀ (c' : ℕ) (cache : Option sigCache), c' ≠ c → (∀ sc ∈ cache, sc.signer ≠ .eip2930Signer c') →
        (Sender keccak256 crypto (.eip2930Signer c') cache stx).1 = .error .ErrInvalidChainId) ∧
  (∀ (c : ℕ) (tx : Transaction), tx.Type = LegacyTxType → tx.Protected = false →
    (Signer.EIP155Signer c).Sender keccak256 crypto tx = HomesteadSigner.Sender keccak256 crypto tx ∧
    (Signer.eip2930Signer c).Sender keccak256 crypto tx = HomesteadSigner.Sender keccak256 crypto tx)

theorem SignTx_Sender (hinv : crypto.Inverse) (k : κ) : SignerSpec keccak256 crypto k := by
  refine ⟨?legacy, ?accessList, ?unprotected⟩
  case legacy =>
    intro c s tx hc hs hty
    obtain ⟨stx, hst, ⟨l, hl⟩, hprot, hcid, hsend⟩ := Sender_SignTx_legacy hinv hc hs hty k
    refine ⟨stx, hst, hprot, hsend, ?_⟩
    intro c' s' cache hc' hs' hcache
    have hne : stx.ChainId ≠ c' := by
      rw [hcid]
      exact_mod_cast hc'.symm
    rw [Sender_of_not_Equal hcache, Sender_legacy_protected hs' hl hprot, if_pos hne]
  case accessList =>
    intro c tx a hl hch
    obtain ⟨stx, hst, ⟨a', ha'⟩, hprot, hcid, hsend⟩ := Sender_SignTx_accessList hinv hl hch k
    refine ⟨stx, hst, hprot, hsend, ?_⟩
    intro c' cache hc' hcache
    have hne : stx.ChainId ≠ c' := by
      rw [hcid]
      exact_mod_cast hc'.symm
    rw [Sender_of_not_Equal hcache, Sender_accessList ha', if_pos hne]
  case unprotected =>
    intro c tx hty hp
    exact ⟨Sender_legacy_unprotected (Or.inl rfl) hty hp, Sender_legacy_unprotected (Or.inr rfl) hty hp⟩

end Guarantees

/-! ### Chain id zero

A curve that satisfies the assumption, with the hash a byte of the length of
what is hashed: the EIP-155 signature of a legacy transaction for chain id `0`
covers nine fields, its recovery the six of Homestead, and the two hashes
differ. -/

/-- A signature that carries the first byte of the hash in `R`. -/
def toySig (h : PureChain.Hash) : List UInt8 :=
  List.replicate 30 (0 : UInt8) ++ ([1, h.bytes[0]] : List UInt8) ++ List.replicate 31 0 ++ [1, 0]

/-- One key, whose signatures recover only at the hash they were made for. -/
def toyCurve : PureChain.crypto.Secp256k1 Unit where
  Sign h _ := .ok (toySig h)
  Ecrecover h sig := if sig = toySig h then .ok (4 :: List.replicate 64 0) else .error "invalid signature"
  FromECDSAPub _ := 4 :: List.replicate 64 0

/-- A hash of thirty-two copies of the input's length. -/
def toyKeccak (bs : List UInt8) : PureChain.Hash := ⟨Vector.replicate 32 (UInt8.ofNat bs.length)⟩

theorem toySig_values (h : PureChain.Hash) :
    (toySig h).length = PureChain.crypto.SignatureLength ∧ (toySig h).getD 64 0 = 0 ∧
      beValue (PureChain.crypto.sigR (toySig h)) = 256 + h.bytes[0].toNat ∧
      beValue (PureChain.crypto.sigS (toySig h)) = 1 := by
  refine ⟨by simp [toySig, PureChain.crypto.SignatureLength], by simp [toySig], ?_, ?_⟩
  · simp [toySig, PureChain.crypto.sigR, beValue]
  · simp [toySig, PureChain.crypto.sigS, beValue]

theorem toyCurve_Inverse : toyCurve.Inverse where
  sign h _ := by
    obtain ⟨hlen, hv, hr, hs⟩ := toySig_values h
    have hbyte := UInt8.toNat_lt h.bytes[0]
    have hhalf : 512 ≤ PureChain.crypto.secp256k1halfN := by decide
    have hN : 512 ≤ PureChain.crypto.secp256k1N := by decide
    refine ⟨toySig h, rfl, hlen, ?_⟩
    rw [PureChain.crypto.ValidateSignatureValues_eq_true, hv, hr, hs]
    exact ⟨by omega, by omega, fun _ => by omega, by omega, by omega, Or.inl rfl⟩
  ecrecover h _ sig hs := by
    obtain rfl : toySig h = sig := Except.ok.inj hs
    simp [toyCurve]
  pub _ := rfl

/-- The zero legacy transaction. -/
def zeroTx : Transaction := ⟨.legacy ⟨0, none, 0, none, none, [], none, none, none⟩, none⟩

theorem toyKeccak_txFields_zeroTx : rlpHash toyKeccak (txFields zeroTx) = ⟨Vector.replicate 32 7⟩ := by
  simp [rlpHash, txFields, zeroTx, Codec.uint64, Codec.bigInt, Codec.nilPtr, Codec.bytes, copyBig,
    TxData.Nonce, TxData.GasPrice, TxData.Gas, TxData.To, TxData.Value, TxData.Data, Item.nat, emptyValue,
    toyKeccak, header]
  rfl

theorem toyKeccak_eip155Fields_zeroTx : rlpHash toyKeccak (eip155Fields 0 zeroTx) = ⟨Vector.replicate 32 10⟩ := by
  simp [rlpHash, eip155Fields, txFields, zeroTx, Codec.uint64, Codec.bigInt, Codec.nilPtr, Codec.bytes,
    copyBig, TxData.Nonce, TxData.GasPrice, TxData.Gas, TxData.To, TxData.Value, TxData.Data, Item.nat,
    emptyValue, toyKeccak, header]
  rfl

/-- Signed by the EIP-155 signer for chain id `0`, the zero transaction's sender
is not the key's address. -/
theorem SignTx_Sender_chainId_zero :
    toyCurve.Inverse ∧ ∃ stx, SignTx toyKeccak toyCurve zeroTx (.EIP155Signer 0) () = .ok stx ∧
      (Signer.EIP155Signer 0).Sender toyKeccak toyCurve stx ≠
        .ok (PureChain.crypto.PubkeyToAddress toyKeccak (toyCurve.FromECDSAPub ())) := by
  obtain ⟨sig, hsign, stx, hst, -, hsend⟩ :=
    Sender_SignTx_legacy_zero toyCurve_Inverse (Or.inl rfl) (by rfl : zeroTx.Type = LegacyTxType) ()
  refine ⟨toyCurve_Inverse, stx, hst, ?_⟩
  obtain ⟨hlen, hv⟩ := crypto.Secp256k1.Inverse.sign_eq toyCurve_Inverse hsign
  obtain rfl : toySig (rlpHash toyKeccak (eip155Fields 0 zeroTx)) = sig := Except.ok.inj hsign
  -- the signature was made at the nine-field hash, and is recovered at the six-field one
  have hne : toySig (rlpHash toyKeccak (eip155Fields 0 zeroTx)) ≠ toySig (rlpHash toyKeccak (txFields zeroTx)) := by
    rw [toyKeccak_eip155Fields_zeroTx, toyKeccak_txFields_zeroTx]
    decide
  rw [hsend, recoverPlain_of_valid hlen hv]
  simp [toyCurve, hne]

/-- The amended statement holds of the toy curve. -/
theorem SignTx_Sender_toy : toyCurve.Inverse ∧ SignerSpec toyKeccak toyCurve () :=
  ⟨toyCurve_Inverse, SignTx_Sender toyKeccak toyCurve toyCurve_Inverse ()⟩

end types

end PureChain
