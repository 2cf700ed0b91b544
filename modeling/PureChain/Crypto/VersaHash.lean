import PureChain.Lib.Rlp
import PureChain.Lib.Except

/-!
# The proof-of-work digest `versaHash.VersaHash`

`VersaHash(data, nonce, extraNonce)` hashes the seal hash and the two nonces
with SHA-256, derives a secp256k1 private key from the digest by hashing it
again, signs a third digest with that key (a BIP-340 style Schnorr signature),
and returns the byte-reversed SHA-256 of the signature: a 32-byte digest.

`Sign` refuses a key outside `1 … n-1`, where `n` is the order of secp256k1.
`VersaHash` then swallows the error and returns the **empty** byte string
(`VersaHash_of_key_out_of_range`), which `big.Int.SetBytes` reads as zero, the
smallest value a target can be compared with. On every key in range, the digest
has its 32 bytes (`length_VersaHash_of_key_in_range`).

SHA-256 and the signature proper (the RFC 6979 nonce and the curve arithmetic)
are not code of this repository: they are the parameters `sha256` and `schnorr`.
-/

namespace PureChain

namespace versaHash

open Rlp

/-- `Curve.N`, the order of the group of secp256k1. -/
def CurveN : ℕ := 0xFFFFFFFFFFFFFFFFFFFFFFFFFFFFFFFEBAAEDCE6AF48A03BBFD25E8CD0364141

variable (sha256 : List UInt8 → Vector UInt8 32) (schnorr : ℕ → Vector UInt8 32 → Vector UInt8 64)

/-- `Sign`: a key outside `1 … n-1` is an error; inside, the signature. -/
def Sign (privateKey : ℕ) (message : Vector UInt8 32) : Except String (Vector UInt8 64) :=
  if privateKey < 1 ∨ privateKey > CurveN - 1 then
    throw "the private key must be an integer in the range 1..n-1"
  else pure (schnorr privateKey message)

/-- The bytes `VersaHash` hashes first: the data, one byte for the length of the
two nonces – `byte(…)`, so modulo 256 – and the nonces. -/
def versaData (data nonce extraNonce : List UInt8) : List UInt8 :=
  data ++ [UInt8.ofNat (nonce.length + extraNonce.length)] ++ nonce ++ extraNonce

/-- The private key `VersaHash` signs with: the big-endian value of the SHA-256 of
the SHA-256 of its data. -/
def versaKey (data nonce extraNonce : List UInt8) : ℕ :=
  beValue (sha256 (sha256 (versaData data nonce extraNonce)).toList).toList

/-- `VersaHash`. A failed signature gives `make([]byte, 0)`. -/
def VersaHash (data nonce extraNonce : List UInt8) : List UInt8 :=
  let firsthash := sha256 (versaData data nonce extraNonce)
  let keyHash := sha256 firsthash.toList
  let key := beValue keyHash.toList
  let signDataHash := sha256 keyHash.toList
  match Sign schnorr key signDataHash with
  | .error _ => []
  | .ok signRet => (sha256 signRet.toList).toList.reverse

variable {sha256 schnorr} {data nonce extraNonce : List UInt8}

/-- The range check of `Sign`, once for both of its outcomes. -/
theorem Sign_of_out_of_range {privateKey : ℕ} {message : Vector UInt8 32}
    (h : privateKey = 0 ∨ CurveN ≤ privateKey) :
    Sign schnorr privateKey message =
      throw "the private key must be an integer in the range 1..n-1" := by
  have hn : 1 ≤ CurveN := by decide
  exact if_pos (by omega)

theorem Sign_of_in_range {privateKey : ℕ} {message : Vector UInt8 32}
    (h : 1 ≤ privateKey ∧ privateKey ≤ CurveN - 1) :
    Sign schnorr privateKey message = pure (schnorr privateKey message) :=
  if_neg (by omega)

/-- **A key out of range gives the empty digest.** -/
theorem VersaHash_of_key_out_of_range
    (hkey : versaKey sha256 data nonce extraNonce = 0 ∨ CurveN ≤ versaKey sha256 data nonce extraNonce) :
    VersaHash sha256 schnorr data nonce extraNonce = [] := by
  dsimp only [VersaHash]
  unfold versaKey at hkey
  -- the signature fails, and the error branch is the empty slice
  rw [Sign_of_out_of_range hkey]
  rfl

/-- On a key in range the digest is a genuine one, of 32 bytes. -/
theorem length_VersaHash_of_key_in_range
    (hkey : 1 ≤ versaKey sha256 data nonce extraNonce ∧
      versaKey sha256 data nonce extraNonce ≤ CurveN - 1) :
    (VersaHash sha256 schnorr data nonce extraNonce).length = 32 := by
  dsimp only [VersaHash]
  unfold versaKey at hkey
  rw [Sign_of_in_range hkey]
  simp [pure, Except.pure]

/-- The empty digest is the value zero. -/
@[simp] theorem beValue_nil : beValue [] = 0 := rfl

end versaHash

end PureChain
