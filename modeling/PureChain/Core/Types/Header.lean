import PureChain.Lib.Rlp
import PureChain.Common.Types
import Mathlib

/-!
# Block headers

`types.Header` as this fork declares it: the twenty fields of go-ethereum's
header and of its own `Provider`, `TeamAddress`, `ValidatorRate`, `TeamRate` and
`ExtraNonce`, in the order of the Go struct, which is the order of its RLP
encoding and hence of its hash.

Two modelling decisions are made once here.

* The big integers `Difficulty` and `Number` are natural numbers. A header that
  comes out of RLP decoding carries neither a nil nor a negative one, and the
  code reads `Number` through `Number.Uint64()`, which keeps its low 64 bits
  (`Header.number`).
* `Extra` is a Go byte slice, whose length is an `int`: the structure carries
  `len(Extra) < 2^63`, so that counts derived from it (such as the number of
  validators an epoch header lists) fit in an `int` as they do in Go.

The Keccak-256 hash is not code of this repository (it is
`golang.org/x/crypto/sha3`); it is a parameter `keccak256` wherever a hash is
taken. `Header.Hash` is `rlpHash(h)`: Keccak-256 of the RLP of the whole struct.
-/

namespace PureChain

open Rlp

/-- `types.Header`. -/
structure Header where
  ParentHash : Hash
  UncleHash : Hash
  Coinbase : Address
  Root : Hash
  TxHash : Hash
  ReceiptHash : Hash
  Bloom : Bloom
  Difficulty : ℕ
  Number : ℕ
  GasLimit : UInt64
  GasUsed : UInt64
  Time : UInt64
  Extra : List UInt8
  MixDigest : Hash
  Provider : Address
  TeamAddress : Address
  ValidatorRate : UInt64
  TeamRate : UInt64
  Nonce : BlockNonce
  ExtraNonce : BlockNonce
  /-- `len(Extra)` is a Go `int`. -/
  extra_len_lt : Extra.length < 2 ^ 63
  deriving DecidableEq

namespace Header

/-- The header whose fields are all zero, the extra-data empty. -/
def zero : Header where
  ParentHash := Hash.zero
  UncleHash := Hash.zero
  Coinbase := Address.zero
  Root := Hash.zero
  TxHash := Hash.zero
  ReceiptHash := Hash.zero
  Bloom := Vector.replicate 256 0
  Difficulty := 0
  Number := 0
  GasLimit := 0
  GasUsed := 0
  Time := 0
  Extra := []
  MixDigest := Hash.zero
  Provider := Address.zero
  TeamAddress := Address.zero
  ValidatorRate := 0
  TeamRate := 0
  Nonce := Vector.replicate 8 0
  ExtraNonce := Vector.replicate 8 0
  extra_len_lt := by simp

/-- `header.Number.Uint64()`: the low 64 bits of the block number. -/
def number (h : Header) : UInt64 := UInt64.ofNat h.Number

/-- `headerSize`, `reflect.TypeOf(Header{}).Size()` on a 64-bit platform: the
bytes of the fields, with four bytes of padding before the pointer `Difficulty`. -/
def headerSize : ℕ := 608

/-- `Header.Size`, the approximate memory a header takes: a `StorageSize`, a
float, which is exact on every integer below `2^53`. -/
def Size (h : Header) : ℕ := headerSize + (h.Extra.length + (h.Difficulty.size + h.Number.size) / 8)

/-! ### The RLP of a header -/

/-- A hash as an RLP item: its 32 bytes. -/
def hashItem (x : Hash) : Item := .str x.bytes.toList

/-- An address as an RLP item: its 20 bytes. -/
def addressItem (a : Address) : Item := .str a.bytes.toList

/-- A `uint64` as an RLP item: its minimal big-endian bytes. -/
def u64Item (x : UInt64) : Item := .nat x.toNat

/-- The RLP item of the whole header: the list of its fields in struct order. -/
def rlpItem (h : Header) : Item :=
  .list [hashItem h.ParentHash, hashItem h.UncleHash, addressItem h.Coinbase,
    hashItem h.Root, hashItem h.TxHash, hashItem h.ReceiptHash, .str h.Bloom.toList,
    .nat h.Difficulty, .nat h.Number, u64Item h.GasLimit, u64Item h.GasUsed,
    u64Item h.Time, .str h.Extra, hashItem h.MixDigest, addressItem h.Provider,
    addressItem h.TeamAddress, u64Item h.ValidatorRate, u64Item h.TeamRate,
    .str h.Nonce.toList, .str h.ExtraNonce.toList]

/-- `Header.Hash`: Keccak-256 of the RLP of the header. -/
def Hash (keccak256 : List UInt8 → PureChain.Hash) (h : Header) : PureChain.Hash :=
  keccak256 h.rlpItem.encode

/-! ### Sizes of the fields' items -/

theorem length_hashItem_le (x : PureChain.Hash) : (hashItem x).encode.length ≤ 41 := by
  have := @length_encode_str_le x.bytes.toList (by simp)
  simpa [hashItem, addressItem] using this

theorem length_addressItem_le (a : Address) : (addressItem a).encode.length ≤ 29 := by
  have := @length_encode_str_le a.bytes.toList (by simp)
  simpa [hashItem, addressItem] using this

theorem length_u64Item_le (x : UInt64) : (u64Item x).encode.length ≤ 17 :=
  length_encode_nat_le (k := 8) (by have := x.toNat_lt; omega) (by omega)

/-! ### The RLP of a header determines the header -/

@[simp] theorem hashItem_inj {x y : PureChain.Hash} : hashItem x = hashItem y ↔ x = y := by
  obtain ⟨x⟩ := x
  obtain ⟨y⟩ := y
  simp [hashItem, Vector.toList_inj]

@[simp] theorem addressItem_inj {a b : Address} : addressItem a = addressItem b ↔ a = b := by
  obtain ⟨a⟩ := a
  obtain ⟨b⟩ := b
  simp [addressItem, Vector.toList_inj]

@[simp] theorem u64Item_inj {x y : UInt64} : u64Item x = u64Item y ↔ x = y := by
  simp [u64Item, UInt64.toNat_inj]

/-- Every field is an item of its own in the header's tree. -/
theorem rlpItem_injective : Function.Injective rlpItem := by
  intro h1 h2 h
  cases h1
  cases h2
  simp only [rlpItem, Item.list.injEq, List.cons.injEq, hashItem_inj, addressItem_inj,
    u64Item_inj, Item.nat_inj, Item.str.injEq, Vector.toList_inj, and_true] at h
  simpa only [Header.mk.injEq] using h

/-- **The bytes a header is hashed over determine it**, for headers whose
encoding is shorter than `2^64` bytes. -/
theorem rlp_encode_injective {h1 h2 : Header} (hb1 : h1.rlpItem.encode.length < 2 ^ 64)
    (hb2 : h2.rlpItem.encode.length < 2 ^ 64) (h : h1.rlpItem.encode = h2.rlpItem.encode) :
    h1 = h2 :=
  rlpItem_injective (Item.encode_injective hb1 hb2 h)

end Header

end PureChain
