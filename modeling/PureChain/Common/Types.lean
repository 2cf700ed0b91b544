import Mathlib

/-!
# Fixed-size byte values of package `common`

The chain's addresses and hashes are Go arrays, `[20]byte` and `[32]byte`; the
block nonce and the log bloom are `[8]byte` and `[256]byte`. Each is a vector of
bytes of its own length here, so that a value of the wrong size cannot be built,
and the Go zero value (`common.Address{}`, `common.Hash{}`) is the all-zero
vector.

Addresses are ordered as `bytes.Compare` orders them – lexicographically on the
bytes – since the validator set is sorted that way before it is indexed.

A slice is copied into an array with Go's `copy`, which stops at the shorter of
the two and leaves the rest of the array as it was: `Address.copyFrom` reads the
first twenty bytes of a slice and pads a short one with zeros.
-/

namespace PureChain

/-- `common.Address`: the twenty bytes of an account. -/
structure Address where
  /-- The bytes, most significant first. -/
  bytes : Vector UInt8 20
  deriving DecidableEq, Repr

/-- `common.Hash`: a 32-byte Keccak digest. -/
structure Hash where
  /-- The bytes, most significant first. -/
  bytes : Vector UInt8 32
  deriving DecidableEq, Repr

/-- `types.BlockNonce`: eight bytes. -/
abbrev BlockNonce := Vector UInt8 8

/-- `types.Bloom`: the 256-byte log bloom. -/
abbrev Bloom := Vector UInt8 256

namespace Address

/-- The zero address `common.Address{}`. -/
def zero : Address := ⟨Vector.replicate 20 0⟩

instance : Inhabited Address := ⟨zero⟩

/-- `common.BigToAddress`: the low twenty bytes of a number, most significant
first; `HexToAddress` of a hex numeral is this of its value. -/
def ofNat (n : ℕ) : Address := ⟨Vector.ofFn fun k => UInt8.ofNat (n / 256 ^ (19 - k.val) % 256)⟩

/-- `copy(a[:], bs)` into a fresh address: the first twenty bytes of `bs`, zeros
where `bs` is shorter. -/
def copyFrom (bs : List UInt8) : Address := ⟨Vector.ofFn fun i => bs.getD i 0⟩

/-- Copying an address's own bytes, followed by anything, gives it back. -/
theorem copyFrom_append (a : Address) (rest : List UInt8) :
    copyFrom (a.bytes.toList ++ rest) = a := by
  obtain ⟨bytes⟩ := a
  rw [copyFrom, Address.mk.injEq]
  apply Vector.ext
  intro i hi
  rw [Vector.getElem_ofFn, List.getD_eq_getElem?_getD,
    List.getElem?_append_left (by simpa using hi), Vector.getElem?_toList,
    Vector.getElem?_eq_getElem hi, Option.getD_some]

theorem copyFrom_bytes (a : Address) : copyFrom a.bytes.toList = a := by
  simpa using copyFrom_append a []

/-- `copy` reads no more than twenty bytes. -/
theorem copyFrom_take (bs : List UInt8) : copyFrom (bs.take 20) = copyFrom bs := by
  rw [copyFrom, copyFrom, Address.mk.injEq]
  apply Vector.ext
  intro i hi
  rw [Vector.getElem_ofFn, Vector.getElem_ofFn, List.getD_eq_getElem?_getD,
    List.getD_eq_getElem?_getD, List.getElem?_take_of_lt hi]

theorem toList_injective :
    Function.Injective fun a : Address => a.bytes.toList.map UInt8.toNat := by
  rintro ⟨a⟩ ⟨b⟩ h
  have hl : a.toList = b.toList :=
    List.map_injective_iff.mpr (fun x y hxy => UInt8.toNat_inj.mp hxy) h
  rw [Address.mk.injEq]
  exact Vector.toList_inj.mp hl

/-- Addresses in the order of `bytes.Compare`: lexicographic on the bytes. -/
instance : LinearOrder Address :=
  LinearOrder.lift' (fun a : Address => a.bytes.toList.map UInt8.toNat) toList_injective

end Address

namespace Hash

/-- The zero hash `common.Hash{}`. -/
def zero : Hash := ⟨Vector.replicate 32 0⟩

instance : Inhabited Hash := ⟨zero⟩

/-- `common.BytesToHash`, which is `SetBytes`: the last thirty-two bytes of a
slice, right-aligned, with zeros in front of a shorter one. -/
def BytesToHash (b : List UInt8) : Hash :=
  ⟨Vector.ofFn fun i => (List.replicate (32 - b.length) 0 ++ b.drop (b.length - 32)).getD i 0⟩

/-- A hash's own bytes give it back. -/
theorem BytesToHash_bytes (h : Hash) : BytesToHash h.bytes.toList = h := by
  obtain ⟨bytes⟩ := h
  rw [BytesToHash, Hash.mk.injEq]
  apply Vector.ext
  intro i hi
  simp [List.getD_eq_getElem?_getD]

/-- An empty slice gives the zero hash. -/
theorem BytesToHash_nil : BytesToHash [] = zero := by
  rw [BytesToHash, zero, Hash.mk.injEq]
  apply Vector.ext
  intro i hi
  simp only [Vector.getElem_ofFn, Vector.getElem_replicate, List.length_nil, List.drop_nil,
    List.append_nil, List.getD_eq_getElem?_getD, List.getElem?_replicate]
  simp [hi]

end Hash

/-- `types.EncodeNonce`: the eight big-endian bytes of a 64-bit integer. -/
def encodeNonce (i : UInt64) : BlockNonce :=
  Vector.ofFn fun k => UInt8.ofNat (i.toNat / 256 ^ (7 - k.val) % 256)

end PureChain
