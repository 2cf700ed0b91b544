import PureChain.Core.Types.Header
import PureChain.Params.Config

/-!
# What the consensus engines read of the chain

`consensus.ChainHeaderReader` is the interface through which an engine looks up
headers it has not been handed; here it is a record of lookup functions. The
header chain of the node files every header under its number as well as its hash,
so a reader that has no block zero has no header at height zero at all: the
record carries that as a field, and it is what lets the snapshot walk of the Dpos
engine end at block zero (see `PureChain.Dpos.walkChain`).

`consensus.SystemAddress` is the account where the transaction fees of a block
are collected before the engine hands them on.

`misc.VerifyForkHashes` is the check both engines make of the header at the
EIP-150 block against the hash the configuration pins.
-/

namespace PureChain

/-- `consensus.SystemAddress`, `0xffff…fffe`: the account the block's fees are
collected in. -/
def SystemAddress : Address := ⟨Vector.ofFn fun i => if i.val = 19 then 0xfe else 0xff⟩

/-- `consensus.ChainHeaderReader`: the configuration and the header lookups. -/
structure ChainHeaderReader where
  Config : ChainConfig
  /-- `GetHeader(hash, number)`: the header with that hash at that height. -/
  GetHeader : Hash → UInt64 → Option Header
  /-- `GetHeaderByNumber(number)`: the canonical header at that height. -/
  GetHeaderByNumber : UInt64 → Option Header
  getHeader_zero : GetHeaderByNumber 0 = none → ∀ hash, GetHeader hash 0 = none

/-- `hdr 0, hdr 1, …` is a chain of headers: each at its own height, each the
child of the one before. -/
structure IsHeaderChain (keccak256 : List UInt8 → Hash) (hdr : ℕ → Header) : Prop where
  number : ∀ i, (hdr i).Number = i
  parent : ∀ i, (hdr (i + 1)).ParentHash = (hdr i).Hash keccak256

theorem IsHeaderChain.number_succ {keccak256 : List UInt8 → Hash} {hdr : ℕ → Header}
    (h : IsHeaderChain keccak256 hdr) (i : ℕ) : (hdr (i + 1)).number = (hdr i).number + 1 := by
  rw [Header.number, Header.number, h.number, h.number, UInt64.ofNat_add]
  rfl

namespace ChainHeaderReader

/-- The reader of a node whose database holds the headers `hdr 0, …, hdr N`,
each filed under its height and its hash. -/
def ofHeaders (config : ChainConfig) (keccak256 : List UInt8 → Hash) (hdr : ℕ → Header) (N : ℕ) :
    ChainHeaderReader where
  Config := config
  GetHeader hash number :=
    if number.toNat ≤ N ∧ (hdr number.toNat).Hash keccak256 = hash then some (hdr number.toNat)
    else none
  GetHeaderByNumber number := if number.toNat ≤ N then some (hdr number.toNat) else none
  getHeader_zero h := by simp at h

variable {config : ChainConfig} {keccak256 : List UInt8 → Hash} {hdr : ℕ → Header} {N : ℕ}

theorem ofHeaders_getHeader {n : ℕ} (hn : n ≤ N) (hN : N < 2 ^ 64) :
    (ofHeaders config keccak256 hdr N).GetHeader ((hdr n).Hash keccak256) (UInt64.ofNat n) =
      some (hdr n) := by
  have hnat : (UInt64.ofNat n).toNat = n := by
    rw [UInt64.toNat_ofNat', Nat.mod_eq_of_lt (by omega)]
  simp only [ofHeaders, hnat, hn, true_and, if_true]

theorem ofHeaders_getHeaderByNumber_zero :
    (ofHeaders config keccak256 hdr N).GetHeaderByNumber 0 = some (hdr 0) := by
  simp [ofHeaders]

end ChainHeaderReader

/-- `misc.VerifyForkHashes`, outside uncles: at the EIP-150 block, a nonzero
`EIP150Hash` must be the header's hash. The error carries the two hashes the
message prints. -/
def VerifyForkHashes (keccak256 : List UInt8 → Hash) (config : ChainConfig) (header : Header)
    (uncle : Bool) : Except (Hash × Hash) Unit :=
  if uncle then pure ()
  else if config.EIP150Block = some header.Number ∧ config.EIP150Hash ≠ Hash.zero ∧
      config.EIP150Hash ≠ header.Hash keccak256 then
    throw (header.Hash keccak256, config.EIP150Hash)
  else pure ()

/-- With no pinned hash the check passes, whatever the header. -/
theorem verifyForkHashes_of_eip150Hash_zero (keccak256 : List UInt8 → Hash) {config : ChainConfig}
    (h : config.EIP150Hash = Hash.zero) (header : Header) (uncle : Bool) :
    VerifyForkHashes keccak256 config header uncle = .ok () := by
  unfold VerifyForkHashes
  split_ifs with hu hfork
  · rfl
  · exact absurd h hfork.2.1
  · rfl

end PureChain
