import PureChain.Params.Config

/-!
# Transaction signers

`types.Signer` is an interface with four implementations in the repository,
told apart by the replay protection they apply; the two that carry a chain id
carry it as a field. `MakeSigner` picks the signer of a block from the fork
schedule.
-/

namespace PureChain

/-- The implementations of `types.Signer`. -/
inductive Signer where
  | FrontierSigner
  | HomesteadSigner
  | EIP155Signer (chainId : ℕ)
  /-- `eip2930Signer`, which embeds an `EIP155Signer` of the same chain id. -/
  | eip2930Signer (chainId : ℕ)
  deriving DecidableEq, Repr

/-- `NewEIP2930Signer`. -/
def NewEIP2930Signer (chainId : ℕ) : Signer := .eip2930Signer chainId

/-- `NewEIP155Signer`. -/
def NewEIP155Signer (chainId : ℕ) : Signer := .EIP155Signer chainId

/-- `MakeSigner`: the signer of the block at `blockNumber`. -/
def MakeSigner (config : ChainConfig) (blockNumber : ℕ) : Signer :=
  if config.IsBerlin blockNumber then NewEIP2930Signer config.ChainID
  else if config.IsEIP155 blockNumber then NewEIP155Signer config.ChainID
  else if config.IsHomestead blockNumber then .HomesteadSigner
  else .FrontierSigner

end PureChain
