import PureChain.Common.Types

/-!
# The chain configuration of package `params`

`params.ChainConfig`, with the fields the modelled code reads. A fork block is a
`*big.Int` that is `nil` when the fork is never scheduled: it is an `Option ℕ`
here, and `isForked` is the code's comparison against a block number, which is
never `nil` at the call sites modelled.

The three networks the repository ships (`MainnetChainConfig`,
`TestnetChainConfig`, `DevnetChainConfig`) differ only in their chain id; their
`EIP150Hash` is commented out in the source, so it is the zero hash.
-/

namespace PureChain

/-- `params.ChainConfig`, the fork schedule and the chain id. -/
structure ChainConfig where
  ChainID : ℕ
  HomesteadBlock : Option ℕ
  EIP150Block : Option ℕ
  EIP150Hash : Hash
  EIP155Block : Option ℕ
  EIP158Block : Option ℕ
  ByzantiumBlock : Option ℕ
  BerlinBlock : Option ℕ
  YoloV3Block : Option ℕ
  RamanujanBlock : Option ℕ
  RedCoastBlock : Option ℕ

/-- `isForked`: a fork scheduled at `s` is active at `head`. -/
def isForked (s : Option ℕ) (head : ℕ) : Bool :=
  match s with
  | none => false
  | some s => decide (s ≤ head)

@[simp] theorem isForked_none (head : ℕ) : isForked none head = false := rfl

@[simp] theorem isForked_some (s head : ℕ) : isForked (some s) head = decide (s ≤ head) := rfl

namespace ChainConfig

variable (c : ChainConfig)

def IsHomestead (num : ℕ) : Bool := isForked c.HomesteadBlock num

def IsEIP155 (num : ℕ) : Bool := isForked c.EIP155Block num

def IsEIP158 (num : ℕ) : Bool := isForked c.EIP158Block num

def IsByzantium (num : ℕ) : Bool := isForked c.ByzantiumBlock num

/-- `IsBerlin`: Berlin, or the YOLO v3 test fork that preceded it. -/
def IsBerlin (num : ℕ) : Bool := isForked c.BerlinBlock num || isForked c.YoloV3Block num

def IsRamanujan (num : ℕ) : Bool := isForked c.RamanujanBlock num

def IsRedCoast (num : ℕ) : Bool := isForked c.RedCoastBlock num

end ChainConfig

/-- `params.GasLimitBoundDivisor`: a block may move the gas limit of its parent
by less than this fraction of it. -/
def GasLimitBoundDivisor : UInt64 := 256

/-- `params.MinGasLimit`. -/
def MinGasLimit : UInt64 := 5000

/-- `params.SystemTxsGas`: the gas the miner keeps back for system transactions. -/
def SystemTxsGas : UInt64 := 500000

/-- `params.MaximumExtraDataSize`: the extra-data a proof-of-work header may carry. -/
def MaximumExtraDataSize : UInt64 := 32

/-- `params.DifficultyBoundDivisor`: the step of a difficulty update is this
fraction of the parent's difficulty. -/
def DifficultyBoundDivisor : ℤ := 12288

/-- `params.MinimumDifficulty`. -/
def MinimumDifficulty : ℤ := 50000000

/-- The fork schedule the three shipped networks share, for a chain id. -/
def shippedChainConfig (chainID : ℕ) : ChainConfig where
  ChainID := chainID
  HomesteadBlock := some 0
  EIP150Block := some 0
  EIP150Hash := Hash.zero
  EIP155Block := some 0
  EIP158Block := some 0
  ByzantiumBlock := some 0
  BerlinBlock := some 4
  YoloV3Block := none
  RamanujanBlock := some 0
  RedCoastBlock := some 22222222220

/-- `MainnetChainConfig`. -/
def MainnetChainConfig : ChainConfig := shippedChainConfig 7233

/-- `TestnetChainConfig`. -/
def TestnetChainConfig : ChainConfig := shippedChainConfig 7234

/-- `DevnetChainConfig`. -/
def DevnetChainConfig : ChainConfig := shippedChainConfig 7235

end PureChain
