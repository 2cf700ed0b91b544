import PureChain.Lib.Rlp
import PureChain.Lib.Except
import PureChain.Lib.Ledger
import PureChain.Lib.Roulette
import PureChain.Lib.ModArith
import PureChain.Lib.Run
import PureChain.Lib.Merkle
import PureChain.Lib.File
import PureChain.Lib.Heap
import PureChain.Lib.HeapOrder
import PureChain.Lib.HeapSlice
import PureChain.Lib.PrefixFree
import PureChain.Rlp.Encode
import PureChain.Rlp.Raw
import PureChain.Rlp.Stream
import PureChain.Rlp.Typed
import PureChain.Rlp.Int
import PureChain.Rlp.Output
import PureChain.Common.Types
import PureChain.Common.Hexutil
import PureChain.Common.Prque
import PureChain.Core.Types.Header
import PureChain.Core.Types.Transaction
import PureChain.Core.Types.HeaderJson
import PureChain.Core.Types.TxCodec
import PureChain.Core.Types.Signature
import PureChain.Core.Vm.Memory
import PureChain.Core.Vm.Analysis
import PureChain.Core.Vm.Contracts
import PureChain.Core.TxList
import PureChain.Core.AccountTxList
import PureChain.Core.TxPricedList
import PureChain.Core.TxPool
import PureChain.Core.Rawdb.FreezerTable
import PureChain.Core.Rawdb.FreezerRepair
import PureChain.Core.State.StateDB
import PureChain.Core.State.StateObject
import PureChain.Core.State.Journal
import PureChain.Core.State.Erase
import PureChain.Core.State.CreateAccount
import PureChain.Core.State.Snapshot.Account
import PureChain.Core.StateProcessor
import PureChain.Core.BlockValidator
import PureChain.Miner.Worker
import PureChain.Miner.Por
import PureChain.Consensus.Dpos.Snapshot
import PureChain.Consensus.Dpos.Window
import PureChain.Consensus.Dpos.Verify
import PureChain.Consensus.Dpos.ExtraData
import PureChain.Consensus.Dpos.BackOff
import PureChain.Consensus.Dpos.Provider
import PureChain.Consensus.Dpos.Seal
import PureChain.Consensus.Dpos.SealHash
import PureChain.Consensus.Dpos.PreHandle
import PureChain.Consensus.Dpos.Reward
import PureChain.Consensus.Dpos.RewardSchedule
import PureChain.Consensus.Dpos.PoSA
import PureChain.Consensus.Dpos.Process
import PureChain.Consensus.Inihash.Consensus
import PureChain.Consensus.Inihash.VerifyHeaders
import PureChain.Crypto.VersaHash
import PureChain.Crypto.Schnorr
import PureChain.Consensus.Inihash.Sealer
import PureChain.Internal.Ethapi.Api
import PureChain.Eth.Fetcher.TxFetcher
import PureChain.Trie.Encoding
import PureChain.Trie.Trie
import PureChain.Trie.Map
import PureChain.Trie.Update
import PureChain.Trie.Hash
import PureChain.Trie.Decode
import PureChain.Trie.Database
import PureChain.Trie.Backed
import PureChain.Trie.Committer
