import Classzz.Lib.Ledger
import Classzz.Lib.Except
import Classzz.Lib.Run
import Classzz.Lib.BinaryHeap
import Classzz.Lib.Rlp
import Classzz.Rlp.Decode
import Classzz.Rlp.Encode
import Classzz.Rlp.RoundTrip
import Classzz.Lib.Sentinel
import Classzz.Trie.Trie
import Classzz.Trie.Lookup
import Classzz.Trie.Insert
import Classzz.Trie.Delete
import Classzz.Trie.MapSemantics
import Classzz.Lib.UndoLog
import Classzz.Common.Types
import Classzz.Trie.Canonical
import Classzz.Trie.Hasher
import Classzz.Core.Types.Receipt
import Classzz.Core.Types.Header
import Classzz.Core.Types.TransactionOrder
import Classzz.Core.State.StateDB
import Classzz.Core.State.Journal
import Classzz.Params.Config
import Classzz.Consensus.Misc.Eip1559
import Classzz.Consensus.Ethash.Consensus
import Classzz.Accounts.Abi.Reflect
import Classzz.Vm.TeWaka.Basic
import Classzz.Vm.TeWaka.State
import Classzz.Vm.TeWaka.Verify
import Classzz.Vm.TeWaka.Methods
import Classzz.Vm.TeWaka.Spec
import Classzz.Vm.TeWaka.CrossMap
import Classzz.Vm.TeWaka.RunStaking
import Classzz.Vm.TeWaka.Chain
import Classzz.Core.Genesis
import Classzz.Vm.TeWaka.Registry
import Classzz.Vm.TeWaka.Conversions
import Classzz.Core.BlockChain
import Classzz.Vm.Evm
import Classzz.Vm.TeWaka.Frame
import Classzz.Core.StateTransition
import Classzz.Core.StateProcessor
import Classzz.Core.State.Storage
import Classzz.Params.Protocol
import Classzz.Vm.SStore
import Classzz.Vm.Memory
import Classzz.Vm.GasTable
import Classzz.Vm.Interpreter
import Classzz.Vm.CallGas
import Classzz.Core.State.UpdateTrie
import Classzz.Lib.MapLoop
import Classzz.Lib.Bloom
import Classzz.Core.State.Snapshot.DiffLayer
import Classzz.Core.Rawdb.FreezerTable
import Classzz.Vm.TeWaka.Cache
import Classzz.Vm.TeWaka.HeapCache
import Classzz.Lib.InstrScan
import Classzz.Vm.Analysis
import Classzz.Lib.ExchangeSort
import Classzz.Core.Forkid
import Classzz.Core.Rawdb.FreezerRepair
import Classzz.Core.Rawdb.Freezer
import Classzz.Core.TxPool.TruncateQueue
import Classzz.Core.TxPool.TruncatePending
import Classzz.P2p.Netutil.Net
import Classzz.P2p.Discover.Table
import Classzz.P2p.Discover.WellFormed
import Classzz.Lib.KeyOrder
import Classzz.Rlp.Raw
import Classzz.Trie.StackTrie
import Classzz.Trie.StackTrieRefines
import Classzz.Core.Types.Hashing
import Classzz.Common.Bitutil.Compress
import Classzz.Common.Bitutil.RoundTrip
import Classzz.Lib.BinaryHeapSift
import Classzz.Lib.Paged
import Classzz.Lib.HeapInterface
import Classzz.Common.Prque.Sstack
import Classzz.Common.Prque.Prque
import Classzz.Common.Prque.LazyQueue
import Classzz.Les.Flowcontrol.Control
import Classzz.Consensus.Clique.Snapshot
import Classzz.Core.TxList
import Classzz.Les.Flowcontrol.Manager
import Classzz.Les.Flowcontrol.Session
import Classzz.Lib.Search
import Classzz.Trie.Encoding
import Classzz.P2p.Discover.NodesByDistance
import Classzz.Common.Hexutil
import Classzz.Lib.KeyStream
import Classzz.Rlp.Split
import Classzz.P2p.Rlpx.Frame
import Classzz.Lib.PositionIndex
import Classzz.Common.Prque.Tracked
import Classzz.Les.Flowcontrol.Recharge
import Classzz.Les.Flowcontrol.RechargeInv
import Classzz.Les.Flowcontrol.Server
import Classzz.Les.Flowcontrol.ServerInv
