import Bgmchain.Core.LongestChain
import Bgmchain.Core.Finality
import Bgmchain.Core.HeaderImport
import Bgmchain.Consensus.Dpos.FirstBlock
import Bgmchain.Core.Types.Signing
import Bgmchain.Core.CanonicalHeaders
import Bgmchain.Core.Crash
import Bgmchain.Core.Producers
import Bgmchain.Core.ReceiptSafety
import Bgmchain.Trie.Authentic
import Bgmchain.Trie.Proof
import Bgmchain.Downloader.ContextSync
import Bgmchain.Core.State.SyncState
import Bgmchain.Core.Vm.Memory
import Bgmchain.Downloader.StateSync
import Bgmchain.Core.State.Reverted
import Bgmchain.Consensus.Dpos.KickoutRules
import Bgmchain.Consensus.Dpos.Weights
import Bgmchain.Core.TxPool
import Bgmchain.Core.Types.Snapshot
import Bgmchain.Core.Vm.Analysis
import Bgmchain.Core.Types.Bloom
import Bgmchain.Les.FlowControl
import Bgmchain.P2p.Buckets
import Bgmchain.Trie.Views
