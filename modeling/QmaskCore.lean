import QmaskCore.Consensus.Moneu
import QmaskCore.Crypto.ArithUint256
import QmaskCore.Ledger.AllOrNothing
import QmaskCore.Ledger.Checkpoints
import QmaskCore.Ledger.Delivery
import QmaskCore.Ledger.FailedReorg
import QmaskCore.Ledger.Headers
import QmaskCore.Ledger.HeightTable
import QmaskCore.Ledger.Inverse
import QmaskCore.Ledger.Locator
import QmaskCore.Ledger.MedianTime
import QmaskCore.Ledger.MempoolSync
import QmaskCore.Ledger.Overwrites
import QmaskCore.Ledger.OwnBranch
import QmaskCore.Ledger.Supply
import QmaskCore.Ledger.TxIndex
import QmaskCore.Ledger.Verdict
import QmaskCore.Mempool.Assembly
import QmaskCore.Mempool.Limits
import QmaskCore.Mempool.Orphans
import QmaskCore.Mempool.Rejuvenation
import QmaskCore.Mempool.Restart
import QmaskCore.Mining.BlockBytes
import QmaskCore.Mining.MinedBlocks
import QmaskCore.Net.AddrTables
import QmaskCore.Net.AddrWire
import QmaskCore.Net.ConnectionSlots
import QmaskCore.Net.Downloads
import QmaskCore.Net.Internal
import QmaskCore.Net.Misbehavior
import QmaskCore.Net.SyncBound
import QmaskCore.Primitives.VerifySig
import QmaskCore.Rpc.Addresses
import QmaskCore.Rpc.Amounts
import QmaskCore.Rpc.AutoFee
import QmaskCore.Rpc.BasicAuth
import QmaskCore.Rpc.Connection
import QmaskCore.Rpc.Credentials
import QmaskCore.Rpc.Targets
import QmaskCore.Storage.CachedStore
import QmaskCore.Storage.FailedFlush
import QmaskCore.Storage.HighestLeaf
import QmaskCore.Storage.Records
import QmaskCore.Util.LockOrder
import QmaskCore.Validation.Completeness
import QmaskCore.Validation.MerkleList
import QmaskCore.Validation.Outputs
import QmaskCore.Validation.Reward
import QmaskCore.Wallet.AtRest
import QmaskCore.Wallet.LeafSync
import QmaskCore.Wallet.LeafUse
import QmaskCore.Wallet.NoiseTree
import QmaskCore.Wallet.Ownership
import QmaskCore.Wallet.ProofStream
