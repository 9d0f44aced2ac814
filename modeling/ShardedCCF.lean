import ShardedCCF.Kv.Hooks
import ShardedCCF.Kv.Serialisability
import ShardedCCF.Aft.TxStatus
import ShardedCCF.Node.KeyAgreement
import ShardedCCF.Ds.Reassembly
import ShardedCCF.Rpc.Authentication
import ShardedCCF.Node.LedgerSecrets
import ShardedCCF.Node.ShareManager
import ShardedCCF.Indexing.Bucketed
import ShardedCCF.Node.PublicRecovery
import ShardedCCF.Node.StartupSnapshot
import ShardedCCF.Node.LedgerEncryption
import ShardedCCF.Node.HistoricalStores
import ShardedCCF.Node.HistoricalReceipts
import ShardedCCF.Aft.Progress
import ShardedCCF.Aft.Retirement
import ShardedCCF.Aft.Ranges
import ShardedCCF.Aft.Acceptance
import ShardedCCF.Aft.Election
import ShardedCCF.Gov.Consortium
import ShardedCCF.Gov.Majority
import ShardedCCF.Kv.Range
import ShardedCCF.Kv.Committable
import ShardedCCF.Kv.Validation
import ShardedCCF.Kv.Parsing
import ShardedCCF.Node.ChannelMessages
import ShardedCCF.Node.EntrySlices
import ShardedCCF.Ds.Numerals
import ShardedCCF.Ds.TaskQueue
import ShardedCCF.Ds.Serializer
import ShardedCCF.Aft.BatchSize
import ShardedCCF.Enclave.TlsEndpoint
