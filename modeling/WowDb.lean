import WowDb.Compute.BitmaskFilter
import WowDb.Compute.Cohort
import WowDb.Compute.Funnel
import WowDb.Compute.HashJoin
import WowDb.Compute.HashShuffle
import WowDb.Compute.MvRefresh
import WowDb.Compute.PathAnalysis
import WowDb.Compute.RuntimeFilter
import WowDb.Compute.Sessionize
import WowDb.Compute.Sort
import WowDb.Compute.VectorizedAgg
import WowDb.Lib.AtomicCommit
import WowDb.Lib.BufWriter
import WowDb.Lib.Bytes
import WowDb.Lib.Calendar
import WowDb.Lib.CaseMapping
import WowDb.Lib.Comparators
import WowDb.Lib.Crc32
import WowDb.Lib.F64
import WowDb.Lib.Framing
import WowDb.Lib.Granules
import WowDb.Lib.Int64
import WowDb.Lib.Interval
import WowDb.Lib.Join
import WowDb.Lib.Json
import WowDb.Lib.KeyedSummary
import WowDb.Lib.LinkedMap
import WowDb.Lib.Lz4
import WowDb.Lib.OrdMap
import WowDb.Lib.Quoted
import WowDb.Lib.RoundRobin
import WowDb.Lib.Run
import WowDb.Lib.Serde
import WowDb.Lib.Subsequence
import WowDb.Lib.Text
import WowDb.Query.Analytics
import WowDb.Query.AsyncInsert
import WowDb.Query.BtRegistry
import WowDb.Query.Cluster
import WowDb.Query.ClusterGuard
import WowDb.Query.CohortAnalysis
import WowDb.Query.ColocateGroups
import WowDb.Query.CubeMeta
import WowDb.Query.Datetime
import WowDb.Query.DiskMonitor
import WowDb.Query.GlobalDict
import WowDb.Query.GroupBy
import WowDb.Query.GuardCalls
import WowDb.Query.JoinChoice
import WowDb.Query.MetadataCache
import WowDb.Query.NullComparison
import WowDb.Query.Optimizer
import WowDb.Query.OrderBy
import WowDb.Query.OuterJoin
import WowDb.Query.PartitionPrune
import WowDb.Query.PhysicalPlanner
import WowDb.Query.Raft
import WowDb.Query.RebalancePlans
import WowDb.Query.ResultShape
import WowDb.Query.Select
import WowDb.Query.SelectTransparent
import WowDb.Query.SessionStore
import WowDb.Query.ShardMap
import WowDb.Query.ShardPlacement
import WowDb.Query.Tablet
import WowDb.Query.Transaction
import WowDb.Storage.BlockCache
import WowDb.Storage.Bloom
import WowDb.Storage.Compaction
import WowDb.Storage.CompactionCoverage
import WowDb.Storage.CompactionOutcome
import WowDb.Storage.CompactionTotals
import WowDb.Storage.Encoding
import WowDb.Storage.FlatJson
import WowDb.Storage.FlushNumbers
import WowDb.Storage.Levels
import WowDb.Storage.Manifest
import WowDb.Storage.MemTable
import WowDb.Storage.MinMaxBuilder
import WowDb.Storage.NgramIndex
import WowDb.Storage.Partition
import WowDb.Storage.SetIndex
import WowDb.Storage.ShardScan
import WowDb.Storage.SsTable
import WowDb.Storage.SsTableFlush
import WowDb.Storage.TabletWriter
import WowDb.Storage.Transaction
import WowDb.Storage.Wal
import WowDb.Storage.WalGroupCommit
import WowDb.Storage.WriteBatch
import WowDb.System.ConcurrentSelects
import WowDb.System.DeleteStatement
import WowDb.System.MysqlHandler
import WowDb.System.ReadOnlyHandler
import WowDb.System.ReadYourWrites
import WowDb.System.RefreshedTables
import WowDb.System.ReliableReads
import WowDb.System.StoragePool
import WowDb.System.TwoPhase
import WowDb.System.TwoPhaseSafety
import WowDb.System.ValueTrip
