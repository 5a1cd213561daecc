import KvStore.Consensus.TermLog
import KvStore.Consensus.Protocol
import KvStore.Consensus.Safety
import KvStore.Machine.Run
import KvStore.Raft.Types
import KvStore.Raft.Core
import KvStore.Raft.Storage
import KvStore.Raft.Cluster
import KvStore.Raft.Window
import KvStore.Raft.Persist
import KvStore.Raft.Simulation
import KvStore.Raft.Moves
import KvStore.Raft.Votes
import KvStore.Raft.Replication
import KvStore.Raft.Calls
import KvStore.Raft.Refinement
import KvStore.Raft.Turns
import KvStore.Raft.ElectionSafety
import KvStore.Raft.LogMatching
import KvStore.Raft.StateMachineSafety
import KvStore.Raft.SnapshotTransfer
import KvStore.Raft.ReadIndex
import KvStore.Raft.LogAccess
import KvStore.Codec.LengthPrefix
import KvStore.Engine.Interface
import KvStore.Server.Command
import KvStore.Server.Server
import KvStore.Server.System
import KvStore.Server.Rounds
import KvStore.Server.Projection
import KvStore.Server.Acknowledge
import KvStore.Server.Applied
import KvStore.Codec.Frame
import KvStore.Layered.Overlay
import KvStore.Layered.SortedMap
import KvStore.Wal.Record
import KvStore.Engine.Table
import KvStore.Engine.Directory
import KvStore.Engine.Engine
import KvStore.Engine.System
import KvStore.Engine.Recovery
import KvStore.Engine.MapRefinement
import KvStore.Engine.Running
import KvStore.Engine.Restore
import KvStore.Engine.CrashRecovery
import KvStore.Engine.RestoreAtomicity
import KvStore.Engine.FlushFailure
import KvStore.Engine.Openable
import KvStore.Raft.StorageFile
import KvStore.Raft.Durability
import KvStore.Raft.Campaign
import KvStore.Raft.ElectoralDeadEnd
import KvStore.Raft.Ballot
import KvStore.Raft.Disruption
import KvStore.Raft.Progress
import KvStore.Server.Level
import KvStore.Server.Lifetime
import KvStore.Server.ReadRelease
import KvStore.Server.Reapply
import KvStore.Raft.Emits
import KvStore.Wal.Replay
import KvStore.Codec.Buffered
import KvStore.Wal.Append
import KvStore.Transport.Codec
import KvStore.Transport.Untrusted
import KvStore.Transport.Connection
import KvStore.Engine.ApplyFailure
import KvStore.Engine.SnapshotRoundTrip
import KvStore.SkipList.Basic
import KvStore.SkipList.Put
import KvStore.Engine.Memtable
import KvStore.Codec.Uvarint
import KvStore.Sstable.Block
import KvStore.Sstable.Bloom
import KvStore.Sstable.Writer
import KvStore.Sstable.Reader
import KvStore.Engine.DamagedTables
import KvStore.Server.Provenance
import KvStore.Server.SnapshotContent
import KvStore.Sstable.Untrusted
import KvStore.Codec.Decimal
import KvStore.Engine.FileNames
import KvStore.Engine.Faults
import KvStore.Engine.SequenceNumbers
import KvStore.Cache.Recency
import KvStore.Sstable.BlockCache
import KvStore.Engine.TableFiles
import KvStore.Engine.CachedReads
import KvStore.Raft.LeaderHint
import KvStore.Raft.PreVoteRounds
import KvStore.Consensus.Overwrite
import KvStore.Raft.Merging
import KvStore.Machine.Process
import KvStore.Raft.Pipeline
import KvStore.Server.EventLoop
import KvStore.Server.Answers
import KvStore.Server.AnswersOnce
import KvStore.Server.LoopServer
import KvStore.Server.Deployment
import KvStore.Server.Linearizable
import KvStore.Server.OpenStore
import KvStore.Server.Replicas
