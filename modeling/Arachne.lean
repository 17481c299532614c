import Arachne.Codec.LittleEndian
import Arachne.Codec.Crc
import Arachne.Codec.Stream
import Arachne.Codec.Reader
import Arachne.Data.Assoc
import Arachne.Data.Run
import Arachne.Data.Interference
import Arachne.Data.Disk
import Arachne.Data.OrdMap
import Arachne.Data.Dedup
import Arachne.Storage.Types
import Arachne.Storage.Crc32c
import Arachne.Storage.Format
import Arachne.Storage.Dir
import Arachne.Storage.Wal
import Arachne.Storage.Recovery
import Arachne.Storage.Log
import Arachne.Storage.Consecutive
import Arachne.Storage.Run
import Arachne.Storage.Layout
import Arachne.Storage.Effects
import Arachne.Storage.Invariant
import Arachne.Storage.Gapless
import Arachne.Storage.HardState
import Arachne.Storage.Overwrite
import Arachne.Storage.Tear
import Arachne.Storage.Corruption
import Arachne.Storage.TornTail
import Arachne.Storage.Install
import Arachne.Storage.Flush
import Arachne.Storage.Rollover
import Arachne.Storage.FlushToken
import Arachne.StateMachine.Command
import Arachne.StateMachine.Kv
import Arachne.StateMachine.Session
import Arachne.StateMachine.Snapshot
import Arachne.Forward.Wire
import Arachne.Forward.Write
import Arachne.Forward.Read
import Arachne.StateMachine.Encode
import Arachne.StateMachine.Events
import Arachne.Client.Handle
import Arachne.Runtime.Admission
import Arachne.Runtime.Restart
import Arachne.Storage.Read
import Arachne.Data.Feed
import Arachne.Runtime.Pipeline
import Arachne.Runtime.ApplyOrder
import Arachne.Runtime.Barrier
import Arachne.Runtime.Deferred
import Arachne.Runtime.LogStore
import Arachne.Runtime.ReadGate
import Arachne.Runtime.Watch
import Arachne.Runtime.WatchGap
import Arachne.Runtime.WatchInstall
import Arachne.Data.Trace
import Arachne.Consensus.Ready
import Arachne.Consensus.Disclosure
import Arachne.StateMachine.Format
import Arachne.StateMachine.Origin
import Arachne.Storage.Crash
import Arachne.Storage.Fallback
import Arachne.Storage.Reopen
import Arachne.Storage.Startable
import Arachne.Consensus.Membership
import Arachne.Runtime.SessionGc
import Arachne.Runtime.SnapshotMembership
import Arachne.Storage.Compaction
import Arachne.Consensus.RaftStorage
import Arachne.StateMachine.Canonical
import Arachne.Storage.Files
import Arachne.Runtime.ReadVersion
import Arachne.Runtime.Backlog
import Arachne.Runtime.LateSnapshot
import Arachne.Runtime.Replies
import Arachne.Data.Schedule
import Arachne.Oracle.History
import Arachne.Oracle.Linearizability
import Arachne.Oracle.Atomic
import Arachne.Runtime.TailScan
import Arachne.Data.Prefix
import Arachne.StateMachine.Range
import Arachne.Client.Redirect
import Arachne.Oracle.Exact
import Arachne.Oracle.Checks
import Arachne.Storage.Notify
import Arachne.Storage.Contents
import Arachne.Storage.ForceRecovery
import Arachne.Codec.Decimal
import Arachne.Oracle.FsyncLedger
import Arachne.Runtime.MultiGetBudget
import Arachne.Storage.FileNames
import Arachne.Transport.SnapshotStream
import Arachne.Consensus.Outbound
import Arachne.Runtime.SnapshotFetch
import Arachne.Consensus.OutboundProgress
import Arachne.Runtime.WaitApplied
import Arachne.Raft.Quorum
