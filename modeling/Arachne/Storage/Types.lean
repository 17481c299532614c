import Arachne.Codec.LittleEndian

/-! # The storage seam's value types

The log entries, hard states, memberships and snapshots a raft node keeps durable. Whatever the
source stores as a `u64` is a `UInt64` here, so that a value always fits its eight bytes on disk.
Log positions the storage *computes* with (`LogIndex` in the source) are `Nat`: `last_index + 1` does
not wrap. -/

namespace Arachne.Storage

open Codec (Bytes)

/-- The kind of a log entry. -/
inductive EntryType where
  | entry
  | confChange
  | confChangeV2
  deriving DecidableEq, Repr

/-- A single entry in the replicated log. -/
structure LogEntry where
  index : UInt64
  term : UInt64
  entryType : EntryType
  data : Bytes
  deriving DecidableEq, Repr

/-- The durable "hard" state of a raft node. -/
structure HardState where
  term : UInt64
  vote : Option UInt64
  commit : UInt64
  deriving DecidableEq, Repr

/-- `HardState::default()`: what a store without any HardState record reports. -/
def HardState.default : HardState := { term := 0, vote := none, commit := 0 }

/-- The cluster membership configuration. -/
structure ConfState where
  voters : List UInt64
  learners : List UInt64
  deriving DecidableEq, Repr

def ConfState.default : ConfState := { voters := [], learners := [] }

/-- Where a snapshot was taken, and the membership it carries. -/
structure SnapshotMeta where
  index : UInt64
  term : UInt64
  confState : ConfState
  deriving DecidableEq, Repr

/-- A snapshot of the replicated state. -/
structure Snapshot where
  metadata : SnapshotMeta
  data : Bytes
  deriving DecidableEq, Repr

/-- The `META` record of a data directory: its identity and the snapshot it points at
(`snapshotIndex = 0`: none). -/
structure Meta where
  clusterId : String
  nodeId : String
  formatVersion : UInt32
  createdAt : UInt64
  snapshotIndex : UInt64
  snapshotTerm : UInt64
  deriving DecidableEq, Repr

/-- The storage format major version. -/
def formatVersion : UInt32 := 4

/-- Errors reported by the storage. `io` is left out: the model's file system never fails. -/
inductive StorageError where
  | compacted
  | corruption (detail : String)
  | unrecoverable (detail : String)
  deriving DecidableEq, Repr

/-- The fsync policy for entry records. -/
inductive FsyncPolicy where
  | always
  | batchMs (ms : UInt64)
  deriving DecidableEq, Repr

/-- The position of the last of a list of entries. -/
def lastEntryIndex? (entries : List LogEntry) : Option Nat :=
  entries.getLast?.map (·.index.toNat)

end Arachne.Storage
