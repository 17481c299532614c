import Arachne.Storage.Dir
import Arachne.Storage.Format

/-! # The WAL-backed store

The state of an open `WalStorage` and the operations of the storage seam on it. An operation that
returns an error leaves the process to fail-stop, so only the state after a success is modelled.

All writes to the data directory go through `WalStorage.io`, which also records the call in `journal`.
The active segment is known by its name: the store's handle is always the file linked under
`segmentFirstIndex`. Of the counters of `StorageStats` only `wal_truncated_records` is kept, and
`notified` lists the calls made to the fsync observer. -/

namespace Arachne.Storage

open Codec (Bytes leNat)

/-- Configuration for a store. -/
structure WalConfig where
  fsyncPolicy : FsyncPolicy
  segmentBytes : Nat
  deriving DecidableEq, Repr

/-- Options for opening a store. -/
structure WalOptions where
  clusterId : String
  nodeId : String
  config : WalConfig
  createdAtMillis : UInt64
  deriving DecidableEq, Repr

/-- An open store: its directory, and what it holds in memory. -/
structure WalStorage where
  dir : Dir
  journal : List FsStep
  segmentFirstIndex : Nat
  maxEntryInSegment : Nat
  entries : List LogEntry
  compactedTo : Nat
  snapshot : Option Snapshot
  metaRecord : Meta
  hardState : HardState
  confState : ConfState
  confChangeIndex : Nat
  pendingEntryFsync : Bool
  fsyncPolicy : FsyncPolicy
  segmentBytes : Nat
  trailingKeepBytes : Nat
  walTruncatedRecords : Nat
  notified : List (Nat × Nat)
  deriving DecidableEq

namespace WalStorage

/-- Make a file-system call. -/
def io (s : WalStorage) (step : FsStep) : WalStorage :=
  { s with dir := step.run s.dir, journal := s.journal ++ [step] }

def ioAll (s : WalStorage) (steps : List FsStep) : WalStorage := steps.foldl io s

/-- `notify_fsynced`. -/
def notifyFsynced (s : WalStorage) : WalStorage :=
  { s with notified := s.notified ++ [(s.segmentFirstIndex, s.maxEntryInSegment)] }

/-- `last_index`. -/
def lastIndex (s : WalStorage) : Nat := (lastEntryIndex? s.entries).getD s.compactedTo

/-- `first_index`. -/
def firstIndex (s : WalStorage) : Nat := s.compactedTo + 1

/-! ## Appending -/

/-- Roll over to a new segment if the current one is full, syncing the outgoing one first if it has
pending records. -/
def maybeRollover (s : WalStorage) (nextEntryIndex : Nat) : WalStorage :=
  if s.dir.segmentSize s.segmentFirstIndex ≥ s.segmentBytes then
    let s :=
      if s.pendingEntryFsync then
        ({ s.io (.syncSegment s.segmentFirstIndex) with pendingEntryFsync := false }).notifyFsynced
      else s
    { s.io (.createSegment nextEntryIndex) with
      segmentFirstIndex := nextEntryIndex
      maxEntryInSegment := 0 }
  else s

/-- The end of the first record of entry `keep` at or after `offset`, where `rest` is what the file
holds from there: the scan of `truncate_log_to` over one segment. A record that does not decode is
stepped over. -/
def findEntryEnd (keep : Nat) : Nat → Nat → Bytes → Option Nat
  | 0, _, _ => none
  | fuel + 1, offset, rest =>
    if rest.length < 8 then none
    else
      let len := leNat (rest.take 4)
      if 8 + len > rest.length then none
      else
        let next := findEntryEnd keep fuel (offset + (8 + len)) (rest.drop (8 + len))
        match decodeRecord (rest.take (8 + len)) with
        | .ok (.entry, payload) =>
          match decodeEntry payload with
          | .ok (index, _, _, _) => if index.toNat = keep then some (offset + (8 + len)) else next
          | .error _ => next
        | _ => next

/-- The segment that holds the first record of entry `keep`, and the offset just past it. -/
def findHolding (keep : Nat) : List (Nat × Bytes) → Option (Nat × Nat)
  | [] => none
  | (idx, raw) :: rest =>
    match findEntryEnd keep raw.length 0 raw with
    | some offset => some (idx, offset)
    | none => findHolding keep rest

/-- Truncate the durable log to `1..=keep`; returns how many entries were discarded. The in-memory
log is cut by *position* (`Vec::truncate`), the files by log index. -/
def truncateLogTo (s : WalStorage) (keep : Nat) : WalStorage × Nat :=
  let last := (lastEntryIndex? s.entries).getD 0
  if last ≤ keep then (s, 0)
  else
    let segmentIndices := s.dir.listSegmentIndices
    let s :=
      match findHolding keep s.dir.segments.toList with
      | some (first, offset) =>
        { s.ioAll (.truncateSegment first offset :: .syncSegment first ::
            (segmentIndices.filter (first < ·)).map .removeSegment) with
          segmentFirstIndex := first
          maxEntryInSegment := keep }
      | none =>
        { s.ioAll (segmentIndices.map FsStep.removeSegment ++ [FsStep.createSegment 1]) with
          segmentFirstIndex := 1
          maxEntryInSegment := 0 }
    ({ s with entries := s.entries.take keep, pendingEntryFsync := false }, last - keep)

/-- One iteration of `append`'s loop. -/
def appendEntry (s : WalStorage) (entry : LogEntry) : Except StorageError WalStorage :=
  let last := s.lastIndex
  let index := entry.index.toNat
  let expected := last + 1
  if index ≠ expected then
    .error (.unrecoverable s!"append continuity violation: expected {expected}, got {index}")
  else if ¬ entry.Fits then
    let framedSize := 8 + 1 + entry.payload.length
    .error (.unrecoverable
      s!"entry at index {index} produces a record of {framedSize} bytes, exceeding MAX_RECORD_BYTES ({maxRecordBytes})")
  else
    let s := s.maybeRollover index
    .ok { s.io (.appendSegment s.segmentFirstIndex (Record.entry entry).encode) with
      entries := s.entries ++ [entry]
      maxEntryInSegment := index
      pendingEntryFsync := true }

/-- The part of `append` before its loop: an incoming first index at or below the log's end cuts the
conflicting suffix. -/
def overwriteSuffix (s : WalStorage) (first : LogEntry) : Except StorageError WalStorage :=
  let index := first.index.toNat
  if index ≤ s.lastIndex then
    let keep := index - 1
    let compactedTo := s.compactedTo
    let commit := s.hardState.commit.toNat
    if keep < compactedTo then
      .error (.unrecoverable
        s!"append at index {index} is at or below the compaction watermark {compactedTo}")
    else if keep < commit then
      .error (.unrecoverable
        s!"append would overwrite committed entries: first={index}, commit={commit}")
    else .ok (s.truncateLogTo keep).1
  else .ok s

def append (s : WalStorage) (entries : List LogEntry) : Except StorageError WalStorage :=
  match entries.head? with
  | none => .ok s
  | some first => do
    let s ← s.overwriteSuffix first
    entries.foldlM appendEntry s

/-- Write a HardState record and sync it. -/
def setHardState (s : WalStorage) (hs : HardState) : WalStorage :=
  let s := s.ioAll [.appendSegment s.segmentFirstIndex (Record.hardState hs).encode,
    .syncSegment s.segmentFirstIndex]
  { s.notifyFsynced with hardState := hs }

def syncEntries (s : WalStorage) : WalStorage :=
  let synced :=
    ({ s.io (.syncSegment s.segmentFirstIndex) with pendingEntryFsync := false }).notifyFsynced
  match s.fsyncPolicy with
  | .always => synced
  | .batchMs _ => if s.pendingEntryFsync then synced else s

/-! ## Membership and snapshots -/

def saveConfState (s : WalStorage) (confChangeIndex : UInt64) (confState : ConfState) : WalStorage :=
  { s.io (.writeMembership confChangeIndex confState) with
    confChangeIndex := confChangeIndex.toNat
    confState := confState }

/-- How many snapshot files to retain on disk. -/
def snapshotRetention : Nat := 2

/-- Delete all but the newest snapshot files. -/
def pruneSnapshots (s : WalStorage) : WalStorage :=
  s.ioAll ((s.dir.snapshots.drop snapshotRetention).map fun f => .removeSnapshot f.index f.term)

/-- The snapshot's member table takes over when it is newer than the membership file. -/
def adoptConfState (s : WalStorage) (snapshot : Snapshot) : WalStorage :=
  if snapshot.metadata.index.toNat > s.confChangeIndex then
    { s with
      confState := snapshot.metadata.confState
      confChangeIndex := snapshot.metadata.index.toNat }
  else s

/-- The store already has a snapshot at or beyond this one. -/
def hasSnapshotAt (s : WalStorage) (index : UInt64) : Bool :=
  match s.snapshot with
  | some existing => existing.metadata.index ≥ index
  | none => false

/-- Persist `snapshot` and point META at it. -/
def saveSnapshot (s : WalStorage) (snapshot : Snapshot) : WalStorage :=
  if s.hasSnapshotAt snapshot.metadata.index then s
  else
    let s := s.adoptConfState snapshot
    let metaRecord :=
      { s.metaRecord with
        snapshotIndex := snapshot.metadata.index
        snapshotTerm := snapshot.metadata.term }
    let s := s.ioAll [.renameSnapshot snapshot, .writeMeta metaRecord]
    ({ s with metaRecord := metaRecord, snapshot := some snapshot }).pruneSnapshots

/-- Replace the physical log with a single empty segment starting at `snapshotIndex + 1`. -/
def replaceLogWithSnapshot (s : WalStorage) (snapshotIndex : Nat) : WalStorage :=
  let next := snapshotIndex + 1
  { s.ioAll (s.dir.listSegmentIndices.map FsStep.removeSegment ++ [.createSegment next]) with
    segmentFirstIndex := next
    maxEntryInSegment := 0
    pendingEntryFsync := false }

/-- Adopt an installed snapshot and reset the log to it. -/
def installSnapshot (s : WalStorage) (snapshot : Snapshot) : Except StorageError WalStorage :=
  let index := snapshot.metadata.index.toNat
  let watermark := s.compactedTo
  if index < watermark then
    .error (.unrecoverable
      s!"installed snapshot at {index} is older than the local watermark {watermark}")
  else if index = watermark ∧ s.entries = [] then .ok s
  else
    let s := (s.adoptConfState snapshot).saveSnapshot snapshot
    .ok (({ s with entries := [], compactedTo := index }).replaceLogWithSnapshot index)

/-! ## Compaction -/

/-- `indices.windows(2)`. -/
def windows (indices : List Nat) : List (Nat × Nat) := indices.zip indices.tail

/-- Delete every segment wholly below `watermark`. -/
def deleteSegmentsBelow (s : WalStorage) (watermark : Nat) : WalStorage :=
  let keepFrom := watermark + 1
  s.ioAll (((windows s.dir.listSegmentIndices).filter fun w =>
    w.2 ≤ keepFrom ∧ w.1 ≠ s.segmentFirstIndex).map fun w => .removeSegment w.1)

/-- Bytes held by the segments whose first index is at or above `start`. -/
def retainedBytesFrom (s : WalStorage) (indices : List Nat) (start : Nat) : Nat :=
  ((indices.filter (start ≤ ·)).map s.dir.segmentSize).sum

/-- The loop of a compaction with a trailing window: unlink whole segments from the oldest while what
remains covers the window. Carries the store and the effective watermark. -/
def compactTrailing (indices : List Nat) (compactTo : Nat) :
    List (Nat × Nat) → WalStorage → Nat → WalStorage × Nat
  | [], s, effective => (s, effective)
  | (this, next) :: ws, s, effective =>
    if next > compactTo + 1 then (s, effective)
    else if this = s.segmentFirstIndex then compactTrailing indices compactTo ws s effective
    else if s.retainedBytesFrom indices next < s.trailingKeepBytes then (s, effective)
    else compactTrailing indices compactTo ws (s.io (.removeSegment this)) (next - 1)

/-- Compaction without a trailing window: release everything at or below `compactTo`. -/
def compactWhole (s : WalStorage) (compactTo : Nat) : WalStorage :=
  let s := s.deleteSegmentsBelow compactTo
  { s with entries := s.entries.filter (compactTo < ·.index.toNat), compactedTo := compactTo }

/-- Compaction with a trailing window: release up to the effective watermark. -/
def compactWindow (s : WalStorage) (compactTo : Nat) : WalStorage :=
  let indices := s.dir.listSegmentIndices
  let (s, effective) := compactTrailing indices compactTo (windows indices) s s.compactedTo
  { s with entries := s.entries.filter (effective < ·.index.toNat), compactedTo := effective }

def compact (s : WalStorage) (compactTo : Nat) : Except StorageError WalStorage :=
  let last := s.lastIndex
  if compactTo ≤ s.compactedTo then .ok s
  else if compactTo > last then
    .error (.unrecoverable s!"compact_to ({compactTo}) > last_index ({last})")
  else
    match s.snapshot with
    | none => .error (.unrecoverable "compact called with no durable snapshot")
    | some snapshot =>
      let index := snapshot.metadata.index.toNat
      if index < compactTo then
        .error (.unrecoverable
          s!"compact_to ({compactTo}) is beyond the snapshot index ({index})")
      else if s.trailingKeepBytes = 0 then .ok (s.compactWhole compactTo)
      else .ok (s.compactWindow compactTo)

def setTrailingKeepBytes (s : WalStorage) (bytes : Nat) : WalStorage :=
  { s with trailingKeepBytes := bytes }

end WalStorage

end Arachne.Storage
