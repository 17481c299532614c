import Arachne.Storage.Wal

/-! # Opening a store

`WalStorage.openDir` is `WalStorage::open` on a directory: read META, load the newest snapshot META
names, replay the segments, check what was replayed and assemble the store. It returns the directory
it leaves behind as well, since an open that fails may already have cut a torn tail.

Replay walks each segment record by record. A record that does not fit in the file is a *tear*, and
only the tail of the last segment may be torn, beyond the commit replayed so far; a record that is
fully present but does not decode stops the open. Paths appear in messages by file name, and the lock
file is left out. -/

namespace Arachne.Storage

open Codec (Bytes leNat)

/-- The file name of the segment with the given first log index. -/
def segmentName (firstIndex : Nat) : String :=
  let digits := toString firstIndex
  "wal-" ++ String.ofList (List.replicate (20 - digits.length) '0') ++ digits ++ ".log"

/-- What replay has gathered: the entries, the last hard state, the number of torn records cut off and
the calls that cut them. -/
structure Recovered where
  entries : List LogEntry
  hardState : HardState
  truncatedRecords : Nat
  steps : List FsStep
  deriving DecidableEq

def Recovered.init : Recovered := ⟨[], .default, 0, []⟩

/-- Take in one record. -/
def Recovered.push (acc : Recovered) : Record → Recovered
  | .entry e => { acc with entries := acc.entries ++ [e] }
  | .hardState hs => { acc with hardState := hs }

/-- A structural tear: fewer than 8 bytes remain, or the declared length runs past the file. -/
def isTear (rest : Bytes) : Prop := rest.length < 8 ∨ 8 + leNat (rest.take 4) > rest.length

instance (rest : Bytes) : Decidable (isTear rest) := inferInstanceAs (Decidable (_ ∨ _))

namespace WalStorage

/-- The estimated index of a torn record: one past the last entry replayed, or one past the snapshot
when nothing was replayed yet. -/
def estimatedIndex (compactedTo : Nat) (acc : Recovered) : Nat :=
  ((lastEntryIndex? acc.entries).map (· + 1)).getD (compactedTo + 1)

/-- Tear handling: cut the tail of the last segment off if it lies beyond the commit window. -/
def replayTear (idx : Nat) (isLastSegment : Bool) (compactedTo : Nat) (offset : Nat)
    (acc : Recovered) : Except StorageError Recovered :=
  let path := (segmentName idx).quote
  let estimated := estimatedIndex compactedTo acc
  let commit := acc.hardState.commit.toNat
  if ¬ isLastSegment then
    .error (.unrecoverable s!"structural tear in non-last segment {path} at byte offset {offset}")
  else if estimated ≤ commit + 1 then
    .error (.unrecoverable
      s!"structural tear at estimated index {estimated} (within committed window commit={commit}): cannot auto-truncate committed data")
  else
    .ok { acc with
      truncatedRecords := acc.truncatedRecords + 1
      steps := acc.steps ++ [.truncateSegment idx offset] }

/-- Decode one fully present record and take it in. -/
def replayRecord (idx : Nat) (offset : Nat) (recordBytes : Bytes) (acc : Recovered) :
    Except StorageError Recovered :=
  let path := (segmentName idx).quote
  match decodeRecord recordBytes with
  | .ok (.hardState, payload) =>
    match decodeHardState payload with
    | .ok (term, vote, commit) => .ok (acc.push (.hardState { term, vote, commit }))
    | .error e => .error (.unrecoverable ("corrupt HardState record: " ++ e.display))
  | .ok (.entry, payload) =>
    match decodeEntry payload with
    | .ok (index, term, entryType, data) =>
      .ok (acc.push (.entry { index, term, entryType := entryTypeToSeam entryType, data }))
    | .error e => .error (.unrecoverable ("corrupt Entry record: " ++ e.display))
  | .ok (.metaRecord, _) => .error (.unrecoverable "unexpected Meta record in WAL")
  | .error e =>
    .error (.unrecoverable
      (s!"corrupt record in segment {path} at byte offset {offset}: " ++ e.display))

/-- Replay one segment from `offset` on, where `rest` is what the file holds from there. -/
def replaySegment (idx : Nat) (isLastSegment : Bool) (compactedTo : Nat) :
    Nat → Nat → Bytes → Recovered → Except StorageError Recovered
  | 0, _, _, acc => .ok acc
  | fuel + 1, offset, rest, acc =>
    if rest = [] then .ok acc
    else if isTear rest then replayTear idx isLastSegment compactedTo offset acc
    else
      let size := 8 + leNat (rest.take 4)
      match replayRecord idx offset (rest.take size) acc with
      | .error e => .error e
      | .ok acc =>
        replaySegment idx isLastSegment compactedTo fuel (offset + size) (rest.drop size) acc

/-- Replay the segments in order; every round consumes at least the 8 header bytes, so the file's
length is fuel enough. -/
def replaySegments (compactedTo : Nat) :
    List (Nat × Bytes) → Recovered → Except StorageError Recovered
  | [], acc => .ok acc
  | (idx, raw) :: rest, acc =>
    match replaySegment idx rest.isEmpty compactedTo raw.length 0 raw acc with
    | .error e => .error e
    | .ok acc => replaySegments compactedTo rest acc

def recoverWal (dir : Dir) (compactedTo : Nat) : Except StorageError Recovered :=
  replaySegments compactedTo dir.segments.toList .init

/-- Validate META against the options, or create it in a fresh directory. Returns the calls made. -/
def recoverMeta (dir : Dir) (opts : WalOptions) : List FsStep × Except StorageError Meta :=
  match dir.metaFile with
  | some metaRecord =>
    if metaRecord.clusterId ≠ opts.clusterId then
      ([], .error (.unrecoverable ("META cluster_id mismatch: expected " ++ opts.clusterId.quote ++
        ", got " ++ metaRecord.clusterId.quote)))
    else if metaRecord.nodeId ≠ opts.nodeId then
      ([], .error (.unrecoverable ("META node_id mismatch: expected " ++ opts.nodeId.quote ++
        ", got " ++ metaRecord.nodeId.quote)))
    else if metaRecord.formatVersion ≠ formatVersion then
      ([], .error (.unrecoverable ("META format_version mismatch: expected " ++
        toString formatVersion ++ ", got " ++ toString metaRecord.formatVersion)))
    else ([], .ok metaRecord)
  | none =>
    let metaRecord : Meta :=
      { clusterId := opts.clusterId, nodeId := opts.nodeId, formatVersion := formatVersion,
        createdAt := opts.createdAtMillis, snapshotIndex := 0, snapshotTerm := 0 }
    ([.writeMeta metaRecord], .ok metaRecord)

/-- The snapshot in a file, if its content decodes and carries the index of its name. -/
def SnapshotFile.valid? (f : SnapshotFile) : Option Snapshot :=
  f.content.filter fun snapshot => snapshot.metadata.index = f.index

/-- The newest valid snapshot at or below an index, falling back past files that do not decode. -/
def newestValid (snapshots : List SnapshotFile) (index : UInt64) : Option Snapshot :=
  (snapshots.filter (·.index ≤ index)).findSome? SnapshotFile.valid?

/-- Load the newest valid snapshot META names; a META pointer of 0 means there is none. -/
def loadSnapshot (dir : Dir) (expectedIndex : UInt64) : Option Snapshot :=
  if expectedIndex = 0 then none else newestValid dir.snapshots expectedIndex

/-- Verify the replayed entries are contiguous, starting from the first one. -/
def verifyContinuity (entries : List LogEntry) : Except StorageError Unit :=
  match entries.head? with
  | none => .ok ()
  | some first =>
    match entries.zipIdx.find? fun p => p.1.index.toNat ≠ first.index.toNat + p.2 with
    | none => .ok ()
    | some (entry, i) =>
      let expected := first.index.toNat + i
      let index := entry.index
      .error (.unrecoverable s!"log index gap: expected {expected}, got {index} at position {i}")

def snapshotMissingError (named : UInt64) (first : Nat) : StorageError :=
  .unrecoverable
    s!"META names a snapshot at index {named} but no valid snapshot file could be loaded and the WAL starts at index {first}"

def snapshotGapError (compactedTo first : Nat) : StorageError :=
  .unrecoverable
    s!"gap between the snapshot (index {compactedTo}) and the first retained entry (index {first})"

def commitBeyondLogError (commit lastEntryIndex : Nat) : StorageError :=
  .unrecoverable s!"hard_state.commit ({commit}) > last_entry_index ({lastEntryIndex}) after replay"

/-- The checks of `open` on what was replayed; returns the entries above the snapshot. -/
def checkRecovered (metaRecord : Meta) (snapshot : Option Snapshot) (compactedTo : Nat)
    (recovered : Recovered) : Except StorageError (List LogEntry) :=
  let first := (recovered.entries.head?.map (·.index.toNat)).getD 1
  let named := metaRecord.snapshotIndex
  let entries := recovered.entries.filter (compactedTo < ·.index.toNat)
  let lastEntryIndex := (lastEntryIndex? entries).getD compactedTo
  let commit := recovered.hardState.commit.toNat
  if named ≠ 0 ∧ snapshot = none ∧ first ≠ 1 then .error (snapshotMissingError named first)
  else
    match verifyContinuity recovered.entries with
    | .error e => .error e
    | .ok () =>
      if recovered.entries ≠ [] ∧ first > compactedTo + 1 then
        .error (snapshotGapError compactedTo first)
      else if commit > lastEntryIndex then .error (commitBeyondLogError commit lastEntryIndex)
      else .ok entries

/-- The index a loaded snapshot covers. -/
def watermark (snapshot : Option Snapshot) : Nat :=
  (snapshot.map (·.metadata.index.toNat)).getD 0

/-- The store `open` returns for a directory whose log was replayed and checked, with the calls made
so far. Creates the first segment if there is none. -/
def assemble (opts : WalOptions) (dir : Dir) (steps : List FsStep) (metaRecord : Meta)
    (snapshot : Option Snapshot) (recovered : Recovered) (entries : List LogEntry) : WalStorage :=
  let compactedTo := watermark snapshot
  let create : List FsStep :=
    if dir.listSegmentIndices = [] then [.createSegment 1] else []
  let membership :=
    match dir.membership with
    | some (index, confState) =>
      if index.toNat > compactedTo then (index.toNat, confState) else (compactedTo, .default)
    | none => (compactedTo, .default)
  { dir := FsStep.runAll dir create
    journal := steps ++ create
    segmentFirstIndex := dir.listSegmentIndices.getLast?.getD 1
    maxEntryInSegment := (lastEntryIndex? entries).getD 0
    entries := entries
    compactedTo := compactedTo
    snapshot := snapshot
    metaRecord := metaRecord
    hardState := recovered.hardState
    confState := membership.2
    confChangeIndex := membership.1
    pendingEntryFsync := false
    fsyncPolicy := opts.config.fsyncPolicy
    segmentBytes := opts.config.segmentBytes
    trailingKeepBytes := 0
    walTruncatedRecords := recovered.truncatedRecords
    notified := [] }

/-- `WalStorage::open`: the directory afterwards, and the store or the error. -/
def openDir (dir : Dir) (opts : WalOptions) : Dir × Except StorageError WalStorage :=
  match recoverMeta dir opts with
  | (steps, .error e) => (FsStep.runAll dir steps, .error e)
  | (steps, .ok metaRecord) =>
    let dir := FsStep.runAll dir steps
    let snapshot := loadSnapshot dir metaRecord.snapshotIndex
    match recoverWal dir (watermark snapshot) with
    | .error e => (dir, .error e)
    | .ok recovered =>
      let dir := FsStep.runAll dir recovered.steps
      match checkRecovered metaRecord snapshot (watermark snapshot) recovered with
      | .error e => (dir, .error e)
      | .ok entries =>
        let store :=
          assemble opts dir (steps ++ recovered.steps) metaRecord snapshot recovered entries
        (store.dir, .ok store)

end WalStorage

end Arachne.Storage
