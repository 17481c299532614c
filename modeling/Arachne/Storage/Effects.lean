import Arachne.Storage.Layout
import Arachne.Storage.Run

/-! # What the operations do to the directory

The effect of each operation, without its context: on the segment files as a log of records (`Stored`), on META
and the snapshot files (`Snapped`), and on the in-memory log (`appendAll_eq_ok`, `entries_of_appendAll`). -/

namespace Arachne.Storage

open Codec (Bytes)
open WalStorage (watermark newestValid loadSnapshot)

/-! ## Segment files -/

/-- A file is cut where its records are. -/
theorem Log.bytes_cut {log : Log} {pre post : List (Nat × List Record)} {n : Nat} {xs ys : List Record}
    (hlog : log.toList = pre ++ (n, xs ++ ys) :: post) :
    log.bytes.modify n (·.take (image xs).length) = Log.bytes (log.modify n fun _ => xs) := by
  have hbytes : log.bytes.toList = pre.map (fun p => (p.1, image p.2)) ++
      (n, image (xs ++ ys)) :: post.map fun p => (p.1, image p.2) := by
    rw [Log.bytes, Assoc.toList_map, hlog, List.map_append, List.map_cons]
  ext1
  rw [Assoc.toList_modify_of_eq _ hbytes, Log.bytes, Assoc.toList_map, Assoc.toList_modify_of_eq _ hlog, List.map_append,
    List.map_cons, image_append, List.take_left]

/-- The segment files hold `log`, and `active` is the last of them. -/
structure Stored (segments : Assoc Bytes) (active : Nat) (log : Log) : Prop where
  segments_eq : segments = log.bytes
  fits : ∀ r ∈ log.records, r.Fits
  active_last : ∃ pre xs, log.toList = pre ++ [(active, xs)]

namespace Stored

variable {segments : Assoc Bytes} {active : Nat} {log : Log}

theorem keys_eq (h : Stored segments active log) : segments.keys = log.keys := by
  rw [h.segments_eq, Log.bytes, Assoc.keys_map]

/-- Writing a record to the active segment. -/
theorem write (h : Stored segments active log) {r : Record} (hr : r.Fits) :
    ∃ (log' : Log) (pre : List (Nat × List Record)) (xs : List Record),
      log.toList = pre ++ [(active, xs)] ∧ log'.toList = pre ++ [(active, xs ++ [r])] ∧
      log'.records = log.records ++ [r] ∧
      Stored (segments.modify active (· ++ r.encode)) active log' := by
  obtain ⟨pre, xs, hlog⟩ := h.active_last
  have hlog' : (log.modify active (· ++ [r])).toList = pre ++ [(active, xs ++ [r])] :=
    Assoc.toList_modify_of_eq _ hlog
  have hrec : Log.records (log.modify active (· ++ [r])) = log.records ++ [r] := by
    simp [Log.records, hlog, hlog', recordsOf_append]
  refine ⟨log.modify active (· ++ [r]), pre, xs, hlog, hlog', hrec, ?_, ?_, pre, _, hlog'⟩
  · rw [h.segments_eq]
    exact (Assoc.map_modify log active fun rs => by simp).symm
  · rw [hrec, List.forall_mem_append]
    exact ⟨h.fits, by simpa using hr⟩

/-- Starting a segment above every other one. -/
theorem create (h : Stored segments active log) {n : Nat} (hn : ∀ k ∈ log.keys, k < n) :
    ∃ log' : Log, log'.toList = log.toList ++ [(n, [])] ∧
      Stored (segments.insertNew n []) n log' := by
  have hlog' : (log.insertNew n []).toList = log.toList ++ [(n, [])] :=
    Assoc.toList_insertNew_of_lt [] hn
  refine ⟨log.insertNew n [], hlog', ?_, ?_, log.toList, [], hlog'⟩
  · rw [h.segments_eq, Log.bytes, Log.bytes, Assoc.map_insertNew]
    rfl
  · rw [Log.records, hlog', recordsOf_append, recordsOf_cons, recordsOf_nil, List.append_nil,
      List.append_nil]
    exact h.fits

/-- The highest-numbered segment is the active one. -/
theorem active_of_le (h : Stored segments active log) {n : Nat} (hn : n ∈ log.keys)
    (hle : ∀ k ∈ log.keys, k ≤ n) : n = active := by
  obtain ⟨pre, xs, hlog⟩ := h.active_last
  have hact : active ∈ log.keys := by rw [Assoc.keys, hlog]; simp
  exact Nat.le_antisymm (Assoc.le_of_mem_keys hlog hn) (hle active hact)

/-- Unlinking every segment and creating one. -/
theorem restart (segments : Assoc Bytes) (n : Nat) :
    ∃ log' : Log, log'.toList = [(n, [])] ∧
      Stored ((segments.eraseAll segments.keys).insertNew n []) n log' := by
  refine ⟨Assoc.empty.insertNew n [], rfl, ?_, ?_, [], [], rfl⟩
  · rw [Assoc.eraseAll_keys]
    rfl
  · intro r hr
    exact absurd hr (List.not_mem_nil)

/-- Cutting the tail of a segment off and unlinking the later ones. -/
theorem cut (h : Stored segments active log) {pre post : List (Nat × List Record)} {n : Nat}
    {xs ys : List Record} (hlog : log.toList = pre ++ (n, xs ++ ys) :: post) :
    ∃ log' : Log, log'.toList = pre ++ [(n, xs)] ∧
      Stored ((segments.modify n (·.take (image xs).length)).eraseAll (segments.keys.filter (n < ·)))
        n log' := by
  have hcut : (log.modify n fun _ => xs).toList = pre ++ (n, xs) :: post :=
    Assoc.toList_modify_of_eq _ hlog
  have hkeys : Assoc.keys (log.modify n fun _ => xs) = log.keys := by
    rw [Assoc.keys, Assoc.keys, hcut, hlog]; simp
  have hlog' := Assoc.toList_eraseAll_gt hcut
  rw [hkeys] at hlog'
  refine ⟨_, hlog', ?_, ?_, pre, xs, hlog'⟩
  · rw [h.keys_eq, h.segments_eq, Log.bytes_cut hlog, Log.bytes, Log.bytes, Assoc.map_eraseAll]
  · have hsub : ∀ r ∈ recordsOf (pre ++ [(n, xs)]), r ∈ log.records := by
      intro r hr
      rw [Log.records, hlog, show pre ++ (n, xs ++ ys) :: post =
        pre ++ [(n, xs ++ ys)] ++ post by simp, recordsOf_append]
      refine List.mem_append_left _ ?_
      rw [recordsOf_append, List.mem_append] at hr ⊢
      rcases hr with hr | hr
      · exact .inl hr
      · refine .inr ?_
        simp only [recordsOf_cons, recordsOf_nil, List.append_nil] at hr ⊢
        exact List.mem_append_left _ hr
    rw [Log.records, hlog']
    exact fun r hr => h.fits r (hsub r hr)

/-- Unlinking old segments, but not the last one. -/
theorem dropSegments (h : Stored segments active log) {pre post : List (Nat × List Record)}
    (hlog : log.toList = pre ++ post) (hpost : post ≠ []) :
    ∃ log' : Log, log'.toList = post ∧
      Stored (segments.eraseAll (pre.map Prod.fst)) active log' := by
  have hlog' := Assoc.toList_eraseAll_prefix hlog
  refine ⟨_, hlog', ?_, ?_, ?_⟩
  · rw [h.segments_eq, Log.bytes, Log.bytes, Assoc.map_eraseAll]
  · rw [Log.records, hlog']
    intro r hr
    refine h.fits r ?_
    rw [Log.records, hlog, recordsOf_append]
    exact List.mem_append_right _ hr
  · obtain ⟨pre', xs, hact⟩ := h.active_last
    rw [hlog']
    obtain ⟨q, x, rfl⟩ : ∃ q x, post = q ++ [x] := ⟨_, _, (List.dropLast_append_getLast hpost).symm⟩
    rw [hlog, ← List.append_assoc] at hact
    have hx : x = (active, xs) := by simpa using (List.append_inj' hact rfl).2
    exact ⟨q, xs, by rw [hx]⟩

end Stored

/-! ## META and the snapshot files -/

/-- META is the store's record, and the snapshot it points at is the one that loads. -/
structure Loads (opts : WalOptions) (metaFile : Option Meta) (files : List SnapshotFile)
    (metaRecord : Meta) (snapshot : Option Snapshot) : Prop where
  metaFile_eq : metaFile = some metaRecord
  clusterId_eq : metaRecord.clusterId = opts.clusterId
  nodeId_eq : metaRecord.nodeId = opts.nodeId
  version_eq : metaRecord.formatVersion = formatVersion
  index_eq : metaRecord.snapshotIndex.toNat = watermark snapshot
  loaded : metaRecord.snapshotIndex ≠ 0 → newestValid files metaRecord.snapshotIndex = snapshot

/-- … and no snapshot file is newer. -/
structure Snapped (opts : WalOptions) (metaFile : Option Meta) (files : List SnapshotFile)
    (metaRecord : Meta) (snapshot : Option Snapshot) : Prop
    extends Loads opts metaFile files metaRecord snapshot where
  newest : ∀ f ∈ files, f.index ≤ metaRecord.snapshotIndex

namespace Loads

variable {opts : WalOptions} {dir : Dir} {metaRecord : Meta} {snapshot : Option Snapshot}

/-- Identity does not depend on the configuration. -/
theorem withConfig {metaFile : Option Meta} {files : List SnapshotFile}
    (h : Loads opts metaFile files metaRecord snapshot) (config : WalConfig) :
    Loads { opts with config } metaFile files metaRecord snapshot := { h with }

theorem recoverMeta_eq (h : Loads opts dir.metaFile dir.snapshots metaRecord snapshot) :
    WalStorage.recoverMeta dir opts = ([], .ok metaRecord) := by
  rw [WalStorage.recoverMeta, h.metaFile_eq]
  simp [h.clusterId_eq, h.nodeId_eq, h.version_eq]

theorem watermark_load (h : Loads opts dir.metaFile dir.snapshots metaRecord snapshot) :
    watermark (loadSnapshot dir metaRecord.snapshotIndex) = watermark snapshot := by
  rw [loadSnapshot]
  split_ifs with h0
  · rw [← h.index_eq, h0]
    rfl
  · rw [h.loaded h0]

/-- META names no snapshot that cannot be loaded. -/
theorem load_eq_none (h : Loads opts dir.metaFile dir.snapshots metaRecord snapshot)
    (h0 : metaRecord.snapshotIndex ≠ 0) : loadSnapshot dir metaRecord.snapshotIndex ≠ none := by
  intro hnone
  have hmark := h.watermark_load
  rw [hnone, ← h.index_eq] at hmark
  exact h0 (UInt64.toNat_inj.mp hmark.symm)

/-- What is loaded is what loads again. -/
theorem reload (h : Loads opts dir.metaFile dir.snapshots metaRecord snapshot) :
    Loads opts dir.metaFile dir.snapshots metaRecord (loadSnapshot dir metaRecord.snapshotIndex) :=
  { h with
    index_eq := h.index_eq.trans h.watermark_load.symm
    loaded := fun h0 => (if_neg h0 : loadSnapshot dir metaRecord.snapshotIndex = _).symm }

end Loads

namespace WalStorage

theorem ioAll_eq (s : WalStorage) (steps : List FsStep) :
    s.ioAll steps = { s with dir := FsStep.runAll s.dir steps, journal := s.journal ++ steps } := by
  induction steps generalizing s with
  | nil => simp [ioAll]
  | cons step steps ih =>
      show (s.io step).ioAll steps = _
      rw [ih]
      simp [io, FsStep.runAll]

theorem adoptConfState_eq (s : WalStorage) (snapshot : Snapshot) : ∃ confState confChangeIndex,
    s.adoptConfState snapshot = { s with confState, confChangeIndex } := by
  rw [adoptConfState]
  split_ifs
  · exact ⟨_, _, rfl⟩
  · exact ⟨s.confState, s.confChangeIndex, rfl⟩

/-- A store without a snapshot at or beyond `index` has META pointing below it, or at no snapshot. -/
theorem lt_of_not_hasSnapshotAt {s : WalStorage} {index : UInt64}
    (hidx : s.metaRecord.snapshotIndex.toNat = watermark s.snapshot) (hnot : ¬ s.hasSnapshotAt index) :
    s.metaRecord.snapshotIndex ≤ index ∧ (index ≠ 0 → s.metaRecord.snapshotIndex < index) := by
  rw [UInt64.le_iff_toNat_le, UInt64.lt_iff_toNat_lt, hidx]
  rw [hasSnapshotAt] at hnot
  cases hs : s.snapshot with
  | none =>
      refine ⟨Nat.zero_le _, fun h0 => Nat.pos_of_ne_zero fun h0' => h0 (UInt64.toNat_inj.mp h0')⟩
  | some existing =>
      rw [hs] at hnot
      have hlt : existing.metadata.index < index := by simpa using hnot
      rw [UInt64.lt_iff_toNat_lt] at hlt
      exact ⟨hlt.le, fun _ => hlt⟩

theorem le_of_hasSnapshotAt {s : WalStorage} {index : UInt64} (h : s.hasSnapshotAt index) :
    index.toNat ≤ watermark s.snapshot := by
  rw [hasSnapshotAt] at h
  split at h
  · next existing hex =>
      have hge : index ≤ existing.metadata.index := by simpa using h
      rw [hex]
      exact UInt64.le_iff_toNat_le.mp hge
  · cases h

/-- The snapshot a store holds once `snapshot` was saved is at least as new as that one, and as the one before. -/
theorem watermark_saved (s : WalStorage) (snapshot : Snapshot) :
    watermark s.snapshot ≤ watermark (if s.hasSnapshotAt snapshot.metadata.index then s.snapshot else some snapshot) ∧
      snapshot.metadata.index.toNat ≤
        watermark (if s.hasSnapshotAt snapshot.metadata.index then s.snapshot else some snapshot) := by
  split_ifs with hat
  · exact ⟨Nat.le_refl _, le_of_hasSnapshotAt hat⟩
  · refine ⟨?_, Nat.le_refl _⟩
    rw [hasSnapshotAt] at hat
    cases hs : s.snapshot with
    | none => exact Nat.zero_le _
    | some existing =>
        rw [hs] at hat
        have hlt : existing.metadata.index < snapshot.metadata.index := by simpa using hat
        exact (UInt64.lt_iff_toNat_lt.mp hlt).le

/-- META pointing at `snapshot`. -/
def metaFor (s : WalStorage) (snapshot : Snapshot) : Meta :=
  { s.metaRecord with
    snapshotIndex := snapshot.metadata.index
    snapshotTerm := snapshot.metadata.term }

/-- The directory between the META update and the pruning of `save_snapshot`. -/
def savedDir (s : WalStorage) (snapshot : Snapshot) : Dir :=
  FsStep.runAll s.dir [.renameSnapshot snapshot, .writeMeta (s.metaFor snapshot)]

/-- The calls `save_snapshot` makes. -/
def saveSteps (s : WalStorage) (snapshot : Snapshot) : List FsStep :=
  if s.hasSnapshotAt snapshot.metadata.index then []
  else .renameSnapshot snapshot :: .writeMeta (s.metaFor snapshot) ::
    ((s.savedDir snapshot).snapshots.drop snapshotRetention).map fun f => .removeSnapshot f.index f.term

/-- **What `save_snapshot` does**: its calls, and then the store holds the snapshot META points at. -/
theorem saveSnapshot_eq (s : WalStorage) (snapshot : Snapshot) : ∃ confState confChangeIndex,
    s.saveSnapshot snapshot =
      { s with
        dir := FsStep.runAll s.dir (s.saveSteps snapshot)
        journal := s.journal ++ s.saveSteps snapshot
        confState, confChangeIndex
        metaRecord := if s.hasSnapshotAt snapshot.metadata.index then s.metaRecord else s.metaFor snapshot
        snapshot := if s.hasSnapshotAt snapshot.metadata.index then s.snapshot else some snapshot } := by
  by_cases hat : s.hasSnapshotAt snapshot.metadata.index
  · refine ⟨s.confState, s.confChangeIndex, ?_⟩
    simp only [saveSnapshot, saveSteps, if_pos hat, FsStep.runAll_nil, List.append_nil]
  · obtain ⟨confState, confChangeIndex, hadopt⟩ := s.adoptConfState_eq snapshot
    refine ⟨confState, confChangeIndex, ?_⟩
    simp only [saveSnapshot, saveSteps, if_neg hat, hadopt, pruneSnapshots, ioAll_eq, List.append_assoc]
    rfl

theorem segments_saveSteps (s : WalStorage) (snapshot : Snapshot) :
    ∀ step ∈ s.saveSteps snapshot, ∀ d : Dir, (step.run d).segments = d.segments := by
  intro step hstep d
  rw [saveSteps] at hstep
  split_ifs at hstep
  · cases hstep
  · rcases List.mem_cons.mp hstep with rfl | hstep
    · rfl
    · rcases List.mem_cons.mp hstep with rfl | hstep
      · rfl
      · obtain ⟨f, -, rfl⟩ := List.mem_map.mp hstep
        rfl

theorem listSegmentIndices_saveSteps (s : WalStorage) (snapshot : Snapshot) :
    (FsStep.runAll s.dir (s.saveSteps snapshot)).listSegmentIndices = s.dir.listSegmentIndices :=
  congrArg Assoc.keys (FsStep.segments_runAll (s.segments_saveSteps snapshot) s.dir)

/-- A table is adopted once. -/
theorem adoptConfState_adoptConfState (s : WalStorage) (snapshot : Snapshot) :
    (s.adoptConfState snapshot).adoptConfState snapshot = s.adoptConfState snapshot := by
  by_cases hnew : snapshot.metadata.index.toNat > s.confChangeIndex
  · have hadopt : s.adoptConfState snapshot =
        { s with
          confState := snapshot.metadata.confState
          confChangeIndex := snapshot.metadata.index.toNat } := if_pos hnew
    rw [hadopt, adoptConfState, if_neg (Nat.lt_irrefl _)]
  · have hadopt : s.adoptConfState snapshot = s := if_neg hnew
    rw [hadopt, hadopt]

theorem confChangeIndex_adoptConfState (s : WalStorage) (snapshot : Snapshot) :
    (s.adoptConfState snapshot).confChangeIndex = max s.confChangeIndex snapshot.metadata.index.toNat := by
  rw [adoptConfState]
  split_ifs with hnew
  · exact (Nat.max_eq_right (Nat.le_of_lt hnew)).symm
  · exact (Nat.max_eq_left (Nat.not_lt.mp hnew)).symm

/-- The member table is adopted unless nothing is saved. -/
theorem conf_saveSnapshot (s : WalStorage) (snapshot : Snapshot) :
    ((s.saveSnapshot snapshot).confState, (s.saveSnapshot snapshot).confChangeIndex) =
      if s.hasSnapshotAt snapshot.metadata.index then (s.confState, s.confChangeIndex)
      else ((s.adoptConfState snapshot).confState, (s.adoptConfState snapshot).confChangeIndex) := by
  by_cases hat : s.hasSnapshotAt snapshot.metadata.index
  · simp only [saveSnapshot, if_pos hat]
  · simp only [saveSnapshot, if_neg hat, pruneSnapshots, ioAll_eq]

/-- The calls `install_snapshot` makes: it saves the snapshot and then replaces the segments. -/
def replaceSteps (s : WalStorage) (snapshot : Snapshot) : List FsStep :=
  s.dir.listSegmentIndices.map FsStep.removeSegment ++ [.createSegment (snapshot.metadata.index.toNat + 1)]

theorem runAll_replaceSteps (s : WalStorage) (snapshot : Snapshot) {d : Dir} (hd : d.segments = s.dir.segments) :
    FsStep.runAll d (s.replaceSteps snapshot) =
      { d with
        segments := (d.segments.eraseAll d.segments.keys).insertNew (snapshot.metadata.index.toNat + 1) [] } := by
  rw [replaceSteps, Dir.listSegmentIndices, ← hd, FsStep.runAll_append, FsStep.runAll_removeSegments]
  rfl

/-- **What `install_snapshot` does**, unless it is already exactly where the store is. -/
theorem installSnapshot_eq_ok {s s' : WalStorage} {snapshot : Snapshot} (hok : s.installSnapshot snapshot = .ok s') :
    (snapshot.metadata.index.toNat = s.compactedTo ∧ s.entries = [] ∧ s' = s) ∨
      s.compactedTo ≤ snapshot.metadata.index.toNat ∧
      s' =
        { s with
          dir := FsStep.runAll s.dir (s.saveSteps snapshot ++ s.replaceSteps snapshot)
          journal := s.journal ++ (s.saveSteps snapshot ++ s.replaceSteps snapshot)
          segmentFirstIndex := snapshot.metadata.index.toNat + 1
          maxEntryInSegment := 0
          entries := []
          compactedTo := snapshot.metadata.index.toNat
          snapshot := if s.hasSnapshotAt snapshot.metadata.index then s.snapshot else some snapshot
          metaRecord := if s.hasSnapshotAt snapshot.metadata.index then s.metaRecord else s.metaFor snapshot
          confState := (s.adoptConfState snapshot).confState
          confChangeIndex := (s.adoptConfState snapshot).confChangeIndex
          pendingEntryFsync := false } := by
  simp only [installSnapshot] at hok
  split_ifs at hok with hold hsame
  · exact .inl ⟨hsame.1, hsame.2, (Except.ok.inj hok).symm⟩
  · refine .inr ⟨Nat.not_lt.mp hold, (Except.ok.inj hok).symm.trans ?_⟩
    obtain ⟨confState, confChangeIndex, hsave⟩ := (s.adoptConfState snapshot).saveSnapshot_eq snapshot
    have hconf := (s.adoptConfState snapshot).conf_saveSnapshot snapshot
    rw [adoptConfState_adoptConfState, ite_self, hsave] at hconf
    obtain ⟨rfl, rfl⟩ := Prod.mk.inj hconf
    obtain ⟨_, _, hadopt⟩ := s.adoptConfState_eq snapshot
    have hsteps : (s.adoptConfState snapshot).saveSteps snapshot = s.saveSteps snapshot := by
      rw [hadopt]
      rfl
    rw [hsave, replaceLogWithSnapshot, ioAll_eq, hsteps]
    rw [hadopt]
    simp only [listSegmentIndices_saveSteps, FsStep.runAll_append, List.append_assoc, replaceSteps]
    rfl

/-- A new snapshot's file comes first. -/
theorem snapshots_savedDir {opts : WalOptions} {s : WalStorage} {snapshot : Snapshot}
    (h : Snapped opts s.dir.metaFile s.dir.snapshots s.metaRecord s.snapshot)
    (hnot : ¬ s.hasSnapshotAt snapshot.metadata.index) :
    ∃ others, (s.dir.renameSnapshot snapshot).snapshots =
        ⟨snapshot.metadata.index, snapshot.metadata.term, some snapshot⟩ :: others ∧
      others = s.dir.snapshots.filter (fun f =>
        ¬ (f.index = snapshot.metadata.index ∧ f.term = snapshot.metadata.term)) ∧
      ∀ f ∈ others, f.index ≤ s.metaRecord.snapshotIndex := by
  have hle := (lt_of_not_hasSnapshotAt h.index_eq hnot).1
  refine ⟨_, ?_, rfl, fun f hf => h.newest f (List.mem_filter.mp hf).1⟩
  have hold : ∀ f ∈ s.dir.snapshots.filter (fun f =>
      ¬ (f.index = snapshot.metadata.index ∧ f.term = snapshot.metadata.term)),
      f.index ≤ s.metaRecord.snapshotIndex := fun f hf => h.newest f (List.mem_filter.mp hf).1
  show List.orderedInsert _ _ _ = _
  cases ho : s.dir.snapshots.filter (fun f =>
      ¬ (f.index = snapshot.metadata.index ∧ f.term = snapshot.metadata.term)) with
  | nil => rfl
  | cons g l =>
      rw [List.orderedInsert_cons, if_pos]
      exact UInt64.le_trans (hold g (by rw [ho]; simp)) hle

/-- With the new snapshot's file in place and META pointing at it, older files may go. -/
theorem loads_saved {opts : WalOptions} {s : WalStorage} {snapshot : Snapshot}
    (h : Snapped opts s.dir.metaFile s.dir.snapshots s.metaRecord s.snapshot)
    (hnot : ¬ s.hasSnapshotAt snapshot.metadata.index) (fs : List SnapshotFile)
    (hfs : fs ⊆ (s.savedDir snapshot).snapshots.tail) :
    ∃ files newestFirst,
      FsStep.runAll (s.savedDir snapshot) (fs.map fun f => .removeSnapshot f.index f.term) =
        { s.savedDir snapshot with snapshots := files, newestFirst } ∧
      Snapped opts (some (s.metaFor snapshot)) files (s.metaFor snapshot) (some snapshot) := by
  obtain ⟨others, hfiles, -, hold⟩ := snapshots_savedDir h hnot
  obtain ⟨hle, hlt⟩ := lt_of_not_hasSnapshotAt h.index_eq hnot
  have hsaved : (s.savedDir snapshot).snapshots =
      ⟨snapshot.metadata.index, snapshot.metadata.term, some snapshot⟩ :: others := hfiles
  rw [hsaved, List.tail_cons] at hfs
  obtain ⟨files, newestFirst, hrun, hkept⟩ := FsStep.runAll_removeSnapshots (s.savedDir snapshot) fs
  rw [hsaved] at hkept
  refine ⟨files, newestFirst, hrun, ⟨rfl, h.clusterId_eq, h.nodeId_eq, h.version_eq, rfl, fun h0 => ?_⟩,
    fun f hf => ?_⟩
  · -- none of the files removed is the new one: they are older
    rw [hkept, List.filter_cons_of_pos, newestValid, List.filter_cons_of_pos (by simp [metaFor])]
    · simp [SnapshotFile.valid?]
    · simp only [decide_eq_true_eq]
      rintro g hg ⟨heq, -⟩
      have hltg := UInt64.lt_of_le_of_lt (hold g (hfs hg)) (hlt h0)
      rw [← heq] at hltg
      exact absurd hltg (UInt64.lt_irrefl _)
  · rw [hkept] at hf
    rcases List.mem_cons.mp (List.mem_filter.mp hf).1 with rfl | hf
    · exact UInt64.le_refl _
    · exact UInt64.le_trans (hold f hf) hle

/-! ## What appending does -/

/-- What appending to the log leaves alone. -/
structure SameMarks (s s' : WalStorage) : Prop where
  compactedTo_eq : s'.compactedTo = s.compactedTo
  snapshot_eq : s'.snapshot = s.snapshot
  metaRecord_eq : s'.metaRecord = s.metaRecord
  metaFile_eq : s'.dir.metaFile = s.dir.metaFile
  snapshots_eq : s'.dir.snapshots = s.dir.snapshots

theorem SameMarks.rfl' {s : WalStorage} : SameMarks s s := ⟨rfl, rfl, rfl, rfl, rfl⟩

theorem SameMarks.trans {s t u : WalStorage} (h : SameMarks s t) (h' : SameMarks t u) : SameMarks s u :=
  ⟨h'.compactedTo_eq.trans h.compactedTo_eq, h'.snapshot_eq.trans h.snapshot_eq,
    h'.metaRecord_eq.trans h.metaRecord_eq, h'.metaFile_eq.trans h.metaFile_eq,
    h'.snapshots_eq.trans h.snapshots_eq⟩

/-- A rollover creates a segment and switches to it, or nothing happens. -/
theorem maybeRollover_eq (s : WalStorage) (n : Nat) : s.maybeRollover n = s ∨
    ∃ journal pendingEntryFsync notified, s.maybeRollover n =
      { s with
        dir := { s.dir with segments := s.dir.segments.insertNew n [] }
        journal, segmentFirstIndex := n, maxEntryInSegment := 0, pendingEntryFsync, notified } := by
  rw [maybeRollover]
  split_ifs with hfull hpending
  · exact .inr ⟨_, _, _, rfl⟩
  · exact .inr ⟨_, _, _, rfl⟩
  · exact .inl rfl

theorem sameMarks_maybeRollover (s : WalStorage) (n : Nat) : SameMarks s (s.maybeRollover n) := by
  rcases s.maybeRollover_eq n with h | ⟨_, _, _, h⟩
  · rw [h]; exact .rfl'
  · rw [h]; exact ⟨rfl, rfl, rfl, rfl, rfl⟩

theorem entries_maybeRollover (s : WalStorage) (n : Nat) : (s.maybeRollover n).entries = s.entries := by
  rcases s.maybeRollover_eq n with h | ⟨_, _, _, h⟩ <;> rw [h]

theorem appendEntry_eq_ok {s s' : WalStorage} {e : LogEntry} : s.appendEntry e = .ok s' ↔
    e.index.toNat = s.lastIndex + 1 ∧ e.Fits ∧
      s' = { (s.maybeRollover e.index.toNat).io
              (.appendSegment (s.maybeRollover e.index.toNat).segmentFirstIndex (Record.entry e).encode) with
              entries := (s.maybeRollover e.index.toNat).entries ++ [e]
              maxEntryInSegment := e.index.toNat
              pendingEntryFsync := true } := by
  simp only [appendEntry]
  split_ifs with hidx hfits
  · exact ⟨fun h => (nomatch h), fun h => absurd h.1 hidx⟩
  · constructor
    · intro h
      exact ⟨not_not.mp hidx, hfits, (Except.ok.inj h).symm⟩
    · rintro ⟨-, -, rfl⟩
      rfl
  · exact ⟨fun h => (nomatch h), fun h => absurd h.2.1 hfits⟩

theorem entries_of_appendEntry {s s' : WalStorage} {e : LogEntry} (h : s.appendEntry e = .ok s') :
    s'.entries = s.entries ++ [e] ∧ SameMarks s s' := by
  obtain ⟨-, -, rfl⟩ := appendEntry_eq_ok.mp h
  refine ⟨?_, ?_⟩
  · rw [entries_maybeRollover]
  · exact (s.sameMarks_maybeRollover _).trans ⟨rfl, rfl, rfl, rfl, rfl⟩

theorem lastIndex_of_entries_append {s : WalStorage} {es : List LogEntry} {e : LogEntry}
    (h : s.entries = es ++ [e]) : s.lastIndex = e.index.toNat := by
  rw [lastIndex, h, lastEntryIndex?, List.getLast?_concat]
  rfl

/-- **The loop of `append`** succeeds exactly on entries that continue the log and fit a record, and
then adds them. -/
theorem appendAll_eq_ok {s : WalStorage} {es : List LogEntry} :
    (∃ s', es.foldlM appendEntry s = .ok s') ↔
      Consecutive (s.lastIndex + 1) es ∧ ∀ e ∈ es, e.Fits := by
  induction es generalizing s with
  | nil => simp [pure, Except.pure]
  | cons e es ih =>
      rw [List.foldlM_cons, consecutive_cons, List.forall_mem_cons]
      constructor
      · rintro ⟨s', h⟩
        obtain ⟨t, ht, hrest⟩ := Transition.bind_eq_ok.mp h
        obtain ⟨hidx, hfits, -⟩ := appendEntry_eq_ok.mp ht
        have hlast := lastIndex_of_entries_append (entries_of_appendEntry ht).1
        obtain ⟨hcons, hall⟩ := ih.mp ⟨s', hrest⟩
        rw [hlast, hidx] at hcons
        exact ⟨⟨hidx, hcons⟩, hfits, hall⟩
      · rintro ⟨⟨hidx, hcons⟩, hfits, hall⟩
        obtain ⟨t, ht⟩ : ∃ t, s.appendEntry e = .ok t := ⟨_, appendEntry_eq_ok.mpr ⟨hidx, hfits, rfl⟩⟩
        have hlast := lastIndex_of_entries_append (entries_of_appendEntry ht).1
        obtain ⟨s', hs'⟩ := ih.mpr ⟨by rwa [hlast, hidx], hall⟩
        exact ⟨s', Transition.bind_eq_ok.mpr ⟨t, ht, hs'⟩⟩

theorem entries_of_appendAll {s s' : WalStorage} {es : List LogEntry}
    (h : es.foldlM appendEntry s = .ok s') : s'.entries = s.entries ++ es ∧ SameMarks s s' := by
  induction h using Transition.foldlM_induction with
  | nil => exact ⟨by simp, .rfl'⟩
  | cons ht _ ih =>
      obtain ⟨hent, hmarks⟩ := entries_of_appendEntry ht
      obtain ⟨hent', hmarks'⟩ := ih
      refine ⟨?_, hmarks.trans hmarks'⟩
      rw [hent', hent, List.append_assoc]
      rfl

theorem lastIndex_of_appendAll {s s' : WalStorage} {es : List LogEntry} (h : es.foldlM appendEntry s = .ok s') :
    s'.lastIndex = s.lastIndex + es.length := by
  induction h using Transition.foldlM_induction with
  | nil => rfl
  | cons ht _ ih =>
      obtain ⟨hidx, -, -⟩ := appendEntry_eq_ok.mp ht
      have hlast := lastIndex_of_entries_append (entries_of_appendEntry ht).1
      rw [ih, hlast, hidx, List.length_cons]
      omega

/-- A sync changes no file. -/
theorem syncEntries_eq (s : WalStorage) : ∃ journal pendingEntryFsync notified,
    s.syncEntries = { s with journal, pendingEntryFsync, notified } := by
  rw [syncEntries]
  split
  · exact ⟨_, _, _, rfl⟩
  · split_ifs
    · exact ⟨_, _, _, rfl⟩
    · exact ⟨s.journal, s.pendingEntryFsync, s.notified, rfl⟩

/-! ## What an overwriting append cuts off -/

/-- The files are cut just past the record the scan found. -/
theorem truncateLogTo_of_some {s : WalStorage} {keep first offset : Nat}
    (hlast : keep < (lastEntryIndex? s.entries).getD 0)
    (hfind : findHolding keep s.dir.segments.toList = some (first, offset)) :
    ∃ journal, (s.truncateLogTo keep).1 =
      { s with
        dir := { s.dir with
          segments := (s.dir.segments.modify first (·.take offset)).eraseAll
            (s.dir.segments.keys.filter (first < ·)) }
        journal, segmentFirstIndex := first, maxEntryInSegment := keep
        entries := s.entries.take keep, pendingEntryFsync := false } := by
  refine ⟨s.journal ++ (.truncateSegment first offset :: .syncSegment first ::
    (s.dir.segments.keys.filter (first < ·)).map FsStep.removeSegment), ?_⟩
  simp only [truncateLogTo, if_neg (Nat.not_le.mpr hlast), hfind, ioAll_eq, Dir.listSegmentIndices]
  rw [show ∀ steps, FsStep.runAll s.dir (.truncateSegment first offset :: .syncSegment first :: steps) =
      FsStep.runAll { s.dir with segments := s.dir.segments.modify first (·.take offset) } steps
    from fun _ => rfl, FsStep.runAll_removeSegments]

/-- Without a record to keep, everything goes. -/
theorem truncateLogTo_of_none {s : WalStorage} {keep : Nat}
    (hlast : keep < (lastEntryIndex? s.entries).getD 0)
    (hfind : findHolding keep s.dir.segments.toList = none) :
    ∃ journal, (s.truncateLogTo keep).1 =
      { s with
        dir := { s.dir with
          segments := (s.dir.segments.eraseAll s.dir.segments.keys).insertNew 1 [] }
        journal, segmentFirstIndex := 1, maxEntryInSegment := 0
        entries := s.entries.take keep, pendingEntryFsync := false } := by
  refine ⟨s.journal ++ (s.dir.segments.keys.map FsStep.removeSegment ++ [.createSegment 1]), ?_⟩
  simp only [truncateLogTo, if_neg (Nat.not_le.mpr hlast), hfind, ioAll_eq, Dir.listSegmentIndices]
  rw [FsStep.runAll_append, FsStep.runAll_removeSegments]
  rfl

/-- The in-memory log is cut by position, whatever happens to the files. -/
theorem entries_truncateLogTo {s : WalStorage} {keep : Nat}
    (hlast : keep < (lastEntryIndex? s.entries).getD 0) :
    (s.truncateLogTo keep).1.entries = s.entries.take keep ∧ SameMarks s (s.truncateLogTo keep).1 := by
  cases hfind : findHolding keep s.dir.segments.toList with
  | none =>
      obtain ⟨_, h⟩ := truncateLogTo_of_none hlast hfind
      rw [h]
      exact ⟨rfl, rfl, rfl, rfl, rfl, rfl⟩
  | some hit =>
      obtain ⟨_, h⟩ := @truncateLogTo_of_some s keep hit.1 hit.2 hlast hfind
      rw [h]
      exact ⟨rfl, rfl, rfl, rfl, rfl, rfl⟩

/-- When `append` cuts a suffix: the first index is within the log, above watermark and commit. -/
theorem overwriteSuffix_eq_ok {s t : WalStorage} {first : LogEntry}
    (hle : first.index.toNat ≤ s.lastIndex) : s.overwriteSuffix first = .ok t ↔
      s.compactedTo ≤ first.index.toNat - 1 ∧ s.hardState.commit.toNat ≤ first.index.toNat - 1 ∧
        t = (s.truncateLogTo (first.index.toNat - 1)).1 := by
  simp only [overwriteSuffix, if_pos hle]
  split_ifs with hmark hcommit
  · exact ⟨fun h => (nomatch h), fun h => absurd h.1 (Nat.not_le.mpr hmark)⟩
  · exact ⟨fun h => (nomatch h), fun h => absurd h.2.1 (Nat.not_le.mpr hcommit)⟩
  · constructor
    · intro h
      exact ⟨Nat.not_lt.mp hmark, Nat.not_lt.mp hcommit, (Except.ok.inj h).symm⟩
    · rintro ⟨-, -, rfl⟩
      rfl

theorem overwriteSuffix_of_gt {s : WalStorage} {first : LogEntry} (hgt : s.lastIndex < first.index.toNat) :
    s.overwriteSuffix first = .ok s := by
  rw [overwriteSuffix, if_neg (Nat.not_le.mpr hgt)]

/-- **Appending at the end of the log** goes straight to the loop. -/
theorem append_of_consecutive {s : WalStorage} {es : List LogEntry} (hcons : Consecutive (s.lastIndex + 1) es)
    (hfits : ∀ e ∈ es, e.Fits) : ∃ s', s.append es = .ok s' ∧ es.foldlM appendEntry s = .ok s' := by
  obtain ⟨s', hloop⟩ := appendAll_eq_ok.mpr ⟨hcons, hfits⟩
  refine ⟨s', ?_, hloop⟩
  cases es with
  | nil => exact hloop
  | cons e es =>
      have hidx := (consecutive_cons.mp hcons).1
      exact Transition.bind_eq_ok.mpr ⟨s, overwriteSuffix_of_gt (by omega), hloop⟩

/-! ## What compaction unlinks -/

@[simp] theorem windows_cons_cons (k k' : Nat) (ks : List Nat) :
    windows (k :: k' :: ks) = (k, k') :: windows (k' :: ks) := rfl

theorem lt_of_mem_windows {k : Nat} {ks : List Nat} (hasc : (k :: ks).Pairwise (· < ·))
    {w : Nat × Nat} (hw : w ∈ windows (k :: ks)) : k < w.2 :=
  (List.pairwise_cons.mp hasc).1 w.2 (List.of_mem_zip hw).2

/-- `Covered ks limit pre post`: `ks` is `pre` followed by a non-empty `post` whose first index is at most
`limit` unless `pre` is empty. What compaction unlinks is such a `pre`. -/
structure Covered (ks : List Nat) (limit : Nat) (pre post : List Nat) : Prop where
  eq : ks = pre ++ post
  ne_nil : post ≠ []
  head_le : pre ≠ [] → ∀ n ∈ post.head?, n ≤ limit

theorem Covered.nil {ks : List Nat} (limit : Nat) (hne : ks ≠ []) : Covered ks limit [] ks :=
  ⟨rfl, hne, fun h => absurd rfl h⟩

theorem Covered.cons {k k' limit : Nat} {ks pre post : List Nat}
    (h : Covered (k' :: ks) limit pre post) (hle : k' ≤ limit) :
    Covered (k :: k' :: ks) limit (k :: pre) post := by
  refine ⟨by rw [h.eq]; rfl, h.ne_nil, fun _ n hn => ?_⟩
  by_cases hpre : pre = []
  · have heq := h.eq
    rw [hpre, List.nil_append] at heq
    rw [← heq] at hn
    obtain rfl : k' = n := by simpa using hn
    exact hle
  · exact h.head_le hpre n hn

/-- Without a trailing window, the segments to unlink are the leading ones. -/
theorem windows_filter_eq {ks : List Nat} (hasc : ks.Pairwise (· < ·)) {active : Nat}
    (hlast : ks.getLast? = some active) (limit : Nat) :
    ∃ pre post, Covered ks limit pre post ∧
      ((windows ks).filter fun w => w.2 ≤ limit ∧ w.1 ≠ active).map Prod.fst = pre := by
  induction ks with
  | nil => simp at hlast
  | cons k ks ih =>
      cases ks with
      | nil => exact ⟨[], [k], .nil _ (by simp), rfl⟩
      | cons k' ks =>
          obtain ⟨hk, hasc'⟩ := List.pairwise_cons.mp hasc
          have hlast' : (k' :: ks).getLast? = some active := by simpa using hlast
          have hactive : k ≠ active := Nat.ne_of_lt (hk active (List.mem_of_getLast? hlast'))
          by_cases hle : k' ≤ limit
          · obtain ⟨pre, post, hcov, hpre⟩ := ih hasc' hlast'
            refine ⟨k :: pre, post, hcov.cons hle, ?_⟩
            rw [windows_cons_cons, List.filter_cons_of_pos (by simpa using ⟨hle, hactive⟩), List.map_cons, hpre]
          · refine ⟨[], _, .nil _ (by simp), ?_⟩
            rw [List.map_eq_nil_iff, List.filter_eq_nil_iff]
            intro w hw
            rw [windows_cons_cons, List.mem_cons] at hw
            have hlt : limit < w.2 := by
              rcases hw with rfl | hw
              · exact Nat.not_le.mp hle
              · have := lt_of_mem_windows hasc' hw
                omega
            simp only [decide_eq_true_eq, not_and]
            omega

/-- With a trailing window, the loop unlinks leading segments too, and the effective watermark is just
below the first one it keeps. -/
theorem compactTrailing_eq {ks : List Nat} (hasc : ks.Pairwise (· < ·)) {s : WalStorage}
    (hlast : ks.getLast? = some s.segmentFirstIndex) (indices : List Nat) (compactTo effective : Nat) :
    ∃ pre post journal effective', Covered ks (compactTo + 1) pre post ∧
      compactTrailing indices compactTo (windows ks) s effective =
        ({ s with dir := { s.dir with segments := s.dir.segments.eraseAll pre }, journal }, effective') ∧
      (pre = [] → effective' = effective) ∧
      (pre ≠ [] → ∀ n ∈ post.head?, effective' = n - 1) := by
  induction ks generalizing s effective with
  | nil => simp at hlast
  | cons k ks ih =>
      have hstop : ∃ pre post journal effective', Covered (k :: ks) (compactTo + 1) pre post ∧
          (s, effective) = ({ s with dir := { s.dir with segments := s.dir.segments.eraseAll pre }, journal },
            effective') ∧ (pre = [] → effective' = effective) ∧
          (pre ≠ [] → ∀ n ∈ post.head?, effective' = n - 1) :=
        ⟨[], _, s.journal, effective, .nil _ (by simp), rfl, fun _ => rfl, fun h => absurd rfl h⟩
      cases ks with
      | nil => exact hstop
      | cons k' ks =>
          obtain ⟨hk, hasc'⟩ := List.pairwise_cons.mp hasc
          have hlast' : (k' :: ks).getLast? = some s.segmentFirstIndex := by simpa using hlast
          have hactive : k ≠ s.segmentFirstIndex := Nat.ne_of_lt (hk _ (List.mem_of_getLast? hlast'))
          rw [windows_cons_cons, compactTrailing]
          split_ifs with hbeyond hwindow
          · exact hstop
          · exact hstop
          · -- `k` goes; the rest of the loop runs on the directory without it
            obtain ⟨pre, post, journal, effective', hcov, hrun, hnil, hcons⟩ :=
              @ih hasc' (s.io (.removeSegment k)) hlast' (k' - 1)
            refine ⟨k :: pre, post, journal, effective', hcov.cons (Nat.not_lt.mp hbeyond), hrun, by simp, ?_⟩
            intro _ n hn
            by_cases hpre : pre = []
            · have heq := hcov.eq
              rw [hpre, List.nil_append] at heq
              rw [← heq] at hn
              obtain rfl : k' = n := by simpa using hn
              exact hnil hpre
            · exact hcons hpre n hn

/-- When compaction succeeds, and what it amounts to. -/
theorem compact_eq_ok {s s' : WalStorage} {compactTo : Nat} (hok : s.compact compactTo = .ok s') :
    compactTo ≤ s.compactedTo ∧ s' = s ∨
      s.compactedTo < compactTo ∧ compactTo ≤ s.lastIndex ∧ compactTo ≤ watermark s.snapshot ∧
        (s.trailingKeepBytes = 0 ∧ s' = s.compactWhole compactTo ∨
          s.trailingKeepBytes ≠ 0 ∧ s' = s.compactWindow compactTo) := by
  simp only [compact] at hok
  split at hok
  · next hdone => exact .inl ⟨hdone, (Except.ok.inj hok).symm⟩
  · next hdone =>
      refine .inr ⟨Nat.not_le.mp hdone, ?_⟩
      split at hok
      · cases hok
      · next hlast =>
          refine ⟨Nat.not_lt.mp hlast, ?_⟩
          cases hsnap : s.snapshot with
          | none => rw [hsnap] at hok; cases hok
          | some snapshot =>
              rw [hsnap] at hok
              dsimp only at hok
              split at hok
              · cases hok
              · next hcover =>
                  refine ⟨Nat.not_lt.mp hcover, ?_⟩
                  split at hok
                  · next hkeep => exact .inl ⟨hkeep, (Except.ok.inj hok).symm⟩
                  · next hkeep => exact .inr ⟨hkeep, (Except.ok.inj hok).symm⟩

/-- Compaction unlinks a leading run of segments and raises the watermark to `mark`: to `compactTo`
without a window; with one, to just below the first segment kept, or not at all. -/
theorem compactWhole_eq {s : WalStorage} (hasc : s.dir.listSegmentIndices.Pairwise (· < ·))
    (hlast : s.dir.listSegmentIndices.getLast? = some s.segmentFirstIndex) (compactTo : Nat) :
    ∃ pre post journal, Covered s.dir.listSegmentIndices (compactTo + 1) pre post ∧
      s.compactWhole compactTo =
        { s with
          dir := { s.dir with segments := s.dir.segments.eraseAll pre }
          journal
          entries := s.entries.filter (compactTo < ·.index.toNat), compactedTo := compactTo } := by
  obtain ⟨pre, post, hcov, hpre⟩ := windows_filter_eq hasc hlast (compactTo + 1)
  refine ⟨pre, post, s.journal ++ pre.map .removeSegment, hcov, ?_⟩
  have hsteps : (((windows s.dir.listSegmentIndices).filter fun w =>
      w.2 ≤ compactTo + 1 ∧ w.1 ≠ s.segmentFirstIndex).map fun w => FsStep.removeSegment w.1) =
      pre.map FsStep.removeSegment := by
    rw [← hpre, List.map_map]; rfl
  simp only [compactWhole, deleteSegmentsBelow, ioAll_eq, hsteps, FsStep.runAll_removeSegments]

theorem compactWindow_eq {s : WalStorage} (hasc : s.dir.listSegmentIndices.Pairwise (· < ·))
    (hlast : s.dir.listSegmentIndices.getLast? = some s.segmentFirstIndex) (compactTo : Nat) :
    ∃ pre post journal mark, Covered s.dir.listSegmentIndices (compactTo + 1) pre post ∧
      s.compactWindow compactTo =
        { s with
          dir := { s.dir with segments := s.dir.segments.eraseAll pre }
          journal
          entries := s.entries.filter (mark < ·.index.toNat), compactedTo := mark } ∧
      (pre = [] → mark = s.compactedTo) ∧ (pre ≠ [] → ∀ n ∈ post.head?, mark = n - 1) := by
  obtain ⟨pre, post, journal, mark, hcov, hrun, hnil, hcons⟩ :=
    compactTrailing_eq hasc hlast s.dir.listSegmentIndices compactTo s.compactedTo
  refine ⟨pre, post, journal, mark, hcov, ?_, hnil, hcons⟩
  simp only [compactWindow, hrun]

end WalStorage

end Arachne.Storage
