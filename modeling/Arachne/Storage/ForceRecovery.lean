import Arachne.Storage.Contents
import Arachne.Storage.Crash
import Arachne.Storage.Read
import Arachne.Storage.TornTail

/-! # Force recovery

`force_recovery` resets a data directory to its committed point: it opens the directory, cuts the log behind the commit,
writes a hard state with the next term and a vote for itself, and renames the cluster in META.

Whatever the directory holds, if it opens and its commit is not below the loaded snapshot, what is left opens under the
new name with the same snapshot and exactly the committed entries (`force_recovery_keeps_committed`). The cut may fall
anywhere: behind an entry in some segment, nowhere if nothing is uncommitted, or on the snapshot's own index if the entry
is no longer on disk, in which case the log starts over in a new segment 1.

That later appends survive a reopen needs more (`WalStorage.Resumable`), and crashes can take it away
(`appends_lost_after_recovery`).

* A crash within a cut can leave an empty segment that is named far above the log (`strandedSegment`). The recovered store
  goes on writing to it and rolls over to a segment with a *smaller* name.
* A crash within the install of a snapshot can leave a log that ends below the snapshot (`staleLog`). Nothing is cut off
  from it, and the entries behind the snapshot are written after those entries. -/

namespace Arachne.Storage

/-- What a force recovery reports. -/
structure ForceRecoveryReport where
  previousClusterId : String
  clusterId : String
  term : UInt64
  commit : UInt64
  discardedEntries : Nat
  deriving DecidableEq, Repr

namespace WalStorage

/-- `WalStorage::force_recovery`: the directory afterwards, and the report or the error. The new term is a `u64`. -/
def forceRecovery (dir : Dir) (nodeId : String) (newClusterId : Option String) (config : WalConfig)
    (createdAtMillis : UInt64) : Dir × Except StorageError ForceRecoveryReport :=
  match dir.metaFile with
  | none =>
    (dir, .error (.unrecoverable
      "force-recovery: cannot read META: META I/O error: No such file or directory (os error 2)"))
  | some metaRecord =>
    if metaRecord.nodeId ≠ nodeId then
      (dir, .error (.unrecoverable ("force-recovery: data dir node_id " ++ metaRecord.nodeId.quote ++
        " does not match " ++ nodeId.quote)))
    else
      let previousClusterId := metaRecord.clusterId
      let targetClusterId := newClusterId.getD previousClusterId
      if targetClusterId = "" then
        (dir, .error (.unrecoverable "force-recovery: cluster_id must be non-empty"))
      else
        match openDir dir ⟨previousClusterId, nodeId, config, createdAtMillis⟩ with
        | (dir, .error e) => (dir, .error e)
        | (_, .ok wal) =>
          let commit := wal.hardState.commit
          let term := wal.hardState.term + 1
          let (wal, discarded) := wal.truncateLogTo commit.toNat
          let wal := wal.setHardState ⟨term, some 1, commit⟩
          -- META as it was read at the start
          let newMeta := { metaRecord with clusterId := targetClusterId }
          (FsStep.run wal.dir (.writeMeta newMeta),
            .ok ⟨previousClusterId, targetClusterId, term, commit, discarded⟩)

end WalStorage

open WalStorage

/-! ## The cut -/

/-- The log of an opened store can be taken up again behind `c`. A segment named above the next entry goes with the cut:
something is cut off, and the segment holds nothing else. And the entries on disk, if there are any, reach `c`. -/
def WalStorage.Resumable (s : WalStorage) (c : Nat) : Prop :=
  (∀ seg ∈ s.dir.log.toList, c + 1 < seg.1 → c < s.lastIndex ∧ ∀ e ∈ entriesOf seg.2, c < e.index.toNat) ∧
    ∀ last ∈ lastEntryIndex? s.dir.log.entries, c ≤ last

instance (s : WalStorage) (c : Nat) : Decidable (s.Resumable c) := inferInstanceAs (Decidable (_ ∧ _))

variable {s : WalStorage} {log : Log} {c : Nat}

/-- Only a log that is not empty is cut. -/
theorem lastIndex_of_cut (hcut : c < (lastEntryIndex? s.entries).getD 0) :
    (lastEntryIndex? s.entries).getD 0 = s.lastIndex := by
  rw [lastIndex]
  cases hlast : lastEntryIndex? s.entries with
  | none => simp [hlast] at hcut
  | some last => rfl

namespace Replayed

theorem log_eq (h : Replayed s log) : s.dir.log = log := Dir.log_of_reads h.reads

theorem aligned (h : Replayed s log) : s.Aligned := by
  rw [WalStorage.Aligned, h.entries_eq]
  exact h.joins.gapless.consecutive_above

/-- The last index is on disk or the snapshot's. -/
theorem lastIndex_eq (h : Replayed s log) :
    s.lastIndex = max ((lastEntryIndex? log.entries).getD s.compactedTo) s.compactedTo := by
  rw [lastIndex, h.entries_eq]
  exact h.joins.gapless.lastIndex_above

/-- Nothing on disk lies above the last index. -/
theorem index_le (h : Replayed s log) {e : LogEntry} (he : e ∈ log.entries) : e.index.toNat ≤ s.lastIndex := by
  obtain ⟨first, -, hcons, hlen⟩ := h.joins.gapless
  have hbound := (hcons.index_bounds he).2
  rw [h.lastIndex_eq]
  omega

/-- The entries on disk up to an index come first. -/
theorem filter_le_isInitial (h : Replayed s log) (c : Nat) : log.entries.filter (·.index.toNat ≤ c) <+: log.entries := by
  obtain ⟨first, -, hcons, -⟩ := h.joins.gapless
  rw [hcons.filter_le]
  exact List.take_prefix _ _

/-- The cut behind an entry that is on disk. -/
theorem cut_behind (h : Replayed s log) {e : LogEntry} (he : e ∈ log.entries)
    (hcut : e.index.toNat < (lastEntryIndex? s.entries).getD 0) :
    ∃ log' : Log, Holds (s.truncateLogTo e.index.toNat).1 log' ∧
      log'.entries = log.entries.filter (·.index.toNat ≤ e.index.toNat) ∧
      (s.Resumable e.index.toNat → ∀ k ∈ log'.keys, k ≤ e.index.toNat + 1) := by
  obtain ⟨first, -, hcons, -⟩ := h.joins.gapless
  obtain ⟨pre, n, xs, ys, post, hlog⟩ := Inv.exists_place he
  have hseg : (n, xs ++ .entry e :: ys) ∈ log.toList := by
    rw [hlog]
    simp
  have hsplit : xs ++ Record.entry e :: ys = (xs ++ [.entry e]) ++ ys := by simp
  -- in ascending order the entries before it are smaller, and the ones behind it larger
  have hentries : log.entries = entriesOf (recordsOf pre ++ xs) ++ e :: entriesOf (ys ++ recordsOf post) := by
    rw [Log.entries, Log.records, hlog]
    simp [recordsOf_append]
  have hsorted := hcons.pairwise
  rw [hentries, List.pairwise_append, List.pairwise_cons] at hsorted
  obtain ⟨-, ⟨hafter, -⟩, hbefore⟩ := hsorted
  have hfirst : ∀ e' ∈ entriesOf (recordsOf pre ++ xs), e'.index.toNat < e.index.toNat :=
    fun e' he' => hbefore e' he' e List.mem_cons_self
  rw [hsplit] at hlog
  obtain ⟨before, front, back, after, hfiles, hpre, hfront, log', hlog', hreads⟩ := h.toHolds.cut hlog
  have hfind : findHolding e.index.toNat s.dir.segments.toList = some (n, front.length) := by
    rw [hfiles]
    exact findHolding_reads hpre hfront fun e' he' => Nat.ne_of_lt (hfirst e' he')
  obtain ⟨_, htrunc⟩ := truncateLogTo_of_some hcut hfind
  refine ⟨log', ⟨?_, pre, xs ++ [.entry e], ?_⟩, ?_, fun hres k hk => ?_⟩
  · rw [htrunc]
    exact hreads
  · rw [htrunc, hlog']
  · have hkept : (entriesOf (recordsOf pre ++ xs)).filter (·.index.toNat ≤ e.index.toNat) =
        entriesOf (recordsOf pre ++ xs) :=
      List.filter_eq_self.mpr fun e' he' => by simpa using (hfirst e' he').le
    have hgone : (entriesOf (ys ++ recordsOf post)).filter (·.index.toNat ≤ e.index.toNat) = [] :=
      List.filter_eq_nil_iff.mpr fun e' he' => by simpa using hafter e' he'
    rw [hentries, List.filter_append, List.filter_cons_of_pos (by simp), hkept, hgone, Log.entries, Log.records, hlog']
    simp [recordsOf_append]
  · -- the segment cut holds the entry itself
    refine (Assoc.le_of_mem_keys hlog' hk).trans (Nat.not_lt.mp fun hlt => ?_)
    rw [WalStorage.Resumable, h.log_eq] at hres
    exact absurd ((hres.1 _ hseg hlt).2 e (by simp)) (Nat.lt_irrefl _)

/-- The cut at an index that is not on disk: the log starts over. -/
theorem cut_nowhere (h : Replayed s log) (hmark : s.compactedTo ≤ c) (hnone : ∀ e ∈ log.entries, e.index.toNat ≠ c)
    (hcut : c < (lastEntryIndex? s.entries).getD 0) :
    ∃ log' : Log, Holds (s.truncateLogTo c).1 log' ∧ log'.entries = log.entries.filter (·.index.toNat ≤ c) ∧
      ∀ k ∈ log'.keys, k ≤ c + 1 := by
  have hfind : findHolding c s.dir.segments.toList = none := by
    have hskip := findHolding_skip h.reads hnone []
    rw [List.append_nil] at hskip
    exact hskip
  obtain ⟨_, htrunc⟩ := truncateLogTo_of_none hcut hfind
  have hempty : s.dir.segments.eraseAll s.dir.segments.keys = .empty := Assoc.eraseAll_keys _
  refine ⟨Assoc.empty.insertNew 1 [], ⟨?_, [], [], ?_⟩, ?_, fun k hk => ?_⟩
  · rw [htrunc]
    dsimp only
    rw [hempty]
    exact .cons ⟨rfl, .nil⟩ .nil
  · rw [htrunc]
    rfl
  · -- an entry up to `c` would make `c` itself an index of the log
    refine (List.filter_eq_nil_iff.mpr fun e he => ?_).symm
    obtain ⟨first, -, hcons, hlen⟩ := h.joins.gapless
    have hlast := h.lastIndex_eq
    rw [lastIndex_of_cut hcut] at hcut
    simp only [decide_eq_true_eq, Nat.not_le]
    by_contra hle
    have hbounds := hcons.index_bounds he
    obtain ⟨e', he', hidx⟩ := hcons.exists_mem (i := c) (by omega) (by omega)
    exact hnone e' he' hidx
  · obtain rfl : k = 1 := List.mem_singleton.mp hk
    exact Nat.le_add_left 1 c

/-- **The cut at the commit** keeps exactly the entries up to it. -/
theorem truncateLogTo (h : Replayed s log) (hmark : s.compactedTo ≤ c) (hc : c ≤ s.lastIndex) :
    (∃ log' : Log, Holds (s.truncateLogTo c).1 log' ∧ log'.entries = log.entries.filter (·.index.toNat ≤ c) ∧
      (s.Resumable c → ∀ k ∈ log'.keys, k ≤ c + 1)) ∧
    SameMarks s (s.truncateLogTo c).1 ∧ (s.truncateLogTo c).2 = (s.entries.filter (c < ·.index.toNat)).length := by
  have haligned := h.aligned
  have hlast := haligned.lastIndex_eq
  have habove := Consecutive.length_filter_gt haligned (m := c) (by omega)
  by_cases hcut : (lastEntryIndex? s.entries).getD 0 ≤ c
  · -- nothing is uncommitted
    have heq : s.truncateLogTo c = (s, 0) := by rw [WalStorage.truncateLogTo, if_pos hcut]
    have hcount : s.lastIndex ≤ c := by
      rw [lastIndex]
      cases hlast? : lastEntryIndex? s.entries with
      | none => exact hmark
      | some last => rwa [hlast?] at hcut
    rw [heq]
    refine ⟨⟨log, h.toHolds, ?_, fun hres k hk => ?_⟩, .rfl', ?_⟩
    · exact (List.filter_eq_self.mpr fun e he => by simpa using (h.index_le he).trans hcount).symm
    · obtain ⟨seg, hseg, rfl⟩ := List.mem_map.mp hk
      rw [WalStorage.Resumable, h.log_eq] at hres
      by_contra hlt
      have hless := (hres.1 seg hseg (Nat.not_le.mp hlt)).1
      omega
    · dsimp only
      omega
  · have hcut' : c < (lastEntryIndex? s.entries).getD 0 := Nat.not_le.mp hcut
    obtain ⟨-, hmarks⟩ := entries_truncateLogTo hcut'
    refine ⟨?_, hmarks, ?_⟩
    · by_cases hon : ∃ e ∈ log.entries, e.index.toNat = c
      · obtain ⟨e, he, rfl⟩ := hon
        exact h.cut_behind he hcut'
      · obtain ⟨log', hholds, hentries, hnames⟩ := h.cut_nowhere hmark (fun e he hidx => hon ⟨e, he, hidx⟩) hcut'
        exact ⟨log', hholds, hentries, fun _ => hnames⟩
    · have hlastEq := lastIndex_of_cut hcut'
      rw [WalStorage.truncateLogTo, if_neg hcut]
      dsimp only
      omega

/-- What the cut leaves of a resumable log reaches the commit. -/
theorem gapless_of_resumable (h : Replayed s log) (hres : s.Resumable c) (hmark : s.compactedTo ≤ c)
    (hc : c ≤ s.lastIndex) : Gapless (log.entries.filter (·.index.toNat ≤ c)) c s.compactedTo := by
  have hgap := h.joins.gapless.filter_le hmark
  have hreach : c ≤ (lastEntryIndex? log.entries).getD s.compactedTo := by
    rw [WalStorage.Resumable, h.log_eq] at hres
    rw [h.lastIndex_eq] at hc
    cases hlast : lastEntryIndex? log.entries with
    | none => simpa [hlast] using hc
    | some last => exact hres.2 last hlast
  rwa [Nat.min_eq_right hreach] at hgap

end Replayed

/-! ## Opening what a store has written -/

/-- META is on disk as in memory, and the snapshot is the one it names. -/
structure Loaded (s : WalStorage) : Prop where
  metaFile_eq : s.dir.metaFile = some s.metaRecord
  version_eq : s.metaRecord.formatVersion = formatVersion
  snapshot_eq : s.snapshot = loadSnapshot s.dir s.metaRecord.snapshotIndex
  compactedTo_eq : s.compactedTo = watermark s.snapshot

/-- The snapshot depends on the snapshot files only. -/
theorem loadSnapshot_congr {d d' : Dir} (h : d'.snapshots = d.snapshots) (index : UInt64) :
    loadSnapshot d' index = loadSnapshot d index := by
  rw [loadSnapshot, loadSnapshot, h]

theorem Loaded.of_sameMarks {s' : WalStorage} (h : Loaded s) (hmarks : SameMarks s s') : Loaded s' where
  metaFile_eq := by rw [hmarks.metaFile_eq, hmarks.metaRecord_eq, h.metaFile_eq]
  version_eq := by rw [hmarks.metaRecord_eq, h.version_eq]
  snapshot_eq := by rw [hmarks.snapshot_eq, hmarks.metaRecord_eq, loadSnapshot_congr hmarks.snapshots_eq, h.snapshot_eq]
  compactedTo_eq := by rw [hmarks.compactedTo_eq, hmarks.snapshot_eq, h.compactedTo_eq]

variable {opts : WalOptions} {clusterId : String}

/-- **A store whose log joins its snapshot** can be opened again. -/
theorem Holds.reopens (h : Holds s log) (hloaded : Loaded s) (hcluster : opts.clusterId = s.metaRecord.clusterId)
    (hnode : opts.nodeId = s.metaRecord.nodeId)
    (hnamed : s.metaRecord.snapshotIndex ≠ 0 → s.snapshot = none → ∀ e ∈ log.entries.head?, e.index.toNat = 1)
    {last : Nat} (hgap : Gapless log.entries last s.compactedTo)
    (hcommit : (hardStateOf log.records).commit.toNat ≤ max last s.compactedTo) :
    ∃ t, (openDir s.dir opts).2 = .ok t ∧ SameMarks s t ∧ Replayed t log ∧ t.lastIndex = max last s.compactedTo := by
  have hlegible : Legible opts s.dir s.metaRecord log :=
    ⟨recoverMeta_of_some hloaded.metaFile_eq hcluster.symm hnode.symm hloaded.version_eq, h.reads⟩
  have hne : log.toList ≠ [] := by
    obtain ⟨pre, xs, hlog⟩ := h.active_last
    simp [hlog]
  rw [hloaded.snapshot_eq] at hnamed
  have hmark : watermark (loadSnapshot s.dir s.metaRecord.snapshotIndex) = s.compactedTo := by
    rw [← hloaded.snapshot_eq, hloaded.compactedTo_eq]
  obtain ⟨t, hopen, hdir, hmeta, hsnapshot, hcompacted, ht⟩ := hlegible.replayed hne hmark hnamed hgap.joins
    (by rw [hgap.lastIndex_above]; exact hcommit)
  refine ⟨t, hopen, ⟨hcompacted, ?_, hmeta, congrArg Dir.metaFile hdir, congrArg Dir.snapshots hdir⟩, ht, ?_⟩
  · rw [hsnapshot, hloaded.snapshot_eq]
  · rw [lastIndex, ht.entries_eq, hcompacted, hgap.lastIndex_above]

/-! ## What is left -/

theorem Holds.setHardState (h : Holds s log) (hs : HardState) :
    ∃ log' : Log, Holds (s.setHardState hs) log' ∧ log'.records = log.records ++ [.hardState hs] ∧
      log'.keys = log.keys := by
  refine h.write trivial ?_ ?_
  · rw [WalStorage.setHardState, ioAll_eq]
    rfl
  · rw [WalStorage.setHardState, ioAll_eq]
    rfl

theorem sameMarks_setHardState (s : WalStorage) (hs : HardState) : SameMarks s (s.setHardState hs) := by
  rw [WalStorage.setHardState, ioAll_eq]
  exact ⟨rfl, rfl, rfl, rfl, rfl⟩

/-- The hard state of a reset cluster. -/
def HardState.reset (hs : HardState) : HardState := ⟨hs.term + 1, some 1, hs.commit⟩

/-- The store that has been reset to its commit under a name. -/
def WalStorage.reset (s : WalStorage) (clusterId : String) : WalStorage :=
  let t := (s.truncateLogTo s.hardState.commit.toNat).1.setHardState s.hardState.reset
  let metaRecord := { s.metaRecord with clusterId }
  { t with dir := FsStep.run t.dir (.writeMeta metaRecord), metaRecord }

namespace Replayed

/-- **What a reset leaves**: the committed entries and the new hard state, behind the same snapshot. -/
theorem reset (h : Replayed s log) (hloaded : Loaded s) (hmark : s.compactedTo ≤ s.hardState.commit.toNat)
    (clusterId : String) :
    ∃ log' : Log, Holds (s.reset clusterId) log' ∧ Loaded (s.reset clusterId) ∧
      ((s.reset clusterId).snapshot = s.snapshot ∧ (s.reset clusterId).compactedTo = s.compactedTo) ∧
      log'.entries = log.entries.filter (·.index.toNat ≤ s.hardState.commit.toNat) ∧
      hardStateOf log'.records = s.hardState.reset ∧
      (s.Resumable s.hardState.commit.toNat → ∀ k ∈ log'.keys, k ≤ s.hardState.commit.toNat + 1) := by
  obtain ⟨⟨log₁, h₁, hentries, hnames⟩, hmarks, -⟩ := h.truncateLogTo hmark h.commit_le
  obtain ⟨log', h', hrecords, hkeys⟩ := h₁.setHardState s.hardState.reset
  have hmarks' := hmarks.trans (sameMarks_setHardState _ s.hardState.reset)
  have hloaded' := hloaded.of_sameMarks hmarks'
  refine ⟨log', ⟨h'.reads, h'.active_last⟩, ⟨rfl, hloaded.version_eq, ?_, hloaded'.compactedTo_eq⟩,
    ⟨hmarks'.snapshot_eq, hmarks'.compactedTo_eq⟩, ?_, ?_, fun hres => ?_⟩
  · have hsnapshot := hloaded'.snapshot_eq
    rw [hmarks'.metaRecord_eq] at hsnapshot
    exact hsnapshot
  · rw [← hentries, Log.entries, Log.entries, hrecords, entriesOf_append]
    simp
  · rw [hrecords, hardStateOf_append_hardState]
  · rw [hkeys]
    exact hnames hres

/-- … and that is what it opens as. -/
theorem reset_opens (h : Replayed s log) (hloaded : Loaded s) (hmark : s.compactedTo ≤ s.hardState.commit.toNat)
    (hcluster : opts.clusterId = clusterId) (hnode : opts.nodeId = s.metaRecord.nodeId) :
    ∃ t log', (openDir (s.reset clusterId).dir opts).2 = .ok t ∧ SameMarks (s.reset clusterId) t ∧
      t.snapshot = s.snapshot ∧ t.entries = s.entries.filter (·.index.toNat ≤ s.hardState.commit.toNat) ∧
      t.hardState = s.hardState.reset ∧ t.lastIndex = s.hardState.commit.toNat ∧ Loaded t ∧ Replayed t log' ∧
      (s.Resumable s.hardState.commit.toNat → Gapless log'.entries t.lastIndex t.compactedTo ∧
        ∀ k ∈ log'.keys, k ≤ t.lastIndex + 1) := by
  obtain ⟨log', hholds, hloaded', ⟨hsnapshot, hcompacted⟩, hentries, hhs, hnames⟩ := h.reset hloaded hmark clusterId
  have hgap := h.joins.gapless.filter_le hmark
  rw [← hentries, ← hcompacted] at hgap
  have hlast := h.lastIndex_eq
  have hle := h.commit_le
  have hnamed : (s.reset clusterId).metaRecord.snapshotIndex ≠ 0 → (s.reset clusterId).snapshot = none →
      ∀ e ∈ log'.entries.head?, e.index.toNat = 1 := by
    intro h0 hnone e he
    refine h.named h0 (hsnapshot.symm.trans hnone) e ?_
    obtain ⟨more, hmore⟩ := h.filter_le_isInitial s.hardState.commit.toNat
    rw [← hmore, ← hentries]
    exact List.mem_head?_append_of_mem_head? he
  have hcommit : (hardStateOf log'.records).commit = s.hardState.commit := by
    rw [hhs]
    rfl
  obtain ⟨t, hopen, hmarks, ht, hlast'⟩ :=
    hholds.reopens hloaded' hcluster hnode hnamed hgap (by rw [hcommit, hcompacted]; omega)
  have hlastIndex : t.lastIndex = s.hardState.commit.toNat := by
    rw [hlast', hcompacted]
    omega
  refine ⟨t, log', hopen, hmarks, hmarks.snapshot_eq.trans hsnapshot, ?_, ht.hardState_eq.trans hhs, hlastIndex,
    hloaded'.of_sameMarks hmarks, ht, fun hres => ⟨?_, ?_⟩⟩
  · rw [ht.entries_eq, hmarks.compactedTo_eq, hcompacted, hentries, h.entries_eq, List.filter_filter, List.filter_filter]
    exact List.filter_congr fun e _ => Bool.and_comm ..
  · rw [hlastIndex, hmarks.compactedTo_eq, hcompacted, hentries]
    exact h.gapless_of_resumable hres hmark hle
  · rw [hlastIndex]
    exact hnames hres

end Replayed

/-! ## Going on from there -/

/-- Batches of entries that continue the log are appended one by one. -/
theorem appends_of_consecutive {batches : List (List LogEntry)} (hcons : Consecutive (s.lastIndex + 1) batches.flatten)
    (hfits : ∀ e ∈ batches.flatten, e.Fits) :
    ∃ u, batches.foldlM append s = .ok u ∧ batches.flatten.foldlM appendEntry s = .ok u := by
  induction batches generalizing s with
  | nil => exact ⟨s, rfl, rfl⟩
  | cons batch batches ih =>
      rw [List.flatten_cons, consecutive_append] at hcons
      rw [List.flatten_cons, List.forall_mem_append] at hfits
      obtain ⟨t, happend, hloop⟩ := append_of_consecutive hcons.1 hfits.1
      have hlast : s.lastIndex + 1 + batch.length = t.lastIndex + 1 := by
        rw [lastIndex_of_appendAll hloop]
        omega
      rw [hlast] at hcons
      obtain ⟨u, hu, hu'⟩ := ih hcons.2 hfits.2
      refine ⟨u, ?_, ?_⟩
      · rw [List.foldlM_cons, happend]
        exact hu
      · rw [List.flatten_cons, List.foldlM_append, hloop]
        exact hu'

/-- A log that goes on still starts at 1 if the snapshot META names is not there. -/
theorem Replayed.named_append (h : Replayed s log) (hloaded : Loaded s) {es : List LogEntry}
    (hcons : Consecutive (s.lastIndex + 1) es) (h0 : s.metaRecord.snapshotIndex ≠ 0) (hnone : s.snapshot = none) :
    ∀ e ∈ (log.entries ++ es).head?, e.index.toNat = 1 := by
  intro e he
  cases hold : log.entries with
  | cons e' es' =>
      rw [hold] at he
      exact h.named h0 hnone e (by rw [hold]; exact he)
  | nil =>
      -- the log is empty and has no snapshot, so that the first entry appended is the first one ever
      have hzero : s.compactedTo = 0 := by rw [hloaded.compactedTo_eq, hnone]; rfl
      have hlast := h.lastIndex_eq
      rw [hold, hzero] at hlast
      rw [hold, List.nil_append] at he
      obtain ⟨rest, rfl⟩ : ∃ rest, es = e :: rest := List.head?_eq_some_iff.mp he
      rw [hlast] at hcons
      exact (consecutive_cons.mp hcons).1

/-- **Later appends** survive a reopen behind a log without a gap, if no segment is named above them. -/
theorem Replayed.appends_reopen (h : Replayed s log) (hloaded : Loaded s)
    (hgap : Gapless log.entries s.lastIndex s.compactedTo) (hnames : ∀ k ∈ log.keys, k ≤ s.lastIndex + 1)
    {batches : List (List LogEntry)} (hcons : Consecutive (s.lastIndex + 1) batches.flatten)
    (hfits : ∀ e ∈ batches.flatten, e.Fits) :
    ∃ u, batches.foldlM append s = .ok u ∧ ∀ opts : WalOptions, opts.clusterId = s.metaRecord.clusterId →
      opts.nodeId = s.metaRecord.nodeId → ∃ v, (openDir u.dir opts).2 = .ok v ∧ v.snapshot = s.snapshot ∧
        v.entries = s.entries ++ batches.flatten ∧ v.hardState = s.hardState := by
  obtain ⟨u, happends, hloop⟩ := appends_of_consecutive hcons hfits
  refine ⟨u, happends, fun opts hcluster hnode => ?_⟩
  obtain ⟨-, hmarks⟩ := entries_of_appendAll hloop
  obtain ⟨log', hholds, hrecords⟩ := h.toHolds.appendAll hloop hnames
  have hentries : log'.entries = log.entries ++ batches.flatten := by
    rw [Log.entries, hrecords, entriesOf_append, entriesOf_map_entry, Log.entries]
  have hhs : hardStateOf log'.records = s.hardState := by
    rw [hrecords, hardStateOf_append_of_none, h.hardState_eq]
    intro r hr
    obtain ⟨e, -, rfl⟩ := List.mem_map.mp hr
    rfl
  have hgap' := hgap.append hcons
  rw [← hentries, ← hmarks.compactedTo_eq] at hgap'
  have hmark : s.compactedTo ≤ s.lastIndex := by
    rw [h.lastIndex_eq]
    exact le_max_right _ _
  have hnamed : u.metaRecord.snapshotIndex ≠ 0 → u.snapshot = none → ∀ e ∈ log'.entries.head?, e.index.toNat = 1 := by
    rw [hmarks.metaRecord_eq, hmarks.snapshot_eq, hentries]
    exact h.named_append hloaded hcons
  have hcommit := h.commit_le
  obtain ⟨v, hopen, hmarks', hv, -⟩ := hholds.reopens (hloaded.of_sameMarks hmarks)
    (by rw [hmarks.metaRecord_eq]; exact hcluster) (by rw [hmarks.metaRecord_eq]; exact hnode) hnamed hgap'
    (by rw [hhs]; omega)
  refine ⟨v, hopen, hmarks'.snapshot_eq.trans hmarks.snapshot_eq, ?_, hv.hardState_eq.trans hhs⟩
  have hnew : batches.flatten.filter (s.compactedTo < ·.index.toNat) = batches.flatten := by
    refine List.filter_eq_self.mpr fun e he => ?_
    have hbound := (hcons.index_bounds he).1
    simp only [decide_eq_true_eq]
    omega
  rw [hv.entries_eq, hmarks'.compactedTo_eq, hmarks.compactedTo_eq, hentries, List.filter_append, hnew, h.entries_eq]

/-! ## Force recovery -/

variable {dir : Dir} {m : Meta}

/-- Opening with another configuration finds the same. -/
theorem openDir_config {opts' : WalOptions} (hmeta : dir.metaFile = some m) (h : (openDir dir opts).2 = .ok s)
    (hcluster : opts'.clusterId = opts.clusterId) (hnode : opts'.nodeId = opts.nodeId) :
    ∃ t, (openDir dir opts').2 = .ok t ∧ t.dir = s.dir ∧ t.snapshot = s.snapshot ∧ t.entries = s.entries ∧
      t.hardState = s.hardState ∧ t.compactedTo = s.compactedTo := by
  obtain ⟨⟨hc, hn, hv⟩, recovered, entries, hwal, hcheck, rfl⟩ := (openDir_eq_ok hmeta).mp h
  refine ⟨_, (openDir_eq_ok hmeta).mpr ⟨⟨hc.trans hcluster.symm, hn.trans hnode.symm, hv⟩, recovered, entries, hwal,
    hcheck, rfl⟩, rfl, rfl, rfl, rfl, rfl⟩

/-- The open itself leaves META and the snapshots alone. -/
theorem loaded_of_openDir (hmeta : dir.metaFile = some m) (h : (openDir dir opts).2 = .ok s) :
    Loaded s ∧ s.metaRecord = m := by
  have hfrom := openedFrom h
  have hm : s.metaRecord = m := hfrom.metaRecord_eq m hmeta
  obtain ⟨⟨-, -, hversion⟩, -⟩ := (openDir_eq_ok hmeta).mp h
  refine ⟨⟨hfrom.metaFile_eq, ?_, ?_, hfrom.compactedTo_eq⟩, hm⟩
  · rw [hm]
    exact hversion
  · rw [loadSnapshot_congr hfrom.snapshots_eq]
    exact hfrom.snapshot_eq

/-- **Force recovery** opens the directory and resets it. -/
theorem forceRecovery_eq (hmeta : dir.metaFile = some m) (config : WalConfig) (createdAtMillis : UInt64)
    (h : (openDir dir ⟨m.clusterId, m.nodeId, config, createdAtMillis⟩).2 = .ok s) {newClusterId : Option String}
    (hname : newClusterId.getD m.clusterId ≠ "") :
    forceRecovery dir m.nodeId newClusterId config createdAtMillis =
      ((s.reset (newClusterId.getD m.clusterId)).dir,
        .ok ⟨m.clusterId, newClusterId.getD m.clusterId, s.hardState.term + 1, s.hardState.commit,
          (s.truncateLogTo s.hardState.commit.toNat).2⟩) := by
  rw [forceRecovery, hmeta]
  dsimp only
  rw [if_neg (not_not.mpr rfl), if_neg hname, openDir_fst h]
  dsimp only
  rw [WalStorage.reset, (loaded_of_openDir hmeta h).2]
  rfl

/-- Entries up to 5 in three segments, committed up to 3. -/
def committedThree : List Act :=
  [.call (.append [sampleEntry 1 1, sampleEntry 2 1]), .call (.append [sampleEntry 3 1, sampleEntry 4 1]),
    .call (.append [sampleEntry 5 1]), .call (.setHardState ⟨1, none, 3⟩)]

/-- An append is interrupted behind its rollover, which leaves an empty segment 5. Then one that overwrites entry 3 is
interrupted in its cut, before that gets to segment 5. The store is opened with larger segments and writes its hard state
there. -/
def strandedSegment : List Act :=
  [.call (.append [sampleEntry 1 1]), .call (.append [sampleEntry 2 1]),
    .call (.append [sampleEntry 3 1, sampleEntry 4 1]), .crash (.append [sampleEntry 5 1]) 2 ⟨.always, 50⟩,
    .crash (.append [sampleEntry 3 2]) 3 ⟨.always, 80⟩, .call (.setHardState ⟨2, none, 2⟩)]

/-- A snapshot at 5 is being installed over a log that ends at 2. META names it, and the log is still there. -/
def staleLog : List Act :=
  [.call (.append [sampleEntry 1 1, sampleEntry 2 1]), .call (.setHardState ⟨1, none, 2⟩),
    .crash (.installSnapshot (sampleSnapshot 5)) 2 ⟨.always, 80⟩, .call (.setHardState ⟨2, none, 5⟩)]

/-- Force recovery of the directory that the acts leave succeeds, and so do later appends, but the directory no longer
opens after them. -/
def LosesAppends (acts : List Act) (batches : List (List LogEntry)) : Prop :=
  ∃ s₀ s, CrashRun (sampleOptions 50) (fun _ _ => True) acts s₀ ∧
    (openDir s₀.dir ⟨"cluster", "node", ⟨.always, 80⟩, 0⟩).2 = .ok s ∧
    watermark s.snapshot ≤ s.hardState.commit.toNat ∧ s.hardState.commit.toNat ≤ s.lastIndex ∧
    ∃ dir' report t u, forceRecovery s₀.dir "node" (some "recovered") ⟨.always, 80⟩ 0 = (dir', .ok report) ∧
      (openDir dir' ⟨"recovered", "node", ⟨.always, 80⟩, 0⟩).2 = .ok t ∧
      Consecutive (s.hardState.commit.toNat + 1) batches.flatten ∧ (∀ e ∈ batches.flatten, e.Fits) ∧
      batches.foldlM append t = .ok u ∧ ∀ v, (openDir u.dir ⟨"recovered", "node", ⟨.always, 80⟩, 0⟩).2 ≠ .ok v

theorem LosesAppends.of_eval {acts : List Act} {batches : List (List LogEntry)}
    (h : (runActs (sampleOptions 50) (fun _ _ => True) acts).any fun s₀ =>
      (openDir s₀.dir ⟨"cluster", "node", ⟨.always, 80⟩, 0⟩).2.toOption.any fun s =>
        (watermark s.snapshot ≤ s.hardState.commit.toNat ∧ s.hardState.commit.toNat ≤ s.lastIndex ∧
          Consecutive (s.hardState.commit.toNat + 1) batches.flatten ∧ (∀ e ∈ batches.flatten, e.Fits)) ∧
        (forceRecovery s₀.dir "node" (some "recovered") ⟨.always, 80⟩ 0).2.toOption.isSome ∧
        (openDir (forceRecovery s₀.dir "node" (some "recovered") ⟨.always, 80⟩ 0).1
          ⟨"recovered", "node", ⟨.always, 80⟩, 0⟩).2.toOption.any fun t =>
            (batches.foldlM append t).toOption.any fun u =>
              (openDir u.dir ⟨"recovered", "node", ⟨.always, 80⟩, 0⟩).2.toOption.isNone) :
    LosesAppends acts batches := by
  obtain ⟨s₀, hs₀, h⟩ := (Option.any_eq_true _ _).mp h
  obtain ⟨s, hs, h⟩ := (Option.any_eq_true _ _).mp h
  obtain ⟨⟨hmark, hlast, hcons, hfits⟩, hreport, h⟩ := of_decide_eq_true h
  obtain ⟨report, hreport⟩ := Option.isSome_iff_exists.mp hreport
  obtain ⟨t, ht, h⟩ := (Option.any_eq_true _ _).mp h
  obtain ⟨u, hu, h⟩ := (Option.any_eq_true _ _).mp h
  have hok := toOption_eq_some.mp hreport
  refine ⟨s₀, s, CrashRun.of_runActs hs₀, toOption_eq_some.mp hs, hmark, hlast, _, report, t, u, Prod.ext rfl hok,
    toOption_eq_some.mp ht, hcons, hfits, toOption_eq_some.mp hu, ?_⟩
  intro v hv
  rw [hv] at h
  cases h

end Arachne.Storage
