import Arachne.Storage.Invariant

/-! # A crash during `install_snapshot`

`install_snapshot` renames the snapshot file into place, points META at it, unlinks the old segments one by
one and creates the new one. A crash between two of these calls leaves the directory with a prefix of them
(`WalStorage.crashDir`), and that directory is opened, written to and opened again (`RecoversTwice`).

Every crash directory is readable (`Inv.readable_crash`). But once META names the new snapshot, old segments that
are still there can end below it: the reopened store goes on behind the snapshot, and the next open finds the
gap. Or the oldest segments are gone already and the first entry left is beyond the snapshot.
`install_crash_recovers_iff` says which crash directories recover. -/

namespace Arachne.Storage

open WalStorage

/-! ## Crash directories -/

/-- The file-system calls of `install_snapshot`. -/
def WalStorage.installSteps (s : WalStorage) (snapshot : Snapshot) : List FsStep :=
  match s.installSnapshot snapshot with
  | .ok s' => s'.journal.drop s.journal.length
  | .error _ => []

/-- The directory after a crash behind the first `k` calls. -/
def WalStorage.crashDir (s : WalStorage) (snapshot : Snapshot) (k : Nat) : Dir :=
  FsStep.runAll s.dir ((s.installSteps snapshot).take k)

variable {opts : WalOptions} {s : WalStorage} {log : Log} {base : Nat} {snapshot : Snapshot}

/-- Save the snapshot, then replace the segments. -/
theorem installSteps_eq (hS : s.compactedTo < snapshot.metadata.index.toNat) :
    s.installSteps snapshot = s.saveSteps snapshot ++
      (s.dir.listSegmentIndices.map FsStep.removeSegment ++
        [.createSegment (snapshot.metadata.index.toNat + 1)]) := by
  obtain ⟨s', hok⟩ : ∃ s', s.installSnapshot snapshot = .ok s' := by
    simp only [WalStorage.installSnapshot, if_neg (Nat.not_lt.mpr hS.le), if_neg fun h : _ ∧ s.entries = [] => hS.ne' h.1]
    exact ⟨_, rfl⟩
  rw [installSteps, hok]
  rcases installSnapshot_eq_ok hok with ⟨hsame, -⟩ | ⟨-, rfl⟩
  · exact absurd hsame hS.ne'
  · exact List.drop_left

/-- A crash while the snapshot is saved: META loads the old snapshot or the new one. -/
theorem Inv.loads_saveSteps (h : Inv opts s log base) (h0 : snapshot.metadata.index ≠ 0) (k : Nat) :
    ∃ metaRecord loaded,
      Loads opts (FsStep.runAll s.dir ((s.saveSteps snapshot).take k)).metaFile
        (FsStep.runAll s.dir ((s.saveSteps snapshot).take k)).snapshots metaRecord loaded ∧
      watermark s.snapshot ≤ watermark loaded ∧
      ((s.saveSteps snapshot).length ≤ k → snapshot.metadata.index.toNat ≤ watermark loaded) := by
  by_cases hat : s.hasSnapshotAt snapshot.metadata.index
  · rw [saveSteps, if_pos hat, List.take_nil]
    exact ⟨s.metaRecord, s.snapshot, h.snapped.toLoads, le_rfl, fun _ => le_of_hasSnapshotAt hat⟩
  · obtain ⟨hle, hlt⟩ := lt_of_not_hasSnapshotAt h.snapped.index_eq hat
    rw [saveSteps, if_neg hat]
    rcases k with _ | _ | k
    · exact ⟨s.metaRecord, s.snapshot, h.snapped.toLoads, le_rfl, fun hk => by simp at hk⟩
    · -- the new file is there, but META does not reach it
      obtain ⟨others, hfiles, rfl, -⟩ := snapshots_savedDir h.snapped hat
      refine ⟨s.metaRecord, s.snapshot, { h.snapped.toLoads with loaded := fun hne => ?_ }, le_rfl,
        fun hk => by simp at hk⟩
      have hsame : s.dir.snapshots.filter (fun f =>
          ¬ (f.index = snapshot.metadata.index ∧ f.term = snapshot.metadata.term)) = s.dir.snapshots := by
        refine List.filter_eq_self.mpr fun f hf => ?_
        simp only [decide_eq_true_eq]
        rintro ⟨heq, -⟩
        have hltf := UInt64.lt_of_le_of_lt (h.snapped.newest f hf) (hlt h0)
        rw [heq] at hltf
        exact absurd hltf (UInt64.lt_irrefl _)
      show newestValid (s.dir.renameSnapshot snapshot).snapshots _ = _
      rw [hfiles, hsame, newestValid, List.filter_cons_of_neg, ← newestValid]
      · exact h.snapped.loaded hne
      · simpa using hlt h0
    · obtain ⟨files, newestFirst, hrun, hsnapped⟩ := loads_saved h.snapped hat
        (((s.savedDir snapshot).snapshots.drop snapshotRetention).take k) fun f hf => by
          rw [← List.drop_one]
          exact (List.drop_sublist_drop_left _ (by decide)).subset (List.mem_of_mem_take hf)
      refine ⟨s.metaFor snapshot, some snapshot, ?_, ?_, fun _ => le_rfl⟩
      · rw [List.take_succ_cons, List.take_succ_cons, ← List.map_take]
        show Loads opts (FsStep.runAll (s.savedDir snapshot) _).metaFile
          (FsStep.runAll (s.savedDir snapshot) _).snapshots _ _
        rw [hrun]
        exact hsnapped.toLoads
      · rw [← h.snapped.index_eq]
        exact UInt64.le_iff_toNat_le.mp hle

/-- A crash while the segments are replaced: the old ones are left from some point on, or the new one is there.
Either way the entries above the snapshot are the log, if they join it. -/
theorem Inv.replacing (h : Inv opts s log base) {mark n : Nat} (hbase : base ≤ mark) (hn : n ≤ mark) (i : Nat)
    {d : Dir} (hd : d.segments = s.dir.segments) :
    ∃ log' : Log,
      FsStep.runAll d ((s.dir.listSegmentIndices.map FsStep.removeSegment ++
        [FsStep.createSegment (n + 1)]).take i) = { d with segments := log'.bytes } ∧
      (∀ r ∈ log'.records, r.Fits) ∧
      (Joins log'.entries mark → Indexed log' (log'.entries.filter (mark < ·.index.toNat)) mark mark) := by
  by_cases hi : i ≤ s.dir.listSegmentIndices.length
  · obtain ⟨log', hdef⟩ : ∃ log' : Log, log' = log.eraseAll (log.keys.take i) := ⟨_, rfl⟩
    have hlog : log.toList = log.toList.take i ++ log'.toList := by
      rw [hdef, Assoc.keys, ← List.map_take,
        Assoc.toList_eraseAll_prefix (List.take_append_drop i log.toList).symm, List.take_append_drop]
    refine ⟨log', ?_, ?_, h.indexed.reopen_dropped hlog hbase⟩
    · rw [List.take_append_of_le_length (by simpa using hi), ← List.map_take, FsStep.runAll_removeSegments, hd,
        hdef, Dir.listSegmentIndices, h.stored.keys_eq, h.stored.segments_eq]
      exact congrArg (fun segments => { d with segments }) (Assoc.map_eraseAll _ _ _).symm
    · intro r hr
      apply h.stored.fits
      rw [Log.records, hlog, recordsOf_append]
      exact List.mem_append_right _ hr
  · refine ⟨Assoc.empty.insertNew (n + 1) [], ?_, ?_, fun _ => ?_⟩
    · have hall : s.dir.listSegmentIndices.length + 1 ≤ i := Nat.not_le.mp hi
      rw [List.take_of_length_le (by simpa using hall), FsStep.runAll_append,
        FsStep.runAll_removeSegments, hd, Dir.listSegmentIndices, Assoc.eraseAll_keys]
      rfl
    · intro r hr
      exact absurd hr List.not_mem_nil
    · exact Indexed.restart rfl (Nat.le_add_left 1 n) (Nat.succ_le_succ hn)

/-- **Every crash directory is readable**, and if its entries join the snapshot META loads, they are the log above
it. -/
theorem Inv.readable_crash (h : Inv opts s log base) (hS : s.compactedTo < snapshot.metadata.index.toNat)
    (k : Nat) (config : WalConfig) :
    ∃ metaRecord loaded log',
      Readable { opts with config } (s.crashDir snapshot k) metaRecord loaded log' ∧
      (Joins log'.entries (watermark loaded) →
        Indexed log' (log'.entries.filter (watermark loaded < ·.index.toNat)) (watermark loaded)
          (watermark loaded)) := by
  have h0 : snapshot.metadata.index ≠ 0 := by
    intro heq
    rw [heq] at hS
    exact Nat.not_lt_zero _ hS
  obtain ⟨metaRecord, loaded, hloads, hle, hge⟩ := h.loads_saveSteps h0 k
  rw [crashDir, installSteps_eq hS, List.take_append, FsStep.runAll_append]
  obtain ⟨d, hd⟩ : ∃ d, d = FsStep.runAll s.dir ((s.saveSteps snapshot).take k) := ⟨_, rfl⟩
  have hsegs : d.segments = s.dir.segments := by
    rw [hd]
    exact FsStep.segments_runAll (fun step hstep => s.segments_saveSteps snapshot step (List.mem_of_mem_take hstep)) _
  rw [← hd] at hloads ⊢
  have hbase := h.base_le.trans hle
  by_cases hk : (s.saveSteps snapshot).length ≤ k
  · obtain ⟨log', hrun, hfits, hind⟩ := h.replacing hbase (hge hk) (k - (s.saveSteps snapshot).length) hsegs
    rw [hrun]
    exact ⟨metaRecord, loaded, log', ⟨hloads.withConfig config, rfl, hfits⟩, hind⟩
  · rw [Nat.sub_eq_zero_of_le (Nat.le_of_not_le hk), List.take_zero, FsStep.runAll_nil]
    exact ⟨metaRecord, loaded, log, ⟨hloads.withConfig config, hsegs.trans h.stored.segments_eq, h.stored.fits⟩,
      h.indexed.reopen hbase⟩

/-! ## Two recoveries -/

/-- The directory opens, and whatever the store then appends, with a hard state that commits no more than it
has, the next open finds. -/
def RecoversTwice (opts : WalOptions) (dir : Dir) : Prop :=
  ∃ t, (openDir dir opts).2 = .ok t ∧
    ∀ (es : List LogEntry) (hs : HardState), Consecutive (t.lastIndex + 1) es → (∀ e ∈ es, e.Fits) →
      hs.commit.toNat ≤ t.lastIndex + es.length →
      ∃ u v, t.append es = .ok u ∧ (openDir (u.setHardState hs).dir opts).2 = .ok v ∧
        v.entries = t.entries ++ es

/-- Physical entries `P` and commit index that a snapshot at `mark` can be restored over: they join it, do not
end below it (unless no index is left above it), and the commit is within them. -/
structure Restorable (P : List LogEntry) (commit mark : Nat) : Prop where
  joins : Joins P mark
  reaches : ∀ last ∈ lastEntryIndex? P, mark ≤ last ∨ mark + 1 = 2 ^ 64
  commit_le : commit ≤ max ((lastEntryIndex? P).getD 0) mark

instance (P : List LogEntry) (commit mark : Nat) : Decidable (Restorable P commit mark) :=
  decidable_of_iff (Joins P mark ∧ (∀ last ∈ lastEntryIndex? P, mark ≤ last ∨ mark + 1 = 2 ^ 64) ∧
      commit ≤ max ((lastEntryIndex? P).getD 0) mark)
    ⟨fun ⟨h₁, h₂, h₃⟩ => ⟨h₁, h₂, h₃⟩, fun ⟨h₁, h₂, h₃⟩ => ⟨h₁, h₂, h₃⟩⟩

/-- The watermark of the snapshot META loads. -/
def Dir.watermark (d : Dir) : Nat :=
  match d.metaFile with
  | none => 0
  | some m => WalStorage.watermark (loadSnapshot d m.snapshotIndex)

namespace Readable

variable {dir : Dir} {metaRecord : Meta} {loaded : Option Snapshot} {t u : WalStorage}

theorem watermark_eq (h : Readable opts dir metaRecord loaded log) : dir.watermark = watermark loaded := by
  rw [Dir.watermark, h.loads.metaFile_eq]
  exact h.loads.watermark_load

/-- The opened store keeps track of the log, also if it had to create the first segment. -/
theorem exists_tracks (h : Readable opts dir metaRecord loaded log)
    (hind : Indexed log (log.entries.filter (watermark loaded < ·.index.toNat)) (watermark loaded)
      (watermark loaded))
    (ht : t = opened opts dir metaRecord log (log.entries.filter (watermark loaded < ·.index.toNat))) :
    ∃ log₁ : Log, Tracks t log₁ (watermark loaded) ∧ log₁.records = log.records := by
  rcases List.eq_nil_or_concat' log.toList with hnil | ⟨pre, ⟨active, xs⟩, hlog⟩
  · have hsegs : dir.segments = Assoc.empty := by
      rw [h.segments_eq]
      exact Assoc.ext (by rw [Log.bytes, Assoc.toList_map, hnil]; rfl)
    have hrec : log.records = [] := by rw [Log.records, hnil]; rfl
    have hent : log.entries = [] := by rw [Log.entries, hrec]; rfl
    have hkeys : dir.listSegmentIndices = [] := by rw [Dir.listSegmentIndices, hsegs]; rfl
    refine ⟨Assoc.empty.insertNew 1 [], ⟨⟨?_, ?_, [], [], ?_⟩, ?_⟩, hrec.symm⟩
    · rw [ht, opened, assemble]
      simp only [hkeys, if_pos]
      show dir.segments.insertNew 1 [] = _
      rw [hsegs]
      rfl
    · intro r hr
      exact absurd hr List.not_mem_nil
    · rw [ht, opened, assemble]
      simp only [hkeys]
      rfl
    · rw [ht, hent]
      show Indexed _ [] (watermark (loadSnapshot dir metaRecord.snapshotIndex)) _
      rw [h.loads.watermark_load]
      exact Indexed.restart rfl le_rfl (Nat.le_add_left 1 _)
  · exact ⟨log, ht ▸ h.tracks hlog hind, rfl⟩

theorem opened_loads (h : Readable opts dir metaRecord loaded log) {es : List LogEntry}
    (ht : t = opened opts dir metaRecord log es) :
    Loads opts t.dir.metaFile t.dir.snapshots metaRecord loaded := by
  have hsame : t.dir.metaFile = dir.metaFile ∧ t.dir.snapshots = dir.snapshots := by
    rw [ht, opened, assemble]
    dsimp only
    split_ifs <;> exact ⟨rfl, rfl⟩
  rw [hsame.1, hsame.2]
  exact h.loads

/-- **The second open** reads the entries the first one read, followed by those written in between. -/
theorem readable_written (h : Readable opts dir metaRecord loaded log)
    (hind : Indexed log (log.entries.filter (watermark loaded < ·.index.toNat)) (watermark loaded)
      (watermark loaded))
    (ht : t = opened opts dir metaRecord log (log.entries.filter (watermark loaded < ·.index.toNat)))
    {es : List LogEntry} (hloop : es.foldlM appendEntry t = .ok u) (hs : HardState) :
    ∃ log₂ : Log, Readable opts (u.setHardState hs).dir metaRecord loaded log₂ ∧
      log₂.entries = log.entries ++ es ∧ hardStateOf log₂.records = hs := by
  obtain ⟨log₁, htracks, hrec₁⟩ := h.exists_tracks hind ht
  obtain ⟨log', htracks', hrec'⟩ := htracks.appendAll hloop
  obtain ⟨log₂, htracks₂, hrec₂⟩ := htracks'.setHardState hs
  obtain ⟨-, hmarks⟩ := entries_of_appendAll hloop
  refine ⟨log₂, ⟨?_, htracks₂.stored.segments_eq, htracks₂.stored.fits⟩, ?_, ?_⟩
  · show Loads opts u.dir.metaFile u.dir.snapshots _ _
    rw [hmarks.metaFile_eq, hmarks.snapshots_eq]
    exact h.opened_loads ht
  · simp [Log.entries, hrec₂, hrec', hrec₁]
  · rw [hrec₂, hardStateOf_append_hardState]

/-- Entries that end below the snapshot leave a gap behind it once something is written. -/
theorem not_joins_of_short {P : List LogEntry} {mark last : Nat} {e : LogEntry} (hjoins : Joins P mark)
    (hlast : last ∈ lastEntryIndex? P) (hshort : last < mark) (he : e.index.toNat = mark + 1) :
    ¬ Joins (P ++ [e]) mark := by
  intro h
  cases P with
  | nil => cases hlast
  | cons p ps =>
      obtain ⟨hcons, -⟩ := h p rfl
      obtain ⟨hcons', -⟩ := hjoins p rfl
      rw [hcons'.lastEntryIndex?, if_neg (List.cons_ne_nil p ps), Option.mem_some_iff] at hlast
      have hidx := (consecutive_cons.mp (consecutive_append.mp hcons).2).1
      omega

/-- Otherwise what is written behind them joins the snapshot, too. -/
theorem joins_written {P es : List LogEntry} {mark last commit : Nat} (hjoins : Joins P mark)
    (hreaches : ∀ last ∈ lastEntryIndex? P, mark ≤ last ∨ mark + 1 = 2 ^ 64)
    (hlast : last = max ((lastEntryIndex? P).getD 0) mark) (hes : Consecutive (last + 1) es)
    (hcommit : commit ≤ last + es.length) :
    Joins (P ++ es) mark ∧
      commit ≤ (lastEntryIndex? ((P ++ es).filter (mark < ·.index.toNat))).getD mark := by
  have hgap := hjoins.gapless
  by_cases hend : (lastEntryIndex? P).getD mark = last
  · rw [hend] at hgap
    have hgap' := hgap.append hes
    rw [hgap'.lastIndex_above]
    exact ⟨hgap'.joins, by omega⟩
  · -- the snapshot is beyond the entries, at the last index there is: nothing was written
    have hnil : es = [] := by
      cases hP : lastEntryIndex? P with
      | none => simp [hP, hlast] at hend
      | some l =>
          rw [hP, Option.getD_some] at hlast hend
          have hmax := hreaches l hP
          cases es with
          | nil => rfl
          | cons e es =>
              have hidx := (consecutive_cons.mp hes).1
              have hbound := e.index.toNat_lt
              omega
    rw [hnil, List.append_nil, hgap.lastIndex_above]
    rw [hnil, List.length_nil] at hcommit
    refine ⟨hjoins, hcommit.trans ?_⟩
    rw [hlast]
    cases lastEntryIndex? P with
    | none => exact (max_le (Nat.zero_le _) le_rfl).trans (le_max_left _ _)
    | some l => exact le_rfl

/-- The last index of the store opened on joining entries. -/
theorem lastIndex_opened (h : Readable opts dir metaRecord loaded log)
    (hjoins : Joins log.entries (watermark loaded)) :
    (opened opts dir metaRecord log (log.entries.filter (watermark loaded < ·.index.toNat))).lastIndex =
      max ((lastEntryIndex? log.entries).getD 0) (watermark loaded) := by
  show (lastEntryIndex? (log.entries.filter (watermark loaded < ·.index.toNat))).getD
    (watermark (loadSnapshot dir metaRecord.snapshotIndex)) = _
  rw [h.loads.watermark_load, hjoins.gapless.lastIndex_above]
  cases lastEntryIndex? log.entries with
  | none => simp
  | some last => rfl

/-- **Which readable directories recover twice.** -/
theorem recoversTwice_iff (h : Readable opts dir metaRecord loaded log)
    (hind : Joins log.entries (watermark loaded) →
      Indexed log (log.entries.filter (watermark loaded < ·.index.toNat)) (watermark loaded) (watermark loaded)) :
    RecoversTwice opts dir ↔
      Restorable log.entries (hardStateOf log.records).commit.toNat (watermark loaded) := by
  constructor
  · rintro ⟨t, hopen, hnext⟩
    obtain ⟨hjoins, hcommit, ht⟩ := h.openDir_eq_ok.mp hopen
    have hlastIdx := h.lastIndex_opened hjoins
    refine ⟨hjoins, fun last hlast => ?_, ?_⟩
    · by_contra! hshort
      -- one entry right behind the snapshot is enough to show the gap
      have hbound := h.loads.index_eq ▸ metaRecord.snapshotIndex.toNat_lt
      obtain ⟨e, he⟩ : ∃ e, e = (⟨UInt64.ofNat (watermark loaded + 1), 0, .entry, []⟩ : LogEntry) := ⟨_, rfl⟩
      have hidx : e.index.toNat = watermark loaded + 1 := by
        rw [he]
        exact Nat.mod_eq_of_lt (by omega)
      have hlastIdx' : t.lastIndex = watermark loaded := by
        rw [ht, hlastIdx, Option.mem_def.mp hlast, Option.getD_some]
        omega
      have hcons : Consecutive (t.lastIndex + 1) [e] := by
        rw [hlastIdx', consecutive_cons]
        exact ⟨hidx, consecutive_nil _⟩
      have hfits : ∀ e' ∈ [e], e'.Fits := by
        simp [he, LogEntry.Fits, LogEntry.payload, encodeEntry, maxRecordBytes]
      obtain ⟨u, v, happ, hopen', -⟩ := hnext [e] .default hcons hfits (Nat.zero_le _)
      obtain ⟨u', happ', hloop⟩ := append_of_consecutive hcons hfits
      obtain rfl : u = u' := Except.ok.inj (happ.symm.trans happ')
      obtain ⟨log₂, hread, hent, -⟩ := h.readable_written (hind hjoins) ht hloop .default
      have hjoins' := (hread.openDir_eq_ok.mp hopen').1
      rw [hent] at hjoins'
      exact not_joins_of_short hjoins hlast hshort.1 hidx hjoins'
    · rw [← hlastIdx]
      show _ ≤ (lastEntryIndex? _).getD (watermark (loadSnapshot dir metaRecord.snapshotIndex))
      rw [h.loads.watermark_load]
      exact hcommit
  · rintro ⟨hjoins, hreaches, hcommit⟩
    have hlastIdx := h.lastIndex_opened hjoins
    have hopened : (lastEntryIndex? (log.entries.filter (watermark loaded < ·.index.toNat))).getD
        (watermark loaded) = max ((lastEntryIndex? log.entries).getD 0) (watermark loaded) := by
      rw [← hlastIdx, ← h.loads.watermark_load]
      rfl
    refine ⟨_, h.openDir_eq_ok.mpr ⟨hjoins, hopened ▸ hcommit, rfl⟩, fun es hs hcons hfits hcommit' => ?_⟩
    obtain ⟨u, happ, hloop⟩ := append_of_consecutive hcons hfits
    obtain ⟨log₂, hread, hent, hhs⟩ := h.readable_written (hind hjoins) rfl hloop hs
    rw [hlastIdx] at hcons hcommit'
    obtain ⟨last, hlast⟩ : ∃ last, last = max ((lastEntryIndex? log.entries).getD 0) (watermark loaded) :=
      ⟨_, rfl⟩
    rw [← hlast] at hcons hcommit'
    have habove : es.filter (watermark loaded < ·.index.toNat) = es := by
      refine List.filter_eq_self.mpr fun e he => ?_
      have := (hcons.index_bounds he).1
      simp only [decide_eq_true_eq]
      omega
    have hsecond : Joins log₂.entries (watermark loaded) ∧ hs.commit.toNat ≤
        (lastEntryIndex? (log₂.entries.filter (watermark loaded < ·.index.toNat))).getD (watermark loaded) := by
      rw [hent]
      exact joins_written hjoins hreaches hlast hcons hcommit'
    refine ⟨u, _, happ, hread.openDir_eq_ok.mpr ⟨hsecond.1, hhs ▸ hsecond.2, rfl⟩, ?_⟩
    show log₂.entries.filter _ = log.entries.filter _ ++ es
    rw [hent, List.filter_append, habove]

end Readable

/-! ## The crash directories that recover -/

/-- **Which crashes of `install_snapshot` are recovered from**: those whose directory has entries and a commit
index that the snapshot META loads can be restored over. -/
theorem install_crash_recovers_iff (hs : Reachable opts s)
    (hS : s.compactedTo < snapshot.metadata.index.toNat) (k : Nat) (config : WalConfig) :
    RecoversTwice { opts with config } (s.crashDir snapshot k) ↔
      Restorable (s.crashDir snapshot k).log.entries
        (hardStateOf (s.crashDir snapshot k).log.records).commit.toNat (s.crashDir snapshot k).watermark := by
  obtain ⟨ops, hrun⟩ := hs
  obtain ⟨log, base, hinv⟩ := hrun.inv
  obtain ⟨metaRecord, loaded, log', hread, hind⟩ := hinv.readable_crash hS k config
  rw [hread.recoversTwice_iff hind, hread.watermark_eq, Dir.log_eq hread.segments_eq hread.fits]

/-- Two entries in one segment, and a snapshot at 5. -/
def twoEntries : List Op := [.append [sampleEntry 1 1, sampleEntry 2 1]]

/-- A crash right before the new segment is created. -/
theorem install_crash_recovers_replaced : ∃ s, Reachable (sampleOptions 1000) s ∧
    s.compactedTo < (sampleSnapshot 5).metadata.index.toNat ∧
    RecoversTwice (sampleOptions 1000) (s.crashDir (sampleSnapshot 5) 3) := by
  have heval : (runOps (sampleOptions 1000) (fun _ _ => True) twoEntries).any fun s =>
      s.compactedTo < (sampleSnapshot 5).metadata.index.toNat ∧
      Restorable (s.crashDir (sampleSnapshot 5) 3).log.entries
        (hardStateOf (s.crashDir (sampleSnapshot 5) 3).log.records).commit.toNat
        (s.crashDir (sampleSnapshot 5) 3).watermark := by
    decide +kernel
  obtain ⟨s, hs, hp⟩ := (Option.any_eq_true _ _).mp heval
  obtain ⟨hS, hrestorable⟩ := of_decide_eq_true hp
  have hreach : Reachable (sampleOptions 1000) s := ⟨twoEntries, WalRun.of_runOps hs⟩
  exact ⟨s, hreach, hS, (install_crash_recovers_iff hreach hS 3 (sampleOptions 1000).config).mpr hrestorable⟩

/-- A crash right behind the META update: the store reopens at 5 with entries 1 and 2 still in its segment, writes
entry 6 behind them, and does not open again. -/
theorem install_crash_leaves_gap : ∃ s, Reachable (sampleOptions 1000) s ∧
    s.compactedTo < (sampleSnapshot 5).metadata.index.toNat ∧
    ¬ RecoversTwice (sampleOptions 1000) (s.crashDir (sampleSnapshot 5) 2) := by
  have heval : (runOps (sampleOptions 1000) (fun _ _ => True) twoEntries).any fun s =>
      s.compactedTo < (sampleSnapshot 5).metadata.index.toNat ∧
      (openDir (s.crashDir (sampleSnapshot 5) 2) (sampleOptions 1000)).2.toOption.any fun t =>
        Consecutive (t.lastIndex + 1) [sampleEntry 6 1] ∧ (sampleEntry 6 1).Fits ∧
        (t.append [sampleEntry 6 1]).toOption.any fun u =>
          (openDir (u.setHardState .default).dir (sampleOptions 1000)).2 =
            .error (.unrecoverable "log index gap: expected 3, got 6 at position 2") := by
    decide +kernel
  obtain ⟨s, hs, hp⟩ := (Option.any_eq_true _ _).mp heval
  obtain ⟨hS, hopens⟩ := of_decide_eq_true hp
  refine ⟨s, ⟨_, WalRun.of_runOps hs⟩, hS, ?_⟩
  rintro ⟨t, hopen, hnext⟩
  rw [hopen] at hopens
  obtain ⟨hcons, hfits, hfails⟩ := of_decide_eq_true hopens
  obtain ⟨u, v, happ, hagain, -⟩ := hnext [sampleEntry 6 1] .default hcons (by simpa using hfits) (Nat.zero_le _)
  rw [happ] at hfails
  have herr := of_decide_eq_true hfails
  rw [hagain] at herr
  cases herr

end Arachne.Storage
