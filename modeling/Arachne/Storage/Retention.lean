import Mathlib.Data.List.TakeWhile
import Arachne.Storage.Crash

/-! # The snapshot META names

`open` only considers snapshot files at or below the index META names, so that file has to be there (`Named`).
`save_snapshot` renames the file into place before it updates META, and prunes afterwards. Pruning keeps the two files
with the highest indices and does not look at META: a file that a crash left behind, renamed but never advertised, counts
among them although META points below it.

`HasRoom` is what a call needs in order not to prune its own snapshot. -/

namespace Arachne.Storage

open WalStorage
open Transition (Throughout)

/-- If META names a snapshot, there is a valid file for exactly its index. -/
def Named (d : Dir) : Prop :=
  ∀ m ∈ d.metaFile, m.snapshotIndex ≠ 0 → ∃ f ∈ d.snapshots, f.index = m.snapshotIndex ∧ (SnapshotFile.valid? f).isSome

instance (d : Dir) : Decidable (Named d) :=
  match h : d.metaFile with
  | none => .isTrue fun m hm => absurd (h.symm.trans hm) (Option.some_ne_none m).symm
  | some m =>
    decidable_of_iff
      (m.snapshotIndex ≠ 0 → ∃ f ∈ d.snapshots, f.index = m.snapshotIndex ∧ (SnapshotFile.valid? f).isSome)
      ⟨fun hm _ hm' => Option.some.inj (h.symm.trans hm') ▸ hm, fun hd => hd m h⟩

theorem named_of_segments (d : Dir) (segments : Assoc Codec.Bytes) (h : Named d) : Named { d with segments } := h

/-- The files that pruning prefers to a new snapshot's, or may. -/
def rivals (s : WalStorage) (snapshot : Snapshot) : List SnapshotFile :=
  s.dir.snapshots.filter fun f => snapshot.metadata.index ≤ f.index ∧
    ¬ (f.index = snapshot.metadata.index ∧ f.term = snapshot.metadata.term)

/-- A new snapshot is among the files that pruning keeps. -/
def HasRoom (s : WalStorage) (snapshot : Snapshot) : Prop :=
  s.hasSnapshotAt snapshot.metadata.index ∨ (rivals s snapshot).length < snapshotRetention

instance (s : WalStorage) (snapshot : Snapshot) : Decidable (HasRoom s snapshot) :=
  inferInstanceAs (Decidable (_ ∨ _))

/-- The snapshot a call saves, if any, has room. -/
def LeavesRoom (s : WalStorage) : Op → Prop
  | .saveSnapshot snapshot | .installSnapshot snapshot => HasRoom s snapshot
  | _ => True

instance (s : WalStorage) (op : Op) : Decidable (LeavesRoom s op) :=
  match op with
  | .saveSnapshot snapshot | .installSnapshot snapshot => inferInstanceAs (Decidable (HasRoom s snapshot))
  | .append _ | .setHardState _ | .syncEntries | .saveConfState _ _ | .compact _ | .setTrailingKeepBytes _
  | .reopen _ => .isTrue trivial

/-! ## Loading -/

/-- The file for exactly the index asked for is preferred to every older one. -/
theorem newestValid_of_mem {files : List SnapshotFile} (hsorted : files.Pairwise SnapshotFile.NewerEq) {index : UInt64}
    {f : SnapshotFile} (hf : f ∈ files) (hindex : f.index = index) (hvalid : (SnapshotFile.valid? f).isSome) :
    ∃ snapshot, newestValid files index = some snapshot ∧ snapshot.metadata.index = index := by
  have hcand : f ∈ files.filter (·.index ≤ index) := by
    rw [List.mem_filter, hindex]
    exact ⟨hf, decide_eq_true (UInt64.le_refl index)⟩
  obtain ⟨snapshot, hsnapshot⟩ := Option.isSome_iff_exists.mp (List.findSome?_isSome_iff.mpr ⟨f, hcand, hvalid⟩)
  obtain ⟨before, g, after, hsplit, hg, hbefore⟩ := List.findSome?_eq_some_iff.mp hsnapshot
  refine ⟨snapshot, hsnapshot, ?_⟩
  -- the file that loads is `f` or stands before it, so its index is not lower
  have hge : f.index ≤ g.index := by
    rw [hsplit] at hcand
    rcases List.mem_append.mp hcand with hmem | hmem
    · rw [hbefore f hmem] at hvalid
      cases hvalid
    · rcases List.mem_cons.mp hmem with rfl | hmem
      · exact UInt64.le_refl _
      · have hord := hsorted.sublist (List.filter_sublist (p := fun f => decide (f.index ≤ index)))
        rw [hsplit, List.pairwise_append] at hord
        exact (List.pairwise_cons.mp hord.2.1).1 f hmem
  have hle : g.index ≤ index := by
    have hmem : g ∈ files.filter (·.index ≤ index) := by
      rw [hsplit]
      exact List.mem_append_right _ List.mem_cons_self
    exact of_decide_eq_true (List.mem_filter.mp hmem).2
  have hlabel : snapshot.metadata.index = g.index := by
    rw [SnapshotFile.valid?, Option.filter_eq_some_iff] at hg
    exact of_decide_eq_true hg.2
  rw [hlabel]
  exact UInt64.le_antisymm hle (hindex ▸ hge)

/-- The store's META is the one on disk, its snapshot the one META names, and the file is there. -/
structure Kept (s : WalStorage) : Prop where
  metaFile_eq : s.dir.metaFile = some s.metaRecord
  named : Named s.dir
  index_eq : s.metaRecord.snapshotIndex.toNat = watermark s.snapshot

/-- **Opening** a directory with META's snapshot loads it. -/
theorem Kept.openDir {dir : Dir} {opts : WalOptions} {t : WalStorage} (hnamed : Named dir)
    (hopen : (openDir dir opts).2 = .ok t) : Kept t := by
  have hfrom := openedFrom hopen
  have hfile : t.metaRecord.snapshotIndex ≠ 0 →
      ∃ f ∈ dir.snapshots, f.index = t.metaRecord.snapshotIndex ∧ (SnapshotFile.valid? f).isSome := by
    intro h0
    cases hmeta : dir.metaFile with
    | none => exact absurd (hfrom.fresh hmeta) h0
    | some m =>
        obtain rfl := hfrom.metaRecord_eq m hmeta
        exact hnamed _ hmeta h0
  refine ⟨hfrom.metaFile_eq, ?_, ?_⟩
  · intro m hm h0
    obtain rfl := Option.some.inj (hfrom.metaFile_eq.symm.trans hm)
    rw [hfrom.snapshots_eq]
    exact hfile h0
  · rw [hfrom.snapshot_eq, loadSnapshot]
    split_ifs with h0
    · rw [h0]
      rfl
    · obtain ⟨f, hf, hindex, hvalid⟩ := hfile h0
      obtain ⟨snapshot, hload, hsnapshot⟩ := newestValid_of_mem dir.newestFirst hf hindex hvalid
      rw [hload, ← hsnapshot]
      rfl

/-! ## Saving -/

variable {s : WalStorage} {snapshot : Snapshot}

/-- The file of a snapshot. -/
def snapshotFile (snapshot : Snapshot) : SnapshotFile :=
  ⟨snapshot.metadata.index, snapshot.metadata.term, some snapshot⟩

theorem valid_snapshotFile (snapshot : Snapshot) : (SnapshotFile.valid? (snapshotFile snapshot)).isSome := by
  simp [SnapshotFile.valid?, snapshotFile]

/-- **The files after a rename**: the new one has at most its rivals before it, and behind it no other of its name. -/
theorem snapshots_savedDir (s : WalStorage) (snapshot : Snapshot) :
    ∃ newer older, (s.savedDir snapshot).snapshots = newer ++ snapshotFile snapshot :: older ∧
      newer.length ≤ (rivals s snapshot).length ∧
      ∀ g ∈ older, ¬ (g.index = snapshot.metadata.index ∧ g.term = snapshot.metadata.term) := by
  obtain ⟨others, hothers⟩ : ∃ others, others = s.dir.snapshots.filter fun f =>
    ¬ (f.index = snapshot.metadata.index ∧ f.term = snapshot.metadata.term) := ⟨_, rfl⟩
  refine ⟨others.takeWhile fun f => ¬ SnapshotFile.NewerEq (snapshotFile snapshot) f,
    others.dropWhile fun f => ¬ SnapshotFile.NewerEq (snapshotFile snapshot) f, ?_, ?_, fun g hg => ?_⟩
  · rw [← List.orderedInsert_eq_take_drop, hothers]
    rfl
  · have hrivals : rivals s snapshot = others.filter fun f => snapshot.metadata.index ≤ f.index := by
      rw [rivals, hothers, List.filter_filter]
      simp only [Bool.decide_and]
    have hall : ∀ f ∈ others.takeWhile fun f => ¬ SnapshotFile.NewerEq (snapshotFile snapshot) f,
        decide (snapshot.metadata.index ≤ f.index) = true := by
      intro f hf
      have hnot := List.mem_takeWhile_imp hf
      have hlt := of_decide_eq_true hnot
      exact decide_eq_true (UInt64.le_of_lt (UInt64.not_le.mp hlt))
    rw [hrivals, ← List.filter_eq_self.mpr hall]
    exact ((List.takeWhile_sublist _).filter _).length_le
  · have hmem := (List.dropWhile_sublist _).mem hg
    rw [hothers, List.mem_filter] at hmem
    exact of_decide_eq_true hmem.2

/-- With room, no file that is pruned has the new snapshot's name. -/
theorem ne_of_mem_pruned (hroom : (rivals s snapshot).length < snapshotRetention) {g : SnapshotFile}
    (hg : g ∈ (s.savedDir snapshot).snapshots.drop snapshotRetention) :
    ¬ (snapshot.metadata.index = g.index ∧ snapshot.metadata.term = g.term) := by
  obtain ⟨newer, older, hfiles, hlen, hother⟩ := snapshots_savedDir s snapshot
  -- at most one file stands before the new one, so that it is within the retention
  obtain ⟨n, hn⟩ : ∃ n, snapshotRetention - newer.length = n + 1 := ⟨snapshotRetention - newer.length - 1, by omega⟩
  rw [hfiles, List.drop_append, List.drop_eq_nil_of_le (by omega), List.nil_append, hn, List.drop_succ_cons] at hg
  rintro ⟨hindex, hterm⟩
  exact hother g (List.mem_of_mem_drop hg) ⟨hindex.symm, hterm.symm⟩

/-- **Saving a snapshot that has room** keeps META's file, wherever it is cut short. -/
theorem named_saveSteps (h : Kept s) (hroom : HasRoom s snapshot) :
    Throughout FsStep.run Named s.dir (s.saveSteps snapshot) := by
  rw [saveSteps]
  split_ifs with hat
  · exact .nil h.named
  · replace hroom := hroom.resolve_left hat
    refine .cons h.named (.cons ?_ ?_)
    · -- the file is in place and META still names an older one
      intro m hm h0
      obtain rfl := Option.some.inj (h.metaFile_eq.symm.trans hm)
      obtain ⟨f, hf, hindex, hvalid⟩ := h.named _ h.metaFile_eq h0
      refine ⟨f, (List.mem_orderedInsert _).mpr (.inr (List.mem_filter.mpr ⟨hf, decide_eq_true ?_⟩)), hindex, hvalid⟩
      rintro ⟨hsame, -⟩
      have hsame' : s.metaRecord.snapshotIndex = snapshot.metadata.index := hindex.symm.trans hsame
      have hlt := (lt_of_not_hasSnapshotAt h.index_eq hat).2
      rw [← hsame'] at hlt
      exact UInt64.lt_irrefl _ (hlt h0)
    · -- META names the new file, and it is not among those pruned
      refine Throughout.mono (P := fun d => d.metaFile = some (s.metaFor snapshot) ∧
        snapshotFile snapshot ∈ d.snapshots) ?_ (.of_kept ⟨rfl, ?_⟩ ?_)
      · rintro d ⟨hmeta, hmem⟩ m hm -
        obtain rfl := Option.some.inj (hmeta.symm.trans hm)
        exact ⟨_, hmem, rfl, valid_snapshotFile snapshot⟩
      · exact (List.mem_orderedInsert _).mpr (.inl rfl)
      · intro step hstep d hd
        obtain ⟨g, hg, rfl⟩ := List.mem_map.mp hstep
        exact ⟨hd.1, List.mem_filter.mpr ⟨hd.2, decide_eq_true (ne_of_mem_pruned hroom hg)⟩⟩

/-- What lies in segments and in the other fields of the store does not matter. -/
theorem Kept.congr {s' : WalStorage} (h : Kept s) (hdir : ∃ membership segments, s'.dir = { s.dir with membership, segments })
    (hmeta : s'.metaRecord = s.metaRecord) (hsnapshot : s'.snapshot = s.snapshot) : Kept s' := by
  obtain ⟨membership, segments, hdir⟩ := hdir
  refine ⟨?_, ?_, ?_⟩
  · rw [hdir, hmeta]
    exact h.metaFile_eq
  · rw [hdir]
    exact h.named
  · rw [hmeta, hsnapshot]
    exact h.index_eq

theorem Kept.saveSnapshot (h : Kept s) (hroom : HasRoom s snapshot) : Kept (s.saveSnapshot snapshot) := by
  by_cases hat : s.hasSnapshotAt snapshot.metadata.index
  · rw [WalStorage.saveSnapshot, if_pos hat]
    exact h
  · have hnamed := (passes_saveSnapshot (named_saveSteps h hroom)).last
    obtain ⟨_, _, hsave⟩ := s.saveSnapshot_eq snapshot
    simp only [if_neg hat] at hsave
    rw [hsave] at hnamed ⊢
    refine ⟨?_, hnamed, rfl⟩
    obtain ⟨_, _, hrun, -⟩ := FsStep.runAll_removeSnapshots (s.savedDir snapshot)
      ((s.savedDir snapshot).snapshots.drop snapshotRetention)
    show (FsStep.runAll s.dir (s.saveSteps snapshot)).metaFile = some (s.metaFor snapshot)
    rw [saveSteps, if_neg hat]
    exact congrArg Dir.metaFile hrun

theorem Kept.installSnapshot {s' : WalStorage} (h : Kept s) (hroom : HasRoom s snapshot)
    (hok : s.installSnapshot snapshot = .ok s') : Kept s' := by
  rcases installSnapshot_eq_ok hok with ⟨-, -, rfl⟩ | ⟨-, rfl⟩
  · exact h
  · have hsaved := h.saveSnapshot hroom
    obtain ⟨_, _, hsave⟩ := s.saveSnapshot_eq snapshot
    rw [hsave] at hsaved
    have hsegs := FsStep.segments_runAll (s.segments_saveSteps snapshot) s.dir
    have hdir : FsStep.runAll s.dir (s.saveSteps snapshot ++ s.replaceSteps snapshot) = _ :=
      (FsStep.runAll_append _ _ _).trans (runAll_replaceSteps s snapshot hsegs)
    exact hsaved.congr ⟨_, _, hdir⟩ rfl rfl

/-! ## Runs -/

/-- **One call keeps META's file.** -/
theorem Kept.exec {opts : WalOptions} {s' : WalStorage} {op : Op} (h : Kept s) (hroom : LeavesRoom s op)
    (hok : op.exec opts s = .ok s') : Kept s' := by
  have hsegments : op.OnSegments → Kept s' := by
    intro hop
    have hframe := Framed.exec hop hok
    refine h.congr ?_ hframe.metaRecord_eq hframe.snapshot_eq
    refine (passes_exec (P := fun d => ∃ membership segments, d = { s.dir with membership, segments }) ?_
      ⟨_, _, rfl⟩ hop hok).last
    rintro _ segments ⟨membership, _, rfl⟩
    exact ⟨membership, segments, rfl⟩
  cases op with
  | saveSnapshot snapshot =>
      obtain rfl := Except.ok.inj hok
      exact h.saveSnapshot hroom
  | installSnapshot snapshot => exact h.installSnapshot hroom hok
  | saveConfState index confState =>
      obtain rfl := Except.ok.inj hok
      exact h.congr ⟨_, _, rfl⟩ rfl rfl
  | reopen config => exact Kept.openDir h.named hok
  | _ => exact hsegments trivial

/-- **So does one that is cut short.** -/
theorem Kept.named_crash {opts : WalOptions} {op : Op} (h : Kept s) (hroom : LeavesRoom s op) (k : Nat) :
    Named (op.crashDir opts s k) := by
  cases hok : op.exec opts s with
  | error e =>
      rw [Op.crashDir_of_error hok]
      exact h.named
  | ok s' =>
      cases op with
      | saveSnapshot snapshot =>
          obtain rfl := Except.ok.inj hok
          exact Op.crashDir_of_passes (fun config => Op.noConfusion) hok (passes_saveSnapshot (named_saveSteps h hroom)) k
      | installSnapshot snapshot =>
          exact Op.crashDir_of_passes (fun config => Op.noConfusion) hok
            (passes_installSnapshot named_of_segments hok (named_saveSteps h hroom)) k
      | saveConfState index confState =>
          obtain rfl := Except.ok.inj hok
          have hwrite : Passes Named s (s.io (.writeMembership index confState)) := .io s h.named h.named
          exact Op.crashDir_of_passes (fun config => Op.noConfusion) hok (hwrite.congr rfl rfl) k
      | reopen config =>
          -- META is there, so an open makes calls on segments only
          have hfrom := openedFrom hok
          rw [Op.crashDir, Op.calls, hok]
          refine throughout_onSegments named_of_segments h.named (fun step hstep => ?_) k
          refine (hfrom.calls step hstep).resolve_right fun hnone => ?_
          rw [h.metaFile_eq] at hnone
          cases hnone.1
      | _ =>
          refine Op.crashDir_of_passes (fun config => Op.noConfusion) hok
            (passes_exec named_of_segments h.named ?_ hok) k
          trivial

theorem CrashRun.kept {opts : WalOptions} {acts : List Act} {s : WalStorage}
    (h : CrashRun opts (fun s act => LeavesRoom s act.op) acts s) : Kept s := by
  refine Transition.Run.invariant (P := fun _ s => Kept s) ?_ ?_ h
  · intro s hopen
    refine Kept.openDir ?_ hopen
    rintro m ⟨⟩
  · rintro acts s act s' - hkept ⟨hroom, hok⟩
    cases act with
    | call op => exact hkept.exec hroom hok
    | crash op k config => exact Kept.openDir (hkept.named_crash hroom k) hok

/-- **The snapshot META names is not pruned** in runs whose calls all leave room: after every completed call, and after
every crash. -/
theorem named_of_leavesRoom {opts : WalOptions} {acts : List Act} {s : WalStorage}
    (h : CrashRun opts (fun s act => LeavesRoom s act.op) acts s) :
    Named s.dir ∧ ∀ op k, LeavesRoom s op → Named (op.crashDir opts s k) :=
  ⟨h.kept.named, fun _ k hroom => h.kept.named_crash hroom k⟩

/-- A save at 10 is cut short before META is written; the next one, at 8, is not, and neither prunes the other's file. -/
theorem named_of_leavesRoom_ten_eight :
    ∃ s, CrashRun (sampleOptions 1024) (fun s act => LeavesRoom s act.op)
      [.crash (.saveSnapshot (sampleSnapshot 10)) 1 ⟨.always, 1024⟩, .call (.saveSnapshot (sampleSnapshot 8))] s ∧
      s.dir.snapshots.map (·.index) = [10, 8] ∧ Named s.dir ∧
      Named ((Op.installSnapshot (sampleSnapshot 12)).crashDir (sampleOptions 1024) s 3) := by
  have heval : (runActs (sampleOptions 1024) (fun s act => LeavesRoom s act.op)
      [.crash (.saveSnapshot (sampleSnapshot 10)) 1 ⟨.always, 1024⟩, .call (.saveSnapshot (sampleSnapshot 8))]).any
      (fun s => s.dir.snapshots.map (·.index) = [10, 8] ∧ LeavesRoom s (.installSnapshot (sampleSnapshot 12))) := by
    decide +kernel
  obtain ⟨s, hs, hfiles⟩ := (Option.any_eq_true _ _).mp heval
  obtain ⟨hfiles, hroom⟩ := of_decide_eq_true hfiles
  obtain ⟨hnamed, hcrash⟩ := named_of_leavesRoom (CrashRun.of_runActs hs)
  exact ⟨s, CrashRun.of_runActs hs, hfiles, hnamed, hcrash _ 3 hroom⟩

/-- **The snapshot META names can be pruned.** Two saves are cut short between the rename and the META update, at 10
and then at 8; a third one, at 7, completes. Pruning keeps the two leftover files and deletes the one META names. -/
theorem named_snapshot_pruned :
    ∃ s, CrashRun (sampleOptions 1024) (fun _ _ => True)
      [.crash (.saveSnapshot (sampleSnapshot 10)) 1 ⟨.always, 1024⟩,
        .crash (.saveSnapshot (sampleSnapshot 8)) 1 ⟨.always, 1024⟩, .call (.saveSnapshot (sampleSnapshot 7))] s ∧
      s.dir.metaFile.map (·.snapshotIndex) = some 7 ∧ s.dir.snapshots.map (·.index) = [10, 8] ∧ ¬ Named s.dir := by
  have heval : (runActs (sampleOptions 1024) (fun _ _ => True)
      [.crash (.saveSnapshot (sampleSnapshot 10)) 1 ⟨.always, 1024⟩,
        .crash (.saveSnapshot (sampleSnapshot 8)) 1 ⟨.always, 1024⟩, .call (.saveSnapshot (sampleSnapshot 7))]).any
      (fun s => s.dir.metaFile.map (·.snapshotIndex) = some 7 ∧ s.dir.snapshots.map (·.index) = [10, 8] ∧
        ¬ Named s.dir) := by
    decide +kernel
  obtain ⟨s, hs, hpruned⟩ := (Option.any_eq_true _ _).mp heval
  exact ⟨s, CrashRun.of_runActs hs, of_decide_eq_true hpruned⟩

end Arachne.Storage
