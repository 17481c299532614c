import Arachne.Storage.Gapless
import Arachne.Storage.Retention

/-! # Lost snapshot files

A snapshot file may be deleted, or no longer decode (`Damage`). `open` then falls back to an older file, or to no snapshot
at all, and relies on its checks of the log to notice a gap: the first replayed entry must join what was loaded. A log
without entries has no first entry, and nothing compares its end with the index META names.

`recovers_iff` says when an open that succeeds still covers everything up to that index (`Recovers`). -/

namespace Arachne.Storage

open WalStorage

/-- What may happen to a snapshot file. -/
inductive Damage where
  | keep
  | delete
  | corrupt
  deriving DecidableEq, Repr

/-- What is left of a file. The checksum tells a corrupt one. -/
def Damage.apply (f : SnapshotFile) : Damage → Option SnapshotFile
  | .keep => some f
  | .delete => none
  | .corrupt => some { f with content := none }

theorem Damage.index_of_apply {damage : Damage} {f g : SnapshotFile} (h : damage.apply f = some g) : g.index = f.index := by
  cases damage with
  | keep =>
      obtain rfl := Option.some.inj h
      rfl
  | delete => cases h
  | corrupt =>
      obtain rfl := Option.some.inj h
      rfl

/-- A file that is still valid is one that was left alone. -/
theorem Damage.keep_of_valid {damage : Damage} {f g : SnapshotFile} (h : damage.apply f = some g)
    (hvalid : (SnapshotFile.valid? g).isSome) : damage = .keep ∧ g = f := by
  cases damage with
  | keep => exact ⟨rfl, (Option.some.inj h).symm⟩
  | delete => cases h
  | corrupt =>
      obtain rfl := Option.some.inj h
      cases hvalid

/-- The directory after each snapshot file met its fate. -/
def Dir.damage (d : Dir) (fate : SnapshotFile → Damage) : Dir :=
  { d with
    snapshots := d.snapshots.filterMap fun f => (fate f).apply f
    newestFirst := by
      refine d.newestFirst.filterMap _ fun f g hfg f' hf' g' hg' => ?_
      rw [SnapshotFile.NewerEq, Damage.index_of_apply hf', Damage.index_of_apply hg']
      exact hfg }

/-- The store covers every index up to `index`, by its snapshot and its entries. -/
def Recovers (t : WalStorage) (index : Nat) : Prop :=
  index ≤ t.lastIndex ∧ ∀ i, 1 ≤ i → i ≤ index → i ≤ watermark t.snapshot ∨ ∃ e ∈ t.entries, e.index.toNat = i

/-- The file META names is undamaged, or there is an entry at or beyond its index. -/
def Recoverable (d : Dir) (index : UInt64) (fate : SnapshotFile → Damage) : Prop :=
  (∃ f ∈ d.snapshots, f.index = index ∧ (SnapshotFile.valid? f).isSome ∧ fate f = .keep) ∨
    ∃ e ∈ d.log.entries, index ≤ e.index

instance (d : Dir) (index : UInt64) (fate : SnapshotFile → Damage) : Decidable (Recoverable d index fate) :=
  inferInstanceAs (Decidable (_ ∨ _))

/-! ## What loads -/

/-- A snapshot that loads is at or below the index asked for, and at it only if the file is undamaged. -/
theorem watermark_load_damage (d : Dir) (fate : SnapshotFile → Damage) {index : UInt64} (h0 : index ≠ 0) :
    watermark (loadSnapshot (d.damage fate) index) ≤ index.toNat ∧
      (watermark (loadSnapshot (d.damage fate) index) = index.toNat ↔
        ∃ f ∈ d.snapshots, f.index = index ∧ (SnapshotFile.valid? f).isSome ∧ fate f = .keep) := by
  have hback : (∃ f ∈ d.snapshots, f.index = index ∧ (SnapshotFile.valid? f).isSome ∧ fate f = .keep) →
      watermark (newestValid (d.damage fate).snapshots index) = index.toNat := by
    rintro ⟨f, hf, hindex, hvalid, hkeep⟩
    have hmem : f ∈ (d.damage fate).snapshots := List.mem_filterMap.mpr ⟨f, hf, by rw [hkeep]; rfl⟩
    obtain ⟨snapshot, hload, hsnapshot⟩ := newestValid_of_mem (d.damage fate).newestFirst hmem hindex hvalid
    rw [hload, ← hsnapshot]
    rfl
  refine ⟨watermark_load_le _ index, ?_⟩
  rw [loadSnapshot, if_neg h0]
  refine ⟨fun hmark => ?_, hback⟩
  cases hload : newestValid (d.damage fate).snapshots index with
  | none =>
      rw [hload] at hmark
      exact absurd (UInt64.toNat_inj.mp hmark.symm) h0
  | some snapshot =>
      rw [hload] at hmark
      have hindex : snapshot.metadata.index = index := UInt64.toNat_inj.mp hmark
      obtain ⟨g, hg, -, hvalid, hlabel⟩ := newestValid_eq_some hload
      obtain ⟨f, hf, happly⟩ := List.mem_filterMap.mp hg
      have hsome : (SnapshotFile.valid? g).isSome := by
        rw [hvalid]
        rfl
      obtain ⟨hkeep, rfl⟩ := Damage.keep_of_valid happly hsome
      exact ⟨g, hf, hlabel.symm.trans hindex, hsome, hkeep⟩

/-! ## What is covered -/

/-- Entries that join a snapshot at `mark` reach `index` exactly if the snapshot does or an entry does. -/
theorem Joins.reaches_iff {P : List LogEntry} {mark index : Nat} (h : Joins P mark) (hle : mark ≤ index) :
    index ≤ (lastEntryIndex? (P.filter (mark < ·.index.toNat))).getD mark ↔
      mark = index ∨ ∃ e ∈ P, index ≤ e.index.toNat := by
  constructor
  · intro hreach
    by_cases heq : mark = index
    · exact .inl heq
    · obtain ⟨e, he, hidx⟩ := h.exists_above (by omega) hreach
      exact .inr ⟨e, List.mem_of_mem_filter he, hidx.ge⟩
  · have hlen := h.gapless.length_above
    rw [h.gapless.lastIndex_above]
    rintro (rfl | ⟨e, he, hidx⟩)
    · exact Nat.le_max_right _ _
    · by_cases hmark : mark < e.index.toNat
      · have hmem : e ∈ P.filter (mark < ·.index.toNat) := List.mem_filter.mpr ⟨he, decide_eq_true hmark⟩
        have hlast := (h.gapless.consecutive_above.index_bounds hmem).2
        omega
      · omega

/-- **When an open in spite of damaged snapshot files loses nothing**: the file META names is undamaged, or an entry at
or beyond its index is still in the log. -/
theorem recovers_iff {opts : WalOptions} {s : WalStorage} (h : Reachable opts s) {m : Meta}
    (hmeta : s.dir.metaFile = some m) (h0 : m.snapshotIndex ≠ 0) (fate : SnapshotFile → Damage) (config : WalConfig)
    {t : WalStorage} (hopen : (openDir (s.dir.damage fate) { opts with config }).2 = .ok t) :
    Recovers t m.snapshotIndex.toNat ↔ Recoverable s.dir m.snapshotIndex fate := by
  obtain ⟨ops, hrun⟩ := h
  obtain ⟨log, base, hinv⟩ := hrun.inv
  obtain rfl := Option.some.inj (hinv.snapped.metaFile_eq.symm.trans hmeta)
  have hread := hinv.readable config
  have hintact : Intact { opts with config } (s.dir.damage fate) s.metaRecord log :=
    ⟨hread.loads.recoverMeta_eq, hread.segments_eq, hread.fits⟩
  obtain ⟨hle, hfile⟩ := watermark_load_damage s.dir fate h0
  obtain ⟨mark, hmark⟩ : ∃ mark, watermark (loadSnapshot (s.dir.damage fate) s.metaRecord.snapshotIndex) = mark :=
    ⟨_, rfl⟩
  -- the open succeeds, so that the log joins what was loaded
  obtain ⟨-, hjoins, -, rfl⟩ := (hintact.openDir_eq_ok hmark).mp hopen
  rw [hmark] at hle hfile
  have hreach := hjoins.reaches_iff hle
  have hlast : (opened { opts with config } (s.dir.damage fate) s.metaRecord log
      (log.entries.filter (mark < ·.index.toNat))).lastIndex =
      (lastEntryIndex? (log.entries.filter (mark < ·.index.toNat))).getD mark := by
    rw [← hmark]
    rfl
  rw [Recoverable, ← hfile, hinv.log_eq]
  simp only [UInt64.le_iff_toNat_le]
  rw [← hreach, Recovers, hlast]
  constructor
  · rintro ⟨hindex, -⟩
    exact hindex
  · intro hindex
    refine ⟨hindex, fun i hi hi' => ?_⟩
    show i ≤ watermark (loadSnapshot (s.dir.damage fate) s.metaRecord.snapshotIndex) ∨ _
    rw [hmark]
    by_cases hcovered : i ≤ mark
    · exact .inl hcovered
    · exact .inr (hjoins.exists_above (Nat.not_le.mp hcovered) (Nat.le_trans hi' hindex))

/-- An entry behind the snapshot makes up for the lost file. -/
theorem recovers_iff_entries :
    ∃ s t, Reachable (sampleOptions 1024) s ∧ s.dir.metaFile.map (·.snapshotIndex) = some 2 ∧
      (openDir (s.dir.damage fun _ => .delete) (sampleOptions 1024)).2 = .ok t ∧ t.snapshot = none ∧ Recovers t 2 := by
  have heval : (runOps (sampleOptions 1024) (fun _ _ => True)
      [.append [sampleEntry 1 1, sampleEntry 2 1, sampleEntry 3 1], .saveSnapshot (sampleSnapshot 2)]).any (fun s =>
      s.dir.metaFile.map (·.snapshotIndex) = some 2 ∧ Recoverable s.dir 2 (fun _ => .delete) ∧
      (openDir (s.dir.damage fun _ => .delete) (sampleOptions 1024)).2.toOption.any (·.snapshot = none)) := by
    decide +kernel
  obtain ⟨s, hs, heval⟩ := (Option.any_eq_true _ _).mp heval
  obtain ⟨hnamed, hrecoverable, heval⟩ := of_decide_eq_true heval
  obtain ⟨t, ht, hnone⟩ := (Option.any_eq_true _ _).mp heval
  have hreach : Reachable (sampleOptions 1024) s := ⟨_, WalRun.of_runOps hs⟩
  have hopen := toOption_eq_some.mp ht
  obtain ⟨m, hmeta, hindex⟩ := Option.map_eq_some_iff.mp hnamed
  refine ⟨s, t, hreach, hnamed, hopen, of_decide_eq_true hnone, ?_⟩
  have hiff := recovers_iff hreach hmeta (by rw [hindex]; decide) (fun _ => .delete) (sampleOptions 1024).config hopen
  rw [hindex] at hiff
  exact hiff.mpr hrecoverable

/-- **A lost snapshot file can go unnoticed.** A snapshot at 5 is installed in an empty store and its file is deleted:
the store opens as an empty one. -/
theorem lost_snapshot_unnoticed :
    ∃ s t, Reachable (sampleOptions 1024) s ∧ s.dir.metaFile.map (·.snapshotIndex) = some 5 ∧
      (openDir (s.dir.damage fun _ => .delete) (sampleOptions 1024)).2 = .ok t ∧ t.lastIndex = 0 ∧ ¬ Recovers t 5 := by
  have heval : (runOps (sampleOptions 1024) (fun _ _ => True) [.installSnapshot (sampleSnapshot 5)]).any (fun s =>
      s.dir.metaFile.map (·.snapshotIndex) = some 5 ∧
      (openDir (s.dir.damage fun _ => .delete) (sampleOptions 1024)).2.toOption.any (·.lastIndex = 0)) := by
    decide +kernel
  obtain ⟨s, hs, heval⟩ := (Option.any_eq_true _ _).mp heval
  obtain ⟨hnamed, heval⟩ := of_decide_eq_true heval
  obtain ⟨t, ht, hlast⟩ := (Option.any_eq_true _ _).mp heval
  refine ⟨s, t, ⟨_, WalRun.of_runOps hs⟩, hnamed, toOption_eq_some.mp ht, of_decide_eq_true hlast, ?_⟩
  rintro ⟨hreach, -⟩
  rw [of_decide_eq_true hlast] at hreach
  exact absurd hreach (by decide)

end Arachne.Storage
