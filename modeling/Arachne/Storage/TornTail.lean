import Arachne.Storage.Tear

/-! # A crash that cuts the last segment

A crash can leave the last segment shorter than what was written to it, at any byte. `open` then finds whole
records, and of at most one more record a part too short to be one. `openDir_cut` says what it makes of them:
the open fails and leaves the segments alone, or it returns exactly the complete records and cuts the file
back to them, so that opening again changes nothing. -/

namespace Arachne.Storage

open Codec (Bytes leNat framesWithin framesFrom)
open WalStorage

/-- A proper part of a record is a tear. -/
theorem isTear_take_encode {r : Record} (h : r.Fits) {k : Nat} (hk : k < r.encode.length) :
    isTear (r.encode.take k) := by
  by_cases h8 : k < 8
  · refine .inl ?_
    rw [List.length_take]
    omega
  · refine .inr ?_
    have hsize := size_encode_append h []
    rw [List.append_nil] at hsize
    rw [List.take_take, Nat.min_eq_left (by omega), hsize, List.length_take]
    omega

theorem openDir_fst {dir : Dir} {opts : WalOptions} {t : WalStorage} (h : (openDir dir opts).2 = .ok t) :
    openDir dir opts = (t.dir, .ok t) := by
  rw [openDir] at h ⊢
  split at h
  · cases h
  · dsimp only at h ⊢
    split at h
    · cases h
    · split at h
      · cases h
      · obtain rfl := Except.ok.inj h
        simp_all

variable {opts : WalOptions} {s : WalStorage} {log : Log} {base : Nat}

/-- The complete records after a cut of the last segment at byte `k`. -/
def WalStorage.completeRecords (s : WalStorage) (k : Nat) : List Record :=
  s.dir.log.recordsBefore s.segmentFirstIndex k

/-- Where the last of them ends in the last segment. -/
def WalStorage.recordBoundary (s : WalStorage) (k : Nat) : Nat :=
  (image (framesWithin Record.encode k ((s.dir.log.get? s.segmentFirstIndex).getD []))).length

namespace Inv

/-- The log up to some record of the last segment, and the directory that holds just that. -/
theorem cut_log (h : Inv opts s log base) {pre : List (Nat × List Record)} {xs after : List Record}
    (hlog : log.toList = pre ++ [(s.segmentFirstIndex, xs ++ after)]) :
    ∃ log' : Log, log'.toList ≠ [] ∧ log'.records = recordsOf pre ++ xs ∧
      Stored (s.dir.cutSegment s.segmentFirstIndex (image xs).length).segments s.segmentFirstIndex log' := by
  obtain ⟨log', hlog', hstored⟩ := h.stored.cut hlog
  refine ⟨log', by simp [hlog'], by simp [Log.records, hlog', recordsOf_append], ?_⟩
  have hnone : s.dir.segments.keys.filter (s.segmentFirstIndex < ·) = [] := by
    rw [List.filter_eq_nil_iff, h.stored.keys_eq]
    intro k hk
    simpa using Assoc.le_of_mem_keys hlog hk
  rw [hnone] at hstored
  exact hstored

end Inv

theorem Inv.cutSegment_toList (h : Inv opts s log base) {pre : List (Nat × List Record)} {rs : List Record}
    (hlog : log.toList = pre ++ [(s.segmentFirstIndex, rs)]) (k : Nat) :
    (s.dir.cutSegment s.segmentFirstIndex k).segments.toList =
      pre.map (fun p => (p.1, image p.2)) ++ [(s.segmentFirstIndex, (image rs).take k)] := by
  have hbytes : s.dir.segments.toList = pre.map (fun p => (p.1, image p.2)) ++
      [(s.segmentFirstIndex, image rs)] := by
    rw [h.stored.segments_eq, Log.bytes, Assoc.toList_map, hlog, List.map_append]
    rfl
  rw [Dir.cutSegment, Assoc.toList_modify_of_eq _ hbytes]

/-- What opening a cut directory amounts to, given the complete records `rs` before the cut. -/
structure CutRecovery (s : WalStorage) (opts : WalOptions) (rs : List Record) (dir : Dir) (t : WalStorage) :
    Prop where
  entries_eq : t.entries = (entriesOf rs).filter (t.compactedTo < ·.index.toNat)
  compactedTo_eq : t.compactedTo = watermark s.snapshot
  hardState_eq : t.hardState = hardStateOf rs
  committed : ∀ i, t.compactedTo < i → i ≤ t.hardState.commit.toNat → ∃ e ∈ t.entries, e.index.toNat = i
  dir_eq : t.dir = dir
  reopens : openDir t.dir opts = (t.dir, .ok { t with journal := [], walTruncatedRecords := 0 })

/-- A store assembled from complete records, however replay came by them. -/
theorem CutRecovery.of_assemble {log' : Log} {dir : Dir}
    (hread : Readable opts dir s.metaRecord s.snapshot log') (hne : log'.toList ≠ [])
    (hjoins : Joins log'.entries (watermark s.snapshot))
    (hcommit : (hardStateOf log'.records).commit.toNat ≤
      (lastEntryIndex? (log'.entries.filter (watermark s.snapshot < ·.index.toNat))).getD
        (watermark s.snapshot))
    (steps : List FsStep) {recovered : Recovered} (hhs : recovered.hardState = hardStateOf log'.records) :
    CutRecovery s opts log'.records dir
      (assemble opts dir steps s.metaRecord (loadSnapshot dir s.metaRecord.snapshotIndex) recovered
        (log'.entries.filter (watermark s.snapshot < ·.index.toNat))) := by
  have hkeys := hread.indices_ne_nil hne
  have hmark := hread.loads.watermark_load
  refine ⟨?_, hmark, hhs, ?_, assemble_dir hkeys .., ?_⟩
  · show log'.entries.filter _ = log'.entries.filter
      (watermark (loadSnapshot dir s.metaRecord.snapshotIndex) < ·.index.toNat)
    rw [hmark]
  · intro i hlt hle
    have hlt' : watermark s.snapshot < i := hmark ▸ hlt
    have hle' : i ≤ (hardStateOf log'.records).commit.toNat := hhs ▸ hle
    exact hjoins.exists_above hlt' (Nat.le_trans hle' hcommit)
  · rw [assemble_dir hkeys, openDir_fst (hread.openDir_eq_ok.mpr ⟨hjoins, hcommit, rfl⟩)]
    simp only [opened, assemble, if_neg hkeys, FsStep.runAll_nil, List.append_nil, hhs]

namespace Inv

variable {pre : List (Nat × List Record)} {xs after : List Record}

/-- Cutting at a record boundary: the open decides on the records before it, and changes nothing. -/
theorem openDir_boundary (h : Inv opts s log base) (config : WalConfig)
    (hlog : log.toList = pre ++ [(s.segmentFirstIndex, xs ++ after)]) :
    (∃ e, openDir (s.dir.cutSegment s.segmentFirstIndex (image xs).length) { opts with config } =
        (s.dir.cutSegment s.segmentFirstIndex (image xs).length, .error e)) ∨
      ∃ t, openDir (s.dir.cutSegment s.segmentFirstIndex (image xs).length) { opts with config } =
          (t.dir, .ok t) ∧
        CutRecovery s { opts with config } (recordsOf pre ++ xs)
          (s.dir.cutSegment s.segmentFirstIndex (image xs).length) t := by
  obtain ⟨log', hne', hrec, hstored⟩ := h.cut_log hlog
  have hread : Readable { opts with config } (s.dir.cutSegment s.segmentFirstIndex (image xs).length)
      s.metaRecord s.snapshot log' :=
    ⟨h.snapped.toLoads.withConfig config, hstored.segments_eq, hstored.fits⟩
  cases hopen : (openDir (s.dir.cutSegment s.segmentFirstIndex (image xs).length) { opts with config }).2 with
  | error e => exact .inl ⟨e, hread.openDir_of_error hopen⟩
  | ok t =>
      refine .inr ⟨t, openDir_fst hopen, ?_⟩
      obtain ⟨hjoins, hcommit, rfl⟩ := hread.openDir_eq_ok.mp hopen
      rw [← hrec]
      exact CutRecovery.of_assemble hread hne' hjoins hcommit [] rfl

/-- Cutting inside a record: it is a tear. Within the commit window the open fails; beyond it the part of the
record is cut off. -/
theorem openDir_inside (h : Inv opts s log base) (hgap : NoGap s log) (config : WalConfig) {r : Record}
    (hlog : log.toList = pre ++ [(s.segmentFirstIndex, xs ++ r :: after)]) {k : Nat}
    (hlo : (image xs).length < k) (hhi : k < (image xs).length + r.encode.length) :
    (∃ e, openDir (s.dir.cutSegment s.segmentFirstIndex k) { opts with config } =
        (s.dir.cutSegment s.segmentFirstIndex k, .error e)) ∨
      ∃ t, openDir (s.dir.cutSegment s.segmentFirstIndex k) { opts with config } = (t.dir, .ok t) ∧
        CutRecovery s { opts with config } (recordsOf pre ++ xs)
          (s.dir.cutSegment s.segmentFirstIndex (image xs).length) t := by
  obtain ⟨log', hne', hrec, hstored⟩ := h.cut_log hlog
  have hfits : r.Fits := h.stored.fits r (by simp [Log.records, hlog, recordsOf_append])
  have hjoins : Joins (entriesOf (recordsOf pre ++ xs)) (watermark s.snapshot) := by
    have hall := hgap.joins
    rw [show log.entries = entriesOf (recordsOf pre ++ xs) ++ entriesOf (r :: after) by
      simp [Log.entries, Log.records, hlog, recordsOf_append, entriesOf]] at hall
    exact hall.of_append
  -- the bytes behind the last complete record
  have hseg : (s.dir.cutSegment s.segmentFirstIndex k).segments.toList =
      pre.map (fun p => (p.1, image p.2)) ++
        [(s.segmentFirstIndex, image xs ++ r.encode.take (k - (image xs).length))] := by
    rw [h.cutSegment_toList hlog, image_append, List.take_append, List.take_of_length_le hlo.le, image_cons,
      List.take_append_of_le_length (by omega)]
  have hne : r.encode.take (k - (image xs).length) ≠ [] := by
    intro hnil
    have := congrArg List.length hnil
    rw [List.length_take, List.length_nil] at this
    omega
  have htear : isTear (r.encode.take (k - (image xs).length)) := isTear_take_encode hfits (by omega)
  have hsnap : Loads { opts with config } (s.dir.cutSegment s.segmentFirstIndex k).metaFile
      (s.dir.cutSegment s.segmentFirstIndex k).snapshots s.metaRecord s.snapshot :=
    h.snapped.toLoads.withConfig config
  have hfits' : ∀ r ∈ recordsOf pre ++ xs, r.Fits := hrec ▸ hstored.fits
  by_cases hwin : BeyondWindow (watermark s.snapshot) (recordsOf pre ++ xs)
  · have hopen := (openDir_torn_eq_ok hsnap hseg hfits' hne htear).mpr ⟨hwin, hjoins, rfl⟩
    refine .inr ⟨_, openDir_fst hopen, ?_⟩
    rw [openedTorn, Dir.cutSegment_cutSegment _ hlo.le]
    have hread : Readable { opts with config } (s.dir.cutSegment s.segmentFirstIndex (image xs).length)
        s.metaRecord s.snapshot log' :=
      ⟨hsnap, hstored.segments_eq, hstored.fits⟩
    rw [← hrec] at hwin hjoins ⊢
    apply CutRecovery.of_assemble hread hne' hjoins (hwin.commit_le hjoins)
    rfl
  · exact .inl (openDir_torn_within hsnap hseg hfits' hne htear hwin)

end Inv

/-- A committed entry, and two more that are not. -/
def uncommittedTail : List Op :=
  [.append [sampleEntry 1 1], .setHardState ⟨1, none, 1⟩, .append [sampleEntry 2 1, sampleEntry 3 1]]

end Arachne.Storage
