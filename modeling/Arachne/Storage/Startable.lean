import Arachne.Storage.Crash
import Arachne.Storage.HardState

/-! # Can raft start on an opened store?

Raft loads a hard state other than the default only if its commit lies between the store's watermark and its last index
(`Startable`). `open` checks the upper bound. The lower one compares two files: the watermark is at most the snapshot
index in META, the commit is that of the last HardState record in the segments.

Wherever a call is cut short, the HardState records on disk are the last ones of those there were (`Trails`), so that
recovery reports the last one or none. Two things break the bound. An overwriting `append` may cut the last HardState
record off and bring an older one back (see `KeepsHardState`), and `install_snapshot` writes META before it unlinks the
segments with the old hard state (`OutsideWindow`). -/

namespace Arachne.Storage

open Codec (Bytes)
open WalStorage
open Transition (Throughout)

/-- What raft asks of a store it is started on: `load_state` accepts its hard state. -/
def Startable (t : WalStorage) : Prop :=
  t.hardState = .default ∨
    t.firstIndex - 1 ≤ t.hardState.commit.toNat ∧ t.hardState.commit.toNat ≤ t.lastIndex

instance (t : WalStorage) : Decidable (Startable t) := inferInstanceAs (Decidable (_ ∨ _))

/-- How raft calls the store: its commit is within the log, never falls and is never below its snapshot; a local
snapshot is at or below the commit, an installed one at or above it. -/
def RaftOrder (s : WalStorage) : Op → Prop
  | .setHardState hs => hs.commit.toNat ≤ s.lastIndex ∧ s.hardState.commit ≤ hs.commit ∧
      watermark s.snapshot ≤ hs.commit.toNat
  | .saveSnapshot snapshot => snapshot.metadata.index ≤ s.hardState.commit
  | .installSnapshot snapshot => s.hardState.commit ≤ snapshot.metadata.index
  | _ => True

instance (s : WalStorage) (op : Op) : Decidable (RaftOrder s op) :=
  match op with
  | .setHardState hs => inferInstanceAs (Decidable (hs.commit.toNat ≤ s.lastIndex ∧
      s.hardState.commit ≤ hs.commit ∧ watermark s.snapshot ≤ hs.commit.toNat))
  | .saveSnapshot snapshot => inferInstanceAs (Decidable (snapshot.metadata.index ≤ s.hardState.commit))
  | .installSnapshot snapshot => inferInstanceAs (Decidable (s.hardState.commit ≤ snapshot.metadata.index))
  | .append _ | .syncEntries | .saveConfState _ _ | .compact _ | .setTrailingKeepBytes _ | .reopen _ => .isTrue trivial

/-- An overwriting `append` cuts no HardState record off. -/
def CutsNoHardState (s : WalStorage) : Op → Prop
  | .append entries => KeepsHardState s (.append entries)
  | _ => True

instance (s : WalStorage) (op : Op) : Decidable (CutsNoHardState s op) :=
  match op with
  | .append entries => inferInstanceAs (Decidable (KeepsHardState s (.append entries)))
  | .setHardState _ | .saveSnapshot _ | .installSnapshot _ | .syncEntries | .saveConfState _ _ | .compact _
  | .setTrailingKeepBytes _ | .reopen _ => .isTrue trivial

/-- `install_snapshot` is not cut short with META updated and a HardState record below the snapshot still there: there is
none, its commit is at the snapshot, META is not written yet, or every segment with a HardState record is gone. -/
def OutsideWindow (opts : WalOptions) (s : WalStorage) (op : Op) (k : Nat) : Prop :=
  match op with
  | .installSnapshot snapshot =>
      hardStateOf s.dir.log.records = .default ∨
      snapshot.metadata.index ≤ (hardStateOf s.dir.log.records).commit ∨
      FsStep.writeMeta (s.metaFor snapshot) ∉ (op.calls opts s).take k ∨
      ∀ p ∈ s.dir.log.toList, HoldsHardState p.2 → FsStep.removeSegment p.1 ∈ (op.calls opts s).take k
  | _ => True

/-! ## HardState records on disk -/

/-- The hard states among some records, oldest first. -/
def hardStatesOf (rs : List Record) : List HardState := rs.filterMap Record.hardState?

theorem hardStatesOf_append (xs ys : List Record) : hardStatesOf (xs ++ ys) = hardStatesOf xs ++ hardStatesOf ys :=
  List.filterMap_append

theorem hardStatesOf_recordsOf (segs : List (Nat × List Record)) :
    hardStatesOf (recordsOf segs) = segs.flatMap fun p => hardStatesOf p.2 := List.filterMap_flatMap

theorem hardStatesOf_eq_nil {rs : List Record} : hardStatesOf rs = [] ↔ ¬ HoldsHardState rs := by
  rw [hardStatesOf, List.filterMap_eq_nil_iff, HoldsHardState]
  push Not
  rfl

/-- Of the last hard states, the last one counts. -/
theorem hardStateOf_of_suffix {rs rs' : List Record} (h : hardStatesOf rs' <:+ hardStatesOf rs) :
    hardStateOf rs' = .default ∨ hardStateOf rs' = hardStateOf rs := by
  obtain ⟨older, holder⟩ := h
  by_cases hnil : hardStatesOf rs' = []
  · refine .inl ?_
    show (hardStatesOf rs').getLast?.getD .default = _
    rw [hnil]
    rfl
  · refine .inr ?_
    show (hardStatesOf rs').getLast?.getD .default = (hardStatesOf rs).getLast?.getD .default
    rw [← holder, List.getLast?_append_of_ne_nil _ hnil]

/-- The segment files hold `log`. -/
structure OnDisk (segments : Assoc Bytes) (log : Log) : Prop where
  segments_eq : segments = log.bytes
  fits : ∀ r ∈ log.records, r.Fits

namespace OnDisk

variable {segments : Assoc Bytes} {log : Log}

theorem keys_eq (h : OnDisk segments log) : segments.keys = log.keys := by
  rw [h.segments_eq, Log.bytes, Assoc.keys_map]

theorem fits_of_mem (h : OnDisk segments log) {p : Nat × List Record} (hp : p ∈ log.toList) : ∀ r ∈ p.2, r.Fits :=
  fun r hr => h.fits r (List.mem_flatMap.mpr ⟨p, hp, hr⟩)

theorem create (h : OnDisk segments log) (n : Nat) : OnDisk (segments.insertNew n []) (log.insertNew n []) := by
  refine ⟨?_, fun r hr => ?_⟩
  · rw [h.segments_eq, Log.bytes, Log.bytes, Assoc.map_insertNew]
    rfl
  · obtain ⟨p, hp, hr⟩ := List.mem_flatMap.mp hr
    rcases Assoc.mem_insertNew hp with rfl | hp
    · exact absurd hr List.not_mem_nil
    · exact h.fits_of_mem hp r hr

theorem write (h : OnDisk segments log) (n : Nat) {r : Record} (hr : r.Fits) :
    OnDisk (segments.modify n (· ++ r.encode)) (log.modify n (· ++ [r])) := by
  refine ⟨?_, fun r' hr' => ?_⟩
  · rw [h.segments_eq]
    exact (Assoc.map_modify log n fun rs => by simp).symm
  · obtain ⟨p, hp, hr'⟩ := List.mem_flatMap.mp hr'
    obtain ⟨q, hq, rfl⟩ := List.mem_map.mp hp
    split_ifs at hr'
    · rcases List.mem_append.mp hr' with hr' | hr'
      · exact h.fits_of_mem hq r' hr'
      · rw [List.mem_singleton.mp hr']
        exact hr
    · exact h.fits_of_mem hq r' hr'

theorem erase (h : OnDisk segments log) (n : Nat) : OnDisk (segments.erase n) (log.erase n) := by
  refine ⟨?_, fun r hr => ?_⟩
  · rw [h.segments_eq]
    exact (Assoc.map_erase log n _).symm
  · obtain ⟨p, hp, hr⟩ := List.mem_flatMap.mp hr
    exact h.fits_of_mem (List.mem_of_mem_filter hp) r hr

theorem cut (h : OnDisk segments log) {pre post : List (Nat × List Record)} {n : Nat} {xs ys : List Record}
    (hlog : log.toList = pre ++ (n, xs ++ ys) :: post) :
    OnDisk (segments.modify n (·.take (image xs).length)) (log.modify n fun _ => xs) := by
  refine ⟨?_, fun r hr => ?_⟩
  · rw [h.segments_eq, Log.bytes_cut hlog]
  · refine h.fits r ?_
    rw [Log.records, Assoc.toList_modify_of_eq _ hlog, recordsOf_append, recordsOf_cons] at hr
    rw [Log.records, hlog, recordsOf_append, recordsOf_cons]
    rcases List.mem_append.mp hr with hr | hr
    · exact List.mem_append_left _ hr
    · refine List.mem_append_right _ ?_
      rcases List.mem_append.mp hr with hr | hr
      · exact List.mem_append_left _ (List.mem_append_left _ hr)
      · exact List.mem_append_right _ hr

end OnDisk

namespace Log

theorem hardStates_insertNew (log : Log) (n : Nat) :
    hardStatesOf (Log.records (log.insertNew n [])) = hardStatesOf log.records := by
  rw [Log.records, Log.records, hardStatesOf_recordsOf, hardStatesOf_recordsOf]
  show (Assoc.insertList n [] log.toList).flatMap _ = _
  induction log.toList with
  | nil => rfl
  | cons p l ih =>
      rw [Assoc.insertList]
      split_ifs
      · rfl
      · rfl
      · rw [List.flatMap_cons, ih, List.flatMap_cons]

theorem hardStates_modify (log : Log) (n : Nat) {f : List Record → List Record}
    (h : ∀ p ∈ log.toList, p.1 = n → hardStatesOf (f p.2) = hardStatesOf p.2) :
    hardStatesOf (Log.records (log.modify n f)) = hardStatesOf log.records := by
  rw [Log.records, Log.records, hardStatesOf_recordsOf, hardStatesOf_recordsOf, Assoc.modify, List.flatMap_map]
  refine List.flatMap_congr fun p hp => ?_
  split_ifs with hn
  · exact h p hp hn
  · rfl

theorem hardStates_erase (log : Log) (n : Nat) (h : ∀ p ∈ log.toList, p.1 = n → hardStatesOf p.2 = []) :
    hardStatesOf (Log.records (log.erase n)) = hardStatesOf log.records := by
  rw [Log.records, Log.records, hardStatesOf_recordsOf, hardStatesOf_recordsOf, Assoc.erase]
  dsimp only
  generalize log.toList = l at h
  induction l with
  | nil => rfl
  | cons p l ih =>
      rw [List.forall_mem_cons] at h
      by_cases hn : p.1 = n
      · rw [List.filter_cons_of_neg (by simpa using hn), ih h.2, List.flatMap_cons, h.1 hn, List.nil_append]
      · rw [List.filter_cons_of_pos (by simpa using hn), List.flatMap_cons, ih h.2, List.flatMap_cons]

/-- Without its first segment. -/
theorem hardStates_erase_head {log : Log} {n : Nat} {ks : List Nat} (h : log.keys = n :: ks) :
    hardStatesOf (Log.records (log.erase n)) <:+ hardStatesOf log.records ∧ (log.erase n).keys = ks := by
  obtain ⟨p, l, hlog, rfl, rfl⟩ := List.map_eq_cons_iff.mp h
  have hsplit : log.toList = [p] ++ l := hlog
  have herase : (log.erase p.1).toList = l := Assoc.toList_eraseAll_prefix hsplit
  rw [Log.records, Assoc.keys, herase, Log.records, hlog, recordsOf_cons, hardStatesOf_append]
  exact ⟨List.suffix_append _ _, rfl⟩

end Log

/-- META is `metaFile`, and the HardState records on disk are the last ones of `hs`. -/
def Trails (hs : List HardState) (metaFile : Option Meta) (d : Dir) : Prop :=
  d.metaFile = metaFile ∧ ∃ log : Log, OnDisk d.segments log ∧ hardStatesOf log.records <:+ hs

namespace Trails

variable {hs : List HardState} {metaFile : Option Meta} {d : Dir}

/-- Entries leave them alone. -/
theorem write {step : FsStep} (hstep : step.WritesEntry) (h : Trails hs metaFile d) : Trails hs metaFile (step.run d) := by
  obtain ⟨hmeta, log, hdisk, hsuffix⟩ := h
  cases step with
  | createSegment n =>
      refine ⟨hmeta, _, hdisk.create n, ?_⟩
      rw [Log.hardStates_insertNew]
      exact hsuffix
  | appendSegment n bytes =>
      obtain ⟨e, hfits, rfl⟩ := hstep
      refine ⟨hmeta, _, hdisk.write n (r := .entry e) hfits, ?_⟩
      rw [Log.hardStates_modify]
      · exact hsuffix
      · intro p _ _
        rw [hardStatesOf_append]
        exact List.append_nil _
  | syncSegment n => exact ⟨hmeta, log, hdisk, hsuffix⟩
  | _ => exact hstep.elim

/-- The oldest go first. -/
theorem removeFirst {n : Nat} {ks : List Nat} (h : Trails hs metaFile d) (hkeys : d.listSegmentIndices = n :: ks) :
    Trails hs metaFile (FsStep.run d (.removeSegment n)) ∧
      (FsStep.run d (.removeSegment n)).listSegmentIndices = ks := by
  obtain ⟨hmeta, log, hdisk, hsuffix⟩ := h
  rw [Dir.listSegmentIndices, hdisk.keys_eq] at hkeys
  obtain ⟨herase, hrest⟩ := Log.hardStates_erase_head hkeys
  refine ⟨⟨hmeta, _, hdisk.erase n, herase.trans hsuffix⟩, ?_⟩
  show (d.segments.erase n).keys = ks
  rw [(hdisk.erase n).keys_eq, hrest]

theorem removeAll {ks rest : List Nat} (h : Trails hs metaFile d) (hkeys : d.listSegmentIndices = ks ++ rest) :
    Throughout FsStep.run (Trails hs metaFile) d (ks.map FsStep.removeSegment) := by
  induction ks generalizing d with
  | nil => exact .nil h
  | cons n ks ih =>
      obtain ⟨h', hkeys'⟩ := h.removeFirst hkeys
      exact .cons h (ih h' hkeys')

end Trails

/-! ## The calls of each operation -/

variable {opts : WalOptions} {s s' : WalStorage} {log : Log} {base : Nat}

theorem Inv.onDisk (h : Inv opts s log base) : OnDisk s.dir.segments log := ⟨h.stored.segments_eq, h.stored.fits⟩

theorem Inv.trails (h : Inv opts s log base) : Trails (hardStatesOf log.records) s.dir.metaFile s.dir :=
  ⟨rfl, log, h.onDisk, List.suffix_refl _⟩

/-- Cutting behind an entry that no HardState record follows, and unlinking the later segments. -/
theorem Inv.trails_cut (h : Inv opts s log base) {pre post : List (Nat × List Record)} {n : Nat} {xs ys : List Record}
    (hlog : log.toList = pre ++ (n, xs ++ ys) :: post) (hnone : ¬ HoldsHardState (ys ++ recordsOf post)) :
    Throughout FsStep.run (Trails (hardStatesOf log.records) s.dir.metaFile) s.dir
      (.truncateSegment n (image xs).length :: .syncSegment n ::
        (s.dir.listSegmentIndices.filter (n < ·)).map FsStep.removeSegment) := by
  have hnil := hardStatesOf_eq_nil.mpr hnone
  rw [hardStatesOf_append, List.append_eq_nil_iff, hardStatesOf_recordsOf, List.flatMap_eq_nil_iff] at hnil
  have hlog' := Assoc.toList_modify_of_eq (fun _ => xs) hlog
  have hbounds := Assoc.lt_of_toList_eq hlog'
  -- the segments behind the cut hold no hard state, so they can go in any order
  have hkept : Throughout FsStep.run (fun d => d.metaFile = s.dir.metaFile ∧ ∃ log' : Log, OnDisk d.segments log' ∧
      hardStatesOf log'.records = hardStatesOf log.records ∧ ∀ p ∈ log'.toList, n < p.1 → hardStatesOf p.2 = [])
      (FsStep.run s.dir (.truncateSegment n (image xs).length))
      (.syncSegment n :: (s.dir.listSegmentIndices.filter (n < ·)).map FsStep.removeSegment) := by
    refine .of_kept ⟨rfl, _, h.onDisk.cut hlog, ?_, ?_⟩ ?_
    · refine Log.hardStates_modify log n fun p hp hn => ?_
      have hget := Assoc.get?_of_mem hp
      rw [hn, Assoc.get?_of_toList_eq hlog] at hget
      rw [← Option.some.inj hget, hardStatesOf_append, hnil.1, List.append_nil]
    · intro p hp hlt
      rw [hlog', List.mem_append, List.mem_cons] at hp
      rcases hp with hp | rfl | hp
      · exact absurd (hbounds.1 p hp) (Nat.not_lt.mpr hlt.le)
      · exact absurd hlt (Nat.lt_irrefl _)
      · exact hnil.2 p hp
    · intro step hstep d hd
      rcases List.mem_cons.mp hstep with rfl | hstep
      · exact hd
      · obtain ⟨m, hm, rfl⟩ := List.mem_map.mp hstep
        have hlt : n < m := of_decide_eq_true (List.mem_filter.mp hm).2
        obtain ⟨hmeta, log', hdisk, hsame, hbehind⟩ := hd
        refine ⟨hmeta, _, hdisk.erase m, ?_, ?_⟩
        · rw [Log.hardStates_erase log' m fun p hp hpm => hbehind p hp (hpm ▸ hlt)]
          exact hsame
        · exact fun p hp => hbehind p (List.mem_of_mem_filter hp)
  refine .cons h.trails (hkept.mono ?_)
  rintro d ⟨hmeta, log', hdisk, hsame, -⟩
  exact ⟨hmeta, log', hdisk, hsame ▸ List.suffix_refl _⟩

theorem Inv.passes_truncateLogTo (h : Inv opts s log base) {keep : Nat}
    (hnone : ¬ HoldsHardState (recordsAfter keep log.records)) :
    Passes (Trails (hardStatesOf log.records) s.dir.metaFile) s (s.truncateLogTo keep).1 := by
  by_cases hlast : (lastEntryIndex? s.entries).getD 0 ≤ keep
  · simp only [truncateLogTo, if_pos hlast]
    exact .refl h.trails
  · by_cases hmem : ∃ e ∈ log.entries, e.index.toNat = keep
    · obtain ⟨e, he, rfl⟩ := hmem
      obtain ⟨pre, n, xs, ys, post, hlog⟩ := Inv.exists_place he
      have hcut : log.toList = pre ++ (n, (xs ++ [.entry e]) ++ ys) :: post := by
        rw [List.append_assoc]
        exact hlog
      simp only [truncateLogTo, if_neg hlast, h.findHolding_eq hlog]
      refine (Passes.ioAll s (h.trails_cut hcut ?_)).congr rfl rfl
      rwa [h.recordsAfter_eq hlog] at hnone
    · have hfind := h.findHolding_eq_none fun e he heq => hmem ⟨e, he, heq⟩
      simp only [truncateLogTo, if_neg hlast, hfind]
      refine (Passes.ioAll s ?_).congr rfl rfl
      have hremove := h.trails.removeAll (List.append_nil s.dir.listSegmentIndices).symm
      exact hremove.append (.cons hremove.last (.nil (hremove.last.write trivial)))

/-- **`append`** -/
theorem Inv.passes_append (h : Inv opts s log base) {es : List LogEntry} (hok : s.append es = .ok s')
    (hkeep : KeepsHardState s (.append es)) : Passes (Trails (hardStatesOf log.records) s.dir.metaFile) s s' := by
  obtain ⟨t, log₁, -, hloop, hstart, -⟩ := h.appendStart hok
  have hcut : Passes (Trails (hardStatesOf log.records) s.dir.metaFile) s t := by
    cases hstart with
    | asIs _ ht _ =>
        rw [ht]
        exact .refl h.trails
    | cut first hfirst hle _ _ _ hcut =>
        have hnone := hkeep first hfirst hle
        rw [h.log_eq] at hnone
        rw [hcut]
        exact h.passes_truncateLogTo hnone
  exact hcut.trans (passes_appendAll (fun _ _ hstep hd => hd.write hstep) hcut.last hloop)

/-- **`compact`** unlinks segments from the front. -/
theorem Inv.passes_compactTrailing {hs : List HardState} {metaFile : Option Meta} {ks : List Nat} {s : WalStorage}
    (hasc : ks.Pairwise (· < ·)) (hlast : ks.getLast? = some s.segmentFirstIndex) (hkeys : s.dir.listSegmentIndices = ks)
    (htrails : Trails hs metaFile s.dir) (indices : List Nat) (compactTo effective : Nat) :
    Passes (Trails hs metaFile) s (compactTrailing indices compactTo (windows ks) s effective).1 := by
  induction ks generalizing s effective with
  | nil => exact .refl htrails
  | cons k ks ih =>
      cases ks with
      | nil => exact .refl htrails
      | cons k' ks =>
          obtain ⟨hk, hasc'⟩ := List.pairwise_cons.mp hasc
          -- the active segment is the last one, so that the loop never passes over the first
          have hlast' : (k' :: ks).getLast? = some s.segmentFirstIndex := by simpa using hlast
          have hactive : k ≠ s.segmentFirstIndex := Nat.ne_of_lt (hk _ (List.mem_of_getLast? hlast'))
          obtain ⟨hremoved, hkeys'⟩ := htrails.removeFirst hkeys
          rw [windows_cons_cons, compactTrailing]
          split_ifs
          · exact .refl htrails
          · exact .refl htrails
          · have hremove : Passes (Trails hs metaFile) s (s.io (.removeSegment k)) := .io s htrails hremoved
            exact hremove.trans (@ih (s.io (.removeSegment k)) hasc' hlast' hkeys' hremoved (k' - 1))

theorem Inv.passes_compact (h : Inv opts s log base) {compactTo : Nat} (hok : s.compact compactTo = .ok s') :
    Passes (Trails (hardStatesOf log.records) s.dir.metaFile) s s' := by
  rcases compact_eq_ok hok with ⟨-, rfl⟩ | ⟨-, -, -, ⟨-, rfl⟩ | ⟨-, rfl⟩⟩
  · exact .refl h.trails
  · obtain ⟨pre, post, hcov, hpre⟩ := windows_filter_eq h.indices_ascending h.getLast?_indices (compactTo + 1)
    have hsteps : (((windows s.dir.listSegmentIndices).filter fun w =>
        w.2 ≤ compactTo + 1 ∧ w.1 ≠ s.segmentFirstIndex).map fun w => FsStep.removeSegment w.1) =
        pre.map FsStep.removeSegment := by
      rw [← hpre, List.map_map]
      rfl
    simp only [compactWhole, deleteSegmentsBelow, hsteps]
    exact (Passes.ioAll s (h.trails.removeAll hcov.eq)).congr rfl rfl
  · exact (Inv.passes_compactTrailing h.indices_ascending h.getLast?_indices rfl h.trails _ compactTo
      s.compactedTo).congr rfl rfl

/-! ## Directories raft can start on -/

/-- The last HardState record is the default or not below the index META names. -/
def Sound (d : Dir) : Prop :=
  ∃ log : Log, OnDisk d.segments log ∧ (hardStateOf log.records = .default ∨
    ∀ m ∈ d.metaFile, m.snapshotIndex.toNat ≤ (hardStateOf log.records).commit.toNat)

/-- **Opening a sound directory** gives a store that raft can start on. -/
theorem Sound.startable {d : Dir} {t : WalStorage} (h : Sound d) (hopen : (openDir d opts).2 = .ok t) :
    Startable t := by
  obtain ⟨log, hdisk, hbound⟩ := h
  have hfrom := openedFrom hopen
  obtain ⟨recovered, hwal, hhard, hcheck⟩ := hfrom.replayed
  rw [recoverWal_bytes hdisk.segments_eq hdisk.fits] at hwal
  obtain rfl := Except.ok.inj hwal
  obtain ⟨-, -, hcommit, -⟩ := checkRecovered_eq_ok.mp hcheck
  rw [Startable, hhard]
  refine hbound.imp_right fun hle => ⟨?_, hcommit⟩
  have hmark : t.compactedTo ≤ t.metaRecord.snapshotIndex.toNat := by
    rw [hfrom.compactedTo_eq, hfrom.snapshot_eq]
    exact watermark_load_le d _
  refine Nat.le_trans hmark ?_
  cases hmeta : d.metaFile with
  | none =>
      rw [hfrom.fresh hmeta]
      exact Nat.zero_le _
  | some m =>
      rw [hfrom.metaRecord_eq m hmeta]
      exact hle m hmeta

/-- META does not name a snapshot beyond the commit that recovery reports. -/
def Bounded (s : WalStorage) (log : Log) : Prop :=
  hardStateOf log.records = .default ∨ watermark s.snapshot ≤ (hardStateOf log.records).commit.toNat

theorem Inv.sound_of_trails (h : Inv opts s log base) (hb : Bounded s log) {d : Dir}
    (hd : Trails (hardStatesOf log.records) s.dir.metaFile d) : Sound d := by
  obtain ⟨hmeta, log', hdisk, hsuffix⟩ := hd
  refine ⟨log', hdisk, ?_⟩
  rcases hardStateOf_of_suffix hsuffix with hdefault | hsame
  · exact .inl hdefault
  · rw [hsame]
    refine hb.imp_right fun hle m hm => ?_
    rw [hmeta, h.snapped.metaFile_eq] at hm
    obtain rfl := Option.some.inj hm
    rw [h.snapped.index_eq]
    exact hle

theorem Inv.sound (h : Inv opts s log base) (hb : Bounded s log) : Sound s.dir := h.sound_of_trails hb h.trails

theorem Inv.sound_crash_of_passes (h : Inv opts s log base) (hb : Bounded s log) {op : Op}
    (hop : ∀ config, op ≠ .reopen config) (hok : op.exec opts s = .ok s')
    (hpasses : Passes (Trails (hardStatesOf log.records) s.dir.metaFile) s s') (k : Nat) :
    Sound (op.crashDir opts s k) :=
  h.sound_of_trails hb (Op.crashDir_of_passes hop hok hpasses k)

/-! ### Saving a snapshot -/

variable {snapshot : Snapshot}

theorem metaFile_saveSteps {step : FsStep} (hstep : step ∈ s.saveSteps snapshot) (d : Dir) :
    (step.run d).metaFile = d.metaFile ∨
      step = .writeMeta (s.metaFor snapshot) ∧ (step.run d).metaFile = some (s.metaFor snapshot) := by
  rw [saveSteps] at hstep
  split_ifs at hstep
  · cases hstep
  · rcases List.mem_cons.mp hstep with rfl | hstep
    · exact .inl rfl
    · rcases List.mem_cons.mp hstep with rfl | hstep
      · exact .inr ⟨rfl, rfl⟩
      · obtain ⟨f, -, rfl⟩ := List.mem_map.mp hstep
        exact .inl rfl

/-- META is the old one or names the new snapshot, and the old one unless it was written. -/
theorem metaFile_runAll_saveSteps {steps : List FsStep} (hsub : steps ⊆ s.saveSteps snapshot) (d : Dir) :
    (FsStep.runAll d steps).metaFile = d.metaFile ∨
      .writeMeta (s.metaFor snapshot) ∈ steps ∧ (FsStep.runAll d steps).metaFile = some (s.metaFor snapshot) := by
  induction steps generalizing d with
  | nil => exact .inl rfl
  | cons step steps ih =>
      rw [List.cons_subset] at hsub
      rcases ih hsub.2 (step.run d) with hrest | ⟨hmem, hrest⟩
      · rcases metaFile_saveSteps hsub.1 d with hstep | ⟨rfl, hstep⟩
        · exact .inl (hrest.trans hstep)
        · exact .inr ⟨List.mem_cons_self, hrest.trans hstep⟩
      · exact .inr ⟨List.mem_cons_of_mem step hmem, hrest⟩

theorem segments_runAll_saveSteps {steps : List FsStep} (hsub : steps ⊆ s.saveSteps snapshot) (d : Dir) :
    (FsStep.runAll d steps).segments = d.segments :=
  FsStep.segments_runAll (fun step hstep => s.segments_saveSteps snapshot step (hsub hstep)) d

/-- META stays at or below a commit that bounds the old snapshot, and the new one once META is written. -/
theorem Inv.metaFile_saveSteps_le (h : Inv opts s log base) {steps : List FsStep} (hsub : steps ⊆ s.saveSteps snapshot)
    {commit : UInt64} (hle : watermark s.snapshot ≤ commit.toNat)
    (hnew : .writeMeta (s.metaFor snapshot) ∈ steps → snapshot.metadata.index ≤ commit) :
    ∀ m ∈ (FsStep.runAll s.dir steps).metaFile, m.snapshotIndex.toNat ≤ commit.toNat := by
  intro m hm
  rcases metaFile_runAll_saveSteps hsub s.dir with hsame | ⟨hwritten, hmeta⟩
  · rw [hsame, h.snapped.metaFile_eq] at hm
    obtain rfl := Option.some.inj hm
    rw [h.snapped.index_eq]
    exact hle
  · rw [hmeta] at hm
    obtain rfl := Option.some.inj hm
    exact UInt64.le_iff_toNat_le.mp (hnew hwritten)

/-- **`save_snapshot`** at or below the commit may stop anywhere. -/
theorem Inv.sound_saveSteps (h : Inv opts s log base) (hb : Bounded s log)
    (hcommit : hardStateOf log.records = .default ∨ snapshot.metadata.index ≤ (hardStateOf log.records).commit) :
    Throughout FsStep.run Sound s.dir (s.saveSteps snapshot) := by
  intro k
  have hsub := List.take_subset k (s.saveSteps snapshot)
  refine ⟨log, ?_, ?_⟩
  · show OnDisk (FsStep.runAll s.dir _).segments log
    rw [segments_runAll_saveSteps hsub]
    exact h.onDisk
  · rcases hb with hdefault | hle
    · exact .inl hdefault
    · exact hcommit.imp_right fun hindex => h.metaFile_saveSteps_le hsub hle fun _ => hindex

/-! ### Installing a snapshot -/

/-- While the segments are replaced, those from some point on are left, or the new one is there. -/
theorem Inv.onDisk_replaceSteps (h : Inv opts s log base) {d : Dir} (hd : d.segments = s.dir.segments) (i : Nat) :
    ∃ log' : Log, OnDisk (FsStep.runAll d ((s.replaceSteps snapshot).take i)).segments log' ∧
      hardStatesOf log'.records = hardStatesOf (recordsOf (log.toList.drop i)) := by
  by_cases hi : i ≤ s.dir.listSegmentIndices.length
  · obtain ⟨log', hdef⟩ : ∃ log' : Log, log' = log.eraseAll (log.keys.take i) := ⟨_, rfl⟩
    have hlog : log'.toList = log.toList.drop i := by
      rw [hdef, Assoc.keys, ← List.map_take]
      exact Assoc.toList_eraseAll_prefix (List.take_append_drop i log.toList).symm
    refine ⟨log', ⟨?_, fun r hr => ?_⟩, ?_⟩
    · rw [replaceSteps, List.take_append_of_le_length (by simpa using hi), ← List.map_take, FsStep.runAll_removeSegments]
      show d.segments.eraseAll _ = _
      rw [hd, hdef, Dir.listSegmentIndices, h.onDisk.keys_eq, h.onDisk.segments_eq]
      exact (Assoc.map_eraseAll _ _ _).symm
    · obtain ⟨p, hp, hr⟩ := List.mem_flatMap.mp hr
      rw [hlog] at hp
      exact h.onDisk.fits_of_mem (List.mem_of_mem_drop hp) r hr
    · rw [Log.records, hlog]
  · have hlen : (s.replaceSteps snapshot).length ≤ i := by
      rw [replaceSteps, List.length_append, List.length_map, List.length_singleton]
      omega
    have hdrop : log.toList.drop i = [] := by
      rw [List.drop_eq_nil_iff, ← List.length_map Prod.fst]
      show log.keys.length ≤ i
      rw [← h.onDisk.keys_eq]
      exact (Nat.not_le.mp hi).le
    refine ⟨Assoc.empty.insertNew (snapshot.metadata.index.toNat + 1) [], ⟨?_, fun r hr => ?_⟩, ?_⟩
    · rw [List.take_of_length_le hlen, runAll_replaceSteps s snapshot hd, Assoc.eraseAll_keys]
      rfl
    · exact absurd hr List.not_mem_nil
    · rw [hdrop]
      rfl

/-- A segment that is left has not been unlinked. -/
theorem Inv.not_mem_take_of_mem_drop (h : Inv opts s log base) {p : Nat × List Record} {i : Nat}
    (hp : p ∈ log.toList.drop i) : FsStep.removeSegment p.1 ∉ (s.replaceSteps snapshot).take i := by
  intro hmem
  rw [replaceSteps, List.take_append, ← List.map_take] at hmem
  rcases List.mem_append.mp hmem with hmem | hmem
  · obtain ⟨n, hn, hsame⟩ := List.mem_map.mp hmem
    obtain rfl := FsStep.removeSegment.inj hsame
    rw [Dir.listSegmentIndices, h.onDisk.keys_eq] at hn
    have hdrop : p.1 ∈ log.keys.drop i := by
      rw [Assoc.keys, ← List.map_drop]
      exact List.mem_map_of_mem hp
    have hasc : log.keys.Pairwise (· < ·) := log.ascending
    rw [← List.take_append_drop i log.keys, List.pairwise_append] at hasc
    exact Nat.lt_irrefl _ (hasc.2.2 _ hn _ hdrop)
  · cases List.mem_singleton.mp (List.mem_of_mem_take hmem)

/-- Once every segment with a HardState record is unlinked, none is left. -/
theorem Inv.hardStates_drop_eq_nil (h : Inv opts s log base) {calls : List FsStep} {i : Nat}
    (hcalls : calls ⊆ s.saveSteps snapshot)
    (hremoved : ∀ p ∈ log.toList, HoldsHardState p.2 →
      FsStep.removeSegment p.1 ∈ calls ++ (s.replaceSteps snapshot).take i) :
    hardStatesOf (recordsOf (log.toList.drop i)) = [] := by
  rw [hardStatesOf_recordsOf, List.flatMap_eq_nil_iff]
  intro p hp
  refine hardStatesOf_eq_nil.mpr fun hholds => ?_
  rcases List.mem_append.mp (hremoved p (List.mem_of_mem_drop hp) hholds) with hmem | hmem
  · exact not_onSegments_saveSteps (hcalls hmem) trivial
  · exact h.not_mem_take_of_mem_drop hp hmem

/-- **`install_snapshot`** may stop anywhere but in its window. -/
theorem Inv.sound_installSteps (h : Inv opts s log base) (hb : Bounded s log) (k : Nat)
    (hwindow : hardStateOf log.records = .default ∨ snapshot.metadata.index ≤ (hardStateOf log.records).commit ∨
      FsStep.writeMeta (s.metaFor snapshot) ∉ (s.saveSteps snapshot ++ s.replaceSteps snapshot).take k ∨
      ∀ p ∈ log.toList, HoldsHardState p.2 →
        FsStep.removeSegment p.1 ∈ (s.saveSteps snapshot ++ s.replaceSteps snapshot).take k) :
    Sound (FsStep.runAll s.dir ((s.saveSteps snapshot ++ s.replaceSteps snapshot).take k)) := by
  obtain ⟨i, hi⟩ : ∃ i, i = k - (s.saveSteps snapshot).length := ⟨_, rfl⟩
  obtain ⟨d, hd⟩ : ∃ d, d = FsStep.runAll s.dir ((s.saveSteps snapshot).take k) := ⟨_, rfl⟩
  have hsub := List.take_subset k (s.saveSteps snapshot)
  have hsegs : d.segments = s.dir.segments := by
    rw [hd]
    exact segments_runAll_saveSteps hsub s.dir
  obtain ⟨log', hdisk, hstates⟩ := h.onDisk_replaceSteps hsegs i
  have hmeta : (FsStep.runAll d ((s.replaceSteps snapshot).take i)).metaFile = d.metaFile := by
    obtain ⟨segments, hrun⟩ := runAll_onSegments
      (fun step hstep => onSegments_replaceSteps s snapshot step (List.mem_of_mem_take hstep)) d
    rw [hrun]
  have hsuffix : hardStatesOf log'.records <:+ hardStatesOf log.records := by
    rw [hstates, Log.records, ← List.take_append_drop i log.toList, recordsOf_append, hardStatesOf_append,
      List.take_append_drop]
    exact List.suffix_append _ _
  rw [List.take_append, ← hi] at hwindow ⊢
  rw [FsStep.runAll_append, ← hd]
  refine ⟨log', hdisk, ?_⟩
  rw [hmeta, hd]
  rcases hardStateOf_of_suffix hsuffix with hdefault | hsame
  · exact .inl hdefault
  · rw [hsame]
    rcases hb with hdefault | hle
    · exact .inl hdefault
    · rcases hwindow with hdefault | hindex | hunwritten | hremoved
      · exact .inl hdefault
      · exact .inr (h.metaFile_saveSteps_le hsub hle fun _ => hindex)
      · exact .inr (h.metaFile_saveSteps_le hsub hle fun hmem => absurd (List.mem_append_left _ hmem) hunwritten)
      · -- recovery reports no hard state at all
        refine .inl ?_
        rw [← hsame]
        exact hardStateOf_of_not_holds (hardStatesOf_eq_nil.mp (hstates.trans (h.hardStates_drop_eq_nil hsub hremoved)))

/-! ## Runs -/

/-- What recovery would report is the store's hard state or the default, and not below the snapshot. -/
structure Carried (opts : WalOptions) (s : WalStorage) (log : Log) (base : Nat) : Prop
    extends Inv opts s log base where
  hardState_eq : hardStateOf log.records = .default ∨ hardStateOf log.records = s.hardState
  bounded : Bounded s log

theorem Carried.exec (h : Carried opts s log base) {op : Op} (horder : RaftOrder s op) (hcuts : CutsNoHardState s op)
    (hok : op.exec opts s = .ok s') : ∃ log' base', Carried opts s' log' base' := by
  cases op with
  | append es =>
      obtain ⟨log', h', hsame⟩ := h.hardStateOf_append hok hcuts
      have hframe := Framed.append hok
      refine ⟨log', base, h', ?_, ?_⟩
      · rw [hsame, hframe.hardState_eq]
        exact h.hardState_eq
      · rw [Bounded, hsame, hframe.snapshot_eq]
        exact h.bounded
  | setHardState hs =>
      obtain rfl := Except.ok.inj hok
      obtain ⟨log', h', hrec⟩ := h.toInv.setHardState hs
      have hlast : hardStateOf log'.records = hs := by rw [hrec, hardStateOf_append_hardState]
      refine ⟨log', base, h', .inr hlast, .inr ?_⟩
      rw [hlast]
      exact horder.2.2
  | syncEntries =>
      obtain rfl := Except.ok.inj hok
      have h' := h.toInv.syncEntries
      obtain ⟨_, _, _, hsync⟩ := s.syncEntries_eq
      rw [hsync] at h' ⊢
      exact ⟨log, base, h', h.hardState_eq, h.bounded⟩
  | saveConfState index confState =>
      obtain rfl := Except.ok.inj hok
      exact ⟨log, base, h.toInv.saveConfState index confState, h.hardState_eq, h.bounded⟩
  | saveSnapshot snapshot =>
      obtain rfl := Except.ok.inj hok
      have h' := (h.toInv.saveSnapshot snapshot).1
      obtain ⟨_, _, hsave⟩ := s.saveSnapshot_eq snapshot
      rw [hsave] at h' ⊢
      refine ⟨log, base, h', h.hardState_eq, ?_⟩
      rw [Bounded]
      split_ifs
      · exact h.bounded
      · refine h.hardState_eq.imp_right fun hsame => ?_
        rw [hsame]
        exact UInt64.le_iff_toNat_le.mp horder
  | installSnapshot snapshot =>
      rcases h.toInv.installSnapshot hok with ⟨-, -, rfl⟩ | ⟨log', h', hrec⟩
      · exact ⟨log, base, h⟩
      · -- the hard state goes with the segments
        have hdefault : hardStateOf log'.records = .default := by
          rw [hrec]
          rfl
        exact ⟨log', _, h', .inl hdefault, .inl hdefault⟩
  | compact compactTo =>
      obtain ⟨log', base', dropped, h', -, -, hlog, -⟩ := h.toInv.compact hok
      have hframe := Framed.compact hok
      have hsuffix : hardStatesOf log'.records <:+ hardStatesOf log.records := by
        rw [Log.records, Log.records, hlog, recordsOf_append, hardStatesOf_append]
        exact List.suffix_append _ _
      refine ⟨log', base', h', ?_, ?_⟩
      · rw [hframe.hardState_eq]
        rcases hardStateOf_of_suffix hsuffix with hdefault | hsame
        · exact .inl hdefault
        · rw [hsame]
          exact h.hardState_eq
      · rw [Bounded, hframe.snapshot_eq]
        rcases hardStateOf_of_suffix hsuffix with hdefault | hsame
        · exact .inl hdefault
        · rw [hsame]
          exact h.bounded
  | setTrailingKeepBytes bytes =>
      obtain rfl := Except.ok.inj hok
      exact ⟨log, base, h.toInv.setTrailingKeepBytes bytes, h.hardState_eq, h.bounded⟩
  | reopen config =>
      obtain ⟨h', -, hhard, -, hmark, -⟩ := h.toInv.reopen hok
      refine ⟨log, _, h', .inr hhard.symm, ?_⟩
      rw [Bounded, hmark]
      exact h.bounded

theorem WalRun.carried {ops : List Op} (h : WalRun opts (fun s op => RaftOrder s op ∧ CutsNoHardState s op) ops s) :
    ∃ log base, Carried opts s log base := by
  refine Transition.Run.invariant (P := fun _ s => ∃ log base, Carried opts s log base) ?_ ?_ h
  · intro s hs
    obtain ⟨log, hinv, hrec, -, -⟩ := Inv.fresh hs
    have hdefault : hardStateOf log.records = .default := by
      rw [hrec]
      rfl
    exact ⟨log, 0, hinv, .inl hdefault, .inl hdefault⟩
  · rintro ops s op s' - ⟨log, base, hcarried⟩ ⟨⟨horder, hcuts⟩, hexec⟩
    exact hcarried.exec horder hcuts hexec

/-- A reopen of an intact store makes no call. -/
theorem Inv.journal_reopen (h : Inv opts s log base) {config : WalConfig} {t : WalStorage}
    (hok : (openDir s.dir { opts with config }).2 = .ok t) : t.journal = [] := by
  have hread := h.readable config
  obtain ⟨-, -, rfl⟩ := hread.openDir_eq_ok.mp hok
  simp only [opened, assemble, if_neg (hread.indices_ne_nil h.toList_ne_nil), List.append_nil]

/-- **Wherever a call is cut short** outside the window, the directory is sound. -/
theorem Carried.sound_crash (h : Carried opts s log base) {op : Op} (horder : RaftOrder s op)
    (hcuts : CutsNoHardState s op) (k : Nat) (hwindow : OutsideWindow opts s op k) : Sound (op.crashDir opts s k) := by
  have hs := h.toInv.sound h.bounded
  cases hok : op.exec opts s with
  | error e =>
      rw [Op.crashDir_of_error hok]
      exact hs
  | ok s' =>
      cases op with
      | append es =>
          exact h.sound_crash_of_passes h.bounded (fun config => Op.noConfusion) hok (h.passes_append hok hcuts) k
      | setHardState hard =>
          obtain ⟨log', base', h'⟩ := h.exec horder hcuts hok
          have hs' := h'.toInv.sound h'.bounded
          obtain rfl := Except.ok.inj hok
          have hsteps : Throughout FsStep.run Sound s.dir
              [.appendSegment s.segmentFirstIndex (Record.hardState hard).encode, .syncSegment s.segmentFirstIndex] :=
            .cons hs (.cons hs' (.nil hs'))
          exact Op.crashDir_of_passes (fun config => Op.noConfusion) hok ((Passes.ioAll s hsteps).congr rfl rfl) k
      | syncEntries =>
          refine h.sound_crash_of_passes h.bounded (fun config => Op.noConfusion) hok ?_ k
          obtain rfl := Except.ok.inj hok
          exact passes_syncEntries (fun _ _ hstep hd => hd.write hstep) h.trails
      | saveConfState index confState =>
          refine h.sound_crash_of_passes h.bounded (fun config => Op.noConfusion) hok ?_ k
          obtain rfl := Except.ok.inj hok
          have hwrite : Passes (Trails (hardStatesOf log.records) s.dir.metaFile) s (s.io (.writeMembership index confState)) :=
            .io s h.trails h.trails
          exact hwrite.congr rfl rfl
      | saveSnapshot snapshot =>
          have hcommit : hardStateOf log.records = .default ∨
              snapshot.metadata.index ≤ (hardStateOf log.records).commit := by
            refine h.hardState_eq.imp_right fun hsame => ?_
            rw [hsame]
            exact horder
          obtain rfl := Except.ok.inj hok
          exact Op.crashDir_of_passes (fun config => Op.noConfusion) hok
            (passes_saveSnapshot (h.sound_saveSteps h.bounded hcommit)) k
      | installSnapshot snapshot =>
          rcases Op.calls_installSnapshot hok with hcalls | hcalls
          · rw [Op.crashDir, hcalls, List.take_nil]
            exact hs
          · simp only [OutsideWindow, hcalls, h.log_eq] at hwindow
            rw [Op.crashDir, hcalls]
            exact h.sound_installSteps h.bounded k hwindow
      | compact compactTo =>
          exact h.sound_crash_of_passes h.bounded (fun config => Op.noConfusion) hok (h.passes_compact hok) k
      | setTrailingKeepBytes bytes =>
          refine h.sound_crash_of_passes h.bounded (fun config => Op.noConfusion) hok ?_ k
          obtain rfl := Except.ok.inj hok
          exact (Passes.refl h.trails).congr rfl rfl
      | reopen config =>
          rw [Op.crashDir, Op.calls, hok]
          show Sound (FsStep.runAll s.dir (s'.journal.take k))
          rw [h.journal_reopen hok, List.take_nil]
          exact hs

/-- **Raft can start on every store that opens**, after a run in which no `append` cuts a HardState record off and a
crash outside the window of `install_snapshot`. -/
theorem startable_after_crash {ops : List Op}
    (h : WalRun opts (fun s op => RaftOrder s op ∧ CutsNoHardState s op) ops s) {op : Op} (horder : RaftOrder s op)
    (hcuts : CutsNoHardState s op) (k : Nat) (hwindow : OutsideWindow opts s op k) (config : WalConfig) {t : WalStorage}
    (hopen : (openDir (op.crashDir opts s k) { opts with config }).2 = .ok t) : Startable t := by
  obtain ⟨log, base, hcarried⟩ := h.carried
  exact (hcarried.sound_crash horder hcuts k hwindow).startable hopen

/-- A local snapshot at the commit, cut short before it prunes. -/
theorem startable_after_crash_save :
    ∃ s t, WalRun (sampleOptions 1024) (fun s op => RaftOrder s op ∧ CutsNoHardState s op)
        [.append [sampleEntry 1 1, sampleEntry 2 1], .setHardState ⟨1, none, 1⟩] s ∧
      (openDir ((Op.saveSnapshot (sampleSnapshot 1)).crashDir (sampleOptions 1024) s 2) (sampleOptions 1024)).2 = .ok t ∧
      t.hardState = ⟨1, none, 1⟩ ∧ t.firstIndex = 2 ∧ Startable t := by
  have heval : (runOps (sampleOptions 1024) (fun s op => RaftOrder s op ∧ CutsNoHardState s op)
      [.append [sampleEntry 1 1, sampleEntry 2 1], .setHardState ⟨1, none, 1⟩]).any (fun s =>
      RaftOrder s (.saveSnapshot (sampleSnapshot 1)) ∧
      (openDir ((Op.saveSnapshot (sampleSnapshot 1)).crashDir (sampleOptions 1024) s 2) (sampleOptions 1024)).2.toOption.any
        fun t => t.hardState = ⟨1, none, 1⟩ ∧ t.firstIndex = 2) := by
    decide +kernel
  obtain ⟨s, hs, heval⟩ := (Option.any_eq_true _ _).mp heval
  obtain ⟨horder, heval⟩ := of_decide_eq_true heval
  obtain ⟨t, ht, heval⟩ := (Option.any_eq_true _ _).mp heval
  obtain ⟨hhard, hfirst⟩ := of_decide_eq_true heval
  have hrun := WalRun.of_runOps hs
  have hopen := toOption_eq_some.mp ht
  exact ⟨s, t, hrun, hopen, hhard, hfirst,
    startable_after_crash hrun horder trivial 2 trivial (sampleOptions 1024).config hopen⟩

/-- After the calls `ops` and a crash behind the first `k` file-system calls of `op`, all in raft's order, the store opens
with a hard state that raft does not load. -/
def Unstartable (ops : List Op) (op : Op) (k : Nat) : Prop :=
  ∃ s t, WalRun (sampleOptions 1024) RaftOrder ops s ∧ RaftOrder s op ∧
    (openDir (op.crashDir (sampleOptions 1024) s k) (sampleOptions 1024)).2 = .ok t ∧ ¬ Startable t

theorem Unstartable.of_eval {ops : List Op} {op : Op} {k : Nat}
    (h : (runOps (sampleOptions 1024) RaftOrder ops).any fun s => RaftOrder s op ∧
      (openDir (op.crashDir (sampleOptions 1024) s k) (sampleOptions 1024)).2.toOption.any (¬ Startable ·)) :
    Unstartable ops op k := by
  obtain ⟨s, hs, heval⟩ := (Option.any_eq_true _ _).mp h
  obtain ⟨horder, heval⟩ := of_decide_eq_true heval
  obtain ⟨t, ht, hnot⟩ := (Option.any_eq_true _ _).mp heval
  exact ⟨s, t, WalRun.of_runOps hs, horder, toOption_eq_some.mp ht, of_decide_eq_true hnot⟩

/-- **Raft cannot start on every store that opens.** A snapshot at 5 is being installed, META names it, and the segment
with the commit 1 is still there; or an append overwrites entry 5, and with it goes the HardState record with the commit
3 that a snapshot at 3 relies on, but not the older one with the commit 1. -/
theorem opened_store_unstartable :
    Unstartable [.append [sampleEntry 1 1, sampleEntry 2 1], .setHardState ⟨1, none, 1⟩]
        (.installSnapshot (sampleSnapshot 5)) 2 ∧
      Unstartable [.append [sampleEntry 1 1, sampleEntry 2 1, sampleEntry 3 1], .setHardState ⟨1, none, 1⟩,
          .append [sampleEntry 4 1, sampleEntry 5 1], .setHardState ⟨1, none, 3⟩, .saveSnapshot (sampleSnapshot 3)]
        (.append [sampleEntry 5 2]) 3 :=
  ⟨.of_eval (by decide +kernel), .of_eval (by decide +kernel)⟩

end Arachne.Storage
