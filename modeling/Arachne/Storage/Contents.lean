import Arachne.Storage.Tear

/-! # What a directory holds

A store writes the encodings of its records and names its segments by the entries in them. A directory that merely
*opens* may come from anywhere: its bytes read as records, possibly with a torn tail, and its segments have some names in
ascending order. This module says what that is enough for.

* **Opening** replays whole records and may cut a tail off; what is left reads as the records replayed
  (`reads_of_recoverWal`).
* **Writing and cutting** keep the segments readable (`Holds.write`, `Holds.cut`), whatever is in them.
* **Appending** does so as long as no segment is named above the entry that is next (`Holds.appendEntry`). A rollover
  names the new segment after that entry, and replay goes by the names. -/

namespace Arachne.Storage

open Codec (Bytes leNat)
open WalStorage

/-! ## What replay has read -/

variable {files files' : List (Nat × Bytes)} {segs : List (Nat × List Record)} {idx compactedTo : Nat} {isLast : Bool}

/-- What replay makes of a tail it cuts off at `offset`. -/
def Recovered.cutAt (acc : Recovered) (idx offset : Nat) : Recovered :=
  { acc with
    truncatedRecords := acc.truncatedRecords + 1
    steps := acc.steps ++ [.truncateSegment idx offset] }

/-- Replay of a segment reads whole records up to its end, or up to a tail that it cuts off. -/
theorem frames_of_replaySegment {n offset : Nat} {rest : Bytes} {acc acc' : Recovered} (hn : rest.length ≤ n)
    (h : replaySegment idx isLast compactedTo n offset rest acc = .ok acc') :
    ∃ front back rs, rest = front ++ back ∧ Frames front rs ∧
      (back = [] ∧ acc' = acc.pushAll rs ∨
        isLast = true ∧ acc' = (acc.pushAll rs).cutAt idx (offset + front.length)) := by
  induction n generalizing offset rest acc with
  | zero =>
      have hnil : rest = [] := List.eq_nil_of_length_eq_zero (Nat.le_zero.mp hn)
      exact ⟨[], [], [], hnil, .nil, .inl ⟨rfl, (Except.ok.inj h).symm⟩⟩
  | succ n ih =>
      rw [replaySegment] at h
      split_ifs at h with hnil htear
      · exact ⟨[], [], [], hnil, .nil, .inl ⟨rfl, (Except.ok.inj h).symm⟩⟩
      · obtain ⟨hlast, -, hcut⟩ := replayTear_eq_ok.mp h
        exact ⟨[], rest, [], rfl, .nil, .inr ⟨hlast, hcut⟩⟩
      · dsimp only at h
        split at h
        · cases h
        · next acc₁ hrecord =>
            obtain ⟨r, hread, rfl⟩ := replayRecord_eq_ok.mp hrecord
            have hpos : 0 < rest.length := List.length_pos_iff.mpr hnil
            obtain ⟨front, back, rs, hrest, hframes, hcases⟩ := ih (by rw [List.length_drop]; omega) h
            have hsize : (rest.take (8 + leNat (rest.take 4))).length = 8 + leNat (rest.take 4) := by
              rw [isTear, not_or] at htear
              rw [List.length_take]
              omega
            refine ⟨rest.take (8 + leNat (rest.take 4)) ++ front, back, r :: rs, ?_, .cons hread hframes, ?_⟩
            · rw [List.append_assoc, ← hrest, List.take_append_drop]
            · rw [List.length_append, hsize, ← Nat.add_assoc, Recovered.pushAll_cons]
              exact hcases

/-- Replay reads every segment to its end, except that it may cut the tail of the last one off. -/
theorem reads_of_replaySegments {acc acc' : Recovered} (h : replaySegments compactedTo files acc = .ok acc') :
    ∃ files' segs, Reads files' segs ∧
      (files' = files ∧ acc' = acc.pushAll (recordsOf segs) ∨
        ∃ pre idx front back, files = pre ++ [(idx, front ++ back)] ∧ files' = pre ++ [(idx, front)] ∧
          acc' = (acc.pushAll (recordsOf segs)).cutAt idx front.length) := by
  induction files generalizing acc with
  | nil => exact ⟨[], [], .nil, .inl ⟨rfl, (Except.ok.inj h).symm⟩⟩
  | cons file files ih =>
      rw [replaySegments] at h
      split at h
      · cases h
      · next acc₁ hsegment =>
          obtain ⟨front, back, rs, hraw, hframes, ⟨rfl, rfl⟩ | ⟨hlast, rfl⟩⟩ := frames_of_replaySegment le_rfl hsegment
          · rw [List.append_nil] at hraw
            obtain ⟨files', segs, hreads, hcases⟩ := ih h
            have hrec : (acc.pushAll rs).pushAll (recordsOf segs) = acc.pushAll (recordsOf ((file.1, rs) :: segs)) :=
              (acc.pushAll_append rs (recordsOf segs)).symm
            refine ⟨file :: files', (file.1, rs) :: segs, .cons ⟨rfl, hraw ▸ hframes⟩ hreads, ?_⟩
            rw [← hrec]
            rcases hcases with ⟨rfl, hacc⟩ | ⟨pre, idx, front', back', rfl, rfl, hacc⟩
            · exact .inl ⟨rfl, hacc⟩
            · exact .inr ⟨file :: pre, idx, front', back', rfl, rfl, hacc⟩
          · obtain rfl : files = [] := List.isEmpty_iff.mp hlast
            obtain rfl := Except.ok.inj h
            refine ⟨[(file.1, front)], [(file.1, rs)], .cons ⟨rfl, hframes⟩ .nil, .inr ?_⟩
            have hrec : recordsOf [(file.1, rs)] = rs := by simp [recordsOf]
            refine ⟨[], file.1, front, back, ?_, rfl, ?_⟩
            · rw [← hraw]
              rfl
            · rw [hrec, Nat.zero_add]

theorem Reads.keys_eq (h : Reads files segs) : files.map Prod.fst = segs.map Prod.fst := by
  induction h with
  | nil => rfl
  | cons hfile _ ih => rw [List.map_cons, List.map_cons, hfile.1, ih]

/-- The file of a segment. -/
theorem Reads.split {pre post : List (Nat × List Record)} {n : Nat} {rs : List Record}
    (h : Reads files (pre ++ (n, rs) :: post)) : ∃ before raw after, files = before ++ (n, raw) :: after ∧
      Reads before pre ∧ Frames raw rs ∧ Reads after post := by
  induction pre generalizing files with
  | nil =>
      cases h with
      | @cons file _ after _ hfile hafter =>
          obtain ⟨m, raw⟩ := file
          obtain rfl : m = n := hfile.1
          exact ⟨[], raw, after, rfl, .nil, hfile.2, hafter⟩
  | cons seg pre ih =>
      cases h with
      | cons hfile hrest =>
          obtain ⟨before, raw, after, rfl, hbefore, hraw, hafter⟩ := ih hrest
          exact ⟨_ :: before, raw, after, rfl, .cons hfile hbefore, hraw, hafter⟩

theorem Reads.append {segs' : List (Nat × List Record)} (h : Reads files segs) (h' : Reads files' segs') :
    Reads (files ++ files') (segs ++ segs') := by
  induction h with
  | nil => exact h'
  | cons hfile _ ih => exact .cons hfile ih

/-- **What is left after replay** reads as the records replayed. -/
theorem reads_of_recoverWal {dir : Dir} {recovered : Recovered} (h : recoverWal dir compactedTo = .ok recovered) :
    ∃ log : Log, Reads (FsStep.runAll dir recovered.steps).segments.toList log.toList ∧
      recovered.entries = log.entries ∧ recovered.hardState = hardStateOf log.records := by
  obtain ⟨files', segs, hreads, hcases⟩ := reads_of_replaySegments h
  rw [Recovered.init_pushAll] at hcases
  have hasc : (segs.map Prod.fst).Pairwise (· < ·) := by
    rw [← hreads.keys_eq]
    rcases hcases with ⟨rfl, -⟩ | ⟨pre, idx, front, back, hfiles, rfl, -⟩
    · exact dir.segments.ascending
    · have hkeys := dir.segments.ascending
      rw [hfiles, List.map_append] at hkeys
      rw [List.map_append]
      exact hkeys
  refine ⟨⟨segs, hasc⟩, ?_⟩
  rcases hcases with ⟨rfl, rfl⟩ | ⟨pre, idx, front, back, hfiles, rfl, rfl⟩
  · exact ⟨hreads, rfl, rfl⟩
  · refine ⟨?_, rfl, rfl⟩
    show Reads (dir.segments.modify idx (·.take front.length)).toList segs
    rw [Assoc.toList_modify_of_eq _ hfiles, List.take_left]
    exact hreads

/-! ## The segments of an open store -/

/-- The segments of the store read as `log`, and the active one is the last. -/
structure Holds (s : WalStorage) (log : Log) : Prop where
  reads : Reads s.dir.segments.toList log.toList
  active_last : ∃ pre xs, log.toList = pre ++ [(s.segmentFirstIndex, xs)]

namespace Holds

variable {s s' : WalStorage} {log : Log}

theorem keys_eq (h : Holds s log) : s.dir.segments.keys = log.keys := h.reads.keys_eq

/-- Writing a record to the active segment. -/
theorem write (h : Holds s log) {r : Record} (hr : r.Fits)
    (hsegments : s'.dir.segments = s.dir.segments.modify s.segmentFirstIndex (· ++ r.encode))
    (hactive : s'.segmentFirstIndex = s.segmentFirstIndex) :
    ∃ log' : Log, Holds s' log' ∧ log'.records = log.records ++ [r] ∧ log'.keys = log.keys := by
  obtain ⟨pre, xs, hlog⟩ := h.active_last
  have hreads := h.reads
  rw [hlog] at hreads
  obtain ⟨before, raw, after, hfiles, hbefore, hraw, hafter⟩ := hreads.split
  cases hafter
  have hlog' := Assoc.toList_modify_of_eq (· ++ [r]) hlog
  refine ⟨log.modify s.segmentFirstIndex (· ++ [r]), ⟨?_, pre, xs ++ [r], ?_⟩, ?_, Assoc.keys_modify _ _ _⟩
  · rw [hsegments, Assoc.toList_modify_of_eq _ hfiles, hlog']
    exact hbefore.append (.cons ⟨rfl, hraw.append (.single (readRecord?_encode hr))⟩ .nil)
  · rw [hlog', hactive]
  · rw [Log.records, Log.records, hlog', hlog]
    simp [recordsOf]

/-- **Cutting the segments** just past some records of one of them. -/
theorem cut (h : Holds s log) {pre post : List (Nat × List Record)} {n : Nat} {xs ys : List Record}
    (hlog : log.toList = pre ++ (n, xs ++ ys) :: post) :
    ∃ before front back after, s.dir.segments.toList = before ++ (n, front ++ back) :: after ∧ Reads before pre ∧
      Frames front xs ∧ ∃ log' : Log, log'.toList = pre ++ [(n, xs)] ∧
        Reads ((s.dir.segments.modify n (·.take front.length)).eraseAll (s.dir.segments.keys.filter (n < ·))).toList
          log'.toList := by
  have hreads := h.reads
  rw [hlog] at hreads
  obtain ⟨before, raw, after, hfiles, hbefore, hraw, -⟩ := hreads.split
  obtain ⟨front, back, rfl, hfront, -⟩ := hraw.split
  refine ⟨before, front, back, after, hfiles, hbefore, hfront, ?_⟩
  have hmodified : (s.dir.segments.modify n (·.take front.length)).toList = before ++ (n, front) :: after := by
    rw [Assoc.toList_modify_of_eq _ hfiles, List.take_left]
  have hmodified' : (log.modify n fun _ => xs).toList = pre ++ (n, xs) :: post := Assoc.toList_modify_of_eq _ hlog
  have hfiles' := Assoc.toList_eraseAll_gt hmodified
  have hlog' := Assoc.toList_eraseAll_gt hmodified'
  rw [Assoc.keys_modify] at hfiles'
  refine ⟨_, hlog', ?_⟩
  rw [hlog', hfiles']
  exact hbefore.append (.cons ⟨rfl, hfront⟩ .nil)

theorem segmentFirstIndex_mem (h : Holds s log) : s.segmentFirstIndex ∈ log.keys := by
  obtain ⟨pre, xs, hlog⟩ := h.active_last
  rw [Assoc.keys, hlog]
  simp

/-- A rollover to a name that no segment is above. -/
theorem maybeRollover (h : Holds s log) {n : Nat} (hn : ∀ k ∈ log.keys, k ≤ n) :
    ∃ log' : Log, Holds (s.maybeRollover n) log' ∧ log'.records = log.records ∧ ∀ k ∈ log'.keys, k ≤ n := by
  rcases s.maybeRollover_eq n with heq | ⟨_, _, _, heq⟩
  · exact ⟨log, by rw [heq]; exact h, rfl, hn⟩
  · by_cases hmem : n ∈ log.keys
    · -- the active segment has that name, and stays
      have hactive : n = s.segmentFirstIndex := by
        obtain ⟨pre, xs, hlog⟩ := h.active_last
        exact Nat.le_antisymm (Assoc.le_of_mem_keys hlog hmem) (hn _ h.segmentFirstIndex_mem)
      refine ⟨log, ⟨?_, ?_⟩, rfl, hn⟩
      · rw [heq]
        dsimp only
        rw [Assoc.insertNew_of_mem _ (h.keys_eq ▸ hmem)]
        exact h.reads
      · rw [heq]
        exact hactive ▸ h.active_last
    · have hlt : ∀ k ∈ log.keys, k < n := fun k hk => Nat.lt_of_le_of_ne (hn k hk) fun heq => hmem (heq ▸ hk)
      have hlog' : (log.insertNew n []).toList = log.toList ++ [(n, [])] := Assoc.toList_insertNew_of_lt _ hlt
      refine ⟨log.insertNew n [], ⟨?_, log.toList, [], ?_⟩, ?_, ?_⟩
      · rw [heq, hlog']
        dsimp only
        rw [Assoc.toList_insertNew_of_lt _ (h.keys_eq ▸ hlt)]
        exact h.reads.append (.cons ⟨rfl, .nil⟩ .nil)
      · rw [heq, hlog']
      · rw [Log.records, hlog']
        simp [recordsOf, Log.records]
      · intro k hk
        rw [Assoc.keys, hlog', List.map_append, List.mem_append] at hk
        rcases hk with hk | hk
        · exact hn k hk
        · exact (List.mem_singleton.mp hk).le

/-- **Appending an entry**, with no segment named above it. -/
theorem appendEntry (h : Holds s log) {e : LogEntry} (hok : s.appendEntry e = .ok s')
    (hnames : ∀ k ∈ log.keys, k ≤ s.lastIndex + 1) :
    ∃ log' : Log, Holds s' log' ∧ log'.records = log.records ++ [.entry e] ∧ ∀ k ∈ log'.keys, k ≤ s'.lastIndex + 1 := by
  obtain ⟨hentries, -⟩ := entries_of_appendEntry hok
  have hlast := lastIndex_of_entries_append hentries
  obtain ⟨hidx, hfits, hs'⟩ := appendEntry_eq_ok.mp hok
  obtain ⟨log₁, h₁, hrecords₁, hnames₁⟩ := h.maybeRollover (n := e.index.toNat) (hidx ▸ hnames)
  have hwrite : ∃ log' : Log, Holds s' log' ∧ log'.records = log₁.records ++ [.entry e] ∧ log'.keys = log₁.keys :=
    h₁.write hfits (by rw [hs']; rfl) (by rw [hs']; rfl)
  obtain ⟨log₂, h₂, hrecords₂, hkeys⟩ := hwrite
  refine ⟨log₂, h₂, by rw [hrecords₂, hrecords₁], fun k hk => ?_⟩
  rw [hlast]
  exact (hnames₁ k (hkeys ▸ hk)).trans (Nat.le_succ _)

theorem appendAll (h : Holds s log) {es : List LogEntry} (hok : es.foldlM WalStorage.appendEntry s = .ok s')
    (hnames : ∀ k ∈ log.keys, k ≤ s.lastIndex + 1) :
    ∃ log' : Log, Holds s' log' ∧ log'.records = log.records ++ es.map .entry := by
  induction hok using Transition.foldlM_induction generalizing log with
  | nil => exact ⟨log, h, by simp⟩
  | cons ht _ ih =>
      obtain ⟨log₁, h₁, hrecords₁, hnames₁⟩ := h.appendEntry ht hnames
      obtain ⟨log', h', hrecords'⟩ := ih h₁ hnames₁
      exact ⟨log', h', by rw [hrecords', hrecords₁, List.append_assoc, List.map_cons]; rfl⟩

end Holds

/-! ## Opening -/

variable {dir : Dir} {opts : WalOptions} {m : Meta} {s : WalStorage} {log : Log}

theorem recoverMeta_of_some (hmeta : dir.metaFile = some m) (hcluster : m.clusterId = opts.clusterId)
    (hnode : m.nodeId = opts.nodeId) (hversion : m.formatVersion = formatVersion) :
    recoverMeta dir opts = ([], .ok m) := by
  simp [recoverMeta, hmeta, hcluster, hnode, hversion]

/-- **When a directory with a META opens**, and as what. -/
theorem openDir_eq_ok (hmeta : dir.metaFile = some m) :
    (openDir dir opts).2 = .ok s ↔
      (m.clusterId = opts.clusterId ∧ m.nodeId = opts.nodeId ∧ m.formatVersion = formatVersion) ∧
      ∃ recovered entries, recoverWal dir (watermark (loadSnapshot dir m.snapshotIndex)) = .ok recovered ∧
        checkRecovered m (loadSnapshot dir m.snapshotIndex) (watermark (loadSnapshot dir m.snapshotIndex)) recovered =
          .ok entries ∧
        s = assemble opts (FsStep.runAll dir recovered.steps) recovered.steps m (loadSnapshot dir m.snapshotIndex)
          recovered entries := by
  rw [openDir, recoverMeta, hmeta]
  dsimp only
  split_ifs with hcluster hnode hversion
  · exact ⟨fun h => (by cases h), fun h => absurd h.1.1 hcluster⟩
  · exact ⟨fun h => (by cases h), fun h => absurd h.1.2.1 hnode⟩
  · exact ⟨fun h => (by cases h), fun h => absurd h.1.2.2 hversion⟩
  · simp only [FsStep.runAll_nil, List.nil_append, not_not.mp hcluster, not_not.mp hnode, not_not.mp hversion, and_self,
      true_and]
    constructor
    · intro h
      split at h
      · cases h
      · next recovered hwal =>
          split at h
          · cases h
          · next entries hcheck => exact ⟨recovered, entries, hwal, hcheck, (Except.ok.inj h).symm⟩
    · rintro ⟨recovered, entries, hwal, hcheck, rfl⟩
      rw [hwal]
      dsimp only
      rw [hcheck]

/-- An opened store and the log its segments read as. -/
structure Replayed (s : WalStorage) (log : Log) : Prop extends Holds s log where
  hardState_eq : s.hardState = hardStateOf log.records
  entries_eq : s.entries = log.entries.filter (s.compactedTo < ·.index.toNat)
  joins : Joins log.entries s.compactedTo
  named : s.metaRecord.snapshotIndex ≠ 0 → s.snapshot = none → ∀ e ∈ log.entries.head?, e.index.toNat = 1
  commit_le : s.hardState.commit.toNat ≤ s.lastIndex

/-- The active segment of an opened directory is the last one, or a first one that was missing. -/
theorem holds_assemble (hreads : Reads dir.segments.toList log.toList) (steps : List FsStep) (snapshot : Option Snapshot)
    (recovered : Recovered) (entries : List LogEntry) :
    ∃ log' : Log, Holds (assemble opts dir steps m snapshot recovered entries) log' ∧ log'.records = log.records := by
  have hkeys : dir.listSegmentIndices = log.keys := hreads.keys_eq
  rcases List.eq_nil_or_concat log.toList with hnil | ⟨pre, ⟨n, xs⟩, hlog⟩
  · have hnone : dir.segments.toList = [] := by
      rw [hnil] at hreads
      exact List.forall₂_nil_right_iff.mp hreads
    have hempty : dir.listSegmentIndices = [] := by rw [hkeys, Assoc.keys, hnil, List.map_nil]
    refine ⟨log.insertNew 1 [], ⟨?_, [], [], ?_⟩, ?_⟩
    · simp only [assemble, hempty, if_true]
      show Reads (Assoc.insertList 1 [] dir.segments.toList) (Assoc.insertList 1 [] log.toList)
      rw [hnone, hnil]
      exact .cons ⟨rfl, .nil⟩ .nil
    · simp only [assemble, hempty]
      show Assoc.insertList 1 [] log.toList = _
      rw [hnil]
      rfl
    · rw [Log.records, Log.records, hnil]
      show recordsOf (Assoc.insertList 1 [] log.toList) = _
      rw [hnil]
      rfl
  · rw [List.concat_eq_append] at hlog
    have hne : dir.listSegmentIndices ≠ [] := by rw [hkeys, Assoc.keys, hlog]; simp
    refine ⟨log, ⟨?_, pre, xs, ?_⟩, rfl⟩
    · rw [assemble_dir hne]
      exact hreads
    · show log.toList = pre ++ [(dir.listSegmentIndices.getLast?.getD 1, xs)]
      rw [hkeys, Assoc.keys, hlog]
      simp

theorem replayed_of_openDir (hmeta : dir.metaFile = some m) (h : (openDir dir opts).2 = .ok s) :
    ∃ log, Replayed s log := by
  obtain ⟨-, recovered, entries, hwal, hcheck, rfl⟩ := (openDir_eq_ok hmeta).mp h
  obtain ⟨log, hreads, hentries, hhs⟩ := reads_of_recoverWal hwal
  obtain ⟨log', hholds, hrecords⟩ := @holds_assemble _ opts m _ hreads recovered.steps
    (loadSnapshot dir m.snapshotIndex) recovered entries
  obtain ⟨hnamed, hjoins, hcommit, hfilter⟩ := checkRecovered_eq_ok.mp hcheck
  have hentries' : recovered.entries = log'.entries := by rw [hentries, Log.entries, Log.entries, hrecords]
  rw [hentries'] at hnamed hjoins hfilter
  exact ⟨log', hholds, hhs.trans (congrArg hardStateOf hrecords.symm), hfilter, hjoins, hnamed, hcommit⟩

/-- **Opening what reads as a log** leaves the directory alone. -/
theorem Legible.replayed (h : Legible opts dir m log) (hne : log.toList ≠ []) {mark : Nat}
    (hmark : watermark (loadSnapshot dir m.snapshotIndex) = mark)
    (hnamed : m.snapshotIndex ≠ 0 → loadSnapshot dir m.snapshotIndex = none → ∀ e ∈ log.entries.head?, e.index.toNat = 1)
    (hjoins : Joins log.entries mark)
    (hcommit : (hardStateOf log.records).commit.toNat ≤
      (lastEntryIndex? (log.entries.filter (mark < ·.index.toNat))).getD mark) :
    ∃ t, (openDir dir opts).2 = .ok t ∧ t.dir = dir ∧ t.metaRecord = m ∧ t.snapshot = loadSnapshot dir m.snapshotIndex ∧
      t.compactedTo = mark ∧ Replayed t log := by
  have hkeys : dir.listSegmentIndices = log.keys := h.reads.keys_eq
  have hkeysne : dir.listSegmentIndices ≠ [] := by rw [hkeys, Assoc.keys]; simpa using hne
  have hdir := @assemble_dir opts dir hkeysne [] m (loadSnapshot dir m.snapshotIndex)
    ⟨log.entries, hardStateOf log.records, 0, []⟩ (log.entries.filter (mark < ·.index.toNat))
  refine ⟨_, (h.openDir_eq_ok hmark).mpr ⟨hnamed, hjoins, hcommit, rfl⟩, hdir, rfl, rfl, hmark, ⟨⟨?_, ?_⟩, rfl, ?_, ?_,
    hnamed, ?_⟩⟩
  · rw [opened, hdir]
    exact h.reads
  · obtain hnil | ⟨pre, ⟨n, xs⟩, hlog⟩ := List.eq_nil_or_concat log.toList
    · exact absurd hnil hne
    · rw [List.concat_eq_append] at hlog
      refine ⟨pre, xs, ?_⟩
      show log.toList = pre ++ [(dir.listSegmentIndices.getLast?.getD 1, xs)]
      rw [hkeys, Assoc.keys, hlog]
      simp
  · show _ = log.entries.filter (watermark (loadSnapshot dir m.snapshotIndex) < ·.index.toNat)
    rw [hmark]
    rfl
  · show Joins log.entries (watermark (loadSnapshot dir m.snapshotIndex))
    rw [hmark]
    exact hjoins
  · show (hardStateOf log.records).commit.toNat ≤ (lastEntryIndex? (log.entries.filter (mark < ·.index.toNat))).getD
      (watermark (loadSnapshot dir m.snapshotIndex))
    rw [hmark]
    exact hcommit

end Arachne.Storage
