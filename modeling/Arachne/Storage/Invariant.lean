import Mathlib.Data.List.TakeWhile
import Arachne.Storage.Effects

/-! # The invariant of an open store

`Inv opts s log base` says what every reachable store `s` keeps true: its segment files hold the records of
`log` and the last one is active (`Stored`), the in-memory log is the part of `log` above `base`
(`Indexed`), META is the store's and the newest snapshot file is the one it points at (`Snapped`). The first
two are the store's own business with its log (`Tracks`), and writing records only needs them.

One lemma per operation says what the operation does to `log`, and `WalRun.inv` concludes that every run
keeps the invariant. -/

namespace Arachne.Storage

open WalStorage

/-- The store's segments and its in-memory log are those of `log`, above `base`. -/
structure Tracks (s : WalStorage) (log : Log) (base : Nat) : Prop where
  stored : Stored s.dir.segments s.segmentFirstIndex log
  indexed : Indexed log s.entries s.compactedTo base

/-- The invariant of an open store. -/
structure Inv (opts : WalOptions) (s : WalStorage) (log : Log) (base : Nat) : Prop
    extends Tracks s log base where
  snapped : Snapped opts s.dir.metaFile s.dir.snapshots s.metaRecord s.snapshot
  base_le : base ≤ watermark s.snapshot

variable {opts : WalOptions} {s s' : WalStorage} {log : Log} {base : Nat}

namespace Tracks

theorem lastIndex_eq (h : Tracks s log base) : s.lastIndex = base + s.entries.length :=
  h.indexed.lastIndex_eq

theorem log_eq (h : Tracks s log base) : s.dir.log = log :=
  Dir.log_eq h.stored.segments_eq h.stored.fits

theorem toList_ne_nil (h : Tracks s log base) : log.toList ≠ [] := by
  obtain ⟨pre, xs, hlog⟩ := h.stored.active_last
  rw [hlog]
  simp

/-! ## Writing records -/

/-- Writing an entry, to the active segment or to a new one. -/
theorem appendEntry (h : Tracks s log base) {e : LogEntry} (hok : s.appendEntry e = .ok s') :
    ∃ log' : Log, Tracks s' log' base ∧ log'.records = log.records ++ [.entry e] := by
  obtain ⟨hidx, hfits, rfl⟩ := appendEntry_eq_ok.mp hok
  have hlast := h.lastIndex_eq
  have hnext : e.index.toNat = base + s.entries.length + 1 := by omega
  rcases s.maybeRollover_eq e.index.toNat with hroll | ⟨_, _, _, hroll⟩
  · rw [hroll]
    obtain ⟨log', pre, xs, hlog, hlog', hrec, hstored⟩ := h.stored.write (r := .entry e) hfits
    exact ⟨log', ⟨hstored, h.indexed.writeEntry hlog hlog' hnext⟩, hrec⟩
  · rw [hroll]
    have hle : ∀ k ∈ log.keys, k ≤ e.index.toNat := hnext ▸ h.indexed.keys_le
    by_cases hmem : e.index.toNat ∈ log.keys
    · -- a full segment without entries already has the entry's name
      have hactive := h.stored.active_of_le hmem hle
      obtain ⟨log', pre, xs, hlog, hlog', hrec, hstored⟩ := h.stored.write (r := .entry e) hfits
      refine ⟨log', ⟨?_, h.indexed.writeEntry hlog hlog' hnext⟩, hrec⟩
      show Stored ((s.dir.segments.insertNew e.index.toNat []).modify e.index.toNat
        (· ++ (Record.entry e).encode)) e.index.toNat log'
      rw [Assoc.insertNew_of_mem _ (h.stored.keys_eq ▸ hmem), hactive]
      exact hstored
    · have hlt : ∀ k ∈ log.keys, k < e.index.toNat := fun k hk =>
        Nat.lt_of_le_of_ne (hle k hk) fun heq => hmem (heq ▸ hk)
      obtain ⟨log₁, hlog₁, hstored₁⟩ := h.stored.create hlt
      obtain ⟨log', pre, xs, hlog, hlog', -, hstored⟩ := hstored₁.write (r := .entry e) hfits
      rw [hlog₁] at hlog
      obtain ⟨rfl, hxs⟩ := List.append_inj' hlog rfl
      obtain rfl : [] = xs := by simpa using hxs
      refine ⟨log', ⟨hstored, h.indexed.roll hnext hlog'⟩, ?_⟩
      simp [Log.records, hlog', recordsOf_append]

theorem appendAll (h : Tracks s log base) {es : List LogEntry}
    (hok : es.foldlM WalStorage.appendEntry s = .ok s') :
    ∃ log' : Log, Tracks s' log' base ∧ log'.records = log.records ++ es.map .entry := by
  induction hok using Transition.foldlM_induction generalizing log with
  | nil => exact ⟨log, h, by simp⟩
  | cons ht _ ih =>
      obtain ⟨log₁, h₁, hrec₁⟩ := h.appendEntry ht
      obtain ⟨log', h', hrec'⟩ := ih h₁
      exact ⟨log', h', by rw [hrec', hrec₁, List.append_assoc]; rfl⟩

theorem setHardState (h : Tracks s log base) (hs : HardState) : ∃ log' : Log,
    Tracks (s.setHardState hs) log' base ∧ log'.records = log.records ++ [.hardState hs] := by
  obtain ⟨log', pre, xs, hlog, hlog', hrec, hstored⟩ := h.stored.write (r := .hardState hs) trivial
  exact ⟨log', ⟨hstored, h.indexed.writeHardState hlog hlog'⟩, hrec⟩

end Tracks

namespace Inv

/-- Operations that leave META and the snapshots alone only need to keep track of the log. -/
theorem of_sameMarks (h : Inv opts s log base) (hmarks : SameMarks s s') {log' : Log}
    (ht : Tracks s' log' base) : Inv opts s' log' base := by
  refine ⟨ht, ?_, ?_⟩
  · rw [hmarks.metaFile_eq, hmarks.snapshots_eq, hmarks.metaRecord_eq, hmarks.snapshot_eq]
    exact h.snapped
  · rw [hmarks.snapshot_eq]
    exact h.base_le

/-! ## Appending -/

theorem appendAll (h : Inv opts s log base) {es : List LogEntry}
    (hok : es.foldlM WalStorage.appendEntry s = .ok s') :
    ∃ log' : Log, Inv opts s' log' base ∧ log'.records = log.records ++ es.map .entry := by
  obtain ⟨log', ht, hrec⟩ := h.toTracks.appendAll hok
  exact ⟨log', h.of_sameMarks (entries_of_appendAll hok).2 ht, hrec⟩

/-- An entry of the log, with its place. -/
theorem exists_place {e : LogEntry} (he : e ∈ log.entries) :
    ∃ pre n xs ys post, log.toList = pre ++ (n, xs ++ .entry e :: ys) :: post := by
  obtain ⟨⟨n, rs⟩, hx, he⟩ := mem_entriesOf_recordsOf.mp he
  obtain ⟨pre, post, hlog⟩ := List.append_of_mem hx
  obtain ⟨r, hr, hre⟩ := List.mem_filterMap.mp he
  have hr' : r = .entry e := by
    cases r with
    | entry e' => simpa [Record.entry?] using hre
    | hardState hs => simp [Record.entry?] at hre
  subst hr'
  obtain ⟨xs, ys, rfl⟩ := List.append_of_mem hr
  exact ⟨pre, n, xs, ys, post, hlog⟩

/-- Where `truncate_log_to` cuts: the scan finds the record of an entry that is there. -/
theorem findHolding_eq (h : Inv opts s log base) {pre post : List (Nat × List Record)} {n : Nat}
    {xs ys : List Record} {e : LogEntry} (hlog : log.toList = pre ++ (n, xs ++ .entry e :: ys) :: post) :
    findHolding e.index.toNat s.dir.segments.toList = some (n, (image (xs ++ [.entry e])).length) := by
  have hsorted := h.indexed.laid.sorted
  have hrec : entriesOf (recordsOf log.toList) = entriesOf (recordsOf pre ++ xs) ++
      (e :: (entriesOf ys ++ entriesOf (recordsOf post))) := by
    simp [hlog, recordsOf_append]
  rw [hrec, List.pairwise_append] at hsorted
  rw [h.stored.segments_eq, Log.bytes, Assoc.toList_map, hlog]
  refine findHolding_cut ?_ fun e' he' => ?_
  · rw [← hlog]
    exact h.stored.fits
  · exact Nat.ne_of_lt (hsorted.2.2 e' he' e List.mem_cons_self)

theorem findHolding_eq_none (h : Inv opts s log base) {keep : Nat}
    (hkeep : ∀ e ∈ log.entries, e.index.toNat ≠ keep) :
    findHolding keep s.dir.segments.toList = none := by
  have hskip := findHolding_skip (reads_image h.stored.fits) hkeep []
  rw [List.append_nil] at hskip
  rw [h.stored.segments_eq, Log.bytes, Assoc.toList_map, hskip]
  rfl

end Inv

/-- The records after the first record of entry `keep`; all of them if there is none. -/
def recordsAfter (keep : Nat) (rs : List Record) : List Record :=
  match rs.dropWhile fun r => ¬ r.entry?.any (·.index.toNat = keep) with
  | [] => rs
  | _ :: post => post

theorem recordsAfter_of_mem {xs ys : List Record} {e : LogEntry}
    (h : ∀ e' ∈ entriesOf xs, e'.index.toNat ≠ e.index.toNat) :
    recordsAfter e.index.toNat (xs ++ .entry e :: ys) = ys := by
  have hdrop : (xs ++ .entry e :: ys).dropWhile (fun r => ¬ r.entry?.any (·.index.toNat = e.index.toNat)) =
      .entry e :: ys := by
    rw [List.dropWhile_append_of_pos]
    · simp [Record.entry?]
    · intro r hr
      cases r with
      | entry e' => simpa [Record.entry?] using h e' (List.mem_filterMap.mpr ⟨_, hr, rfl⟩)
      | hardState hs => simp [Record.entry?]
  rw [recordsAfter, hdrop]

theorem recordsAfter_of_notMem {rs : List Record} {keep : Nat}
    (h : ∀ e ∈ entriesOf rs, e.index.toNat ≠ keep) : recordsAfter keep rs = rs := by
  have hdrop : rs.dropWhile (fun r => ¬ r.entry?.any (·.index.toNat = keep)) = [] := by
    rw [List.dropWhile_eq_nil_iff]
    intro r hr
    cases r with
    | entry e => simpa [Record.entry?] using h e (List.mem_filterMap.mpr ⟨_, hr, rfl⟩)
    | hardState hs => simp [Record.entry?]
  rw [recordsAfter, hdrop]

namespace Inv

/-- After an overwriting append's cut, the log can only be continued at the cut if nothing lies below
the base: otherwise positions in memory are not log indices. -/
theorem base_eq_zero (h : Inv opts s log base) {first : LogEntry} {t : WalStorage}
    (hle : first.index.toNat ≤ s.lastIndex) (hok : s.overwriteSuffix first = .ok t)
    (hnext : first.index.toNat = t.lastIndex + 1) :
    base = 0 ∧ first.index.toNat - 1 < (lastEntryIndex? s.entries).getD 0 := by
  obtain ⟨hmark, -, rfl⟩ := (overwriteSuffix_eq_ok hle).mp hok
  have hlast := h.lastIndex_eq
  have hcons := h.indexed.consecutive
  have hne : s.entries ≠ [] := by
    intro hnil
    have := h.indexed.base_of_nil hnil
    rw [hnil, List.length_nil] at hlast
    omega
  have hpos : 0 < s.entries.length := List.length_pos_iff.mpr hne
  have hlt : first.index.toNat - 1 < (lastEntryIndex? s.entries).getD 0 := by
    rw [hcons.lastEntryIndex?, if_neg hne, Option.getD_some]
    omega
  refine ⟨?_, hlt⟩
  obtain ⟨hent, hmarks⟩ := entries_truncateLogTo hlt
  -- where the cut leaves the in-memory log
  rw [lastIndex, hent, hmarks.compactedTo_eq, (hcons.take _).lastEntryIndex?] at hnext
  split_ifs at hnext with hnil
  · have hzero : first.index.toNat - 1 = 0 := by
      rcases List.take_eq_nil_iff.mp hnil with h0 | h0
      · exact h0
      · exact absurd h0 hne
    refine h.indexed.base_of_zero ?_
    rw [Option.getD_none] at hnext
    omega
  · rw [Option.getD_some, List.length_take] at hnext
    omega

/-- What lies behind an entry, found by its place. -/
theorem recordsAfter_eq (h : Inv opts s log base) {pre post : List (Nat × List Record)} {n : Nat} {xs ys : List Record}
    {e : LogEntry} (hlog : log.toList = pre ++ (n, xs ++ .entry e :: ys) :: post) :
    recordsAfter e.index.toNat log.records = ys ++ recordsOf post := by
  have hrec : log.records = (recordsOf pre ++ xs) ++ .entry e :: (ys ++ recordsOf post) := by
    simp [Log.records, hlog, recordsOf_append]
  have hsorted := h.indexed.laid.sorted
  rw [show entriesOf (recordsOf log.toList) = entriesOf (recordsOf pre ++ xs) ++
    e :: entriesOf (ys ++ recordsOf post) by rw [← Log.records, hrec]; simp, List.pairwise_append] at hsorted
  rw [hrec, recordsAfter_of_mem fun e' he' => Nat.ne_of_lt (hsorted.2.2 e' he' e List.mem_cons_self)]

/-- **An overwriting append's cut**, when the log can be continued there: the records up to entry
`first - 1` stay, those after it go. -/
theorem overwriteSuffix (h : Inv opts s log base) {first : LogEntry} {t : WalStorage}
    (hle : first.index.toNat ≤ s.lastIndex) (hok : s.overwriteSuffix first = .ok t)
    (hnext : first.index.toNat = t.lastIndex + 1) :
    base = 0 ∧ t.entries = s.entries.take (first.index.toNat - 1) ∧ SameMarks s t ∧
      ∃ log' : Log, Inv opts t log' 0 ∧
        log.records = log'.records ++ recordsAfter (first.index.toNat - 1) log.records := by
  obtain ⟨rfl, hlt⟩ := h.base_eq_zero hle hok hnext
  obtain ⟨-, -, rfl⟩ := (overwriteSuffix_eq_ok hle).mp hok
  obtain ⟨hent, hmarks⟩ := entries_truncateLogTo hlt
  refine ⟨rfl, hent, hmarks, ?_⟩
  have hlast := h.lastIndex_eq
  have hmem := h.indexed.entries_eq_of_base_zero
  have hcons := h.indexed.consecutive
  by_cases hzero : first.index.toNat - 1 = 0
  · -- no entry has index 0: the whole log goes
    have hkeep : ∀ e ∈ log.entries, e.index.toNat ≠ 0 := fun e he =>
      Nat.ne_of_gt (h.indexed.pos_of_mem he)
    rw [hzero] at hlt ⊢
    obtain ⟨_, ht⟩ := truncateLogTo_of_none hlt (h.findHolding_eq_none hkeep)
    rw [ht]
    obtain ⟨log', hlog', hstored⟩ := Stored.restart s.dir.segments 1
    have hrestart : Indexed log' [] 0 0 := Indexed.restart hlog' le_rfl le_rfl
    have hmark : s.compactedTo = 0 := Nat.le_zero.mp h.indexed.watermark_le
    refine ⟨log', ⟨⟨hstored, ?_⟩, h.snapped, h.base_le⟩, ?_⟩
    · rw [List.take_zero, hmark]
      exact hrestart
    · rw [recordsAfter_of_notMem hkeep]
      simp [Log.records, hlog']
  · obtain ⟨e, he, hidx⟩ := hcons.exists_mem (i := first.index.toNat - 1) (by omega) (by omega)
    obtain ⟨pre, n, xs, ys, post, hlog⟩ := exists_place (hmem ▸ he)
    rw [← hidx] at hlt ⊢
    obtain ⟨_, ht⟩ := truncateLogTo_of_some hlt (h.findHolding_eq hlog)
    rw [ht]
    have hlog₁ : log.toList = pre ++ (n, (xs ++ [.entry e]) ++ ys) :: post := by simpa using hlog
    obtain ⟨log', hlog', hstored⟩ := h.stored.cut hlog₁
    refine ⟨log', ⟨⟨hstored, h.indexed.cut hlog hlog'⟩, h.snapped, h.base_le⟩, ?_⟩
    rw [h.recordsAfter_eq hlog]
    simp [Log.records, hlog, hlog', recordsOf_append]

/-- What `append` starts its loop from: the store as it is, or cut after entry `first - 1`. -/
inductive AppendStart (s : WalStorage) (log : Log) (es : List LogEntry) (t : WalStorage) (log₁ : Log) :
    Prop where
  | asIs (hgt : ∀ first ∈ es.head?, s.lastIndex < first.index.toNat) (ht : t = s) (hlog : log₁ = log)
  | cut (first : LogEntry) (hfirst : first ∈ es.head?) (hle : first.index.toNat ≤ s.lastIndex)
      (ht : t.entries = s.entries.take (first.index.toNat - 1)) (hmarks : SameMarks s t)
      (hlog : log.records = log₁.records ++ recordsAfter (first.index.toNat - 1) log.records)
      (hcut : t = (s.truncateLogTo (first.index.toNat - 1)).1)

/-- `append` is a cut if the first index is within the log, then the loop. The cut only happens with
nothing below the base. -/
theorem appendStart (h : Inv opts s log base) {es : List LogEntry} (hok : s.append es = .ok s') :
    ∃ t log₁, Inv opts t log₁ base ∧ es.foldlM WalStorage.appendEntry t = .ok s' ∧
      AppendStart s log es t log₁ ∧ ((∃ first ∈ es.head?, first.index.toNat ≤ s.lastIndex) → base = 0) := by
  cases es with
  | nil =>
      obtain rfl := Except.ok.inj hok
      exact ⟨s, log, h, rfl, .asIs (by simp) rfl rfl, by simp⟩
  | cons first es =>
      obtain ⟨t, ht, hloop⟩ := Transition.bind_eq_ok.mp hok
      by_cases hle : first.index.toNat ≤ s.lastIndex
      · have hnext : first.index.toNat = t.lastIndex + 1 :=
          (consecutive_cons.mp (appendAll_eq_ok.mp ⟨_, hloop⟩).1).1
        obtain ⟨rfl, hent, hmarks, log₁, h₁, hcut⟩ := h.overwriteSuffix hle ht hnext
        have htrunc := ((overwriteSuffix_eq_ok hle).mp ht).2.2
        exact ⟨t, log₁, h₁, hloop, .cut first rfl hle hent hmarks hcut htrunc, fun _ => rfl⟩
      · have hgt : s.lastIndex < first.index.toNat := Nat.not_le.mp hle
        rw [overwriteSuffix_of_gt hgt] at ht
        obtain rfl := Except.ok.inj ht
        refine ⟨s, log, h, hloop, .asIs ?_ rfl rfl, ?_⟩
        · intro f hf
          obtain rfl : first = f := by simpa using hf
          exact hgt
        · rintro ⟨f, hf, hf'⟩
          obtain rfl : first = f := by simpa using hf
          exact absurd hf' hle

theorem append (h : Inv opts s log base) {es : List LogEntry} (hok : s.append es = .ok s') :
    ∃ log', Inv opts s' log' base := by
  obtain ⟨t, log₁, h₁, hloop, -⟩ := h.appendStart hok
  obtain ⟨log', h', -⟩ := h₁.appendAll hloop
  exact ⟨log', h'⟩

/-! ## Hard state, membership, snapshots -/

theorem setHardState (h : Inv opts s log base) (hs : HardState) : ∃ log' : Log,
    Inv opts (s.setHardState hs) log' base ∧ log'.records = log.records ++ [.hardState hs] := by
  obtain ⟨log', ht, hrec⟩ := h.toTracks.setHardState hs
  have hmarks : SameMarks s (s.setHardState hs) := ⟨rfl, rfl, rfl, rfl, rfl⟩
  exact ⟨log', h.of_sameMarks hmarks ht, hrec⟩

theorem syncEntries (h : Inv opts s log base) : Inv opts s.syncEntries log base := by
  obtain ⟨_, _, _, hsync⟩ := s.syncEntries_eq
  rw [hsync]
  exact ⟨⟨h.stored, h.indexed⟩, h.snapped, h.base_le⟩

theorem saveConfState (h : Inv opts s log base) (index : UInt64) (confState : ConfState) :
    Inv opts (s.saveConfState index confState) log base :=
  ⟨⟨h.stored, h.indexed⟩, h.snapped, h.base_le⟩

theorem setTrailingKeepBytes (h : Inv opts s log base) (bytes : Nat) :
    Inv opts (s.setTrailingKeepBytes bytes) log base :=
  ⟨⟨h.stored, h.indexed⟩, h.snapped, h.base_le⟩

/-- A snapshot never moves backwards. -/
theorem saveSnapshot (h : Inv opts s log base) (snapshot : Snapshot) :
    Inv opts (s.saveSnapshot snapshot) log base ∧
      snapshot.metadata.index.toNat ≤ watermark (s.saveSnapshot snapshot).snapshot ∧
      watermark s.snapshot ≤ watermark (s.saveSnapshot snapshot).snapshot ∧
      (s.saveSnapshot snapshot).lastIndex = s.lastIndex := by
  by_cases hat : s.hasSnapshotAt snapshot.metadata.index
  · rw [WalStorage.saveSnapshot, if_pos hat]
    exact ⟨h, le_of_hasSnapshotAt hat, le_rfl, rfl⟩
  · have hle := (lt_of_not_hasSnapshotAt h.snapped.index_eq hat).1
    rw [UInt64.le_iff_toNat_le, h.snapped.index_eq] at hle
    obtain ⟨files, newestFirst, hrun, hsnapped⟩ := loads_saved h.snapped hat
      ((s.savedDir snapshot).snapshots.drop snapshotRetention) fun f hf => by
        rw [← List.drop_one]
        exact (List.drop_sublist_drop_left _ (by decide)).subset hf
    obtain ⟨_, _, hsave⟩ := s.saveSnapshot_eq snapshot
    have hdir : FsStep.runAll s.dir (s.saveSteps snapshot) =
        { s.savedDir snapshot with snapshots := files, newestFirst } := by
      rw [saveSteps, if_neg hat]
      exact hrun
    rw [hsave, hdir]
    simp only [if_neg hat]
    exact ⟨⟨⟨h.stored, h.indexed⟩, hsnapped, Nat.le_trans h.base_le hle⟩, le_rfl, hle, rfl⟩

/-- An installed snapshot replaces the log, unless it is already exactly where the store is. -/
theorem installSnapshot (h : Inv opts s log base) {snapshot : Snapshot}
    (hok : s.installSnapshot snapshot = .ok s') :
    (snapshot.metadata.index.toNat = s.compactedTo ∧ s.entries = [] ∧ s' = s) ∨
      ∃ log' : Log, Inv opts s' log' snapshot.metadata.index.toNat ∧ log'.records = [] := by
  rcases installSnapshot_eq_ok hok with hsame | ⟨-, rfl⟩
  · exact .inl hsame
  · obtain ⟨hinv, hmark, -⟩ := h.saveSnapshot snapshot
    obtain ⟨_, _, hsave⟩ := s.saveSnapshot_eq snapshot
    rw [hsave] at hinv hmark
    have hsegs := FsStep.segments_runAll (s.segments_saveSteps snapshot) s.dir
    obtain ⟨log', hlog', hstored⟩ := Stored.restart (FsStep.runAll s.dir (s.saveSteps snapshot)).segments
      (snapshot.metadata.index.toNat + 1)
    refine .inr ⟨log', ?_, by simp [Log.records, hlog']⟩
    rw [FsStep.runAll_append, runAll_replaceSteps s snapshot hsegs]
    exact ⟨⟨hstored, Indexed.restart hlog' (Nat.le_add_left 1 _) le_rfl⟩, hinv.snapped, hmark⟩

/-! ## Compaction -/

theorem indices_ascending (h : Inv opts s log base) : s.dir.listSegmentIndices.Pairwise (· < ·) := by
  rw [Dir.listSegmentIndices, h.stored.keys_eq]
  exact log.ascending

theorem getLast?_indices (h : Inv opts s log base) :
    s.dir.listSegmentIndices.getLast? = some s.segmentFirstIndex := by
  obtain ⟨pre, xs, hlog⟩ := h.stored.active_last
  rw [Dir.listSegmentIndices, h.stored.keys_eq, Assoc.keys, hlog, List.map_append]
  simp

/-- Unlinking the leading segments below a new watermark `mark`. -/
theorem dropCovered (h : Inv opts s log base) (mark : Nat) {limit : Nat} {pre post : List Nat}
    (hcov : Covered s.dir.listSegmentIndices limit pre post)
    (hmark : pre ≠ [] → ∀ n ∈ post.head?, n ≤ mark + 1) (hpos : 0 < mark)
    (hlast : mark ≤ s.lastIndex) (hne : s.entries ≠ []) (hsnap : mark ≤ watermark s.snapshot)
    (journal : List FsStep) :
    ∃ (log' : Log) (dropped : List (Nat × List Record)),
      Inv opts
        { s with
          dir := { s.dir with segments := s.dir.segments.eraseAll pre }
          journal
          entries := s.entries.filter (mark < ·.index.toNat), compactedTo := mark }
        log' (max base mark) ∧
      (lastEntryIndex? (s.entries.filter (mark < ·.index.toNat))).getD mark = s.lastIndex ∧
      log.toList = dropped ++ log'.toList ∧
      (dropped ≠ [] → ∀ n ∈ log'.keys.head?, n ≤ limit) := by
  have heq := hcov.eq
  rw [Dir.listSegmentIndices, h.stored.keys_eq, Assoc.keys] at heq
  obtain ⟨dropped, kept, hlog, rfl, rfl⟩ := List.map_eq_append_iff.mp heq
  have hkept : kept ≠ [] := by
    intro hnil
    exact hcov.ne_nil (by rw [hnil]; rfl)
  obtain ⟨log', hlog', hstored⟩ := h.stored.dropSegments hlog hkept
  have hlogs : log.toList = dropped ++ log'.toList := by rw [hlog', hlog]
  have hindexed : Indexed log' (s.entries.filter (mark < ·.index.toNat)) mark (max base mark) := by
    refine h.indexed.dropSegments hlogs ?_ hne hpos (h.lastIndex_eq ▸ hlast)
    intro e he
    obtain ⟨x, hx, he⟩ := mem_entriesOf_recordsOf.mp he
    -- the first kept segment is named above every entry of a dropped one
    obtain ⟨y, rest, rfl⟩ := List.exists_cons_of_ne_nil hkept
    have hlaid := h.indexed.laid.lt_next
    rw [hlog, List.pairwise_append] at hlaid
    have hlt := hlaid.2.2 x hx y (by simp) e he
    have hy := hmark (by simpa using List.ne_nil_of_mem hx) y.1 (by simp)
    omega
  refine ⟨log', dropped, ⟨⟨hstored, hindexed⟩, h.snapped, ?_⟩, ?_, hlogs, ?_⟩
  · have := h.base_le
    show max base mark ≤ watermark s.snapshot
    omega
  · have hlast' := h.lastIndex_eq
    have := h.indexed.consecutive.length_filter_gt (m := mark) (by omega)
    rw [hindexed.lastIndex_eq]
    omega
  · intro hd n hn
    refine hcov.head_le (by simpa using hd) n ?_
    rwa [Assoc.keys, hlog'] at hn

/-- A compaction that unlinks nothing and keeps the watermark changes nothing. -/
theorem filter_watermark (h : Inv opts s log base) :
    s.entries.filter (s.compactedTo < ·.index.toNat) = s.entries := by
  refine List.filter_eq_self.mpr fun e he => ?_
  have := (h.indexed.consecutive.index_bounds he).1
  have := h.indexed.watermark_le
  simp only [decide_eq_true_eq]
  omega

theorem keepWatermark (h : Inv opts s log base) (journal : List FsStep) :
    Inv opts
      { s with
        dir := { s.dir with segments := s.dir.segments.eraseAll [] }
        journal, entries := s.entries.filter (s.compactedTo < ·.index.toNat)
        compactedTo := s.compactedTo } log base := by
  rw [h.filter_watermark]
  exact ⟨⟨h.stored, h.indexed⟩, h.snapped, h.base_le⟩

/-- A segment that follows another is not named 1. -/
theorem two_le_of_covered (h : Inv opts s log base) {limit n : Nat} {pre post : List Nat}
    (hcov : Covered s.dir.listSegmentIndices limit pre post) (hpre : pre ≠ []) (hn : n ∈ post.head?) :
    2 ≤ n := by
  obtain ⟨k, pre', rfl⟩ := List.exists_cons_of_ne_nil hpre
  obtain ⟨rest, rfl⟩ : ∃ rest, post = n :: rest := List.head?_eq_some_iff.mp hn
  have hasc := h.indices_ascending
  rw [hcov.eq, List.cons_append, List.pairwise_cons] at hasc
  have hlt := hasc.1 n (by simp)
  have hmem : k ∈ s.dir.listSegmentIndices := by
    rw [hcov.eq]
    simp
  have hk := h.indexed.keys_pos k (by rw [← h.stored.keys_eq]; exact hmem)
  omega

/-- **Compaction** drops a leading run of segments, each with a successor named at most `compactTo + 1`. -/
theorem compact (h : Inv opts s log base) {compactTo : Nat} (hok : s.compact compactTo = .ok s') :
    ∃ (log' : Log) (base' : Nat) (dropped : List (Nat × List Record)),
      Inv opts s' log' base' ∧ s'.lastIndex = s.lastIndex ∧ s'.snapshot = s.snapshot ∧
      log.toList = dropped ++ log'.toList ∧
      (dropped ≠ [] → compactTo ≤ watermark s.snapshot ∧ ∀ n ∈ log'.keys.head?, n ≤ compactTo + 1) ∧
      base ≤ base' := by
  rcases compact_eq_ok hok with ⟨-, rfl⟩ | ⟨hmark, hlast, hsnap, hs'⟩
  · exact ⟨log, base, [], h, rfl, rfl, rfl, fun hd => absurd rfl hd, le_rfl⟩
  · have hne : s.entries ≠ [] := by
      intro hnil
      have hlast' := h.lastIndex_eq
      have := h.indexed.base_of_nil hnil
      rw [hnil, List.length_nil] at hlast'
      omega
    rcases hs' with ⟨-, rfl⟩ | ⟨-, rfl⟩
    · obtain ⟨pre, post, journal, hcov, heq⟩ :=
        compactWhole_eq h.indices_ascending h.getLast?_indices compactTo
      rw [heq]
      obtain ⟨log', dropped, hinv, hlast', hlog, hdrop⟩ :=
        h.dropCovered compactTo hcov hcov.head_le (by omega) hlast hne hsnap journal
      exact ⟨log', _, dropped, hinv, hlast', rfl, hlog, fun hd => ⟨hsnap, hdrop hd⟩, Nat.le_max_left _ _⟩
    · -- a trailing window may hold segments, and with them the watermark, back
      obtain ⟨pre, post, journal, mark, hcov, heq, hnil, hcons⟩ :=
        compactWindow_eq h.indices_ascending h.getLast?_indices compactTo
      rw [heq]
      by_cases hpre : pre = []
      · subst hpre
        rw [hnil rfl]
        have hinv := h.keepWatermark journal
        refine ⟨log, base, [], hinv, ?_, rfl, rfl, fun hd => absurd rfl hd, le_rfl⟩
        rw [hinv.lastIndex_eq, h.lastIndex_eq]
        show base + (s.entries.filter (s.compactedTo < ·.index.toNat)).length = _
        rw [h.filter_watermark]
      · obtain ⟨n, rest, rfl⟩ := List.exists_cons_of_ne_nil hcov.ne_nil
        have hn := h.two_le_of_covered hcov hpre rfl
        have hle := hcov.head_le hpre n rfl
        have heff := hcons hpre n rfl
        have hmark' : ∀ m ∈ (n :: rest).head?, m ≤ mark + 1 := by
          intro m hm
          obtain rfl : n = m := by simpa using hm
          omega
        obtain ⟨log', dropped, hinv, hlast', hlog, hdrop⟩ := h.dropCovered mark hcov (fun _ => hmark')
          (by omega) (by omega) hne (by omega) journal
        exact ⟨log', _, dropped, hinv, hlast', rfl, hlog, fun hd => ⟨hsnap, hdrop hd⟩, Nat.le_max_left _ _⟩

end Inv

/-! ## Opening -/

/-- What `open` returns for an intact log it accepts. -/
def opened (opts : WalOptions) (dir : Dir) (metaRecord : Meta) (log : Log) (entries : List LogEntry) :
    WalStorage :=
  assemble opts dir [] metaRecord (loadSnapshot dir metaRecord.snapshotIndex)
    ⟨log.entries, hardStateOf log.records, 0, []⟩ entries

/-- A directory with segments is left as it is. -/
theorem assemble_dir {dir : Dir} (hkeys : dir.listSegmentIndices ≠ []) (steps : List FsStep)
    (metaRecord : Meta) (snapshot : Option Snapshot) (recovered : Recovered) (entries : List LogEntry) :
    (assemble opts dir steps metaRecord snapshot recovered entries).dir = dir := by
  simp only [assemble, if_neg hkeys, FsStep.runAll_nil]

/-- A directory whose META `open` accepts and whose segments read as `log`. What the snapshot files hold is open. -/
structure Legible (opts : WalOptions) (dir : Dir) (metaRecord : Meta) (log : Log) : Prop where
  recoverMeta_eq : recoverMeta dir opts = ([], .ok metaRecord)
  reads : Reads dir.segments.toList log.toList

namespace Legible

variable {dir : Dir} {metaRecord : Meta} {t : WalStorage}

/-- **Opening an intact log** cuts nothing and checks the physical entries. -/
theorem openDir_eq (h : Legible opts dir metaRecord log) :
    openDir dir opts =
      match checkRecovered metaRecord (loadSnapshot dir metaRecord.snapshotIndex)
          (watermark (loadSnapshot dir metaRecord.snapshotIndex)) ⟨log.entries, hardStateOf log.records, 0, []⟩ with
      | .error e => (dir, .error e)
      | .ok entries =>
        ((opened opts dir metaRecord log entries).dir, .ok (opened opts dir metaRecord log entries)) := by
  simp only [openDir, h.recoverMeta_eq, FsStep.runAll_nil, recoverWal_reads h.reads, List.nil_append]
  rfl

/-- When it succeeds, whatever snapshot loads. -/
theorem openDir_eq_ok (h : Legible opts dir metaRecord log) {mark : Nat}
    (hmark : watermark (loadSnapshot dir metaRecord.snapshotIndex) = mark) :
    (openDir dir opts).2 = .ok t ↔
      (metaRecord.snapshotIndex ≠ 0 → loadSnapshot dir metaRecord.snapshotIndex = none →
        ∀ e ∈ log.entries.head?, e.index.toNat = 1) ∧
      Joins log.entries mark ∧
      (hardStateOf log.records).commit.toNat ≤
        (lastEntryIndex? (log.entries.filter (mark < ·.index.toNat))).getD mark ∧
      t = opened opts dir metaRecord log (log.entries.filter (mark < ·.index.toNat)) := by
  rw [h.openDir_eq, hmark]
  constructor
  · intro hok
    split at hok
    · cases hok
    · next entries hcheck =>
        obtain ⟨hnamed, hjoins, hcommit, rfl⟩ := checkRecovered_eq_ok.mp hcheck
        exact ⟨hnamed, hjoins, hcommit, (Except.ok.inj hok).symm⟩
  · rintro ⟨hnamed, hjoins, hcommit, rfl⟩
    have hcheck : checkRecovered metaRecord (loadSnapshot dir metaRecord.snapshotIndex) mark
        ⟨log.entries, hardStateOf log.records, 0, []⟩ = .ok _ :=
      checkRecovered_eq_ok.mpr ⟨hnamed, hjoins, hcommit, rfl⟩
    rw [hcheck]

end Legible

/-- A directory whose META `open` accepts and whose segments hold `log`. What the snapshot files hold is open. -/
structure Intact (opts : WalOptions) (dir : Dir) (metaRecord : Meta) (log : Log) : Prop where
  recoverMeta_eq : recoverMeta dir opts = ([], .ok metaRecord)
  segments_eq : dir.segments = log.bytes
  fits : ∀ r ∈ log.records, r.Fits

namespace Intact

variable {dir : Dir} {metaRecord : Meta} {t : WalStorage}

theorem legible (h : Intact opts dir metaRecord log) : Legible opts dir metaRecord log where
  recoverMeta_eq := h.recoverMeta_eq
  reads := by
    rw [h.segments_eq]
    exact reads_image h.fits

theorem openDir_eq_ok (h : Intact opts dir metaRecord log) {mark : Nat}
    (hmark : watermark (loadSnapshot dir metaRecord.snapshotIndex) = mark) :
    (openDir dir opts).2 = .ok t ↔
      (metaRecord.snapshotIndex ≠ 0 → loadSnapshot dir metaRecord.snapshotIndex = none →
        ∀ e ∈ log.entries.head?, e.index.toNat = 1) ∧
      Joins log.entries mark ∧
      (hardStateOf log.records).commit.toNat ≤
        (lastEntryIndex? (log.entries.filter (mark < ·.index.toNat))).getD mark ∧
      t = opened opts dir metaRecord log (log.entries.filter (mark < ·.index.toNat)) := h.legible.openDir_eq_ok hmark

end Intact

/-- A directory `open` can read through: META loads a snapshot, and the segments hold `log`. -/
structure Readable (opts : WalOptions) (dir : Dir) (metaRecord : Meta) (snapshot : Option Snapshot)
    (log : Log) : Prop where
  loads : Loads opts dir.metaFile dir.snapshots metaRecord snapshot
  segments_eq : dir.segments = log.bytes
  fits : ∀ r ∈ log.records, r.Fits

namespace Readable

variable {dir : Dir} {metaRecord : Meta} {snapshot : Option Snapshot} {t : WalStorage}

theorem indices_ne_nil (h : Readable opts dir metaRecord snapshot log) (hne : log.toList ≠ []) :
    dir.listSegmentIndices ≠ [] := by
  rw [Dir.listSegmentIndices, h.segments_eq, Log.bytes, Assoc.keys_map, Assoc.keys]
  simpa using hne

theorem intact (h : Readable opts dir metaRecord snapshot log) : Intact opts dir metaRecord log :=
  ⟨h.loads.recoverMeta_eq, h.segments_eq, h.fits⟩

/-- An open succeeds exactly if the entries join the snapshot and the commit is within the log. -/
theorem openDir_eq_ok (h : Readable opts dir metaRecord snapshot log) :
    (openDir dir opts).2 = .ok t ↔ Joins log.entries (watermark snapshot) ∧
      (hardStateOf log.records).commit.toNat ≤
        (lastEntryIndex? (log.entries.filter (watermark snapshot < ·.index.toNat))).getD
          (watermark snapshot) ∧
      t = opened opts dir metaRecord log (log.entries.filter (watermark snapshot < ·.index.toNat)) := by
  rw [h.intact.openDir_eq_ok h.loads.watermark_load]
  constructor
  · rintro ⟨-, hok⟩
    exact hok
  · intro hok
    exact ⟨fun h0 hnone => absurd hnone (h.loads.load_eq_none h0), hok⟩

/-- An open that fails has changed nothing. -/
theorem openDir_of_error (h : Readable opts dir metaRecord snapshot log) {e : StorageError}
    (herr : (openDir dir opts).2 = .error e) : openDir dir opts = (dir, .error e) := by
  rw [h.intact.legible.openDir_eq] at herr ⊢
  split at herr
  · rw [Except.error.inj herr]
  · cases herr

/-- The store an accepted log opens as keeps track of it, above the snapshot. -/
theorem tracks (h : Readable opts dir metaRecord snapshot log)
    {pre : List (Nat × List Record)} {active : Nat} {xs : List Record}
    (hlog : log.toList = pre ++ [(active, xs)])
    (hindexed : Indexed log (log.entries.filter (watermark snapshot < ·.index.toNat)) (watermark snapshot)
      (watermark snapshot)) :
    Tracks (opened opts dir metaRecord log (log.entries.filter (watermark snapshot < ·.index.toNat))) log
      (watermark snapshot) := by
  have hkeys := h.indices_ne_nil (by rw [hlog]; simp)
  have hactive : dir.listSegmentIndices.getLast?.getD 1 = active := by
    rw [Dir.listSegmentIndices, h.segments_eq, Log.bytes, Assoc.keys_map, Assoc.keys, hlog]
    simp
  refine ⟨?_, ?_⟩
  · rw [opened, assemble_dir hkeys]
    show Stored dir.segments (dir.listSegmentIndices.getLast?.getD 1) log
    rw [hactive]
    exact ⟨h.segments_eq, h.fits, pre, xs, hlog⟩
  · show Indexed log _ (watermark (loadSnapshot dir metaRecord.snapshotIndex)) _
    rw [h.loads.watermark_load]
    exact hindexed

end Readable

theorem Inv.readable (h : Inv opts s log base) (config : WalConfig) :
    Readable { opts with config } s.dir s.metaRecord s.snapshot log :=
  ⟨h.snapped.toLoads.withConfig config, h.stored.segments_eq, h.stored.fits⟩

/-- **Reopening** keeps the log and moves the base to the snapshot. -/
theorem Inv.reopen (h : Inv opts s log base) {config : WalConfig} {t : WalStorage}
    (hok : (openDir s.dir { opts with config }).2 = .ok t) :
    Inv opts t log (watermark s.snapshot) ∧ t.dir = s.dir ∧ t.hardState = hardStateOf log.records ∧
      t.entries = log.entries.filter (watermark s.snapshot < ·.index.toNat) ∧
      watermark t.snapshot = watermark s.snapshot ∧ t.compactedTo = watermark s.snapshot := by
  have hread := h.readable config
  obtain ⟨hjoins, -, rfl⟩ := hread.openDir_eq_ok.mp hok
  obtain ⟨pre, xs, hlog⟩ := h.stored.active_last
  have hmark := hread.loads.watermark_load
  have hdir := @assemble_dir { opts with config } s.dir (hread.indices_ne_nil h.toList_ne_nil) []
    s.metaRecord (loadSnapshot s.dir s.metaRecord.snapshotIndex)
    ⟨log.entries, hardStateOf log.records, 0, []⟩
    (log.entries.filter (watermark s.snapshot < ·.index.toNat))
  refine ⟨⟨hread.tracks hlog (h.indexed.reopen h.base_le hjoins), ?_, hmark.ge⟩, hdir, rfl, rfl, hmark, hmark⟩
  rw [opened, hdir]
  exact ⟨h.snapped.toLoads.reload, h.snapped.newest⟩

/-- A store opened in an empty directory. -/
theorem Inv.fresh (hok : (openDir .empty opts).2 = .ok s) : ∃ log : Log, Inv opts s log 0 ∧
    log.records = [] ∧ s.entries = [] ∧ s.compactedTo = 0 := by
  obtain rfl := (Except.ok.inj hok).symm
  refine ⟨Assoc.empty.insertNew 1 [], ⟨⟨⟨rfl, ?_, [], [], rfl⟩, Indexed.restart rfl le_rfl le_rfl⟩, ?_,
    Nat.zero_le _⟩, rfl, rfl, rfl⟩
  · intro r hr
    exact absurd hr List.not_mem_nil
  · exact ⟨⟨rfl, rfl, rfl, rfl, rfl, fun h0 => absurd rfl h0⟩, fun f hf => absurd hf List.not_mem_nil⟩

/-! ## Runs -/

/-- One operation keeps the invariant. -/
theorem Inv.exec (h : Inv opts s log base) {op : Op} (hok : op.exec opts s = .ok s') :
    ∃ log' base', Inv opts s' log' base' := by
  cases op with
  | append entries =>
      obtain ⟨log', h'⟩ := h.append hok
      exact ⟨log', base, h'⟩
  | setHardState hs =>
      obtain rfl := Except.ok.inj hok
      obtain ⟨log', h', -⟩ := h.setHardState hs
      exact ⟨log', base, h'⟩
  | syncEntries =>
      obtain rfl := Except.ok.inj hok
      exact ⟨log, base, h.syncEntries⟩
  | saveConfState index confState =>
      obtain rfl := Except.ok.inj hok
      exact ⟨log, base, h.saveConfState index confState⟩
  | saveSnapshot snapshot =>
      obtain rfl := Except.ok.inj hok
      exact ⟨log, base, (h.saveSnapshot snapshot).1⟩
  | installSnapshot snapshot =>
      rcases h.installSnapshot hok with ⟨-, -, rfl⟩ | ⟨log', h', -⟩
      · exact ⟨log, base, h⟩
      · exact ⟨log', _, h'⟩
  | compact compactTo =>
      obtain ⟨log', base', -, h', -⟩ := h.compact hok
      exact ⟨log', base', h'⟩
  | setTrailingKeepBytes bytes =>
      obtain rfl := Except.ok.inj hok
      exact ⟨log, base, h.setTrailingKeepBytes bytes⟩
  | reopen config => exact ⟨log, _, (h.reopen hok).1⟩

/-- **Every run keeps the invariant.** -/
theorem WalRun.inv {ok : WalStorage → Op → Prop} {ops : List Op} (h : WalRun opts ok ops s) :
    ∃ log base, Inv opts s log base := by
  refine Transition.Run.invariant (P := fun _ s => ∃ log base, Inv opts s log base) ?_ ?_ h
  · intro s hs
    obtain ⟨log, hinv, -⟩ := Inv.fresh hs
    exact ⟨log, 0, hinv⟩
  · rintro ops s op s' - ⟨log, base, hinv⟩ ⟨-, hexec⟩
    exact hinv.exec hexec

end Arachne.Storage
