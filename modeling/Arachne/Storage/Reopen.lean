import Arachne.Storage.Crash
import Arachne.Storage.Gapless

/-! # Closing and reopening a store

A store that is used as raft uses it (`CallOrder`) has the same log after a clean close and open: the same snapshot, the
same last index, and those of its entries that lie above the snapshot.

What has to be shown along the run is that the directory opens. Of the HardState records that are still in the segments
the last one counts, which need not be the one set last; but commits never fall, so none of them is beyond the commit of
the store (`Ascending`), and that is never beyond the end of the log.

A snapshot at index 0 is the exception: META's 0 stands for no snapshot at all. -/

namespace Arachne.Storage

open WalStorage

/-- How raft calls the store. The commit never falls and is within the log; a local snapshot is taken at an index from
`least` to the commit; an installed one is beyond every snapshot and commit before it. `append` itself refuses to
overwrite at or below the commit. -/
def CallOrder (least : Nat) (s : WalStorage) : Op → Prop
  | .setHardState hs => s.hardState.commit ≤ hs.commit ∧ hs.commit.toNat ≤ s.lastIndex
  | .saveSnapshot snapshot => least ≤ snapshot.metadata.index.toNat ∧ snapshot.metadata.index ≤ s.hardState.commit
  | .installSnapshot snapshot =>
      watermark s.snapshot < snapshot.metadata.index.toNat ∧ s.hardState.commit < snapshot.metadata.index
  | _ => True

instance (least : Nat) (s : WalStorage) (op : Op) : Decidable (CallOrder least s op) :=
  match op with
  | .setHardState hs => inferInstanceAs (Decidable (s.hardState.commit ≤ hs.commit ∧ hs.commit.toNat ≤ s.lastIndex))
  | .saveSnapshot snapshot => inferInstanceAs
      (Decidable (least ≤ snapshot.metadata.index.toNat ∧ snapshot.metadata.index ≤ s.hardState.commit))
  | .installSnapshot snapshot => inferInstanceAs
      (Decidable (watermark s.snapshot < snapshot.metadata.index.toNat ∧ s.hardState.commit < snapshot.metadata.index))
  | .append _ | .syncEntries | .saveConfState _ _ | .compact _ | .setTrailingKeepBytes _ | .reopen _ => .isTrue trivial

/-! ## Commits on disk -/

/-- The commits of the HardState records, oldest first. -/
def commitsOf (rs : List Record) : List Nat := (rs.filterMap Record.hardState?).map (·.commit.toNat)

theorem commitsOf_append (xs ys : List Record) : commitsOf (xs ++ ys) = commitsOf xs ++ commitsOf ys := by
  rw [commitsOf, List.filterMap_append, List.map_append]
  rfl

theorem commitsOf_map_entry (es : List LogEntry) : commitsOf (es.map .entry) = [] := by
  have hnil : (es.map Record.entry).filterMap Record.hardState? = [] := by
    rw [List.filterMap_eq_nil_iff]
    intro r hr
    obtain ⟨e, -, rfl⟩ := List.mem_map.mp hr
    rfl
  rw [commitsOf, hnil]
  rfl

theorem commit_hardStateOf (rs : List Record) : (hardStateOf rs).commit.toNat = (commitsOf rs).getLast?.getD 0 := by
  rw [hardStateOf, commitsOf, List.getLast?_map]
  cases (rs.filterMap Record.hardState?).getLast? with
  | none => rfl
  | some hs => rfl

/-- The commits on disk never fall, and end at most at `commit`. -/
def Ascending (rs : List Record) (commit : Nat) : Prop := (commitsOf rs ++ [commit]).Pairwise (· ≤ ·)

namespace Ascending

variable {rs xs ys : List Record} {commit : Nat}

theorem nil (commit : Nat) : Ascending [] commit := List.pairwise_singleton _ _

theorem left (h : Ascending (xs ++ ys) commit) : Ascending xs commit := by
  refine h.sublist ?_
  rw [commitsOf_append]
  exact (List.sublist_append_left _ _).append_right _

theorem right (h : Ascending (xs ++ ys) commit) : Ascending ys commit := by
  refine h.sublist ?_
  rw [commitsOf_append]
  exact (List.sublist_append_right _ _).append_right _

theorem appendEntries (h : Ascending rs commit) (es : List LogEntry) : Ascending (rs ++ es.map .entry) commit := by
  rw [Ascending, commitsOf_append, commitsOf_map_entry, List.append_nil]
  exact h

theorem le (h : Ascending rs commit) : ∀ c ∈ commitsOf rs, c ≤ commit := by
  intro c hc
  exact (List.pairwise_append.mp h).2.2 c hc commit (List.mem_singleton_self _)

theorem setHardState (h : Ascending rs commit) {hs : HardState} (hle : commit ≤ hs.commit.toNat) :
    Ascending (rs ++ [.hardState hs]) hs.commit.toNat := by
  rw [Ascending, commitsOf_append]
  refine List.pairwise_append.mpr ⟨List.pairwise_append.mpr ⟨(List.pairwise_append.mp h).1, ?_, ?_⟩, ?_, ?_⟩
  · exact List.pairwise_singleton _ _
  · intro c hc c' hc'
    obtain rfl := List.mem_singleton.mp hc'
    exact Nat.le_trans (h.le c hc) hle
  · exact List.pairwise_singleton _ _
  · intro c hc c' hc'
    obtain rfl := List.mem_singleton.mp hc'
    rcases List.mem_append.mp hc with hc | hc
    · exact Nat.le_trans (h.le c hc) hle
    · exact (List.mem_singleton.mp hc).le

/-- What recovery reports is no more than what the store reported. -/
theorem commit_le (h : Ascending rs commit) : (hardStateOf rs).commit.toNat ≤ commit := by
  rw [commit_hardStateOf]
  cases hlast : (commitsOf rs).getLast? with
  | none => exact Nat.zero_le _
  | some c => exact h.le c (List.mem_of_getLast? hlast)

theorem reopen (h : Ascending rs commit) : Ascending rs (hardStateOf rs).commit.toNat := by
  rw [commit_hardStateOf]
  rcases List.eq_nil_or_concat' (commitsOf rs) with hnil | ⟨cs, c, hcs⟩
  · rw [Ascending, hnil]
    exact List.pairwise_singleton _ _
  · rw [Ascending, hcs, List.getLast?_concat]
    rw [Ascending, hcs] at h
    obtain ⟨hsorted, -, -⟩ := List.pairwise_append.mp h
    refine List.pairwise_append.mpr ⟨hsorted, List.pairwise_singleton _ _, ?_⟩
    intro a ha b hb
    have hlast : b = c := List.mem_singleton.mp hb
    rw [hlast]
    rcases List.mem_append.mp ha with ha | ha
    · exact (List.pairwise_append.mp hsorted).2.2 a ha c (List.mem_singleton_self _)
    · exact (List.mem_singleton.mp ha).le

end Ascending

/-! ## The invariant -/

/-- What a store keeps true that is called in order: its log has no gap and reaches its commit and its snapshot, and as
long as nothing has been released from the front of the log, the snapshot is covered by the commit. -/
structure Orderly (opts : WalOptions) (s : WalStorage) (log : Log) (base : Nat) : Prop
    extends Inv opts s log base where
  noGap : Inv.NoGap s log
  ascending : Ascending log.records s.hardState.commit.toNat
  commit_le : s.hardState.commit.toNat ≤ s.lastIndex
  mark_le : watermark s.snapshot ≤ s.lastIndex
  covered : base = 0 → watermark s.snapshot ≤ s.hardState.commit.toNat
  named : s.metaRecord.snapshotIndex = 0 → s.snapshot = none

variable {opts : WalOptions} {s s' : WalStorage} {log : Log} {base : Nat}

namespace Orderly

/-- The log of a store is determined by its files. -/
theorem noGap_of {log' : Log} {base' : Nat} (h : Orderly opts s log base) {op : Op} (hok : op.exec opts s = .ok s')
    (h' : Inv opts s' log' base') : Inv.NoGap s' log' := by
  have hwithin : ReopensWithin s op := by
    cases op with
    | reopen config => exact h.mark_le
    | _ => trivial
  obtain ⟨log₁, _, h₁, hgap⟩ := h.toInv.noGap_exec h.noGap hwithin hok
  obtain rfl : log₁ = log' := h₁.log_eq.symm.trans h'.log_eq
  exact hgap

/-- `append` overwrites nothing at or below the commit. -/
theorem commit_le_of_overwrites {es : List LogEntry} (hok : s.append es = .ok s') {first : LogEntry}
    (hfirst : first ∈ es.head?) (hle : first.index.toNat ≤ s.lastIndex) :
    s.hardState.commit.toNat ≤ first.index.toNat - 1 := by
  cases es with
  | nil => cases hfirst
  | cons e es =>
      obtain rfl := Option.some.inj hfirst
      obtain ⟨_, hsuffix, -⟩ := Transition.bind_eq_ok.mp hok
      exact ((overwriteSuffix_eq_ok hle).mp hsuffix).2.1

/-- An overwriting append cuts above the commit, and with it above the snapshot. -/
theorem le_lastIndex_append (h : Orderly opts s log base) {es : List LogEntry} (hok : s.append es = .ok s') :
    max s.hardState.commit.toNat (watermark s.snapshot) ≤ s'.lastIndex := by
  obtain ⟨t, log₁, h₁, hloop, hstart, hzero⟩ := h.appendStart hok
  have hlast := lastIndex_of_appendAll hloop
  have hcommit := h.commit_le
  have hmark := h.mark_le
  cases hstart with
  | asIs _ ht _ =>
      rw [hlast, ht]
      omega
  | cut first hfirst hle ht =>
      -- nothing has been released, so that the commit covers the snapshot
      obtain rfl := hzero ⟨first, hfirst, hle⟩
      have hcovered := h.covered rfl
      have hguard := commit_le_of_overwrites hok hfirst hle
      have hlen := h₁.lastIndex_eq
      have hbound := h.lastIndex_eq
      rw [ht, List.length_take] at hlen
      omega

theorem append (h : Orderly opts s log base) {es : List LogEntry} (hok : s.append es = .ok s') :
    ∃ log', Orderly opts s' log' base := by
  obtain ⟨t, log₁, h₁, hloop, hstart, -⟩ := h.appendStart hok
  obtain ⟨log', h', hrec⟩ := h₁.appendAll hloop
  have hframe := Framed.append hok
  have hreach := h.le_lastIndex_append hok
  have hasc : Ascending log₁.records s.hardState.commit.toNat := by
    cases hstart with
    | asIs _ _ hlog =>
        rw [hlog]
        exact h.ascending
    | cut first _ _ _ _ hlog =>
        have hall := h.ascending
        rw [hlog] at hall
        exact hall.left
  have hexec : (Op.append es).exec opts s = .ok s' := hok
  refine ⟨log', h', h.noGap_of hexec h', ?_, ?_, ?_, ?_, ?_⟩
  · rw [hrec, hframe.hardState_eq]
    exact hasc.appendEntries es
  · rw [hframe.hardState_eq]
    omega
  · rw [hframe.snapshot_eq]
    omega
  · rw [hframe.snapshot_eq, hframe.hardState_eq]
    exact h.covered
  · rw [hframe.metaRecord_eq, hframe.snapshot_eq]
    exact h.named

theorem setHardState (h : Orderly opts s log base) {hs : HardState} (hcommit : s.hardState.commit ≤ hs.commit)
    (hlast : hs.commit.toNat ≤ s.lastIndex) : ∃ log', Orderly opts (s.setHardState hs) log' base := by
  obtain ⟨log', h', hrec⟩ := h.toInv.setHardState hs
  have hexec : (Op.setHardState hs).exec opts s = .ok (s.setHardState hs) := rfl
  have hle := UInt64.le_iff_toNat_le.mp hcommit
  refine ⟨log', h', h.noGap_of hexec h', ?_, hlast, h.mark_le, fun hb => Nat.le_trans (h.covered hb) hle, h.named⟩
  rw [hrec]
  exact h.ascending.setHardState hle

theorem saveSnapshot (h : Orderly opts s log base) {snapshot : Snapshot}
    (hpos : 1 ≤ snapshot.metadata.index.toNat) (hcommit : snapshot.metadata.index ≤ s.hardState.commit) :
    Orderly opts (s.saveSnapshot snapshot) log base := by
  obtain ⟨h', -, -, hlast⟩ := h.toInv.saveSnapshot snapshot
  have hexec : (Op.saveSnapshot snapshot).exec opts s = .ok (s.saveSnapshot snapshot) := rfl
  have hgap := h.noGap_of hexec h'
  by_cases hat : s.hasSnapshotAt snapshot.metadata.index
  · rw [WalStorage.saveSnapshot, if_pos hat]
    exact h
  · obtain ⟨_, _, hsave⟩ := s.saveSnapshot_eq snapshot
    simp only [if_neg hat] at hsave
    have hle : snapshot.metadata.index.toNat ≤ s.hardState.commit.toNat := UInt64.le_iff_toNat_le.mp hcommit
    have hmark : snapshot.metadata.index.toNat ≤ s.lastIndex := Nat.le_trans hle h.commit_le
    rw [hsave] at h' hgap ⊢
    refine ⟨h', hgap, h.ascending, h.commit_le, hmark, fun _ => hle, fun hzero => ?_⟩
    have hzero' : snapshot.metadata.index = 0 := hzero
    rw [hzero'] at hpos
    exact absurd hpos (by decide)

theorem installSnapshot (h : Orderly opts s log base) {snapshot : Snapshot} (hok : s.installSnapshot snapshot = .ok s')
    (hmark : watermark s.snapshot < snapshot.metadata.index.toNat) (hcommit : s.hardState.commit < snapshot.metadata.index) :
    ∃ log' base', Orderly opts s' log' base' := by
  have hexec : (Op.installSnapshot snapshot).exec opts s = .ok s' := hok
  have hlt := UInt64.lt_iff_toNat_lt.mp hcommit
  have hnot : ¬ s.hasSnapshotAt snapshot.metadata.index := by
    intro hat
    have hle := le_of_hasSnapshotAt hat
    omega
  rcases h.toInv.installSnapshot hok with ⟨-, -, rfl⟩ | ⟨log', h', hrec⟩
  · exact ⟨log, base, h⟩
  · have hgap := h.noGap_of hexec h'
    rcases installSnapshot_eq_ok hok with ⟨-, -, rfl⟩ | ⟨-, rfl⟩
    · exact ⟨log, base, h⟩
    · simp only [if_neg hnot] at h' hgap ⊢
      refine ⟨log', _, h', hgap, ?_, hlt.le, le_rfl, fun hzero => ?_, fun hzero => ?_⟩
      · rw [hrec]
        exact .nil _
      · rw [hzero] at hlt
        exact absurd hlt (Nat.not_lt_zero _)
      · have hzero' : snapshot.metadata.index = 0 := hzero
        rw [hzero'] at hlt
        exact absurd hlt (Nat.not_lt_zero _)

theorem compact (h : Orderly opts s log base) {compactTo : Nat} (hok : s.compact compactTo = .ok s') :
    ∃ log' base', Orderly opts s' log' base' := by
  have hexec : (Op.compact compactTo).exec opts s = .ok s' := hok
  have hframe := Framed.compact hok
  obtain ⟨log', base', dropped, h', hlast, -, hlog, -, hbase⟩ := h.toInv.compact hok
  refine ⟨log', base', h', h.noGap_of hexec h', ?_, ?_, ?_, ?_, ?_⟩
  · have hall := h.ascending
    rw [Log.records, hlog, recordsOf_append] at hall
    rw [hframe.hardState_eq]
    exact hall.right
  · rw [hframe.hardState_eq, hlast]
    exact h.commit_le
  · rw [hframe.snapshot_eq, hlast]
    exact h.mark_le
  · rw [hframe.snapshot_eq, hframe.hardState_eq]
    exact fun hzero => h.covered (Nat.le_zero.mp (hzero ▸ hbase))
  · rw [hframe.metaRecord_eq, hframe.snapshot_eq]
    exact h.named

/-- **Reopening** gives the same log back. -/
theorem reopen (h : Orderly opts s log base) (config : WalConfig) :
    ∃ t, (openDir s.dir { opts with config }).2 = .ok t ∧ t.snapshot = s.snapshot ∧ t.lastIndex = s.lastIndex ∧
      t.entries = s.entries.filter (watermark s.snapshot < ·.index.toNat) ∧
      Orderly opts t log (watermark s.snapshot) := by
  have hcommit := h.ascending.commit_le
  obtain ⟨t, hopen⟩ := (h.toInv.openDir_ok_iff h.noGap config).mpr
    (le_max_of_le_left (Nat.le_trans hcommit h.commit_le))
  obtain ⟨ht, -, hhard, hent, hmark, -⟩ := h.toInv.reopen hopen
  have hfrom := openedFrom hopen
  have hexec : (Op.reopen config).exec opts s = .ok t := hopen
  have hmeta : t.metaRecord = s.metaRecord := hfrom.metaRecord_eq _ h.snapped.metaFile_eq
  have hlast : t.lastIndex = s.lastIndex := by
    have hlen := h.noGap.length_above
    have hle := h.mark_le
    rw [ht.lastIndex_eq, hent, hlen]
    omega
  have hsnapshot : t.snapshot = s.snapshot := by
    rw [hfrom.snapshot_eq, hmeta, loadSnapshot]
    split_ifs with hzero
    · exact (h.named hzero).symm
    · exact h.snapped.loaded hzero
  have hentries : t.entries = s.entries.filter (watermark s.snapshot < ·.index.toNat) := by
    have hbase := h.base_le
    rw [hent, h.indexed.entries_eq, List.filter_filter]
    refine List.filter_congr fun e _ => ?_
    rw [← Bool.decide_and, decide_eq_decide]
    omega
  refine ⟨t, hopen, hsnapshot, hlast, hentries, ht, h.noGap_of hexec ht, ?_, ?_, ?_, ?_, ?_⟩
  · rw [hhard]
    exact h.ascending.reopen
  · rw [hhard, hlast]
    exact Nat.le_trans hcommit h.commit_le
  · rw [hsnapshot, hlast]
    exact h.mark_le
  · rw [hsnapshot]
    exact fun hzero => hzero ▸ Nat.zero_le _
  · rw [hmeta, hsnapshot]
    exact h.named

/-- One call in order keeps the invariant. -/
theorem exec (h : Orderly opts s log base) {op : Op} (horder : CallOrder 1 s op) (hok : op.exec opts s = .ok s') :
    ∃ log' base', Orderly opts s' log' base' := by
  cases op with
  | append entries =>
      obtain ⟨log', h'⟩ := h.append hok
      exact ⟨log', base, h'⟩
  | setHardState hs =>
      obtain rfl := Except.ok.inj hok
      obtain ⟨log', h'⟩ := h.setHardState horder.1 horder.2
      exact ⟨log', base, h'⟩
  | syncEntries =>
      obtain rfl := Except.ok.inj hok
      have h' := h.toInv.syncEntries
      have hgap := h.noGap_of hok h'
      obtain ⟨_, _, _, hsync⟩ := s.syncEntries_eq
      rw [hsync] at h' hgap ⊢
      exact ⟨log, base, h', hgap, h.ascending, h.commit_le, h.mark_le, h.covered, h.named⟩
  | saveConfState index confState =>
      obtain rfl := Except.ok.inj hok
      exact ⟨log, base, h.toInv.saveConfState index confState, h.noGap, h.ascending, h.commit_le, h.mark_le, h.covered,
        h.named⟩
  | saveSnapshot snapshot =>
      obtain rfl := Except.ok.inj hok
      exact ⟨log, base, h.saveSnapshot horder.1 horder.2⟩
  | installSnapshot snapshot => exact h.installSnapshot hok horder.1 horder.2
  | compact compactTo => exact h.compact hok
  | setTrailingKeepBytes bytes =>
      obtain rfl := Except.ok.inj hok
      exact ⟨log, base, h.toInv.setTrailingKeepBytes bytes, h.noGap, h.ascending, h.commit_le, h.mark_le, h.covered,
        h.named⟩
  | reopen config =>
      obtain ⟨t, hopen, -, -, -, ht⟩ := h.reopen config
      obtain rfl := Except.ok.inj (hopen.symm.trans hok)
      exact ⟨log, _, ht⟩

end Orderly

/-- **Every run in order keeps it.** -/
theorem WalRun.orderly {ops : List Op} (h : WalRun opts (CallOrder 1) ops s) : ∃ log base, Orderly opts s log base := by
  refine Transition.Run.invariant (P := fun _ s => ∃ log base, Orderly opts s log base) ?_ ?_ h
  · intro s hs
    obtain ⟨log, hinv, hrec, -, -⟩ := Inv.fresh hs
    obtain rfl := Except.ok.inj hs
    refine ⟨log, 0, hinv, hinv.noGap_of_base_zero, ?_, Nat.zero_le _, Nat.zero_le _, fun _ => Nat.zero_le _, fun _ => rfl⟩
    rw [hrec]
    exact .nil _
  · rintro ops s op s' - ⟨log, base, horderly⟩ ⟨horder, hexec⟩
    exact horderly.exec horder hexec

/-- **A clean close and open gives the same log back**: the snapshot, the last index, and the entries above the
snapshot. -/
theorem reopen_gives_same_log {ops : List Op} (h : WalRun opts (CallOrder 1) ops s) (config : WalConfig) :
    ∃ t, (openDir s.dir { opts with config }).2 = .ok t ∧ t.snapshot = s.snapshot ∧ t.lastIndex = s.lastIndex ∧
      t.entries = s.entries.filter (watermark s.snapshot < ·.index.toNat) := by
  obtain ⟨log, base, horderly⟩ := h.orderly
  obtain ⟨t, hopen, hsnapshot, hlast, hentries, -⟩ := horderly.reopen config
  exact ⟨t, hopen, hsnapshot, hlast, hentries⟩

/-- Overwriting, snapshots, compaction with a trailing window and a reopen in between, with one record to a segment. -/
def orderlyRun : List Op :=
  [.append [sampleEntry 1 1, sampleEntry 2 1, sampleEntry 3 1], .setHardState ⟨1, some 1, 2⟩,
    .append [sampleEntry 3 2, sampleEntry 4 2], .saveSnapshot (sampleSnapshot 2), .setTrailingKeepBytes 8, .compact 2,
    .reopen ⟨.always, 8⟩, .setHardState ⟨2, some 2, 4⟩, .append [sampleEntry 5 2], .saveSnapshot (sampleSnapshot 4)]

theorem reopen_gives_same_log_orderlyRun :
    ∃ s t, WalRun (sampleOptions 8) (CallOrder 1) orderlyRun s ∧ (openDir s.dir (sampleOptions 8)).2 = .ok t ∧
      t.snapshot = some (sampleSnapshot 4) ∧ t.lastIndex = 5 ∧ t.entries = [sampleEntry 5 2] := by
  have heval : (runOps (sampleOptions 8) (CallOrder 1) orderlyRun).any (fun s =>
      s.snapshot = some (sampleSnapshot 4) ∧ s.lastIndex = 5 ∧
        s.entries.filter (watermark s.snapshot < ·.index.toNat) = [sampleEntry 5 2]) := by
    decide +kernel
  obtain ⟨s, hs, heval⟩ := (Option.any_eq_true _ _).mp heval
  obtain ⟨hsnapshot, hlast, hentries⟩ := of_decide_eq_true heval
  have hrun := WalRun.of_runOps hs
  obtain ⟨t, hopen, hsnapshot', hlast', hentries'⟩ := reopen_gives_same_log hrun (sampleOptions 8).config
  exact ⟨s, t, hrun, hopen, hsnapshot'.trans hsnapshot, hlast'.trans hlast, hentries'.trans hentries⟩

/-- **A snapshot at index 0 does not survive**: the store holds it, and META's 0 says there is none. -/
theorem snapshot_at_zero_not_reopened :
    ∃ s t, WalRun (sampleOptions 1024) (CallOrder 0) [.saveSnapshot (sampleSnapshot 0)] s ∧
      (openDir s.dir (sampleOptions 1024)).2 = .ok t ∧ s.snapshot = some (sampleSnapshot 0) ∧ t.snapshot = none := by
  have heval : (runOps (sampleOptions 1024) (CallOrder 0) [.saveSnapshot (sampleSnapshot 0)]).any (fun s =>
      s.snapshot = some (sampleSnapshot 0) ∧
        (openDir s.dir (sampleOptions 1024)).2.toOption.any (·.snapshot = none)) := by
    decide +kernel
  obtain ⟨s, hs, heval⟩ := (Option.any_eq_true _ _).mp heval
  obtain ⟨hsnapshot, heval⟩ := of_decide_eq_true heval
  obtain ⟨t, ht, hnone⟩ := (Option.any_eq_true _ _).mp heval
  exact ⟨s, t, WalRun.of_runOps hs, toOption_eq_some.mp ht, hsnapshot, of_decide_eq_true hnone⟩

end Arachne.Storage
