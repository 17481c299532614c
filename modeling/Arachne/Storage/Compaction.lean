import Arachne.Storage.Crash
import Arachne.Storage.Invariant
import Arachne.Storage.Read

/-! # What compaction releases

`compact` raises the watermark and unlinks the oldest segments. Without a trailing window the watermark is the index
asked for. With one it is held back to just below the oldest segment that is kept, so that the segments kept are served
from memory too.

Segments are chosen by the names of their neighbours, and what counts is the entries in them: `Removable` speaks of the
entries, and what is unlinked is the longest run that is removable (`compactWindow_longest`).

The window has one flaw. A store that is opened puts its watermark at its snapshot, but leaves the segments below it in
place. A later compaction with a window then starts at the oldest of them, and the watermark it ends with may be *below*
the one it started from: the store no longer holds the entries it says it does. A store is `Tidy` if its watermark is
within its oldest segment, and as long as windows are only applied to tidy stores, the in-memory log starts right behind
the watermark (`WalRun.aligned`). -/

namespace Arachne.Storage

open Codec (Bytes)
open WalStorage

variable {opts : WalOptions} {s s' : WalStorage} {log : Log} {base : Nat}

/-- The watermark is below every segment but the oldest. -/
def WalStorage.Tidy (s : WalStorage) : Prop := ∀ n ∈ s.dir.listSegmentIndices.tail, s.compactedTo < n

instance (s : WalStorage) : Decidable s.Tidy :=
  inferInstanceAs (Decidable (∀ n ∈ s.dir.listSegmentIndices.tail, s.compactedTo < n))

/-- Windows are applied to tidy stores only. -/
def CompactsTidily (s : WalStorage) : Op → Prop
  | .compact compactTo => s.compactedTo < compactTo → s.trailingKeepBytes ≠ 0 → s.Tidy
  | _ => True

instance (s : WalStorage) (op : Op) : Decidable (CompactsTidily s op) :=
  match op with
  | .compact compactTo =>
      inferInstanceAs (Decidable (s.compactedTo < compactTo → s.trailingKeepBytes ≠ 0 → s.Tidy))
  | .append _ | .setHardState _ | .syncEntries | .saveConfState _ _ | .saveSnapshot _ | .installSnapshot _
  | .setTrailingKeepBytes _ | .reopen _ => .isTrue trivial

/-! ## The bytes behind a segment -/

/-- The size of some segment files. -/
def totalBytes (segs : List (Nat × Bytes)) : Nat := (segs.map (·.2.length)).sum

theorem totalBytes_drop_le {j k : Nat} (hle : k ≤ j) (segs : List (Nat × Bytes)) :
    totalBytes (segs.drop j) ≤ totalBytes (segs.drop k) := by
  obtain ⟨d, rfl⟩ := Nat.exists_eq_add_of_le hle
  have hsplit := congrArg totalBytes (List.take_append_drop d (segs.drop k))
  rw [totalBytes, List.map_append, List.sum_append, List.drop_drop] at hsplit
  exact hsplit ▸ Nat.le_add_left _ _

/-- What `retained_bytes_from` counts once the segments `removed` are gone: the segments from the second one on. -/
theorem retainedBytesFrom_eq {x y : Nat × Bytes} {rest : List (Nat × Bytes)} {removed : List Nat}
    (hsegs : s.dir.segments.toList = x :: y :: rest) (hremoved : ∀ n ∈ removed, n < x.1) :
    s.retainedBytesFrom (removed ++ (x :: y :: rest).map Prod.fst) y.1 = totalBytes (y :: rest) := by
  have hasc := s.dir.segments.ascending
  rw [hsegs, List.map_cons, List.map_cons, List.pairwise_cons, List.pairwise_cons] at hasc
  obtain ⟨hx, hy, -⟩ := hasc
  have hxy : x.1 < y.1 := hx y.1 List.mem_cons_self
  have hfilter : (removed ++ (x :: y :: rest).map Prod.fst).filter (y.1 ≤ ·) = (y :: rest).map Prod.fst := by
    rw [List.filter_append, List.filter_eq_nil_iff.mpr, List.nil_append, List.map_cons,
      List.filter_cons_of_neg (by simpa using hxy), List.filter_eq_self.mpr]
    · intro n hn
      rcases List.mem_cons.mp hn with rfl | hn
      · simp
      · simpa using (hy n hn).le
    · intro n hn
      have := hremoved n hn
      simp only [decide_eq_true_eq]
      omega
  rw [retainedBytesFrom, hfilter, List.map_map, totalBytes]
  refine congrArg List.sum (List.map_congr_left fun p hp => ?_)
  have hmem : p ∈ s.dir.segments.toList := by
    rw [hsegs]
    exact List.mem_cons_of_mem _ hp
  rw [Function.comp_apply, Dir.segmentSize, Assoc.get?_of_mem hmem]
  rfl

/-- Where the loop of a windowed compaction stops: after `k` segments. What is behind them covers the window if any
were unlinked, and the next one either reaches beyond `compactTo` or is needed for the window. -/
structure StopsAt (segs : List (Nat × Bytes)) (compactTo keepBytes k : Nat) : Prop where
  lt : k < segs.length
  covers : k ≠ 0 → keepBytes ≤ totalBytes (segs.drop k)
  stops : ∀ x ∈ (segs.drop (k + 1)).head?, compactTo + 1 < x.1 ∨ totalBytes (segs.drop (k + 1)) < keepBytes

theorem compactTrailing_stopsAt {segs : List (Nat × Bytes)} (hsegs : s.dir.segments.toList = segs)
    (hlast : (segs.map Prod.fst).getLast? = some s.segmentFirstIndex) {removed : List Nat}
    (hremoved : ∀ n ∈ removed, ∀ x ∈ segs, n < x.1) (compactTo effective : Nat) :
    ∃ k, StopsAt segs compactTo s.trailingKeepBytes k ∧
      (compactTrailing (removed ++ segs.map Prod.fst) compactTo (windows (segs.map Prod.fst)) s
        effective).1.dir.segments.toList = segs.drop k := by
  induction segs generalizing s removed effective with
  | nil => simp at hlast
  | cons x segs ih =>
      cases segs with
      | nil => exact ⟨0, ⟨by simp, fun h => absurd rfl h, by simp⟩, hsegs⟩
      | cons y rest =>
          have hasc := s.dir.segments.ascending
          rw [hsegs, List.map_cons, List.pairwise_cons] at hasc
          have hlast' : ((y :: rest).map Prod.fst).getLast? = some s.segmentFirstIndex := by simpa using hlast
          have hactive : x.1 ≠ s.segmentFirstIndex := Nat.ne_of_lt (hasc.1 _ (List.mem_of_getLast? hlast'))
          have hbytes := retainedBytesFrom_eq hsegs fun n hn => hremoved n hn x List.mem_cons_self
          simp only [List.map_cons] at hbytes
          have hstop (h : compactTo + 1 < y.1 ∨ totalBytes (y :: rest) < s.trailingKeepBytes) :
              StopsAt (x :: y :: rest) compactTo s.trailingKeepBytes 0 :=
            ⟨by simp, fun h => absurd rfl h, by simpa using h⟩
          simp only [List.map_cons, windows_cons_cons, compactTrailing, if_neg hactive, hbytes]
          split_ifs with hbeyond hwindow
          · exact ⟨0, hstop (.inl hbeyond), hsegs⟩
          · exact ⟨0, hstop (.inr hwindow), hsegs⟩
          · -- `x` goes, and the loop runs on behind it
            have hsegs' : (s.io (.removeSegment x.1)).dir.segments.toList = y :: rest := by
              have hprefix := @Assoc.toList_eraseAll_prefix _ s.dir.segments [x] (y :: rest) hsegs
              exact hprefix
            have hremoved' : ∀ n ∈ removed ++ [x.1], ∀ z ∈ y :: rest, n < z.1 := by
              intro n hn z hz
              rcases List.mem_append.mp hn with hn | hn
              · exact hremoved n hn z (List.mem_cons_of_mem _ hz)
              · obtain rfl := List.mem_singleton.mp hn
                exact hasc.1 z.1 (List.mem_map_of_mem hz)
            obtain ⟨k, hk, hrun⟩ := @ih (s.io (.removeSegment x.1)) hsegs' hlast' _ hremoved' (y.1 - 1)
            rw [List.append_assoc] at hrun
            refine ⟨k + 1, ⟨Nat.succ_lt_succ hk.lt, fun _ => ?_, hk.stops⟩, hrun⟩
            by_cases hzero : k = 0
            · rw [hzero]
              exact Nat.not_lt.mp hwindow
            · exact hk.covers hzero

/-! ## The segments that could go -/

/-- The `k` oldest segments could go: their entries are at or below `compactTo`, and what is behind them covers the
window. -/
def WalStorage.Removable (s : WalStorage) (compactTo k : Nat) : Prop :=
  (∀ x ∈ s.dir.log.toList.take k, ∀ e ∈ entriesOf x.2, e.index.toNat ≤ compactTo) ∧
    s.trailingKeepBytes ≤ totalBytes (s.dir.segments.toList.drop k)

namespace Inv

theorem segments_eq_map (h : Inv opts s log base) :
    s.dir.segments.toList = log.toList.map fun p => (p.1, image p.2) := by
  rw [h.stored.segments_eq, Log.bytes, Assoc.toList_map]

/-- An entry above the base that is in the log is in one of its segments. -/
theorem exists_segment (h : Inv opts s log base) {e : LogEntry} (he : e ∈ s.entries) :
    ∃ x ∈ log.toList, e ∈ entriesOf x.2 := by
  rw [h.indexed.entries_eq] at he
  exact mem_entriesOf_recordsOf.mp (List.mem_filter.mp he).1

/-- The segments in front of one named at most `limit + 1` hold entries up to `limit`. -/
theorem le_of_mem_take (h : Inv opts s log base) {k limit : Nat} {y : Nat × List Record}
    (hy : y ∈ (log.toList.drop k).head?) (hle : y.1 ≤ limit + 1) :
    ∀ x ∈ log.toList.take k, ∀ e ∈ entriesOf x.2, e.index.toNat ≤ limit := by
  intro x hx e he
  have hlaid := h.indexed.laid.lt_next
  rw [← List.take_append_drop k log.toList, List.pairwise_append] at hlaid
  have hlt := hlaid.2.2 x hx y (List.mem_of_mem_head? hy) e he
  omega

/-- **Where the loop stops is the longest run it could unlink**: a segment named beyond `compactTo + 1` has an entry
beyond `compactTo` in front of it, because the log reaches up to it without a gap. -/
theorem le_of_removable (h : Inv opts s log base) {compactTo k : Nat} (hbase : base ≤ compactTo)
    (hkeep : s.trailingKeepBytes ≠ 0) (hk : StopsAt s.dir.segments.toList compactTo s.trailingKeepBytes k) {j : Nat}
    (hj : s.Removable compactTo j) : j ≤ k := by
  by_contra hlt
  have hlt : k + 1 ≤ j := Nat.not_le.mp hlt
  obtain ⟨hcovered, hbytes⟩ := hj
  rw [h.log_eq] at hcovered
  have hmore := totalBytes_drop_le hlt s.dir.segments.toList
  have hne : s.dir.segments.toList.drop (k + 1) ≠ [] := by
    intro hnil
    rw [hnil] at hmore
    exact hkeep (Nat.le_zero.mp (Nat.le_trans hbytes hmore))
  have hne' : log.toList.drop (k + 1) ≠ [] := by
    rwa [h.segments_eq_map, ← List.map_drop, ne_eq, List.map_eq_nil_iff] at hne
  obtain ⟨y, rest, hdrop⟩ := List.exists_cons_of_ne_nil hne'
  have hbeyond : compactTo + 1 < y.1 := by
    have hstops := hk.stops (y.1, image y.2) (by rw [h.segments_eq_map, ← List.map_drop, hdrop]; rfl)
    rcases hstops with hbeyond | hshort
    · exact hbeyond
    · omega
  have hmem : y ∈ log.toList.drop (k + 1) := by rw [hdrop]; exact List.mem_cons_self
  -- `y` holds an entry, so that the log reaches beyond `compactTo + 1`
  obtain ⟨e, he⟩ := List.exists_mem_of_ne_nil _ (h.indexed.laid.filled y (by
    rw [← List.drop_one]
    exact (List.drop_sublist_drop_left _ (Nat.le_add_left 1 k)).subset hmem))
  have hname := h.indexed.laid.first_le y (List.mem_of_mem_drop hmem) e he
  have hlast := h.indexed.le_last (mem_entriesOf_recordsOf.mpr ⟨y, List.mem_of_mem_drop hmem, he⟩)
  obtain ⟨e', he', hidx⟩ := h.indexed.consecutive.exists_mem (i := compactTo + 1) (by omega) (by omega)
  -- and entry `compactTo + 1` can be neither in front of `y` nor behind it
  obtain ⟨x, hx, hxe⟩ := h.exists_segment he'
  rw [← List.take_append_drop (k + 1) log.toList] at hx
  rcases List.mem_append.mp hx with hx | hx
  · have := hcovered x ((List.take_sublist_take_left hlt).subset hx) e' hxe
    omega
  · have hfirst := h.indexed.laid.first_le x (List.mem_of_mem_drop hx) e' hxe
    have hasc := log.ascending
    rw [← List.take_append_drop (k + 1) log.toList, List.map_append, List.pairwise_append, hdrop, List.map_cons,
      List.pairwise_cons] at hasc
    rw [hdrop] at hx
    rcases List.mem_cons.mp hx with rfl | hx
    · omega
    · have := hasc.2.1.1 x.1 (List.mem_map_of_mem hx)
      omega

end Inv

/-! ## The in-memory log -/

/-- In an aligned store the base is the watermark. -/
theorem Inv.base_eq (h : Inv opts s log base) (ha : s.Aligned) : base = s.compactedTo := by
  have hlast := h.lastIndex_eq
  rw [ha.lastIndex_eq] at hlast
  omega

/-- A compaction releases the entries up to its new watermark, and its bounds. -/
theorem Inv.compact_watermark (h : Inv opts s log base) {compactTo : Nat} (hok : s.compact compactTo = .ok s')
    (htidy : CompactsTidily s (.compact compactTo)) :
    s'.entries = s.entries.filter (s'.compactedTo < ·.index.toNat) ∧ s.compactedTo ≤ s'.compactedTo ∧
      s'.compactedTo ≤ max s.compactedTo compactTo ∧ s'.compactedTo ≤ watermark s.snapshot := by
  have hmark := Nat.le_trans h.indexed.watermark_le h.base_le
  rcases compact_eq_ok hok with ⟨-, rfl⟩ | ⟨hlt, -, hsnap, hs'⟩
  · exact ⟨h.filter_watermark.symm, le_rfl, Nat.le_max_left _ _, hmark⟩
  · rcases hs' with ⟨-, rfl⟩ | ⟨hkeep, rfl⟩
    · obtain ⟨_, _, _, -, heq⟩ := compactWhole_eq h.indices_ascending h.getLast?_indices compactTo
      rw [heq]
      exact ⟨rfl, hlt.le, Nat.le_max_right _ _, hsnap⟩
    · obtain ⟨pre, post, journal, mark, hcov, heq, hnil, hcons⟩ :=
        compactWindow_eq h.indices_ascending h.getLast?_indices compactTo
      rw [heq]
      by_cases hpre : pre = []
      · rw [hnil hpre]
        exact ⟨rfl, le_rfl, Nat.le_max_left _ _, hmark⟩
      · obtain ⟨n, rest, rfl⟩ := List.exists_cons_of_ne_nil hcov.ne_nil
        have hle := hcov.head_le hpre n rfl
        have heff := hcons hpre n rfl
        have hmem : n ∈ s.dir.listSegmentIndices.tail := by
          obtain ⟨k, pre, rfl⟩ := List.exists_cons_of_ne_nil hpre
          rw [hcov.eq]
          exact List.mem_append_right _ List.mem_cons_self
        have hn := htidy hlt hkeep n hmem
        refine ⟨rfl, ?_, ?_, ?_⟩ <;> dsimp only <;> omega

/-- A compaction up to an index that the log reaches and the snapshot covers succeeds. -/
theorem WalStorage.compact_ok {compactTo : Nat} (hlast : compactTo ≤ s.lastIndex)
    (hsnap : compactTo ≤ watermark s.snapshot) : ∃ s', s.compact compactTo = .ok s' := by
  simp only [WalStorage.compact]
  split
  · exact ⟨_, rfl⟩
  · next hlt =>
      rw [if_neg (Nat.not_lt.mpr hlast)]
      cases hs : s.snapshot with
      | none =>
          rw [hs] at hsnap
          exact absurd (Nat.le_trans hsnap (Nat.zero_le _)) hlt
      | some snapshot =>
          rw [hs] at hsnap
          have hcovered : ¬ snapshot.metadata.index.toNat < compactTo := Nat.not_lt.mpr hsnap
          simp only [if_neg hcovered]
          split
          · exact ⟨_, rfl⟩
          · exact ⟨_, rfl⟩

namespace WalStorage.Aligned

/-- Appending keeps the watermark, and the log in memory goes on behind it. -/
theorem append (ha : s.Aligned) (h : Inv opts s log base) {es : List LogEntry} (hok : s.append es = .ok s') :
    s'.Aligned := by
  obtain ⟨log', h'⟩ := h.append hok
  have hcons := h'.indexed.consecutive
  obtain ⟨t, _, _, hloop, hstart, -⟩ := h.appendStart hok
  have hmark : t.compactedTo = s.compactedTo := by
    cases hstart with
    | asIs _ ht _ => rw [ht]
    | cut _ _ _ _ hmarks => exact hmarks.compactedTo_eq
  rwa [Aligned, (entries_of_appendAll hloop).2.compactedTo_eq, hmark, ← h.base_eq ha]

theorem compact (ha : s.Aligned) (h : Inv opts s log base) {compactTo : Nat} (hok : s.compact compactTo = .ok s')
    (htidy : CompactsTidily s (.compact compactTo)) : s'.Aligned := by
  obtain ⟨hent, hle, -, -⟩ := h.compact_watermark hok htidy
  have hcons := Consecutive.filter_gt ha s'.compactedTo
  rwa [← hent, show max (s.compactedTo + 1) (s'.compactedTo + 1) = s'.compactedTo + 1 by omega] at hcons

/-- A compaction leaves the end of the log. -/
theorem lastIndex_compact (ha : s.Aligned) (h : Inv opts s log base) {compactTo : Nat} (hok : s.compact compactTo = .ok s')
    (htidy : CompactsTidily s (.compact compactTo)) : s'.lastIndex = s.lastIndex := by
  obtain ⟨hent, hle, hmax, -⟩ := h.compact_watermark hok htidy
  have hlast := ha.lastIndex_eq
  have hto : s'.compactedTo ≤ s.lastIndex := by
    rcases compact_eq_ok hok with ⟨-, rfl⟩ | ⟨-, hreached, -, -⟩
    · omega
    · omega
  have hlength := Consecutive.length_filter_gt ha (m := s'.compactedTo) (by omega)
  rw [← hent] at hlength
  rw [(ha.compact h hok htidy).lastIndex_eq]
  omega

/-- One operation keeps the log aligned. -/
theorem exec (ha : s.Aligned) (h : Inv opts s log base) {op : Op} (htidy : CompactsTidily s op)
    (hok : op.exec opts s = .ok s') : s'.Aligned := by
  cases op with
  | append entries => exact ha.append h hok
  | compact compactTo => exact ha.compact h hok htidy
  | setHardState hs =>
      obtain rfl := Except.ok.inj hok
      exact ha
  | syncEntries =>
      obtain rfl := Except.ok.inj hok
      obtain ⟨_, _, _, hsync⟩ := s.syncEntries_eq
      rw [hsync]
      exact ha
  | saveConfState index confState =>
      obtain rfl := Except.ok.inj hok
      exact ha
  | saveSnapshot snapshot =>
      obtain rfl := Except.ok.inj hok
      obtain ⟨_, _, hsave⟩ := s.saveSnapshot_eq snapshot
      rw [hsave]
      exact ha
  | installSnapshot snapshot =>
      rcases installSnapshot_eq_ok hok with ⟨-, -, rfl⟩ | ⟨-, rfl⟩
      · exact ha
      · exact consecutive_nil _
  | setTrailingKeepBytes bytes =>
      obtain rfl := Except.ok.inj hok
      exact ha
  | reopen config => exact (aligned_of_openDir (Prod.ext rfl hok)).1

end WalStorage.Aligned

/-- **The in-memory log starts right behind the watermark**, as long as windows are applied to tidy stores only. -/
theorem WalRun.aligned {ops : List Op} (hrun : WalRun opts CompactsTidily ops s) : s.Aligned := by
  refine Transition.Run.invariant (P := fun _ s => s.Aligned) ?_ ?_ hrun
  · intro s hs
    exact (aligned_of_openDir (Prod.ext rfl hs)).1
  · rintro ops s op s' hrun ha ⟨htidy, hok⟩
    obtain ⟨log, base, h⟩ := WalRun.inv hrun
    exact ha.exec h htidy hok

/-! ## The segments that go -/

namespace Inv

/-- Compaction unlinks the oldest segments, and never the active one. -/
theorem compact_segments (h : Inv opts s log base) {compactTo : Nat} (hok : s.compact compactTo = .ok s') :
    ∃ k, s'.dir.segments.toList = s.dir.segments.toList.drop k ∧ k < s.dir.segments.toList.length ∧
      s.segmentFirstIndex ∈ s'.dir.listSegmentIndices ∧ (∀ e ∈ s'.entries, ∃ x ∈ s'.dir.log.toList, e ∈ entriesOf x.2) ∧
      (k ≠ 0 → ∀ x ∈ s.dir.log.toList.take k, ∀ e ∈ entriesOf x.2, e.index.toNat ≤ compactTo) := by
  obtain ⟨log', base', dropped, h', -, -, hlog, hcov, -⟩ := h.compact hok
  have hlen : log.toList.length = dropped.length + log'.toList.length := by rw [hlog, List.length_append]
  have hpos : 0 < log'.toList.length := List.length_pos_iff.mpr h'.toList_ne_nil
  have hdrop : log.toList.drop dropped.length = log'.toList := by rw [hlog, List.drop_left]
  refine ⟨dropped.length, ?_, ?_, ?_, ?_, ?_⟩
  · rw [h.segments_eq_map, h'.segments_eq_map, ← List.map_drop, hdrop]
  · rw [h.segments_eq_map, List.length_map]
    omega
  · have hlast := h.getLast?_indices
    rw [Dir.listSegmentIndices, h.stored.keys_eq, Assoc.keys, hlog, List.map_append,
      List.getLast?_append_of_ne_nil _ (by simpa using h'.toList_ne_nil)] at hlast
    rw [Dir.listSegmentIndices, h'.stored.keys_eq]
    exact List.mem_of_getLast? hlast
  · rw [h'.log_eq]
    exact fun e he => h'.exists_segment he
  · intro hk
    obtain ⟨y, rest, hy⟩ := List.exists_cons_of_ne_nil h'.toList_ne_nil
    have hle := (hcov fun hnil => hk (by rw [hnil]; rfl)).2 y.1 (by rw [Assoc.keys, hy]; rfl)
    rw [h.log_eq]
    exact h.le_of_mem_take (by rw [hdrop, hy]; rfl) hle

/-- **With a window, the longest run that could go is what goes.** -/
theorem compactWindow_longest (h : Inv opts s log base) {compactTo k : Nat} (hok : s.compact compactTo = .ok s')
    (hkeep : s.trailingKeepBytes ≠ 0) (hlt : s.compactedTo < compactTo) (hbase : base ≤ compactTo)
    (hk : s'.dir.segments.toList = s.dir.segments.toList.drop k) (hklt : k < s.dir.segments.toList.length) :
    (k ≠ 0 → s.trailingKeepBytes ≤ totalBytes (s.dir.segments.toList.drop k)) ∧
      ∀ j, s.Removable compactTo j → j ≤ k := by
  rcases compact_eq_ok hok with ⟨hle, -⟩ | ⟨-, -, -, ⟨hzero, -⟩ | ⟨-, rfl⟩⟩
  · exact absurd hlt (Nat.not_lt.mpr hle)
  · exact absurd hzero hkeep
  · obtain ⟨k', hstops, hk'⟩ :=
      @compactTrailing_stopsAt s _ rfl h.getLast?_indices [] (by simp) compactTo s.compactedTo
    have heq : k' = k := by
      have hlen := congrArg List.length (hk'.symm.trans hk)
      have hklt' := hstops.lt
      rw [List.length_drop, List.length_drop] at hlen
      omega
    subst heq
    exact ⟨hstops.covers, fun j hj => h.le_of_removable hbase hkeep hstops hj⟩

end Inv

/-- **Compaction drops nothing that is not covered.** The in-memory log is cut at a watermark between the old one and the
index asked for, and not beyond the snapshot; what is kept is in the remaining segments, and the active one is among them.
With a window, the segments that go are the longest run of oldest ones that are covered and leave the window's bytes. -/
theorem compact_releases_covered {ops : List Op} (hrun : WalRun opts CompactsTidily ops s) {compactTo : Nat}
    (htidy : CompactsTidily s (.compact compactTo)) (hok : s.compact compactTo = .ok s') :
    s'.entries = s.entries.filter (s'.compactedTo < ·.index.toNat) ∧ s.compactedTo ≤ s'.compactedTo ∧
      s'.compactedTo ≤ max s.compactedTo compactTo ∧ s'.compactedTo ≤ watermark s.snapshot ∧
      (∀ e ∈ s'.entries, ∃ x ∈ s'.dir.log.toList, e ∈ entriesOf x.2) ∧
      s.segmentFirstIndex ∈ s'.dir.listSegmentIndices ∧
      ∃ k, s'.dir.segments.toList = s.dir.segments.toList.drop k ∧
        (s.trailingKeepBytes ≠ 0 → s.compactedTo < compactTo →
          (k ≠ 0 → s.Removable compactTo k) ∧ ∀ j, s.Removable compactTo j → j ≤ k) := by
  obtain ⟨log, base, h⟩ := WalRun.inv hrun
  have hbase := h.base_eq hrun.aligned
  obtain ⟨hent, hle, hmax, hsnap⟩ := h.compact_watermark hok htidy
  obtain ⟨k, hk, hklt, hactive, hkept, hcov⟩ := h.compact_segments hok
  refine ⟨hent, hle, hmax, hsnap, hkept, hactive, k, hk, fun hkeep hlt => ?_⟩
  obtain ⟨hbytes, hlongest⟩ := h.compactWindow_longest hok hkeep hlt (by omega) hk hklt
  exact ⟨fun hne => ⟨hcov hne, hbytes hne⟩, hlongest⟩

/-- Six entries with a segment each, and a snapshot at 6. -/
def compactedRun : List Op :=
  [.append [sampleEntry 1 1, sampleEntry 2 1, sampleEntry 3 1, sampleEntry 4 1, sampleEntry 5 1, sampleEntry 6 1],
    .saveSnapshot (sampleSnapshot 6), .setTrailingKeepBytes 52]

theorem compact_releases_covered_compactedRun :
    ∃ s s', WalRun (sampleOptions 8) CompactsTidily compactedRun s ∧ s.compact 5 = .ok s' ∧
      s'.compactedTo = 4 ∧ s'.entries = [sampleEntry 5 1, sampleEntry 6 1] ∧
      s'.entries = s.entries.filter (s'.compactedTo < ·.index.toNat) := by
  have heval : (runOps (sampleOptions 8) CompactsTidily compactedRun).any (fun s =>
      s.Tidy ∧ (s.compact 5).toOption.any fun s' =>
        s'.compactedTo = 4 ∧ s'.entries = [sampleEntry 5 1, sampleEntry 6 1]) := by
    decide +kernel
  obtain ⟨s, hs, heval⟩ := (Option.any_eq_true _ _).mp heval
  obtain ⟨htidy, heval⟩ := of_decide_eq_true heval
  obtain ⟨s', hs', heval'⟩ := (Option.any_eq_true _ _).mp heval
  obtain ⟨hmark, hent⟩ := of_decide_eq_true heval'
  have hrun := WalRun.of_runOps hs
  have hok := toOption_eq_some.mp hs'
  exact ⟨s, s', hrun, hok, hmark, hent, (compact_releases_covered hrun (fun _ _ => htidy) hok).1⟩

/-- The same log, opened again with the snapshot at 4 before the second one is taken. -/
def untidyRun : List Op :=
  [.append [sampleEntry 1 1, sampleEntry 2 1, sampleEntry 3 1, sampleEntry 4 1, sampleEntry 5 1, sampleEntry 6 1],
    .saveSnapshot (sampleSnapshot 4), .reopen ⟨.always, 8⟩, .saveSnapshot (sampleSnapshot 6), .setTrailingKeepBytes 120]

/-- **A window lowers the watermark of a reopened store**: it drops one segment below the snapshot and then has the
watermark there, with only the entries above the snapshot in memory. -/
theorem compact_lowers_watermark :
    ∃ s s', WalRun (sampleOptions 8) (fun _ _ => True) untidyRun s ∧ s.compact 6 = .ok s' ∧
      s.compactedTo = 4 ∧ s'.compactedTo = 1 ∧ s'.firstIndex = 2 ∧ s'.entries = [sampleEntry 5 1, sampleEntry 6 1] := by
  have heval : (runOps (sampleOptions 8) (fun _ _ => True) untidyRun).any (fun s =>
      s.compactedTo = 4 ∧ (s.compact 6).toOption.any fun s' =>
        s'.compactedTo = 1 ∧ s'.firstIndex = 2 ∧ s'.entries = [sampleEntry 5 1, sampleEntry 6 1]) := by
    decide +kernel
  obtain ⟨s, hs, heval⟩ := (Option.any_eq_true _ _).mp heval
  obtain ⟨hmark, heval⟩ := of_decide_eq_true heval
  obtain ⟨s', hs', heval'⟩ := (Option.any_eq_true _ _).mp heval
  exact ⟨s, s', WalRun.of_runOps hs, toOption_eq_some.mp hs', hmark, of_decide_eq_true heval'⟩

end Arachne.Storage
