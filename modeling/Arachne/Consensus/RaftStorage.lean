import Arachne.Storage.Compaction

/-! # The store as raft sees it

The adapter between the WAL and raft: `entries` and `term`, with the errors raft is told. Both index the in-memory log by
position, counted from the watermark, and a position beyond its end is a panic (no result).

Raft asks two things of them. `entries` is to return at least one entry of a range that has any, however small the size
limit; `term` is to know the entry just before the first one. The store falls short of both: its cut-off loop may keep
nothing (`entries_returns_nothing`), and a watermark that a trailing window holds back is neither an entry nor the
snapshot (`term_unknown_at_watermark`). Where neither happens the answers are what raft expects. -/

namespace Arachne.Storage

open Codec (Bytes)

/-- `term`. A position that is not in memory panics. -/
def WalStorage.term (s : WalStorage) (index : Nat) : Option (Except StorageError UInt64) :=
  if index < s.firstIndex then
    match s.snapshot with
    | some snapshot =>
      if index = snapshot.metadata.index.toNat then some (.ok snapshot.metadata.term) else some (.error .compacted)
    | none => some (.error .compacted)
  else if index > s.lastIndex then some (.error .compacted)
  else (s.entries[index - s.firstIndex]?).map fun e => .ok e.term

/-- `entries`, where the slice `[start..end]` is within the in-memory log; otherwise it panics. -/
def WalStorage.entriesOrPanic (s : WalStorage) (low high : Nat) (maxSize : Option Nat) :
    Option (Except StorageError (List LogEntry)) :=
  if low < high ∧ s.firstIndex ≤ low ∧ high ≤ s.lastIndex + 1 ∧ s.entries.length < high - s.firstIndex then none
  else some (s.entriesIn low high maxSize)

end Arachne.Storage

namespace Arachne.Consensus

open Storage

/-- The storage errors of raft. -/
inductive RaftStorageError where
  | compacted
  | unavailable
  deriving DecidableEq, Repr

/-- `map_error`. -/
def mapError : StorageError → RaftStorageError
  | .compacted => .compacted
  | .corruption _ => .unavailable
  | .unrecoverable _ => .unavailable

namespace RaftStorage

/-- `entries` of the adapter. -/
def entries (inner : WalStorage) (low high : Nat) (maxSize : Option Nat) :
    Option (Except RaftStorageError (List LogEntry)) :=
  (inner.entriesOrPanic low high maxSize).map (·.mapError mapError)

/-- `term` of the adapter. Index 0 is the sentinel for "no entry". -/
def term (inner : WalStorage) (idx : Nat) : Option (Except RaftStorageError UInt64) :=
  if idx = 0 then some (.ok 0)
  else if idx > inner.lastIndex then some (.error .unavailable)
  else (inner.term idx).map (·.mapError mapError)

end RaftStorage

variable {opts : WalOptions} {s s' : WalStorage}

/-! ## Reading entries -/

/-- The entries a read of `[low, high)` asks for. -/
def requested (s : WalStorage) (low high : Nat) : List LogEntry :=
  s.entries.filter fun e => low ≤ e.index.toNat ∧ e.index.toNat < high

/-- What the size limit counts. -/
def payloadSize (es : List LogEntry) : Nat := (es.map (·.data.length)).sum

theorem payloadSize_keepWithin {limit size : Nat} (es : List LogEntry) (hle : size ≤ limit) :
    size + payloadSize (keepWithin limit size es) ≤ limit := by
  induction es generalizing size with
  | nil => exact hle
  | cons e es ih =>
      rw [keepWithin]
      split
      · exact hle
      · next hfits =>
          have htail := ih (Nat.not_lt.mp hfits)
          rw [payloadSize, List.map_cons, List.sum_cons, ← Nat.add_assoc]
          exact htail

/-- No longer initial part is within the limit. -/
theorem length_le_keepWithin {limit size : Nat} {p es : List LogEntry} (hp : p <+: es)
    (hsize : size + payloadSize p ≤ limit) : p.length ≤ (keepWithin limit size es).length := by
  induction es generalizing size p with
  | nil =>
      rw [List.prefix_nil.mp hp]
      exact Nat.zero_le _
  | cons e es ih =>
      cases p with
      | nil => exact Nat.zero_le _
      | cons e' p =>
          obtain ⟨rfl, hrest⟩ := List.cons_prefix_cons.mp hp
          rw [payloadSize, List.map_cons, List.sum_cons, ← Nat.add_assoc] at hsize
          have hfits : ¬ size + e'.data.length > limit := Nat.not_lt.mpr (Nat.le_trans (Nat.le_add_right _ _) hsize)
          rw [keepWithin, if_neg hfits]
          exact Nat.succ_le_succ (ih hrest hsize)

/-- In an aligned store the slice is what was asked for. -/
theorem slice_eq_requested (ha : s.Aligned) {low high : Nat} (hlow : s.firstIndex ≤ low) (hlt : low < high) :
    (s.entries.drop (low - s.firstIndex)).take (high - low) = requested s low high ∧
      Consecutive low (requested s low high) := by
  have hdrop := Consecutive.drop_eq_filter ha (low - s.firstIndex)
  have hcons := Consecutive.filter_gt ha (low - 1)
  rw [WalStorage.firstIndex] at hlow hdrop ⊢
  rw [show max (s.compactedTo + 1) (low - 1 + 1) = low by omega] at hcons
  have hsame : s.entries.filter (s.compactedTo + 1 + (low - (s.compactedTo + 1)) ≤ ·.index.toNat) =
      s.entries.filter (low - 1 < ·.index.toNat) := by
    refine List.filter_congr fun e _ => ?_
    rw [decide_eq_decide]
    omega
  have htake : (s.entries.filter (low - 1 < ·.index.toNat)).take (high - low) = requested s low high := by
    rw [hcons.take_eq_filter, List.filter_filter, requested]
    refine List.filter_congr fun e _ => ?_
    rw [← Bool.decide_and, decide_eq_decide]
    omega
  refine ⟨by rw [hdrop, hsame, htake], ?_⟩
  rw [← htake]
  exact hcons.take _

/-- In an aligned store a read within the log does not panic. -/
theorem entries_eq_of_aligned (ha : s.Aligned) {low high : Nat} (hlow : s.firstIndex ≤ low) (hlt : low < high)
    (hhigh : high ≤ s.lastIndex + 1) (maxSize : Option Nat) :
    RaftStorage.entries s low high maxSize =
      some (.ok (maxSize.elim (requested s low high) fun limit => keepWithin limit 0 (requested s low high))) := by
  have hlast := ha.lastIndex_eq
  have hwithin : ¬ (low < high ∧ s.firstIndex ≤ low ∧ high ≤ s.lastIndex + 1 ∧
      s.entries.length < high - s.firstIndex) := by
    rw [WalStorage.firstIndex]
    omega
  rw [RaftStorage.entries, WalStorage.entriesOrPanic, if_neg hwithin, WalStorage.entriesIn, if_neg (Nat.not_le_of_lt hlt),
    if_neg (Nat.not_lt_of_le hlow), if_neg (Nat.not_lt_of_le hhigh)]
  simp only [(slice_eq_requested ha hlow hlt).1]
  cases maxSize with
  | none => rfl
  | some limit => rfl

/-- The first entry asked for is there. -/
theorem exists_requested (ha : s.Aligned) {low high : Nat} (hlow : s.firstIndex ≤ low) (hlt : low < high)
    (hhigh : high ≤ s.lastIndex + 1) :
    ∃ e rest, requested s low high = e :: rest ∧ e ∈ s.entries ∧ e.index.toNat = low := by
  have hlast := ha.lastIndex_eq
  rw [WalStorage.firstIndex] at hlow
  obtain ⟨e, he, hidx⟩ := Consecutive.exists_mem ha (i := low) hlow (by omega)
  have hmem : e ∈ requested s low high := List.mem_filter.mpr ⟨he, by simpa [hidx] using hlt⟩
  obtain ⟨e', rest, hreq⟩ := List.exists_cons_of_ne_nil (List.ne_nil_of_mem hmem)
  have hcons := (slice_eq_requested ha hlow hlt).2
  rw [hreq, consecutive_cons] at hcons
  have hmem' : e' ∈ requested s low high := by rw [hreq]; exact List.mem_cons_self
  exact ⟨e', rest, hreq, (List.mem_filter.mp hmem').1, hcons.1⟩

/-- **A read returns at least one entry**, if the first one asked for is within the limit: the longest part from the front
that is. -/
theorem entries_returns_longest {ops : List Op} (hrun : WalRun opts CompactsTidily ops s) {low high : Nat}
    (hlow : s.firstIndex ≤ low) (hlt : low < high) (hhigh : high ≤ s.lastIndex + 1) {maxSize : Option Nat}
    (hfits : ∀ limit ∈ maxSize, ∀ e ∈ s.entries, e.index.toNat = low → e.data.length ≤ limit) :
    ∃ es, RaftStorage.entries s low high maxSize = some (.ok es) ∧ es ≠ [] ∧ Consecutive low es ∧
      es <+: requested s low high ∧ (∀ limit ∈ maxSize, payloadSize es ≤ limit) ∧
      ∀ p, p <+: requested s low high → (∀ limit ∈ maxSize, payloadSize p ≤ limit) → p.length ≤ es.length := by
  have ha := hrun.aligned
  have hcons := (slice_eq_requested ha hlow hlt).2
  obtain ⟨e, rest, hreq, he, hidx⟩ := exists_requested ha hlow hlt hhigh
  refine ⟨_, entries_eq_of_aligned ha hlow hlt hhigh maxSize, ?_⟩
  cases maxSize with
  | none =>
      refine ⟨?_, hcons, List.prefix_rfl, by simp, fun p hp _ => hp.length_le⟩
      show requested s low high ≠ []
      rw [hreq]
      exact List.cons_ne_nil _ _
  | some limit =>
      have hinitial := keepWithin_isInitial limit 0 (requested s low high)
      have hone : [e].length ≤ (keepWithin limit 0 (requested s low high)).length := by
        refine length_le_keepWithin ?_ ?_
        · rw [hreq]
          exact List.cons_prefix_cons.mpr ⟨rfl, List.nil_prefix⟩
        · simpa [payloadSize] using hfits limit rfl e he hidx
      refine ⟨List.length_pos_iff.mp hone, ?_, hinitial, ?_, ?_⟩
      · obtain ⟨tail, htail⟩ := hinitial
        rw [← htail, consecutive_append] at hcons
        exact hcons.1
      · intro limit' hlimit
        obtain rfl := Option.some.inj hlimit
        have hsize := payloadSize_keepWithin (requested s low high) (Nat.zero_le limit)
        rwa [Nat.zero_add] at hsize
      · intro p hp hsize
        exact length_le_keepWithin hp (by simpa using hsize limit rfl)

/-- Two entries of two bytes each. -/
def payloadRun : List Op := [.append [⟨1, 1, .entry, [7, 7]⟩, ⟨2, 1, .entry, [8, 8]⟩]]

theorem entries_returns_longest_payloadRun :
    ∃ s es, WalRun (sampleOptions 1024) CompactsTidily payloadRun s ∧
      RaftStorage.entries s 1 3 (some 3) = some (.ok es) ∧ es ≠ [] ∧ payloadSize es ≤ 3 := by
  have heval : (runOps (sampleOptions 1024) CompactsTidily payloadRun).any (fun s =>
      s.firstIndex ≤ 1 ∧ 3 ≤ s.lastIndex + 1 ∧ ∀ e ∈ s.entries, e.index.toNat = 1 → e.data.length ≤ 3) := by
    decide +kernel
  obtain ⟨s, hs, heval⟩ := (Option.any_eq_true _ _).mp heval
  obtain ⟨hlow, hhigh, hfits⟩ := of_decide_eq_true heval
  have hrun := WalRun.of_runOps hs
  have hlimit : ∀ limit ∈ some 3, ∀ e ∈ s.entries, e.index.toNat = 1 → e.data.length ≤ limit := by
    intro limit hmem
    obtain rfl := Option.some.inj hmem
    exact hfits
  obtain ⟨es, hread, hne, -, -, hsize, -⟩ := entries_returns_longest hrun hlow (by decide) hhigh hlimit
  exact ⟨s, es, hrun, hread, hne, hsize 3 rfl⟩

/-- **A read may return nothing, or not return.** An entry beyond the limit is not returned at all; and once a window has
lowered the watermark, a read from the first index slices beyond the end of the in-memory log. -/
theorem entries_returns_nothing :
    (∃ s, WalRun (sampleOptions 1024) CompactsTidily payloadRun s ∧ s.firstIndex = 1 ∧ s.lastIndex = 2 ∧
      RaftStorage.entries s 1 3 (some 1) = some (.ok [])) ∧
    ∃ s, WalRun (sampleOptions 8) (fun _ _ => True) (untidyRun ++ [.compact 6]) s ∧ s.firstIndex = 2 ∧ s.lastIndex = 6 ∧
      RaftStorage.entries s 2 4 none = some (.ok [sampleEntry 5 1, sampleEntry 6 1]) ∧
      RaftStorage.entries s 2 7 none = none := by
  constructor
  · have heval : (runOps (sampleOptions 1024) CompactsTidily payloadRun).any (fun s =>
        s.firstIndex = 1 ∧ s.lastIndex = 2 ∧ RaftStorage.entries s 1 3 (some 1) = some (.ok [])) := by
      decide +kernel
    obtain ⟨s, hs, heval⟩ := (Option.any_eq_true _ _).mp heval
    exact ⟨s, WalRun.of_runOps hs, of_decide_eq_true heval⟩
  · have heval : (runOps (sampleOptions 8) (fun _ _ => True) (untidyRun ++ [.compact 6])).any (fun s =>
        s.firstIndex = 2 ∧ s.lastIndex = 6 ∧
          RaftStorage.entries s 2 4 none = some (.ok [sampleEntry 5 1, sampleEntry 6 1]) ∧
          RaftStorage.entries s 2 7 none = none) := by
      decide +kernel
    obtain ⟨s, hs, heval⟩ := (Option.any_eq_true _ _).mp heval
    exact ⟨s, WalRun.of_runOps hs, of_decide_eq_true heval⟩

/-! ## Terms

What the answers are measured against is the run itself: the term an entry was last appended with, and the snapshots that
were saved or installed. -/

def appended : Op → List LogEntry
  | .append entries => entries
  | _ => []

def snapshotOf : Op → Option Snapshot
  | .saveSnapshot snapshot => some snapshot
  | .installSnapshot snapshot => some snapshot
  | _ => none

/-- The term of the last of the entries with index `i`. -/
def lastTerm (i : Nat) (es : List LogEntry) : Option UInt64 :=
  (es.filter (·.index.toNat = i)).getLast?.map (·.term)

/-- The term with which entry `i` was last written. -/
def lastWritten (ops : List Op) (i : Nat) : Option UInt64 := lastTerm i (ops.flatMap appended)

theorem lastTerm_append (i : Nat) (xs ys : List LogEntry) :
    lastTerm i (xs ++ ys) = (lastTerm i ys).or (lastTerm i xs) := by
  rw [lastTerm, List.filter_append, List.getLast?_append, Option.map_or, lastTerm, lastTerm]

theorem lastWritten_snoc (ops : List Op) (op : Op) (i : Nat) :
    lastWritten (ops ++ [op]) i = (lastTerm i (appended op)).or (lastWritten ops i) := by
  rw [lastWritten, List.flatMap_append, lastTerm_append, List.flatMap_singleton]
  rfl

theorem lastTerm_eq_none {i : Nat} {es : List LogEntry} (h : ∀ e ∈ es, e.index.toNat ≠ i) : lastTerm i es = none := by
  rw [lastTerm, List.filter_eq_nil_iff.mpr (by simpa using h)]
  rfl

/-- Consecutive entries have an index only once. -/
theorem lastTerm_of_mem {n : Nat} {es : List LogEntry} (hcons : Consecutive n es) {e : LogEntry} (he : e ∈ es) :
    lastTerm e.index.toNat es = some e.term := by
  obtain ⟨xs, ys, rfl⟩ := List.append_of_mem he
  have hlt := (List.pairwise_append.mp hcons.pairwise).2.1
  rw [List.pairwise_cons] at hlt
  rw [lastTerm_append, ← List.singleton_append, lastTerm_append,
    lastTerm_eq_none fun e' he' => (Nat.ne_of_lt (hlt.1 e' he')).symm, Option.none_or]
  simp [lastTerm]

/-- What the store holds is what the run wrote last. -/
structure Dated (ops : List Op) (s : WalStorage) : Prop where
  written : ∀ e ∈ s.entries, lastWritten ops e.index.toNat = some e.term
  covered : ∀ snapshot ∈ s.snapshot, snapshot ∈ ops.filterMap snapshotOf

namespace Dated

variable {ops : List Op} {log : Log} {base : Nat}

/-- Operations that append nothing. -/
theorem of_subset (h : Dated ops s) {op : Op} (hop : appended op = []) (hent : s'.entries ⊆ s.entries)
    (hsnap : ∀ snapshot ∈ s'.snapshot, snapshot ∈ s.snapshot ∨ snapshotOf op = some snapshot) : Dated (ops ++ [op]) s' where
  written := by
    intro e he
    rw [lastWritten_snoc, hop]
    exact h.written e (hent he)
  covered := by
    intro snapshot hmem
    rw [List.filterMap_append, List.mem_append]
    rcases hsnap snapshot hmem with hold | hnew
    · exact .inl (h.covered snapshot hold)
    · exact .inr (List.mem_filterMap.mpr ⟨op, List.mem_singleton_self _, hnew⟩)

theorem append (h : Dated ops s) (hinv : Inv opts s log base) {es : List LogEntry} (hok : s.append es = .ok s') :
    Dated (ops ++ [.append es]) s' := by
  obtain ⟨t, log₁, h₁, hloop, hstart, -⟩ := hinv.appendStart hok
  obtain ⟨hent, hmarks⟩ := WalStorage.entries_of_appendAll hloop
  obtain ⟨log', h', -⟩ := h₁.appendAll hloop
  have hkept : t.entries ⊆ s.entries ∧ t.snapshot = s.snapshot := by
    cases hstart with
    | asIs _ ht _ => rw [ht]; exact ⟨List.Subset.refl _, rfl⟩
    | cut first _ _ ht hmarks =>
        rw [ht]
        exact ⟨(List.take_sublist _ _).subset, hmarks.snapshot_eq⟩
  have hcons := h'.indexed.consecutive
  rw [hent, consecutive_append] at hcons
  constructor
  · intro e he
    rw [lastWritten_snoc]
    show (lastTerm _ es).or _ = _
    rw [hent, List.mem_append] at he
    rcases he with he | he
    · -- what is kept lies below what is written
      have hlt := (hcons.1.index_bounds he).2
      rw [lastTerm_eq_none fun e' he' => ?_, Option.none_or]
      · exact h.written e (hkept.1 he)
      · have := (hcons.2.index_bounds he').1
        omega
    · rw [lastTerm_of_mem hcons.2 he, Option.some_or]
  · intro snapshot hmem
    rw [hmarks.snapshot_eq, hkept.2] at hmem
    rw [List.filterMap_append]
    exact List.mem_append_left _ (h.covered snapshot hmem)

theorem saveSnapshot (h : Dated ops s) (snapshot : Snapshot) : Dated (ops ++ [.saveSnapshot snapshot]) (s.saveSnapshot snapshot) := by
  obtain ⟨_, _, hsave⟩ := s.saveSnapshot_eq snapshot
  rw [hsave]
  refine h.of_subset rfl (List.Subset.refl _) fun snap hmem => ?_
  dsimp only at hmem
  split_ifs at hmem
  · exact .inl hmem
  · exact .inr hmem

theorem installSnapshot (h : Dated ops s) {snapshot : Snapshot} (hok : s.installSnapshot snapshot = .ok s') :
    Dated (ops ++ [.installSnapshot snapshot]) s' := by
  rcases WalStorage.installSnapshot_eq_ok hok with ⟨-, -, rfl⟩ | ⟨-, rfl⟩
  · exact h.of_subset rfl (List.Subset.refl _) fun _ hmem => .inl hmem
  · refine h.of_subset rfl (List.nil_subset _) fun snap hmem => ?_
    dsimp only at hmem
    split_ifs at hmem
    · exact .inl hmem
    · exact .inr hmem

theorem compact (h : Dated ops s) (hinv : Inv opts s log base) {compactTo : Nat} (hok : s.compact compactTo = .ok s') :
    Dated (ops ++ [.compact compactTo]) s' := by
  refine h.of_subset rfl ?_ fun snap hmem => .inl ?_
  · rcases WalStorage.compact_eq_ok hok with ⟨-, rfl⟩ | ⟨-, -, -, ⟨-, rfl⟩ | ⟨-, rfl⟩⟩
    · exact List.Subset.refl _
    · obtain ⟨_, _, _, -, heq⟩ := WalStorage.compactWhole_eq hinv.indices_ascending hinv.getLast?_indices compactTo
      rw [heq]
      exact List.filter_subset_self _
    · obtain ⟨_, _, _, _, -, heq, -, -⟩ := WalStorage.compactWindow_eq hinv.indices_ascending hinv.getLast?_indices compactTo
      rw [heq]
      exact List.filter_subset_self _
  · rwa [(Framed.compact hok).snapshot_eq] at hmem

theorem reopen (h : Dated ops s) (hinv : Inv opts s log base) {config : WalConfig} {t : WalStorage}
    (hok : (WalStorage.openDir s.dir { opts with config }).2 = .ok t) : Dated (ops ++ [.reopen config]) t := by
  obtain ⟨-, -, -, hent, -, -⟩ := hinv.reopen hok
  refine h.of_subset rfl ?_ fun snap hmem => .inl ?_
  · -- what is read back lies above the snapshot, and with it above the base
    have hbase := hinv.base_le
    intro e he
    rw [hent] at he
    obtain ⟨he, habove⟩ := List.mem_filter.mp he
    rw [hinv.indexed.entries_eq]
    refine List.mem_filter.mpr ⟨he, ?_⟩
    simp only [decide_eq_true_eq] at habove ⊢
    omega
  · have hfrom := WalStorage.openedFrom hok
    rw [hfrom.snapshot_eq, hfrom.metaRecord_eq _ hinv.snapped.metaFile_eq, WalStorage.loadSnapshot] at hmem
    split_ifs at hmem with hzero
    · cases hmem
    · rwa [hinv.snapped.loaded hzero] at hmem

/-- One operation. -/
theorem exec (h : Dated ops s) (hinv : Inv opts s log base) {op : Op} (hok : op.exec opts s = .ok s') :
    Dated (ops ++ [op]) s' := by
  cases op with
  | append entries => exact h.append hinv hok
  | setHardState hs =>
      obtain rfl := Except.ok.inj hok
      exact h.of_subset rfl (List.Subset.refl _) fun _ hmem => .inl hmem
  | syncEntries =>
      obtain rfl := Except.ok.inj hok
      obtain ⟨_, _, _, hsync⟩ := s.syncEntries_eq
      rw [hsync]
      exact h.of_subset rfl (List.Subset.refl _) fun _ hmem => .inl hmem
  | saveConfState index confState =>
      obtain rfl := Except.ok.inj hok
      exact h.of_subset rfl (List.Subset.refl _) fun _ hmem => .inl hmem
  | saveSnapshot snapshot =>
      obtain rfl := Except.ok.inj hok
      exact h.saveSnapshot snapshot
  | installSnapshot snapshot => exact h.installSnapshot hok
  | compact compactTo => exact h.compact hinv hok
  | setTrailingKeepBytes bytes =>
      obtain rfl := Except.ok.inj hok
      exact h.of_subset rfl (List.Subset.refl _) fun _ hmem => .inl hmem
  | reopen config => exact h.reopen hinv hok

end Dated

theorem dated_of_run {ok : WalStorage → Op → Prop} {ops : List Op} (hrun : WalRun opts ok ops s) : Dated ops s := by
  refine Transition.Run.invariant (P := fun ops s => Dated ops s) ?_ ?_ hrun
  · intro s hs
    obtain ⟨_, _, _, hent, _⟩ := Inv.fresh hs
    obtain rfl := Except.ok.inj hs
    exact ⟨fun e he => absurd he List.not_mem_nil, fun _ hmem => by cases hmem⟩
  · rintro ops s op s' hrun h ⟨-, hok⟩
    obtain ⟨log, base, hinv⟩ := WalRun.inv hrun
    exact h.exec hinv hok

/-- In an aligned store every entry's term is known. -/
theorem term_of_mem (ha : s.Aligned) {e : LogEntry} (he : e ∈ s.entries) :
    RaftStorage.term s e.index.toNat = some (.ok e.term) := by
  have hlast := ha.lastIndex_eq
  obtain ⟨hle, hlt⟩ := Consecutive.index_bounds ha he
  have hpos : e.index.toNat ≠ 0 := by omega
  have hwithin : ¬ e.index.toNat > s.lastIndex := by omega
  rw [RaftStorage.term, if_neg hpos, if_neg hwithin, WalStorage.term, WalStorage.firstIndex, if_neg (Nat.not_lt.mpr hle),
    if_neg hwithin, Consecutive.getElem?_of_mem ha he]
  rfl

/-- The term at the watermark is the snapshot's, if that is where the snapshot is. -/
theorem term_at_snapshot {snapshot : Snapshot} (hsnap : s.snapshot = some snapshot)
    (hidx : snapshot.metadata.index.toNat = s.compactedTo) (hpos : s.compactedTo ≠ 0) (hle : s.compactedTo ≤ s.lastIndex) :
    RaftStorage.term s s.compactedTo = some (.ok snapshot.metadata.term) := by
  rw [RaftStorage.term, if_neg hpos, if_neg (Nat.not_lt.mpr hle), WalStorage.term, WalStorage.firstIndex,
    if_pos (Nat.lt_succ_self _), hsnap]
  simp only [hidx, if_true]
  rfl

/-- **The terms raft may ask for are known**, from the entry before the first one on, if the watermark is 0 or where the
snapshot is: an entry has the term it was last written with, and the one at the watermark that of its snapshot. -/
theorem term_known {ops : List Op} (hrun : WalRun opts CompactsTidily ops s)
    (hmark : s.compactedTo = 0 ∨ ∃ snapshot ∈ s.snapshot, snapshot.metadata.index.toNat = s.compactedTo) {i : Nat}
    (hlow : s.firstIndex - 1 ≤ i) (hhigh : i ≤ s.lastIndex) :
    ∃ t, RaftStorage.term s i = some (.ok t) ∧ (i = 0 → t = 0) ∧ (s.compactedTo < i → lastWritten ops i = some t) ∧
      (i = s.compactedTo → i ≠ 0 → ∃ snapshot ∈ ops.filterMap snapshotOf,
        snapshot.metadata.index.toNat = i ∧ snapshot.metadata.term = t) := by
  have ha := hrun.aligned
  have hdated := dated_of_run hrun
  have hlast := ha.lastIndex_eq
  rw [WalStorage.firstIndex, Nat.add_sub_cancel] at hlow
  by_cases hzero : i = 0
  · subst hzero
    exact ⟨0, rfl, fun _ => rfl, fun h => absurd h (Nat.not_lt_zero _), fun _ h => absurd rfl h⟩
  · rcases Nat.eq_or_lt_of_le hlow with rfl | hlt
    · obtain ⟨snapshot, hsnap, hidx⟩ := hmark.resolve_left hzero
      refine ⟨snapshot.metadata.term, term_at_snapshot hsnap hidx hzero hhigh, fun h => absurd h hzero,
        fun h => absurd h (Nat.lt_irrefl _), fun _ _ => ⟨snapshot, hdated.covered snapshot hsnap, hidx, rfl⟩⟩
    · obtain ⟨e, he, rfl⟩ := Consecutive.exists_mem ha (i := i) hlt (by omega)
      refine ⟨e.term, term_of_mem ha he, fun h => absurd h hzero, fun _ => hdated.written e he, fun h => ?_⟩
      omega

/-- Entry 2 overwritten, then a snapshot at 2 and the log compacted up to it. -/
def boundaryRun : List Op :=
  [.append [sampleEntry 1 1, sampleEntry 2 1], .append [sampleEntry 2 2, sampleEntry 3 2],
    .saveSnapshot ⟨⟨2, 2, ⟨[1], []⟩⟩, []⟩, .compact 2]

theorem term_known_boundaryRun :
    ∃ s t t', WalRun (sampleOptions 8) CompactsTidily boundaryRun s ∧ s.compactedTo = 2 ∧
      RaftStorage.term s 2 = some (.ok t) ∧ RaftStorage.term s 3 = some (.ok t') ∧ lastWritten boundaryRun 3 = some t' := by
  have heval : (runOps (sampleOptions 8) CompactsTidily boundaryRun).any (fun s =>
      s.compactedTo = 2 ∧ s.snapshot = some ⟨⟨2, 2, ⟨[1], []⟩⟩, []⟩ ∧ s.lastIndex = 3) := by
    decide +kernel
  obtain ⟨s, hs, heval⟩ := (Option.any_eq_true _ _).mp heval
  obtain ⟨hto, hsnap, hlast⟩ := of_decide_eq_true heval
  have hrun := WalRun.of_runOps hs
  have hmark : s.compactedTo = 0 ∨ ∃ snapshot ∈ s.snapshot, snapshot.metadata.index.toNat = s.compactedTo :=
    .inr ⟨_, hsnap, hto.symm⟩
  have hfirst : s.firstIndex - 1 = 2 := hto
  obtain ⟨t, ht, -, -, -⟩ := term_known hrun hmark (i := 2) (by omega) (by omega)
  obtain ⟨t', ht', -, hwritten, -⟩ := term_known hrun hmark (i := 3) (by omega) (by omega)
  exact ⟨s, t, t', hrun, hto, ht, ht', hwritten (by omega)⟩

/-- **A trailing window leaves the term at the watermark unknown**: the entry is gone, and the snapshot is elsewhere. After
a window has lowered the watermark, the position of an index may even be beyond the end of the in-memory log. -/
theorem term_unknown_at_watermark :
    (∃ s, WalRun (sampleOptions 8) CompactsTidily (compactedRun ++ [.compact 5]) s ∧ s.firstIndex - 1 = 4 ∧
      s.lastIndex = 6 ∧ RaftStorage.term s 4 = some (.error .compacted)) ∧
    ∃ s, WalRun (sampleOptions 8) (fun _ _ => True) (untidyRun ++ [.compact 6]) s ∧ s.firstIndex = 2 ∧ s.lastIndex = 6 ∧
      RaftStorage.term s 4 = none := by
  constructor
  · have heval : (runOps (sampleOptions 8) CompactsTidily (compactedRun ++ [.compact 5])).any (fun s =>
        s.firstIndex - 1 = 4 ∧ s.lastIndex = 6 ∧ RaftStorage.term s 4 = some (.error .compacted)) := by
      decide +kernel
    obtain ⟨s, hs, heval⟩ := (Option.any_eq_true _ _).mp heval
    exact ⟨s, WalRun.of_runOps hs, of_decide_eq_true heval⟩
  · have heval : (runOps (sampleOptions 8) (fun _ _ => True) (untidyRun ++ [.compact 6])).any (fun s =>
        s.firstIndex = 2 ∧ s.lastIndex = 6 ∧ RaftStorage.term s 4 = none) := by
      decide +kernel
    obtain ⟨s, hs, heval⟩ := (Option.any_eq_true _ _).mp heval
    exact ⟨s, WalRun.of_runOps hs, of_decide_eq_true heval⟩

end Arachne.Consensus
