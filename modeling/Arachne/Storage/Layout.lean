import Arachne.Storage.Log
import Arachne.Storage.Consecutive

/-! # How the log is laid out over segments

The abstract side of the store's invariant. `Laid` says where entries may stand: an entry is never in a
segment named above it, never at or beyond the name of a later segment, indices increase along the
records, and every segment but the first was started for an entry it still holds. `Indexed log entries compactedTo base` ties the in-memory log to the physical one: above some
`base` at or beyond the watermark the physical entries are consecutive, and those are the in-memory ones.

Each way the store changes its log keeps `Indexed`: writing a record, starting a segment with an entry, cutting
after an entry, starting over, dropping old segments. -/

namespace Arachne.Storage

variable {log : Log} {entries : List LogEntry} {compactedTo base : Nat}

/-! ## Entries within segments -/

theorem recordsOf_append (xs ys : List (Nat × List Record)) :
    recordsOf (xs ++ ys) = recordsOf xs ++ recordsOf ys := List.flatMap_append

@[simp] theorem recordsOf_cons (x : Nat × List Record) (xs : List (Nat × List Record)) :
    recordsOf (x :: xs) = x.2 ++ recordsOf xs := rfl

@[simp] theorem recordsOf_nil : recordsOf [] = [] := rfl

theorem mem_entriesOf_recordsOf {segs : List (Nat × List Record)} {e : LogEntry} :
    e ∈ entriesOf (recordsOf segs) ↔ ∃ x ∈ segs, e ∈ entriesOf x.2 := by
  induction segs with
  | nil => simp
  | cons x segs ih => simp [ih]

/-- Where entries may stand in the segments. -/
structure Laid (segs : List (Nat × List Record)) : Prop where
  first_le : ∀ x ∈ segs, ∀ e ∈ entriesOf x.2, x.1 ≤ e.index.toNat
  lt_next : segs.Pairwise fun x y => ∀ e ∈ entriesOf x.2, e.index.toNat < y.1
  sorted : (entriesOf (recordsOf segs)).Pairwise (·.index.toNat < ·.index.toNat)
  filled : ∀ x ∈ segs.tail, entriesOf x.2 ≠ []

namespace Laid

variable {pre post : List (Nat × List Record)} {n : Nat} {xs ys : List Record}

theorem mem_tail_snoc {x y : Nat × List Record} :
    x ∈ (pre ++ [y]).tail ↔ x ∈ pre.tail ∨ pre ≠ [] ∧ x = y := by
  cases pre with
  | nil => simp
  | cons z pre => simp

theorem mem_tail_append_left {x : Nat × List Record} (hx : x ∈ pre.tail) : x ∈ (pre ++ post).tail := by
  cases pre with
  | nil => simp at hx
  | cons z pre => exact List.mem_append_left _ hx

theorem mem_tail_append_right {x : Nat × List Record} (hx : x ∈ post.tail) : x ∈ (pre ++ post).tail := by
  cases pre with
  | nil => exact hx
  | cons z pre => exact List.mem_append_right _ (List.mem_of_mem_tail hx)

/-- Dropping old segments. -/
theorem of_append (h : Laid (pre ++ post)) : Laid post where
  first_le := fun x hx => h.first_le x (List.mem_append_right _ hx)
  lt_next := (List.pairwise_append.mp h.lt_next).2.1
  sorted := by
    have hs := h.sorted
    rw [recordsOf_append, entriesOf_append] at hs
    exact (List.pairwise_append.mp hs).2.1
  filled := fun x hx => h.filled x (mem_tail_append_right hx)

/-- What the last segment holds has no part in the names. -/
theorem lt_next_last (h : Laid (pre ++ (n, xs) :: post)) (ys : List Record) :
    (pre ++ [(n, ys)]).Pairwise fun x y => ∀ e ∈ entriesOf x.2, e.index.toNat < y.1 := by
  have hp := List.pairwise_append.mp h.lt_next
  refine List.pairwise_append.mpr ⟨hp.1, List.pairwise_singleton _ _, ?_⟩
  intro x hx y hy
  rw [List.mem_singleton] at hy
  subst hy
  exact hp.2.2 x hx (n, xs) List.mem_cons_self

/-- Cutting the tail of a segment behind an entry and dropping the later ones. -/
theorem cut (h : Laid (pre ++ (n, xs ++ ys) :: post)) (hxs : entriesOf xs ≠ []) : Laid (pre ++ [(n, xs)]) where
  first_le := by
    intro x hx e he
    rcases List.mem_append.mp hx with hx | hx
    · exact h.first_le x (List.mem_append_left _ hx) e he
    · rw [List.mem_singleton] at hx
      subst hx
      exact h.first_le (n, xs ++ ys) (by simp) e (by simp [he])
  lt_next := h.lt_next_last xs
  sorted := by
    have hs := h.sorted
    have hrec : recordsOf (pre ++ (n, xs ++ ys) :: post) =
        recordsOf (pre ++ [(n, xs)]) ++ (ys ++ recordsOf post) := by simp [recordsOf_append]
    rw [hrec, entriesOf_append] at hs
    exact (List.pairwise_append.mp hs).1
  filled := by
    intro x hx
    rcases mem_tail_snoc.mp hx with hx | ⟨-, rfl⟩
    · exact h.filled x (mem_tail_append_left hx)
    · exact hxs

/-- Starting a new last segment with an entry beyond every other. -/
theorem snoc (h : Laid pre) {e : LogEntry} (he : n = e.index.toNat)
    (hn : ∀ e' ∈ entriesOf (recordsOf pre), e'.index.toNat < n) : Laid (pre ++ [(n, [.entry e])]) where
  first_le := by
    intro x hx e' he'
    rcases List.mem_append.mp hx with hx | hx
    · exact h.first_le x hx e' he'
    · rw [List.mem_singleton] at hx
      subst hx
      obtain rfl : e' = e := by simpa using he'
      exact he.le
  lt_next := by
    refine List.pairwise_append.mpr ⟨h.lt_next, List.pairwise_singleton _ _, ?_⟩
    intro x hx y hy e he
    rw [List.mem_singleton] at hy
    subst hy
    exact hn e (mem_entriesOf_recordsOf.mpr ⟨x, hx, he⟩)
  sorted := by
    rw [recordsOf_append, entriesOf_append]
    refine List.pairwise_append.mpr ⟨h.sorted, by simp, ?_⟩
    intro e₁ he₁ e₂ he₂
    obtain rfl : e₂ = e := by simpa using he₂
    exact he ▸ hn e₁ he₁
  filled := by
    intro x hx
    rcases mem_tail_snoc.mp hx with hx | ⟨-, rfl⟩
    · exact h.filled x hx
    · simp

/-- Writing a record to the last segment: an entry goes beyond all others. -/
theorem write (h : Laid (pre ++ [(n, xs)])) {r : Record}
    (hr : ∀ e ∈ r.entry?, n ≤ e.index.toNat ∧
      ∀ e' ∈ entriesOf (recordsOf (pre ++ [(n, xs)])), e'.index.toNat < e.index.toNat) :
    Laid (pre ++ [(n, xs ++ [r])]) where
  first_le := by
    intro x hx e he
    rcases List.mem_append.mp hx with hx | hx
    · exact h.first_le x (List.mem_append_left _ hx) e he
    · rw [List.mem_singleton] at hx
      subst hx
      rw [entriesOf_append, List.mem_append] at he
      rcases he with he | he
      · exact h.first_le (n, xs) (by simp) e he
      · exact (hr e (by simpa [entriesOf] using he)).1
  lt_next := h.lt_next_last (xs ++ [r])
  sorted := by
    have hrec : entriesOf (recordsOf (pre ++ [(n, xs ++ [r])])) =
        entriesOf (recordsOf (pre ++ [(n, xs)])) ++ entriesOf [r] := by simp [recordsOf_append]
    rw [hrec]
    refine List.pairwise_append.mpr ⟨h.sorted, ?_, ?_⟩
    · cases r <;> simp
    · intro e' he' e he
      exact (hr e (by simpa [entriesOf] using he)).2 e' he'
  filled := by
    intro x hx
    rcases mem_tail_snoc.mp hx with hx | ⟨hpre, rfl⟩
    · exact h.filled x (mem_tail_append_left hx)
    · have hne := h.filled (n, xs) (mem_tail_snoc.mpr (.inr ⟨hpre, rfl⟩))
      simp [hne]

/-- Behind the first segment, every segment's name is at most the index of an entry it holds. -/
theorem exists_le (h : Laid (pre ++ post)) (hpre : pre ≠ []) {x : Nat × List Record} (hx : x ∈ post) :
    ∃ e ∈ entriesOf (recordsOf post), x.1 ≤ e.index.toNat := by
  have htail : x ∈ (pre ++ post).tail := by
    obtain ⟨y, pre', rfl⟩ := List.exists_cons_of_ne_nil hpre
    exact List.mem_append_right _ hx
  obtain ⟨e, es, hes⟩ := List.exists_cons_of_ne_nil (h.filled x htail)
  have he : e ∈ entriesOf x.2 := by rw [hes]; exact List.mem_cons_self
  exact ⟨e, mem_entriesOf_recordsOf.mpr ⟨x, hx, he⟩, h.first_le x (List.mem_append_right _ hx) e he⟩

end Laid

/-! ## The in-memory log and the physical one -/

/-- The in-memory `entries` of a store with watermark `compactedTo` against its log: they are the
physical entries above `base`. The base is the watermark itself except when a compaction with a
trailing window has moved the watermark below what the store had dropped. -/
structure Indexed (log : Log) (entries : List LogEntry) (compactedTo base : Nat) : Prop where
  laid : Laid log.toList
  keys_pos : ∀ n ∈ log.keys, 1 ≤ n
  keys_le : ∀ n ∈ log.keys, n ≤ base + entries.length + 1
  entries_eq : entries = log.entries.filter (base < ·.index.toNat)
  consecutive : Consecutive (base + 1) entries
  watermark_le : compactedTo ≤ base
  base_of_nil : entries = [] → base = compactedTo
  base_of_zero : compactedTo = 0 → base = 0

namespace Indexed

theorem lastIndex_eq (h : Indexed log entries compactedTo base) :
    (lastEntryIndex? entries).getD compactedTo = base + entries.length := by
  rw [h.consecutive.lastEntryIndex?]
  split_ifs with hnil
  · have := h.base_of_nil hnil
    simp [hnil, this]
  · have : 0 < entries.length := List.length_pos_iff.mpr hnil
    simp only [Option.getD_some]
    omega

/-- No physical entry is beyond the last index. -/
theorem le_last (h : Indexed log entries compactedTo base) {e : LogEntry} (he : e ∈ log.entries) :
    e.index.toNat ≤ base + entries.length := by
  by_cases hb : base < e.index.toNat
  · have hmem : e ∈ entries := by
      rw [h.entries_eq]
      exact List.mem_filter.mpr ⟨he, by simpa using hb⟩
    have := (h.consecutive.index_bounds hmem).2
    omega
  · omega

theorem pos_of_mem (h : Indexed log entries compactedTo base) {e : LogEntry} (he : e ∈ log.entries) :
    0 < e.index.toNat := by
  obtain ⟨x, hx, he⟩ := mem_entriesOf_recordsOf.mp he
  exact Nat.lt_of_lt_of_le (h.keys_pos x.1 (List.mem_map_of_mem hx)) (h.laid.first_le x hx e he)

/-- Writing a hard state. -/
theorem writeHardState (h : Indexed log entries compactedTo base) {log' : Log}
    {pre : List (Nat × List Record)} {n : Nat} {xs : List Record} {hs : HardState}
    (hlog : log.toList = pre ++ [(n, xs)])
    (hlog' : log'.toList = pre ++ [(n, xs ++ [.hardState hs])]) :
    Indexed log' entries compactedTo base := by
  have hkeys : log'.keys = log.keys := by rw [Assoc.keys, Assoc.keys, hlog, hlog']; simp
  have hent : log'.entries = log.entries := by
    simp [Log.entries, Log.records, hlog, hlog', recordsOf_append]
  refine { h with laid := ?_, keys_pos := ?_, keys_le := ?_, entries_eq := ?_ }
  · rw [hlog']
    exact (hlog ▸ h.laid).write (by simp [Record.entry?])
  · rw [hkeys]; exact h.keys_pos
  · rw [hkeys]; exact h.keys_le
  · rw [hent]; exact h.entries_eq

theorem entries_eq_snoc (h : Indexed log entries compactedTo base) {log' : Log} {e : LogEntry}
    (he : e.index.toNat = base + entries.length + 1) (hent : log'.entries = log.entries ++ [e]) :
    entries ++ [e] = log'.entries.filter (base < ·.index.toNat) := by
  have habove : base < e.index.toNat := by omega
  rw [hent, List.filter_append, ← h.entries_eq, List.filter_cons_of_pos (by simpa using habove),
    List.filter_nil]

theorem consecutive_snoc (h : Indexed log entries compactedTo base) {e : LogEntry}
    (he : e.index.toNat = base + entries.length + 1) : Consecutive (base + 1) (entries ++ [e]) := by
  rw [consecutive_append, consecutive_cons]
  exact ⟨h.consecutive, by omega, consecutive_nil _⟩

/-- Writing the entry that follows the last one. -/
theorem writeEntry (h : Indexed log entries compactedTo base) {log' : Log}
    {pre : List (Nat × List Record)} {n : Nat} {xs : List Record} {e : LogEntry}
    (hlog : log.toList = pre ++ [(n, xs)])
    (hlog' : log'.toList = pre ++ [(n, xs ++ [.entry e])])
    (he : e.index.toNat = base + entries.length + 1) :
    Indexed log' (entries ++ [e]) compactedTo base := by
  have hkeys : log'.keys = log.keys := by rw [Assoc.keys, Assoc.keys, hlog, hlog']; simp
  have hent : log'.entries = log.entries ++ [e] := by
    simp [Log.entries, Log.records, hlog, hlog', recordsOf_append]
  refine ⟨?_, ?_, ?_, ?_, ?_, h.watermark_le, by simp, h.base_of_zero⟩
  · rw [hlog']
    refine (hlog ▸ h.laid).write fun e' he' => ?_
    obtain rfl : e = e' := by simpa [Record.entry?] using he'
    constructor
    · rw [he]
      exact h.keys_le n (by rw [Assoc.keys, hlog]; simp)
    · intro e'' he''
      have := h.le_last (e := e'') (by rw [Log.entries, Log.records, hlog]; exact he'')
      omega
  · rw [hkeys]; exact h.keys_pos
  · intro k hk
    rw [hkeys] at hk
    have := h.keys_le k hk
    rw [List.length_append]
    omega
  · exact h.entries_eq_snoc he hent
  · exact h.consecutive_snoc he

/-- Starting a segment with the entry that follows the last one. -/
theorem roll (h : Indexed log entries compactedTo base) {log' : Log} {e : LogEntry}
    (he : e.index.toNat = base + entries.length + 1)
    (hlog' : log'.toList = log.toList ++ [(e.index.toNat, [.entry e])]) :
    Indexed log' (entries ++ [e]) compactedTo base := by
  have hkeys : log'.keys = log.keys ++ [e.index.toNat] := by
    rw [Assoc.keys, hlog', List.map_append]; rfl
  have hent : log'.entries = log.entries ++ [e] := by
    simp [Log.entries, Log.records, hlog', recordsOf_append]
  refine ⟨?_, ?_, ?_, ?_, ?_, h.watermark_le, by simp, h.base_of_zero⟩
  · rw [hlog']
    refine h.laid.snoc rfl fun e' he' => ?_
    have := h.le_last he'
    omega
  · intro k hk
    rw [hkeys, List.mem_append, List.mem_singleton] at hk
    rcases hk with hk | rfl
    · exact h.keys_pos k hk
    · omega
  · intro k hk
    rw [hkeys, List.mem_append, List.mem_singleton] at hk
    rw [List.length_append]
    rcases hk with hk | rfl
    · have := h.keys_le k hk
      omega
    · omega
  · exact h.entries_eq_snoc he hent
  · exact h.consecutive_snoc he

/-- Starting over behind a snapshot at `mark`, with one empty segment. -/
theorem restart {log' : Log} {k mark : Nat} (hlog' : log'.toList = [(k, [])]) (hpos : 1 ≤ k)
    (hle : k ≤ mark + 1) : Indexed log' [] mark mark := by
  have hkeys : log'.keys = [k] := by rw [Assoc.keys, hlog']; rfl
  refine ⟨?_, ?_, ?_, ?_, consecutive_nil _, le_rfl, fun _ => rfl, id⟩
  · rw [hlog']
    exact ⟨by simp, List.pairwise_singleton _ _, by simp, by simp⟩
  · rw [hkeys]; simpa using hpos
  · rw [hkeys]; simpa using hle
  · simp [Log.entries, Log.records, hlog']

/-- Dropping old segments up to a new watermark below which all their entries lie. -/
theorem dropSegments (h : Indexed log entries compactedTo base) {log' : Log}
    {pre : List (Nat × List Record)} {mark : Nat}
    (hlog : log.toList = pre ++ log'.toList)
    (hpre : ∀ e ∈ entriesOf (recordsOf pre), e.index.toNat ≤ mark)
    (hne : entries ≠ []) (hmark : 0 < mark) (hlast : mark ≤ base + entries.length) :
    Indexed log' (entries.filter (mark < ·.index.toNat)) mark (max base mark) := by
  have hkeys : ∀ k ∈ log'.keys, k ∈ log.keys := by
    intro k hk
    rw [Assoc.keys, hlog, List.map_append]
    exact List.mem_append_right _ hk
  have hent : log.entries = entriesOf (recordsOf pre) ++ log'.entries := by
    simp [Log.entries, Log.records, hlog, recordsOf_append]
  have hfilter : entries.filter (mark < ·.index.toNat) =
      log'.entries.filter (max base mark < ·.index.toNat) := by
    rw [h.entries_eq, hent, List.filter_append, List.filter_append, List.filter_filter]
    have hnil : ((entriesOf (recordsOf pre)).filter fun e => decide (mark < e.index.toNat) &&
        decide (base < e.index.toNat)) = [] := by
      refine List.filter_eq_nil_iff.mpr fun e he => ?_
      have := hpre e he
      simp only [Bool.and_eq_true, decide_eq_true_eq]
      omega
    rw [hnil, List.nil_append, List.filter_filter]
    refine List.filter_congr fun e _ => ?_
    rw [← Bool.decide_and, decide_eq_decide]
    omega
  have hcons := h.consecutive.filter_gt mark
  rw [show max (base + 1) (mark + 1) = max base mark + 1 by omega] at hcons
  have hlen := h.consecutive.length_filter_gt (m := mark) (by omega)
  refine ⟨(hlog ▸ h.laid).of_append, fun k hk => h.keys_pos k (hkeys k hk), ?_, hfilter, hcons, by omega,
    ?_, by omega⟩
  · intro k hk
    have := h.keys_le k (hkeys k hk)
    omega
  · intro hnil
    have : 0 < entries.length := List.length_pos_iff.mpr hne
    rw [hnil, List.length_nil] at hlen
    omega

/-- With nothing below the base, the in-memory log is the physical one. -/
theorem entries_eq_of_base_zero (h : Indexed log entries compactedTo 0) : entries = log.entries := by
  refine h.entries_eq.trans (List.filter_eq_self.mpr fun e he => ?_)
  simpa using h.pos_of_mem he

/-- Cutting after an entry. The cut is by log index in the files and by position in memory; with
nothing below the base the two agree. -/
theorem cut (h : Indexed log entries compactedTo 0) {log' : Log}
    {pre post : List (Nat × List Record)} {n : Nat} {xs ys : List Record} {e : LogEntry}
    (hlog : log.toList = pre ++ (n, xs ++ .entry e :: ys) :: post)
    (hlog' : log'.toList = pre ++ [(n, xs ++ [.entry e])]) :
    Indexed log' (entries.take e.index.toNat) compactedTo 0 := by
  have hmem := h.entries_eq_of_base_zero
  have hent : log.entries = log'.entries ++ (entriesOf ys ++ entriesOf (recordsOf post)) := by
    simp [Log.entries, Log.records, hlog, hlog', recordsOf_append]
  -- the entry's position is its index, so that many entries are kept
  have hlast : log'.entries = entriesOf (recordsOf pre) ++ entriesOf xs ++ [e] := by
    simp [Log.entries, Log.records, hlog', recordsOf_append]
  have hcons := h.consecutive
  rw [hmem, hent, consecutive_append] at hcons
  have hpos : e.index.toNat = log'.entries.length := by
    have hlast' := hcons.1
    rw [hlast, consecutive_append, consecutive_cons] at hlast'
    rw [hlast, List.length_append, List.length_singleton]
    omega
  have htake : entries.take e.index.toNat = log'.entries := by
    rw [hmem, hent, hpos, List.take_left]
  have hn : n ≤ e.index.toNat :=
    h.laid.first_le (n, xs ++ .entry e :: ys) (by rw [hlog]; simp) e (by simp)
  have hkeys : ∀ k ∈ log'.keys, k ∈ log.keys ∧ k ≤ n := by
    intro k hk
    obtain ⟨x, hx, rfl⟩ := List.mem_map.mp hk
    rw [hlog', List.mem_append, List.mem_singleton] at hx
    rcases hx with hx | rfl
    · refine ⟨?_, ((Assoc.lt_of_toList_eq hlog).1 x hx).le⟩
      rw [Assoc.keys, hlog]
      exact List.mem_map_of_mem (List.mem_append_left _ hx)
    · refine ⟨?_, le_rfl⟩
      rw [Assoc.keys, hlog]
      simp
  rw [htake]
  refine ⟨?_, fun k hk => h.keys_pos k (hkeys k hk).1, ?_, ?_, hcons.1, h.watermark_le, ?_, h.base_of_zero⟩
  · rw [hlog']
    have hlaid := h.laid
    rw [hlog, show xs ++ .entry e :: ys = (xs ++ [.entry e]) ++ ys by simp] at hlaid
    exact hlaid.cut (by simp)
  · intro k hk
    have := (hkeys k hk).2
    omega
  · refine (List.filter_eq_self.mpr fun e' he' => ?_).symm
    simpa using h.pos_of_mem (hent ▸ List.mem_append_left _ he')
  · have := h.watermark_le
    omega

/-- What `open` checks makes the entries above the snapshot the in-memory log. -/
theorem of_joins {mark : Nat} (hlaid : Laid log.toList) (hpos : ∀ n ∈ log.keys, 1 ≤ n)
    (hjoins : Joins log.entries mark)
    (hle : ∀ n ∈ log.keys, n ≤ mark + (log.entries.filter (mark < ·.index.toNat)).length + 1) :
    Indexed log (log.entries.filter (mark < ·.index.toNat)) mark mark :=
  ⟨hlaid, hpos, hle, rfl, hjoins.gapless.consecutive_above, le_rfl, fun _ => rfl, id⟩

/-- Reopening at a snapshot. -/
theorem reopen (h : Indexed log entries compactedTo base) {mark : Nat} (hbase : base ≤ mark)
    (hjoins : Joins log.entries mark) :
    Indexed log (log.entries.filter (mark < ·.index.toNat)) mark mark := by
  refine of_joins h.laid h.keys_pos hjoins fun n hn => ?_
  have hn := h.keys_le n hn
  by_cases hlt : mark < base + entries.length
  · -- the last in-memory entry is a physical one above the snapshot
    obtain ⟨e, he, hidx⟩ := h.consecutive.exists_mem (i := base + entries.length) (by omega) (by omega)
    rw [h.entries_eq] at he
    have hmem : e ∈ log.entries.filter (mark < ·.index.toNat) :=
      List.mem_filter.mpr ⟨(List.mem_filter.mp he).1, by simpa [hidx] using hlt⟩
    have := (hjoins.gapless.consecutive_above.index_bounds hmem).2
    omega
  · omega

/-- … also when the oldest segments are gone. -/
theorem reopen_dropped (h : Indexed log entries compactedTo base) {log' : Log}
    {pre : List (Nat × List Record)} {mark : Nat} (hlog : log.toList = pre ++ log'.toList)
    (hbase : base ≤ mark) (hjoins : Joins log'.entries mark) :
    Indexed log' (log'.entries.filter (mark < ·.index.toNat)) mark mark := by
  by_cases hpre : pre = []
  · obtain rfl : log = log' := Assoc.ext (by rw [hlog, hpre, List.nil_append])
    exact h.reopen hbase hjoins
  · have hlaid : Laid (pre ++ log'.toList) := hlog ▸ h.laid
    refine of_joins hlaid.of_append (fun n hn => ?_) hjoins fun n hn => ?_
    · apply h.keys_pos
      rw [Assoc.keys, hlog, List.map_append]
      exact List.mem_append_right _ hn
    · -- the segment holds an entry, at or beyond its name
      obtain ⟨x, hx, rfl⟩ := List.mem_map.mp hn
      obtain ⟨e, he, hle⟩ := hlaid.exists_le hpre hx
      by_cases hlt : mark < e.index.toNat
      · have hmem : e ∈ log'.entries.filter (mark < ·.index.toNat) :=
          List.mem_filter.mpr ⟨he, by simpa using hlt⟩
        have := (hjoins.gapless.consecutive_above.index_bounds hmem).2
        omega
      · omega

end Indexed

end Arachne.Storage
