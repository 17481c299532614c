import Mathlib.Data.List.Range
import Arachne.Storage.Recovery

/-! # Consecutive log indices

`Consecutive n es`: the entries of `es` have the indices `n, n + 1, …` in order. It is what the
in-memory log satisfies, what `append` asks of its argument, and what `verify_continuity` establishes
(`verifyContinuity_eq_ok`).

Behind a snapshot at `mark`, entries *join* it if they are consecutive and start no later than `mark + 1`
(`Joins`), and are *gapless* up to `last` if moreover they end there (`Gapless`). Joining is what `open` asks of
the physical entries (`checkRecovered_eq_ok`). -/

namespace Arachne.Storage

/-- The entries have consecutive indices starting at `n`. -/
def Consecutive (n : Nat) (es : List LogEntry) : Prop :=
  es.map (·.index.toNat) = List.range' n es.length

instance (n : Nat) (es : List LogEntry) : Decidable (Consecutive n es) :=
  inferInstanceAs (Decidable (_ = _))

variable {n m : Nat} {e : LogEntry} {es xs ys : List LogEntry}

@[simp] theorem consecutive_nil (n : Nat) : Consecutive n [] := rfl

@[simp] theorem consecutive_cons :
    Consecutive n (e :: es) ↔ e.index.toNat = n ∧ Consecutive (n + 1) es := by
  rw [Consecutive, List.map_cons, List.length_cons, List.range'_succ, List.cons.injEq]
  rfl

theorem consecutive_append :
    Consecutive n (xs ++ ys) ↔ Consecutive n xs ∧ Consecutive (n + xs.length) ys := by
  induction xs generalizing n with
  | nil => simp
  | cons x xs ih =>
      rw [List.cons_append, consecutive_cons, consecutive_cons, ih, List.length_cons, and_assoc,
        show n + 1 + xs.length = n + (xs.length + 1) by omega]

namespace Consecutive

theorem index_bounds (h : Consecutive n es) (he : e ∈ es) :
    n ≤ e.index.toNat ∧ e.index.toNat < n + es.length := by
  have hmem : e.index.toNat ∈ List.range' n es.length := by
    rw [← h]; exact List.mem_map_of_mem he
  simpa [List.mem_range'_1] using hmem

theorem pairwise (h : Consecutive n es) : es.Pairwise (·.index.toNat < ·.index.toNat) := by
  have hp : (es.map (·.index.toNat)).Pairwise (· < ·) := by
    rw [h]; exact List.pairwise_lt_range'
  rwa [List.pairwise_map] at hp

theorem take (h : Consecutive n es) (k : Nat) : Consecutive n (es.take k) := by
  rw [← List.take_append_drop k es, consecutive_append] at h
  exact h.1

/-- The first `k` entries are below `n + k`, and the others are not. -/
theorem cut_bounds (h : Consecutive n es) (k : Nat) :
    (∀ e ∈ es.take k, e.index.toNat < n + k) ∧ ∀ e ∈ es.drop k, n + k ≤ e.index.toNat := by
  rw [← List.take_append_drop k es, consecutive_append] at h
  constructor
  · intro e he
    have hlt := (h.1.index_bounds he).2
    have hlen := List.length_take_le k es
    omega
  · intro e he
    have hle := (h.2.index_bounds he).1
    have hpos := List.length_pos_of_mem he
    rw [List.length_drop] at hpos
    rw [List.length_take] at hle
    omega

/-- The first entries are those with the lowest indices. -/
theorem take_eq_filter (h : Consecutive n es) (k : Nat) :
    es.take k = es.filter (·.index.toNat < n + k) := by
  obtain ⟨htake, hdrop⟩ := h.cut_bounds k
  conv_rhs => rw [← List.take_append_drop k es]
  rw [List.filter_append, List.filter_eq_self.mpr (by simpa using htake),
    List.filter_eq_nil_iff.mpr (by simpa using hdrop), List.append_nil]

/-- … and what is behind them are the others. -/
theorem drop_eq_filter (h : Consecutive n es) (k : Nat) : es.drop k = es.filter (n + k ≤ ·.index.toNat) := by
  obtain ⟨htake, hdrop⟩ := h.cut_bounds k
  conv_rhs => rw [← List.take_append_drop k es]
  rw [List.filter_append, List.filter_eq_nil_iff.mpr (by simpa using htake),
    List.filter_eq_self.mpr (by simpa using hdrop), List.nil_append]

/-- Every index in range belongs to an entry. -/
theorem exists_mem (h : Consecutive n es) {i : Nat} (hn : n ≤ i) (hi : i < n + es.length) :
    ∃ e ∈ es, e.index.toNat = i := by
  have hmem : i ∈ es.map (·.index.toNat) := by
    rw [h, List.mem_range'_1]; exact ⟨hn, hi⟩
  simpa using hmem

/-- The entries up to an index are the first ones. -/
theorem filter_le (h : Consecutive n es) (c : Nat) : es.filter (·.index.toNat ≤ c) = es.take (c + 1 - n) := by
  rw [h.take_eq_filter]
  refine List.filter_congr fun e he => ?_
  have hle := (h.index_bounds he).1
  rw [decide_eq_decide]
  omega

/-- An entry's position is its distance from the first. -/
theorem getElem?_of_mem (h : Consecutive n es) (he : e ∈ es) : es[e.index.toNat - n]? = some e := by
  obtain ⟨xs, ys, rfl⟩ := List.append_of_mem he
  rw [consecutive_append, consecutive_cons] at h
  rw [h.2.1, Nat.add_sub_cancel_left, List.getElem?_append_right le_rfl, Nat.sub_self, List.getElem?_cons_zero]

theorem lastEntryIndex? (h : Consecutive n es) :
    Storage.lastEntryIndex? es = if es = [] then none else some (n + es.length - 1) := by
  rw [Storage.lastEntryIndex?, ← List.getLast?_map, h, List.getLast?_range']
  cases es <;> simp

/-- Dropping the entries up to `m` leaves consecutive ones. -/
theorem filter_gt (h : Consecutive n es) (m : Nat) :
    Consecutive (max n (m + 1)) (es.filter (m < ·.index.toNat)) := by
  induction es generalizing n with
  | nil => simp
  | cons e es ih =>
      rw [consecutive_cons] at h
      have htail := ih h.2
      by_cases hm : m < e.index.toNat
      · -- everything from here on is above `m`
        rw [List.filter_cons_of_pos (by simpa using hm), consecutive_cons]
        rw [show max (n + 1) (m + 1) = n + 1 by omega] at htail
        rw [show max n (m + 1) = n by omega]
        exact ⟨h.1, htail⟩
      · rw [List.filter_cons_of_neg (by simpa using hm)]
        rwa [show max n (m + 1) = max (n + 1) (m + 1) by omega]

/-- … and the last index stays where it was. -/
theorem length_filter_gt (h : Consecutive n es) (hm : m < n + es.length) :
    max n (m + 1) + (es.filter (m < ·.index.toNat)).length = n + es.length := by
  induction es generalizing n with
  | nil =>
      rw [List.length_nil] at hm
      simp only [List.filter_nil, List.length_nil]
      omega
  | cons e es ih =>
      rw [consecutive_cons] at h
      rw [List.length_cons] at hm
      have htail := ih h.2 (by omega)
      by_cases hlt : m < e.index.toNat
      · rw [List.filter_cons_of_pos (by simpa using hlt), List.length_cons, List.length_cons]
        omega
      · rw [List.filter_cons_of_neg (by simpa using hlt), List.length_cons]
        omega

end Consecutive

/-! ## Behind a snapshot -/

/-- Entries that `open` accepts behind a snapshot at `mark`: consecutive, and without a gap to it. -/
def Joins (P : List LogEntry) (mark : Nat) : Prop :=
  ∀ e ∈ P.head?, Consecutive e.index.toNat P ∧ e.index.toNat ≤ mark + 1

instance (P : List LogEntry) (mark : Nat) : Decidable (Joins P mark) :=
  inferInstanceAs (Decidable (∀ e ∈ P.head?, Consecutive e.index.toNat P ∧ e.index.toNat ≤ mark + 1))

/-- The entries are consecutive from somewhere at or before `mark + 1` up to `last`. -/
def Gapless (P : List LogEntry) (last mark : Nat) : Prop :=
  ∃ first ≤ mark + 1, Consecutive first P ∧ first + P.length = last + 1

namespace Gapless

variable {P es : List LogEntry} {last mark : Nat}

theorem append (h : Gapless P last mark) (hes : Consecutive (last + 1) es) :
    Gapless (P ++ es) (last + es.length) mark := by
  obtain ⟨first, hfirst, hcons, hlen⟩ := h
  refine ⟨first, hfirst, ?_, ?_⟩
  · rw [consecutive_append, hlen]
    exact ⟨hcons, hes⟩
  · rw [List.length_append]
    omega

/-- A newer snapshot only covers more. -/
theorem mono (h : Gapless P last mark) {mark' : Nat} (hle : mark ≤ mark') : Gapless P last mark' := by
  obtain ⟨first, hfirst, hcons, hlen⟩ := h
  exact ⟨first, by omega, hcons, hlen⟩

/-- Entries the snapshot covers can be dropped. -/
theorem drop {xs ys : List LogEntry} (h : Gapless (xs ++ ys) last mark)
    (hxs : ∀ e ∈ xs, e.index.toNat ≤ mark) : Gapless ys last mark := by
  obtain ⟨first, hfirst, hcons, hlen⟩ := h
  rw [consecutive_append] at hcons
  rw [List.length_append] at hlen
  refine ⟨first + xs.length, ?_, hcons.2, by omega⟩
  by_cases hnil : xs = []
  · rw [hnil]
    exact hfirst
  · -- the last dropped entry is just before the rest
    have hpos : 0 < xs.length := List.length_pos_iff.mpr hnil
    obtain ⟨e, he, hidx⟩ := hcons.1.exists_mem (i := first + xs.length - 1) (by omega) (by omega)
    have := hxs e he
    omega

/-- Entries above the snapshot can be cut off. -/
theorem filter_le (h : Gapless P last mark) {c : Nat} (hc : mark ≤ c) :
    Gapless (P.filter (·.index.toNat ≤ c)) (min last c) mark := by
  obtain ⟨first, hfirst, hcons, hlen⟩ := h
  rw [hcons.filter_le]
  refine ⟨first, hfirst, hcons.take _, ?_⟩
  rw [List.length_take]
  omega

theorem joins (h : Gapless P last mark) : Joins P mark := by
  obtain ⟨first, hfirst, hcons, -⟩ := h
  intro e he
  obtain ⟨es, rfl⟩ : ∃ es, P = e :: es := List.head?_eq_some_iff.mp he
  obtain rfl : e.index.toNat = first := (consecutive_cons.mp hcons).1
  exact ⟨hcons, hfirst⟩

/-- What lies above the snapshot starts right behind it. -/
theorem consecutive_above (h : Gapless P last mark) :
    Consecutive (mark + 1) (P.filter (mark < ·.index.toNat)) := by
  obtain ⟨first, hfirst, hcons, -⟩ := h
  have hcons' := hcons.filter_gt mark
  rwa [show max first (mark + 1) = mark + 1 by omega] at hcons'

/-- How many entries lie above the snapshot. -/
theorem length_above (h : Gapless P last mark) :
    mark + (P.filter (mark < ·.index.toNat)).length = max last mark := by
  obtain ⟨first, hfirst, hcons, hlen⟩ := h
  by_cases hlt : mark < last + 1
  · have := hcons.length_filter_gt (m := mark) (by omega)
    omega
  · have hnil : P.filter (mark < ·.index.toNat) = [] := by
      refine List.filter_eq_nil_iff.mpr fun e he => ?_
      have := (hcons.index_bounds he).2
      simp only [decide_eq_true_eq]
      omega
    rw [hnil, List.length_nil]
    omega

/-- The last index a store opened on these entries has. -/
theorem lastIndex_above (h : Gapless P last mark) :
    (lastEntryIndex? (P.filter (mark < ·.index.toNat))).getD mark = max last mark := by
  have hlen := h.length_above
  rw [h.consecutive_above.lastEntryIndex?]
  split_ifs with hnil
  · rw [hnil, List.length_nil] at hlen
    exact hlen
  · have : 0 < (P.filter (mark < ·.index.toNat)).length := List.length_pos_iff.mpr hnil
    rw [Option.getD_some]
    omega

end Gapless

/-- The gap-free log that joining entries form with their snapshot. -/
theorem Joins.gapless {P : List LogEntry} {mark : Nat} (h : Joins P mark) :
    Gapless P ((lastEntryIndex? P).getD mark) mark := by
  cases P with
  | nil => exact ⟨mark + 1, le_rfl, consecutive_nil _, rfl⟩
  | cons e es =>
      obtain ⟨hcons, hle⟩ := h e rfl
      refine ⟨e.index.toNat, hle, hcons, ?_⟩
      rw [hcons.lastEntryIndex?, if_neg (List.cons_ne_nil e es), Option.getD_some, List.length_cons]
      omega

/-- The index range above the snapshot that joining entries cover. -/
theorem Joins.exists_above {P : List LogEntry} {mark i : Nat} (h : Joins P mark) (hmark : mark < i)
    (hi : i ≤ (lastEntryIndex? (P.filter (mark < ·.index.toNat))).getD mark) :
    ∃ e ∈ P.filter (mark < ·.index.toNat), e.index.toNat = i := by
  have hlen := h.gapless.length_above
  rw [h.gapless.lastIndex_above, ← hlen] at hi
  exact h.gapless.consecutive_above.exists_mem (by omega) (by omega)

theorem Joins.of_append {xs ys : List LogEntry} {mark : Nat} (h : Joins (xs ++ ys) mark) : Joins xs mark := by
  intro e he
  obtain ⟨es, rfl⟩ : ∃ es, xs = e :: es := List.head?_eq_some_iff.mp he
  obtain ⟨hcons, hle⟩ := h e rfl
  exact ⟨(consecutive_append.mp hcons).1, hle⟩

/-! ## What `open` checks -/

namespace WalStorage

/-- **`verify_continuity`** accepts exactly the consecutive lists. -/
theorem verifyContinuity_eq_ok {es : List LogEntry} :
    verifyContinuity es = .ok () ↔ ∀ e ∈ es.head?, Consecutive e.index.toNat es := by
  cases es with
  | nil => simp [verifyContinuity]
  | cons first es =>
      have hfind : ((first :: es).zipIdx.find? fun p =>
          p.1.index.toNat ≠ first.index.toNat + p.2) = none ↔
          Consecutive first.index.toNat (first :: es) := by
        rw [List.find?_eq_none]
        constructor
        · intro h
          refine List.ext_getElem (by simp) fun i hi _ => ?_
          have hi' : i < (first :: es).length := by simpa using hi
          have hnot := h ((first :: es).get ⟨i, hi'⟩, i) (by
            rw [List.mem_zipIdx_iff_getElem?]; simp)
          rw [List.getElem_map, List.getElem_range']
          simpa using hnot
        · rintro h ⟨e, i⟩ hmem
          rw [List.mem_zipIdx_iff_getElem?] at hmem
          have hget : ((first :: es).map (·.index.toNat))[i]? = some e.index.toNat := by
            rw [List.getElem?_map, hmem]; rfl
          have hi : i < (first :: es).length := (List.getElem?_eq_some_iff.mp hmem).1
          rw [h, List.getElem?_range' hi] at hget
          simpa using hget.symm
      simp only [verifyContinuity, List.head?_cons, Option.mem_some_iff, forall_eq', ← hfind]
      split <;> simp_all

/-- **What `open` accepts.** The replayed entries are consecutive and meet the snapshot without a gap,
a snapshot META names was loaded or the log starts at 1, and the commit is at most the last index. -/
theorem checkRecovered_eq_ok {metaRecord : Meta} {snapshot : Option Snapshot} {compactedTo : Nat}
    {recovered : Recovered} {es : List LogEntry} :
    checkRecovered metaRecord snapshot compactedTo recovered = .ok es ↔
      (metaRecord.snapshotIndex ≠ 0 → snapshot = none →
        ∀ e ∈ recovered.entries.head?, e.index.toNat = 1) ∧
      Joins recovered.entries compactedTo ∧
      recovered.hardState.commit.toNat ≤ (lastEntryIndex? es).getD compactedTo ∧
      es = recovered.entries.filter (compactedTo < ·.index.toNat) := by
  obtain ⟨entries, hardState, truncatedRecords, steps⟩ := recovered
  obtain ⟨first, hfirst⟩ : ∃ first, first = (entries.head?.map (·.index.toNat)).getD 1 := ⟨_, rfl⟩
  have hsome : ∀ e ∈ entries.head?, e.index.toNat = first := by
    intro e he
    rw [hfirst, Option.mem_def.mp he]
    rfl
  have hnone : entries = [] → first = 1 := by
    rintro rfl
    exact hfirst
  have hhead : entries ≠ [] → ∃ e, e ∈ entries.head? := fun hne => ⟨_, List.head?_eq_some_head hne⟩
  unfold checkRecovered
  rw [← hfirst]
  constructor
  · intro h
    dsimp only at h
    split at h
    · cases h
    · next hnamed =>
        split at h
        · cases h
        · next hv =>
            split_ifs at h with hgap hc
            obtain rfl := Except.ok.inj h
            refine ⟨fun hn hs e he => ?_, fun e he => ⟨verifyContinuity_eq_ok.mp hv e he, ?_⟩,
              Nat.not_lt.mp hc, rfl⟩
            · by_contra hne
              exact hnamed ⟨hn, hs, hsome e he ▸ hne⟩
            · by_contra hlt
              refine hgap ⟨fun hnil => ?_, ?_⟩
              · simp [hnil] at he
              · have := hsome e he
                omega
  · rintro ⟨hn, hjoins, hc, rfl⟩
    dsimp only at hn hjoins hc ⊢
    have hnamed : ¬ (metaRecord.snapshotIndex ≠ 0 ∧ snapshot = none ∧ first ≠ 1) := by
      rintro ⟨h0, hs, hne⟩
      by_cases hnil : entries = []
      · exact hne (hnone hnil)
      · obtain ⟨e, he⟩ := hhead hnil
        exact hne (hsome e he ▸ hn h0 hs e he)
    have hle : ¬ (entries ≠ [] ∧ first > compactedTo + 1) := by
      rintro ⟨hne, hlt⟩
      obtain ⟨e, he⟩ := hhead hne
      have := (hjoins e he).2
      have := hsome e he
      omega
    rw [if_neg hnamed, verifyContinuity_eq_ok.mpr fun e he => (hjoins e he).1]
    dsimp only
    rw [if_neg hle, if_neg (by omega)]

end WalStorage

end Arachne.Storage
