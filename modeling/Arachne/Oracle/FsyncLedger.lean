import Mathlib.Data.List.Sort

/-! # The fsync ledger

The ledger is the observer a test gives to the log: it writes down which range of a segment every fsync made durable, and
`unionCovers` says whether the ranges together cover a stretch of the log. The test is a sweep over the ranges, sorted by
their starts, that carries the first index not known to be covered. Ranges may overlap, lie in one another, come in any
order and be empty; the sweep is right about all of them (`unionCovers_iff`). -/

namespace Arachne.Oracle

/-- `FsyncEvent`. -/
structure FsyncEvent where
  seq : UInt64
  segmentFirstIndex : UInt64
  durableThroughIndex : UInt64
  deriving DecidableEq, Repr

/-- `FsyncLedger`, without its mutex. -/
structure FsyncLedger where
  events : List FsyncEvent := []
  deriving DecidableEq, Repr

namespace FsyncLedger

/-- `on_segment_fsynced`. -/
def onSegmentFsynced (ledger : FsyncLedger) (segmentFirstIndex durableThroughIndex : UInt64) : FsyncLedger :=
  let seq := UInt64.ofNat ledger.events.length + 1
  { events := ledger.events ++ [{ seq, segmentFirstIndex, durableThroughIndex }] }

/-- `saturating_add(1)`. -/
def saturatingSucc (n : UInt64) : UInt64 := if n = 18446744073709551615 then n else n + 1

/-- The order of Rust's pairs. -/
def rangeLe (a b : UInt64 × UInt64) : Prop := a.1 < b.1 ∨ a.1 = b.1 ∧ a.2 ≤ b.2

instance : DecidableRel rangeLe := fun a b => inferInstanceAs (Decidable (a.1 < b.1 ∨ a.1 = b.1 ∧ a.2 ≤ b.2))

/-- The ranges that are not empty, sorted. -/
def coveredRanges (events : List FsyncEvent) : List (UInt64 × UInt64) :=
  (events.filterMap fun e =>
    if e.durableThroughIndex < e.segmentFirstIndex then none
    else some (e.segmentFirstIndex, e.durableThroughIndex)).insertionSort rangeLe

/-- The walk over the sorted ranges. `pos` is where coverage is needed next. -/
def sweep (last : UInt64) : UInt64 → List (UInt64 × UInt64) → Bool
  | pos, [] => decide (last < pos)
  | pos, (start, stop) :: rest =>
    if stop < pos then sweep last pos rest
    -- a gap: every later range starts behind it too
    else if pos < start then false
    else if last ≤ stop then true
    else sweep last (saturatingSucc stop) rest

/-- `union_covers`. -/
def unionCovers (ledger : FsyncLedger) (first last : UInt64) : Bool :=
  if last < first then true
  else sweep last first (coveredRanges ledger.events)

/-! ## What the sweep decides -/

/-- One of the ranges has the index. -/
def InRanges (ranges : List (UInt64 × UInt64)) (i : UInt64) : Prop := ∃ r ∈ ranges, r.1 ≤ i ∧ i ≤ r.2

/-- The index lies in a recorded range. -/
def Covered (ledger : FsyncLedger) (i : UInt64) : Prop :=
  ∃ e ∈ ledger.events, e.segmentFirstIndex ≤ i ∧ i ≤ e.durableThroughIndex

theorem inRanges_cons {start stop i : UInt64} {rest : List (UInt64 × UInt64)} :
    InRanges ((start, stop) :: rest) i ↔ (start ≤ i ∧ i ≤ stop) ∨ InRanges rest i :=
  List.exists_mem_cons_iff ..

/-- A range that ends below `pos` covers nothing from `pos` on. -/
theorem inRanges_cons_of_lt {start stop pos i : UInt64} {rest : List (UInt64 × UInt64)} (hstop : stop < pos)
    (hi : pos ≤ i) : InRanges ((start, stop) :: rest) i ↔ InRanges rest i := by
  rw [inRanges_cons, or_iff_right]
  rintro ⟨-, hle⟩
  exact absurd (UInt64.lt_of_lt_of_le hstop hi) (UInt64.not_lt.mpr hle)

/-- The successor of an index below another one does not wrap. -/
theorem saturatingSucc_le_iff {stop last : UInt64} (h : stop < last) (i : UInt64) : saturatingSucc stop ≤ i ↔ stop < i := by
  have hlast := last.toNat_lt
  have hmax : stop ≠ 18446744073709551615 := by
    rintro rfl
    exact absurd (UInt64.lt_iff_toNat_lt.mp h) (Nat.not_lt.mpr (Nat.le_of_lt_succ hlast))
  rw [UInt64.lt_iff_toNat_lt] at h
  rw [saturatingSucc, if_neg hmax, UInt64.le_iff_toNat_le, UInt64.lt_iff_toNat_lt, UInt64.toNat_add,
    Nat.mod_eq_of_lt (show stop.toNat + (1 : UInt64).toNat < 2 ^ 64 by simp; omega)]
  exact Nat.succ_le_iff

/-- **The sweep is exact**: with the ranges in order of their starts, it tells whether they cover all from `pos` to
`last`. -/
theorem sweep_iff {last pos : UInt64} {ranges : List (UInt64 × UInt64)} (hsorted : ranges.Pairwise fun a b => a.1 ≤ b.1)
    (hpos : pos ≤ last) : sweep last pos ranges = true ↔ ∀ i, pos ≤ i → i ≤ last → InRanges ranges i := by
  induction ranges generalizing pos with
  | nil =>
      rw [sweep, decide_eq_true_eq]
      constructor
      · intro h
        exact absurd h (UInt64.not_lt.mpr hpos)
      · intro h
        obtain ⟨r, hr, -⟩ := h pos (UInt64.le_refl pos) hpos
        cases hr
  | cons range rest ih =>
      obtain ⟨start, stop⟩ := range
      obtain ⟨hstart, hrest⟩ := List.pairwise_cons.mp hsorted
      rw [sweep]
      split
      · next hlow =>
          rw [ih hrest hpos]
          refine forall_congr' fun i => forall_congr' fun hi => forall_congr' fun _ => ?_
          exact (inRanges_cons_of_lt hlow hi).symm
      split
      · next hgap =>
          -- `pos` itself is not covered
          refine iff_of_false Bool.false_ne_true fun h => ?_
          obtain ⟨r, hr, hle, -⟩ := h pos (UInt64.le_refl pos) hpos
          have hfrom : start ≤ r.1 := by
            rcases List.mem_cons.mp hr with rfl | hr
            · exact UInt64.le_refl _
            · exact hstart r hr
          exact absurd (UInt64.lt_of_lt_of_le hgap hfrom) (UInt64.not_lt.mpr hle)
      next hlow hgap =>
      have hbegin : start ≤ pos := UInt64.not_lt.mp hgap
      split
      · next hreach =>
          refine iff_of_true rfl fun i hi hilast => inRanges_cons.mpr (.inl ⟨?_, ?_⟩)
          · exact UInt64.le_trans hbegin hi
          · exact UInt64.le_trans hilast hreach
      · next hreach =>
          have hstop : stop < last := UInt64.not_le.mp hreach
          have hsucc := saturatingSucc_le_iff hstop
          rw [ih hrest ((hsucc last).mpr hstop)]
          constructor
          · intro h i hi hilast
            by_cases hle : i ≤ stop
            · exact inRanges_cons.mpr (.inl ⟨UInt64.le_trans hbegin hi, hle⟩)
            · exact inRanges_cons.mpr (.inr (h i ((hsucc i).mpr (UInt64.not_le.mp hle)) hilast))
          · intro h i hi hilast
            have hi : stop < i := (hsucc i).mp hi
            have hfrom : pos ≤ i := UInt64.le_trans (UInt64.not_lt.mp hlow) (UInt64.le_of_lt hi)
            exact (inRanges_cons.mp (h i hfrom hilast)).resolve_left fun hin => UInt64.not_lt.mpr hin.2 hi

/-! ## The ranges of a ledger -/

/-- Leaving out the empty ranges and sorting the others does not change what is covered. -/
theorem inRanges_coveredRanges (ledger : FsyncLedger) (i : UInt64) :
    InRanges (coveredRanges ledger.events) i ↔ ledger.Covered i := by
  simp only [InRanges, coveredRanges, List.mem_insertionSort, List.mem_filterMap]
  constructor
  · rintro ⟨r, ⟨e, he, heq⟩, hin⟩
    obtain ⟨-, heq⟩ := Option.ite_none_left_eq_some.mp heq
    obtain rfl := Option.some.inj heq
    exact ⟨e, he, hin⟩
  · rintro ⟨e, he, hfirst, hdurable⟩
    refine ⟨(e.segmentFirstIndex, e.durableThroughIndex), ⟨e, he, ?_⟩, hfirst, hdurable⟩
    exact if_neg (UInt64.not_lt.mpr (UInt64.le_trans hfirst hdurable))

theorem coveredRanges_sorted (events : List FsyncEvent) :
    (coveredRanges events).Pairwise fun a b => a.1 ≤ b.1 := by
  have htotal : ∀ a b : UInt64 × UInt64, rangeLe a b ∨ rangeLe b a := by
    intro a b
    rcases Nat.lt_trichotomy a.1.toNat b.1.toNat with h | h | h
    · exact .inl (.inl (UInt64.lt_iff_toNat_lt.mpr h))
    · have h : a.1 = b.1 := UInt64.toNat_inj.mp h
      exact (UInt64.le_total a.2 b.2).imp (fun hle => .inr ⟨h, hle⟩) fun hle => .inr ⟨h.symm, hle⟩
    · exact .inr (.inl (UInt64.lt_iff_toNat_lt.mpr h))
  have htrans : ∀ a b c : UInt64 × UInt64, rangeLe a b → rangeLe b c → rangeLe a c := by
    rintro a b c (hab | ⟨hab, hab'⟩) (hbc | ⟨hbc, hbc'⟩)
    · exact .inl (UInt64.lt_trans hab hbc)
    · exact .inl (hbc ▸ hab)
    · exact .inl (hab ▸ hbc)
    · exact .inr ⟨hab.trans hbc, UInt64.le_trans hab' hbc'⟩
  have : Std.Total rangeLe := ⟨htotal⟩
  have : IsTrans _ rangeLe := ⟨htrans⟩
  refine (List.pairwise_insertionSort rangeLe _).imp ?_
  rintro a b (h | ⟨h, -⟩)
  · exact UInt64.le_of_lt h
  · exact UInt64.le_of_eq h

/-- **The coverage test is exact.** -/
theorem unionCovers_iff (ledger : FsyncLedger) (first last : UInt64) :
    ledger.unionCovers first last = true ↔
      ∀ i, first ≤ i → i ≤ last → ∃ e ∈ ledger.events, e.segmentFirstIndex ≤ i ∧ i ≤ e.durableThroughIndex := by
  rw [unionCovers]
  split
  · next hempty =>
      refine iff_of_true rfl fun i hi hilast => ?_
      exact absurd (UInt64.lt_of_le_of_lt (UInt64.le_trans hi hilast) hempty) (UInt64.lt_irrefl first)
  · next hfirst =>
      rw [sweep_iff (coveredRanges_sorted ledger.events) (UInt64.not_lt.mp hfirst)]
      simp only [inRanges_coveredRanges]
      rfl

/-- A reported fsync adds its range to what is covered, and takes nothing away. -/
theorem covered_onSegmentFsynced (ledger : FsyncLedger) (first durable i : UInt64) :
    (ledger.onSegmentFsynced first durable).Covered i ↔ ledger.Covered i ∨ (first ≤ i ∧ i ≤ durable) := by
  simp only [Covered, onSegmentFsynced, List.mem_append, List.mem_singleton, or_and_right, exists_or, exists_eq_left]

example : let ledger := ((({} : FsyncLedger).onSegmentFsynced 6 9).onSegmentFsynced 8 7).onSegmentFsynced 1 5
    ledger.unionCovers 2 9 = true ∧ ledger.unionCovers 2 10 = false := by
  decide +kernel

end FsyncLedger

end Arachne.Oracle
