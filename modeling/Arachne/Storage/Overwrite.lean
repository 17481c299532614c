import Arachne.Storage.Invariant

/-! # Overwriting a conflicting suffix

A batch whose first index is within the log replaces the entries from there on. `truncate_log_to` cuts the
files by log index but the in-memory log by position (`Vec::truncate(keep)`), and the two agree only while
the in-memory log starts at index 1. Once a compaction or an installed snapshot has raised the watermark,
the cut leaves the wrong entries in memory, the batch no longer continues the log, and `append` fails.

`append_overwrites_iff` says when a batch that may be appended is appended as it should be. -/

namespace Arachne.Storage

open WalStorage

/-- A batch `append` should take: contiguous from `f`, within the record size limit, above watermark and
commit, and not beyond the end of the log. -/
structure ValidBatch (s : WalStorage) (f : Nat) (es : List LogEntry) : Prop where
  ne_nil : es ≠ []
  consecutive : Consecutive f es
  fits : ∀ e ∈ es, e.Fits
  above : max s.compactedTo s.hardState.commit.toNat < f
  within : f ≤ s.lastIndex + 1

instance (s : WalStorage) (f : Nat) (es : List LogEntry) : Decidable (ValidBatch s f es) :=
  decidable_of_iff (es ≠ [] ∧ Consecutive f es ∧ (∀ e ∈ es, e.Fits) ∧
      max s.compactedTo s.hardState.commit.toNat < f ∧ f ≤ s.lastIndex + 1)
    ⟨fun ⟨h₁, h₂, h₃, h₄, h₅⟩ => ⟨h₁, h₂, h₃, h₄, h₅⟩, fun ⟨h₁, h₂, h₃, h₄, h₅⟩ => ⟨h₁, h₂, h₃, h₄, h₅⟩⟩

/-- What `append` should do: keep the retained entries below `f`, put the batch behind them, and leave
`first_index` alone. -/
def Overwrites (s : WalStorage) (f : Nat) (es : List LogEntry) (s' : WalStorage) : Prop :=
  s'.entries = s.entries.filter (·.index.toNat < f) ++ es ∧ s'.firstIndex = s.firstIndex

variable {opts : WalOptions} {s : WalStorage} {log : Log} {base f : Nat} {es : List LogEntry}

theorem ValidBatch.head (h : ValidBatch s f es) : ∃ first, es.head? = some first ∧ first.index.toNat = f := by
  obtain ⟨first, rest, rfl⟩ := List.exists_cons_of_ne_nil h.ne_nil
  exact ⟨first, rfl, (consecutive_cons.mp h.consecutive).1⟩

namespace Inv

/-- At the end of the log nothing needs to be cut. -/
theorem append_at_end (h : Inv opts s log base) (hb : ValidBatch s f es) (hend : f = s.lastIndex + 1) :
    ∃ s', s.append es = .ok s' ∧ Overwrites s f es s' := by
  obtain ⟨s', hok, hloop⟩ := append_of_consecutive (hend ▸ hb.consecutive) hb.fits
  obtain ⟨hent, hmarks⟩ := entries_of_appendAll hloop
  refine ⟨s', hok, ?_, congrArg (· + 1) hmarks.compactedTo_eq⟩
  rw [hent, List.filter_eq_self.mpr]
  intro e he
  have hlt := (h.indexed.consecutive.index_bounds he).2
  have hlast := h.lastIndex_eq
  simp only [decide_eq_true_eq]
  omega

/-- With the in-memory log starting at 1, positions are indices and the cut is right. -/
theorem append_within (h : Inv opts s log 0) (hb : ValidBatch s f es) (hle : f ≤ s.lastIndex) :
    ∃ s', s.append es = .ok s' ∧ Overwrites s f es s' := by
  obtain ⟨first, hfirst, hidx⟩ := hb.head
  have habove := hb.above
  have hlast := h.lastIndex_eq
  have hcons := h.indexed.consecutive
  have hne : s.entries ≠ [] := by
    intro hnil
    rw [hnil, List.length_nil] at hlast
    omega
  have hcut : f - 1 < (lastEntryIndex? s.entries).getD 0 := by
    rw [hcons.lastEntryIndex?, if_neg hne, Option.getD_some]
    omega
  obtain ⟨hent, hmarks⟩ := entries_truncateLogTo hcut
  have hok : s.overwriteSuffix first = .ok (s.truncateLogTo (f - 1)).1 :=
    (overwriteSuffix_eq_ok (by omega)).mpr ⟨by omega, by omega, by rw [hidx]⟩
  -- what is left ends just before the batch
  have hend : (s.truncateLogTo (f - 1)).1.lastIndex = f - 1 := by
    have hlen : (s.entries.take (f - 1)).length = f - 1 := by
      rw [List.length_take]
      omega
    have hmark : s.compactedTo = 0 := Nat.le_zero.mp h.indexed.watermark_le
    rw [lastIndex, hent, hmarks.compactedTo_eq, (hcons.take _).lastEntryIndex?, hlen]
    split_ifs with hnil
    · rw [hnil, List.length_nil] at hlen
      rw [Option.getD_none, hmark, hlen]
    · rw [Option.getD_some]
      omega
  have hnext : f - 1 + 1 = f := by omega
  obtain ⟨s', hloop⟩ := appendAll_eq_ok.mpr
    ⟨show Consecutive ((s.truncateLogTo (f - 1)).1.lastIndex + 1) es by
      rw [hend, hnext]; exact hb.consecutive, hb.fits⟩
  refine ⟨s', ?_, ?_⟩
  · rw [WalStorage.append, hfirst]
    exact Transition.bind_eq_ok.mpr ⟨_, hok, hloop⟩
  · obtain ⟨hent', hmarks'⟩ := entries_of_appendAll hloop
    refine ⟨?_, congrArg (· + 1) (hmarks.trans hmarks').compactedTo_eq⟩
    rw [hent', hent, hcons.take_eq_filter, show 0 + 1 + (f - 1) = f by omega]

end Inv

/-- **Overwriting a suffix.** In every reachable store, a batch that may be appended is appended as it
should be exactly if it starts at the end of the log or the watermark is still 0. -/
theorem append_overwrites_iff (hs : Reachable opts s) (hb : ValidBatch s f es) :
    (∃ s', s.append es = .ok s' ∧ Overwrites s f es s') ↔ f = s.lastIndex + 1 ∨ s.compactedTo = 0 := by
  obtain ⟨ops, hrun⟩ := hs
  obtain ⟨log, base, h⟩ := hrun.inv
  have hwithin := hb.within
  constructor
  · rintro ⟨s', hok, -⟩
    by_cases hend : f = s.lastIndex + 1
    · exact .inl hend
    · -- the batch starts within the log, so it was cut, and that only works from index 1 on
      obtain ⟨first, hfirst, hidx⟩ := hb.head
      obtain ⟨_, _, -, -, -, hzero⟩ := h.appendStart hok
      have hbase : base = 0 := hzero ⟨first, hfirst, by omega⟩
      have := h.indexed.watermark_le
      exact .inr (by omega)
  · intro hcond
    by_cases hend : f = s.lastIndex + 1
    · exact h.append_at_end hb hend
    · obtain rfl : base = 0 := h.indexed.base_of_zero (hcond.resolve_left hend)
      exact h.append_within hb (by omega)

/-- Entries 1 to 4 with commit 2. -/
def fourEntries : List Op :=
  [.append [sampleEntry 1 1, sampleEntry 2 1, sampleEntry 3 1, sampleEntry 4 1], .setHardState ⟨1, none, 2⟩]

theorem append_overwrites_fourEntries : ∃ s, Reachable (sampleOptions 1000) s ∧
    ValidBatch s 3 [sampleEntry 3 2] ∧
    ∃ s', s.append [sampleEntry 3 2] = .ok s' ∧ Overwrites s 3 [sampleEntry 3 2] s' := by
  have heval : (runOps (sampleOptions 1000) (fun _ _ => True) fourEntries).any fun s =>
      s.compactedTo = 0 ∧ ValidBatch s 3 [sampleEntry 3 2] := by
    decide +kernel
  obtain ⟨s, hs, hp⟩ := (Option.any_eq_true _ _).mp heval
  obtain ⟨hmark, hb⟩ := of_decide_eq_true hp
  have hreach : Reachable (sampleOptions 1000) s := ⟨fourEntries, WalRun.of_runOps hs⟩
  exact ⟨s, hreach, hb, (append_overwrites_iff hreach hb).mpr (.inr hmark)⟩

/-- The same log compacted up to 2: entries 3 and 4 stay. Overwriting entry 4 cuts the in-memory log after
position 3, which leaves entry 4 where it is. -/
theorem append_refused_after_compaction : ∃ s, Reachable (sampleOptions 1000) s ∧
    ValidBatch s 4 [sampleEntry 4 2] ∧
    s.append [sampleEntry 4 2] =
      .error (.unrecoverable "append continuity violation: expected 5, got 4") := by
  have heval : (runOps (sampleOptions 1000) (fun _ _ => True)
      (fourEntries ++ [.saveSnapshot (sampleSnapshot 2), .compact 2])).any fun s =>
      ValidBatch s 4 [sampleEntry 4 2] ∧ s.append [sampleEntry 4 2] =
        .error (.unrecoverable "append continuity violation: expected 5, got 4") := by
    decide +kernel
  obtain ⟨s, hs, hp⟩ := (Option.any_eq_true _ _).mp heval
  exact ⟨s, ⟨_, WalRun.of_runOps hs⟩, of_decide_eq_true hp⟩

end Arachne.Storage
