import Arachne.Storage.Gapless

/-! # Does the hard state survive a reopen?

Recovery reports the last HardState record it finds in the segments. HardState records share the segments
with entries, and three operations remove records of either kind: an overwriting `append` cuts everything
behind the entry it keeps, `install_snapshot` unlinks every segment, and `compact` unlinks leading ones.
None of them writes the hard state again, so each can take the last HardState record with it
(`hardState_forgotten`).

`KeepsHardState` is the condition that it does not, and under it a reopened store reports the hard state
that was last set (`hardState_survives_reopen`). -/

namespace Arachne.Storage

open WalStorage

/-- Some of the records is a HardState record. -/
def HoldsHardState (rs : List Record) : Prop := ∃ r ∈ rs, r.hardState? ≠ none

instance (rs : List Record) : Decidable (HoldsHardState rs) :=
  inferInstanceAs (Decidable (∃ r ∈ rs, r.hardState? ≠ none))

/-- Compaction to `compactTo` may unlink segment `n`: a later one starts at most one past `compactTo`. -/
def Releasable (log : Log) (compactTo n : Nat) : Prop := ∃ m ∈ log.keys, n < m ∧ m ≤ compactTo + 1

instance (log : Log) (compactTo n : Nat) : Decidable (Releasable log compactTo n) :=
  inferInstanceAs (Decidable (∃ m ∈ log.keys, n < m ∧ m ≤ compactTo + 1))

/-- **The operation removes no HardState record that is still needed.**

* An overwriting `append` finds none behind the entry it keeps.
* `install_snapshot` has nothing to replace, or the log holds none.
* `compact` has nothing to do, may unlink no segment that holds one, or keeps a segment that does.

A store is not reopened with its snapshot beyond its last entry (`ReopensWithin`). -/
def KeepsHardState (s : WalStorage) : Op → Prop
  | .append entries => ∀ first ∈ entries.head?, first.index.toNat ≤ s.lastIndex →
      ¬ HoldsHardState (recordsAfter (first.index.toNat - 1) s.dir.log.records)
  | .installSnapshot snapshot =>
      snapshot.metadata.index.toNat = s.compactedTo ∧ s.entries = [] ∨ ¬ HoldsHardState s.dir.log.records
  | .compact compactTo => compactTo ≤ s.compactedTo ∨
      (∀ p ∈ s.dir.log.toList, Releasable s.dir.log compactTo p.1 → ¬ HoldsHardState p.2) ∨
      ∃ p ∈ s.dir.log.toList, ¬ Releasable s.dir.log compactTo p.1 ∧ HoldsHardState p.2
  | op => ReopensWithin s op

instance (s : WalStorage) (op : Op) : Decidable (KeepsHardState s op) :=
  match op with
  | .append entries =>
    inferInstanceAs (Decidable (∀ first ∈ entries.head?, first.index.toNat ≤ s.lastIndex →
      ¬ HoldsHardState (recordsAfter (first.index.toNat - 1) s.dir.log.records)))
  | .installSnapshot snapshot =>
    inferInstanceAs (Decidable
      (snapshot.metadata.index.toNat = s.compactedTo ∧ s.entries = [] ∨ ¬ HoldsHardState s.dir.log.records))
  | .compact compactTo =>
    inferInstanceAs (Decidable (compactTo ≤ s.compactedTo ∨
      (∀ p ∈ s.dir.log.toList, Releasable s.dir.log compactTo p.1 → ¬ HoldsHardState p.2) ∨
      ∃ p ∈ s.dir.log.toList, ¬ Releasable s.dir.log compactTo p.1 ∧ HoldsHardState p.2))
  | .reopen _ => inferInstanceAs (Decidable (watermark s.snapshot ≤ s.lastIndex))
  | .setHardState _ | .syncEntries | .saveConfState _ _ | .saveSnapshot _ | .setTrailingKeepBytes _ => isTrue trivial

theorem KeepsHardState.reopensWithin {s : WalStorage} {op : Op} (h : KeepsHardState s op) :
    ReopensWithin s op := by
  cases op with
  | append entries => trivial
  | installSnapshot snapshot => trivial
  | compact compactTo => trivial
  | _ => exact h

/-! ## One operation -/

variable {opts : WalOptions} {s s' : WalStorage} {log : Log} {base : Nat}

theorem hardStateOf_append_of_not_holds {xs ys : List Record} (h : ¬ HoldsHardState ys) :
    hardStateOf (xs ++ ys) = hardStateOf xs := by
  apply hardStateOf_append_of_none
  intro r hr
  by_contra hne
  exact h ⟨r, hr, hne⟩

theorem hardStateOf_of_not_holds {rs : List Record} (h : ¬ HoldsHardState rs) :
    hardStateOf rs = .default :=
  @hardStateOf_append_of_not_holds [] rs h

namespace Inv

/-- Entries do not change the hard state; what an overwriting append cuts may. -/
theorem hardStateOf_append (h : Inv opts s log base) {es : List LogEntry} (hok : s.append es = .ok s')
    (hkeep : KeepsHardState s (.append es)) :
    ∃ log', Inv opts s' log' base ∧ hardStateOf log'.records = hardStateOf log.records := by
  obtain ⟨t, log₁, h₁, hloop, hstart, -⟩ := h.appendStart hok
  obtain ⟨log', h', hrec⟩ := h₁.appendAll hloop
  refine ⟨log', h', ?_⟩
  have hentries : ¬ HoldsHardState (es.map Record.entry) := by
    rintro ⟨r, hr, hne⟩
    obtain ⟨e, -, rfl⟩ := List.mem_map.mp hr
    exact hne rfl
  rw [hrec, hardStateOf_append_of_not_holds hentries]
  cases hstart with
  | asIs _ _ hlog => rw [hlog]
  | cut first hfirst hle _ _ hlog =>
      have hnone := hkeep first hfirst hle
      rw [h.log_eq] at hnone
      rw [hlog, hardStateOf_append_of_not_holds hnone]

theorem hardStateOf_installSnapshot (h : Inv opts s log base) {snapshot : Snapshot}
    (hok : s.installSnapshot snapshot = .ok s') (hkeep : KeepsHardState s (.installSnapshot snapshot)) :
    ∃ log' base', Inv opts s' log' base' ∧ hardStateOf log'.records = hardStateOf log.records := by
  rcases hkeep with ⟨hidx, hnil⟩ | hnone
  · -- already there: nothing happens
    have hsame : s.installSnapshot snapshot = .ok s := by
      simp only [WalStorage.installSnapshot]
      rw [if_neg (Nat.not_lt.mpr hidx.ge), if_pos ⟨hidx, hnil⟩]
    obtain rfl := Except.ok.inj (hsame.symm.trans hok)
    exact ⟨log, base, h, rfl⟩
  · rw [h.log_eq] at hnone
    rcases h.installSnapshot hok with ⟨-, -, rfl⟩ | ⟨log', h', hrec⟩
    · exact ⟨log, base, h, rfl⟩
    · refine ⟨log', _, h', ?_⟩
      rw [hrec, hardStateOf_of_not_holds hnone]
      rfl

theorem hardStateOf_compact (h : Inv opts s log base) {compactTo : Nat}
    (hok : s.compact compactTo = .ok s') (hkeep : KeepsHardState s (.compact compactTo)) :
    ∃ log' base', Inv opts s' log' base' ∧ hardStateOf log'.records = hardStateOf log.records := by
  rcases hkeep with hdone | hkeep
  · have hsame : s.compact compactTo = .ok s := by
      simp only [WalStorage.compact]
      rw [if_pos hdone]
    obtain rfl := Except.ok.inj (hsame.symm.trans hok)
    exact ⟨log, base, h, rfl⟩
  · obtain ⟨log', base', dropped, h', -, -, hlog, hdrop, -⟩ := h.compact hok
    refine ⟨log', base', h', ?_⟩
    rw [h.log_eq] at hkeep
    have hrec : log.records = recordsOf dropped ++ log'.records := by
      rw [Log.records, hlog, recordsOf_append, Log.records]
    -- a dropped segment is followed by the first one kept
    have hreleased : ∀ p ∈ dropped, Releasable log compactTo p.1 := by
      intro p hp
      obtain ⟨pre, xs, hact⟩ := h'.stored.active_last
      obtain ⟨y, ys, hcons⟩ : ∃ y ys, log'.toList = y :: ys :=
        List.exists_cons_of_ne_nil (by rw [hact]; simp)
      have hname := (hdrop (List.ne_nil_of_mem hp)).2 y.1 (by rw [Assoc.keys, hcons]; rfl)
      have hasc := log.ascending
      rw [hlog, hcons, List.map_append, List.pairwise_append] at hasc
      refine ⟨y.1, ?_, hasc.2.2 p.1 (List.mem_map_of_mem hp) y.1 (by simp), hname⟩
      rw [Assoc.keys, hlog, hcons]
      simp
    rw [hrec]
    rcases hkeep with hnone | ⟨p, hp, hstays, r, hr, hne⟩
    · have hdropped : ¬ HoldsHardState (recordsOf dropped) := by
        rintro ⟨r, hr, hne⟩
        obtain ⟨p, hp, hr⟩ := List.mem_flatMap.mp hr
        exact hnone p (by rw [hlog]; exact List.mem_append_left _ hp) (hreleased p hp) ⟨r, hr, hne⟩
      by_cases hholds : HoldsHardState log'.records
      · obtain ⟨r, hr, hne⟩ := hholds
        rw [hardStateOf_append_of_some hr hne]
      · rw [hardStateOf_append_of_not_holds hholds, hardStateOf_of_not_holds hholds,
          hardStateOf_of_not_holds hdropped]
    · have hp' : p ∈ log'.toList := by
        rw [hlog, List.mem_append] at hp
        exact hp.resolve_left fun hd => hstays (hreleased p hd)
      have hr' : r ∈ log'.records := List.mem_flatMap.mpr ⟨p, hp', hr⟩
      rw [hardStateOf_append_of_some hr' hne]

/-- One operation: the last HardState record is the one it sets, or the one there was. -/
theorem hardStateOf_exec (h : Inv opts s log base) {op : Op} (hkeep : KeepsHardState s op)
    (hok : op.exec opts s = .ok s') : ∃ log' base', Inv opts s' log' base' ∧
      hardStateOf log'.records = op.hardState?.getD (hardStateOf log.records) := by
  cases op with
  | append entries =>
      obtain ⟨log', h', heq⟩ := h.hardStateOf_append hok hkeep
      exact ⟨log', base, h', heq⟩
  | setHardState hs =>
      obtain rfl := Except.ok.inj hok
      obtain ⟨log', h', hrec⟩ := h.setHardState hs
      exact ⟨log', base, h', by rw [hrec, hardStateOf_append_hardState]; rfl⟩
  | syncEntries =>
      obtain rfl := Except.ok.inj hok
      exact ⟨log, base, h.syncEntries, rfl⟩
  | saveConfState index confState =>
      obtain rfl := Except.ok.inj hok
      exact ⟨log, base, h.saveConfState index confState, rfl⟩
  | saveSnapshot snapshot =>
      obtain rfl := Except.ok.inj hok
      exact ⟨log, base, (h.saveSnapshot snapshot).1, rfl⟩
  | installSnapshot snapshot => exact h.hardStateOf_installSnapshot hok hkeep
  | compact compactTo => exact h.hardStateOf_compact hok hkeep
  | setTrailingKeepBytes bytes =>
      obtain rfl := Except.ok.inj hok
      exact ⟨log, base, h.setTrailingKeepBytes bytes, rfl⟩
  | reopen config => exact ⟨log, _, (h.reopen hok).1, rfl⟩

end Inv

/-! ## Runs -/

/-- **Along a run that keeps it**, the last HardState record is the one last set. -/
theorem WalRun.hardStateOf_eq {ops : List Op} (h : WalRun opts KeepsHardState ops s) :
    ∃ log base, Inv opts s log base ∧ hardStateOf log.records = lastSetHardState ops := by
  refine Transition.Run.invariant
    (P := fun ops s => ∃ log base, Inv opts s log base ∧ hardStateOf log.records = lastSetHardState ops)
    ?_ ?_ h
  · intro s hs
    obtain ⟨log, hinv, hrec, -⟩ := Inv.fresh hs
    exact ⟨log, 0, hinv, by rw [hrec]; rfl⟩
  · rintro ops s op s' - ⟨log, base, hinv, heq⟩ ⟨hkeep, hexec⟩
    obtain ⟨log', base', hinv', heq'⟩ := hinv.hardStateOf_exec hkeep hexec
    exact ⟨log', base', hinv', by rw [heq', heq, lastSetHardState_snoc]⟩

/-- **Hard state durability.** After a run whose operations remove no HardState record that is still needed,
the directory opens unless the commit last set is beyond the log and its snapshot, and the store it opens
as has the hard state last set. -/
theorem hardState_survives_reopen {ops : List Op} (h : WalRun opts KeepsHardState ops s)
    (config : WalConfig) :
    ((∃ t, (openDir s.dir { opts with config }).2 = .ok t) ↔
      (lastSetHardState ops).commit.toNat ≤ max s.lastIndex (watermark s.snapshot)) ∧
    ∀ t, (openDir s.dir { opts with config }).2 = .ok t → t.hardState = lastSetHardState ops := by
  obtain ⟨log, base, hinv, heq⟩ := h.hardStateOf_eq
  obtain ⟨log', base', hinv', hgap⟩ := h.noGap fun _ _ => KeepsHardState.reopensWithin
  obtain rfl : log = log' := hinv.log_eq.symm.trans hinv'.log_eq
  rw [← heq]
  refine ⟨hinv.openDir_ok_iff hgap config, fun t ht => ?_⟩
  exact (hinv.reopen ht).2.2.1

/-! ## A run that keeps it, and three that do not -/

/-- Each segment holds one entry; the hard state is set again after the overwrite and before compaction. -/
def keepingRun : List Op :=
  [.append [sampleEntry 1 1, sampleEntry 2 1, sampleEntry 3 1],
    .append [sampleEntry 3 2, sampleEntry 4 2],
    .setHardState ⟨2, some 1, 3⟩, .saveSnapshot (sampleSnapshot 2), .compact 2,
    .reopen ⟨.always, 8⟩, .append [sampleEntry 5 2], .setHardState ⟨3, some 2, 5⟩]

theorem hardState_survives_keepingRun : ∃ s, WalRun (sampleOptions 8) KeepsHardState keepingRun s ∧
    (∃ t, (openDir s.dir (sampleOptions 8)).2 = .ok t) ∧
    ∀ t, (openDir s.dir (sampleOptions 8)).2 = .ok t → t.hardState = ⟨3, some 2, 5⟩ := by
  have heval : (runOps (sampleOptions 8) KeepsHardState keepingRun).any (5 ≤ ·.lastIndex) := by
    decide +kernel
  obtain ⟨s, hs, hlast⟩ := (Option.any_eq_true _ _).mp heval
  have hrun := WalRun.of_runOps hs
  obtain ⟨hopens, hsame⟩ := hardState_survives_reopen hrun (sampleOptions 8).config
  refine ⟨s, hrun, hopens.mpr ?_, hsame⟩
  exact le_max_of_le_left (of_decide_eq_true hlast)

/-- An overwriting append right after the hard state was set. -/
def overwriteRun : List Op :=
  [.append [sampleEntry 1 1, sampleEntry 2 1], .setHardState ⟨5, some 2, 1⟩, .append [sampleEntry 2 6]]

/-- A snapshot installed right after the hard state was set. -/
def installRun : List Op :=
  [.append [sampleEntry 1 1, sampleEntry 2 1], .setHardState ⟨5, some 2, 1⟩,
    .installSnapshot (sampleSnapshot 9)]

/-- The hard state is in the first segment when a compaction drops that segment. -/
def compactRun : List Op :=
  [.append [sampleEntry 1 1], .setHardState ⟨5, some 2, 1⟩, .append [sampleEntry 2 5],
    .saveSnapshot (sampleSnapshot 1), .compact 1]

/-- The store was last told term 5 and a vote, and after the operations and a reopen has neither. -/
def Forgets (ops : List Op) : Prop := ∃ s t,
  WalRun (sampleOptions 8) (fun _ _ => True) ops s ∧ lastSetHardState ops = ⟨5, some 2, 1⟩ ∧
    (openDir s.dir (sampleOptions 8)).2 = .ok t ∧ t.hardState = ⟨0, none, 0⟩

theorem forgets_of_reopened {ops : List Op} (hlast : lastSetHardState ops = ⟨5, some 2, 1⟩)
    (h : (reopened (sampleOptions 8) ops).map (·.hardState) = some ⟨0, none, 0⟩) : Forgets ops := by
  obtain ⟨t, ht, hhs⟩ := Option.map_eq_some_iff.mp h
  obtain ⟨s, hrun, hopen⟩ := WalRun.of_reopened ht
  exact ⟨s, t, hrun, hlast, hopen, hhs⟩

/-- Each of the three operations alone makes the reopened store forget its term and its vote. -/
theorem hardState_forgotten : Forgets overwriteRun ∧ Forgets installRun ∧ Forgets compactRun := by
  refine ⟨forgets_of_reopened ?_ ?_, forgets_of_reopened ?_ ?_, forgets_of_reopened ?_ ?_⟩ <;> decide +kernel

end Arachne.Storage
