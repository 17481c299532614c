import Arachne.Storage.Invariant

/-! # Logs without a gap

The physical entries of a store are gapless from its snapshot to its last index (`Inv.NoGap`). A directory in
that state opens unless a commit is beyond its end (`Inv.openDir_ok_iff`), and every operation keeps it
(`WalRun.noGap`), with one exception: a store reopened with a snapshot beyond its last entry goes on after the
snapshot and leaves a gap behind. -/

namespace Arachne.Storage

open WalStorage

variable {opts : WalOptions} {s s' : WalStorage} {log : Log} {base : Nat}

namespace Inv

/-- The invariant with the log free of gaps. -/
def NoGap (s : WalStorage) (log : Log) : Prop := Gapless log.entries s.lastIndex (watermark s.snapshot)

/-- With nothing below the base, the log starts at 1. -/
theorem noGap_of_base_zero (h : Inv opts s log 0) : NoGap s log := by
  have hcons := h.indexed.consecutive
  have hlast := h.lastIndex_eq
  rw [h.indexed.entries_eq_of_base_zero] at hcons hlast
  exact ⟨1, by omega, hcons, by omega⟩

theorem noGap_of_records_nil (h : Inv opts s log base) (hnil : log.records = []) : NoGap s log := by
  have hent : log.entries = [] := by rw [Log.entries, hnil]; rfl
  have hmem : s.entries = [] := by rw [h.indexed.entries_eq, hent]; rfl
  have hlast := h.lastIndex_eq
  have hbase := h.base_le
  rw [hmem, List.length_nil] at hlast
  rw [NoGap, hent]
  exact ⟨s.lastIndex + 1, by omega, consecutive_nil _, rfl⟩

theorem noGap_append (h : Inv opts s log base) (hgap : NoGap s log) {es : List LogEntry}
    (hok : s.append es = .ok s') : ∃ log', Inv opts s' log' base ∧ NoGap s' log' := by
  obtain ⟨t, log₁, h₁, hloop, hstart, hzero⟩ := h.appendStart hok
  have hgap₁ : NoGap t log₁ := by
    cases hstart with
    | asIs _ ht hlog => rwa [ht, hlog]
    | cut first hfirst hle =>
        obtain rfl := hzero ⟨first, hfirst, hle⟩
        exact h₁.noGap_of_base_zero
  obtain ⟨log', h', hrec⟩ := h₁.appendAll hloop
  refine ⟨log', h', ?_⟩
  obtain ⟨-, hmarks⟩ := entries_of_appendAll hloop
  have hlast := lastIndex_of_appendAll hloop
  have hphys : log'.entries = log₁.entries ++ es := by
    rw [Log.entries, hrec, entriesOf_append, entriesOf_map_entry, Log.entries]
  rw [NoGap, hphys, hlast, hmarks.snapshot_eq]
  exact hgap₁.append (appendAll_eq_ok.mp ⟨_, hloop⟩).1

theorem noGap_compact (h : Inv opts s log base) (hgap : NoGap s log) {compactTo : Nat}
    (hok : s.compact compactTo = .ok s') : ∃ log' base', Inv opts s' log' base' ∧ NoGap s' log' := by
  obtain ⟨log', base', dropped, h', hlast, hsnap, hlog, hdrop, -⟩ := h.compact hok
  refine ⟨log', base', h', ?_⟩
  rw [NoGap, hlast, hsnap]
  have hent : log.entries = entriesOf (recordsOf dropped) ++ log'.entries := by
    simp [Log.entries, Log.records, hlog, recordsOf_append]
  rw [NoGap, hent] at hgap
  refine hgap.drop fun e he => ?_
  obtain ⟨x, hx, he⟩ := mem_entriesOf_recordsOf.mp he
  obtain ⟨hle, hhead⟩ := hdrop (List.ne_nil_of_mem hx)
  -- the first segment kept is named beyond the entry, and at most just past the snapshot
  obtain ⟨pre, xs, hact⟩ := h'.stored.active_last
  obtain ⟨y, ys, hcons⟩ : ∃ y ys, log'.toList = y :: ys :=
    List.exists_cons_of_ne_nil (by rw [hact]; simp)
  have hlaid := h.indexed.laid.lt_next
  rw [hlog, List.pairwise_append] at hlaid
  have hlt := hlaid.2.2 x hx y (by rw [hcons]; simp) e he
  have hname := hhead y.1 (by rw [Assoc.keys, hcons]; rfl)
  omega

theorem noGap_reopen (h : Inv opts s log base) (hgap : NoGap s log) {config : WalConfig} {t : WalStorage}
    (hmark : watermark s.snapshot ≤ s.lastIndex) (hok : (openDir s.dir { opts with config }).2 = .ok t) :
    NoGap t log := by
  obtain ⟨ht, -, -, hent, hmark', -⟩ := h.reopen hok
  have hlast : t.lastIndex = s.lastIndex := by
    have hlen := hgap.length_above
    rw [ht.lastIndex_eq, hent, hlen]
    omega
  rw [NoGap, hlast, hmark']
  exact hgap

/-- **When a log without a gap opens**: the commit of its last hard state is not beyond its end. -/
theorem openDir_ok_iff (h : Inv opts s log base) (hgap : NoGap s log) (config : WalConfig) :
    (∃ t, (openDir s.dir { opts with config }).2 = .ok t) ↔
      (hardStateOf log.records).commit.toNat ≤ max s.lastIndex (watermark s.snapshot) := by
  simp only [(h.readable config).openDir_eq_ok, hgap.lastIndex_above]
  constructor
  · rintro ⟨_, -, hcommit, -⟩
    exact hcommit
  · intro hcommit
    exact ⟨_, hgap.joins, hcommit, rfl⟩

end Inv

/-! ## Runs -/

/-- A store is not reopened while its snapshot is beyond its last entry. -/
def ReopensWithin (s : WalStorage) : Op → Prop
  | .reopen _ => watermark s.snapshot ≤ s.lastIndex
  | _ => True

instance (s : WalStorage) (op : Op) : Decidable (ReopensWithin s op) := by
  cases op <;> unfold ReopensWithin <;> infer_instance

/-- One operation keeps the log free of gaps. -/
theorem Inv.noGap_exec (h : Inv opts s log base) (hgap : Inv.NoGap s log) {op : Op}
    (hwithin : ReopensWithin s op) (hok : op.exec opts s = .ok s') :
    ∃ log' base', Inv opts s' log' base' ∧ Inv.NoGap s' log' := by
  cases op with
  | append entries =>
      obtain ⟨log', h', hgap'⟩ := h.noGap_append hgap hok
      exact ⟨log', base, h', hgap'⟩
  | setHardState hs =>
      obtain rfl := Except.ok.inj hok
      obtain ⟨log', h', hrec⟩ := h.setHardState hs
      refine ⟨log', base, h', ?_⟩
      have hent : log'.entries = log.entries := by
        rw [Log.entries, hrec, entriesOf_append]
        exact List.append_nil _
      rw [Inv.NoGap, hent]
      exact hgap
  | syncEntries =>
      obtain rfl := Except.ok.inj hok
      refine ⟨log, base, h.syncEntries, ?_⟩
      obtain ⟨_, _, _, hsync⟩ := s.syncEntries_eq
      rw [hsync]
      exact hgap
  | saveConfState index confState =>
      obtain rfl := Except.ok.inj hok
      exact ⟨log, base, h.saveConfState index confState, hgap⟩
  | saveSnapshot snapshot =>
      obtain rfl := Except.ok.inj hok
      obtain ⟨h', _, hmono, hlast⟩ := h.saveSnapshot snapshot
      refine ⟨log, base, h', ?_⟩
      rw [Inv.NoGap, hlast]
      exact hgap.mono hmono
  | installSnapshot snapshot =>
      rcases h.installSnapshot hok with ⟨-, -, rfl⟩ | ⟨log', h', hrec⟩
      · exact ⟨log, base, h, hgap⟩
      · exact ⟨log', _, h', h'.noGap_of_records_nil hrec⟩
  | compact compactTo => exact h.noGap_compact hgap hok
  | setTrailingKeepBytes bytes =>
      obtain rfl := Except.ok.inj hok
      exact ⟨log, base, h.setTrailingKeepBytes bytes, hgap⟩
  | reopen config => exact ⟨log, _, (h.reopen hok).1, h.noGap_reopen hgap hwithin hok⟩

/-- **Every run leaves a log without a gap.** -/
theorem WalRun.noGap {ok : WalStorage → Op → Prop} {ops : List Op} (h : WalRun opts ok ops s)
    (hok : ∀ s op, ok s op → ReopensWithin s op) : ∃ log base, Inv opts s log base ∧ Inv.NoGap s log := by
  refine Transition.Run.invariant (P := fun _ s => ∃ log base, Inv opts s log base ∧ Inv.NoGap s log)
    ?_ ?_ h
  · intro s hs
    obtain ⟨log, hinv, -⟩ := Inv.fresh hs
    exact ⟨log, 0, hinv, hinv.noGap_of_base_zero⟩
  · rintro ops s op s' - ⟨log, base, hinv, hgap⟩ ⟨hstep, hexec⟩
    exact hinv.noGap_exec hgap (hok s op hstep) hexec

end Arachne.Storage
