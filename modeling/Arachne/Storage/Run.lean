import Arachne.Data.Run
import Arachne.Storage.Recovery

/-! # Runs of a store

The operations a caller can perform on an open store, and the runs made of them: a store is opened in
an empty directory, and every operation succeeds. `reopen` is a clean close followed by an open, with a
configuration of the caller's choice; segment rollovers happen inside `append`.

A run may be restricted by a condition on each step (`WalRun opts ok`); `Reachable` is a run without
any. -/

namespace Arachne.Storage

/-- An operation of the storage seam. -/
inductive Op where
  | append (entries : List LogEntry)
  | setHardState (hs : HardState)
  | syncEntries
  | saveConfState (confChangeIndex : UInt64) (confState : ConfState)
  | saveSnapshot (snapshot : Snapshot)
  | installSnapshot (snapshot : Snapshot)
  | compact (compactTo : Nat)
  | setTrailingKeepBytes (bytes : Nat)
  | reopen (config : WalConfig)
  deriving DecidableEq

/-- Perform an operation. -/
def Op.exec (opts : WalOptions) (s : WalStorage) : Op → Except StorageError WalStorage
  | .append entries => s.append entries
  | .setHardState hs => .ok (s.setHardState hs)
  | .syncEntries => .ok s.syncEntries
  | .saveConfState confChangeIndex confState => .ok (s.saveConfState confChangeIndex confState)
  | .saveSnapshot snapshot => .ok (s.saveSnapshot snapshot)
  | .installSnapshot snapshot => s.installSnapshot snapshot
  | .compact compactTo => s.compact compactTo
  | .setTrailingKeepBytes bytes => .ok (s.setTrailingKeepBytes bytes)
  | .reopen config => (WalStorage.openDir s.dir { opts with config }).2

/-- A run of successful operations, each meeting `ok` in the state it starts from. -/
def WalRun (opts : WalOptions) (ok : WalStorage → Op → Prop) : List Op → WalStorage → Prop :=
  Transition.Run (fun s => (WalStorage.openDir .empty opts).2 = .ok s)
    fun s op s' => ok s op ∧ op.exec opts s = .ok s'

/-- A store some run of successful operations ends in. -/
def Reachable (opts : WalOptions) (s : WalStorage) : Prop :=
  ∃ ops, WalRun opts (fun _ _ => True) ops s

/-- The hard state an operation sets. -/
def Op.hardState? : Op → Option HardState
  | .setHardState hs => some hs
  | _ => none

/-- The hard state of the last `set_hard_state` of a run. -/
def lastSetHardState (ops : List Op) : HardState := (ops.filterMap Op.hardState?).getLast?.getD .default

theorem lastSetHardState_snoc (ops : List Op) (op : Op) :
    lastSetHardState (ops ++ [op]) = op.hardState?.getD (lastSetHardState ops) := by
  cases h : op.hardState? with
  | none => simp [lastSetHardState, h]
  | some hs => simp [lastSetHardState, h]

theorem toOption_eq_some {α : Type} {x : Except StorageError α} {s : α} :
    x.toOption = some s ↔ x = .ok s := by
  cases x with
  | error e => exact ⟨fun h => (nomatch h), fun h => (nomatch h)⟩
  | ok t => exact ⟨fun h => congrArg Except.ok (Option.some.inj h), fun h => congrArg some (Except.ok.inj h)⟩

/-- Perform the operations in order from an empty directory, as long as each meets `ok` and succeeds. -/
def runOps (opts : WalOptions) (ok : WalStorage → Op → Prop) [∀ s op, Decidable (ok s op)]
    (ops : List Op) : Option WalStorage :=
  match (WalStorage.openDir .empty opts).2 with
  | .error _ => none
  | .ok s => ops.foldlM (fun s op => if ok s op then (op.exec opts s).toOption else none) s

/-- What the executable run computes is a run. -/
theorem WalRun.of_runOps {opts : WalOptions} {ok : WalStorage → Op → Prop} [∀ s op, Decidable (ok s op)]
    {ops : List Op} {s : WalStorage} (h : runOps opts ok ops = some s) : WalRun opts ok ops s := by
  rw [runOps] at h
  split at h
  · cases h
  · next s₀ h₀ =>
      refine Transition.Run.of_foldlM (fun s op s' hs => ?_) h₀ h
      split_ifs at hs with hok
      exact ⟨hok, toOption_eq_some.mp hs⟩

/-- The store a run and a reopen end in. -/
def reopened (opts : WalOptions) (ops : List Op) : Option WalStorage := do
  let s ← runOps opts (fun _ _ => True) ops
  (WalStorage.openDir s.dir opts).2.toOption

theorem WalRun.of_reopened {opts : WalOptions} {ops : List Op} {t : WalStorage}
    (h : reopened opts ops = some t) :
    ∃ s, WalRun opts (fun _ _ => True) ops s ∧ (WalStorage.openDir s.dir opts).2 = .ok t := by
  obtain ⟨s, hs, hopen⟩ := Option.bind_eq_some_iff.mp h
  exact ⟨s, WalRun.of_runOps hs, toOption_eq_some.mp hopen⟩

/-! ## Sample inputs -/

/-- Options of a store whose segments roll over after `segmentBytes`. -/
def sampleOptions (segmentBytes : Nat) : WalOptions :=
  ⟨"cluster", "node", ⟨.always, segmentBytes⟩, 0⟩

def sampleEntry (index term : UInt64) : LogEntry := ⟨index, term, .entry, []⟩

def sampleSnapshot (index : UInt64) : Snapshot := ⟨⟨index, 1, ⟨[1], []⟩⟩, []⟩

end Arachne.Storage
