import Arachne.Runtime.Barrier

/-! # The state machine reflects the log

What the state machine holds at an index is a function of the committed log: `logStore log n` is the store after the
entries up to `n`. A pipeline whose snapshots are taken of the same log keeps its state machine there (`Reflects`),
however it mixes snapshots and entries.

The actor's own index may be ahead of the state machine, but only over membership changes, which leave the map as it
is. So the map is the one of a log prefix that reaches the actor's index as well (`Sys.Reflects.kv_of_changes`). -/

namespace Arachne.Runtime.Pipeline

open Codec (Bytes)
open StateMachine (Store Command decodeStore runLog)
open Storage (EntryType Snapshot)

variable {env : Env} {log : Nat → EntryType × Bytes} {s s' : Sys} {a : Action} {start : Nat}

/-- The store after the entries of the log up to index `n`. -/
def logStore (log : Nat → EntryType × Bytes) (n : Nat) : Store :=
  (runLog ((List.range n).map fun i => payload (log (i + 1)))).2

theorem logStore_succ (log : Nat → EntryType × Bytes) (n : Nat) :
    logStore log (n + 1) = ((logStore log n).apply (UInt64.ofNat (n + 1)) (payload (log (n + 1)))).2 := by
  unfold logStore
  rw [List.range_succ, List.map_append, List.map_singleton, StateMachine.runLog_snoc, List.length_map, List.length_range]

/-- The snapshot is one of this log: a state machine that takes it in is where the log is at its index. -/
def Restores (log : Nat → EntryType × Bytes) (snapshot : Snapshot) : Prop :=
  ∀ st, decodeStore snapshot.data = .ok st → st = logStore log snapshot.metadata.index.toNat

structure Sys.Reflects (log : Nat → EntryType × Bytes) (s : Sys) : Prop where
  sm : s.task.sm = logStore log s.task.sm.applied.toNat
  snapshots : s.AllSnapshots (Restores log)

theorem reflects_start {sm : Store} (h : sm = logStore log sm.applied.toNat) (membership : Membership)
    (clock : Option Nat) : (Sys.start sm membership clock).Reflects log := by
  refine ⟨h, ?_, nofun⟩
  intro batch hb
  rcases hb with hb | hb | hb <;> cases hb

/-- The work of the task takes the state machine to the log's next store, or to the one of a snapshot. -/
theorem Sys.Reflects.work (h : s.Reflects log) (hordered : s.Ordered log start) {batch : ApplyBatch}
    (hworking : s.task.working = some batch) :
    (s.work batch).task.sm = logStore log (s.work batch).task.sm.applied.toNat := by
  rcases batch with ⟨_ | snapshot, entries⟩
  · rcases entries with _ | ⟨⟨index, data⟩, rest⟩
    · exact h.sm
    · obtain ⟨hnext, hindex, hdata⟩ := hordered.next_entry hworking
      simp only [Sys.work]
      split
      · next e sm happly =>
        rw [hnext] at happly
        obtain ⟨-, rfl⟩ := Store.of_apply_next_error happly
        exact h.sm
      · next applied sm happly =>
        show sm = logStore log sm.applied.toNat
        have hofNat : UInt64.ofNat (s.task.sm.applied.toNat + 1) = index := by rw [← hindex, UInt64.ofNat_toNat]
        rw [Store.applied_of_apply happly, hindex, logStore_succ, ← h.sm, hofNat, ← hindex, ← hdata, happly]
  · simp only [Sys.work]
    rw [Store.restore_eq]
    cases hdecode : decodeStore snapshot.data with
    | error e => exact h.sm
    | ok next =>
        have hrestores := h.snapshots.holds _ (.inl hworking) snapshot rfl next hdecode
        obtain ⟨st, hindex, hdata⟩ := hordered.serialized.holds _ (.inl hworking) snapshot rfl
        rw [hdata] at hdecode
        show next = logStore log next.applied.toNat
        rw [StateMachine.applied_of_decodeStore hdecode, hindex]
        exact hrestores

theorem Sys.Reflects.step (h : s.Reflects log) (hordered : s.Ordered log start) (hstep : s.Step env log a s')
    (hrestores : ∀ snapshot entries, a = .deliver snapshot entries → ∀ snap ∈ snapshot, Restores log snap) :
    s'.Reflects log := by
  have hmoves := Sys.moves_of_exec hstep.1
  refine ⟨?_, h.snapshots.step hmoves hrestores⟩
  by_cases ha : a = .work
  · subst ha
    cases hmoves with
    | work hfailed hworking => exact h.work hordered hworking
  · rw [(hmoves.frame ha).1]
    exact h.sm

/-! ## Ahead over membership changes -/

/-- A membership change moves the store on and leaves the map. -/
theorem logStore_succ_of_changes {n : Nat} (happlied : (logStore log n).applied = UInt64.ofNat n)
    (hchange : Changes log (n + 1)) :
    logStore log (n + 1) = { logStore log n with applied := UInt64.ofNat (n + 1) } := by
  have hpayload : payload (log (n + 1)) = [] := by
    unfold Changes at hchange
    revert hchange
    rcases log (n + 1) with ⟨_ | _ | _, data⟩
    · intro hchange
      exact absurd rfl hchange
    · exact fun _ => rfl
    · exact fun _ => rfl
  have hnext : UInt64.ofNat (n + 1) = (logStore log n).applied + 1 := by
    rw [happlied, UInt64.ofNat_add]
    rfl
  rw [logStore_succ, hpayload, hnext, Store.apply_next]
  rfl

theorem kv_logStore_of_changes {n : Nat} (happlied : (logStore log n).applied = UInt64.ofNat n) (k : Nat)
    (hchanges : ∀ i, n < i → i ≤ n + k → Changes log i) :
    (logStore log (n + k)).applied = UInt64.ofNat (n + k) ∧ (logStore log (n + k)).kv = (logStore log n).kv := by
  induction k with
  | zero => exact ⟨happlied, rfl⟩
  | succ k ih =>
      obtain ⟨happlied, hkv⟩ := ih fun i hi hle => hchanges i hi (by omega)
      rw [← Nat.add_assoc, logStore_succ_of_changes happlied (hchanges _ (by omega) (by omega))]
      exact ⟨rfl, hkv⟩

/-- **The map reaches as far as the log above it only changes the membership.** -/
theorem Sys.Reflects.kv_of_changes (h : s.Reflects log) {r : Nat}
    (hchanges : ∀ i, s.task.sm.applied.toNat < i → i ≤ r → Changes log i) :
    ∃ m, r ≤ m ∧ s.task.sm.kv = (logStore log m).kv := by
  rcases Nat.le_total r s.task.sm.applied.toNat with hle | hle
  · exact ⟨_, hle, congrArg Store.kv h.sm⟩
  · obtain ⟨k, rfl⟩ := Nat.exists_eq_add_of_le hle
    have happlied : (logStore log s.task.sm.applied.toNat).applied = UInt64.ofNat s.task.sm.applied.toNat := by
      rw [← h.sm, UInt64.ofNat_toNat]
    refine ⟨_, Nat.le_refl _, ?_⟩
    rw [(kv_logStore_of_changes happlied k hchanges).2, ← h.sm]

end Arachne.Runtime.Pipeline
