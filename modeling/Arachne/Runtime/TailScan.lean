import Arachne.Runtime.Restart
import Arachne.Storage.Run

/-! # The scan of the log tail

`log_tail_max_session_seq` reads the log in chunks and looks at the head of each command only. Two things make its
answer the right one. The head is enough: for a command that is applied it is the session the state machine looks
up (`commandSession_of_apply`). And nothing is left out: each round moves forward, whatever the sizes of the entries
(`lt_of_scanRound`), so the loop ends, and a log without gaps has been read to its end then.

The scan asks for entries the log may no longer have. From a start below the first index it fails. -/

namespace Arachne.Runtime

open Codec (Bytes)
open StateMachine (Store Command Applied SessionKey commandSession)
open Storage (WalStorage LogEntry)

/-! ## The head of a command -/

/-- What `command_session` finds in a command that was applied: the session it was looked up under, and nothing for
a no-op or a collection of sessions. -/
theorem commandSession_of_apply {st st' : Store} {index : UInt64} {cmd : Bytes} {applied : Applied}
    (h : st.apply index cmd = (.ok applied, st')) :
    match commandSession cmd with
    | some session => ∃ op, Command.decode cmd = .ok (.write session op) ∧ st.write session op = (applied, st')
    | none => Command.decode cmd = .ok .noop ∨ ∃ sessions, Command.decode cmd = .ok (.sessionGc sessions) := by
  obtain ⟨-, c, hdecode, hperform⟩ := Store.of_apply_ok h
  cases c with
  | noop =>
      rw [StateMachine.commandSession_of_decode_noop hdecode]
      exact .inl hdecode
  | sessionGc sessions =>
      rw [StateMachine.commandSession_of_decode_sessionGc hdecode]
      exact .inr ⟨sessions, hdecode⟩
  | write session op =>
      rw [StateMachine.commandSession_of_decode hdecode]
      exact ⟨op, hdecode, hperform⟩

/-! ## The loop -/

/-- One round of the loop: where the next one starts, and the maximum so far. -/
def scanRound (storage : WalStorage) (clientId : UInt64) (next maxSeq : Nat) : Except StartError (Nat × Nat) := do
  let high := min (next + chunkEntries) (storage.lastIndex + 1)
  let batch ← readTail storage next high (some chunkBytes)
  if batch.isEmpty then
    let single ← readTail storage next (next + 1) none
    if single.isEmpty then .error (.missing next)
    else return (next + 1, max maxSeq (maxSessionSeqInData (single.map (·.data)) clientId))
  else return (next + batch.length, max maxSeq (maxSessionSeqInData (batch.map (·.data)) clientId))

/-- The loop without a bound on its rounds: it answers `result` after finitely many of them. -/
inductive Scans (storage : WalStorage) (clientId : UInt64) : Nat → Nat → Except StartError Nat → Prop where
  | done {next maxSeq : Nat} : storage.lastIndex < next → Scans storage clientId next maxSeq (.ok maxSeq)
  | fails {next maxSeq : Nat} {e : StartError} :
      next ≤ storage.lastIndex → scanRound storage clientId next maxSeq = .error e →
      Scans storage clientId next maxSeq (.error e)
  | round {next maxSeq next' maxSeq' : Nat} {result : Except StartError Nat} :
      next ≤ storage.lastIndex → scanRound storage clientId next maxSeq = .ok (next', maxSeq') →
      Scans storage clientId next' maxSeq' result → Scans storage clientId next maxSeq result

theorem scanTail_succ (storage : WalStorage) (clientId : UInt64) (fuel : Nat) {next : Nat} (maxSeq : Nat)
    (h : next ≤ storage.lastIndex) :
    scanTail storage clientId (fuel + 1) next maxSeq =
      (scanRound storage clientId next maxSeq >>= fun x => scanTail storage clientId fuel x.1 x.2) := by
  rw [scanTail, if_pos h, scanRound]
  dsimp only
  cases readTail storage next (min (next + chunkEntries) (storage.lastIndex + 1)) (some chunkBytes) with
  | error e => rfl
  | ok batch =>
      cases batch with
      | nil =>
          cases readTail storage next (next + 1) none with
          | error e => rfl
          | ok single =>
              cases single with
              | nil => rfl
              | cons e es => rfl
      | cons e es => rfl

/-- A round that does not fail moves forward. -/
theorem lt_of_scanRound {storage : WalStorage} {clientId : UInt64} {next maxSeq next' maxSeq' : Nat}
    (h : scanRound storage clientId next maxSeq = .ok (next', maxSeq')) : next < next' := by
  obtain ⟨batch, -, h⟩ := Transition.bind_eq_ok.mp h
  cases batch with
  | nil =>
      obtain ⟨single, -, h⟩ := Transition.bind_eq_ok.mp h
      cases single with
      | nil => cases h
      | cons e es =>
          obtain ⟨rfl, -⟩ := Prod.mk.inj (Except.ok.inj h)
          exact Nat.lt_succ_self next
  | cons e es =>
      obtain ⟨rfl, -⟩ := Prod.mk.inj (Except.ok.inj h)
      exact Nat.lt_add_of_pos_right (Nat.succ_pos es.length)

/-- **The loop ends**, on any storage, and its answer is that of the bounded one. -/
theorem scans_scanTail (storage : WalStorage) (clientId : UInt64) {fuel next : Nat} (maxSeq : Nat)
    (hfuel : storage.lastIndex + 1 - next ≤ fuel) :
    Scans storage clientId next maxSeq (scanTail storage clientId fuel next maxSeq) := by
  induction fuel generalizing next maxSeq with
  | zero => exact .done (by omega)
  | succ fuel ih =>
      by_cases hle : next ≤ storage.lastIndex
      · rw [scanTail_succ storage clientId fuel maxSeq hle]
        cases hround : scanRound storage clientId next maxSeq with
        | error e => exact .fails hle hround
        | ok x =>
            obtain ⟨next', maxSeq'⟩ := x
            have hlt := lt_of_scanRound hround
            exact .round hle hround (ih maxSeq' (by omega))
      · rw [scanTail, if_neg hle]
        exact .done (Nat.lt_of_not_le hle)

/-! ## What it answers -/

/-- The number of a command of the client. -/
def ownSeq (clientId : UInt64) (data : Bytes) : Option Nat :=
  match commandSession data with
  | some session => if session.clientId = clientId then some session.seqNo.toNat else none
  | none => none

/-- The numbers of the client in the entries at or above an index. -/
def tailSeqs (storage : WalStorage) (fromIndex : Nat) (clientId : UInt64) : List Nat :=
  (storage.entries.filter fun e => decide (fromIndex ≤ e.index.toNat)).filterMap fun e => ownSeq clientId e.data

theorem maxSessionSeqInData_eq (datas : List Bytes) (clientId : UInt64) :
    maxSessionSeqInData datas clientId = ((datas.filterMap (ownSeq clientId)).max?).getD 0 := by
  induction datas with
  | nil => rfl
  | cons data datas ih =>
      rw [maxSessionSeqInData, List.foldl_cons, foldl_seenSeq, ih, List.filterMap_cons]
      have hhead : seenSeq clientId 0 data = (ownSeq clientId data).getD 0 := by
        rw [seenSeq, ownSeq]
        cases commandSession data with
        | none => rfl
        | some session =>
            dsimp only
            split_ifs
            · exact Nat.zero_max _
            · rfl
      rw [hhead]
      cases ownSeq clientId data with
      | none => exact Nat.zero_max _
      | some seq =>
          rw [List.max?_cons]
          cases (datas.filterMap (ownSeq clientId)).max? with
          | none => exact Nat.max_zero seq
          | some m => rfl

theorem tailSeqs_eq {storage : WalStorage} (h : storage.Aligned) {fromIndex : Nat} (hfirst : storage.firstIndex ≤ max fromIndex 1)
    (clientId : UInt64) :
    tailSeqs storage fromIndex clientId =
      ((storage.entries.drop (max fromIndex 1 - storage.firstIndex)).map (·.data)).filterMap (ownSeq clientId) := by
  have hone : storage.firstIndex = storage.compactedTo + 1 := rfl
  have hfilter : storage.entries.filter (fun e => decide (fromIndex ≤ e.index.toNat)) =
      storage.entries.drop (max fromIndex 1 - storage.firstIndex) := by
    rw [Storage.Consecutive.drop_eq_filter h]
    refine List.filter_congr fun e he => ?_
    have hbounds := Storage.Consecutive.index_bounds h he
    exact decide_eq_decide.mpr (by omega)
  rw [tailSeqs, hfilter, List.filterMap_map]
  rfl

theorem logTailMaxSessionSeq_of_compacted {storage : WalStorage} (h : storage.Aligned) {fromIndex : Nat}
    (hbelow : max fromIndex 1 < storage.firstIndex) (clientId : UInt64) :
    logTailMaxSessionSeq storage fromIndex clientId = .error (.scan .compacted) := by
  have hlast := h.lastIndex_eq
  have hone : storage.firstIndex = storage.compactedTo + 1 := rfl
  obtain ⟨fuel, hfuel⟩ : ∃ fuel, storage.lastIndex + 1 - max fromIndex 1 = fuel + 1 :=
    Nat.exists_eq_succ_of_ne_zero (by omega)
  have hlt : ¬ max fromIndex 1 ≥ min (max fromIndex 1 + chunkEntries) (storage.lastIndex + 1) := by
    rw [chunkEntries]
    omega
  rw [logTailMaxSessionSeq, hfuel, scanTail_succ storage clientId fuel 0 (by omega), scanRound, readTail,
    WalStorage.entriesIn, if_neg hlt, if_pos hbelow]
  rfl

/-- **Session scanning agrees with execution and is exhaustive.** The session `command_session` finds in a command
that is applied is the one it was looked up under. The scan of a log ends, and answers the highest number of the
client at or above the start, if the log still has the entry at the start; otherwise it fails. -/
theorem session_scan_exact :
    (∀ (st st' : Store) (index : UInt64) (cmd : Bytes) (applied : Applied), st.apply index cmd = (.ok applied, st') →
      match commandSession cmd with
      | some session => ∃ op, Command.decode cmd = .ok (.write session op) ∧ st.write session op = (applied, st')
      | none => Command.decode cmd = .ok .noop ∨ ∃ sessions, Command.decode cmd = .ok (.sessionGc sessions)) ∧
    ∀ storage : WalStorage, storage.Aligned → ∀ (fromIndex : Nat) (clientId : UInt64),
      Scans storage clientId (max fromIndex 1) 0 (logTailMaxSessionSeq storage fromIndex clientId) ∧
      logTailMaxSessionSeq storage fromIndex clientId =
        if max fromIndex 1 < storage.firstIndex then .error (.scan .compacted)
        else .ok ((tailSeqs storage fromIndex clientId).max?.getD 0) := by
  refine ⟨fun st st' index cmd applied h => commandSession_of_apply h, ?_⟩
  intro storage haligned fromIndex clientId
  refine ⟨scans_scanTail storage clientId 0 (Nat.le_refl _), ?_⟩
  split_ifs with hbelow
  · exact logTailMaxSessionSeq_of_compacted haligned hbelow clientId
  · have hfirst := Nat.le_of_not_lt hbelow
    rw [logTailMaxSessionSeq, scanTail_eq haligned clientId 0 hfirst (Nat.le_refl _), Nat.zero_max,
      maxSessionSeqInData_eq, tailSeqs_eq haligned hfirst]

/-- A run that stores three writes of client 7 and a snapshot of the first two. -/
def scannedRun : List Storage.Op :=
  let write (index seq : UInt64) : LogEntry := ⟨index, 1, .entry, StateMachine.encodePut ⟨7, seq⟩ [1] [10]⟩
  [.append [write 1 4, write 2 9, write 3 5], .setHardState ⟨1, none, 2⟩, .saveSnapshot (Storage.sampleSnapshot 2)]

/-- After a reopen the scan from the first index sees the third write only. -/
theorem session_scan_exact_scannedRun :
    ∃ storage, Storage.reopened (Storage.sampleOptions 1024) scannedRun = some storage ∧ storage.Aligned ∧
      logTailMaxSessionSeq storage 3 7 = .ok 5 ∧ logTailMaxSessionSeq storage 3 8 = .ok 0 ∧
      ∃ op, Command.decode (StateMachine.encodePut ⟨7, 4⟩ [1] [10]) = .ok (.write ⟨7, 4⟩ op) := by
  have heval : (Storage.reopened (Storage.sampleOptions 1024) scannedRun).any (fun storage =>
      storage.firstIndex = 3 ∧ tailSeqs storage 3 7 = [5] ∧ tailSeqs storage 3 8 = []) := by decide +kernel
  obtain ⟨storage, hstorage, hfacts⟩ := (Option.any_eq_true _ _).mp heval
  obtain ⟨hfirst, hown, hother⟩ := of_decide_eq_true hfacts
  obtain ⟨s, -, hopen⟩ := Storage.WalRun.of_reopened hstorage
  have haligned : storage.Aligned := (Storage.aligned_of_openDir (Prod.ext rfl hopen)).1
  have hscan := session_scan_exact.2 storage haligned 3
  have happly : Store.new.apply 1 (StateMachine.encodePut ⟨7, 4⟩ [1] [10]) =
      (.ok ⟨.value [10], 1, [.put 1 [1] [10]]⟩, (Store.new.apply 1 (StateMachine.encodePut ⟨7, 4⟩ [1] [10])).2) :=
    Prod.ext (by decide +kernel) rfl
  have hsession := session_scan_exact.1 _ _ _ _ _ happly
  rw [show commandSession (StateMachine.encodePut ⟨7, 4⟩ [1] [10]) = some ⟨7, 4⟩ by decide +kernel] at hsession
  obtain ⟨op, hop, -⟩ := hsession
  refine ⟨storage, hstorage, haligned, ?_, ?_, op, hop⟩
  · rw [(hscan 7).2, hfirst, hown]
    rfl
  · rw [(hscan 8).2, hfirst, hother]
    rfl

/-- From a start below the first index the scan fails, although an entry of the client lies above it. -/
theorem scan_below_first_fails :
    ∃ storage, Storage.reopened (Storage.sampleOptions 1024) scannedRun = some storage ∧
      tailSeqs storage 1 7 = [5] ∧ logTailMaxSessionSeq storage 1 7 = .error (.scan .compacted) := by
  have heval : (Storage.reopened (Storage.sampleOptions 1024) scannedRun).any (fun storage =>
      tailSeqs storage 1 7 = [5] ∧ logTailMaxSessionSeq storage 1 7 = .error (.scan .compacted)) := by decide +kernel
  obtain ⟨storage, hstorage, hfacts⟩ := (Option.any_eq_true _ _).mp heval
  exact ⟨storage, hstorage, of_decide_eq_true hfacts⟩

end Arachne.Runtime
