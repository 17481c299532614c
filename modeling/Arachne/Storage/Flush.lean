import Arachne.Data.Disk
import Arachne.Data.Interference
import Arachne.Storage.Invariant

/-! # Off-thread durability

With off-thread durability enabled, `persist_ready_records` writes its records without syncing them and hands a flush
job to the flusher thread; `poll_flush` asks for the outcome of a job. The flusher receives a batch of jobs, syncs each
distinct segment of it once, and reports all of them.

`FlushSys` is the system of the two threads. The store's thread makes the file-system calls of a
`persist_ready_records` one at a time, and the flusher may take a step between any two. Beside the state of the
program the system has the disk (how much of each segment is synced, and which call wrote each byte) and the history
of what was reported. -/

namespace Arachne.Storage

open Codec (Bytes)

/-! ## The calls of the store's thread -/

namespace WalStorage

/-- `append_buffered`. -/
def appendBuffered (s : WalStorage) (entries : List LogEntry) : Except StorageError WalStorage := s.append entries

/-- Write a HardState record without syncing it. -/
def setHardStateBuffered (s : WalStorage) (hs : HardState) : WalStorage :=
  { s.io (.appendSegment s.segmentFirstIndex (Record.hardState hs).encode) with
    pendingEntryFsync := true
    hardState := hs }

/-- `persist_ready_records`: the store, and whether a flush has to be submitted. -/
def persistReadyRecords (s : WalStorage) (offloaded : Bool) (entries : List LogEntry) (hardState : Option HardState) :
    Except StorageError (WalStorage × Bool) :=
  if offloaded = false then
    (if entries ≠ [] then (s.append entries).map syncEntries else .ok s).map fun s =>
      ((hardState.map s.setHardState).getD s, false)
  else
    let wroteRecords := decide (entries ≠ []) || hardState.isSome
    (if entries ≠ [] then s.appendBuffered entries else .ok s).map fun s =>
      ((hardState.map s.setHardStateBuffered).getD s, wroteRecords)

end WalStorage

/-- A job for the flusher: a segment's name and the descriptor of its file. -/
structure FlushJob where
  id : Nat
  segmentFirstIndex : Nat
  inode : Nat
  deriving DecidableEq

/-- What the flusher reports for a job. -/
structure FlushJobResult where
  id : Nat
  segmentFirstIndex : Nat
  result : Except String Unit
  isSegmentOwner : Bool
  deriving DecidableEq

/-- `poll_flush`: the store, the results left, and what the token's job came to, if it is done. -/
def WalStorage.pollFlush (s : WalStorage) (done : List FlushJobResult) (token : Nat) :
    WalStorage × List FlushJobResult × Option (Except String Unit) :=
  match done.find? (·.id == token) with
  | none => (s, done, none)
  | some finished =>
    let s :=
      match finished.result with
      | .error _ => s
      | .ok () =>
        if finished.isSegmentOwner ∧ finished.segmentFirstIndex = s.segmentFirstIndex then
          ({ s with pendingEntryFsync := false }).notifyFsynced
        else s
    (s, done.eraseP (·.id == token), some finished.result)

/-! ## The flusher -/

/-- The jobs of a batch by segment: the descriptor and the last job of each, and for each job its group. -/
structure Batch where
  groups : List (Nat × Nat)
  lastId : List Nat
  report : List (Nat × Nat × Nat)
  deriving DecidableEq

namespace Batch

/-- A later job of a segment supersedes the descriptor and becomes the owner. -/
def add (b : Batch) (job : FlushJob) : Batch :=
  match b.groups.findIdx? (·.1 == job.segmentFirstIndex) with
  | some pos =>
    { groups := b.groups.set pos (job.segmentFirstIndex, job.inode)
      lastId := b.lastId.set pos job.id
      report := b.report ++ [(job.id, job.segmentFirstIndex, pos)] }
  | none =>
    { groups := b.groups ++ [(job.segmentFirstIndex, job.inode)]
      lastId := b.lastId ++ [job.id]
      report := b.report ++ [(job.id, job.segmentFirstIndex, b.groups.length)] }

def ofJobs (jobs : List FlushJob) : Batch := jobs.foldl add ⟨[], [], []⟩

/-- The outcome of a batch. -/
def result (anyFailed : Bool) : Except String Unit :=
  if anyFailed then .error "flusher batch sync failed; node must fail-stop" else .ok ()

/-- What a batch reports: its outcome, for each of its jobs. -/
def results (b : Batch) (anyFailed : Bool) : List FlushJobResult :=
  b.report.map fun (jobId, segment, groupIdx) =>
    ⟨jobId, segment, result anyFailed, b.lastId[groupIdx]? == some jobId⟩

end Batch

/-- The flusher with a batch: how many groups it has synced, and whether a sync has failed. -/
structure Flusher where
  jobs : List FlushJob
  syncCount : Nat
  anyFailed : Bool
  deriving DecidableEq

/-! ## The disk -/

/-- Segment files whose bytes carry the token of the call that wrote them. -/
abbrev SegmentDisk := Disk (UInt8 × Option Nat)

/-- What a file-system call does to the disk. -/
def FsStep.onDisk (token : Option Nat) (d : SegmentDisk) : FsStep → SegmentDisk
  | .createSegment n => d.create n
  | .appendSegment n bytes => d.append n (bytes.map (·, token))
  | .truncateSegment n offset => d.truncate n offset
  | .syncSegment n => d.sync n
  | .removeSegment n => d.remove n
  | _ => d

/-- The bytes of the segment files. -/
def SegmentDisk.bytes (d : SegmentDisk) : Assoc Bytes := d.files.map fun f => f.content.map Prod.fst

/-! ## The system -/

/-- A store with off-thread durability and its flusher. `call` has the file-system calls the running
`persist_ready_records` has yet to make. -/
structure FlushSys where
  store : WalStorage
  call : Option (List FsStep)
  jobs : List FlushJob
  nextId : Nat
  flusher : Option Flusher
  done : List FlushJobResult
  disk : SegmentDisk
  /-- What `poll_flush` has reported so far. -/
  reported : List (Nat × Except String Unit)
  /-- The tokens of batches in which a sync failed. -/
  failed : List Nat
  deriving DecidableEq

/-- A step of one of the two threads. -/
inductive FlushAction where
  /-- `persist_ready_records` is called. -/
  | persist (entries : List LogEntry) (hardState : Option HardState)
  /-- It makes its next file-system call. -/
  | call
  /-- It submits its flush and returns the token. -/
  | submit
  /-- The flusher receives a batch: a first job and `more` others. -/
  | receive (more : Nat)
  /-- It syncs the next group. -/
  | sync
  /-- The sync of the next group fails. -/
  | syncFails
  /-- It reports the batch. -/
  | report
  /-- `poll_flush` is called. -/
  | poll (token : Nat)
  deriving DecidableEq

namespace FlushSys

/-- Off-thread durability enabled on a store whose files are synced. -/
def start (s : WalStorage) : FlushSys where
  store := s
  call := none
  jobs := []
  nextId := 0
  flusher := none
  done := []
  disk := Disk.ofSynced (s.dir.segments.map (·.map (·, none)))
  reported := []
  failed := []

def exec (σ : FlushSys) : FlushAction → Option FlushSys
  | .persist entries hardState =>
    match σ.call, σ.store.persistReadyRecords true entries hardState with
    | none, .ok (store, true) => some { σ with store, call := some (store.journal.drop σ.store.journal.length) }
    | none, .ok (store, false) => some { σ with store }
    | _, _ => none
  | .call =>
    match σ.call with
    | some (step :: rest) => some { σ with disk := step.onDisk (some σ.nextId) σ.disk, call := some rest }
    | _ => none
  | .submit =>
    match σ.call, σ.disk.files.get? σ.store.segmentFirstIndex with
    | some [], some file =>
      some { σ with
        jobs := σ.jobs ++ [⟨σ.nextId, σ.store.segmentFirstIndex, file.inode⟩]
        nextId := σ.nextId + 1
        call := none }
    | _, _ => none
  | .receive more =>
    match σ.flusher with
    | none =>
      if more < σ.jobs.length then
        some { σ with jobs := σ.jobs.drop (more + 1), flusher := some ⟨σ.jobs.take (more + 1), 0, false⟩ }
      else none
    | some _ => none
  | .sync =>
    match σ.flusher with
    | some ⟨jobs, syncCount, false⟩ =>
      match (Batch.ofJobs jobs).groups[syncCount]? with
      | some group =>
        some { σ with disk := σ.disk.syncInode group.2, flusher := some ⟨jobs, syncCount + 1, false⟩ }
      | none => none
    | _ => none
  | .syncFails =>
    match σ.flusher with
    | some ⟨jobs, syncCount, false⟩ =>
      if syncCount < (Batch.ofJobs jobs).groups.length then
        some { σ with flusher := some ⟨jobs, syncCount + 1, true⟩, failed := σ.failed ++ jobs.map (·.id) }
      else none
    | _ => none
  | .report =>
    match σ.flusher with
    | some ⟨jobs, syncCount, anyFailed⟩ =>
      if anyFailed ∨ syncCount = (Batch.ofJobs jobs).groups.length then
        some { σ with done := σ.done ++ (Batch.ofJobs jobs).results anyFailed, flusher := none }
      else none
    | none => none
  | .poll token =>
    match σ.call, σ.store.pollFlush σ.done token with
    | none, (store, done, some result) => some { σ with store, done, reported := σ.reported ++ [(token, result)] }
    | none, (store, done, none) => some { σ with store, done }
    | some _, _ => none

end FlushSys

/-- The steps of the system, case by case. -/
inductive FlushStep (σ : FlushSys) : FlushAction → FlushSys → Prop where
  | persist {entries : List LogEntry} {hardState : Option HardState} {store : WalStorage} (hcall : σ.call = none)
      (hok : σ.store.persistReadyRecords true entries hardState = .ok (store, true)) :
      FlushStep σ (.persist entries hardState)
        { σ with store, call := some (store.journal.drop σ.store.journal.length) }
  | persistNothing {entries : List LogEntry} {hardState : Option HardState} {store : WalStorage}
      (hcall : σ.call = none) (hok : σ.store.persistReadyRecords true entries hardState = .ok (store, false)) :
      FlushStep σ (.persist entries hardState) { σ with store }
  | call {step : FsStep} {rest : List FsStep} (hcall : σ.call = some (step :: rest)) :
      FlushStep σ .call { σ with disk := step.onDisk (some σ.nextId) σ.disk, call := some rest }
  | submit {file : DiskFile (UInt8 × Option Nat)} (hcall : σ.call = some [])
      (hfile : σ.disk.files.get? σ.store.segmentFirstIndex = some file) :
      FlushStep σ .submit
        { σ with
          jobs := σ.jobs ++ [⟨σ.nextId, σ.store.segmentFirstIndex, file.inode⟩]
          nextId := σ.nextId + 1
          call := none }
  | receive {more : Nat} (hflusher : σ.flusher = none) (hmore : more < σ.jobs.length) :
      FlushStep σ (.receive more)
        { σ with jobs := σ.jobs.drop (more + 1), flusher := some ⟨σ.jobs.take (more + 1), 0, false⟩ }
  | sync {jobs : List FlushJob} {n : Nat} {group : Nat × Nat} (hflusher : σ.flusher = some ⟨jobs, n, false⟩)
      (hgroup : (Batch.ofJobs jobs).groups[n]? = some group) :
      FlushStep σ .sync { σ with disk := σ.disk.syncInode group.2, flusher := some ⟨jobs, n + 1, false⟩ }
  | syncFails {jobs : List FlushJob} {n : Nat} (hflusher : σ.flusher = some ⟨jobs, n, false⟩)
      (hn : n < (Batch.ofJobs jobs).groups.length) :
      FlushStep σ .syncFails
        { σ with flusher := some ⟨jobs, n + 1, true⟩, failed := σ.failed ++ jobs.map (·.id) }
  | report {jobs : List FlushJob} {n : Nat} {anyFailed : Bool} (hflusher : σ.flusher = some ⟨jobs, n, anyFailed⟩)
      (hdone : anyFailed ∨ n = (Batch.ofJobs jobs).groups.length) :
      FlushStep σ .report { σ with done := σ.done ++ (Batch.ofJobs jobs).results anyFailed, flusher := none }
  | poll {token : Nat} {r : FlushJobResult} (hcall : σ.call = none)
      (hfind : σ.done.find? (·.id == token) = some r) :
      FlushStep σ (.poll token)
        { σ with
          store := (σ.store.pollFlush σ.done token).1
          done := σ.done.eraseP (·.id == token)
          reported := σ.reported ++ [(token, r.result)] }
  | pollAgain {token : Nat} (hcall : σ.call = none) (hfind : σ.done.find? (·.id == token) = none) :
      FlushStep σ (.poll token) σ

theorem FlushStep.of_exec {σ σ' : FlushSys} {a : FlushAction} (h : σ.exec a = some σ') : FlushStep σ a σ' := by
  cases a with
  | persist entries hardState =>
      simp only [FlushSys.exec] at h
      split at h
      · next hcall hok => exact Option.some.inj h ▸ .persist hcall hok
      · next hcall hok => exact Option.some.inj h ▸ .persistNothing hcall hok
      · cases h
  | call =>
      simp only [FlushSys.exec] at h
      split at h
      · next hcall => exact Option.some.inj h ▸ .call hcall
      · cases h
  | submit =>
      simp only [FlushSys.exec] at h
      split at h
      · next hcall hfile => exact Option.some.inj h ▸ .submit hcall hfile
      · cases h
  | receive more =>
      simp only [FlushSys.exec] at h
      split at h
      · next hflusher =>
          split_ifs at h with hmore
          exact Option.some.inj h ▸ .receive hflusher hmore
      · cases h
  | sync =>
      simp only [FlushSys.exec] at h
      split at h
      · next hflusher =>
          split at h
          · next hgroup => exact Option.some.inj h ▸ .sync hflusher hgroup
          · cases h
      · cases h
  | syncFails =>
      simp only [FlushSys.exec] at h
      split at h
      · next hflusher =>
          split_ifs at h with hn
          exact Option.some.inj h ▸ .syncFails hflusher hn
      · cases h
  | report =>
      simp only [FlushSys.exec] at h
      split at h
      · next hflusher =>
          split_ifs at h with hdone
          exact Option.some.inj h ▸ .report hflusher hdone
      · cases h
  | poll token =>
      simp only [FlushSys.exec] at h
      cases hfind : σ.done.find? (·.id == token) with
      | none =>
          have hpoll : σ.store.pollFlush σ.done token = (σ.store, σ.done, none) := by
            rw [WalStorage.pollFlush, hfind]
          rw [hpoll] at h
          split at h
          · next hres => cases hres
          · next hcall hres =>
              cases hres
              exact Option.some.inj h ▸ .pollAgain hcall hfind
          · cases h
      | some r =>
          have hpoll : σ.store.pollFlush σ.done token =
              ((σ.store.pollFlush σ.done token).1, σ.done.eraseP (·.id == token), some r.result) := by
            rw [WalStorage.pollFlush, hfind]
          rw [hpoll] at h
          split at h
          · next hcall hres =>
              cases hres
              exact Option.some.inj h ▸ .poll hcall hfind
          · next hres => cases hres
          · cases h

/-- A run of the system, each step meeting `ok` in the state it starts from. -/
def FlushRun (opts : WalOptions) (ok : FlushSys → FlushAction → Prop) : List FlushAction → FlushSys → Prop :=
  Transition.Run (fun σ => ∃ s, Reachable opts s ∧ σ = .start s) fun σ a σ' => ok σ a ∧ σ.exec a = some σ'

/-- Perform a list of operations, enable off-thread durability, and take the steps in order, as long as each meets
`ok` and is possible. -/
def runFlush (opts : WalOptions) (ok : FlushSys → FlushAction → Prop) [∀ σ a, Decidable (ok σ a)] (ops : List Op)
    (acts : List FlushAction) : Option FlushSys := do
  let s ← runOps opts (fun _ _ => True) ops
  acts.foldlM (fun σ a => if ok σ a then σ.exec a else none) (.start s)

theorem FlushRun.of_runFlush {opts : WalOptions} {ok : FlushSys → FlushAction → Prop} [∀ σ a, Decidable (ok σ a)]
    {ops : List Op} {acts : List FlushAction} {σ : FlushSys} (h : runFlush opts ok ops acts = some σ) :
    FlushRun opts ok acts σ := by
  obtain ⟨s, hs, hrun⟩ := Option.bind_eq_some_iff.mp h
  refine Transition.Run.of_foldlM (fun σ a σ' hstep => ?_) ⟨s, ⟨ops, WalRun.of_runOps hs⟩, rfl⟩ hrun
  split_ifs at hstep with hok
  exact ⟨hok, hstep⟩

/-! ## What the calls leave unsynced

`U` selects the bytes to keep an eye on: all of them, or those of one call. -/

/-- What the flusher does to the disk. -/
def FlusherSyncs (d d' : SegmentDisk) : Prop := ∃ inode, d' = d.syncInode inode

/-- The disk as the store's thread expects it between two of its operations: the store's files, with unsynced bytes in
the active segment only, and with none if nothing is pending. -/
structure Ready (U : UInt8 × Option Nat → Prop) (s : WalStorage) (d : SegmentDisk) : Prop where
  bytes_eq : d.bytes = s.dir.segments
  confined : d.Confined U
  clean : s.pendingEntryFsync = false → d.Clean U

/-- What holds whenever a file-system call is made: unsynced bytes are in the last segment, and there are none when a
segment is created. -/
def Careful (U : UInt8 × Option Nat → Prop) (d : SegmentDisk) (step : FsStep) : Prop :=
  d.Confined U ∧ ∀ n, step = .createSegment n → d.Clean U

/-- The remaining file-system calls of a call with `token` are made carefully and leave the disk ready for `s`. -/
def Carefully (U : UInt8 × Option Nat → Prop) (token : Nat) (s : WalStorage) : SegmentDisk → List FsStep → Prop :=
  Interference.Safely FlusherSyncs (FsStep.onDisk (some token)) (Careful U) (Ready U s)

variable {U : UInt8 × Option Nat → Prop} {opts : WalOptions} {s s' t : WalStorage} {log : Log} {base token : Nat}
  {d : SegmentDisk} {segments : Assoc Bytes}

open Interference WalStorage

theorem bytes_syncInode (d : SegmentDisk) (inode : Nat) : SegmentDisk.bytes (d.syncInode inode) = d.bytes := by
  refine Assoc.ext ?_
  rw [SegmentDisk.bytes, SegmentDisk.bytes, Disk.syncInode, Assoc.toList_map, Assoc.toList_map, Assoc.toList_map,
    List.map_map]
  refine List.map_congr_left fun p _ => ?_
  simp only [Function.comp]
  split_ifs <;> rfl

theorem stable_bytes (segments : Assoc Bytes) : Stable FlusherSyncs fun d => d.bytes = segments := by
  rintro d _ ⟨inode, rfl⟩ h
  exact (bytes_syncInode d inode).trans h

theorem stable_confined : Stable FlusherSyncs (Disk.Confined U) := by
  rintro d _ ⟨inode, rfl⟩ h
  exact h.syncInode inode

theorem stable_clean : Stable FlusherSyncs (Disk.Clean U) := by
  rintro d _ ⟨inode, rfl⟩ h
  exact h.syncInode inode

theorem stable_ready (s : WalStorage) : Stable FlusherSyncs (Ready U s) := by
  rintro d d' hd h
  exact ⟨stable_bytes _ d d' hd h.bytes_eq, stable_confined d d' hd h.confined,
    fun hp => stable_clean d d' hd (h.clean hp)⟩

theorem bytes_modify {n : Nat} {f : DiskFile (UInt8 × Option Nat) → DiskFile (UInt8 × Option Nat)}
    {hf : ∀ x, (f x).inode = x.inode} {g : Bytes → Bytes}
    (h : ∀ x, (f x).content.map Prod.fst = g (x.content.map Prod.fst)) :
    SegmentDisk.bytes (d.modify n f hf) = d.bytes.modify n g := Assoc.map_modify _ _ h

/-- The disk follows the directory. -/
theorem bytes_onDisk {dir : Dir} (h : d.bytes = dir.segments) (step : FsStep) (token : Option Nat) :
    SegmentDisk.bytes (step.onDisk token d) = (step.run dir).segments := by
  cases step with
  | createSegment n =>
      show SegmentDisk.bytes (d.create n) = dir.segments.insertNew n []
      rw [Disk.create]
      split_ifs with hmem
      · rw [← h, Assoc.insertNew_of_mem]
        rwa [SegmentDisk.bytes, Assoc.keys_map]
      · rw [← h]
        exact Assoc.map_insertNew _ _ _ _
  | appendSegment n bytes =>
      show SegmentDisk.bytes (d.append n _) = dir.segments.modify n (· ++ bytes)
      rw [← h]
      refine bytes_modify fun f => ?_
      simp [DiskFile.append, Function.comp_def]
  | truncateSegment n offset =>
      show SegmentDisk.bytes (d.truncate n offset) = dir.segments.modify n (·.take offset)
      rw [← h]
      exact bytes_modify fun f => List.map_take
  | syncSegment n =>
      show SegmentDisk.bytes (d.sync n) = dir.segments
      rw [← h]
      exact Assoc.map_modify_eq _ _ fun f => rfl
  | removeSegment n =>
      show SegmentDisk.bytes (d.remove n) = dir.segments.erase n
      rw [← h]
      exact Assoc.map_erase _ _ _
  | writeMeta m => exact h
  | renameSnapshot snapshot => exact h
  | removeSnapshot index term => exact h
  | writeMembership index confState => exact h

theorem keys_of_bytes (h : d.bytes = segments) : d.files.keys = segments.keys := by
  rw [← h, SegmentDisk.bytes, Assoc.keys_map]

/-- Writing to the last segment. -/
theorem safely_append {dir : Dir} {n : Nat} (hlast : ∀ k ∈ dir.segments.keys, k ≤ n) (bytes : Bytes)
    (hd : d.bytes = dir.segments ∧ d.Confined U) :
    Safely FlusherSyncs (FsStep.onDisk (some token)) (Careful U)
      (fun d => d.bytes = (FsStep.run dir (.appendSegment n bytes)).segments ∧ d.Confined U) d
      [.appendSegment n bytes] := by
  refine .cons ((stable_bytes _).and stable_confined) hd fun d hd => ⟨⟨hd.2, fun _ h => (nomatch h)⟩, ?_⟩
  refine .nil ((stable_bytes _).and stable_confined) ⟨bytes_onDisk hd.1 (.appendSegment n bytes) _, ?_⟩
  exact hd.2.append (keys_of_bytes hd.1 ▸ hlast) _

/-- Creating a segment when everything is synced. -/
theorem safely_create {dir : Dir} (n : Nat) (hd : d.bytes = dir.segments ∧ d.Clean U) :
    Safely FlusherSyncs (FsStep.onDisk (some token)) (Careful U)
      (fun d => d.bytes = (FsStep.run dir (.createSegment n)).segments ∧ d.Clean U) d [.createSegment n] := by
  refine .cons ((stable_bytes _).and stable_clean) hd fun d hd => ⟨⟨hd.2.confined, fun _ _ => hd.2⟩, ?_⟩
  exact .nil ((stable_bytes _).and stable_clean) ⟨bytes_onDisk hd.1 (.createSegment n) _, hd.2.create n⟩

/-- Syncing the last segment. -/
theorem safely_sync {dir : Dir} {n : Nat} (hmem : n ∈ dir.segments.keys) (hlast : ∀ k ∈ dir.segments.keys, k ≤ n)
    (hd : d.bytes = dir.segments ∧ d.Confined U) :
    Safely FlusherSyncs (FsStep.onDisk (some token)) (Careful U)
      (fun d => d.bytes = dir.segments ∧ d.Clean U) d [.syncSegment n] := by
  refine .cons ((stable_bytes _).and stable_confined) hd fun d hd => ⟨⟨hd.2, fun _ h => (nomatch h)⟩, ?_⟩
  refine .nil ((stable_bytes _).and stable_clean) ⟨bytes_onDisk hd.1 (.syncSegment n) _, ?_⟩
  rw [← keys_of_bytes hd.1] at hmem hlast
  exact hd.2.clean_sync hmem hlast

/-- Unlinking every segment that is not clean. -/
theorem safely_removes {dir : Dir} {ns : List Nat} (hb : d.bytes = dir.segments) (hc : d.Confined U)
    (hclean : ∀ p ∈ d.files.toList, p.1 ∉ ns → p.2.Clean U) :
    Safely FlusherSyncs (FsStep.onDisk (some token)) (Careful U)
      (fun d => d.bytes = (FsStep.runAll dir (ns.map .removeSegment)).segments ∧ d.Clean U) d
      (ns.map .removeSegment) := by
  induction ns generalizing d dir with
  | nil => exact .nil ((stable_bytes _).and stable_clean) ⟨hb, fun p hp => hclean p hp List.not_mem_nil⟩
  | cons n ns ih =>
      have hstable : Stable FlusherSyncs fun d : SegmentDisk =>
          ∀ p ∈ d.files.toList, p.1 ∉ n :: ns → p.2.Clean U := by
        rintro d _ ⟨inode, rfl⟩ h p hp hns
        obtain ⟨q, hq, hname, ⟨-, heq⟩ | ⟨-, heq⟩⟩ := Disk.mem_syncInode hp
        · exact heq ▸ q.2.clean_sync
        · exact heq ▸ h q hq (hname ▸ hns)
      refine .cons ((stable_bytes _).and (stable_confined.and hstable)) ⟨hb, hc, hclean⟩ fun d hd => ?_
      refine ⟨⟨hd.2.1, fun _ h => (nomatch h)⟩, ?_⟩
      refine ih (bytes_onDisk hd.1 (.removeSegment n) _) (hd.2.1.remove n) fun p hp hns => ?_
      obtain ⟨hp, hne⟩ := List.mem_filter.mp hp
      refine hd.2.2 p hp fun hmem => ?_
      rcases List.mem_cons.mp hmem with heq | hmem
      · simp [heq] at hne
      · exact hns hmem

/-! ## One operation of the store -/

/-- The file-system calls between `s` and `s'` are made carefully, from any disk that is ready. -/
def Writes (U : UInt8 × Option Nat → Prop) (token : Nat) (s s' : WalStorage) : Prop :=
  ∃ steps, s'.journal = s.journal ++ steps ∧ ∀ d, Ready U s d → Carefully U token s' d steps

theorem Writes.refl (s : WalStorage) : Writes U token s s :=
  ⟨[], (List.append_nil _).symm, fun _ hd => .nil (stable_ready s) hd⟩

theorem Writes.trans (h : Writes U token s t) (h' : Writes U token t s') : Writes U token s s' := by
  obtain ⟨xs, hxs, hsafe⟩ := h
  obtain ⟨ys, hys, hsafe'⟩ := h'
  exact ⟨xs ++ ys, by rw [hys, hxs, List.append_assoc], fun d hd => (hsafe d hd).append hsafe'⟩

/-- The active segment is the last one. -/
theorem Tracks.active_last (h : Tracks s log base) : s.segmentFirstIndex ∈ s.dir.segments.keys ∧
    ∀ k ∈ s.dir.segments.keys, k ≤ s.segmentFirstIndex := by
  obtain ⟨pre, xs, hlog⟩ := h.stored.active_last
  rw [h.stored.keys_eq]
  exact ⟨by simp [Assoc.keys, hlog], fun k hk => Assoc.le_of_mem_keys hlog hk⟩

theorem Tracks.writes_setHardStateBuffered (h : Tracks s log base) (hs : HardState) :
    Writes U token s (s.setHardStateBuffered hs) := by
  refine ⟨[_], rfl, fun d hd => ?_⟩
  refine (safely_append h.active_last.2 _ ⟨hd.bytes_eq, hd.confined⟩).weaken fun d hd => ?_
  exact ⟨hd.1, hd.2, fun hp => (nomatch hp)⟩

/-- **A rollover** syncs the outgoing segment unless nothing is pending, and the entry goes to the new one. -/
theorem Tracks.writes_appendEntry (h : Tracks s log base) {e : LogEntry} (hok : s.appendEntry e = .ok s') :
    Writes U token s s' := by
  obtain ⟨hidx, -, rfl⟩ := appendEntry_eq_ok.mp hok
  obtain ⟨hmem, hlast⟩ := h.active_last
  have hle : ∀ k ∈ s.dir.segments.keys, k ≤ e.index.toNat := by
    rw [h.stored.keys_eq, hidx, h.lastIndex_eq]
    exact h.indexed.keys_le
  have hnew : ∀ k ∈ (s.dir.segments.insertNew e.index.toNat []).keys, k ≤ e.index.toNat := by
    intro k hk
    rcases Assoc.mem_keys_insertList hk with rfl | hk
    · exact le_rfl
    · exact hle k hk
  -- from a clean disk: create the segment and write to it
  have hroll : ∀ (d : SegmentDisk), d.bytes = s.dir.segments ∧ d.Clean U →
      Safely FlusherSyncs (FsStep.onDisk (some token)) (Careful U)
        (fun d => d.bytes = ((s.dir.segments.insertNew e.index.toNat []).modify e.index.toNat
          (· ++ (Record.entry e).encode)) ∧ d.Confined U) d
        [.createSegment e.index.toNat, .appendSegment e.index.toNat (Record.entry e).encode] := by
    intro d hd
    exact (safely_create e.index.toNat hd).append fun d hd =>
      @safely_append U token d (FsStep.run s.dir (.createSegment e.index.toNat)) _ hnew _ ⟨hd.1, hd.2.confined⟩
  rw [WalStorage.maybeRollover]
  split_ifs with hfull hpending
  · refine ⟨[.syncSegment s.segmentFirstIndex] ++
      [.createSegment e.index.toNat, .appendSegment e.index.toNat (Record.entry e).encode], ?_, fun d hd => ?_⟩
    · simp [io, notifyFsynced]
    · refine ((safely_sync hmem hlast ⟨hd.bytes_eq, hd.confined⟩).append hroll).weaken fun d hd => ?_
      exact ⟨hd.1, hd.2, fun hp => by cases hp⟩
  · refine ⟨[.createSegment e.index.toNat, .appendSegment e.index.toNat (Record.entry e).encode], ?_,
      fun d hd => ?_⟩
    · simp [io]
    · refine (hroll d ⟨hd.bytes_eq, hd.clean (by simpa using hpending)⟩).weaken fun d hd => ?_
      exact ⟨hd.1, hd.2, fun hp => by cases hp⟩
  · refine ⟨[_], rfl, fun d hd => ?_⟩
    refine (safely_append hlast _ ⟨hd.bytes_eq, hd.confined⟩).weaken fun d hd => ?_
    exact ⟨hd.1, hd.2, fun hp => by cases hp⟩

theorem Tracks.writes_appendAll (h : Tracks s log base) {es : List LogEntry}
    (hok : es.foldlM WalStorage.appendEntry s = .ok s') : Writes U token s s' := by
  induction hok using Transition.foldlM_induction generalizing log with
  | nil => exact .refl s'
  | cons ht _ ih =>
      obtain ⟨log₁, h₁, -⟩ := h.appendEntry ht
      exact (h.writes_appendEntry ht).trans (ih h₁)

theorem findHolding_mem {keep n offset : Nat} {l : List (Nat × Bytes)}
    (h : findHolding keep l = some (n, offset)) : n ∈ l.map Prod.fst := by
  induction l with
  | nil => cases h
  | cons x l ih =>
      rw [findHolding] at h
      split at h
      · cases h
        exact List.mem_cons_self
      · exact List.mem_cons_of_mem _ (ih h)

/-- **Cutting a suffix** syncs the segment it keeps the start of and unlinks the later ones. -/
theorem writes_truncateLogTo (s : WalStorage) (keep : Nat) : Writes U token s (s.truncateLogTo keep).1 := by
  rw [truncateLogTo]
  split_ifs with hlast
  · exact .refl s
  · dsimp only
    split
    · next first offset hfind =>
        have hmem : first ∈ s.dir.segments.keys := findHolding_mem hfind
        refine ⟨.truncateSegment first offset :: .syncSegment first ::
          (s.dir.segments.keys.filter (first < ·)).map .removeSegment, ?_, fun d hd => ?_⟩
        · simp only [ioAll_eq, Dir.listSegmentIndices]
        · refine .cons (stable_ready s) hd fun d hd => ⟨⟨hd.confined, fun _ h => by cases h⟩, ?_⟩
          have hb := bytes_onDisk hd.bytes_eq (.truncateSegment first offset) (some token)
          refine .cons ((stable_bytes _).and stable_confined) ⟨hb, hd.confined.truncate first offset⟩ fun d hd => ?_
          refine ⟨⟨hd.2, fun _ h => by cases h⟩, ?_⟩
          refine (safely_removes (bytes_onDisk hd.1 (.syncSegment first) _) (hd.2.sync first) ?_).weaken
            fun d hd => ⟨?_, hd.2.confined, fun _ => hd.2⟩
          · -- what stays is the synced segment and the ones before it
            have hkeys : d.files.keys = s.dir.segments.keys := (keys_of_bytes hd.1).trans (Assoc.keys_modify _ _ _)
            intro p hp hns
            refine hd.2.clean_sync_le (hkeys ▸ hmem) hp (Nat.not_lt.mp fun hlt => hns ?_)
            have hp' : p.1 ∈ d.files.keys := Disk.keys_modify d first _ DiskFile.inode_sync ▸ List.mem_map_of_mem hp
            exact List.mem_filter.mpr ⟨hkeys ▸ hp', by simpa using hlt⟩
          · simp only [ioAll_eq, Dir.listSegmentIndices]
            exact hd.1
    · refine ⟨s.dir.segments.keys.map FsStep.removeSegment ++ [.createSegment 1], ?_, fun d hd => ?_⟩
      · simp only [ioAll_eq, Dir.listSegmentIndices]
      · have hremoves := @safely_removes U token d s.dir s.dir.segments.keys hd.bytes_eq hd.confined
          fun p hp hns => absurd (keys_of_bytes hd.bytes_eq ▸ List.mem_map_of_mem hp) hns
        refine (hremoves.append fun d hd => safely_create 1 hd).weaken
          fun d hd => ⟨?_, hd.2.confined, fun _ => hd.2⟩
        simp only [ioAll_eq, Dir.listSegmentIndices, FsStep.runAll_append]
        exact hd.1

theorem Inv.writes_append (h : Inv opts s log base) {es : List LogEntry} (hok : s.append es = .ok s') :
    Writes U token s s' := by
  obtain ⟨t, log₁, h₁, hloop, hstart, -⟩ := h.appendStart hok
  have hcut : Writes U token s t := by
    cases hstart with
    | asIs _ ht _ =>
        rw [ht]
        exact .refl s
    | cut first _ _ _ _ _ ht => exact ht ▸ writes_truncateLogTo s _
  exact hcut.trans (h₁.toTracks.writes_appendAll hloop)

theorem Inv.setHardStateBuffered (h : Inv opts s log base) (hs : HardState) :
    ∃ log' : Log, Inv opts (s.setHardStateBuffered hs) log' base := by
  -- the same bytes go to the same file, only without a sync
  obtain ⟨log', h', -⟩ := h.setHardState hs
  exact ⟨log', ⟨⟨h'.stored, h'.indexed⟩, h'.snapped, h'.base_le⟩⟩

/-- **`persist_ready_records`** keeps the invariant and makes its file-system calls carefully; it makes none if there is
nothing to flush. -/
theorem Inv.persistReadyRecords (h : Inv opts s log base) {entries : List LogEntry} {hs : Option HardState}
    {wrote : Bool} (hok : s.persistReadyRecords true entries hs = .ok (s', wrote)) :
    (∃ log' : Log, Inv opts s' log' base) ∧ Writes U token s s' ∧ (wrote = false → s' = s) := by
  rw [WalStorage.persistReadyRecords, if_neg (by decide)] at hok
  obtain ⟨t, ht, hres⟩ := Transition.map_eq_ok.mp hok
  have hstore := congrArg Prod.fst hres
  have hwrote := congrArg Prod.snd hres
  have hentries : (∃ log' : Log, Inv opts t log' base) ∧ Writes U token s t ∧ (entries = [] → t = s) := by
    split_ifs at ht with hne
    · exact ⟨h.append ht, h.writes_append ht, fun hnil => absurd hnil hne⟩
    · obtain rfl := Except.ok.inj ht
      exact ⟨⟨log, h⟩, .refl s, fun _ => rfl⟩
  obtain ⟨⟨log₁, h₁⟩, hwrites, hsame⟩ := hentries
  cases hs with
  | none =>
      obtain rfl : t = s' := hstore
      refine ⟨⟨log₁, h₁⟩, hwrites, fun hfalse => hsame ?_⟩
      simpa [hfalse] using hwrote
  | some hs =>
      obtain rfl : t.setHardStateBuffered hs = s' := hstore
      refine ⟨h₁.setHardStateBuffered hs, hwrites.trans (h₁.toTracks.writes_setHardStateBuffered hs), ?_⟩
      rintro rfl
      simp at hwrote

/-! ## Runs of the system -/

/-- A poll touches no file and no entry. -/
theorem pollFlush_eq (s : WalStorage) (done : List FlushJobResult) (token : Nat) :
    ∃ pendingEntryFsync notified, (s.pollFlush done token).1 = { s with pendingEntryFsync, notified } := by
  rw [pollFlush]
  split
  · exact ⟨_, _, rfl⟩
  · split
    · exact ⟨_, _, rfl⟩
    · dsimp only
      split_ifs
      · exact ⟨false, _, rfl⟩
      · exact ⟨_, _, rfl⟩

variable {σ σ' : FlushSys} {a : FlushAction}

theorem FlushStep.inv (hstep : FlushStep σ a σ') (h : ∃ log base, Inv opts σ.store log base) :
    ∃ log base, Inv opts σ'.store log base := by
  obtain ⟨log, base, h⟩ := h
  cases hstep with
  | persist _ hok =>
      obtain ⟨⟨log', h'⟩, -⟩ := @Inv.persistReadyRecords (fun _ => True) _ _ _ _ _ 0 h _ _ _ hok
      exact ⟨log', base, h'⟩
  | persistNothing _ hok =>
      obtain ⟨⟨log', h'⟩, -⟩ := @Inv.persistReadyRecords (fun _ => True) _ _ _ _ _ 0 h _ _ _ hok
      exact ⟨log', base, h'⟩
  | poll _ _ =>
      obtain ⟨_, _, hpoll⟩ := pollFlush_eq σ.store σ.done _
      rw [hpoll]
      exact ⟨log, base, ⟨⟨h.stored, h.indexed⟩, h.snapped, h.base_le⟩⟩
  | _ => exact ⟨log, base, h⟩

/-- Unsynced bytes of `U` are where the store expects them, also while a call is under way. -/
def FlushSys.Kept (U : UInt8 × Option Nat → Prop) (σ : FlushSys) : Prop :=
  match σ.call with
  | none => Ready U σ.store σ.disk
  | some steps => Carefully U σ.nextId σ.store σ.disk steps

theorem FlushSys.Kept.ready (h : σ.Kept U) (hcall : σ.call = none) : Ready U σ.store σ.disk := by
  rwa [FlushSys.Kept, hcall] at h

theorem FlushSys.Kept.carefully {steps : List FsStep} (h : σ.Kept U) (hcall : σ.call = some steps) :
    Carefully U σ.nextId σ.store σ.disk steps := by
  rwa [FlushSys.Kept, hcall] at h

theorem FlushSys.Kept.confined (h : σ.Kept U) : σ.disk.Confined U := by
  rw [FlushSys.Kept] at h
  split at h
  · exact h.confined
  · next steps _ =>
      cases steps with
      | nil => exact (Safely.post h).confined
      | cons step rest => exact (Safely.pre h).1

/-- Nothing is unsynced when off-thread durability is enabled. -/
theorem FlushSys.kept_start (s : WalStorage) : (FlushSys.start s).Kept U := by
  have hclean : Disk.Clean U (FlushSys.start s).disk := Disk.clean_ofSynced _
  refine ⟨?_, hclean.confined, fun _ => hclean⟩
  have hcontents := Disk.contents_ofSynced (s.dir.segments.map (·.map fun byte => (byte, (none : Option Nat))))
  rw [SegmentDisk.bytes, ← Assoc.map_map, ← Disk.contents, FlushSys.start, hcontents, Assoc.map_map]
  refine Assoc.ext ((List.map_congr_left fun p _ => ?_).trans (List.map_id _))
  simp [Function.comp_def]

/-- **Every step keeps unsynced bytes where they are expected**, if a poll that clears the flag leaves none. -/
theorem FlushStep.kept (hstep : FlushStep σ a σ') (hinv : ∃ log base, Inv opts σ.store log base) (h : σ.Kept U)
    (hpoll : ∀ token, a = .poll token → σ.call = none → σ'.store.pendingEntryFsync = false → σ.disk.Clean U) :
    σ'.Kept U := by
  obtain ⟨log, base, hinv⟩ := hinv
  cases hstep with
  | persist hcall hok =>
      obtain ⟨-, ⟨steps, hjournal, hsafe⟩, -⟩ := hinv.persistReadyRecords hok
      show Carefully U σ.nextId _ σ.disk (List.drop _ _)
      rw [hjournal, List.drop_left]
      exact hsafe σ.disk (h.ready hcall)
  | persistNothing hcall hok =>
      obtain ⟨-, -, hsame⟩ := @Inv.persistReadyRecords U _ _ _ _ _ 0 hinv _ _ _ hok
      rw [hsame rfl]
      exact h
  | call hcall => exact (h.carefully hcall).next
  | submit hcall _ => exact (h.carefully hcall).post
  | sync _ _ =>
      rw [FlushSys.Kept] at h ⊢
      dsimp only
      split at h
      · exact stable_ready _ _ _ ⟨_, rfl⟩ h
      · exact Safely.interfered h ⟨_, rfl⟩
  | poll hcall _ =>
      obtain ⟨_, _, hstore⟩ := pollFlush_eq σ.store σ.done _
      have hready := h.ready hcall
      have hclean := hpoll _ rfl hcall
      rw [FlushSys.Kept]
      dsimp only at hclean ⊢
      rw [hcall]
      rw [hstore] at hclean ⊢
      exact ⟨hready.bytes_eq, hready.confined, hclean⟩
  | _ => exact h

end Arachne.Storage
