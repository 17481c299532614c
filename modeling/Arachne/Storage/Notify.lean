import Arachne.Storage.Crash
import Arachne.Storage.FlushToken

/-! # Fsync notifications

After a sync of the active segment the store tells the fsync observer the segment's name and the highest entry index it
has written there (`notify_fsynced`). The observer takes this as the highest index that is durable in the segment.

A rollover, `sync_entries` and `set_hard_state` notify right after their own sync (`Backed`): the notification covers
what it names, whatever the flusher does meanwhile. `poll_flush` notifies when the flush of a token is found done, and
names what is written *then*; the flush covers what was written before its job was submitted. So an entry written in
between is reported durable while no sync has reached it (`poll_overstates`). This is the only way a notification can
overstate (`notice_covered`): a successful flush of the segment has reached every byte written by calls up to its token
(`LaterOnly`).

`NotifySys` is the system of `Flush` with the notifications, each with the disk at the time it was issued. `SyncSys` is
a store without off-thread durability. -/

namespace Arachne.Storage

open Codec (Bytes)
open Interference WalStorage

/-! ## What the store's thread does -/

/-- A file-system call, or a call of the fsync observer. -/
inductive Effect where
  | io (step : FsStep)
  | notify (segmentFirstIndex durableThrough : Nat)
  deriving DecidableEq

namespace Effect

def step? : Effect → Option FsStep
  | .io step => some step
  | .notify _ _ => none

def notice? : Effect → Option (Nat × Nat)
  | .io _ => none
  | .notify n durableThrough => some (n, durableThrough)

def onDisk (token : Option Nat) (d : SegmentDisk) : Effect → SegmentDisk
  | .io step => step.onDisk token d
  | .notify _ _ => d

end Effect

namespace WalStorage

/-- Sync the active segment and notify. -/
def syncEffects (s : WalStorage) : List Effect :=
  [.io (.syncSegment s.segmentFirstIndex), .notify s.segmentFirstIndex s.maxEntryInSegment]

def maybeRolloverEffects (s : WalStorage) (nextEntryIndex : Nat) : List Effect :=
  if s.dir.segmentSize s.segmentFirstIndex ≥ s.segmentBytes then
    (if s.pendingEntryFsync then s.syncEffects else []) ++ [.io (.createSegment nextEntryIndex)]
  else []

def appendEntryEffects (s : WalStorage) (entry : LogEntry) : List Effect :=
  let index := entry.index.toNat
  s.maybeRolloverEffects index ++
    [.io (.appendSegment (s.maybeRollover index).segmentFirstIndex (Record.entry entry).encode)]

def appendAllEffects : WalStorage → List LogEntry → List Effect
  | _, [] => []
  | s, entry :: entries =>
    match s.appendEntry entry with
    | .error _ => []
    | .ok s' => s.appendEntryEffects entry ++ appendAllEffects s' entries

def appendEffects (s : WalStorage) (entries : List LogEntry) : List Effect :=
  match entries.head? with
  | none => []
  | some first =>
    match s.overwriteSuffix first with
    | .error _ => []
    -- cutting a suffix notifies nobody
    | .ok t => (t.journal.drop s.journal.length).map .io ++ t.appendAllEffects entries

def setHardStateEffects (s : WalStorage) (hs : HardState) : List Effect :=
  .io (.appendSegment s.segmentFirstIndex (Record.hardState hs).encode) :: s.syncEffects

def setHardStateBufferedEffects (s : WalStorage) (hs : HardState) : List Effect :=
  [.io (.appendSegment s.segmentFirstIndex (Record.hardState hs).encode)]

def syncEntriesEffects (s : WalStorage) : List Effect :=
  match s.fsyncPolicy with
  | .always => s.syncEffects
  | .batchMs _ => if s.pendingEntryFsync then s.syncEffects else []

/-- The effects of `persist_ready_records` with off-thread durability. -/
def persistEffects (s : WalStorage) (entries : List LogEntry) (hardState : Option HardState) : List Effect :=
  match (if entries ≠ [] then s.appendBuffered entries else .ok s : Except StorageError WalStorage) with
  | .error _ => []
  | .ok t => s.appendEffects entries ++ (hardState.map t.setHardStateBufferedEffects).getD []

end WalStorage

def Op.effects (opts : WalOptions) (s : WalStorage) : Op → List Effect
  | .append entries => s.appendEffects entries
  | .setHardState hs => s.setHardStateEffects hs
  | .syncEntries => s.syncEntriesEffects
  | op => (op.calls opts s).map .io

/-! ## Notifications follow a sync -/

/-- The segment a file-system call syncs. -/
def FsStep.synced? : FsStep → Option Nat
  | .syncSegment n => some n
  | _ => none

/-- Every notification comes directly after a sync of its segment; `last` is the segment synced just before. -/
def Backed : Option Nat → List Effect → Prop
  | _, [] => True
  | _, .io step :: effects => Backed step.synced? effects
  | last, .notify n _ :: effects => last = some n ∧ Backed last effects

theorem Backed.of_none {last : Option Nat} {effects : List Effect} (h : Backed none effects) : Backed last effects := by
  cases effects with
  | nil => trivial
  | cons effect effects =>
      cases effect with
      | io step => exact h
      | notify n max => cases h.1

theorem Backed.append {last : Option Nat} {xs ys : List Effect} (h : Backed last xs) (h' : Backed none ys) :
    Backed last (xs ++ ys) := by
  induction xs generalizing last with
  | nil => exact h'.of_none
  | cons effect xs ih =>
      cases effect with
      | io step => exact ih h
      | notify n max => exact ⟨h.1, ih h.2⟩

theorem backed_io (last : Option Nat) (steps : List FsStep) : Backed last (steps.map .io) := by
  induction steps generalizing last with
  | nil => trivial
  | cons step steps ih => exact ih _

theorem notices_io (steps : List FsStep) : (steps.map Effect.io).filterMap Effect.notice? = [] := by
  rw [List.filterMap_map]
  exact List.filterMap_eq_nil_iff.mpr fun _ _ => rfl

theorem backed_syncEffects (s : WalStorage) : Backed none s.syncEffects := ⟨rfl, trivial⟩

/-- The effects are those between `s` and `s'`. -/
structure Performs (s : WalStorage) (effects : List Effect) (s' : WalStorage) : Prop where
  journal_eq : s'.journal = s.journal ++ effects.filterMap Effect.step?
  notified_eq : s'.notified = s.notified ++ effects.filterMap Effect.notice?
  backed : Backed none effects

namespace Performs

variable {s t s' : WalStorage} {xs ys : List Effect}

theorem refl (s : WalStorage) : Performs s [] s := ⟨by simp, by simp, trivial⟩

theorem trans (h : Performs s xs t) (h' : Performs t ys s') : Performs s (xs ++ ys) s' where
  journal_eq := by rw [h'.journal_eq, h.journal_eq, List.filterMap_append, List.append_assoc]
  notified_eq := by rw [h'.notified_eq, h.notified_eq, List.filterMap_append, List.append_assoc]
  backed := h.backed.append h'.backed

/-- File-system calls only. -/
theorem of_io {steps : List FsStep} (hjournal : s'.journal = s.journal ++ steps) (hnotified : s'.notified = s.notified) :
    Performs s (steps.map .io) s' where
  journal_eq := by
    rw [hjournal, List.filterMap_map]
    exact congrArg (s.journal ++ ·) List.filterMap_some.symm
  notified_eq := by rw [hnotified, notices_io, List.append_nil]
  backed := backed_io none steps

theorem sync (s : WalStorage) : Performs s s.syncEffects
    ({ s.io (.syncSegment s.segmentFirstIndex) with pendingEntryFsync := false }).notifyFsynced :=
  ⟨rfl, rfl, backed_syncEffects s⟩

theorem maybeRollover (s : WalStorage) (n : Nat) : Performs s (s.maybeRolloverEffects n) (s.maybeRollover n) := by
  have hcreate : ∀ t : WalStorage, Performs t [.io (.createSegment n)]
      { t.io (.createSegment n) with segmentFirstIndex := n, maxEntryInSegment := 0 } :=
    fun t => @of_io t _ [.createSegment n] rfl rfl
  rw [maybeRolloverEffects, WalStorage.maybeRollover]
  split_ifs with hfull hpending
  · exact (sync s).trans (hcreate _)
  · exact hcreate s
  · exact refl s

theorem appendEntry {e : LogEntry} (hok : s.appendEntry e = .ok s') : Performs s (s.appendEntryEffects e) s' := by
  obtain ⟨-, -, rfl⟩ := appendEntry_eq_ok.mp hok
  exact (maybeRollover s e.index.toNat).trans
    (@of_io _ _ [.appendSegment (s.maybeRollover e.index.toNat).segmentFirstIndex (Record.entry e).encode] rfl rfl)

theorem appendAll {es : List LogEntry} (hok : es.foldlM WalStorage.appendEntry s = .ok s') :
    Performs s (s.appendAllEffects es) s' := by
  induction hok using Transition.foldlM_induction with
  | nil => exact refl s'
  | cons ht _ ih =>
      rw [appendAllEffects, ht]
      exact (appendEntry ht).trans ih

theorem truncateLogTo (s : WalStorage) (keep : Nat) :
    Performs s (((s.truncateLogTo keep).1.journal.drop s.journal.length).map .io) (s.truncateLogTo keep).1 := by
  obtain ⟨steps, hjournal, -⟩ := @writes_truncateLogTo (fun _ => True) 0 s keep
  rw [hjournal, List.drop_left]
  refine of_io hjournal ?_
  rw [WalStorage.truncateLogTo]
  split_ifs
  · rfl
  · dsimp only
    split <;> simp only [ioAll_eq]

theorem overwriteSuffix {first : LogEntry} (hok : s.overwriteSuffix first = .ok t) :
    Performs s ((t.journal.drop s.journal.length).map .io) t := by
  by_cases hle : first.index.toNat ≤ s.lastIndex
  · obtain ⟨-, -, rfl⟩ := (overwriteSuffix_eq_ok hle).mp hok
    exact truncateLogTo s _
  · rw [overwriteSuffix_of_gt (Nat.not_le.mp hle)] at hok
    obtain rfl := Except.ok.inj hok
    rw [List.drop_length]
    exact refl s

theorem append {es : List LogEntry} (hok : s.append es = .ok s') : Performs s (s.appendEffects es) s' := by
  rw [WalStorage.append] at hok
  rw [appendEffects]
  cases hhead : es.head? with
  | none =>
      rw [hhead] at hok
      obtain rfl := Except.ok.inj hok
      exact refl s
  | some first =>
      rw [hhead] at hok
      obtain ⟨t, ht, hloop⟩ := Transition.bind_eq_ok.mp hok
      dsimp only
      rw [ht]
      exact (overwriteSuffix ht).trans (appendAll hloop)

theorem setHardState (s : WalStorage) (hs : HardState) : Performs s (s.setHardStateEffects hs) (s.setHardState hs) where
  journal_eq := by
    rw [WalStorage.setHardState, ioAll_eq]
    rfl
  notified_eq := by
    rw [WalStorage.setHardState, ioAll_eq]
    rfl
  backed := backed_syncEffects s

theorem setHardStateBuffered (s : WalStorage) (hs : HardState) :
    Performs s (s.setHardStateBufferedEffects hs) (s.setHardStateBuffered hs) :=
  @of_io _ _ [.appendSegment s.segmentFirstIndex (Record.hardState hs).encode] rfl rfl

theorem syncEntries (s : WalStorage) : Performs s s.syncEntriesEffects s.syncEntries := by
  rw [syncEntriesEffects, WalStorage.syncEntries]
  cases s.fsyncPolicy with
  | always => exact sync s
  | batchMs ms =>
      dsimp only
      split_ifs
      · exact sync s
      · exact refl s

/-- **`persist_ready_records`**, off-thread. -/
theorem persistReadyRecords {entries : List LogEntry} {hs : Option HardState} {wrote : Bool}
    (hok : s.persistReadyRecords true entries hs = .ok (s', wrote)) :
    Performs s (s.persistEffects entries hs) s' ∧ (wrote = false → s.persistEffects entries hs = []) := by
  rw [WalStorage.persistReadyRecords, if_neg (by decide)] at hok
  obtain ⟨t, ht, hres⟩ := Transition.map_eq_ok.mp hok
  have happend : Performs s (s.appendEffects entries) t := by
    split_ifs at ht with hne
    · exact append ht
    · obtain rfl := Except.ok.inj ht
      rw [not_not.mp hne]
      exact refl s
  rw [persistEffects, ht]
  obtain ⟨rfl, rfl⟩ := Prod.mk.inj hres
  cases hs with
  | none =>
      refine ⟨by simpa using happend, fun hwrote => ?_⟩
      obtain rfl : entries = [] := by simpa using hwrote
      rfl
  | some hs => exact ⟨happend.trans (setHardStateBuffered t hs), fun hwrote => by simp at hwrote⟩

end Performs

theorem Op.backed_effects (opts : WalOptions) {s s' : WalStorage} {op : Op} (hok : op.exec opts s = .ok s') :
    Backed none (op.effects opts s) := by
  cases op with
  | append entries => exact (Performs.append hok).backed
  | setHardState hs => exact (Performs.setHardState s hs).backed
  | syncEntries => exact (Performs.syncEntries s).backed
  | _ => exact backed_io none _

/-! ## The disk at a notification -/

/-- Everything in segment `n` is synced. -/
def Whole (n : Nat) (d : SegmentDisk) : Prop := ∀ p ∈ d.files.toList, p.1 = n → p.2.Clean fun _ => True

theorem stable_whole (n : Nat) : Stable FlusherSyncs (Whole n) := by
  rintro d _ ⟨inode, rfl⟩ h p hp hname
  obtain ⟨q, hq, hsame, ⟨-, heq⟩ | ⟨-, heq⟩⟩ := Disk.mem_syncInode hp
  · exact heq ▸ q.2.clean_sync
  · exact heq ▸ h q hq (hsame ▸ hname)

theorem whole_sync (d : SegmentDisk) (n : Nat) : Whole n (d.sync n) := by
  intro p hp hname
  obtain ⟨q, -, hsame, ⟨-, heq⟩ | ⟨hne, -⟩⟩ := @Disk.mem_modify _ _ _ _ DiskFile.inode_sync _ hp
  · exact heq ▸ q.2.clean_sync
  · exact absurd (hsame.symm.trans hname) hne

/-- A notification is made when its segment is synced. -/
def Timely (d : SegmentDisk) (effect : Effect) : Prop := ∀ n max, effect = .notify n max → Whole n d

theorem Backed.safely {last : Option Nat} {effects : List Effect} (h : Backed last effects) {d : SegmentDisk}
    (hlast : ∀ n, last = some n → Whole n d) (token : Option Nat) :
    Safely FlusherSyncs (Effect.onDisk token) Timely (fun _ => True) d effects := by
  have hstable : ∀ last : Option Nat, Stable FlusherSyncs fun d => ∀ n, last = some n → Whole n d :=
    fun _ d d' hd h n hn => stable_whole n d d' hd (h n hn)
  induction effects generalizing last d with
  | nil => exact .nil (fun _ _ _ h => h) trivial
  | cons effect effects ih =>
      cases effect with
      | io step =>
          refine .cons (hstable last) hlast fun d _ => ⟨fun n max heq => (nomatch heq), ih h ?_⟩
          intro n hn
          cases step with
          | syncSegment m =>
              obtain rfl := Option.some.inj hn
              exact whole_sync d m
          | _ => cases hn
      | notify n max =>
          refine .cons (hstable last) hlast fun d hd => ⟨?_, ih h.2 hd⟩
          rintro _ _ heq
          cases heq
          exact hd n h.1

/-! ## The systems -/

/-- A notification, with the disk at the time it is issued and the token whose poll issued it. -/
structure Notice where
  segmentFirstIndex : Nat
  durableThrough : Nat
  disk : SegmentDisk
  token : Option Nat
  deriving DecidableEq

/-- The entries a segment's bytes hold. -/
def entriesIn (raw : Bytes) : List LogEntry := entriesOf (readRecords raw.length raw)

namespace Notice

/-- **What a notification says.** Every entry of the segment up to the index can be read from what a completed sync
has covered. -/
def Covered (notice : Notice) : Prop :=
  ∀ file ∈ notice.disk.files.get? notice.segmentFirstIndex, ∀ e ∈ entriesIn (file.content.map Prod.fst),
    e.index.toNat ≤ notice.durableThrough → e ∈ entriesIn ((file.content.take file.synced).map Prod.fst)

instance (notice : Notice) : Decidable notice.Covered :=
  inferInstanceAs (Decidable (∀ file ∈ notice.disk.files.get? notice.segmentFirstIndex, _))

/-- If it was issued by a poll, nothing that was written to the segment after the token's flush was submitted is
waiting to be synced. -/
def Settled (notice : Notice) : Prop :=
  ∀ token ∈ notice.token, ∀ file ∈ notice.disk.files.get? notice.segmentFirstIndex, ∀ x ∈ file.unsynced,
    ∀ t ∈ x.2, t ≤ token

instance (notice : Notice) : Decidable notice.Settled :=
  inferInstanceAs (Decidable (∀ token ∈ notice.token, ∀ file ∈ notice.disk.files.get? notice.segmentFirstIndex, _))

theorem covered_of_whole {notice : Notice} (h : Whole notice.segmentFirstIndex notice.disk) : notice.Covered := by
  intro file hfile e he _
  obtain ⟨pre, post, hlist⟩ := Assoc.toList_eq_of_get? hfile
  have hclean := h (notice.segmentFirstIndex, file) (by simp [hlist]) rfl
  rwa [DiskFile.take_of_clean hclean le_rfl]

end Notice

/-- The two threads of `FlushSys`, with what the running call has yet to do and the notifications issued so far. -/
structure NotifySys where
  sys : FlushSys
  effects : List Effect
  issued : List Notice
  deriving DecidableEq

namespace NotifySys

def start (s : WalStorage) : NotifySys := ⟨.start s, [], []⟩

/-- A step of one of the threads. `call` is the next effect of the running `persist_ready_records`. -/
def exec (σ : NotifySys) : FlushAction → Option NotifySys
  | .persist entries hardState =>
    (σ.sys.exec (.persist entries hardState)).map fun sys =>
      { σ with sys, effects := σ.sys.store.persistEffects entries hardState }
  | .call =>
    match σ.effects with
    | .io _ :: effects => (σ.sys.exec .call).map fun sys => { σ with sys, effects }
    | .notify n max :: effects => some { σ with effects, issued := σ.issued ++ [⟨n, max, σ.sys.disk, none⟩] }
    | [] => none
  | .submit => if σ.effects = [] then (σ.sys.exec .submit).map fun sys => { σ with sys } else none
  | .poll token =>
    (σ.sys.exec (.poll token)).map fun sys =>
      { σ with
        sys
        issued := σ.issued ++ (sys.store.notified.drop σ.sys.store.notified.length).map fun n =>
          ⟨n.1, n.2, σ.sys.disk, some token⟩ }
  | a => (σ.sys.exec a).map fun sys => { σ with sys }

end NotifySys

/-- Any interleaving of the two threads. -/
def NotifyRun (opts : WalOptions) : List FlushAction → NotifySys → Prop :=
  Transition.Run (fun σ => ∃ s, Reachable opts s ∧ σ = .start s) fun σ a σ' => σ.exec a = some σ'

/-- Enable off-thread durability on a new store and take the steps in order, as long as each is possible. -/
def runNotify (opts : WalOptions) (acts : List FlushAction) : Option NotifySys := do
  let s ← runOps opts (fun _ _ => True) []
  acts.foldlM NotifySys.exec (.start s)

theorem NotifyRun.of_runNotify {opts : WalOptions} {acts : List FlushAction} {ν : NotifySys}
    (h : runNotify opts acts = some ν) : NotifyRun opts acts ν := by
  rw [runNotify] at h
  obtain ⟨s, hs, hrun⟩ := Option.bind_eq_some_iff.mp h
  exact Transition.Run.of_foldlM (fun _ _ _ hstep => hstep) ⟨s, ⟨[], WalRun.of_runOps hs⟩, rfl⟩ hrun

/-- A store without off-thread durability, with its disk and the notifications issued so far. -/
structure SyncSys where
  store : WalStorage
  disk : SegmentDisk
  issued : List Notice
  deriving DecidableEq

namespace SyncSys

def start (s : WalStorage) : SyncSys := ⟨s, Disk.ofSynced (s.dir.segments.map (·.map (·, none))), []⟩

def perform (τ : SyncSys) (effect : Effect) : SyncSys :=
  { τ with
    disk := effect.onDisk none τ.disk
    issued := τ.issued ++ effect.notice?.toList.map fun n => ⟨n.1, n.2, τ.disk, none⟩ }

def exec (opts : WalOptions) (τ : SyncSys) (op : Op) : Option SyncSys :=
  (op.exec opts τ.store).toOption.map fun store => { (op.effects opts τ.store).foldl perform τ with store }

end SyncSys

/-- Any operations of a store, without a flusher. -/
def SyncRun (opts : WalOptions) : List Op → SyncSys → Prop :=
  Transition.Run (fun τ => ∃ s, (openDir .empty opts).2 = .ok s ∧ τ = .start s) fun τ op τ' => τ.exec opts op = some τ'

/-- Open a store in an empty directory and perform the operations in order, as long as each succeeds. -/
def runSync (opts : WalOptions) (ops : List Op) : Option SyncSys := do
  let s ← (openDir .empty opts).2.toOption
  ops.foldlM (SyncSys.exec opts) (.start s)

theorem SyncRun.of_runSync {opts : WalOptions} {ops : List Op} {τ : SyncSys} (h : runSync opts ops = some τ) :
    SyncRun opts ops τ := by
  rw [runSync] at h
  obtain ⟨s, hs, hrun⟩ := Option.bind_eq_some_iff.mp h
  exact Transition.Run.of_foldlM (fun _ _ _ hstep => hstep) ⟨s, toOption_eq_some.mp hs, rfl⟩ hrun

/-! ## What a successful flush has reached -/

theorem Batch.report_ofJobs (jobs : List FlushJob) :
    (Batch.ofJobs jobs).report.map (fun r => (r.1, r.2.1)) = jobs.map fun j => (j.id, j.segmentFirstIndex) := by
  induction jobs using List.reverseRecOn with
  | nil => rfl
  | append_singleton jobs job ih =>
      rw [Batch.ofJobs, List.foldl_append, List.map_append, ← ih]
      show ((Batch.ofJobs jobs).add job).report.map _ = _
      rw [Batch.add]
      split <;> simp

/-- A result of a batch is that of one of its jobs. -/
theorem Batch.job_of_result {jobs : List FlushJob} {anyFailed : Bool} {r : FlushJobResult}
    (hr : r ∈ (Batch.ofJobs jobs).results anyFailed) :
    r.result = Batch.result anyFailed ∧ ∃ j ∈ jobs, j.id = r.id ∧ j.segmentFirstIndex = r.segmentFirstIndex := by
  obtain ⟨⟨id, n, group⟩, hmem, rfl⟩ := List.mem_map.mp hr
  refine ⟨rfl, ?_⟩
  have hpair : (id, n) ∈ (Batch.ofJobs jobs).report.map fun r => (r.1, r.2.1) :=
    List.mem_map_of_mem (f := fun r : Nat × Nat × Nat => (r.1, r.2.1)) hmem
  rw [Batch.report_ofJobs] at hpair
  obtain ⟨j, hj, heq⟩ := List.mem_map.mp hpair
  exact ⟨j, hj, congrArg Prod.fst heq, congrArg Prod.snd heq⟩

variable {σ σ' : FlushSys} {t n inode : Nat}

/-- Token `t` is past the file that segment `n` has now, with descriptor `inode`: its flush has synced the segment, or
its job is for an older file of that name. -/
inductive FlushSys.Past (σ : FlushSys) (t n inode : Nat) : Prop where
  | stale (j : FlushJob) (hj : j ∈ σ.taken ++ σ.jobs) (hid : j.id = t) (hseg : j.segmentFirstIndex = n)
      (hinode : j.inode ≠ inode)
  | synced (f : Flusher) (hflusher : σ.flusher = some f) (hok : f.anyFailed = false) (j : FlushJob) (hj : j ∈ f.jobs)
      (hid : j.id = t) (hseg : j.segmentFirstIndex = n)
      (hgroup : n ∈ ((Batch.ofJobs f.jobs).groups.take f.syncCount).map Prod.fst)
  | done (r : FlushJobResult) (hr : r ∈ σ.done) (hid : r.id = t) (hseg : r.segmentFirstIndex = n)
      (hok : r.result = .ok ())

/-- What is not synced in a file was written later than every call whose token is past it. -/
def LaterOnly (σ : FlushSys) : Prop := ∀ p ∈ σ.disk.files.toList, ∀ x ∈ p.2.unsynced,
  ∃ t, x.2 = some t ∧ ∀ t', σ.Past t' p.1 p.2.inode → t' < t

theorem FlushSys.Past.mem_tokens (h : σ.Past t n inode) : t ∈ σ.tokens := by
  cases h with
  | stale j hj hid _ _ =>
      exact hid ▸ List.mem_append_right _ (List.mem_append_right _ (List.mem_map_of_mem (f := (·.id)) hj))
  | synced f hflusher _ j hj hid _ _ =>
      have htaken : j ∈ σ.taken ++ σ.jobs := List.mem_append_left _ (by rwa [FlushSys.taken, hflusher])
      exact hid ▸ List.mem_append_right _ (List.mem_append_right _ (List.mem_map_of_mem (f := (·.id)) htaken))
  | done r hr hid _ _ =>
      exact hid ▸ List.mem_append_right _ (List.mem_append_left _ (List.mem_map_of_mem (f := (·.id)) hr))

namespace LaterOnly

/-- A step that syncs nothing new and lets no token get past a file. -/
theorem of_past (h : LaterOnly σ) (hdisk : σ'.disk = σ.disk)
    (hpast : ∀ p ∈ σ.disk.files.toList, ∀ t, σ'.Past t p.1 p.2.inode → σ.Past t p.1 p.2.inode) : LaterOnly σ' := by
  intro p hp x hx
  rw [hdisk] at hp
  obtain ⟨t, ht, hlater⟩ := h p hp x hx
  exact ⟨t, ht, fun t' hpast' => hlater t' (hpast p hp t' hpast')⟩

/-- A file-system call: what it writes carries the newest token. -/
theorem call (h : LaterOnly σ) (htoken : TokenInv σ) (step : FsStep) (rest : List FsStep) :
    LaterOnly { σ with disk := step.onDisk (some σ.nextId) σ.disk, call := some rest } := by
  have hpast : ∀ {t n inode}, { σ with disk := step.onDisk (some σ.nextId) σ.disk, call := some rest }.Past t n inode →
      σ.Past t n inode := by
    intro t n inode hpast
    cases hpast with
    | stale j hj hid hseg hinode => exact .stale j hj hid hseg hinode
    | synced f hf hok j hj hid hseg hgroup => exact .synced f hf hok j hj hid hseg hgroup
    | done r hr hid hseg hok => exact .done r hr hid hseg hok
  intro p hp x hx
  rcases mem_onDisk hp with ⟨-, hnil⟩ | ⟨q, hq, hname, hlater⟩
  · simp [DiskFile.unsynced, hnil] at hx
  · rcases hlater.unsynced x hx with heq | hx
    · exact ⟨σ.nextId, heq, fun t' ht' => htoken.token_lt t' (hpast ht').mem_tokens⟩
    · obtain ⟨t, ht, hold⟩ := h q hq x hx
      refine ⟨t, ht, fun t' ht' => hold t' ?_⟩
      rw [hname, ← hlater.inode_eq]
      exact hpast ht'

/-- The job submitted is for the file the segment has now. -/
theorem submit (h : LaterOnly σ) {file : DiskFile (UInt8 × Option Nat)}
    (hfile : σ.disk.files.get? σ.store.segmentFirstIndex = some file) :
    LaterOnly { σ with
      jobs := σ.jobs ++ [⟨σ.nextId, σ.store.segmentFirstIndex, file.inode⟩]
      nextId := σ.nextId + 1
      call := none } := by
  refine h.of_past rfl fun p hp t hpast => ?_
  cases hpast with
  | stale j hj hid hseg hinode =>
      have hcases : j ∈ σ.taken ++ σ.jobs ∨ j = ⟨σ.nextId, σ.store.segmentFirstIndex, file.inode⟩ := by
        simpa [FlushSys.taken, or_assoc] using hj
      rcases hcases with hj | rfl
      · exact .stale j hj hid hseg hinode
      · have hget := Assoc.get?_of_mem hp
        rw [← hseg, hfile] at hget
        exact absurd (congrArg DiskFile.inode (Option.some.inj hget)) hinode
  | synced f hf hok j hj hid hseg hgroup => exact .synced f hf hok j hj hid hseg hgroup
  | done r hr hid hseg hok => exact .done r hr hid hseg hok

theorem receive (h : LaterOnly σ) (hflusher : σ.flusher = none) (k : Nat) :
    LaterOnly { σ with jobs := σ.jobs.drop k, flusher := some ⟨σ.jobs.take k, 0, false⟩ } := by
  refine h.of_past rfl fun p _ t hpast => ?_
  cases hpast with
  | stale j hj hid hseg hinode =>
      refine .stale j ?_ hid hseg hinode
      rw [FlushSys.taken, hflusher]
      rwa [← List.take_append_drop k σ.jobs]
  | synced f hf _ j _ _ _ hgroup =>
      obtain rfl := Option.some.inj hf
      cases hgroup
  | done r hr hid hseg hok => exact .done r hr hid hseg hok

/-- **The sync of a group** reaches the file its segment has now, unless all the batch's jobs for it are stale. -/
theorem sync (h : LaterOnly σ) (htoken : TokenInv σ) {jobs : List FlushJob} {k : Nat} {group : Nat × Nat}
    (hflusher : σ.flusher = some ⟨jobs, k, false⟩) (hgroup : (Batch.ofJobs jobs).groups[k]? = some group) :
    LaterOnly { σ with disk := σ.disk.syncInode group.2, flusher := some ⟨jobs, k + 1, false⟩ } := by
  have htaken : σ.taken = jobs := by rw [FlushSys.taken, hflusher]; rfl
  intro p hp x hx
  obtain ⟨hq, hne⟩ := Disk.mem_of_unsynced_syncInode hp (List.ne_nil_of_mem hx)
  obtain ⟨t, ht, hlater⟩ := h p hq x hx
  refine ⟨t, ht, fun t' hpast => hlater t' ?_⟩
  cases hpast with
  | stale j hj hid hseg hinode =>
      refine .stale j ?_ hid hseg hinode
      rwa [htaken]
  | synced f hf _ j hj hid hseg hsynced =>
      obtain rfl := Option.some.inj hf
      rw [List.take_add_one, hgroup, List.map_append, List.mem_append] at hsynced
      rcases hsynced with hsynced | hsynced
      · exact .synced _ hflusher rfl j hj hid hseg hsynced
      · have hname' : p.1 = group.1 := by simpa using hsynced
        refine .stale j (List.mem_append_left _ (htaken ▸ hj)) hid hseg fun hsame => hne ?_
        refine htoken.group_inode (t := j.id) htaken (List.mem_of_getElem? hgroup) hq ?_ hname'
        rwa [← hseg, ← hsame]
  | done r hr hid hseg hok => exact .done r hr hid hseg hok

theorem syncFails (h : LaterOnly σ) {jobs : List FlushJob} {k : Nat} (hflusher : σ.flusher = some ⟨jobs, k, false⟩)
    (failed : List Nat) : LaterOnly { σ with flusher := some ⟨jobs, k + 1, true⟩, failed } := by
  refine h.of_past rfl fun p _ t hpast => ?_
  cases hpast with
  | stale j hj hid hseg hinode =>
      refine .stale j ?_ hid hseg hinode
      rwa [FlushSys.taken, hflusher]
  | synced f hf hok j _ _ _ _ =>
      obtain rfl := Option.some.inj hf
      cases hok
  | done r hr hid hseg hok => exact .done r hr hid hseg hok

/-- A batch reported Ok has synced each of its segments. -/
theorem report (h : LaterOnly σ) {jobs : List FlushJob} {k : Nat} {anyFailed : Bool}
    (hflusher : σ.flusher = some ⟨jobs, k, anyFailed⟩) (hdone : anyFailed ∨ k = (Batch.ofJobs jobs).groups.length) :
    LaterOnly { σ with done := σ.done ++ (Batch.ofJobs jobs).results anyFailed, flusher := none } := by
  refine h.of_past rfl fun p _ t hpast => ?_
  cases hpast with
  | stale j hj hid hseg hinode => exact .stale j (List.mem_append_right _ hj) hid hseg hinode
  | synced f hf _ _ _ _ _ _ => cases hf
  | done r hr hid hseg hok =>
      rcases List.mem_append.mp hr with hr | hr
      · exact .done r hr hid hseg hok
      · obtain ⟨hresult, j, hj, hjid, hjseg⟩ := Batch.job_of_result hr
        cases anyFailed with
        | true => rw [hok] at hresult; cases hresult
        | false =>
            have hk : k = (Batch.ofJobs jobs).groups.length := by simpa using hdone
            refine .synced _ hflusher rfl j hj (hjid.trans hid) (hjseg.trans hseg) ?_
            rw [hk, List.take_length, ← hseg, ← hjseg]
            exact (Batch.groups_ofJobs jobs).covers j hj

end LaterOnly

theorem FlushStep.laterOnly {a : FlushAction} (hstep : FlushStep σ a σ') (htoken : TokenInv σ) (h : LaterOnly σ) :
    LaterOnly σ' := by
  have hsame : ∀ {σ' : FlushSys}, σ'.disk = σ.disk → σ'.jobs = σ.jobs → σ'.flusher = σ.flusher →
      (∀ r ∈ σ'.done, r ∈ σ.done) → LaterOnly σ' := by
    intro σ' hdisk hjobs hflusher hdone
    refine h.of_past hdisk fun p _ t hpast => ?_
    cases hpast with
    | stale j hj hid hseg hinode =>
        refine .stale j ?_ hid hseg hinode
        rwa [FlushSys.taken, hflusher, hjobs] at hj
    | synced f hf hok j hj hid hseg hgroup => exact .synced f (hflusher ▸ hf) hok j hj hid hseg hgroup
    | done r hr hid hseg hok => exact .done r (hdone r hr) hid hseg hok
  cases hstep with
  | persist _ _ => exact hsame rfl rfl rfl fun _ => id
  | persistNothing _ _ => exact hsame rfl rfl rfl fun _ => id
  | call _ => exact h.call htoken _ _
  | submit _ hfile => exact h.submit hfile
  | receive hflusher _ => exact h.receive hflusher _
  | sync hflusher hgroup => exact h.sync htoken hflusher hgroup
  | syncFails hflusher _ => exact h.syncFails hflusher _
  | report hflusher hdone => exact h.report hflusher hdone
  | poll _ _ => exact hsame rfl rfl rfl fun _ hr => List.mem_of_mem_eraseP hr
  | pollAgain _ _ => exact h

/-! ## Runs -/

/-- A poll notifies only when the flush of the active segment is found done. -/
theorem pollFlush_notified (s : WalStorage) (done : List FlushJobResult) (token : Nat) :
    (s.pollFlush done token).1.notified = s.notified ∨
      (s.pollFlush done token).1.notified = s.notified ++ [(s.segmentFirstIndex, s.maxEntryInSegment)] ∧
        ∃ r ∈ done, r.id = token ∧ r.segmentFirstIndex = s.segmentFirstIndex ∧ r.result = .ok () := by
  rw [pollFlush]
  split
  · exact .inl rfl
  · next r hfind =>
      dsimp only
      split
      · exact .inl rfl
      · next hok =>
          split_ifs with hcond
          · exact .inr ⟨rfl, r, List.mem_of_find?_eq_some hfind, (find_done hfind).1, hcond.2, hok⟩
          · exact .inl rfl

/-- **A poll's notification** is covered if nothing later is waiting. -/
theorem LaterOnly.covered (h : LaterOnly σ) {r : FlushJobResult} (hr : r ∈ σ.done) (hok : r.result = .ok ())
    {max : Nat} (hsettled : Notice.Settled ⟨r.segmentFirstIndex, max, σ.disk, some r.id⟩) :
    Notice.Covered ⟨r.segmentFirstIndex, max, σ.disk, some r.id⟩ := by
  apply Notice.covered_of_whole
  intro p hp hname x hx _
  obtain ⟨t, ht, hlater⟩ := h p hp x hx
  have hlt : r.id < t := hlater r.id (.done r hr rfl hname.symm hok)
  have hget := Assoc.get?_of_mem hp
  rw [hname] at hget
  exact absurd (hsettled r.id rfl p.2 hget x hx t ht) (Nat.not_le.mpr hlt)

variable {opts : WalOptions} {ν ν' : NotifySys} {τ τ' : SyncSys} {acts : List FlushAction} {ops : List Op}

/-- What every state of a run keeps true. -/
structure NotifyInv (opts : WalOptions) (ν : NotifySys) : Prop where
  flush : FlushInv opts ν.sys
  later : LaterOnly ν.sys
  idle : ν.sys.call = none → ν.effects = []
  call_eq : ∀ steps, ν.sys.call = some steps → steps = ν.effects.filterMap Effect.step?
  timely : Safely FlusherSyncs (Effect.onDisk (some ν.sys.nextId)) Timely (fun _ => True) ν.sys.disk ν.effects
  covered : ∀ notice ∈ ν.issued, notice.Settled → notice.Covered
  /-- What was issued and what the running call has yet to issue is what the store has on record. -/
  notified_eq : ∃ before, ν.sys.store.notified =
    before ++ (ν.issued.map (fun n => (n.segmentFirstIndex, n.durableThrough)) ++ ν.effects.filterMap Effect.notice?)

namespace NotifyInv

theorem safely_nil (token : Option Nat) (d : SegmentDisk) :
    Safely FlusherSyncs (Effect.onDisk token) Timely (fun _ => True) d [] := .nil (fun _ _ _ h => h) trivial

/-- A step of the flusher. -/
theorem flusher (h : NotifyInv opts ν) {a : FlushAction} {sys : FlushSys} (hstep : FlushStep ν.sys a sys)
    (hstore : sys.store = ν.sys.store) (hcall : sys.call = ν.sys.call) (hnext : sys.nextId = ν.sys.nextId)
    (hdisk : sys.disk = ν.sys.disk ∨ FlusherSyncs ν.sys.disk sys.disk) : NotifyInv opts { ν with sys } where
  flush := hstep.flushInv h.flush
  later := hstep.laterOnly h.flush.token h.later
  idle := fun hnone => h.idle (hcall ▸ hnone)
  call_eq := fun steps hsome => h.call_eq steps (hcall ▸ hsome)
  timely := by
    dsimp only
    rw [hnext]
    rcases hdisk with heq | hsync
    · exact heq ▸ h.timely
    · exact h.timely.interfered hsync
  covered := h.covered
  notified_eq := by
    dsimp only
    rw [hstore]
    exact h.notified_eq

theorem persist (h : NotifyInv opts ν) {entries : List LogEntry} {hs : Option HardState} {sys : FlushSys}
    (hstep : FlushStep ν.sys (.persist entries hs) sys) :
    NotifyInv opts { ν with sys, effects := ν.sys.store.persistEffects entries hs } := by
  have hflush := hstep.flushInv h.flush
  have hlater := hstep.laterOnly h.flush.token h.later
  have hnotified : ∀ {store : WalStorage}, ν.sys.call = none →
      Performs ν.sys.store (ν.sys.store.persistEffects entries hs) store → ∃ before, store.notified =
        before ++ (ν.issued.map (fun n => (n.segmentFirstIndex, n.durableThrough)) ++
          (ν.sys.store.persistEffects entries hs).filterMap Effect.notice?) := by
    intro store hcall hperforms
    obtain ⟨before, hbefore⟩ := h.notified_eq
    rw [h.idle hcall, List.filterMap_nil, List.append_nil] at hbefore
    exact ⟨before, by rw [hperforms.notified_eq, hbefore, List.append_assoc]⟩
  cases hstep with
  | persist hcall hok =>
      obtain ⟨hperforms, -⟩ := Performs.persistReadyRecords hok
      refine ⟨hflush, hlater, fun hnone => (nomatch hnone), fun steps hsome => ?_, ?_, h.covered,
        hnotified hcall hperforms⟩
      · rw [← Option.some.inj hsome, hperforms.journal_eq, List.drop_left]
      · exact hperforms.backed.safely (fun n hn => (nomatch hn)) _
  | persistNothing hcall hok =>
      obtain ⟨hperforms, hnothing⟩ := Performs.persistReadyRecords hok
      have hnil := hnothing rfl
      refine ⟨hflush, hlater, fun _ => hnil, fun steps hsome => ?_, ?_, h.covered, hnotified hcall hperforms⟩
      · rw [hcall] at hsome
        cases hsome
      · rw [hnil]
        exact safely_nil _ _

/-- A file-system call of the running call. -/
theorem io (h : NotifyInv opts ν) {step : FsStep} {effects : List Effect} (heffects : ν.effects = .io step :: effects)
    {sys : FlushSys} (hstep : FlushStep ν.sys .call sys) : NotifyInv opts { ν with sys, effects } := by
  have hflush := hstep.flushInv h.flush
  have hlater := hstep.laterOnly h.flush.token h.later
  have htimely := h.timely
  have hnotified := h.notified_eq
  rw [heffects] at htimely hnotified
  cases hstep with
  | call hcall =>
      have hsteps := h.call_eq _ hcall
      rw [heffects] at hsteps
      obtain ⟨rfl, hrest⟩ := List.cons.inj hsteps
      refine ⟨hflush, hlater, fun hnone => (nomatch hnone), fun steps hsome => ?_, htimely.next, h.covered, hnotified⟩
      exact (Option.some.inj hsome).symm.trans hrest

/-- The running call notifies: its segment has just been synced. -/
theorem notify (h : NotifyInv opts ν) {n max : Nat} {effects : List Effect}
    (heffects : ν.effects = .notify n max :: effects) :
    NotifyInv opts { ν with effects, issued := ν.issued ++ [⟨n, max, ν.sys.disk, none⟩] } := by
  have htimely := h.timely
  obtain ⟨before, hbefore⟩ := h.notified_eq
  rw [heffects] at htimely hbefore
  refine ⟨h.flush, h.later, fun hnone => ?_, fun steps hsome => ?_, htimely.next, ?_, before, ?_⟩
  · have hnil := h.idle hnone
    rw [heffects] at hnil
    cases hnil
  · have hsteps := h.call_eq steps hsome
    rw [heffects] at hsteps
    exact hsteps
  · intro notice hnotice
    rcases List.mem_append.mp hnotice with hnotice | hnotice
    · exact h.covered notice hnotice
    · obtain rfl := List.mem_singleton.mp hnotice
      exact fun _ => Notice.covered_of_whole (htimely.pre n max rfl)
  · rw [hbefore, List.filterMap_cons, List.map_append, List.append_assoc]
    rfl

theorem submit (h : NotifyInv opts ν) (hnil : ν.effects = []) {sys : FlushSys} (hstep : FlushStep ν.sys .submit sys) :
    NotifyInv opts { ν with sys } := by
  have hflush := hstep.flushInv h.flush
  have hlater := hstep.laterOnly h.flush.token h.later
  cases hstep with
  | submit hcall hfile =>
      refine ⟨hflush, hlater, fun _ => hnil, fun steps hsome => (nomatch hsome), ?_, h.covered, h.notified_eq⟩
      rw [hnil]
      exact safely_nil _ _

theorem poll (h : NotifyInv opts ν) {token : Nat} {sys : FlushSys} (hstep : FlushStep ν.sys (.poll token) sys) :
    NotifyInv opts
      { ν with
        sys
        issued := ν.issued ++ (sys.store.notified.drop ν.sys.store.notified.length).map fun n =>
          ⟨n.1, n.2, ν.sys.disk, some token⟩ } := by
  have hflush := hstep.flushInv h.flush
  have hlater := hstep.laterOnly h.flush.token h.later
  cases hstep with
  | poll hcall hfind =>
      obtain ⟨before, hbefore⟩ := h.notified_eq
      rw [h.idle hcall, List.filterMap_nil, List.append_nil] at hbefore
      rcases pollFlush_notified ν.sys.store ν.sys.done token with hsame | ⟨hnew, r, hr, rfl, hseg, hok⟩
      · dsimp only
        rw [hsame, List.drop_length, List.map_nil, List.append_nil]
        refine ⟨hflush, hlater, h.idle, h.call_eq, h.timely, h.covered, before, ?_⟩
        rw [h.idle hcall, List.filterMap_nil, List.append_nil, ← hbefore]
        exact hsame
      · dsimp only
        rw [hnew, List.drop_left]
        refine ⟨hflush, hlater, h.idle, h.call_eq, h.timely, fun notice hnotice hsettled => ?_, before, ?_⟩
        · rcases List.mem_append.mp hnotice with hnotice | hnotice
          · exact h.covered notice hnotice hsettled
          · obtain rfl := List.mem_singleton.mp hnotice
            dsimp only at hsettled ⊢
            rw [← hseg] at hsettled ⊢
            exact h.later.covered hr hok hsettled
        · rw [h.idle hcall, List.filterMap_nil, List.append_nil, List.map_append, ← List.append_assoc, ← hbefore]
          exact hnew
  | pollAgain hcall hfind =>
      rw [List.drop_length, List.map_nil, List.append_nil]
      exact h

theorem exec (h : NotifyInv opts ν) {a : FlushAction} (hexec : ν.exec a = some ν') : NotifyInv opts ν' := by
  cases a with
  | persist entries hs =>
      obtain ⟨sys, hsys, rfl⟩ := Option.map_eq_some_iff.mp hexec
      exact h.persist (.of_exec hsys)
  | call =>
      simp only [NotifySys.exec] at hexec
      split at hexec
      · next heffects =>
          obtain ⟨sys, hsys, rfl⟩ := Option.map_eq_some_iff.mp hexec
          exact h.io heffects (.of_exec hsys)
      · next heffects =>
          obtain rfl := Option.some.inj hexec
          exact h.notify heffects
      · cases hexec
  | submit =>
      simp only [NotifySys.exec] at hexec
      split_ifs at hexec with hnil
      obtain ⟨sys, hsys, rfl⟩ := Option.map_eq_some_iff.mp hexec
      exact h.submit hnil (.of_exec hsys)
  | poll token =>
      obtain ⟨sys, hsys, rfl⟩ := Option.map_eq_some_iff.mp hexec
      exact h.poll (.of_exec hsys)
  | receive more =>
      obtain ⟨sys, hsys, rfl⟩ := Option.map_eq_some_iff.mp hexec
      have hstep := FlushStep.of_exec hsys
      cases hstep with
      | receive hflusher hmore => exact h.flusher (.receive hflusher hmore) rfl rfl rfl (.inl rfl)
  | sync =>
      obtain ⟨sys, hsys, rfl⟩ := Option.map_eq_some_iff.mp hexec
      have hstep := FlushStep.of_exec hsys
      cases hstep with
      | sync hflusher hgroup => exact h.flusher (.sync hflusher hgroup) rfl rfl rfl (.inr ⟨_, rfl⟩)
  | syncFails =>
      obtain ⟨sys, hsys, rfl⟩ := Option.map_eq_some_iff.mp hexec
      have hstep := FlushStep.of_exec hsys
      cases hstep with
      | syncFails hflusher hn => exact h.flusher (.syncFails hflusher hn) rfl rfl rfl (.inl rfl)
  | report =>
      obtain ⟨sys, hsys, rfl⟩ := Option.map_eq_some_iff.mp hexec
      have hstep := FlushStep.of_exec hsys
      cases hstep with
      | report hflusher hdone => exact h.flusher (.report hflusher hdone) rfl rfl rfl (.inl rfl)

end NotifyInv

theorem NotifyRun.notifyInv (h : NotifyRun opts acts ν) : NotifyInv opts ν := by
  refine Transition.Run.invariant (P := fun _ ν => NotifyInv opts ν) ?_ ?_ h
  · rintro _ ⟨s, ⟨ops, hs⟩, rfl⟩
    have hclean : Disk.Clean (fun _ => True) (FlushSys.start s).disk := Disk.clean_ofSynced _
    have hstart : FlushRun opts (fun _ _ => True) [] (.start s) := .start ⟨s, ⟨ops, hs⟩, rfl⟩
    refine ⟨hstart.flushInv, ?_, fun _ => rfl, fun _ hsome => (nomatch hsome), NotifyInv.safely_nil _ _,
      fun _ hmem => absurd hmem List.not_mem_nil, s.notified, (List.append_nil _).symm⟩
    exact fun p hp x hx => absurd trivial (hclean p hp x hx)
  · rintro _ ν a ν' - hinv hexec
    exact hinv.exec hexec

/-- Effects that go well on a disk nobody else touches. -/
theorem SyncSys.covered_perform {effects : List Effect}
    (hsafe : Safely FlusherSyncs (Effect.onDisk none) Timely (fun _ => True) τ.disk effects)
    (h : ∀ notice ∈ τ.issued, notice.Covered) : ∀ notice ∈ (effects.foldl perform τ).issued, notice.Covered := by
  induction effects generalizing τ with
  | nil => exact h
  | cons effect effects ih =>
      refine ih hsafe.next fun notice hnotice => ?_
      rcases List.mem_append.mp hnotice with hnotice | hnotice
      · exact h notice hnotice
      · cases effect with
        | io step => cases hnotice
        | notify n max =>
            obtain rfl := List.mem_singleton.mp hnotice
            exact Notice.covered_of_whole (hsafe.pre n max rfl)

theorem SyncRun.covered (h : SyncRun opts ops τ) : ∀ notice ∈ τ.issued, notice.Covered := by
  refine Transition.Run.invariant (P := fun _ τ => ∀ notice ∈ τ.issued, notice.Covered) ?_ ?_ h
  · rintro _ ⟨s, -, rfl⟩ notice hnotice
    cases hnotice
  · rintro _ τ op τ' - hcovered hexec
    obtain ⟨store, hstore, rfl⟩ := Option.map_eq_some_iff.mp hexec
    have hbacked := op.backed_effects opts (toOption_eq_some.mp hstore)
    exact SyncSys.covered_perform (hbacked.safely (fun n hn => (nomatch hn)) none) hcovered

/-- **When a notification is right.** Whatever the interleaving, a notification issued with off-thread durability
covers every entry it names, if it is not a poll's or nothing later is waiting to be synced when the poll issues it.
Without off-thread durability every notification does. -/
theorem notice_covered (h : NotifyRun opts acts ν) (h' : SyncRun opts ops τ) :
    (∀ notice ∈ ν.issued, notice.Settled → notice.Covered) ∧ ∀ notice ∈ τ.issued, notice.Covered :=
  ⟨h.notifyInv.covered, h'.covered⟩

/-- A flush that is polled before the next call, and a call that rolls over while its first entry is pending. -/
def polledThenRollover : List FlushAction :=
  [.persist [sampleEntry 1 1] none, .call, .submit, .receive 0, .sync, .report, .poll 0,
    .persist [sampleEntry 2 1, sampleEntry 3 1] none, .call, .call, .call, .call, .call, .submit]

/-- An append with its sync, and a hard state. -/
def syncedOps : List Op := [.append [sampleEntry 1 1, sampleEntry 2 1], .syncEntries, .setHardState ⟨1, none, 2⟩]

theorem notice_covered_polledThenRollover : ∃ ν τ, NotifyRun (sampleOptions 50) polledThenRollover ν ∧
    SyncRun (sampleOptions 50) syncedOps τ ∧
    ν.issued.map (fun n => (n.segmentFirstIndex, n.durableThrough, n.token)) = [(1, 1, some 0), (1, 2, none)] ∧
    τ.issued.map (fun n => (n.segmentFirstIndex, n.durableThrough)) = [(1, 2), (1, 2)] ∧
    (∀ notice ∈ ν.issued, notice.Covered) ∧ ∀ notice ∈ τ.issued, notice.Covered := by
  have hν : (runNotify (sampleOptions 50) polledThenRollover).any fun ν =>
      ν.issued.map (fun n => (n.segmentFirstIndex, n.durableThrough, n.token)) = [(1, 1, some 0), (1, 2, none)] ∧
        ∀ notice ∈ ν.issued, notice.Settled := by
    decide +kernel
  have hτ : (runSync (sampleOptions 50) syncedOps).any fun τ =>
      τ.issued.map (fun n => (n.segmentFirstIndex, n.durableThrough)) = [(1, 2), (1, 2)] := by
    decide +kernel
  obtain ⟨ν, hν, hp⟩ := (Option.any_eq_true _ _).mp hν
  obtain ⟨τ, hτ, hq⟩ := (Option.any_eq_true _ _).mp hτ
  obtain ⟨hissued, hsettled⟩ := of_decide_eq_true hp
  have hν := NotifyRun.of_runNotify hν
  have hτ := SyncRun.of_runSync hτ
  obtain ⟨hcovered, hsync⟩ := notice_covered hν hτ
  exact ⟨ν, τ, hν, hτ, hissued, of_decide_eq_true hq, fun n hn => hcovered n hn (hsettled n hn), hsync⟩

/-- The flush of the first call is polled when the second has already written entry 2 to the segment. -/
def polledAfterWrite : List FlushAction :=
  [.persist [sampleEntry 1 1] none, .call, .submit, .receive 0, .sync, .report,
    .persist [sampleEntry 2 1] none, .call, .submit, .poll 0]

/-- The observer is told that segment 1 is durable through 2; no sync has reached entry 2. -/
theorem poll_overstates : ∃ ν, NotifyRun (sampleOptions 50) polledAfterWrite ν ∧
    ν.issued.map (fun n => (n.segmentFirstIndex, n.durableThrough)) = [(1, 2)] ∧
    ∀ notice ∈ ν.issued, ¬ notice.Covered := by
  have heval : (runNotify (sampleOptions 50) polledAfterWrite).any fun ν =>
      ν.issued.map (fun n => (n.segmentFirstIndex, n.durableThrough)) = [(1, 2)] ∧
        ∀ notice ∈ ν.issued, ¬ notice.Covered := by
    decide +kernel
  obtain ⟨ν, hν, hp⟩ := (Option.any_eq_true _ _).mp heval
  exact ⟨ν, NotifyRun.of_runNotify hν, of_decide_eq_true hp⟩

end Arachne.Storage
