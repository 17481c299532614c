import Arachne.Data.Feed
import Arachne.Data.Run
import Arachne.Forward.Write
import Arachne.Runtime.Admission
import Arachne.StateMachine.Snapshot
import Arachne.Storage.Types

/-! # The apply pipeline

Committed work travels from raft to the state machine through four places: the actor stages it in a queue,
moves runs of it into a batch that may have to wait (`deferred`), hands the batch over through a bounded
channel, and the apply task works through it entry by entry. The actor and the task run concurrently.

A `Sys` holds both of them and what they share. The actor's `drive_cycle` is not one step: every point of it
at which the channel or the progress of the task is looked at is a step of its own, and the `Phase` says which
one is next, so the task may run in between. `Sys.exec` is what an `Action` does, if it is possible. `History`
holds what the code does not keep, to speak about it. -/

namespace Arachne.Runtime.Pipeline

open Codec (Bytes)
open Feed (Item)
open Forward (ConfChangeType)
open StateMachine (SessionKey Store KvError commandSession)
open Storage (EntryType ConfState Snapshot SnapshotMeta)

/-! ## What travels -/

/-- A committed entry, as raft delivers it. -/
structure CommittedEntry where
  index : UInt64
  kind : EntryType
  data : Bytes
  deriving DecidableEq, Repr

/-- What the state machine is given for an entry: nothing, if the entry changes the membership. -/
def payload : EntryType × Bytes → Bytes
  | (.entry, data) => data
  | (.confChange, _) => []
  | (.confChangeV2, _) => []

/-- Committed work for the apply task: a snapshot to restore, if one was installed, and the entries behind
it. -/
structure ApplyBatch where
  snapshot : Option Snapshot
  entries : List (UInt64 × Bytes)
  deriving DecidableEq, Repr

/-- A request to the apply task. -/
inductive ApplyRequest where
  | batch (batch : ApplyBatch)
  /-- Serialize the applied state for a local snapshot. -/
  | snapshot
  deriving DecidableEq, Repr

/-- Why the apply task stopped. -/
inductive ApplyFailure where
  /-- "state machine restore failed for the snapshot at {index}: {e}" -/
  | restore (index : UInt64) (e : KvError)
  /-- "state machine apply failed: {e}" -/
  | apply (e : KvError)
  deriving DecidableEq, Repr

/-! ## The actor's books

What staging and enqueueing note down for the replies, the sessions and the snapshot trigger. The flow of the
entries does not depend on it. -/

/-- A membership change awaiting apply. -/
structure PendingConf where
  changeType : ConfChangeType
  nodeId : UInt64
  index : Option UInt64
  deriving DecidableEq, Repr

structure Book where
  pending : List Pending
  pendingConf : List PendingConf
  /-- What the session clock shows, if there is one. -/
  sessionClock : Option Nat
  sessions : SessionKey → Option Nat
  nextSessionSweep : Nat
  liveSessions : Nat
  sentBytesTotal : Nat
  appliedBytesTotal : Nat
  appliedBytesAtSnapshot : Nat
  snapshotIndex : Nat

/-- What the pipeline takes from the configuration and from the libraries it calls. -/
structure Env where
  /-- `APPLY_QUEUE_DEPTH`. -/
  capacity : Nat
  snapshotThresholdBytes : Nat
  sessionTtlMs : Nat
  sessionGraceMs : Nat
  parseConfChange : Bytes → Option (ConfChangeType × UInt64)
  parseConfChangeV2 : Bytes → Option (List (ConfChangeType × UInt64))
  /-- What raft's progress tracker makes of one change. -/
  raftApply : ConfState → ConfChangeType × UInt64 → Option ConfState

variable {α : Type}

/-- The first element that satisfies `p` is changed by `f`. -/
def markFirst (p : α → Bool) (f : α → α) : List α → List α
  | [] => []
  | x :: xs => if p x then f x :: xs else x :: markFirst p f xs

def entryFramingBytes : Nat := 24

/-- `conf_change_identity`: only single-step changes have one. -/
def Env.confChangeIdentity (env : Env) : EntryType → Bytes → Option (ConfChangeType × UInt64)
  | .confChange, data => env.parseConfChange data
  | .confChangeV2, data =>
    match env.parseConfChangeV2 data with
    | some [change] => some change
    | _ => none
  | .entry, _ => none

/-- `note_session`. -/
def Book.noteSession (env : Env) (b : Book) (session : SessionKey) : Book :=
  match b.sessionClock with
  | none => b
  | some now =>
    if env.sessionTtlMs = 0 then b
    else
      let window := max (env.sessionTtlMs + env.sessionGraceMs) 1
      let b :=
        if now ≥ b.nextSessionSweep then
          { b with
            nextSessionSweep := now + window
            sessions := fun k => (b.sessions k).filter fun last => now - last ≤ window }
        else b
      { b with sessions := fun k => if k = session then some now else b.sessions k }

/-- A committed entry is attributed to the first proposal that waits for its session. -/
def Book.attribute (b : Book) (session : SessionKey) (index : UInt64) : Book :=
  { b with
    pending := markFirst
      (fun p => p.index.isNone && p.clientId == session.clientId && p.seqNo == session.seqNo)
      (fun p => { p with index := some index }) b.pending }

/-- What `enqueue_apply` notes for one entry. -/
def Book.enqueue (env : Env) (b : Book) (entry : UInt64 × Bytes) : Book :=
  let b :=
    match commandSession entry.2 with
    | some session => (b.attribute session entry.1).noteSession env session
    | none => b
  { b with sentBytesTotal := b.sentBytesTotal + entry.2.length + entryFramingBytes }

/-- What `enqueue_apply` notes for an installed snapshot. -/
def Book.noteInstall (b : Book) : Option Snapshot → Book
  | none => b
  | some snapshot =>
    { b with
      snapshotIndex := max b.snapshotIndex snapshot.metadata.index.toNat
      appliedBytesAtSnapshot := b.appliedBytesTotal }

/-- What `stage_committed` notes for one entry. -/
def Book.stage (env : Env) (b : Book) (e : CommittedEntry) : Book :=
  match env.confChangeIdentity e.kind e.data with
  | none => b
  | some (changeType, nodeId) =>
    { b with
      pendingConf := markFirst
        (fun p => p.index.isNone && p.nodeId == nodeId && p.changeType == changeType)
        (fun p => { p with index := some e.index }) b.pendingConf }

/-! ## Actor, task and what they share -/

/-- The membership as the storage keeps it: the configuration, and the index of the change it reflects. -/
structure Membership where
  confState : ConfState
  confChangeIndex : Nat
  deriving DecidableEq, Repr

/-- Where the actor is in its cycle. -/
inductive Phase where
  /-- Between two cycles. -/
  | idle
  /-- Progress was absorbed, `poll_snapshot` is next. -/
  | polling
  /-- `node.step` is next. -/
  | stepping
  /-- Everything is staged, the snapshot is enqueued next. -/
  | installing (snapshot : Snapshot)
  /-- Before an iteration of `pump_committed`. -/
  | pumping
  /-- The no-op of a membership change is enqueued, the change itself is next. -/
  | changing (entry : CommittedEntry)
  /-- `pump_committed` is done. -/
  | resolving
  deriving DecidableEq, Repr

structure Actor where
  /-- The actor has stopped, where `phase` says. -/
  stopped : Bool
  phase : Phase
  appliedIndex : Nat
  committedQueue : List CommittedEntry
  deferred : Option ApplyBatch
  membership : Membership
  /-- The local snapshot that was asked for, and the answer if it is there. -/
  snapshotWait : Option (Option (UInt64 × Bytes))
  book : Book

/-- The state the apply task publishes. -/
structure ApplyProgress where
  appliedIndex : UInt64
  appliedBytesTotal : Nat
  failed : Option ApplyFailure
  sessions : Nat
  deriving DecidableEq, Repr

structure ApplyTask where
  sm : Store
  /-- What is left of the batch in hand. -/
  working : Option ApplyBatch
  appliedBytesTotal : Nat
  failed : Option ApplyFailure
  /-- The task has returned, and its end of the channel is closed. -/
  gone : Bool

/-- How an attempt to hand the deferred batch over ended. -/
inductive HandOver where
  | sent
  | full
  deriving DecidableEq, Repr

structure History where
  /-- What the state machine accepted, in order. -/
  fed : List (Item Bytes)
  /-- The last index raft delivered. -/
  delivered : Nat
  /-- The indices of the snapshots raft delivered, the latest first. -/
  installs : List Nat
  /-- The snapshots that a newer one found in the waiting batch. -/
  superseded : List Nat
  /-- The indices `apply_conf_change` was called for, the latest first. -/
  calls : List Nat
  /-- How the last attempt of the current cycle to hand work over ended, if it made one. -/
  handOver : Option HandOver
  /-- The local snapshots, the latest first. -/
  created : List Snapshot

structure Sys where
  actor : Actor
  channel : List ApplyRequest
  task : ApplyTask
  progress : ApplyProgress
  history : History

/-! ## Handing work over -/

/-- The batch that waits, once there is more work for it. -/
def mergeBatch : Option ApplyBatch → Option Snapshot → List (UInt64 × Bytes) → ApplyBatch
  -- A newer snapshot supersedes what is still waiting.
  | some _, some snapshot, entries => { snapshot := some snapshot, entries }
  | some waiting, none, entries => { waiting with entries := waiting.entries ++ entries }
  | none, snapshot, entries => { snapshot, entries }

/-- `flush_deferred`. There is no result if the apply task is gone. -/
def Sys.flushDeferred (env : Env) (s : Sys) : Option Sys :=
  match s.actor.deferred with
  | none => some s
  | some batch =>
    if s.task.gone then none
    else if s.channel.length < env.capacity then
      some { s with
        actor.deferred := none
        channel := s.channel ++ [.batch batch]
        history.handOver := some .sent }
    else some { s with history.handOver := some .full }

/-- `enqueue_apply`. -/
def Sys.enqueueApply (env : Env) (s : Sys) (snapshot : Option Snapshot) (entries : List (UInt64 × Bytes)) :
    Option Sys :=
  if snapshot.isNone ∧ entries = [] ∧ s.actor.deferred.isNone then some s
  else
    Sys.flushDeferred env { s with
      actor.book := entries.foldl (Book.enqueue env) (s.actor.book.noteInstall snapshot)
      actor.deferred := some (mergeBatch s.actor.deferred snapshot entries) }

/-! ## The actor's cycle -/

def Sys.stop (s : Sys) : Sys := { s with actor.stopped := true }

/-- The actor goes on in phase `phase`, unless the apply task is gone. -/
def Sys.orStop (s : Sys) (phase : Phase) : Option Sys → Sys
  | some s' => { s' with actor.phase := phase }
  | none => s.stop

/-- `absorb_progress`, which begins a cycle. -/
def Sys.absorbProgress (s : Sys) : Sys :=
  { s with
    actor.appliedIndex := s.progress.appliedIndex.toNat
    actor.book.appliedBytesTotal := s.progress.appliedBytesTotal
    actor.book.liveSessions := s.progress.sessions
    actor.stopped := s.progress.failed.isSome
    actor.phase := .polling
    history.handOver := none }

/-- `poll_snapshot`. The storage takes the finished snapshot in, or it does not. -/
def Sys.pollSnapshot (s : Sys) (term : Option UInt64) : Sys :=
  match s.actor.snapshotWait with
  | none => { s with actor.phase := .stepping }
  | some none => if s.task.gone then s.stop else { s with actor.phase := .stepping }
  | some (some (index, data)) =>
    match term with
    | none => s.stop
    | some term =>
      { s with
        actor.phase := .stepping
        actor.snapshotWait := none
        actor.book.snapshotIndex := index.toNat
        actor.book.appliedBytesAtSnapshot := s.actor.book.appliedBytesTotal
        history.created :=
          { metadata := { index, term, confState := s.actor.membership.confState }, data } :: s.history.created }

/-- An installed snapshot brings the membership it was taken with, if that is newer. -/
def Membership.adopt (m : Membership) (snapshot : Snapshot) : Membership :=
  if snapshot.metadata.index.toNat > m.confChangeIndex then
    { confState := snapshot.metadata.confState, confChangeIndex := snapshot.metadata.index.toNat }
  else m

/-- What the queue keeps when a snapshot is installed. -/
def retainAbove (snapshot : Option Snapshot) (queue : List CommittedEntry) : List CommittedEntry :=
  match snapshot with
  | none => queue
  | some snapshot => queue.filter fun e => e.index > snapshot.metadata.index

/-- The snapshot that a newer one finds in the waiting batch, whose place it will take. -/
def supersededBy (waiting : Option ApplyBatch) (snapshot : Option Snapshot) : List Nat :=
  match waiting, snapshot with
  | some { snapshot := some old, .. }, some _ => [old.metadata.index.toNat]
  | _, _ => []

/-- The last index that is delivered, if it was `delivered` before. -/
def lastDelivered (delivered : Nat) (snapshot : Option Snapshot) (entries : List CommittedEntry) : Nat :=
  match entries.getLast?, snapshot with
  | some e, _ => e.index.toNat
  | none, some snapshot => snapshot.metadata.index.toNat
  | none, none => delivered

/-- `node.step` returned this snapshot and these entries: `stage_committed` up to the first use of the
channel. The storage has installed the snapshot. -/
def Sys.stageCommitted (env : Env) (s : Sys) (snapshot : Option Snapshot) (entries : List CommittedEntry) : Sys :=
  { s with
    actor.committedQueue := retainAbove snapshot s.actor.committedQueue ++ entries
    actor.book := entries.foldl (Book.stage env) s.actor.book
    actor.membership := snapshot.elim s.actor.membership s.actor.membership.adopt
    actor.phase := snapshot.elim .pumping .installing
    history.delivered := lastDelivered s.history.delivered snapshot entries
    history.installs := (snapshot.map fun snapshot => snapshot.metadata.index.toNat).toList ++ s.history.installs
    history.superseded := s.history.superseded ++ supersededBy s.actor.deferred snapshot }

def CommittedEntry.isNormal (e : CommittedEntry) : Bool := e.kind = .entry

/-- One iteration of `pump_committed`. -/
def Sys.pumpCommitted (env : Env) (s : Sys) : Sys :=
  match s.actor.committedQueue with
  | [] => { s with actor.phase := .resolving }
  | e :: rest =>
    if e.isNormal then
      -- The whole run of normal entries, so that batching is preserved.
      let run := (e :: rest).takeWhile CommittedEntry.isNormal
      let popped := { s with actor.committedQueue := (e :: rest).dropWhile CommittedEntry.isNormal }
      s.orStop .pumping (popped.enqueueApply env none (run.map fun e => (e.index, e.data)))
    else if s.actor.appliedIndex + 1 < e.index.toNat then
      -- The barrier: what is before the change must be applied first.
      { s with actor.phase := .resolving }
    else
      let popped := { s with actor.committedQueue := rest }
      s.orStop (.changing e) (popped.enqueueApply env none [(e.index, [])])

/-- `apply_conf_change` of the node: `none` is an error. `saved` is whether the storage takes the new
configuration. -/
def Membership.applyConfChange (env : Env) (m : Membership) (e : CommittedEntry) (saved : Bool) : Option Membership :=
  if e.index.toNat ≤ m.confChangeIndex then some m
  else
    match (env.confChangeIdentity e.kind e.data).bind (env.raftApply m.confState) with
    | none => none
    | some confState => if saved then some { confState, confChangeIndex := e.index.toNat } else none

/-- The rest of the iteration, for a membership change. -/
def Sys.changeMembership (env : Env) (s : Sys) (e : CommittedEntry) (saved : Bool) : Sys :=
  let s := { s with history.calls := e.index.toNat :: s.history.calls }
  match s.actor.membership.applyConfChange env e saved with
  | none => s.stop
  | some membership =>
    { s with
      actor.membership := membership
      actor.appliedIndex := max s.actor.appliedIndex e.index.toNat
      actor.phase := .pumping }

/-- `maybe_snapshot`, which ends a cycle. -/
def Sys.maybeSnapshot (env : Env) (s : Sys) : Sys :=
  if env.snapshotThresholdBytes = 0 ∨ s.actor.appliedIndex ≤ s.actor.book.snapshotIndex ∨
      s.actor.book.appliedBytesTotal - s.actor.book.appliedBytesAtSnapshot < env.snapshotThresholdBytes ∨
      s.actor.snapshotWait.isSome then
    { s with actor.phase := .idle }
  else if s.task.gone then s.stop
  else if s.channel.length < env.capacity then
    { s with actor.phase := .idle, actor.snapshotWait := some none, channel := s.channel ++ [.snapshot] }
  else { s with actor.phase := .idle }

/-! ## The apply task -/

def ApplyTask.progress (t : ApplyTask) : ApplyProgress :=
  { appliedIndex := t.sm.applied, appliedBytesTotal := t.appliedBytesTotal, failed := t.failed,
    sessions := t.sm.sessions.size }

/-- `publish`. -/
def Sys.publish (s : Sys) : Sys := { s with progress := s.task.progress }

/-- `fail`. -/
def Sys.fail (s : Sys) (reason : ApplyFailure) : Sys := Sys.publish { s with task.failed := some reason }

/-- The task takes the next request. A snapshot is answered at once. -/
def Sys.takeRequest (s : Sys) : Option Sys :=
  match s.channel with
  | [] => none
  | .batch batch :: rest => some { s with channel := rest, task.working := some batch }
  | .snapshot :: rest =>
    some { s with channel := rest, actor.snapshotWait := some (some (s.task.sm.applied, s.task.sm.snapshot)) }

/-- The next thing the task does with the batch in hand: restore its snapshot, apply its next entry, or publish
that the batch is done. -/
def Sys.work (s : Sys) : ApplyBatch → Sys
  | { snapshot := some snapshot, entries } =>
    match s.task.sm.restore snapshot.data with
    | (.error e, sm) => Sys.fail { s with task.sm := sm } (.restore snapshot.metadata.index e)
    | (.ok (), sm) =>
      { s with
        task.sm := sm
        task.working := some { snapshot := none, entries }
        history.fed := s.history.fed ++ [.restore snapshot.metadata.index.toNat] }
  | { snapshot := none, entries := (index, data) :: rest } =>
    match s.task.sm.apply index data with
    | (.error e, sm) => Sys.fail { s with task.sm := sm } (.apply e)
    | (.ok _, sm) =>
      { s with
        task.sm := sm
        task.working := some { snapshot := none, entries := rest }
        task.appliedBytesTotal := s.task.appliedBytesTotal + data.length + entryFramingBytes
        history.fed := s.history.fed ++ [.entry index.toNat data] }
  | { snapshot := none, entries := [] } => Sys.publish { s with task.working := none }

/-! ## Runs -/

inductive Action where
  /-- What commands, replies, time-outs and the clock do to the books between two cycles. -/
  | serve (pending : List Pending) (pendingConf : List PendingConf) (now : Option Nat)
  | absorb
  | poll (term : Option UInt64)
  | deliver (snapshot : Option Snapshot) (entries : List CommittedEntry)
  | install
  | pump
  | change (saved : Bool)
  | finish
  /-- The actor stops for a reason of its own. -/
  | halt
  | take
  | work
  /-- A task that has failed returns. -/
  | close
  deriving DecidableEq, Repr

/-- What the action does, if it is possible. -/
def Sys.exec (env : Env) (s : Sys) : Action → Option Sys
  | .serve pending pendingConf now =>
    match s.actor.stopped, s.actor.phase with
    | false, .idle =>
      some { s with
        actor.book.pending := pending, actor.book.pendingConf := pendingConf, actor.book.sessionClock := now }
    | _, _ => none
  | .absorb =>
    match s.actor.stopped, s.actor.phase with
    | false, .idle => some s.absorbProgress
    | _, _ => none
  | .poll term =>
    match s.actor.stopped, s.actor.phase with
    | false, .polling => some (s.pollSnapshot term)
    | _, _ => none
  | .deliver snapshot entries =>
    match s.actor.stopped, s.actor.phase with
    | false, .stepping => some (s.stageCommitted env snapshot entries)
    | _, _ => none
  | .install =>
    match s.actor.stopped, s.actor.phase with
    | false, .installing snapshot => some (s.orStop .pumping (s.enqueueApply env (some snapshot) []))
    | _, _ => none
  | .pump =>
    match s.actor.stopped, s.actor.phase with
    | false, .pumping => some (s.pumpCommitted env)
    | _, _ => none
  | .change saved =>
    match s.actor.stopped, s.actor.phase with
    | false, .changing e => some (s.changeMembership env e saved)
    | _, _ => none
  | .finish =>
    match s.actor.stopped, s.actor.phase with
    | false, .resolving => some (s.maybeSnapshot env)
    | _, _ => none
  | .halt => some s.stop
  | .take =>
    if s.task.failed.isNone ∧ s.task.working.isNone then s.takeRequest else none
  | .work => if s.task.failed.isNone then s.task.working.map s.work else none
  | .close => if s.task.failed.isSome then some { s with task.gone := true } else none

/-- The actions by what makes them possible. -/
inductive Sys.Moves (env : Env) (s : Sys) : Action → Sys → Prop where
  | serve {pending : List Pending} {pendingConf : List PendingConf} {now : Option Nat} (hphase : s.actor.phase = .idle) :
      Moves env s (.serve pending pendingConf now) { s with
        actor.book.pending := pending, actor.book.pendingConf := pendingConf, actor.book.sessionClock := now }
  | absorb (hphase : s.actor.phase = .idle) : Moves env s .absorb s.absorbProgress
  | poll {term : Option UInt64} (hphase : s.actor.phase = .polling) : Moves env s (.poll term) (s.pollSnapshot term)
  | deliver {snapshot : Option Snapshot} {entries : List CommittedEntry} (hphase : s.actor.phase = .stepping) :
      Moves env s (.deliver snapshot entries) (s.stageCommitted env snapshot entries)
  | install {snapshot : Snapshot} (hphase : s.actor.phase = .installing snapshot) :
      Moves env s .install (s.orStop .pumping (s.enqueueApply env (some snapshot) []))
  | pump (hphase : s.actor.phase = .pumping) : Moves env s .pump (s.pumpCommitted env)
  | change {e : CommittedEntry} {saved : Bool} (hphase : s.actor.phase = .changing e) (hrunning : s.actor.stopped = false) :
      Moves env s (.change saved) (s.changeMembership env e saved)
  | finish (hphase : s.actor.phase = .resolving) : Moves env s .finish (s.maybeSnapshot env)
  | halt : Moves env s .halt s.stop
  | take {s' : Sys} (hfailed : s.task.failed = none) (hworking : s.task.working = none) (h : s.takeRequest = some s') :
      Moves env s .take s'
  | work {batch : ApplyBatch} (hfailed : s.task.failed = none) (hworking : s.task.working = some batch) :
      Moves env s .work (s.work batch)
  | close (hfailed : s.task.failed.isSome) : Moves env s .close { s with task.gone := true }

/-- The task takes a batch in hand, or answers a request for a snapshot. -/
theorem Sys.takeRequest_eq_some {s s' : Sys} (h : s.takeRequest = some s') :
    (∃ batch rest, s.channel = .batch batch :: rest ∧ s' = { s with channel := rest, task.working := some batch }) ∨
      ∃ rest, s.channel = .snapshot :: rest ∧
        s' = { s with channel := rest, actor.snapshotWait := some (some (s.task.sm.applied, s.task.sm.snapshot)) } := by
  rw [Sys.takeRequest] at h
  split at h
  · cases h
  · next batch rest hchannel => exact .inl ⟨batch, rest, hchannel, (Option.some.inj h).symm⟩
  · next rest hchannel => exact .inr ⟨rest, hchannel, (Option.some.inj h).symm⟩

theorem Sys.moves_of_exec {env : Env} {s s' : Sys} {a : Action} (h : s.exec env a = some s') : s.Moves env a s' := by
  cases a with
  | halt =>
      obtain rfl := Option.some.inj h
      exact .halt
  | take =>
      obtain ⟨⟨hfailed, hworking⟩, h⟩ := Option.ite_none_right_eq_some.mp h
      exact .take (Option.isNone_iff_eq_none.mp hfailed) (Option.isNone_iff_eq_none.mp hworking) h
  | work =>
      obtain ⟨hfailed, h⟩ := Option.ite_none_right_eq_some.mp h
      obtain ⟨batch, hworking, rfl⟩ := Option.map_eq_some_iff.mp h
      exact .work (Option.isNone_iff_eq_none.mp hfailed) hworking
  | close =>
      obtain ⟨hfailed, h⟩ := Option.ite_none_right_eq_some.mp h
      obtain rfl := Option.some.inj h
      exact .close hfailed
  | change saved =>
      simp only [Sys.exec] at h
      split at h
      · next hrunning hphase =>
        obtain rfl := Option.some.inj h
        exact .change hphase hrunning
      · cases h
  | _ =>
      -- An action of the actor, which is possible in one phase only.
      simp only [Sys.exec] at h
      split at h
      · next hphase =>
        obtain rfl := Option.some.inj h
        constructor
        exact hphase
      · cases h

/-- What `poll_snapshot` can do: stop, find nothing to do, or take a snapshot in. -/
theorem Sys.pollSnapshot_cases (s : Sys) (term : Option UInt64) :
    s.pollSnapshot term = s.stop ∨ s.pollSnapshot term = { s with actor.phase := .stepping } ∨
      ∃ index data saved, s.actor.snapshotWait = some (some (index, data)) ∧ term = some saved ∧
        s.pollSnapshot term = { s with
          actor.phase := .stepping
          actor.snapshotWait := none
          actor.book.snapshotIndex := index.toNat
          actor.book.appliedBytesAtSnapshot := s.actor.book.appliedBytesTotal
          history.created :=
            { metadata := { index, term := saved, confState := s.actor.membership.confState }, data } ::
              s.history.created } := by
  fun_cases Sys.pollSnapshot s term with
  | case1 hwait => exact .inr (.inl rfl)
  | case2 hwait hgone => exact .inl rfl
  | case3 hwait hgone => exact .inr (.inl rfl)
  | case4 index data hwait => exact .inl rfl
  | case5 index data hwait saved => exact .inr (.inr ⟨index, data, saved, hwait, rfl, rfl⟩)

/-- What `maybe_snapshot` can do: stop, leave it at that, or ask for a snapshot. -/
theorem Sys.maybeSnapshot_cases (env : Env) (s : Sys) :
    s.maybeSnapshot env = s.stop ∨ s.maybeSnapshot env = { s with actor.phase := .idle } ∨
      s.maybeSnapshot env = { s with
        actor.phase := .idle, actor.snapshotWait := some none, channel := s.channel ++ [.snapshot] } := by
  fun_cases Sys.maybeSnapshot env s with
  | case1 hnot => exact .inr (.inl rfl)
  | case2 hdue hgone => exact .inl rfl
  | case3 hdue hgone hroom => exact .inr (.inr rfl)
  | case4 hdue hgone hfull => exact .inr (.inl rfl)

/-- The pipeline of a process that starts with the state machine `sm`. -/
def Sys.start (sm : Store) (membership : Membership) (clock : Option Nat) : Sys where
  actor := {
    stopped := false
    phase := .idle
    appliedIndex := sm.applied.toNat
    committedQueue := []
    deferred := none
    membership
    snapshotWait := none
    book := {
      pending := []
      pendingConf := []
      sessionClock := clock
      sessions := fun _ => none
      nextSessionSweep := 0
      liveSessions := 0
      sentBytesTotal := 0
      appliedBytesTotal := 0
      appliedBytesAtSnapshot := 0
      snapshotIndex := sm.applied.toNat } }
  channel := []
  task := { sm, working := none, appliedBytesTotal := 0, failed := none, gone := false }
  progress := { appliedIndex := sm.applied, appliedBytesTotal := 0, failed := none, sessions := 0 }
  history := {
    fed := []
    delivered := sm.applied.toNat
    installs := []
    superseded := []
    calls := []
    handOver := none
    created := [] }

/-- The entries are those of the log above `w`. -/
def Consecutive (log : Nat → EntryType × Bytes) : Nat → List CommittedEntry → Prop
  | _, [] => True
  | w, e :: entries => e.index.toNat = w + 1 ∧ (e.kind, e.data) = log (w + 1) ∧ Consecutive log (w + 1) entries

instance decidableConsecutive (log : Nat → EntryType × Bytes) (w : Nat) (entries : List CommittedEntry) :
    Decidable (Consecutive log w entries) := by
  induction entries generalizing w with
  | nil => exact isTrue trivial
  | cons e entries ih => exact @instDecidableAnd _ _ _ (@instDecidableAnd _ _ _ (ih (w + 1)))

/-- The snapshot is one that an apply task serialized at its index. -/
def Serialized (snapshot : Snapshot) : Prop :=
  ∃ st : Store, st.applied = snapshot.metadata.index ∧ snapshot.data = st.snapshot

/-- What raft promises of a delivery: a snapshot is at or above everything delivered before it, and the entries
are those of the committed log behind it. -/
structure Delivery (log : Nat → EntryType × Bytes) (delivered : Nat) (snapshot : Option Snapshot)
    (entries : List CommittedEntry) : Prop where
  above : ∀ snap ∈ snapshot, delivered ≤ snap.metadata.index.toNat
  serialized : ∀ snap ∈ snapshot, Serialized snap
  consecutive : Consecutive log (snapshot.elim delivered fun snap => snap.metadata.index.toNat) entries

/-- A step of actor or task over the committed log `log`. -/
def Sys.Step (env : Env) (log : Nat → EntryType × Bytes) (s : Sys) (a : Action) (s' : Sys) : Prop :=
  s.exec env a = some s' ∧
    ∀ snapshot entries, a = .deliver snapshot entries → Delivery log s.history.delivered snapshot entries

/-- A run of the pipeline from a start of the process. -/
abbrev PipelineRun (env : Env) (log : Nat → EntryType × Bytes) (first : Sys) : List Action → Sys → Prop :=
  Transition.Run (· = first) (Sys.Step env log)

end Arachne.Runtime.Pipeline
