import Arachne.Data.Run
import Arachne.Runtime.Pipeline
import Arachne.Storage.Flush

/-! # The Ready pipeline

`RaftNode::step` takes a `Ready` from raft, writes its records and queues the cycle with the token of its flush; the
cycle at the front of the queue is finished once its flush has landed. The flusher thread completes flushes at any
time and in any order, so `step` is not one step here: each time it looks at a flush is one, and so is the submission
between them.

Raft is outside: what it has to say is in the `Ready` of a step, whatever it is. The `trace` has what the node and the
flusher did, and `cycles` every cycle ever queued; the code keeps neither. -/

namespace Arachne.Consensus

open Codec (Bytes)
open Runtime.Pipeline (CommittedEntry)
open Storage (WalStorage LogEntry HardState Snapshot StorageError FlushJobResult)

/-! ## Cycles -/

/-- What raft hands over, with messages of type `M`. -/
structure Ready (M : Type) where
  number : UInt64
  messages : List M
  persistedMessages : List M
  committedEntries : List LogEntry
  readStates : List (Bytes × UInt64)
  snapshot : Option Snapshot
  entries : List LogEntry
  hardState : Option HardState
  deriving DecidableEq

/-- A cycle whose records are written, waiting for durability. -/
structure PendingPersist (M : Type) where
  number : UInt64
  token : Option Nat
  immediate : List M
  persisted : List M
  committed : List CommittedEntry
  readStates : List (Bytes × UInt64)
  snapshot : Option Snapshot
  snapshotFrom : Option UInt64
  deriving DecidableEq

/-- The result of a `step`. -/
structure StepOutcome where
  committed : List CommittedEntry
  snapshot : Option Snapshot
  snapshotFrom : Option UInt64
  readStates : List (Bytes × UInt64)
  deriving DecidableEq

/-- An installed snapshot supersedes everything at or below its index. -/
def PendingPersist.outcome {M : Type} (pending : PendingPersist M) : StepOutcome where
  committed :=
    match pending.snapshot with
    | some snapshot => pending.committed.filter (·.index > snapshot.metadata.index)
    | none => pending.committed
  snapshot := pending.snapshot
  snapshotFrom := pending.snapshotFrom
  readStates := pending.readStates

/-- A cycle as it was submitted. -/
structure Cycle (M : Type) where
  ready : Ready M
  token : Option Nat
  snapshotFrom : Option UInt64
  deriving DecidableEq

/-- What is queued for a cycle. The fast-path messages of an offloaded cycle have left already. -/
def Cycle.pending {M : Type} (cycle : Cycle M) : PendingPersist M where
  number := cycle.ready.number
  token := cycle.token
  immediate := if cycle.token.isSome then [] else cycle.ready.messages
  persisted := cycle.ready.persistedMessages
  committed := cycle.ready.committedEntries.map fun e => ⟨e.index, e.entryType, e.data⟩
  readStates := cycle.ready.readStates
  snapshot := cycle.ready.snapshot
  snapshotFrom := if cycle.ready.snapshot.isSome then cycle.snapshotFrom else none

inductive NodeError where
  | raft (e : StorageError)
  | storage (detail : String)
  deriving DecidableEq

/-! ## The node and the flusher -/

/-- What happens. Cycles are counted from 0 in the order of their submission. -/
inductive Event (M : Type) where
  /-- `step` is called. -/
  | stepped
  /-- The messages raft marked as not needing persistence leave with the submission. -/
  | fastPath (cycle : Nat) (messages : List M)
  /-- The flusher is done with a job. -/
  | flushed (token : Nat) (result : Except String Unit)
  /-- `poll_flush` reports a job. -/
  | reported (token : Nat) (result : Except String Unit)
  /-- `on_persist_ready`, `advance_apply`. -/
  | persisted (cycle : Nat) (number : UInt64)
  /-- The messages of a cycle are delivered, or enqueued for the outbound sender. -/
  | sent (cycle : Nat) (immediate persisted : List M)
  /-- `step` returns the cycle's outcome. -/
  | returned (cycle : Nat) (outcome : StepOutcome)
  /-- `step` returns an error. -/
  | failed (e : NodeError)
  deriving DecidableEq

/-- Where `step` is. -/
inductive Phase where
  | idle
  /-- Nothing was finished, and a `Ready` may be submitted. -/
  | submitting
  /-- A `Ready` was submitted. -/
  | finishing
  deriving DecidableEq, Repr

structure ReadySys (M : Type) where
  store : WalStorage
  offloaded : Bool
  streamsSnapshots : Bool
  /-- The jobs the flusher has, by token. -/
  jobs : List Nat
  nextId : Nat
  done : List FlushJobResult
  pending : List (PendingPersist M)
  snapshotFrom : Option UInt64
  phase : Phase
  cycles : List (Cycle M)
  completed : Nat
  trace : List (Event M)
  deriving DecidableEq

variable {M : Type}

namespace ReadySys

def maxInFlightReadies : Nat := 8

def emit (s : ReadySys M) (e : Event M) : ReadySys M := { s with trace := s.trace ++ [e] }

def fail (s : ReadySys M) (e : NodeError) : ReadySys M := { s.emit (.failed e) with phase := .idle }

/-- Queue a cycle. Its fast-path messages leave now if its records are flushed off-thread. -/
def enqueue (s : ReadySys M) (ready : Ready M) (token : Option Nat) : ReadySys M :=
  let cycle : Cycle M := ⟨ready, token, s.snapshotFrom⟩
  let s := if token.isSome then s.emit (.fastPath s.cycles.length ready.messages) else s
  { s with
    pending := s.pending ++ [cycle.pending]
    snapshotFrom := if ready.snapshot.isSome then none else s.snapshotFrom
    cycles := s.cycles ++ [cycle]
    phase := .finishing }

/-- A snapshot is installed at once, unless only its metadata has come. -/
def install (s : ReadySys M) (ready : Ready M) : Except StorageError WalStorage :=
  match ready.snapshot with
  | some snapshot =>
    if !(s.streamsSnapshots && snapshot.data.isEmpty) then s.store.installSnapshot snapshot else .ok s.store
  | none => .ok s.store

/-- `submit_ready`. The flusher may have stopped, and then does not accept the flush. -/
def submitReady (s : ReadySys M) (ready : Ready M) (accepted : Bool) : ReadySys M :=
  match s.install ready with
  | .error e => s.fail (.raft e)
  | .ok store =>
    match store.persistReadyRecords s.offloaded ready.entries ready.hardState with
    | .error e => { s with store }.fail (.raft e)
    | .ok (store, false) => { s with store }.enqueue ready none
    | .ok (store, true) =>
      if accepted then
        { s with store, jobs := s.jobs ++ [s.nextId], nextId := s.nextId + 1 }.enqueue ready (some s.nextId)
      else
        { s with store, nextId := s.nextId + 1 }.fail (.raft (.unrecoverable "the WAL flusher thread stopped"))

/-- The end of `finish_persisted`, for a cycle that is durable. -/
def complete (s : ReadySys M) (front : PendingPersist M) (rest : List (PendingPersist M)) : ReadySys M :=
  { s with
    pending := rest
    completed := s.completed + 1
    phase := .idle
    trace := s.trace ++ [.persisted s.completed front.number, .sent s.completed front.immediate front.persisted,
      .returned s.completed front.outcome] }

/-- `poll_flush`. Without off-thread durability everything is durable. -/
def poll (s : ReadySys M) (token : Nat) : ReadySys M × Option (Except String Unit) :=
  if s.offloaded then
    let (store, done, result) := s.store.pollFlush s.done token
    ({ s with store, done }, result)
  else (s, some (.ok ()))

/-- `finish_persisted`. If there is nothing to finish, `step` goes on in phase `next`. -/
def finishPersisted (s : ReadySys M) (next : Phase) : ReadySys M :=
  match s.pending with
  | [] => { s with phase := next }
  | front :: rest =>
    match front.token with
    | none => s.complete front rest
    | some token =>
      match s.poll token with
      | (s, none) => { s with phase := next }
      | (s, some (.error e)) =>
        (s.emit (.reported token (.error e))).fail
          (.storage s!"offloaded flush failed: {e} (durability cannot be claimed)")
      | (s, some (.ok ())) => (s.emit (.reported token (.ok ()))).complete front rest

end ReadySys

inductive ReadyAction (M : Type) where
  | step
  /-- What raft has ready, and whether the flusher accepts the flush. -/
  | submit (ready : Option (Ready M)) (accepted : Bool)
  | finish
  /-- The flusher reports one of its jobs. -/
  | flush (result : FlushJobResult)
  /-- A snapshot message arrives. -/
  | snapshotMessage (sender : UInt64)
  deriving DecidableEq

def ReadySys.exec (s : ReadySys M) : ReadyAction M → Option (ReadySys M)
  | .step => if s.phase = .idle then some ((s.emit .stepped).finishPersisted .submitting) else none
  | .submit ready accepted =>
    if s.phase = .submitting then
      match ready with
      | some ready =>
        if s.pending.length < ReadySys.maxInFlightReadies then some (s.submitReady ready accepted)
        else some { s with phase := .idle }
      | none => some { s with phase := .idle }
    else none
  | .finish => if s.phase = .finishing then some (s.finishPersisted .idle) else none
  | .flush result =>
    if result.id ∈ s.jobs then
      some { s.emit (.flushed result.id result.result) with
        jobs := s.jobs.erase result.id, done := s.done ++ [result] }
    else none
  | .snapshotMessage sender => if s.phase = .idle then some { s with snapshotFrom := some sender } else none

/-- A node over a store that has just been opened. -/
def ReadySys.start (store : WalStorage) (offloaded streamsSnapshots : Bool) : ReadySys M where
  store
  offloaded
  streamsSnapshots
  jobs := []
  nextId := 0
  done := []
  pending := []
  snapshotFrom := none
  phase := .idle
  cycles := []
  completed := 0
  trace := []

abbrev ReadyRun (store : WalStorage) (offloaded streamsSnapshots : Bool) : List (ReadyAction M) → ReadySys M → Prop :=
  Transition.Run (· = ReadySys.start store offloaded streamsSnapshots) fun s a s' => s.exec a = some s'

end Arachne.Consensus
