import Arachne.Runtime.Restart
import Arachne.StateMachine.Events
import Arachne.StateMachine.Range
import Arachne.StateMachine.Snapshot

/-! # Watch streams

A watcher is registered with a snapshot of its range and is then sent the events of later entries. The apply task
puts the events of each entry into a bounded channel and never waits there: a batch that finds no room is dropped,
and its index noted on a watermark the actor shares. Before the actor dispatches a batch it drains the watermark and
disconnects the watchers that may have missed something.

The apply task and the actor run concurrently, so the steps are small: an entry is applied, its batch is sent or
refused, and a refused batch is noted, as three steps; a batch is received from the channel, the watermark drained,
and then the events are offered to the watchers one after the other. -/

namespace Arachne.Runtime.Watch

open Codec (Bytes)
open StateMachine (Store KvMap WatchEvent replay)

/-- A watch subscription: its range, the applied index it was registered at, and the snapshot it was given. `sent` is
everything that was ever put into its queue, of which its consumer has read the first `taken`. -/
structure Watcher where
  start : Bytes
  upper : Bytes
  filter : UInt64
  snapshot : List (Bytes × Bytes)
  sent : List WatchEvent
  taken : Nat
  /-- The consumer has dropped its end of the queue. -/
  gone : Bool
  deriving DecidableEq, Repr

/-- Whether a key is in the range. An empty upper bound is none. -/
def inRange (start upper key : Bytes) : Bool := !decide (start > key) && (upper.isEmpty || decide (key < upper))

/-- `matches`, for the range of a watcher. -/
def Watcher.covers (w : Watcher) (key : Bytes) : Bool := inRange w.start w.upper key

/-- The event is for this watcher. -/
def Watcher.wants (w : Watcher) (ev : WatchEvent) : Bool := decide (ev.index > w.filter) && w.covers ev.key

def watchBuffer : Nat := 1024

/-- One event for one watcher: it is sent, or passed over, or the watcher is removed. -/
def Watcher.offer (w : Watcher) (ev : WatchEvent) : Option Watcher :=
  if w.wants ev then
    if w.gone ∨ w.sent.length - w.taken ≥ watchBuffer then none
    else some { w with sent := w.sent ++ [ev] }
  else some w

/-- Where the actor is in `dispatch_watch_events`. -/
inductive Dispatch where
  | idle
  /-- The batch has left the channel. -/
  | received (index : UInt64) (events : List WatchEvent)
  /-- The watermark is drained, and these events are left to be sent. -/
  | sending (events : List WatchEvent)
  deriving DecidableEq, Repr

structure WatchSys where
  sm : Store
  /-- The events of the entry that was just applied. -/
  inHand : Option (UInt64 × List WatchEvent)
  /-- A batch the channel had no room for, until that is noted. -/
  refused : Option (UInt64 × List WatchEvent)
  channel : List (UInt64 × List WatchEvent)
  /-- `watch_backlog_dropped`: the lowest index of a dropped batch, and `u64::MAX` if there is none. -/
  backlogDropped : UInt64
  dispatch : Dispatch
  watchers : List Watcher
  /-- All events that were emitted, in order. -/
  history : List WatchEvent
  /-- The indices of the batches that were refused. -/
  missed : List UInt64
  /-- The events the actor is done with, in order. -/
  done : List WatchEvent
  /-- The index of the last batch that was dispatched. -/
  last : UInt64

def maxStaleRangeEntries : Nat := 10000

/-- The entries of a range, in the order of the keys. -/
def rangeEntries (kv : KvMap) (start upper : Bytes) : List (Bytes × Bytes) :=
  (kv.toList.filter fun x => inRange start upper x.1).map fun x => (x.1, x.2.val)

/-- `get_range_with_index`: the first entries of the range, and whether there were more of them. -/
def getRange (kv : KvMap) (start upper : Bytes) (limit : Nat) : List (Bytes × Bytes) × Bool :=
  let limit := min limit maxStaleRangeEntries
  -- The source returns early here since ranging over a reversed interval would be a fault.
  let reversed := !start.isEmpty && !upper.isEmpty && decide (start ≥ upper)
  if reversed then ([], false)
  else
    let entries := rangeEntries kv start upper
    (entries.take limit, decide (entries.length > limit))

theorem inRange_eq (start upper key : Bytes) : inRange start upper key = StateMachine.inInterval start upper key := by
  rw [inRange, StateMachine.inInterval]
  congr 1
  rw [← decide_not]
  exact decide_eq_decide.mpr List.not_lt

/-- The snapshot of a registration is a range read of the state machine. -/
theorem getRange_eq (st : Store) (start upper : Bytes) (limit : Nat) :
    st.getRangeWithIndex start upper limit =
      ((getRange st.kv start upper limit).1, st.applied, (getRange st.kv start upper limit).2) := by
  have hentries : rangeEntries st.kv start upper =
      (st.kv.toList.filter fun x => StateMachine.inInterval start upper x.1).map fun x => (x.1, x.2.val) := by
    simp only [rangeEntries, inRange_eq]
  rw [st.getRangeWithIndex_eq, getRange]
  dsimp only
  split_ifs with hreversed
  · have hnone := StateMachine.filter_inInterval_reversed st.kv hreversed
    rw [hnone, List.take_nil]
    rfl
  · rw [hentries, ← List.map_take, List.length_map]
    rfl

/-- Registration: the snapshot and the subscription share one applied index. A truncated snapshot is refused. -/
def WatchSys.register (s : WatchSys) (start upper : Bytes) (limit : Nat) : WatchSys :=
  let (entries, truncated) := getRange s.sm.kv start upper limit
  if truncated then s
  else
    { s with
      watchers := s.watchers ++ [{
        start, upper, filter := s.sm.applied, snapshot := entries, sent := [], taken := 0, gone := false }] }

/-- `dispatch_watch_events` up to its loop: the watermark is drained, and whoever is below it is disconnected. -/
def WatchSys.drain (s : WatchSys) (index : UInt64) (events : List WatchEvent) : WatchSys :=
  { s with
    backlogDropped := maxU64
    watchers :=
      if s.backlogDropped ≠ maxU64 then s.watchers.filter fun w => w.filter ≥ s.backlogDropped else s.watchers
    dispatch := .sending events
    last := index }

/-- One event for all watchers. -/
def WatchSys.offer (s : WatchSys) (ev : WatchEvent) (rest : List WatchEvent) : WatchSys :=
  { s with
    watchers := s.watchers.filterMap (·.offer ev)
    dispatch := .sending rest
    done := s.done ++ [ev] }

/-- What an applied entry leaves in the apply task's hands: nothing, if it emitted nothing. -/
def batchOf (index : UInt64) (events : List WatchEvent) : Option (UInt64 × List WatchEvent) :=
  if events.isEmpty then none else some (index, events)

inductive WatchAction where
  | apply (index : UInt64) (command : Bytes)
  | restore (data : Bytes)
  | send
  /-- `fetch_min` after a failed send. -/
  | note
  | register (start upper : Bytes) (limit : Nat)
  | receive
  | drain
  | offer
  | finish
  /-- The consumer of the watcher at position `k` reads an event. -/
  | take (k : Nat)
  /-- The consumer of the watcher at position `k` goes away. -/
  | leave (k : Nat)
  deriving DecidableEq, Repr

/-- What the action does, if it is possible. The apply task works on one entry at a time, and the actor registers
nobody while it dispatches. -/
def WatchSys.exec (capacity : Nat) (s : WatchSys) : WatchAction → Option WatchSys
  | .apply index command =>
    if s.inHand = none ∧ s.refused = none then
      match s.sm.apply index command with
      | (.ok applied, sm) =>
        some { s with sm, inHand := batchOf index applied.events, history := s.history ++ applied.events }
      | (.error _, _) => none
    else none
  | .restore data =>
    if s.inHand = none ∧ s.refused = none then
      match s.sm.restore data with
      | (.ok (), sm) => some { s with sm }
      | (.error _, _) => none
    else none
  | .send =>
    s.inHand.map fun batch =>
      if s.channel.length < capacity then { s with inHand := none, channel := s.channel ++ [batch] }
      else { s with inHand := none, refused := some batch, missed := s.missed ++ [batch.1] }
  | .note => s.refused.map fun batch => { s with refused := none, backlogDropped := min s.backlogDropped batch.1 }
  | .register start upper limit => if s.dispatch = .idle then some (s.register start upper limit) else none
  | .receive =>
    match s.dispatch, s.channel with
    | .idle, (index, events) :: rest => some { s with dispatch := .received index events, channel := rest }
    | _, _ => none
  | .drain =>
    match s.dispatch with
    | .received index events => some (s.drain index events)
    | _ => none
  | .offer =>
    match s.dispatch with
    | .sending (ev :: rest) => some (s.offer ev rest)
    | _ => none
  | .finish =>
    match s.dispatch with
    | .sending [] => some { s with dispatch := .idle }
    | _ => none
  | .take k =>
    s.watchers[k]?.map fun w =>
      { s with watchers := s.watchers.set k { w with taken := min (w.taken + 1) w.sent.length } }
  | .leave k => s.watchers[k]?.map fun w => { s with watchers := s.watchers.set k { w with gone := true } }

/-- Before the first entry is applied. -/
def WatchSys.start (sm : Store) : WatchSys where
  sm
  inHand := none
  refused := none
  channel := []
  backlogDropped := maxU64
  dispatch := .idle
  watchers := []
  history := []
  missed := []
  done := []
  last := 0

/-- What reaches the apply task is in log order: the next entry, or a snapshot that is not behind. -/
def InOrder (s : WatchSys) : WatchAction → Prop
  | .apply index _ => index.toNat = s.sm.applied.toNat + 1
  | .restore data => s.sm.applied ≤ (s.sm.restore data).2.applied
  | _ => True

/-- A run from a start of the process, of steps that are `allowed`. -/
abbrev WatchRun (capacity : Nat) (allowed : WatchSys → WatchAction → Prop) (sm : Store) :
    List WatchAction → WatchSys → Prop :=
  Transition.Run (· = WatchSys.start sm) fun s a s' => InOrder s a ∧ allowed s a ∧ s.exec capacity a = some s'

instance (s : WatchSys) (a : WatchAction) : Decidable (InOrder s a) :=
  match a with
  | .apply _ _ => inferInstanceAs (Decidable (_ = _))
  | .restore _ => inferInstanceAs (Decidable (_ ≤ _))
  | .send | .note | .register _ _ _ | .receive | .drain | .offer | .finish | .take _ | .leave _ => isTrue trivial

/-- The steps of a run, evaluated. -/
def WatchSys.execAllowed (capacity : Nat) (allowed : WatchSys → WatchAction → Prop)
    [∀ s a, Decidable (allowed s a)] (s : WatchSys) (a : WatchAction) : Option WatchSys :=
  if InOrder s a ∧ allowed s a then s.exec capacity a else none

theorem run_of_execAllowed {capacity : Nat} {allowed : WatchSys → WatchAction → Prop} [∀ s a, Decidable (allowed s a)]
    {sm : Store} {actions : List WatchAction} {s : WatchSys}
    (h : actions.foldlM (WatchSys.execAllowed capacity allowed) (WatchSys.start sm) = some s) :
    WatchRun capacity allowed sm actions s := by
  refine .of_foldlM ?_ rfl h
  intro s a s' hexec
  obtain ⟨⟨horder, hallowed⟩, hexec⟩ := Option.ite_none_right_eq_some.mp hexec
  exact ⟨horder, hallowed, hexec⟩

/-! ## What a step does -/

inductive WatchSys.Moves (capacity : Nat) (s : WatchSys) : WatchAction → WatchSys → Prop where
  | apply {index : UInt64} {command : Bytes} {applied : StateMachine.Applied} {sm : Store} (hhand : s.inHand = none)
      (hrefused : s.refused = none) (h : s.sm.apply index command = (.ok applied, sm)) :
      Moves capacity s (.apply index command)
        { s with sm, inHand := batchOf index applied.events, history := s.history ++ applied.events }
  | restore {data : Bytes} {sm : Store} (hhand : s.inHand = none) (hrefused : s.refused = none)
      (h : s.sm.restore data = (.ok (), sm)) : Moves capacity s (.restore data) { s with sm }
  | send {batch : UInt64 × List WatchEvent} (h : s.inHand = some batch) (hroom : s.channel.length < capacity) :
      Moves capacity s .send { s with inHand := none, channel := s.channel ++ [batch] }
  | refuse {batch : UInt64 × List WatchEvent} (h : s.inHand = some batch) (hfull : ¬ s.channel.length < capacity) :
      Moves capacity s .send { s with inHand := none, refused := some batch, missed := s.missed ++ [batch.1] }
  | note {batch : UInt64 × List WatchEvent} (h : s.refused = some batch) :
      Moves capacity s .note { s with refused := none, backlogDropped := min s.backlogDropped batch.1 }
  | register {start upper : Bytes} {limit : Nat} (h : s.dispatch = .idle) :
      Moves capacity s (.register start upper limit) (s.register start upper limit)
  | receive {index : UInt64} {events : List WatchEvent} {rest : List (UInt64 × List WatchEvent)}
      (h : s.dispatch = .idle) (hchannel : s.channel = (index, events) :: rest) :
      Moves capacity s .receive { s with dispatch := .received index events, channel := rest }
  | drain {index : UInt64} {events : List WatchEvent} (h : s.dispatch = .received index events) :
      Moves capacity s .drain (s.drain index events)
  | offer {ev : WatchEvent} {rest : List WatchEvent} (h : s.dispatch = .sending (ev :: rest)) :
      Moves capacity s .offer (s.offer ev rest)
  | finish (h : s.dispatch = .sending []) : Moves capacity s .finish { s with dispatch := .idle }
  | take {k : Nat} {w : Watcher} (h : s.watchers[k]? = some w) :
      Moves capacity s (.take k)
        { s with watchers := s.watchers.set k { w with taken := min (w.taken + 1) w.sent.length } }
  | leave {k : Nat} {w : Watcher} (h : s.watchers[k]? = some w) :
      Moves capacity s (.leave k) { s with watchers := s.watchers.set k { w with gone := true } }

theorem WatchSys.moves_of_exec {capacity : Nat} {s s' : WatchSys} {a : WatchAction}
    (h : s.exec capacity a = some s') : s.Moves capacity a s' := by
  cases a with
  | apply index command =>
      simp only [WatchSys.exec, Option.ite_none_right_eq_some] at h
      obtain ⟨⟨hhand, hrefused⟩, h⟩ := h
      cases happly : s.sm.apply index command with
      | mk answer sm =>
          cases answer with
          | error e => simp only [happly, reduceCtorEq] at h
          | ok applied =>
              simp only [happly, Option.some.injEq] at h
              subst h
              exact .apply hhand hrefused happly
  | restore data =>
      simp only [WatchSys.exec, Option.ite_none_right_eq_some] at h
      obtain ⟨⟨hhand, hrefused⟩, h⟩ := h
      cases hrestore : s.sm.restore data with
      | mk answer sm =>
          cases answer with
          | error e => simp only [hrestore, reduceCtorEq] at h
          | ok _ =>
              simp only [hrestore, Option.some.injEq] at h
              subst h
              exact .restore hhand hrefused hrestore
  | send =>
      obtain ⟨batch, hbatch, rfl⟩ := Option.map_eq_some_iff.mp h
      by_cases hroom : s.channel.length < capacity
      · rw [if_pos hroom]
        exact .send hbatch hroom
      · rw [if_neg hroom]
        exact .refuse hbatch hroom
  | note =>
      obtain ⟨batch, hbatch, rfl⟩ := Option.map_eq_some_iff.mp h
      exact .note hbatch
  | register start upper limit =>
      simp only [WatchSys.exec, Option.ite_none_right_eq_some, Option.some.injEq] at h
      obtain ⟨hidle, rfl⟩ := h
      exact .register hidle
  | receive =>
      cases hdispatch : s.dispatch with
      | idle =>
          cases hchannel : s.channel with
          | nil => simp only [WatchSys.exec, hdispatch, hchannel, reduceCtorEq] at h
          | cons batch rest =>
              simp only [WatchSys.exec, hdispatch, hchannel, Option.some.injEq] at h
              subst h
              exact .receive hdispatch hchannel
      | received index events => simp only [WatchSys.exec, hdispatch, reduceCtorEq] at h
      | sending events => simp only [WatchSys.exec, hdispatch, reduceCtorEq] at h
  | drain =>
      cases hdispatch : s.dispatch with
      | received index events =>
          simp only [WatchSys.exec, hdispatch, Option.some.injEq] at h
          subst h
          exact .drain hdispatch
      | idle => simp only [WatchSys.exec, hdispatch, reduceCtorEq] at h
      | sending events => simp only [WatchSys.exec, hdispatch, reduceCtorEq] at h
  | offer =>
      simp only [WatchSys.exec] at h
      split at h
      next ev rest hdispatch =>
        cases h
        exact .offer hdispatch
      next => cases h
  | finish =>
      simp only [WatchSys.exec] at h
      split at h
      next hdispatch =>
        cases h
        exact .finish hdispatch
      next => cases h
  | take k =>
      obtain ⟨w, hw, rfl⟩ := Option.map_eq_some_iff.mp h
      exact .take hw
  | leave k =>
      obtain ⟨w, hw, rfl⟩ := Option.map_eq_some_iff.mp h
      exact .leave hw

end Arachne.Runtime.Watch
