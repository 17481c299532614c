import Arachne.StateMachine.Command

/-! # The key-value state machine

`apply_with_events_and_index` of the source: a log entry is applied to the map, the table of sessions and
the applied index, all guarded by one lock. The lock is held for the whole call, so a call is a function
of the store; the store is threaded through it as a state that survives an error.

The second half says what a call does without the mutations: the entry is decoded, a write whose session
is in the table is answered from it, and any other write is executed by `Write.exec`, which knows nothing
of sessions (`run_applyOnce`, `Store.apply_next`). -/

namespace Arachne.StateMachine

open Codec

/-- The result of applying a command. -/
inductive ApplyOutcome where
  | none
  | value (val : Bytes)
  | casFailed (currentIndex : UInt64) (currentValue : Option Bytes)
  deriving DecidableEq, Repr

/-- A write-set event of an applied command: the new value of a key, `none` if it was deleted. -/
structure WatchEvent where
  index : UInt64
  key : Bytes
  value : Option Bytes
  deriving DecidableEq, Repr

def WatchEvent.put (index : UInt64) (key value : Bytes) : WatchEvent := ⟨index, key, some value⟩

def WatchEvent.delete (index : UInt64) (key : Bytes) : WatchEvent := ⟨index, key, none⟩

/-- A cached session outcome and the index of the entry that produced it. -/
structure SessionRecord where
  outcome : ApplyOutcome
  index : UInt64
  deriving DecidableEq, Repr

/-- A value and the index of the log entry that wrote it. -/
structure Entry where
  val : Bytes
  index : UInt64
  deriving DecidableEq, Repr

abbrev KvMap := Std.ExtTreeMap Bytes Entry

abbrev SessionTable := Std.ExtTreeMap SessionKey SessionRecord

/-- The data guarded by the state machine's lock. -/
structure Store where
  applied : UInt64
  kv : KvMap
  sessions : SessionTable
  deriving DecidableEq

/-- `KvStateMachine::new`. -/
def Store.new : Store := { applied := 0, kv := ∅, sessions := ∅ }

/-- What applying an entry returns: the outcome, the effective index of the write, and its events. -/
structure Applied where
  outcome : ApplyOutcome
  index : UInt64
  events : List WatchEvent
  deriving DecidableEq, Repr

/-- A computation on the guarded store. -/
abbrev Locked := ExceptT KvError (StateM Store)

def Locked.run {α : Type} (m : Locked α) (st : Store) : Except KvError α × Store := StateT.run (ExceptT.run m) st

/-! ## Applying an entry -/

def setApplied (index : UInt64) : Locked Unit := modify fun st => { st with applied := index }

def insertKv (key : Bytes) (entry : Entry) : Locked Unit :=
  modify fun st => { st with kv := st.kv.insert key entry }

def removeKv (key : Bytes) : Locked Unit := modify fun st => { st with kv := st.kv.erase key }

def recordSession (session : SessionKey) (record : SessionRecord) : Locked Unit :=
  modify fun st => { st with sessions := st.sessions.insert session record }

def removeSession (session : SessionKey) : Locked Unit :=
  modify fun st => { st with sessions := st.sessions.erase session }

def applySessionGc (index : UInt64) (command : Bytes) : Locked Applied := do
  let sessions ← parseSessionGc command
  sessions.forM removeSession
  setApplied index
  return ⟨.none, index, []⟩

/-- The last value of each key, in key order. -/
def finalValues (entries : List (Bytes × Bytes)) : Std.ExtTreeMap Bytes Bytes :=
  entries.foldl (fun keys (key, val) => keys.insert key val) ∅

def applyMultiPut (index : UInt64) (command : Bytes) : Locked Applied := do
  let (session, entries) ← parseMultiPut command
  match (← get).sessions[session]? with
  | some record =>
    -- A replay answers `None`, whatever the record says.
    setApplied index
    return ⟨.none, record.index, []⟩
  | none =>
    entries.forM fun (key, val) => insertKv key { val, index }
    let events := (finalValues entries).toList.map fun (key, val) => WatchEvent.put index key val
    recordSession session ⟨.none, index⟩
    setApplied index
    return ⟨.none, index, events⟩

/-- The idempotency shell of the single-key commands: a session in the table answers from it, and any
other runs the command and is recorded. -/
def applyOnce (index : UInt64) (session : SessionKey) (first : Locked (ApplyOutcome × List WatchEvent)) :
    Locked Applied := do
  match (← get).sessions[session]? with
  | some record =>
    setApplied index
    return ⟨record.outcome, record.index, []⟩
  | none =>
    let (outcome, events) ← first
    recordSession session ⟨outcome, index⟩
    setApplied index
    return ⟨outcome, index, events⟩

/-- Whether a predicate matches the current entry of its key. -/
def CasPred.matched (current : Option Entry) : CasPred → Bool
  | .indexEquals want => (current.map fun e => decide (e.index = want)).getD false
  | .valueEquals want => (current.map fun e => decide (e.val = want)).getD false
  | .notExists => current.isNone

/-- The failure of a compare, with the state it saw. -/
def casFailure : Option Entry → ApplyOutcome
  | some e => .casFailed e.index (some e.val)
  | none => .casFailed 0 none

def applyCas (index : UInt64) (command : Bytes) : Locked Applied := do
  let (session, key, pred, success) ← parseCas command
  applyOnce index session do
    let current := (← get).kv[key]?
    if pred.matched current then
      match success with
      | .put value =>
        insertKv key { val := value, index }
        return (.value value, [.put index key value])
      | .delete =>
        removeKv key
        return (.none, [.delete index key])
    else
      -- A failed compare is recorded like a success, so that a replay does not compare again.
      return (casFailure current, [])

def applyPutDelete (index : UInt64) (command : Bytes) : Locked Applied := do
  let (session, op, key, val) ← parseCommand command
  applyOnce index session do
    match op with
    | .put =>
      insertKv key { val, index }
      return (.value val, [.put index key val])
    | .delete =>
      -- The event is emitted even if the key was absent.
      removeKv key
      return (.none, [.delete index key])

/-- `apply_with_events_and_index`. The next index wraps at the end of `u64`. -/
def applyWithEventsAndIndex (index : UInt64) (command : Bytes) : Locked Applied := do
  if index ≠ (← get).applied + 1 then
    throw (.indexViolation index)
  else if command.isEmpty then
    setApplied index
    return ⟨.none, index, []⟩
  else if command.head? = some opSessionGc then applySessionGc index command
  else if command.head? = some opMultiPut then applyMultiPut index command
  else if command.head? = some opCas then applyCas index command
  else applyPutDelete index command

/-- Apply an entry to a store. -/
def Store.apply (st : Store) (index : UInt64) (command : Bytes) : Except KvError Applied × Store :=
  (applyWithEventsAndIndex index command).run st

/-! ## Applying a log -/

/-- Apply entries one after the other, whatever the answers. -/
def Store.applyEach (st : Store) : List (UInt64 × Bytes) → List (Except KvError Applied) × Store
  | [] => ([], st)
  | (index, command) :: entries =>
    let (answer, st') := st.apply index command
    let (answers, st'') := st'.applyEach entries
    (answer :: answers, st'')

/-- The entries of a log, at consecutive indices from 1. -/
def consecutive (log : List Bytes) : List (UInt64 × Bytes) := log.mapIdx fun i cmd => (UInt64.ofNat (i + 1), cmd)

/-- Apply a log to the empty store. -/
def runLog (log : List Bytes) : List (Except KvError Applied) × Store := Store.new.applyEach (consecutive log)

theorem Store.applyEach_append (st : Store) (xs ys : List (UInt64 × Bytes)) :
    st.applyEach (xs ++ ys) =
      ((st.applyEach xs).1 ++ ((st.applyEach xs).2.applyEach ys).1, ((st.applyEach xs).2.applyEach ys).2) := by
  induction xs generalizing st with
  | nil => rfl
  | cons x xs ih => simp only [List.cons_append, applyEach, ih]

theorem Store.length_applyEach (st : Store) (xs : List (UInt64 × Bytes)) : (st.applyEach xs).1.length = xs.length := by
  induction xs generalizing st with
  | nil => rfl
  | cons x xs ih => exact congrArg (· + 1) (ih _)

theorem runLog_append (log rest : List Bytes) :
    runLog (log ++ rest) =
      let later := (runLog log).2.applyEach (rest.mapIdx fun i cmd => (UInt64.ofNat (i + log.length + 1), cmd))
      ((runLog log).1 ++ later.1, later.2) := by
  rw [runLog, consecutive, List.mapIdx_append, Store.applyEach_append]
  rfl

theorem runLog_snoc (log : List Bytes) (cmd : Bytes) :
    runLog (log ++ [cmd]) =
      let last := (runLog log).2.apply (UInt64.ofNat (log.length + 1)) cmd
      ((runLog log).1 ++ [last.1], last.2) := by
  rw [runLog_append, List.mapIdx_singleton, Nat.zero_add]
  rfl

theorem length_runLog (log : List Bytes) : (runLog log).1.length = log.length := by
  rw [runLog, Store.length_applyEach, consecutive, List.length_mapIdx]

/-- The answer an entry gets depends on the entries before it only. -/
theorem answer_eq (before : List Bytes) (cmd : Bytes) (after : List Bytes) :
    (runLog (before ++ cmd :: after)).1[before.length]? =
      some ((runLog before).2.apply (UInt64.ofNat (before.length + 1)) cmd).1 := by
  have hlast : (runLog (before ++ [cmd])).1[before.length]? =
      some ((runLog before).2.apply (UInt64.ofNat (before.length + 1)) cmd).1 := by
    rw [runLog_snoc]
    dsimp only
    rw [← length_runLog before, List.getElem?_concat_length]
  have hlt : before.length < (runLog (before ++ [cmd])).1.length := by
    rw [length_runLog, List.length_append]
    exact Nat.lt_succ_self _
  rw [List.append_cons, runLog_append]
  dsimp only
  rw [List.getElem?_append_left hlt, hlast]

/-! ## What a call does -/

/-- Execute a write of the entry at `index`, whatever its session. -/
def Write.exec (index : UInt64) (kv : KvMap) : Write → KvMap × ApplyOutcome × List WatchEvent
  | .put key val => (kv.insert key { val, index }, .value val, [.put index key val])
  | .delete key => (kv.erase key, .none, [.delete index key])
  | .multiPut entries =>
    (entries.foldl (fun kv (key, val) => kv.insert key { val, index }) kv, .none,
      (finalValues entries).toList.map fun (key, val) => WatchEvent.put index key val)
  | .cas key pred success =>
    if pred.matched kv[key]? then
      match success with
      | .put value => (kv.insert key { val := value, index }, .value value, [.put index key value])
      | .delete => (kv.erase key, .none, [.delete index key])
    else (kv, casFailure kv[key]?, [])

/-- The outcome a replay is answered with: the recorded one, and `None` for a `multi_put`. -/
def Write.replayed (recorded : ApplyOutcome) : Write → ApplyOutcome
  | .multiPut _ => .none
  | _ => recorded

/-- What a store answers to a write at the next index, and the store it leaves. -/
def Store.write (st : Store) (session : SessionKey) (op : Write) : Applied × Store :=
  let index := st.applied + 1
  match st.sessions[session]? with
  | some record => (⟨op.replayed record.outcome, record.index, []⟩, { st with applied := index })
  | none =>
    let (kv, outcome, events) := op.exec index st.kv
    (⟨outcome, index, events⟩, ⟨index, kv, st.sessions.insert session ⟨outcome, index⟩⟩)

theorem Store.write_of_recorded {st : Store} {session : SessionKey} {record : SessionRecord}
    (h : st.sessions[session]? = some record) (op : Write) :
    st.write session op =
      (⟨op.replayed record.outcome, record.index, []⟩, { st with applied := st.applied + 1 }) := by
  rw [Store.write, h]

theorem Store.write_of_fresh {st : Store} {session : SessionKey} (h : st.sessions[session]? = none) (op : Write) :
    st.write session op =
      let (kv, outcome, events) := op.exec (st.applied + 1) st.kv
      (⟨outcome, st.applied + 1, events⟩,
        ⟨st.applied + 1, kv, st.sessions.insert session ⟨outcome, st.applied + 1⟩⟩) := by
  rw [Store.write, h]

/-- A `multi_put` is always answered `None`. -/
theorem Store.outcome_write_multiPut (st : Store) (session : SessionKey) (entries : List (Bytes × Bytes)) :
    (st.write session (.multiPut entries)).1.outcome = .none := by
  cases h : st.sessions[session]? with
  | some record => rw [st.write_of_recorded h]; rfl
  | none => rw [st.write_of_fresh h]; rfl

/-- What a store answers to a command at the next index, and the store it leaves. -/
def Store.perform (st : Store) : Command → Applied × Store
  | .noop => (⟨.none, st.applied + 1, []⟩, { st with applied := st.applied + 1 })
  | .sessionGc sessions =>
    (⟨.none, st.applied + 1, []⟩,
      { st with applied := st.applied + 1, sessions := sessions.foldl (·.erase ·) st.sessions })
  | .write session op => st.write session op

namespace Locked

variable {α β : Type}

/-- A call that succeeds hands its store on to the next one. -/
theorem run_bind_ok {m : Locked α} {st st' : Store} {x : α} (h : m.run st = (.ok x, st'))
    (f : α → Locked β) : Locked.run (m >>= f) st = (f x).run st' := by
  show (ExceptT.bindCont f (m.run st).1) (m.run st).2 = _
  rw [h]
  rfl

theorem run_get_bind (f : Store → Locked β) (st : Store) : Locked.run (get >>= f) st = (f st).run st := rfl

theorem run_lift_bind (x : α) (f : α → Locked β) (st : Store) :
    Locked.run (liftM (.ok x : Except KvError α) >>= f) st = (f x).run st := rfl

end Locked

theorem run_forM_removeSession (sessions : List SessionKey) (st : Store) :
    Locked.run (sessions.forM removeSession) st =
      (.ok (), { st with sessions := sessions.foldl (·.erase ·) st.sessions }) := by
  induction sessions generalizing st with
  | nil => rfl
  | cons session sessions ih => exact ih { st with sessions := st.sessions.erase session }

theorem run_forM_insertKv (index : UInt64) (entries : List (Bytes × Bytes)) (st : Store) :
    Locked.run (entries.forM fun (key, val) => insertKv key { val, index }) st =
      (.ok (), { st with kv := entries.foldl (fun kv (key, val) => kv.insert key { val, index }) st.kv }) := by
  induction entries generalizing st with
  | nil => rfl
  | cons entry entries ih => exact ih { st with kv := st.kv.insert entry.1 { val := entry.2, index } }

theorem run_applySessionGc (st : Store) (command : Bytes) :
    (applySessionGc (st.applied + 1) command).run st =
      match parseSessionGc command with
      | .error e => (.error e, st)
      | .ok sessions => (.ok (st.perform (.sessionGc sessions)).1, (st.perform (.sessionGc sessions)).2) := by
  rw [applySessionGc]
  cases parseSessionGc command with
  | error e => rfl
  | ok sessions => exact Locked.run_bind_ok (run_forM_removeSession sessions st) _

theorem run_applyMultiPut (st : Store) (command : Bytes) :
    (applyMultiPut (st.applied + 1) command).run st =
      match parseMultiPut command with
      | .error e => (.error e, st)
      | .ok (session, entries) =>
        (.ok (st.write session (.multiPut entries)).1, (st.write session (.multiPut entries)).2) := by
  rw [applyMultiPut]
  cases parseMultiPut command with
  | error e => rfl
  | ok x =>
      obtain ⟨session, entries⟩ := x
      refine (Locked.run_lift_bind _ _ st).trans ((Locked.run_get_bind _ st).trans ?_)
      dsimp only [Store.write]
      cases st.sessions[session]? with
      | some record => rfl
      | none => exact Locked.run_bind_ok (run_forM_insertKv (st.applied + 1) entries st) _

/-- The shell of a single-key command, given what the command does to the map. -/
theorem run_applyOnce {st : Store} {session : SessionKey} {op : Write}
    {first : Locked (ApplyOutcome × List WatchEvent)}
    (hfirst : first.run st =
      (.ok (op.exec (st.applied + 1) st.kv).2, { st with kv := (op.exec (st.applied + 1) st.kv).1 }))
    (hreplayed : ∀ recorded, op.replayed recorded = recorded) :
    (applyOnce (st.applied + 1) session first).run st = (.ok (st.write session op).1, (st.write session op).2) := by
  refine (Locked.run_get_bind _ st).trans ?_
  dsimp only [Store.write]
  cases st.sessions[session]? with
  | some record =>
      dsimp only
      rw [hreplayed]
      rfl
  | none => exact Locked.run_bind_ok hfirst _

theorem run_applyCas (st : Store) (command : Bytes) :
    (applyCas (st.applied + 1) command).run st =
      match parseCas command with
      | .error e => (.error e, st)
      | .ok (session, key, pred, success) =>
        (.ok (st.write session (.cas key pred success)).1, (st.write session (.cas key pred success)).2) := by
  rw [applyCas]
  cases parseCas command with
  | error e => rfl
  | ok x =>
      obtain ⟨session, key, pred, success⟩ := x
      refine run_applyOnce ?_ fun _ => rfl
      refine (Locked.run_get_bind _ st).trans ?_
      dsimp only [Write.exec]
      split
      · cases success with
        | put value => rfl
        | delete => rfl
      · rfl

theorem run_applyPutDelete (st : Store) (command : Bytes) :
    (applyPutDelete (st.applied + 1) command).run st =
      match parseCommand command with
      | .error e => (.error e, st)
      | .ok (session, op, key, val) =>
        (.ok (st.write session (.ofOp key val op)).1, (st.write session (.ofOp key val op)).2) := by
  rw [applyPutDelete]
  cases parseCommand command with
  | error e => rfl
  | ok x =>
      obtain ⟨session, op, key, val⟩ := x
      cases op with
      | put => exact run_applyOnce rfl fun _ => rfl
      | delete => exact run_applyOnce rfl fun _ => rfl

/-- An entry out of order is refused, and changes nothing. -/
theorem Store.apply_of_index_ne {st : Store} {index : UInt64} (h : index ≠ st.applied + 1) (command : Bytes) :
    st.apply index command = (.error (.indexViolation index), st) := by
  refine (Locked.run_get_bind _ st).trans ?_
  rw [if_pos h]
  rfl

/-- **What applying the next entry does**: a malformed one is refused and changes nothing, and any other
is performed. -/
theorem Store.apply_next (st : Store) (command : Bytes) :
    st.apply (st.applied + 1) command =
      match Command.decode command with
      | .error e => (.error e, st)
      | .ok c => (.ok (st.perform c).1, (st.perform c).2) := by
  refine (Locked.run_get_bind _ st).trans ?_
  rw [if_neg (not_not_intro rfl)]
  cases command with
  | nil => rfl
  | cons op rest =>
      simp only [List.isEmpty_cons, Bool.false_eq_true, if_false, List.head?_cons, Option.some.injEq, Command.decode]
      split_ifs
      · rw [run_applySessionGc]
        cases parseSessionGc (op :: rest) with
        | error e => rfl
        | ok sessions => rfl
      · rw [run_applyMultiPut]
        cases parseMultiPut (op :: rest) with
        | error e => rfl
        | ok x => rfl
      · rw [run_applyCas]
        cases parseCas (op :: rest) with
        | error e => rfl
        | ok x => rfl
      · rw [run_applyPutDelete]
        cases parseCommand (op :: rest) with
        | error e => rfl
        | ok x => rfl

/-- A command that is performed takes the store to the next index. -/
theorem Store.applied_perform (st : Store) (c : Command) : (st.perform c).2.applied = st.applied + 1 := by
  cases c with
  | noop => rfl
  | sessionGc sessions => rfl
  | write session op =>
      rw [Store.perform]
      cases h : st.sessions[session]? with
      | some record => rw [st.write_of_recorded h]
      | none => rw [st.write_of_fresh h]

/-- An entry that is applied was the next one, and its command was performed. -/
theorem Store.of_apply_ok {st st' : Store} {index : UInt64} {command : Bytes} {applied : Applied}
    (h : st.apply index command = (.ok applied, st')) :
    index = st.applied + 1 ∧ ∃ c, Command.decode command = .ok c ∧ st.perform c = (applied, st') := by
  by_cases hindex : index = st.applied + 1
  · subst hindex
    rw [Store.apply_next] at h
    cases hdecode : Command.decode command with
    | error e => rw [hdecode] at h; cases h
    | ok c =>
        rw [hdecode] at h
        cases h
        exact ⟨rfl, c, rfl, rfl⟩
  · rw [Store.apply_of_index_ne hindex] at h
    cases h

theorem Store.applied_of_apply {st st' : Store} {index : UInt64} {command : Bytes} {applied : Applied}
    (h : st.apply index command = (.ok applied, st')) : st'.applied = index := by
  obtain ⟨rfl, c, -, hperform⟩ := Store.of_apply_ok h
  rw [← st.applied_perform c, hperform]

/-- The next entry is refused only if it is malformed. A refused entry changes nothing. -/
theorem Store.of_apply_next_error {st st' : Store} {command : Bytes} {e : KvError}
    (h : st.apply (st.applied + 1) command = (.error e, st')) : e = .malformedCommand ∧ st' = st := by
  rw [Store.apply_next] at h
  cases hdecode : Command.decode command with
  | error e' =>
      rw [hdecode] at h
      cases h
      exact ⟨Command.eq_malformed_of_decode hdecode, rfl⟩
  | ok c => rw [hdecode] at h; cases h

end Arachne.StateMachine
