import Mathlib.Data.List.Sort
import Arachne.Data.OrdMap
import Arachne.StateMachine.Command

/-! # Client histories

The test support records what clients invoke and what they are answered, and judges a cluster by it. A logical operation
is named by client and sequence number; a client may try it several times. `merge_retries` makes one `LogOp` of all
attempts: it begins with the first invocation, and ends with the first success, or else with the last completion. -/

namespace Arachne.Oracle

open Codec (Bytes)
open StateMachine (SessionKey)
open Std (ExtTreeMap)

/-! ## Operations and results -/

inductive Op where
  | put (key : Bytes) (value : UInt64)
  | delete (key : Bytes)
  | get (key : Bytes)
  deriving DecidableEq, Repr

def Op.isLoggedOp : Op → Bool
  | .put .. | .delete _ => true
  | .get _ => false

inductive OracleErrorKind where
  | notLeader
  | quorumUnavailable
  | timeout
  | busy
  | sessionExpired
  deriving DecidableEq, Repr

/-- The failed operation may have taken effect. -/
def OracleErrorKind.isUnknownOutcome : OracleErrorKind → Bool
  | .timeout | .sessionExpired => true
  | .notLeader | .quorumUnavailable | .busy => false

def OracleErrorKind.isKnownNotApplied (kind : OracleErrorKind) : Bool := !kind.isUnknownOutcome

inductive OpResult where
  | ok (value : Option UInt64)
  | err (kind : OracleErrorKind)
  deriving DecidableEq, Repr

def OpResult.isOk : OpResult → Bool
  | .ok _ => true
  | .err _ => false

/-- A recorded event of one physical call. -/
inductive Event where
  | invoke (call client seq : UInt64) (op : Op) (ts : UInt64)
  | complete (call ts : UInt64) (result : OpResult) (logId : Option UInt64)
  deriving DecidableEq, Repr

/-! ## Merging retries -/

/-- One logical operation. -/
structure LogOp where
  client : UInt64
  seq : UInt64
  op : Op
  invokeTs : UInt64
  completeTs : Option UInt64
  result : Option OpResult
  logIds : List UInt64
  calls : List UInt64
  deriving DecidableEq, Repr

/-- The operation completed with success. -/
def LogOp.isLinearizationPoint (o : LogOp) : Bool := o.completeTs.isSome && o.result.any OpResult.isOk

def LogOp.isWriteOp (o : LogOp) : Bool := o.op.isLoggedOp

/-- The operation failed in a way that it definitely did not take effect. -/
def LogOp.isKnownNotApplied (o : LogOp) : Bool :=
  match o.result with
  | some (.err kind) => kind.isKnownNotApplied
  | _ => false

/-- A write whose outcome is unknown, or that is still in flight. -/
def LogOp.isOptionalWritePoint (o : LogOp) : Bool :=
  o.isWriteOp && !o.isKnownNotApplied && !o.isLinearizationPoint

def LogOp.key (o : LogOp) : SessionKey := { clientId := o.client, seqNo := o.seq }

/-- The events of one logical operation. -/
structure Group where
  op : Option Op
  invokeTs : Option UInt64
  calls : List UInt64
  completes : List (UInt64 × OpResult)
  logIds : List UInt64
  deriving DecidableEq, Repr

def Group.default : Group := { op := none, invokeTs := none, calls := [], completes := [], logIds := [] }

/-- `u64::MAX`. -/
def maxTs : UInt64 := 0xFFFFFFFFFFFFFFFF

def Group.addInvoke (g : Group) (call : UInt64) (op : Op) (ts : UInt64) : Group :=
  { g with
    op := g.op.or (some op)
    invokeTs := some (min (g.invokeTs.getD maxTs) ts)
    calls := g.calls ++ [call] }

def Group.addComplete (g : Group) (ts : UInt64) (result : OpResult) (logId : Option UInt64) : Group :=
  { g with completes := g.completes ++ [(ts, result)], logIds := g.logIds ++ logId.toList }

/-- The completion the client observed: the first success, or else the last one. -/
def Group.observed (g : Group) : Option (UInt64 × OpResult) :=
  (g.completes.find? fun c => c.2.isOk).or g.completes.getLast?

def Group.intoLogOp (g : Group) (key : SessionKey) : Option LogOp :=
  g.op.map fun op =>
    { client := key.clientId
      seq := key.seqNo
      op
      invokeTs := g.invokeTs.getD 0
      completeTs := g.observed.map Prod.fst
      result := g.observed.map Prod.snd
      logIds := g.logIds
      calls := g.calls }

/-- Which operation each call belongs to. -/
def callKeys (events : List Event) : ExtTreeMap UInt64 SessionKey :=
  events.foldl (fun keys e =>
    match e with
    | .invoke call client seq _ _ => keys.insert call { clientId := client, seqNo := seq }
    | .complete .. => keys) ∅

abbrev Groups := ExtTreeMap SessionKey Group

/-- `groups.entry(key).or_default()`, changed by `f`. -/
def Groups.update (groups : Groups) (key : SessionKey) (f : Group → Group) : Groups :=
  groups.insert key (f (groups[key]?.getD .default))

def Groups.add (keys : ExtTreeMap UInt64 SessionKey) (groups : Groups) : Event → Groups
  | .invoke call client seq op ts => groups.update { clientId := client, seqNo := seq } fun g => g.addInvoke call op ts
  | .complete call ts result logId =>
    match keys[call]? with
    | none => groups
    | some key => groups.update key fun g => g.addComplete ts result logId

def groupEvents (events : List Event) : Groups := events.foldl (Groups.add (callKeys events)) ∅

/-- The order of the logical operations: by first invocation, then by client and sequence number. -/
def LogOp.le (a b : LogOp) : Bool :=
  (((compare a.invokeTs b.invokeTs).then (compare a.client b.client)).then (compare a.seq b.seq)).isLE

/-- `merge_retries`. -/
def mergeRetries (events : List Event) : List LogOp :=
  ((groupEvents events).toList.filterMap fun binding => binding.2.intoLogOp binding.1).insertionSort fun a b => a.le b

/-! ## What the merged operations are -/

theorem Group.key_of_intoLogOp {g : Group} {key : SessionKey} {o : LogOp} (h : g.intoLogOp key = some o) : o.key = key := by
  obtain ⟨op, -, rfl⟩ := Option.map_eq_some_iff.mp h
  rfl

theorem mem_mergeRetries {events : List Event} {o : LogOp} :
    o ∈ mergeRetries events ↔ ∃ (key : SessionKey) (g : Group), (groupEvents events)[key]? = some g ∧ g.intoLogOp key = some o := by
  rw [mergeRetries, List.mem_insertionSort, List.mem_filterMap]
  constructor
  · rintro ⟨⟨key, g⟩, hmem, ho⟩
    exact ⟨key, g, ExtTreeMap.mem_toList_iff_getElem?_eq_some.mp hmem, ho⟩
  · rintro ⟨key, g, hg, ho⟩
    exact ⟨(key, g), ExtTreeMap.mem_toList_iff_getElem?_eq_some.mpr hg, ho⟩

/-- There is one operation for each client and sequence number. -/
theorem pairwise_mergeRetries (events : List Event) : (mergeRetries events).Pairwise fun a b => a.key ≠ b.key := by
  refine (List.perm_insertionSort _ _).symm.pairwise ?_ fun h => h.symm
  have hkeys := List.pairwise_map.mp (OrdMap.nodup_fst_toList (groupEvents events))
  rw [List.pairwise_filterMap]
  refine hkeys.imp fun hne a ha b hb => ?_
  rw [Group.key_of_intoLogOp ha, Group.key_of_intoLogOp hb]
  exact hne

/-! ## One event more -/

section

variable {events : List Event} {call client seq ts : UInt64} {op : Op} {result : OpResult} {logId : Option UInt64}

theorem getElem?_update (groups : Groups) (key a : SessionKey) (f : Group → Group) :
    (groups.update key f)[a]? = if a = key then some (f (groups[key]?.getD .default)) else groups[a]? :=
  OrdMap.getElem?_insert _ _ _ _

theorem callKeys_invoke : callKeys (events ++ [.invoke call client seq op ts]) =
    (callKeys events).insert call { clientId := client, seqNo := seq } := by
  rw [callKeys, List.foldl_append]
  rfl

theorem callKeys_complete : callKeys (events ++ [.complete call ts result logId]) = callKeys events := by
  rw [callKeys, List.foldl_append]
  rfl

/-- The calls matter only where they are completed. -/
theorem foldl_add_congr {keys keys' : ExtTreeMap UInt64 SessionKey}
    (h : ∀ call ts result logId, .complete call ts result logId ∈ events → keys[call]? = keys'[call]?) (groups : Groups) :
    events.foldl (Groups.add keys) groups = events.foldl (Groups.add keys') groups := by
  induction events generalizing groups with
  | nil => rfl
  | cons e events ih =>
      have hadd : groups.add keys e = groups.add keys' e := by
        cases e with
        | invoke call client seq op ts => rfl
        | complete call ts result logId => rw [Groups.add, Groups.add, h call ts result logId List.mem_cons_self]
      rw [List.foldl_cons, List.foldl_cons, hadd]
      exact ih (fun call ts result logId hmem => h call ts result logId (List.mem_cons_of_mem _ hmem)) _

/-- An invocation of a call that was not completed before. -/
theorem groupEvents_invoke (hfresh : ∀ ts result logId, .complete call ts result logId ∉ events) :
    groupEvents (events ++ [.invoke call client seq op ts]) =
      (groupEvents events).update { clientId := client, seqNo := seq } fun g => g.addInvoke call op ts := by
  rw [groupEvents, List.foldl_append, callKeys_invoke]
  have hsame (call' ts' : UInt64) (result' : OpResult) (logId' : Option UInt64)
      (hmem : .complete call' ts' result' logId' ∈ events) :
      ((callKeys events).insert call { clientId := client, seqNo := seq })[call']? = (callKeys events)[call']? := by
    rw [OrdMap.getElem?_insert, if_neg]
    rintro rfl
    exact hfresh ts' result' logId' hmem
  rw [foldl_add_congr hsame]
  rfl

theorem groupEvents_complete {key : SessionKey} (hkey : (callKeys events)[call]? = some key) :
    groupEvents (events ++ [.complete call ts result logId]) =
      (groupEvents events).update key fun g => g.addComplete ts result logId := by
  rw [groupEvents, List.foldl_append, callKeys_complete]
  show Groups.add _ _ (.complete call ts result logId) = _
  rw [Groups.add, hkey]
  rfl

end

end Arachne.Oracle
