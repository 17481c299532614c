import Arachne.Runtime.ReadVersion
import Arachne.Runtime.Replicas
import Arachne.StateMachine.Origin
import Arachne.StateMachine.Range

/-! # Waiting for an index, and reads that do not ask the leader

A stale read takes the state machine of one replica as it is. A client that has the index of a write can wait until a
replica has applied it (`wait_applied`) and then read there. The apply task moves the index at any time, also between the
answer and the read. One node of a cluster is watched here, from one of its starts on. -/

namespace Arachne.Runtime.Pipeline

open Codec (Bytes)
open Forward (ArachneError)
open StateMachine (Store)
open Storage (EntryType)

/-! ## Reads -/

inductive StaleRead where
  | get (key : Bytes)
  | getWithIndex (key : Bytes)
  | range (start upper : Bytes) (limit : Nat)
  | multiGet (keys : List Bytes)

inductive StaleReply (Addr : Type) where
  | value (value : Option Bytes)
  | valueWithIndex (value : Option (Bytes × UInt64))
  | entries (entries : List (Bytes × Bytes)) (applied : UInt64) (truncated : Bool)
  | values (values : List (Option Bytes)) (applied : UInt64)
  | error (e : ArachneError Addr)
  deriving DecidableEq

/-- The replies of `spawn_read_reply` and its siblings. -/
def StaleRead.reply {Addr : Type} (st : Store) : StaleRead → StaleReply Addr
  | .get key => .value (st.kv[key]?.map (·.val))
  | .getWithIndex key =>
    match st.getWithIndex key with
    | (none, _) => .valueWithIndex none
    | (some val, some index) => .valueWithIndex (some (val, index))
    | (some _, none) => .error (.unrecoverable "state machine returned a value without an origin index")
  | .range start upper limit =>
    let (entries, applied, truncated) := st.getRangeWithIndex start upper limit
    .entries entries applied truncated
  | .multiGet keys =>
    match st.multiGet keys with
    | some (values, applied) => .values values applied
    | none => .error (.invalidArgument "multi_get result exceeds MAX_MULTI_GET_RESULT_BYTES (4 MiB); split the batch")

/-! ## Waiters -/

def maxPendingAppliedWaits : Nat := 4096

/-- A waiter, under the number it came with. -/
structure PendingApplied where
  id : Nat
  index : UInt64
  deadline : Nat

/-- What a waiter is told; `none` is a caller who has given up. -/
abbrev WaitReply (Addr : Type) := Option (Except (ArachneError Addr) UInt64)

abbrev Answers (Addr : Type) := List (PendingApplied × WaitReply Addr)

/-- The verdict of `resolve_applied_waits`, when the callers of `closed` have given up. -/
def PendingApplied.resolve {Addr : Type} (applied : UInt64) (now : Nat) (closed : List Nat) (w : PendingApplied) :
    Option (WaitReply Addr) :=
  if applied ≥ w.index then some (some (.ok applied))
  else if w.id ∈ closed then some none
  else if now ≥ w.deadline then some (some (.error .timeout))
  else none

/-- A read as it was answered: the version of the state machine it saw, and how many waiters had been answered. -/
structure ReadRecord (Addr : Type) where
  read : StaleRead
  reply : StaleReply Addr
  version : UInt64
  answered : Nat

structure Watched (N Addr : Type) where
  fleet : Fleet N
  pendingApplied : List PendingApplied := []
  asked : Nat := 0
  answered : Answers Addr := []
  reads : List (ReadRecord Addr) := []

inductive WatchedAction (N : Type) where
  | fleet (op : FleetAction N)
  | wait (index : UInt64) (deadline : Nat)
  /-- A worker reads, at any time. -/
  | read (read : StaleRead)
  /-- The end of a cycle. -/
  | finish (now : Nat) (closed : List Nat)
  /-- The actor has stopped, or cannot go on with what it has. -/
  | fail (message : String)

variable {N Addr : Type} {env : N → Env} {log : Nat → EntryType × Bytes} {n : N}

/-- The read saw the log up to its version, which is no older than any index a waiter had been told before. -/
def ReadRecord.Fits (log : Nat → EntryType × Bytes) (answered : Answers Addr)
    (r : ReadRecord Addr) : Prop :=
  r.reply = r.read.reply (logStore log r.version.toNat) ∧ r.answered ≤ answered.length ∧
    ∀ c ∈ answered.take r.answered, ∀ index, c.2 = some (.ok index) → c.1.index ≤ index ∧ index ≤ r.version

theorem ReadRecord.Fits.append {answered : Answers Addr} {r : ReadRecord Addr}
    (h : r.Fits log answered) (more : Answers Addr) : r.Fits log (answered ++ more) := by
  refine ⟨h.1, h.2.1.trans (by rw [List.length_append]; exact Nat.le_add_right _ _), ?_⟩
  rw [List.take_append_of_le_length h.2.1]
  exact h.2.2

/-- Neither the end of the node's cycle nor its end. -/
def FleetAction.spares [DecidableEq N] (n : N) : FleetAction N → Bool
  | .act m a => m ≠ n || a ≠ .finish
  | .restart m _ _ _ => m ≠ n

namespace Watched

variable {s s' : Watched N Addr}

def applied (s : Watched N Addr) (n : N) : UInt64 := (s.fleet.node n).task.sm.applied

/-- A pass over the waiters. -/
def settle (s : Watched N Addr) (verdict : PendingApplied → Option (WaitReply Addr)) : Watched N Addr :=
  { s with
    pendingApplied := s.pendingApplied.filter fun w => (verdict w).isNone
    answered := s.answered ++ s.pendingApplied.filterMap fun w => (verdict w).map (w, ·) }

/-- `Command::WaitApplied`. -/
def wait (n : N) (s : Watched N Addr) (index : UInt64) (deadline : Nat) : Watched N Addr :=
  let w : PendingApplied := ⟨s.asked, index, deadline⟩
  let s := { s with asked := s.asked + 1 }
  if index = 0 ∨ s.applied n ≥ index then { s with answered := s.answered ++ [(w, some (.ok (s.applied n)))] }
  else if s.pendingApplied.length ≥ maxPendingAppliedWaits then
    { s with answered := s.answered ++ [(w, some (.error .busy))] }
  else { s with pendingApplied := s.pendingApplied ++ [w] }

def exec [DecidableEq N] (env : N → Env) (log : Nat → EntryType × Bytes) (n : N) (s : Watched N Addr) :
    WatchedAction N → Option (Watched N Addr)
  | .fleet op => if op.spares n then (s.fleet.exec env log op).map fun fleet => { s with fleet } else none
  | .wait index deadline =>
    let actor := (s.fleet.node n).actor
    if actor.stopped = false ∧ actor.phase = .idle then some (s.wait n index deadline) else none
  | .read read =>
    some { s with reads := s.reads ++
      [⟨read, read.reply (s.fleet.node n).task.sm, s.applied n, s.answered.length⟩] }
  | .finish now closed =>
    (s.fleet.exec env log (.act n .finish)).map fun fleet =>
      { s.settle (PendingApplied.resolve (s.applied n) now closed) with fleet }
  | .fail message =>
    let actor := (s.fleet.node n).actor
    if actor.stopped ∨ actor.phase = .idle then
      some (s.settle fun _ => some (some (.error (.unrecoverable message))))
    else none

/-! ## What is kept -/

structure Coherent (log : Nat → EntryType × Bytes) (n : N) (s : Watched N Addr) : Prop where
  agrees : s.fleet.Agrees log
  /-- Every waiter waits or was answered, and not twice. -/
  once : (s.pendingApplied.map (·.id) ++ s.answered.map (·.1.id)).Perm (List.range s.asked)
  bounded : s.pendingApplied.length ≤ maxPendingAppliedWaits
  /-- A waiter is told what is true, and enough. -/
  told : ∀ c ∈ s.answered, ∀ index, c.2 = some (.ok index) → c.1.index ≤ index ∧ index ≤ s.applied n
  fits : ∀ r ∈ s.reads, r.Fits log s.answered
  /-- Later reads see no less. -/
  versions : (s.reads.map (·.version)).Pairwise (· ≤ ·)
  seen : ∀ r ∈ s.reads, r.version ≤ s.applied n

/-- A step of the cluster: the state machine may have moved on. -/
theorem Coherent.fleet [DecidableEq N] (h : s.Coherent log n) (hlog : Fleet.Countable log) {op : FleetAction N} {fleet : Fleet N}
    (hop : ∀ snapshot membership clock, op ≠ .restart n snapshot membership clock)
    (hexec : s.fleet.exec env log op = some fleet) : Coherent log n { s with fleet } := by
  have hle : s.applied n ≤ (fleet.node n).task.sm.applied := by
    cases op with
    | act m a =>
        obtain ⟨hdelivers, hmap⟩ := Option.ite_none_right_eq_some.mp hexec
        obtain ⟨t, ht, rfl⟩ := Option.map_eq_some_iff.mp hmap
        rcases eq_or_ne n m with rfl | hm
        · obtain ⟨start, hordered⟩ := (h.agrees.node n).ordered
          simpa [Fleet.put, applied, UInt64.le_iff_toNat_le] using hordered.applied_le (h.agrees.step_of_act hdelivers ht)
        · simp [Fleet.put, applied, hm]
    | restart m snapshot membership clock =>
        obtain ⟨-, hmap⟩ := Option.ite_none_right_eq_some.mp hexec
        obtain ⟨t, ht, rfl⟩ := Option.map_eq_some_iff.mp hmap
        have hm : n ≠ m := fun heq => hop snapshot membership clock (by rw [heq])
        simp [Fleet.put, applied, hm]
  refine ⟨h.agrees.step hlog hexec, h.once, h.bounded, ?_, h.fits, h.versions, ?_⟩
  · intro c hc index hindex
    obtain ⟨hasked, htold⟩ := h.told c hc index hindex
    exact ⟨hasked, UInt64.le_trans htold hle⟩
  · exact fun r hr => UInt64.le_trans (h.seen r hr) hle

/-- New answers, each of them true now. -/
theorem Coherent.answer (h : s.Coherent log n) {waiting : List PendingApplied} {asked : Nat}
    {answered more : Answers Addr} (hanswered : answered = s.answered ++ more)
    (honce : (waiting.map (·.id) ++ answered.map (·.1.id)).Perm (List.range asked))
    (hbounded : waiting.length ≤ maxPendingAppliedWaits)
    (htold : ∀ c ∈ more, ∀ index, c.2 = some (.ok index) → c.1.index ≤ index ∧ index = s.applied n) :
    Coherent log n { s with pendingApplied := waiting, asked, answered } := by
  subst hanswered
  refine ⟨h.agrees, honce, hbounded, ?_, fun r hr => (h.fits r hr).append more, h.versions, h.seen⟩
  intro c hc index hindex
  rcases List.mem_append.mp hc with hc | hc
  · exact h.told c hc index hindex
  · obtain ⟨hle, rfl⟩ := htold c hc index hindex
    exact ⟨hle, UInt64.le_refl _⟩

theorem Coherent.wait (h : s.Coherent log n) (index : UInt64) (deadline : Nat) : (s.wait n index deadline).Coherent log n := by
  have honce := h.once.append_right [s.asked]
  rw [← List.range_succ] at honce
  simp only [Watched.wait]
  split_ifs with hreached hfull
  · refine h.answer rfl (by simpa using honce) h.bounded fun c hc index' hindex => ?_
    obtain rfl := List.mem_singleton.mp hc
    cases hindex
    exact ⟨hreached.elim (fun hzero => hzero ▸ UInt64.zero_le) id, rfl⟩
  · refine h.answer rfl (by simpa using honce) h.bounded fun c hc index' hindex => ?_
    obtain rfl := List.mem_singleton.mp hc
    cases hindex
  · refine h.answer (List.append_nil _).symm ?_ ?_ nofun
    · rw [List.append_assoc] at honce
      rw [List.map_append, List.append_assoc]
      exact (List.perm_append_comm.append_left _).trans honce
    · rw [List.length_append]
      exact Nat.lt_of_not_le hfull

theorem perm_settle (verdict : PendingApplied → Option (WaitReply Addr)) (ws : List PendingApplied) :
    ((ws.filter fun w => (verdict w).isNone).map (·.id) ++
      (ws.filterMap fun w => (verdict w).map (w, ·)).map (·.1.id)).Perm (ws.map (·.id)) := by
  induction ws with
  | nil => rfl
  | cons w ws ih =>
      cases hw : verdict w with
      | none => simpa [hw] using ih
      | some reply => simpa [hw] using List.perm_middle.trans (ih.cons w.id)

/-- A pass over the waiters, by any verdict that tells only what is true. -/
theorem Coherent.settle (h : s.Coherent log n) {verdict : PendingApplied → Option (WaitReply Addr)}
    (hverdict : ∀ w index, verdict w = some (some (.ok index)) → w.index ≤ index ∧ index = s.applied n) :
    (s.settle verdict).Coherent log n := by
  refine h.answer rfl ?_ ((List.length_filter_le _ _).trans h.bounded) fun c hc index hindex => ?_
  · rw [List.map_append]
    refine (List.perm_append_comm.append_left _).trans ?_
    rw [← List.append_assoc]
    exact ((perm_settle verdict _).append_right _).trans h.once
  · obtain ⟨w, -, hsome⟩ := List.mem_filterMap.mp hc
    obtain ⟨r, hr, rfl⟩ := Option.map_eq_some_iff.mp hsome
    exact hverdict w index (hr.trans (congrArg some hindex))

theorem Coherent.read (h : s.Coherent log n) (read : StaleRead) :
    Coherent log n { s with reads := s.reads ++
      [⟨read, read.reply (s.fleet.node n).task.sm, s.applied n, s.answered.length⟩] } := by
  refine ⟨h.agrees, h.once, h.bounded, h.told, ?_, ?_, ?_⟩
  · rw [List.forall_mem_append, List.forall_mem_singleton]
    refine ⟨h.fits, congrArg read.reply (h.agrees.node n).reflects.sm, Nat.le_refl _, ?_⟩
    rw [List.take_length]
    exact h.told
  · rw [List.map_append, List.pairwise_append]
    refine ⟨h.versions, List.pairwise_singleton _ _, ?_⟩
    rw [List.forall_mem_map]
    intro r hr v hv
    exact List.mem_singleton.mp hv ▸ h.seen r hr
  · rw [List.forall_mem_append, List.forall_mem_singleton]
    exact ⟨h.seen, UInt64.le_refl _⟩

variable [DecidableEq N] {a : WatchedAction N}

theorem Coherent.step (h : s.Coherent log n) (hlog : Fleet.Countable log) (hexec : s.exec env log n a = some s') :
    s'.Coherent log n := by
  cases a with
  | fleet op =>
      obtain ⟨hspares, hmap⟩ := Option.ite_none_right_eq_some.mp hexec
      obtain ⟨fleet, hfleet, rfl⟩ := Option.map_eq_some_iff.mp hmap
      refine h.fleet hlog ?_ hfleet
      rintro snapshot membership clock rfl
      simp [FleetAction.spares] at hspares
  | wait index deadline =>
      obtain ⟨-, hexec⟩ := Option.ite_none_right_eq_some.mp hexec
      exact Option.some.inj hexec ▸ h.wait index deadline
  | read read => exact Option.some.inj hexec ▸ h.read read
  | finish now closed =>
      obtain ⟨fleet, hfleet, rfl⟩ := Option.map_eq_some_iff.mp hexec
      have hsettled : (s.settle (PendingApplied.resolve (s.applied n) now closed)).Coherent log n := by
        refine h.settle fun w index hverdict => ?_
        unfold PendingApplied.resolve at hverdict
        split_ifs at hverdict with hreached
        · cases hverdict
          exact ⟨hreached, rfl⟩
        · cases hverdict
        · cases hverdict
      exact hsettled.fleet hlog (fun _ _ _ => by simp) hfleet
  | fail message =>
      obtain ⟨-, hexec⟩ := Option.ite_none_right_eq_some.mp hexec
      exact Option.some.inj hexec ▸ h.settle fun w index hverdict => by cases hverdict

/-- **Reads follow waits.** Watch a node of a cluster, from any state the cluster can be in. Whatever happens and whenever
the workers get to their reads: every waiter waits or was answered, once, and told an index only when the state machine had
it; and a stale read is answered from the log as it is at one index, at or above everything that waiters had been told to
have reached before, and at or above what earlier reads saw. -/
theorem reads_follow_waits {membership : N → Membership} {clock : N → Option Nat} {ops : List (FleetAction N)}
    {F : Fleet N} {actions : List (WatchedAction N)} (hlog : Fleet.Countable log)
    (hfleet : ops.foldlM (Fleet.exec env log) (Fleet.start membership clock) = some F)
    (hrun : actions.foldlM (exec env log n) { fleet := F } = some s) : s.Coherent log n := by
  have hrun' : Transition.Run (· = { fleet := F }) (fun s a s' => s.exec env log n a = some s') actions s :=
    .of_foldlM (fun _ _ _ => id) rfl hrun
  refine hrun'.invariant (P := fun _ s => s.Coherent log n) ?_ fun _ _ _ _ _ h hexec => h.step hlog hexec
  rintro _ rfl
  exact ⟨Fleet.agrees_of_run hlog hfleet, .refl _, Nat.zero_le _, nofun, nofun, .nil, nofun⟩

/-- Three wait, one of them in vain and one who gives up. A worker reads before anything is applied, another one after. -/
def waitingActions : List (WatchedAction Unit) :=
  let act (a : Action) : WatchedAction Unit := .fleet (.act () a)
  [ .wait 1 9, .wait 2 9, .wait 2 1, .read (.get [7]), act .absorb, act (.poll none),
    act (.deliver none [⟨1, .entry, StateMachine.encodePut ⟨1, 1⟩ [7] [1]⟩]), act .pump, act .pump, .finish 0 [],
    act .take, act .work, act .absorb, act (.poll none), act (.deliver none []), act .pump, .finish 1 [1],
    .read (.getWithIndex [7]) ]

theorem reads_follow_waits_waiting :
    ∃ s : Watched Unit Unit, waitingActions.foldlM (exec (fun _ => narrow) Fleet.onePut ())
        { fleet := Fleet.start (fun _ => noMembers) fun _ => none } = some s ∧
      s.answered.map (·.2) = [some (.ok 1), none, some (.error .timeout)] ∧
      s.reads.map (·.reply) = [.value none, .valueWithIndex (some ([1], 1))] ∧
      ∀ r ∈ s.reads, r.Fits Fleet.onePut s.answered := by
  have heval : (waitingActions.foldlM (exec (fun _ => narrow) Fleet.onePut ())
      ({ fleet := Fleet.start (fun _ => noMembers) fun _ => none } : Watched Unit Unit)).any (fun s =>
        s.answered.map (·.2) = [some (.ok 1), none, some (.error .timeout)] ∧
        s.reads.map (·.reply) = [.value none, .valueWithIndex (some ([1], 1))]) := by
    decide +kernel
  obtain ⟨s, hrun, hfacts⟩ := (Option.any_eq_true _ _).mp heval
  obtain ⟨hanswered, hreads⟩ := of_decide_eq_true hfacts
  exact ⟨s, hrun, hanswered, hreads,
    (reads_follow_waits Fleet.countable_onePut (show [].foldlM _ _ = some _ from rfl) hrun).fits⟩

end Watched

end Arachne.Runtime.Pipeline
