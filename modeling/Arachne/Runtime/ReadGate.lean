import Arachne.Runtime.LogStore

/-! # Linearizable reads

A linearizable read waits for two things. Raft must confirm, with a quorum, an index that covers everything committed
when the read arrived, and the actor must have applied that index. Reads that arrive between two cycles share one
round and one token; a read that waited too long is put into a new round, and the answer to the old one may still
come.

`ReadSys` adds the pending reads to the pipeline. An answer of raft is for a round that was requested, by its number,
and the code only sees the token of that round. -/

namespace Arachne.Runtime.Pipeline

open Codec (Bytes)
open StateMachine (Store)
open Storage (EntryType Snapshot)

variable {env : Env} {log : Nat → EntryType × Bytes} {timeout : Nat}

/-! ## Reads and rounds -/

/-- What is read: one key, or many. -/
inductive ReadKind where
  | one (key : Bytes)
  | many (keys : List Bytes)
  deriving DecidableEq, Repr

/-- A read that waits for its index to be confirmed and applied. The last two fields say when it was registered, and
how far the log was committed then. -/
structure PendingRead where
  token : Option UInt64
  kind : ReadKind
  deadline : Nat
  readIndex : Option UInt64
  attempts : Nat
  registered : Nat
  committed : Nat
  deriving DecidableEq, Repr

/-- A `ReadIndex` round: its token, when it was requested, and how far the log was committed then. -/
structure Round where
  token : UInt64
  requested : Nat
  committed : Nat
  deriving DecidableEq, Repr

/-- A read that was let through, and that a worker will answer from the state machine. -/
structure Dispatched where
  kind : ReadKind
  readIndex : UInt64
  registered : Nat
  committed : Nat
  deriving DecidableEq, Repr

structure ReadSys where
  pipe : Sys
  pendingReads : List PendingRead
  nextReadToken : UInt64
  /-- The read states `node.step` returned in this cycle. -/
  readStates : List (Bytes × UInt64)
  dispatched : List Dispatched
  /-- The number of steps so far. -/
  clock : Nat
  /-- How far the log is committed. -/
  committed : Nat
  rounds : List Round
  /-- The answers of raft so far: the number of a round, and an index. -/
  returned : List (Nat × UInt64)

def maxPendingReads : Nat := 4096

/-- `to_be_bytes`. -/
def tokenBytes (token : UInt64) : Bytes := (Codec.u64Bytes token).reverse

/-- The token of a read state, unless its context is not eight bytes long. Zero is no token. -/
def tokenOf (ctx : Bytes) : Option (Option UInt64) :=
  if ctx.length = 8 then
    let token := UInt64.ofNat (Codec.leNat ctx.reverse)
    some (if token = 0 then none else some token)
  else none

/-- `handle_command` for a read. A read that is turned away leaves nothing behind. -/
def ReadSys.read (timeout : Nat) (s : ReadSys) (kind : ReadKind) (leader : Bool) (now : Nat) : ReadSys :=
  if ¬ leader ∨ s.pendingReads.length ≥ maxPendingReads then s
  else
    { s with
      pendingReads := s.pendingReads ++ [{
        token := none, kind, deadline := now + timeout, readIndex := none, attempts := 1,
        registered := s.clock, committed := s.committed }] }

/-- The token of the next round, which is not zero. -/
def ReadSys.newToken (s : ReadSys) : UInt64 := if s.nextReadToken = 0 then 1 else s.nextReadToken

/-- Before `node.step`: one round for all reads that are not in one. -/
def ReadSys.stamp (s : ReadSys) : ReadSys :=
  if s.pendingReads.any (·.token.isNone) then
    { s with
      nextReadToken := s.nextReadToken + 1
      pendingReads := s.pendingReads.map fun r => if r.token.isNone then { r with token := some s.newToken } else r
      rounds := s.rounds ++ [{ token := s.newToken, requested := s.clock, committed := s.committed }] }
  else s

/-- A read state is noted with every read of its round. -/
def recordReadState (deadline : Nat) (reads : List PendingRead) (state : Bytes × UInt64) : List PendingRead :=
  match tokenOf state.1 with
  | none => reads
  | some token =>
    reads.map fun r => if r.token = token then { r with readIndex := some state.2, deadline } else r

/-- What `resolve_reads` does with one read: it is let through, it goes on waiting, or neither. -/
def resolveRead (timeout appliedIndex : Nat) (leader : Bool) (now : Nat) (r : PendingRead) :
    Option (Dispatched ⊕ PendingRead) :=
  if ¬ leader then none
  else
    match r.readIndex.filter fun index => index.toNat ≤ appliedIndex with
    | some readIndex =>
      some (.inl { kind := r.kind, readIndex, registered := r.registered, committed := r.committed })
    | none =>
      if now ≥ r.deadline then
        if r.attempts ≤ 1 then
          some (.inr { r with attempts := r.attempts + 1, readIndex := none, token := none, deadline := now + timeout })
        else none
      else some (.inr r)

/-- The read states and `resolve_reads`. -/
def ReadSys.resolveReads (timeout : Nat) (s : ReadSys) (leader : Bool) (now : Nat) : ReadSys :=
  let reads := s.readStates.foldl (recordReadState (now + timeout)) s.pendingReads
  let resolved := reads.filterMap (resolveRead timeout s.pipe.actor.appliedIndex leader now)
  { s with
    readStates := []
    pendingReads := resolved.filterMap Sum.getRight?
    dispatched := s.dispatched ++ resolved.filterMap Sum.getLeft? }

/-! ## Runs -/

inductive ReadAction where
  /-- A step of the pipeline that the reads have no part in. -/
  | pipe (a : Action)
  | read (kind : ReadKind) (leader : Bool) (now : Nat)
  /-- The round is requested and `node.step` runs. It returns answers to rounds, by their numbers. -/
  | step (snapshot : Option Snapshot) (entries : List CommittedEntry) (answers : List (Nat × UInt64))
  /-- The reads are resolved and the cycle ends. -/
  | resolve (leader : Bool) (now : Nat)
  /-- A worker answers the read at position `k`. -/
  | reply (k : Nat)
  /-- The log is committed up to `n`, anywhere in the cluster. -/
  | commit (n : Nat)
  deriving DecidableEq, Repr

def Action.withoutReads : Action → Bool
  | .deliver _ _ => false
  | .finish => false
  | _ => true

def ReadSys.exec (env : Env) (timeout : Nat) (s : ReadSys) : ReadAction → Option ReadSys
  | .pipe a =>
    if a.withoutReads then (s.pipe.exec env a).map fun pipe => { s with pipe, clock := s.clock + 1 } else none
  | .read kind leader now =>
    match s.pipe.actor.stopped, s.pipe.actor.phase with
    | false, .idle => some { s.read timeout kind leader now with clock := s.clock + 1 }
    | _, _ => none
  | .step snapshot entries answers =>
    let s := s.stamp
    (s.pipe.exec env (.deliver snapshot entries)).map fun pipe =>
      { s with
        pipe
        readStates := answers.filterMap fun (k, index) => s.rounds[k]?.map fun round => (tokenBytes round.token, index)
        returned := s.returned ++ answers
        clock := s.clock + 1 }
  | .resolve leader now =>
    (s.pipe.exec env .finish).map fun pipe => { s.resolveReads timeout leader now with pipe, clock := s.clock + 1 }
  | .reply k => if k < s.dispatched.length then some { s with dispatched := s.dispatched.eraseIdx k, clock := s.clock + 1 } else none
  | .commit n => if s.committed ≤ n then some { s with committed := n, clock := s.clock + 1 } else none

def ReadSys.start (sm : Store) (membership : Membership) (clock : Option Nat) (committed : Nat) : ReadSys where
  pipe := Sys.start sm membership clock
  pendingReads := []
  nextReadToken := 1
  readStates := []
  dispatched := []
  clock := 0
  committed
  rounds := []
  returned := []

/-- What raft promises when `node.step` returns: the delivery is one of the log, its snapshot restores the log's
state, and each answer is for a round that was requested, with an index at or above everything that was committed
then. -/
structure StepContract (log : Nat → EntryType × Bytes) (s : ReadSys) (snapshot : Option Snapshot)
    (entries : List CommittedEntry) (answers : List (Nat × UInt64)) : Prop where
  delivery : Delivery log s.pipe.history.delivered snapshot entries
  restores : ∀ snap ∈ snapshot, Restores log snap
  answers : ∀ answer ∈ answers, ∃ round, s.stamp.rounds[answer.1]? = some round ∧ round.committed ≤ answer.2.toNat

def ReadSys.Step (env : Env) (log : Nat → EntryType × Bytes) (timeout : Nat) (s : ReadSys) (a : ReadAction)
    (s' : ReadSys) : Prop :=
  s.exec env timeout a = some s' ∧
    ∀ snapshot entries answers, a = .step snapshot entries answers → StepContract log s snapshot entries answers

abbrev ReadRun (env : Env) (log : Nat → EntryType × Bytes) (timeout : Nat) (first : ReadSys) :
    List ReadAction → ReadSys → Prop :=
  Transition.Run (· = first) (ReadSys.Step env log timeout)

/-! ## What a read waits for -/

variable {s s' t : ReadSys}

/-- Raft returned `index` for a round that was requested after the read was registered, and it covers what was
committed when the round was requested. -/
def ReadSys.Confirmed (s : ReadSys) (registered committed : Nat) (index : UInt64) : Prop :=
  ∃ k round, s.rounds[k]? = some round ∧ registered < round.requested ∧ committed ≤ round.committed ∧
    (k, index) ∈ s.returned ∧ round.committed ≤ index.toNat

structure ReadSys.Waits (s : ReadSys) (r : PendingRead) : Prop where
  registered : r.registered < s.clock
  committed : r.committed ≤ s.committed
  token : ∀ token, r.token = some token → ∃ (k : Nat) (round : Round), s.rounds[k]? = some round ∧ round.token = token ∧
    r.registered < round.requested ∧ r.committed ≤ round.committed
  confirmed : ∀ index, r.readIndex = some index → s.Confirmed r.registered r.committed index

/-- A read state is the answer to a round. -/
def ReadSys.Answers (s : ReadSys) (state : Bytes × UInt64) : Prop :=
  ∃ k round, s.rounds[k]? = some round ∧ state.1 = tokenBytes round.token ∧ (k, state.2) ∈ s.returned ∧
    round.committed ≤ state.2.toNat

/-- A read that was let through: its index is confirmed, and the state machine is there, membership changes aside. -/
def ReadSys.Cleared (log : Nat → EntryType × Bytes) (s : ReadSys) (d : Dispatched) : Prop :=
  s.Confirmed d.registered d.committed d.readIndex ∧
    ∀ i, s.pipe.task.sm.applied.toNat < i → i ≤ d.readIndex.toNat → Changes log i

structure ReadSys.Gated (log : Nat → EntryType × Bytes) (s : ReadSys) : Prop where
  tokens : ∀ k round, s.rounds[k]? = some round → round.token = UInt64.ofNat (k + 1)
  next : s.nextReadToken = UInt64.ofNat (s.rounds.length + 1)
  reads : ∀ r ∈ s.pendingReads, s.Waits r
  states : ∀ state ∈ s.readStates, s.Answers state
  dispatched : ∀ d ∈ s.dispatched, s.Cleared log d

/-- Rounds and answers are only added, and time goes on. -/
structure ReadSys.Extends (s s' : ReadSys) : Prop where
  rounds : ∃ more, s'.rounds = s.rounds ++ more
  returned : ∀ answer ∈ s.returned, answer ∈ s'.returned
  clock : s.clock ≤ s'.clock
  committed : s.committed ≤ s'.committed

theorem ReadSys.Extends.round (h : s.Extends s') {k : Nat} {round : Round} (hk : s.rounds[k]? = some round) :
    s'.rounds[k]? = some round := by
  obtain ⟨more, hmore⟩ := h.rounds
  rw [hmore, List.getElem?_append_left (List.getElem?_eq_some_iff.mp hk).1]
  exact hk

theorem ReadSys.Confirmed.mono {registered committed : Nat} {index : UInt64} (h : s.Confirmed registered committed index)
    (hext : s.Extends s') : s'.Confirmed registered committed index := by
  obtain ⟨k, round, hk, hregistered, hcommitted, hreturned, hindex⟩ := h
  exact ⟨k, round, hext.round hk, hregistered, hcommitted, hext.returned _ hreturned, hindex⟩

theorem ReadSys.Waits.mono {r : PendingRead} (h : s.Waits r) (hext : s.Extends s') : s'.Waits r := by
  refine ⟨lt_of_lt_of_le h.registered hext.clock, h.committed.trans hext.committed, ?_, ?_⟩
  · intro token htoken
    obtain ⟨k, round, hk, hround⟩ := h.token token htoken
    exact ⟨k, round, hext.round hk, hround⟩
  · intro index hindex
    exact (h.confirmed index hindex).mono hext

theorem ReadSys.Answers.mono {state : Bytes × UInt64} (h : s.Answers state) (hext : s.Extends s') : s'.Answers state := by
  obtain ⟨k, round, hk, hctx, hreturned, hindex⟩ := h
  exact ⟨k, round, hext.round hk, hctx, hext.returned _ hreturned, hindex⟩

theorem ReadSys.Cleared.mono {d : Dispatched} (h : s.Cleared log d) (hext : s.Extends s')
    (happlied : s.pipe.task.sm.applied.toNat ≤ s'.pipe.task.sm.applied.toNat) : s'.Cleared log d := by
  refine ⟨h.1.mono hext, ?_⟩
  intro i hi hle
  exact h.2 i (lt_of_le_of_lt happlied hi) hle

/-- A step without a new round: every read, state and dispatch is an old one or has to be looked at. -/
theorem ReadSys.Gated.mono (h : s.Gated log) (hext : s.Extends s') (hrounds : s'.rounds = s.rounds)
    (hnext : s'.nextReadToken = s.nextReadToken)
    (happlied : s.pipe.task.sm.applied.toNat ≤ s'.pipe.task.sm.applied.toNat)
    (hreads : ∀ r ∈ s'.pendingReads, r ∈ s.pendingReads ∨ s'.Waits r)
    (hstates : ∀ state ∈ s'.readStates, state ∈ s.readStates ∨ s'.Answers state)
    (hdispatched : ∀ d ∈ s'.dispatched, d ∈ s.dispatched ∨ s'.Cleared log d) : s'.Gated log := by
  refine ⟨hrounds ▸ h.tokens, ?_, ?_, ?_, ?_⟩
  · rw [hnext, hrounds]
    exact h.next
  · intro r hr
    rcases hreads r hr with hold | hnew
    · exact (h.reads r hold).mono hext
    · exact hnew
  · intro state hstate
    rcases hstates state hstate with hold | hnew
    · exact (h.states state hold).mono hext
    · exact hnew
  · intro d hd
    rcases hdispatched d hd with hold | hnew
    · exact (h.dispatched d hold).mono hext happlied
    · exact hnew

/-! ## Tokens -/

theorem tokenOf_tokenBytes {token : UInt64} (h : token ≠ 0) : tokenOf (tokenBytes token) = some (some token) := by
  have hlength : (tokenBytes token).length = 8 := by
    rw [tokenBytes, List.length_reverse]
    exact Codec.length_leBytes 8 _
  have htoken : UInt64.ofNat (Codec.leNat (tokenBytes token).reverse) = token := by
    rw [tokenBytes, List.reverse_reverse, Codec.u64Bytes, Codec.leNat_leBytes token.toNat_lt, UInt64.ofNat_toNat]
  unfold tokenOf
  rw [if_pos hlength]
  simp only [htoken, if_neg h]

/-- The first `2 ^ 64 - 1` tokens are different from each other and from zero. -/
theorem ofNat_succ_inj {k k' : Nat} (hk : k + 1 < 2 ^ 64) (hk' : k' + 1 < 2 ^ 64)
    (h : UInt64.ofNat (k + 1) = UInt64.ofNat (k' + 1)) : k = k' := by
  have hnat := congrArg UInt64.toNat h
  rw [UInt64.toNat_ofNat_of_lt' hk, UInt64.toNat_ofNat_of_lt' hk'] at hnat
  omega

theorem ofNat_succ_ne_zero {k : Nat} (hk : k + 1 < 2 ^ 64) : UInt64.ofNat (k + 1) ≠ 0 := by
  intro h
  have hnat := congrArg UInt64.toNat h
  rw [UInt64.toNat_ofNat_of_lt' hk] at hnat
  cases hnat

/-- **A new round** is later than every read it is requested for. -/
theorem ReadSys.Gated.stamp (h : s.Gated log) (hfew : s.stamp.rounds.length < 2 ^ 64) :
    s.stamp.Gated log ∧ s.Extends s.stamp := by
  unfold ReadSys.stamp at hfew ⊢
  split_ifs at hfew ⊢ with hany
  · rw [List.length_append, List.length_singleton] at hfew
    have htoken : s.newToken = UInt64.ofNat (s.rounds.length + 1) := by
      unfold ReadSys.newToken
      rw [h.next, if_neg (ofNat_succ_ne_zero hfew)]
    have hext : s.Extends { s with
        nextReadToken := s.nextReadToken + 1
        pendingReads := s.pendingReads.map fun r => if r.token.isNone then { r with token := some s.newToken } else r
        rounds := s.rounds ++ [{ token := s.newToken, requested := s.clock, committed := s.committed }] } :=
      ⟨⟨_, rfl⟩, fun _ => id, Nat.le_refl _, Nat.le_refl _⟩
    refine ⟨⟨?_, ?_, ?_, fun state hstate => (h.states state hstate).mono hext,
      fun d hd => (h.dispatched d hd).mono hext (Nat.le_refl _)⟩, hext⟩
    · intro k round hk
      rcases Nat.lt_or_ge k s.rounds.length with hlt | hge
      · rw [List.getElem?_append_left hlt] at hk
        exact h.tokens k round hk
      · rw [List.getElem?_append_right hge, List.getElem?_singleton] at hk
        split_ifs at hk with hzero
        obtain rfl := Option.some.inj hk
        rw [htoken, show k = s.rounds.length by omega]
    · show s.nextReadToken + 1 = UInt64.ofNat ((s.rounds ++ [_]).length + 1)
      rw [h.next, List.length_append, List.length_singleton, UInt64.ofNat_add (s.rounds.length + 1)]
      rfl
    · intro stamped hstamped
      obtain ⟨r, hr, rfl⟩ := List.mem_map.mp hstamped
      have hwaits := h.reads r hr
      split_ifs with hnone
      · refine ⟨hwaits.registered, hwaits.committed, ?_, fun index hindex => (hwaits.confirmed index hindex).mono hext⟩
        intro token htoken
        obtain rfl := Option.some.inj htoken
        refine ⟨s.rounds.length, ⟨s.newToken, s.clock, s.committed⟩, ?_, rfl, hwaits.registered, hwaits.committed⟩
        rw [List.getElem?_append_right (Nat.le_refl _), Nat.sub_self]
        rfl
      · exact hwaits.mono hext
  · exact ⟨h, ⟨[], (List.append_nil _).symm⟩, fun _ => id, Nat.le_refl _, Nat.le_refl _⟩

/-- **An answer** is noted with the reads of its own round: tokens are not used twice. -/
theorem ReadSys.Gated.recordReadState (h : s.Gated log) (hfew : s.rounds.length < 2 ^ 64) {reads : List PendingRead}
    (hreads : ∀ r ∈ reads, s.Waits r) {state : Bytes × UInt64} (hstate : s.Answers state) (deadline : Nat) :
    ∀ r ∈ recordReadState deadline reads state, s.Waits r := by
  obtain ⟨k, round, hk, hctx, hreturned, hindex⟩ := hstate
  have hlt : k + 1 < 2 ^ 64 := by
    have hlength := (List.getElem?_eq_some_iff.mp hk).1
    omega
  have htoken := h.tokens k round hk
  unfold Pipeline.recordReadState
  rw [hctx, htoken, tokenOf_tokenBytes (ofNat_succ_ne_zero hlt)]
  intro noted hnoted
  obtain ⟨r, hr, rfl⟩ := List.mem_map.mp hnoted
  have hwaits := hreads r hr
  split_ifs with hmatch
  · refine ⟨hwaits.registered, hwaits.committed, hwaits.token, ?_⟩
    intro index hsome
    obtain rfl := Option.some.inj hsome
    -- The read waits in a round with this token, so in this round.
    obtain ⟨k', round', hk', htoken', hregistered, hcommitted⟩ := hwaits.token _ hmatch
    have hlt' : k' + 1 < 2 ^ 64 := by
      have hlength := (List.getElem?_eq_some_iff.mp hk').1
      omega
    obtain rfl := ofNat_succ_inj hlt hlt' (htoken'.symm.trans (h.tokens k' round' hk'))
    obtain rfl := Option.some.inj (hk.symm.trans hk')
    exact ⟨k, round, hk, hregistered, hcommitted, hreturned, hindex⟩
  · exact hwaits

theorem ReadSys.Gated.recordReadStates (h : s.Gated log) (hfew : s.rounds.length < 2 ^ 64) (deadline : Nat)
    {states : List (Bytes × UInt64)} (hstates : ∀ state ∈ states, s.Answers state) {reads : List PendingRead}
    (hreads : ∀ r ∈ reads, s.Waits r) : ∀ r ∈ states.foldl (Pipeline.recordReadState deadline) reads, s.Waits r := by
  induction states generalizing reads with
  | nil => exact hreads
  | cons state states ih =>
      rw [List.forall_mem_cons] at hstates
      exact ih hstates.2 (h.recordReadState hfew hreads hstates.1 deadline)

/-! ## The gate -/

/-- What becomes of a read that is not answered with an error: it is let through, starts over, or goes on waiting. -/
theorem resolveRead_eq_some {r : PendingRead} {appliedIndex now : Nat} {leader : Bool} {x : Dispatched ⊕ PendingRead}
    (hr : resolveRead timeout appliedIndex leader now r = some x) :
    (∃ readIndex, r.readIndex = some readIndex ∧ readIndex.toNat ≤ appliedIndex ∧
      x = .inl ⟨r.kind, readIndex, r.registered, r.committed⟩) ∨
    x = .inr { r with attempts := r.attempts + 1, readIndex := none, token := none, deadline := now + timeout } ∨
    x = .inr r := by
  unfold Pipeline.resolveRead at hr
  cases hready : r.readIndex.filter (fun index => index.toNat ≤ appliedIndex) with
  | some readIndex =>
      simp only [hready] at hr
      split_ifs at hr
      obtain ⟨hindex, hle⟩ := Option.filter_eq_some_iff.mp hready
      exact .inl ⟨readIndex, hindex, of_decide_eq_true hle, (Option.some.inj hr).symm⟩
  | none =>
      simp only [hready] at hr
      split_ifs at hr
      · exact .inr (.inl (Option.some.inj hr).symm)
      · exact .inr (.inr (Option.some.inj hr).symm)

/-- A read that goes on waiting still waits for its own round, or for a new one. -/
theorem ReadSys.Waits.resolveRead {r r' : PendingRead} (h : s.Waits r) {appliedIndex now : Nat} {leader : Bool}
    (hr : resolveRead timeout appliedIndex leader now r = some (.inr r')) : s.Waits r' := by
  rcases resolveRead_eq_some hr with ⟨_, -, -, hx⟩ | hx | hx
  · cases hx
  · obtain rfl := Sum.inr.inj hx
    exact ⟨h.registered, h.committed, nofun, nofun⟩
  · obtain rfl := Sum.inr.inj hx
    exact h

/-- A read is let through with the index that was noted for it, once the actor has applied it. -/
theorem resolveRead_eq_inl {r : PendingRead} {appliedIndex now : Nat} {leader : Bool} {d : Dispatched}
    (hr : resolveRead timeout appliedIndex leader now r = some (.inl d)) :
    r.readIndex = some d.readIndex ∧ d.readIndex.toNat ≤ appliedIndex ∧ d.registered = r.registered ∧
      d.committed = r.committed := by
  rcases resolveRead_eq_some hr with ⟨readIndex, hindex, hle, hx⟩ | hx | hx
  · obtain rfl := Sum.inl.inj hx
    exact ⟨hindex, hle, rfl, rfl⟩
  · cases hx
  · cases hx

/-- **The gate.** The index a read is let through with was confirmed for it. -/
theorem ReadSys.Waits.dispatch {r : PendingRead} (h : s.Waits r) {appliedIndex now : Nat} {leader : Bool} {d : Dispatched}
    (hr : Pipeline.resolveRead timeout appliedIndex leader now r = some (.inl d)) :
    s.Confirmed d.registered d.committed d.readIndex ∧ d.readIndex.toNat ≤ appliedIndex := by
  obtain ⟨hindex, hle, hregistered, hcommitted⟩ := resolveRead_eq_inl hr
  rw [hregistered, hcommitted]
  exact ⟨h.confirmed _ hindex, hle⟩

/-- The state of the pipeline does not depend on the reads. -/
theorem ReadSys.pipe_step {a : ReadAction} (h : s.Step env log timeout a s') :
    s'.pipe = s.pipe ∨ ∃ b, s.pipe.Step env log b s'.pipe ∧
      ∀ snapshot entries, b = .deliver snapshot entries → ∀ snap ∈ snapshot, Restores log snap := by
  obtain ⟨hexec, hcontract⟩ := h
  have hstamp : s.stamp.pipe = s.pipe := by
    unfold ReadSys.stamp
    split_ifs <;> rfl
  cases a with
  | pipe b =>
      obtain ⟨hwithout, hexec⟩ := Option.ite_none_right_eq_some.mp hexec
      obtain ⟨pipe, hpipe, rfl⟩ := Option.map_eq_some_iff.mp hexec
      refine .inr ⟨b, ⟨hpipe, ?_⟩, ?_⟩
      · rintro snapshot entries rfl
        cases hwithout
      · rintro snapshot entries rfl
        cases hwithout
  | read kind leader now =>
      simp only [ReadSys.exec] at hexec
      split at hexec
      · obtain rfl := Option.some.inj hexec
        left
        show (s.read timeout kind leader now).pipe = s.pipe
        unfold ReadSys.read
        split_ifs <;> rfl
      · cases hexec
  | step snapshot entries answers =>
      obtain ⟨pipe, hpipe, rfl⟩ := Option.map_eq_some_iff.mp hexec
      rw [hstamp] at hpipe
      have hkeeps := hcontract _ _ _ rfl
      refine .inr ⟨_, ⟨hpipe, ?_⟩, ?_⟩
      · rintro _ _ ⟨⟩
        exact hkeeps.delivery
      · rintro _ _ ⟨⟩
        exact hkeeps.restores
  | resolve leader now =>
      obtain ⟨pipe, hpipe, rfl⟩ := Option.map_eq_some_iff.mp hexec
      exact .inr ⟨.finish, ⟨hpipe, nofun⟩, nofun⟩
  | reply k =>
      obtain ⟨-, hexec⟩ := Option.ite_none_right_eq_some.mp hexec
      obtain rfl := Option.some.inj hexec
      exact .inl rfl
  | commit n =>
      obtain ⟨-, hexec⟩ := Option.ite_none_right_eq_some.mp hexec
      obtain rfl := Option.some.inj hexec
      exact .inl rfl

/-- Rounds are never forgotten. -/
theorem ReadSys.rounds_le {a : ReadAction} (h : s.exec env timeout a = some s') : s.rounds.length ≤ s'.rounds.length := by
  have hstamp : s.rounds.length ≤ s.stamp.rounds.length := by
    unfold ReadSys.stamp
    split_ifs
    · rw [List.length_append]
      exact Nat.le_add_right _ _
    · exact Nat.le_refl _
  cases a with
  | pipe b =>
      obtain ⟨-, h⟩ := Option.ite_none_right_eq_some.mp h
      obtain ⟨pipe, -, rfl⟩ := Option.map_eq_some_iff.mp h
      exact Nat.le_refl _
  | read kind leader now =>
      simp only [ReadSys.exec] at h
      split at h
      · obtain rfl := Option.some.inj h
        show s.rounds.length ≤ (s.read timeout kind leader now).rounds.length
        unfold ReadSys.read
        split_ifs <;> exact Nat.le_refl _
      · cases h
  | step snapshot entries answers =>
      obtain ⟨pipe, -, rfl⟩ := Option.map_eq_some_iff.mp h
      exact hstamp
  | resolve leader now =>
      obtain ⟨pipe, -, rfl⟩ := Option.map_eq_some_iff.mp h
      exact Nat.le_refl _
  | reply k =>
      obtain ⟨-, h⟩ := Option.ite_none_right_eq_some.mp h
      obtain rfl := Option.some.inj h
      exact Nat.le_refl _
  | commit n =>
      obtain ⟨-, h⟩ := Option.ite_none_right_eq_some.mp h
      obtain rfl := Option.some.inj h
      exact Nat.le_refl _

/-- Time goes on, and nothing else happens to the reads. -/
theorem ReadSys.extends_later (s : ReadSys) (pipe : Sys) {committed : Nat} (h : s.committed ≤ committed)
    (reads : List PendingRead) (states : List (Bytes × UInt64)) (dispatched : List Dispatched) :
    s.Extends { s with
      pipe := pipe, committed := committed, pendingReads := reads, readStates := states, dispatched := dispatched,
      clock := s.clock + 1 } :=
  ⟨⟨[], (List.append_nil _).symm⟩, fun _ => id, Nat.le_succ _, h⟩

theorem ReadSys.Gated.step {a : ReadAction} (h : s.Gated log) (hbarred : s.pipe.Barred log)
    (hstep : s.Step env log timeout a s')
    (happlied : s.pipe.task.sm.applied.toNat ≤ s'.pipe.task.sm.applied.toNat) (hfew : s'.rounds.length < 2 ^ 64) :
    s'.Gated log := by
  obtain ⟨hexec, hcontract⟩ := hstep
  cases a with
  | pipe b =>
      obtain ⟨-, hexec⟩ := Option.ite_none_right_eq_some.mp hexec
      obtain ⟨pipe, -, rfl⟩ := Option.map_eq_some_iff.mp hexec
      exact h.mono (s.extends_later pipe (Nat.le_refl _) _ _ _) rfl rfl happlied (fun _ => .inl) (fun _ => .inl)
        fun _ => .inl
  | read kind leader now =>
      simp only [ReadSys.exec] at hexec
      split at hexec
      · obtain rfl := Option.some.inj hexec
        simp only [ReadSys.read] at happlied hfew ⊢
        split_ifs at happlied hfew ⊢
        · exact h.mono (s.extends_later s.pipe (Nat.le_refl _) _ _ _) rfl rfl happlied (fun _ => .inl) (fun _ => .inl)
            fun _ => .inl
        · refine h.mono (s.extends_later s.pipe (Nat.le_refl _) _ _ _) rfl rfl happlied ?_ (fun _ => .inl) fun _ => .inl
          intro r hr
          rcases List.mem_append.mp hr with hold | hnew
          · exact .inl hold
          · rw [List.mem_singleton] at hnew
            subst hnew
            exact .inr ⟨Nat.lt_succ_self _, Nat.le_refl _, nofun, nofun⟩
      · cases hexec
  | step snapshot entries answers =>
      obtain ⟨pipe, -, rfl⟩ := Option.map_eq_some_iff.mp hexec
      obtain ⟨hstamped, hext⟩ := h.stamp hfew
      have hpipe : s.stamp.pipe = s.pipe := by
        unfold ReadSys.stamp
        split_ifs <;> rfl
      refine hstamped.mono ⟨⟨[], (List.append_nil _).symm⟩, fun _ => List.mem_append_left _, Nat.le_succ _, Nat.le_refl _⟩
        rfl rfl (hpipe ▸ happlied) (fun _ => .inl) ?_ fun _ => .inl
      intro state hstate
      obtain ⟨⟨k, index⟩, hanswer, hmap⟩ := List.mem_filterMap.mp hstate
      obtain ⟨round, hround, rfl⟩ := Option.map_eq_some_iff.mp hmap
      obtain ⟨round', hround', hindex⟩ := (hcontract _ _ _ rfl).answers _ hanswer
      obtain rfl := Option.some.inj (hround.symm.trans hround')
      exact .inr ⟨k, round, hround, rfl, List.mem_append_right _ hanswer, hindex⟩
  | resolve leader now =>
      obtain ⟨pipe, -, rfl⟩ := Option.map_eq_some_iff.mp hexec
      have hext := s.extends_later pipe (Nat.le_refl _) ((s.resolveReads timeout leader now).pendingReads) []
        (s.resolveReads timeout leader now).dispatched
      have hnoted := h.recordReadStates hfew (now + timeout) h.states h.reads
      refine h.mono hext rfl rfl happlied ?_ nofun ?_
      · intro r hr
        obtain ⟨out, hout, hright⟩ := List.mem_filterMap.mp hr
        obtain ⟨r', hr', hresolve⟩ := List.mem_filterMap.mp hout
        obtain rfl := Sum.getRight?_eq_some_iff.mp hright
        exact .inr (((hnoted r' hr').resolveRead hresolve).mono hext)
      · intro d hd
        rcases List.mem_append.mp hd with hold | hnew
        · exact .inl hold
        · obtain ⟨out, hout, hleft⟩ := List.mem_filterMap.mp hnew
          obtain ⟨r', hr', hresolve⟩ := List.mem_filterMap.mp hout
          obtain rfl := Sum.getLeft?_eq_some_iff.mp hleft
          obtain ⟨hconfirmed, hle⟩ := (hnoted r' hr').dispatch hresolve
          refine .inr ⟨hconfirmed.mono hext, ?_⟩
          intro i hi hi'
          exact hbarred.ahead i (lt_of_le_of_lt happlied hi) (hi'.trans hle)
  | reply k =>
      obtain ⟨-, hexec⟩ := Option.ite_none_right_eq_some.mp hexec
      obtain rfl := Option.some.inj hexec
      exact h.mono (s.extends_later s.pipe (Nat.le_refl _) _ _ _) rfl rfl happlied (fun _ => .inl) (fun _ => .inl)
        fun d hd => .inl (List.mem_of_mem_eraseIdx hd)
  | commit n =>
      obtain ⟨hle, hexec⟩ := Option.ite_none_right_eq_some.mp hexec
      obtain rfl := Option.some.inj hexec
      exact h.mono (s.extends_later s.pipe hle _ _ _) rfl rfl happlied (fun _ => .inl) (fun _ => .inl) fun _ => .inl

/-! ## Runs -/

structure ReadSys.Sound (log : Nat → EntryType × Bytes) (first : Nat) (s : ReadSys) : Prop where
  ordered : s.pipe.Ordered log first
  barred : s.pipe.Barred log
  reflects : s.pipe.Reflects log
  gated : s.rounds.length < 2 ^ 64 → s.Gated log

theorem ReadSys.Sound.step {first : Nat} {a : ReadAction} (h : s.Sound log first) (hstep : s.Step env log timeout a s') :
    s'.Sound log first := by
  have hgated (happlied : s.pipe.task.sm.applied.toNat ≤ s'.pipe.task.sm.applied.toNat)
      (hfew : s'.rounds.length < 2 ^ 64) : s'.Gated log :=
    (h.gated (lt_of_le_of_lt (ReadSys.rounds_le hstep.1) hfew)).step h.barred hstep happlied hfew
  rcases ReadSys.pipe_step hstep with hsame | ⟨b, hb, hrestores⟩
  · refine ⟨hsame ▸ h.ordered, hsame ▸ h.barred, hsame ▸ h.reflects, hgated ?_⟩
    rw [hsame]
  · exact ⟨h.ordered.step hb, h.barred.step h.ordered hb, h.reflects.step h.ordered hb hrestores,
      hgated (h.ordered.applied_le hb)⟩

theorem readSound_of_run {sm : Store} (hsm : sm = logStore log sm.applied.toNat) {membership : Membership}
    {clock : Option Nat} {committed : Nat} {ops : List ReadAction}
    (h : ReadRun env log timeout (ReadSys.start sm membership clock committed) ops s) : s.Sound log sm.applied.toNat := by
  refine h.invariant (P := fun _ s => s.Sound log sm.applied.toNat) ?_ fun _ _ _ _ _ hs hstep => hs.step hstep
  rintro s rfl
  exact ⟨ordered_start log sm membership clock, barred_start log sm membership clock,
    reflects_start hsm membership clock, fun _ => ⟨nofun, rfl, nofun, nofun, nofun⟩⟩

/-- **The gate is sound.** In every interleaving, for a read that was let through and is answered from now on: its index
was returned by a round requested after the read was registered, it covers everything that was committed then, and the
map the read will see is the one of a log prefix that includes the index. -/
theorem linearizable_read_gate {sm : Store} (hsm : sm = logStore log sm.applied.toNat) {membership : Membership}
    {clock : Option Nat} {committed : Nat} {ops : List ReadAction}
    (h : ReadRun env log timeout (ReadSys.start sm membership clock committed) ops s) (hfew : s.rounds.length < 2 ^ 64) :
    ∀ d ∈ s.dispatched,
      (∃ (k : Nat) (round : Round), s.rounds[k]? = some round ∧ d.registered < round.requested ∧
        (k, d.readIndex) ∈ s.returned) ∧
      d.committed ≤ d.readIndex.toNat ∧
      ∃ m, d.readIndex.toNat ≤ m ∧ s.pipe.task.sm.kv = (logStore log m).kv := by
  intro d hd
  have hsound := readSound_of_run hsm h
  obtain ⟨⟨k, round, hk, hregistered, hcommitted, hreturned, hindex⟩, hchanges⟩ := (hsound.gated hfew).dispatched d hd
  exact ⟨⟨k, round, hk, hregistered, hreturned⟩, hcommitted.trans hindex, hsound.reflects.kv_of_changes hchanges⟩

/-- The actions without snapshots, for runs that are evaluated. -/
def ReadSys.execBlank (env : Env) (log : Nat → EntryType × Bytes) (timeout : Nat) (s : ReadSys) :
    ReadAction → Option ReadSys
  | .step none entries answers =>
    if Consecutive log s.pipe.history.delivered entries ∧
        answers.all (fun answer => s.stamp.rounds[answer.1]?.any fun round => round.committed ≤ answer.2.toNat) then
      s.exec env timeout (.step none entries answers)
    else none
  | .step (some _) _ _ => none
  | a => s.exec env timeout a

theorem ReadSys.step_of_execBlank {a : ReadAction} (h : s.execBlank env log timeout a = some s') :
    s.Step env log timeout a s' := by
  by_cases ha : ∃ snapshot entries answers, a = .step snapshot entries answers
  · obtain ⟨snapshot, entries, answers, rfl⟩ := ha
    cases snapshot with
    | some snapshot => cases h
    | none =>
        obtain ⟨⟨hconsecutive, hanswers⟩, hexec⟩ := Option.ite_none_right_eq_some.mp h
        refine ⟨hexec, ?_⟩
        rintro _ _ _ ⟨⟩
        refine ⟨⟨nofun, nofun, hconsecutive⟩, nofun, ?_⟩
        intro answer hanswer
        obtain ⟨round, hround, hle⟩ := (Option.any_eq_true _ _).mp (List.all_eq_true.mp hanswers answer hanswer)
        exact ⟨round, hround, of_decide_eq_true hle⟩
  · have hexec : s.exec env timeout a = some s' := by
      cases a with
      | step snapshot entries answers => exact absurd ⟨snapshot, entries, answers, rfl⟩ ha
      | _ => exact h
    exact ⟨hexec, fun snapshot entries answers heq => absurd ⟨snapshot, entries, answers, heq⟩ ha⟩

/-- A read is registered and its round is not answered in time. The answer comes when the read is in a second round,
and is not used; the answer to the second round is. -/
def retriedRead : List ReadAction :=
  [ .commit 1, .read (.one [1]) true 0,
    .pipe .absorb, .pipe (.poll none), .step none [blankEntry 1] [], .pipe .pump, .pipe .pump, .resolve true 1,
    .pipe .take, .pipe .work, .pipe .work,
    .pipe .absorb, .pipe (.poll none), .step none [] [(0, 1)], .pipe .pump, .resolve true 1,
    .pipe .absorb, .pipe (.poll none), .step none [] [(1, 1)], .pipe .pump, .resolve true 1 ]

theorem linearizable_read_gate_retried :
    ∃ s, ReadRun narrow blankLog 1 (ReadSys.start .new noMembers none 0) retriedRead s ∧
      s.dispatched = [⟨.one [1], 1, 1, 1⟩] ∧ s.rounds.length = 2 ∧
      ∃ m, 1 ≤ m ∧ s.pipe.task.sm.kv = (logStore blankLog m).kv := by
  have heval : (retriedRead.foldlM (ReadSys.execBlank narrow blankLog 1) (ReadSys.start .new noMembers none 0)).any (fun s =>
      s.dispatched = [⟨.one [1], 1, 1, 1⟩] ∧ s.rounds.length = 2) := by
    decide +kernel
  obtain ⟨s, hs, hfacts⟩ := (Option.any_eq_true _ _).mp heval
  obtain ⟨hdispatched, hrounds⟩ := of_decide_eq_true hfacts
  have hrun : ReadRun narrow blankLog 1 (ReadSys.start .new noMembers none 0) retriedRead s :=
    .of_foldlM (fun _ _ _ => ReadSys.step_of_execBlank) rfl hs
  have hfew : s.rounds.length < 2 ^ 64 := by
    rw [hrounds]
    decide
  obtain ⟨-, -, hmap⟩ := linearizable_read_gate rfl hrun hfew ⟨.one [1], 1, 1, 1⟩ (hdispatched ▸ List.mem_cons_self)
  exact ⟨s, hrun, hdispatched, hrounds, hmap⟩

end Arachne.Runtime.Pipeline
