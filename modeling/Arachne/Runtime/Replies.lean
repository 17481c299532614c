import Arachne.Runtime.Barrier

/-! # Replies to proposals

A proposal waits in the table `pending` for a log index and for an outcome. The index comes when an entry of its session
is handed over: the first proposal without one takes it. The outcome comes from the apply task, by index, through a
channel of its own into the buffer `received_outcomes`. At the end of a cycle `reply_pendings` answers every proposal
whose index is applied and whose outcome is buffered, times out those that are overdue, and forgets every outcome nobody
waits for.

Two things keep this straight. Entries are handed over in index order, so an index is given away once
(`Attributed.handOver`); and a request leaves the table when it is answered, so it is answered once
(`ReplySys.Paired.settle`). What is answered with success is then the outcome of an entry of the proposal's own session
(`replies_pair`). -/

namespace Arachne.Runtime.Pipeline

open Codec (Bytes)
open Client (Proposal)
open Feed (Follows)
open Forward (ArachneError)
open StateMachine (ApplyOutcome Applied SessionKey Store commandSession)
open Storage (EntryType Snapshot)

/-! ## Attribution -/

section

variable {env : Env} {log : Nat → EntryType × Bytes} {s s' : Sys} {a : Action} {start delivered : Nat} {done : List UInt64}
  {queue : List CommittedEntry} {pending : List Pending}

/-- What the entry is handed over as. -/
def CommittedEntry.handed (e : CommittedEntry) : UInt64 × Bytes := (e.index, payload (e.kind, e.data))

theorem markFirst_cases {α : Type} (p : α → Bool) (f : α → α) (l : List α) :
    markFirst p f l = l ∨ ∃ pre x post, l = pre ++ x :: post ∧ p x ∧ markFirst p f l = pre ++ f x :: post := by
  induction l with
  | nil => exact .inl rfl
  | cons x l ih =>
      rw [markFirst]
      split_ifs with hx
      · exact .inr ⟨[], x, l, rfl, hx, rfl⟩
      · rcases ih with heq | ⟨pre, y, post, hl, hy, heq⟩
        · rw [heq]
          exact .inl rfl
        · rw [heq]
          refine .inr ⟨x :: pre, y, post, ?_, hy, rfl⟩
          rw [hl]
          rfl

/-- An entry goes to one proposal at most: one of its session that has no index yet. -/
theorem attributed_cases (pending : List Pending) (entry : UInt64 × Bytes) :
    attributed pending entry = pending ∨ ∃ pre p post, pending = pre ++ p :: post ∧ p.index = none ∧
      commandSession entry.2 = some ⟨p.clientId, p.seqNo⟩ ∧
      attributed pending entry = pre ++ { p with index := some entry.1 } :: post := by
  unfold attributed
  split
  · next session hsession =>
    rcases markFirst_cases _ (fun p : Pending => { p with index := some entry.1 }) pending with heq | ⟨pre, p, post, hl, hp, heq⟩
    · exact .inl heq
    · simp only [Bool.and_eq_true, Option.isNone_iff_eq_none, beq_iff_eq] at hp
      obtain ⟨⟨hnone, hclient⟩, hseq⟩ := hp
      refine .inr ⟨pre, p, post, hl, hnone, ?_, heq⟩
      rw [hsession, hclient, hseq]
  · exact .inl rfl

theorem length_attributed (pending : List Pending) (entry : UInt64 × Bytes) :
    (attributed pending entry).length = pending.length := by
  rcases attributed_cases pending entry with heq | ⟨pre, p, post, hl, -, -, heq⟩
  · rw [heq]
  · rw [heq, hl, List.length_append, List.length_append]
    rfl

theorem length_attributedAll (pending : List Pending) (entries : List (UInt64 × Bytes)) :
    (entries.foldl attributed pending).length = pending.length := by
  induction entries generalizing pending with
  | nil => rfl
  | cons entry entries ih => rw [List.foldl_cons, ih, length_attributed]

/-- The indices that were given away, to proposals that wait and to those that are `done`, are different ones and below
everything in the queue; and the log has an entry of the proposal's session there. -/
structure Attributed (log : Nat → EntryType × Bytes) (done : List UInt64) (delivered : Nat) (queue : List CommittedEntry)
    (pending : List Pending) : Prop where
  nodup : (pending.filterMap Pending.index ++ done).Nodup
  spent : ∀ i ∈ pending.filterMap Pending.index ++ done, i.toNat ≤ delivered ∧ ∀ e ∈ queue, i.toNat < e.index.toNat
  own : ∀ p ∈ pending, ∀ i, p.index = some i → commandSession (payload (log i.toNat)) = some ⟨p.clientId, p.seqNo⟩

/-- **An index is given away once**: it is above all that were given away before. -/
theorem Attributed.handOver {e : CommittedEntry} (h : Attributed log done delivered (e :: queue) pending)
    (hdelivered : e.index.toNat ≤ delivered) (hpayload : payload (e.kind, e.data) = payload (log e.index.toNat))
    (habove : ∀ e' ∈ queue, e.index.toNat < e'.index.toNat) :
    Attributed log done delivered queue (attributed pending e.handed) := by
  have hspent (i : UInt64) (hi : i ∈ pending.filterMap Pending.index ++ done) :
      i.toNat ≤ delivered ∧ ∀ e' ∈ queue, i.toNat < e'.index.toNat :=
    ⟨(h.spent i hi).1, fun e' he' => (h.spent i hi).2 e' (List.mem_cons_of_mem _ he')⟩
  rcases attributed_cases pending e.handed with heq | ⟨pre, p, post, rfl, hnone, hsession, heq⟩
  · rw [heq]
    exact ⟨h.nodup, hspent, h.own⟩
  · rw [heq]
    have hsome : ({ p with index := some e.handed.1 } : Pending).index = some e.index := rfl
    have hperm : ((pre ++ { p with index := some e.handed.1 } :: post).filterMap Pending.index ++ done).Perm
        (e.index :: ((pre ++ p :: post).filterMap Pending.index ++ done)) := by
      rw [List.filterMap_append, List.filterMap_append, List.filterMap_cons_some hsome, List.filterMap_cons_none hnone,
        List.append_assoc, List.append_assoc, List.cons_append]
      exact List.perm_middle
    refine ⟨hperm.nodup_iff.mpr (List.nodup_cons.mpr ⟨fun hmem => ?_, h.nodup⟩), ?_, ?_⟩
    · exact absurd ((h.spent _ hmem).2 e List.mem_cons_self) (Nat.lt_irrefl _)
    · intro i hi
      rcases List.mem_cons.mp (hperm.mem_iff.mp hi) with rfl | hi
      · exact ⟨hdelivered, habove⟩
      · exact hspent i hi
    · intro q hq i hi
      rcases List.mem_append.mp hq with hq | hq
      · exact h.own q (List.mem_append_left _ hq) i hi
      · rcases List.mem_cons.mp hq with rfl | hq
        · obtain rfl := Option.some.inj hi
          rw [← hsession]
          exact congrArg commandSession hpayload.symm
        · exact h.own q (List.mem_append_right _ (List.mem_cons_of_mem _ hq)) i hi

/-- A run of entries that is handed over. -/
theorem Attributed.run {run : List CommittedEntry} {w : Nat} (h : Attributed log done delivered (run ++ queue) pending)
    (hfollows : Follows (payload ∘ log) w ((run ++ queue).map CommittedEntry.item) delivered) :
    Attributed log done delivered queue ((run.map CommittedEntry.handed).foldl attributed pending) := by
  induction run generalizing pending w with
  | nil => exact h
  | cons e run ih =>
      have hlast := (hfollows.index_le List.mem_cons_self).2
      obtain ⟨-, hpayload, hrest⟩ := hfollows
      refine ih (h.handOver hlast hpayload fun e' he' => ?_) hrest
      exact hrest.lt_entry (List.mem_map_of_mem he')

/-- What a step hands over, unless it delivers or serves. -/
structure Sys.HandsOver (s s' : Sys) (run : List CommittedEntry) : Prop where
  queue : s.actor.committedQueue = run ++ s'.actor.committedQueue
  pending : s'.actor.book.pending = (run.map CommittedEntry.handed).foldl attributed s.actor.book.pending
  delivered : s'.history.delivered = s.history.delivered

/-- The actor stops where it is, or the run is handed over. -/
theorem Sys.handsOver_orStop {snapshot : Option Snapshot} {run : List CommittedEntry} {phase : Phase}
    (hqueue : s.actor.committedQueue = run ++ queue) :
    ∃ run', s.HandsOver (s.orStop phase (Sys.enqueueApply env { s with actor.committedQueue := queue } snapshot
      (run.map CommittedEntry.handed))) run' := by
  cases henqueue : Sys.enqueueApply env { s with actor.committedQueue := queue } snapshot
      (run.map CommittedEntry.handed) with
  | none => exact ⟨[], rfl, rfl, rfl⟩
  | some s' =>
      obtain ⟨hbook, -, -, -, hdelivered⟩ := Sys.enqueueApply_book henqueue
      obtain ⟨_, _, _, _, rfl, -, -⟩ := Sys.enqueueApply_eq henqueue
      refine ⟨run, hqueue, ?_, hdelivered⟩
      have hinstall : (s.actor.book.noteInstall snapshot).pending = s.actor.book.pending := by
        cases snapshot <;> rfl
      obtain ⟨_, _, heq⟩ := Book.enqueueAll_eq env (s.actor.book.noteInstall snapshot) (run.map CommittedEntry.handed)
      rw [heq, hinstall] at hbook
      exact congrArg Book.pending hbook

theorem CommittedEntry.handed_of_isNormal {e : CommittedEntry} (h : e.isNormal) : (e.index, e.data) = e.handed := by
  rw [CommittedEntry.handed, of_decide_eq_true h]
  rfl

theorem Sys.handsOver_pump : ∃ run, s.HandsOver (s.pumpCommitted env) run := by
  simp only [Sys.pumpCommitted]
  split
  · exact ⟨[], rfl, rfl, rfl⟩
  · next e rest hqueue =>
    split_ifs with hnormal hbarrier
    · have hrun : ((e :: rest).takeWhile CommittedEntry.isNormal).map (fun e => (e.index, e.data)) =
          ((e :: rest).takeWhile CommittedEntry.isNormal).map CommittedEntry.handed := by
        exact List.map_congr_left fun e he => CommittedEntry.handed_of_isNormal (List.mem_takeWhile_imp he)
      rw [hrun]
      refine Sys.handsOver_orStop ?_
      rw [hqueue, List.takeWhile_append_dropWhile]
    · exact ⟨[], rfl, rfl, rfl⟩
    · have hnoop : [(e.index, [])] = [e].map CommittedEntry.handed := by
        rcases e with ⟨index, _ | _ | _, data⟩
        · exact absurd rfl hnormal
        · rfl
        · rfl
      rw [hnoop]
      exact Sys.handsOver_orStop hqueue

theorem Sys.handsOver_of_moves (h : s.Moves env a s') (hdeliver : ∀ snapshot entries, a ≠ .deliver snapshot entries)
    (hserve : ∀ pending pendingConf now, a = .serve pending pendingConf now → pending = s.actor.book.pending) :
    ∃ run, s.HandsOver s' run := by
  cases h with
  | serve hphase => exact ⟨[], rfl, hserve _ _ _ rfl, rfl⟩
  | absorb hphase => exact ⟨[], rfl, rfl, rfl⟩
  | @poll term hphase =>
      refine ⟨[], ?_⟩
      rcases s.pollSnapshot_cases term with heq | heq | ⟨index, data, saved, -, -, heq⟩
      all_goals
        rw [heq]
        exact ⟨rfl, rfl, rfl⟩
  | deliver hphase => exact absurd rfl (hdeliver _ _)
  | install hphase => exact Sys.handsOver_orStop (List.nil_append _).symm
  | pump hphase => exact Sys.handsOver_pump
  | change hphase hrunning =>
      refine ⟨[], ?_⟩
      simp only [Sys.changeMembership]
      split <;> exact ⟨rfl, rfl, rfl⟩
  | finish hphase =>
      refine ⟨[], ?_⟩
      rcases s.maybeSnapshot_cases env with heq | heq | heq
      all_goals
        rw [heq]
        exact ⟨rfl, rfl, rfl⟩
  | halt => exact ⟨[], rfl, rfl, rfl⟩
  | take hfailed hworking htake =>
      rcases Sys.takeRequest_eq_some htake with ⟨batch, rest, hchannel, rfl⟩ | ⟨rest, hchannel, rfl⟩
      · exact ⟨[], rfl, rfl, rfl⟩
      · exact ⟨[], rfl, rfl, rfl⟩
  | @work batch hfailed hworking =>
      obtain ⟨hactor, hhistory, -, -⟩ := s.work_frame batch
      refine ⟨[], ?_, ?_, ?_⟩
      · rw [hactor]
        rfl
      · rw [hactor]
        rfl
      · rw [hhistory]
  | close hfailed => exact ⟨[], rfl, rfl, rfl⟩

/-- **The step of the attribution**: what is delivered is above everything that was given away, and what is handed over
is above everything that was handed over. -/
theorem Attributed.step (h : Attributed log done s.history.delivered s.actor.committedQueue s.actor.book.pending)
    (hordered : s.Ordered log start) (hstep : s.Step env log a s')
    (hserve : ∀ pending pendingConf now, a = .serve pending pendingConf now → pending = s.actor.book.pending) :
    Attributed log done s'.history.delivered s'.actor.committedQueue s'.actor.book.pending ∧
      s'.actor.book.pending.length = s.actor.book.pending.length := by
  by_cases ha : ∃ snapshot entries, a = .deliver snapshot entries
  · obtain ⟨snapshot, entries, rfl⟩ := ha
    have hd := hstep.2 _ _ rfl
    cases Sys.moves_of_exec hstep.1 with
    | deliver hphase =>
        obtain ⟨_, heq⟩ := Book.stageAll_eq env s.actor.book entries
        have hpending : (s.stageCommitted env snapshot entries).actor.book.pending = s.actor.book.pending := by
          show (entries.foldl (Book.stage env) s.actor.book).pending = _
          rw [heq]
        rw [hpending]
        exact ⟨⟨h.nodup, fun i hi => hd.below (h.spent i hi).1 (h.spent i hi).2, h.own⟩, rfl⟩
  · obtain ⟨run, hqueue, hpending, hdelivered⟩ := Sys.handsOver_of_moves (Sys.moves_of_exec hstep.1)
      (fun snapshot entries heq => ha ⟨snapshot, entries, heq⟩) hserve
    obtain ⟨_, -, hheld⟩ := hordered.waiting.split
    obtain ⟨w, -, hwaiting⟩ := hheld.split
    rw [hqueue] at h hwaiting
    rw [hpending, hdelivered]
    exact ⟨h.run hwaiting, length_attributedAll _ _⟩

end

/-! ## The tables -/

variable {Addr : Type}

/-- What a client is answered. -/
inductive Reply (Addr : Type) where
  | outcome (outcome : ApplyOutcome)
  | index (effectiveIndex : UInt64)
  | error (e : ArachneError Addr)
  deriving DecidableEq, Repr

/-- `send_applied`. -/
def sendApplied : ReplyShape → ApplyOutcome → UInt64 → Reply Addr
  | .outcome, outcome, _ => .outcome outcome
  | .index, _, effectiveIndex => .index effectiveIndex

/-- What the table holds of a proposal besides its `Pending`: the deadline, and a number that tells it from all others. -/
structure Ticket where
  id : Nat
  deadline : Nat
  deriving DecidableEq, Repr

/-- A proposal that was answered, as it was when it left the table. -/
structure Answered (Addr : Type) where
  ticket : Ticket
  pending : Pending
  reply : Reply Addr
  deriving DecidableEq, Repr

def Answered.request (c : Answered Addr) : Ticket × Pending := (c.ticket, c.pending)

/-- What the apply task writes back for an entry. -/
structure AppliedOutcome where
  index : UInt64
  outcome : ApplyOutcome
  effectiveIndex : UInt64
  deriving DecidableEq, Repr

/-- The node as `start_proposal` finds it, apart from the books: who leads, the bounds, and whether raft takes the
proposal. -/
structure Gate (Addr : Type) where
  raftId : UInt64
  leaderId : UInt64
  hint : Option (String × Addr)
  proposalQueueBytes : Nat
  maxSessions : Nat
  raftAccepts : Bytes → Bool

def Gate.proposer (gate : Gate Addr) (env : Env) (b : Book) : Proposer Addr where
  raftId := gate.raftId
  leaderId := gate.leaderId
  hint := gate.hint
  sentBytesTotal := b.sentBytesTotal
  appliedBytesTotal := b.appliedBytesTotal
  proposalQueueBytes := gate.proposalQueueBytes
  sessionClock := b.sessionClock
  sessionTtlMs := env.sessionTtlMs
  sessionGraceMs := env.sessionGraceMs
  sessions := b.sessions
  liveSessions := b.liveSessions
  maxSessions := gate.maxSessions
  raftAccepts := gate.raftAccepts
  proposed := []
  pending := b.pending

structure ReplySys (Addr : Type) where
  pipe : Sys
  /-- The proposals that wait. The books have their second halves. -/
  table : List (Ticket × Pending)
  /-- The channel from the apply task to the actor. -/
  outcomes : List AppliedOutcome
  /-- `received_outcomes`, with one binding for each index. -/
  received : List AppliedOutcome
  /-- How many proposals there were. -/
  proposals : Nat
  /-- What the apply task computed for each entry. -/
  computed : List (UInt64 × Bytes × Applied)
  answered : List (Answered Addr)

/-- `start_proposal`. -/
def ReplySys.propose (env : Env) (s : ReplySys Addr) (gate : Gate Addr) (p : Proposal) (shape : ReplyShape)
    (deadline : Nat) : ReplySys Addr :=
  let ticket : Ticket := { id := s.proposals, deadline }
  let pending : Pending := { clientId := p.clientId, seqNo := p.seqNo, shape, index := none }
  match (gate.proposer env s.pipe.actor.book).startProposal p shape with
  | .error e =>
    { s with proposals := s.proposals + 1, answered := s.answered ++ [{ ticket, pending, reply := .error e }] }
  | .ok a =>
    { s with
      proposals := s.proposals + 1
      pipe.actor.book.pending := a.pending
      table := s.table ++ [(ticket, pending)] }

/-- An outcome replaces what the buffer has for its index. -/
def insertOutcome (received : List AppliedOutcome) (o : AppliedOutcome) : List AppliedOutcome :=
  o :: received.filter fun r => r.index ≠ o.index

/-- The buffered outcome of a proposal whose entry is applied. -/
def bufferedOutcome (appliedIndex : Nat) (received : List AppliedOutcome) (p : Pending) : Option AppliedOutcome :=
  match p.index with
  | none => none
  | some index => if appliedIndex ≥ index.toNat then received.find? fun o => o.index = index else none

/-- What comes out of a look at the proposals. -/
structure ReplyPass (Addr : Type) where
  still : List (Ticket × Pending)
  answered : List (Answered Addr)
  received : List AppliedOutcome

/-- The loop of `reply_pendings`. An outcome is used up by the proposal it answers. -/
def replyLoop (appliedIndex now : Nat) : List (Ticket × Pending) → List AppliedOutcome → ReplyPass Addr
  | [], received => { still := [], answered := [], received }
  | (ticket, pending) :: rest, received =>
    match bufferedOutcome appliedIndex received pending with
    | some o =>
      let pass := replyLoop appliedIndex now rest (received.filter fun r => r.index ≠ o.index)
      let reply := sendApplied pending.shape o.outcome o.effectiveIndex
      { pass with answered := { ticket, pending, reply } :: pass.answered }
    | none =>
      let pass := replyLoop appliedIndex now rest received
      if now ≥ ticket.deadline then
        { pass with answered := { ticket, pending, reply := .error .timeout } :: pass.answered }
      else { pass with still := (ticket, pending) :: pass.still }

/-- `reply_pendings`, as far as it is about proposals. -/
def ReplySys.replyPendings (s : ReplySys Addr) (now : Nat) : ReplySys Addr :=
  let pass := replyLoop s.pipe.actor.appliedIndex now s.table s.received
  let live := pass.still.filterMap fun q => q.2.index
  { s with
    pipe.actor.book.pending := pass.still.map Prod.snd
    table := pass.still
    received := pass.received.filter fun o => live.contains o.index
    answered := s.answered ++ pass.answered }

/-- `fail_all_pending`, as far as it is about proposals. -/
def ReplySys.failAllPending (s : ReplySys Addr) (message : String) : ReplySys Addr :=
  { s with
    pipe.actor.book.pending := []
    table := []
    answered := s.answered ++ s.table.map fun q =>
      { ticket := q.1, pending := q.2, reply := .error (.unrecoverable message) } }

/-! ## Runs -/

inductive ReplyAction (Addr : Type) where
  /-- A step of the pipeline that has no part in the table. -/
  | pipe (a : Action)
  | propose (gate : Gate Addr) (p : Proposal) (shape : ReplyShape) (deadline : Nat)
  /-- Some outcomes are taken from the channel. -/
  | receive (n : Nat)
  /-- The end of a cycle. -/
  | finish (now : Nat)
  /-- The actor has stopped, or cannot go on with what it has. -/
  | fail (message : String)

/-- The actions that neither answer a proposal nor take one in. -/
def Sys.keepsPending (s : Sys) : Action → Bool
  | .serve pending _ _ => pending = s.actor.book.pending
  | .finish => false
  | _ => true

/-- What the task computes in the action, and for which entry. -/
def Sys.computes (s : Sys) : Action → Option (UInt64 × Bytes × Applied)
  | .work =>
    match s.task.working with
    | some { snapshot := none, entries := (index, data) :: _ } =>
      match (s.task.sm.apply index data).1 with
      | .ok applied => some (index, data, applied)
      | .error _ => none
    | _ => none
  | _ => none

def ReplySys.exec (env : Env) (s : ReplySys Addr) : ReplyAction Addr → Option (ReplySys Addr)
  | .pipe a =>
    if s.pipe.keepsPending a then
      (s.pipe.exec env a).map fun pipe =>
        let computed := (s.pipe.computes a).toList
        { s with
          pipe
          table := (s.table.map Prod.fst).zip pipe.actor.book.pending
          outcomes := s.outcomes ++ computed.map fun c =>
            { index := c.1, outcome := c.2.2.outcome, effectiveIndex := c.2.2.index }
          computed := s.computed ++ computed }
    else none
  | .propose gate p shape deadline =>
    if s.pipe.actor.stopped = false ∧ s.pipe.actor.phase = .idle then some (s.propose env gate p shape deadline) else none
  | .receive n =>
    if s.pipe.actor.stopped = false ∧ s.pipe.actor.phase = .idle then
      some { s with outcomes := s.outcomes.drop n, received := (s.outcomes.take n).foldl insertOutcome s.received }
    else none
  | .finish now =>
    let s := s.replyPendings now
    (s.pipe.exec env .finish).map fun pipe => { s with pipe }
  | .fail message =>
    if s.pipe.actor.stopped ∨ s.pipe.actor.phase = .idle then some (s.failAllPending message) else none

def ReplySys.Step (env : Env) (log : Nat → EntryType × Bytes) (s : ReplySys Addr) (a : ReplyAction Addr)
    (s' : ReplySys Addr) : Prop :=
  s.exec env a = some s' ∧ ∀ snapshot entries, a = .pipe (.deliver snapshot entries) →
    Delivery log s.pipe.history.delivered snapshot entries

def ReplySys.start (sm : Store) (membership : Membership) (clock : Option Nat) : ReplySys Addr where
  pipe := Sys.start sm membership clock
  table := []
  outcomes := []
  received := []
  proposals := 0
  computed := []
  answered := []

abbrev ReplyRun (env : Env) (log : Nat → EntryType × Bytes) (first : ReplySys Addr) :
    List (ReplyAction Addr) → ReplySys Addr → Prop :=
  Transition.Run (· = first) (ReplySys.Step env log)

/-! ## What is kept -/

variable {env : Env} {log : Nat → EntryType × Bytes} {start : Nat} {s s' : ReplySys Addr} {a : ReplyAction Addr}

/-- Every proposal there was: those that wait, and those that were answered. -/
def ReplySys.requests (s : ReplySys Addr) : List (Ticket × Pending) := s.table ++ s.answered.map Answered.request

def ReplySys.tickets (s : ReplySys Addr) : List Ticket := s.requests.map Prod.fst

/-- The log indices that were given to proposals. -/
def ReplySys.indices (s : ReplySys Addr) : List UInt64 := s.requests.filterMap fun q => q.2.index

/-- The reply is an error, or what the task computed for an entry of the log that has the session of the proposal. -/
def Answered.Right (log : Nat → EntryType × Bytes) (computed : List (UInt64 × Bytes × Applied)) (c : Answered Addr) : Prop :=
  (∃ e, c.reply = .error e) ∨ ∃ index data applied, (index, data, applied) ∈ computed ∧ c.pending.index = some index ∧
    log index.toNat = (.entry, data) ∧ commandSession data = some ⟨c.pending.clientId, c.pending.seqNo⟩ ∧
    c.reply = sendApplied c.pending.shape applied.outcome applied.index

theorem Answered.Right.mono {computed more : List (UInt64 × Bytes × Applied)} {c : Answered Addr}
    (h : c.Right log computed) (hsub : computed ⊆ more) : c.Right log more := by
  refine h.imp_right ?_
  rintro ⟨index, data, applied, hmem, hrest⟩
  exact ⟨index, data, applied, hsub hmem, hrest⟩

/-- The outcome is the one that was computed for its index. -/
def AppliedOutcome.Computed (computed : List (UInt64 × Bytes × Applied)) (o : AppliedOutcome) : Prop :=
  ∃ data applied, (o.index, data, applied) ∈ computed ∧ o.outcome = applied.outcome ∧ o.effectiveIndex = applied.index

theorem AppliedOutcome.Computed.mono {computed more : List (UInt64 × Bytes × Applied)} {o : AppliedOutcome}
    (h : o.Computed computed) (hsub : computed ⊆ more) : o.Computed more := by
  obtain ⟨data, applied, hmem, hrest⟩ := h
  exact ⟨data, applied, hsub hmem, hrest⟩

structure ReplySys.Paired (log : Nat → EntryType × Bytes) (start : Nat) (s : ReplySys Addr) : Prop where
  ordered : s.pipe.Ordered log start
  books : s.pipe.actor.book.pending = s.table.map Prod.snd
  ids : (s.tickets.map Ticket.id).Nodup
  fresh : ∀ t ∈ s.tickets, t.id < s.proposals
  attributed : Attributed log (s.answered.filterMap fun c => c.pending.index) s.pipe.history.delivered
    s.pipe.actor.committedQueue s.pipe.actor.book.pending
  computed : ∀ c ∈ s.computed, c.2.1 = payload (log c.1.toNat)
  outcomes : ∀ o ∈ s.outcomes, o.Computed s.computed
  received : ∀ o ∈ s.received, o.Computed s.computed
  replied : ∀ c ∈ s.answered, c.Right log s.computed

theorem ReplySys.Paired.indices_nodup (h : s.Paired log start) : s.indices.Nodup := by
  have hindices : s.indices =
      s.pipe.actor.book.pending.filterMap Pending.index ++ s.answered.filterMap fun c => c.pending.index := by
    rw [ReplySys.indices, ReplySys.requests, h.books, List.filterMap_append, List.filterMap_map, List.filterMap_map]
    rfl
  rw [hindices]
  exact h.attributed.nodup

theorem Sys.Ordered.with_pending {s : Sys} (h : s.Ordered log start) (pending : List Pending) :
    Sys.Ordered log start { s with actor.book.pending := pending } :=
  ⟨h.sound, h.applied, ⟨h.serialized.holds, h.serialized.installing⟩, h.failed⟩

/-! ## Answering -/

/-- What a proposal may be answered when its index is one it was given and the outcome is the one computed there. -/
theorem ReplySys.Paired.right_of_outcome (h : s.Paired log start) {ticket : Ticket} {pending : Pending}
    (hmem : (ticket, pending) ∈ s.table) {o : AppliedOutcome} (ho : o ∈ s.received) (hindex : pending.index = some o.index) :
    (⟨ticket, pending, sendApplied pending.shape o.outcome o.effectiveIndex⟩ : Answered Addr).Right log s.computed := by
  obtain ⟨data, applied, hcomputed, houtcome, heffective⟩ := h.received o ho
  have hdata : data = payload (log o.index.toNat) := h.computed _ hcomputed
  have hpending : pending ∈ s.pipe.actor.book.pending := by
    rw [h.books]
    exact List.mem_map_of_mem hmem
  have hsession := h.attributed.own pending hpending o.index hindex
  refine .inr ⟨o.index, data, applied, hcomputed, hindex, ?_, ?_, ?_⟩
  · -- Only normal entries have a session.
    rcases hlog : log o.index.toNat with ⟨_ | _ | _, bytes⟩
    · rw [hlog] at hdata
      exact congrArg _ hdata.symm
    · rw [hlog] at hsession
      cases hsession
    · rw [hlog] at hsession
      cases hsession
  · rw [hdata]
    exact hsession
  · rw [houtcome, heffective]

theorem bufferedOutcome_eq_some {appliedIndex : Nat} {received : List AppliedOutcome} {p : Pending} {o : AppliedOutcome}
    (h : bufferedOutcome appliedIndex received p = some o) : o ∈ received ∧ p.index = some o.index := by
  unfold bufferedOutcome at h
  split at h
  · cases h
  · next index hindex =>
    obtain ⟨-, hfind⟩ := Option.ite_none_right_eq_some.mp h
    have hkey := List.find?_some hfind
    have heq : o.index = index := of_decide_eq_true hkey
    exact ⟨List.mem_of_find?_eq_some hfind, heq ▸ hindex⟩

/-- **Every proposal goes to one of two places**: it stays in the table, or it is answered. -/
theorem replyLoop_perm (appliedIndex now : Nat) (table : List (Ticket × Pending)) (received : List AppliedOutcome) :
    let pass : ReplyPass Addr := replyLoop appliedIndex now table received
    (pass.still ++ pass.answered.map Answered.request).Perm table := by
  induction table generalizing received with
  | nil => exact .refl _
  | cons q table ih =>
      rcases q with ⟨ticket, pending⟩
      simp only [replyLoop]
      split
      · exact List.perm_middle.trans ((ih _).cons _)
      · split_ifs
        · exact List.perm_middle.trans ((ih _).cons _)
        · exact (ih _).cons _

theorem replyLoop_received (appliedIndex now : Nat) (table : List (Ticket × Pending)) (received : List AppliedOutcome) :
    (replyLoop appliedIndex now table received : ReplyPass Addr).received ⊆ received := by
  induction table generalizing received with
  | nil => exact fun _ => id
  | cons q table ih =>
      rcases q with ⟨ticket, pending⟩
      simp only [replyLoop]
      split
      · exact fun o ho => (List.mem_filter.mp (ih _ ho)).1
      · split_ifs <;> exact ih _

/-- A proposal is answered with an error, or with a buffered outcome of its index. -/
theorem replyLoop_answered (appliedIndex now : Nat) (table : List (Ticket × Pending)) (received : List AppliedOutcome) :
    ∀ c ∈ (replyLoop appliedIndex now table received : ReplyPass Addr).answered, (∃ e, c.reply = .error e) ∨
      c.request ∈ table ∧ ∃ o ∈ received, c.pending.index = some o.index ∧
        c.reply = sendApplied c.pending.shape o.outcome o.effectiveIndex := by
  induction table generalizing received with
  | nil => exact nofun
  | cons q table ih =>
      rcases q with ⟨ticket, pending⟩
      simp only [replyLoop]
      split
      · next o ho =>
        obtain ⟨hmem, hindex⟩ := bufferedOutcome_eq_some ho
        intro c hc
        rcases List.mem_cons.mp hc with rfl | hc
        · exact .inr ⟨List.mem_cons_self, o, hmem, hindex, rfl⟩
        · refine (ih _ c hc).imp_right ?_
          rintro ⟨hrequest, o', ho', hrest⟩
          exact ⟨List.mem_cons_of_mem _ hrequest, o', (List.mem_filter.mp ho').1, hrest⟩
      · have hlater (c : Answered Addr) (hc : c ∈ (replyLoop appliedIndex now table received).answered) :=
          (ih received c hc).imp_right (And.imp_left (List.mem_cons_of_mem (ticket, pending)))
        split_ifs
        · intro c hc
          rcases List.mem_cons.mp hc with rfl | hc
          · exact .inl ⟨_, rfl⟩
          · exact hlater c hc
        · exact hlater

/-- **A proposal that is answered leaves the table.** -/
theorem ReplySys.Paired.settle (h : s.Paired log start) {still : List (Ticket × Pending)} {new : List (Answered Addr)}
    {received : List AppliedOutcome} (hperm : (still ++ new.map Answered.request).Perm s.table)
    (hreceived : received ⊆ s.received) (hright : ∀ c ∈ new, c.Right log s.computed) :
    ReplySys.Paired log start { s with
      pipe.actor.book.pending := still.map Prod.snd, table := still, received, answered := s.answered ++ new } := by
  have hrequests : (still ++ (s.answered ++ new).map Answered.request).Perm s.requests := by
    rw [List.map_append]
    refine (List.perm_append_comm.append_left still).trans ?_
    rw [← List.append_assoc]
    exact hperm.append_right _
  have hpending : ((still.map Prod.snd).filterMap Pending.index ++
      (s.answered ++ new).filterMap fun c => c.pending.index).Perm
      (s.pipe.actor.book.pending.filterMap Pending.index ++ s.answered.filterMap fun c => c.pending.index) := by
    have hindices := hrequests.filterMap fun q => q.2.index
    rw [ReplySys.requests, List.filterMap_append, List.filterMap_append, List.filterMap_map, List.filterMap_map] at hindices
    rw [h.books, List.filterMap_map, List.filterMap_map]
    exact hindices
  have htickets := hrequests.map Prod.fst
  refine ⟨h.ordered.with_pending _, rfl, (htickets.map _).nodup_iff.mpr h.ids,
    fun t ht => h.fresh t (htickets.mem_iff.mp ht), ⟨hpending.nodup_iff.mpr h.attributed.nodup, ?_, ?_⟩,
    h.computed, h.outcomes, fun o ho => h.received o (hreceived ho), ?_⟩
  · exact fun i hi => h.attributed.spent i (hpending.mem_iff.mp hi)
  · intro p hp
    refine h.attributed.own p ?_
    obtain ⟨q, hq, rfl⟩ := List.mem_map.mp hp
    rw [h.books]
    exact List.mem_map_of_mem (hperm.subset (List.mem_append_left _ hq))
  · intro c hc
    rcases List.mem_append.mp hc with hc | hc
    · exact h.replied c hc
    · exact hright c hc

theorem ReplySys.Paired.replyPendings (h : s.Paired log start) (now : Nat) : (s.replyPendings now).Paired log start := by
  refine h.settle (replyLoop_perm _ _ _ _) ?_ ?_
  · exact fun o ho => replyLoop_received _ _ _ _ (List.mem_filter.mp ho).1
  · intro c hc
    rcases replyLoop_answered _ _ _ _ c hc with herror | ⟨hmem, o, ho, hindex, hreply⟩
    · exact .inl herror
    · have hright := h.right_of_outcome hmem ho hindex
      rw [← hreply] at hright
      exact hright

theorem ReplySys.Paired.failAllPending (h : s.Paired log start) (message : String) :
    (s.failAllPending message).Paired log start := by
  let failed : Ticket × Pending → Answered Addr := fun q => ⟨q.1, q.2, .error (.unrecoverable message)⟩
  have hperm : (([] : List (Ticket × Pending)) ++ (s.table.map failed).map Answered.request).Perm s.table := by
    rw [List.nil_append, List.map_map]
    exact .of_eq (List.map_id _)
  refine h.settle hperm (fun _ => id) ?_
  intro c hc
  obtain ⟨q, -, rfl⟩ := List.mem_map.mp hc
  exact .inl ⟨_, rfl⟩

/-! ## The other steps -/

theorem pending_of_startProposal {a a' : Proposer Addr} {p : Proposal} {shape : ReplyShape}
    (h : a.startProposal p shape = .ok a') :
    a'.pending = a.pending ++ [{ clientId := p.clientId, seqNo := p.seqNo, shape, index := none }] := by
  simp only [Proposer.startProposal] at h
  split_ifs at h
  obtain rfl := Except.ok.inj h
  rfl

/-- A new proposal has a number of its own, wherever it is put. -/
theorem ReplySys.Paired.new_request (h : s.Paired log start) {requests : List (Ticket × Pending)} {q : Ticket × Pending}
    (hq : q.1.id = s.proposals) (hperm : requests.Perm (q :: s.requests)) :
    ((requests.map Prod.fst).map Ticket.id).Nodup ∧ ∀ t ∈ requests.map Prod.fst, t.id < s.proposals + 1 := by
  have htickets : (requests.map Prod.fst).Perm (q.1 :: s.tickets) := hperm.map Prod.fst
  refine ⟨(htickets.map _).nodup_iff.mpr (List.nodup_cons.mpr ⟨fun hmem => ?_, h.ids⟩), fun t ht => ?_⟩
  · obtain ⟨t, ht, heq⟩ := List.mem_map.mp hmem
    have hlt := h.fresh t ht
    omega
  · rcases List.mem_cons.mp (htickets.mem_iff.mp ht) with rfl | ht
    · omega
    · exact Nat.lt_succ_of_lt (h.fresh t ht)

/-- A proposal that is turned away is answered at once, with an error. -/
theorem ReplySys.Paired.turnAway (h : s.Paired log start) {ticket : Ticket} {pending : Pending} {e : ArachneError Addr}
    (hid : ticket.id = s.proposals) (hnone : pending.index = none) :
    ReplySys.Paired log start { s with
      proposals := s.proposals + 1
      answered := s.answered ++ [{ ticket, pending, reply := .error e }] } := by
  let turnedAway : Answered Addr := { ticket, pending, reply := .error e }
  have hperm : (s.table ++ (s.answered ++ [turnedAway]).map Answered.request).Perm ((ticket, pending) :: s.requests) := by
    rw [List.map_append, ← List.append_assoc]
    exact List.perm_append_singleton _ _
  have hindices : (s.answered ++ [turnedAway]).filterMap (fun c => c.pending.index) =
      s.answered.filterMap fun c => c.pending.index := by
    rw [List.filterMap_append, List.filterMap_cons]
    simp only [turnedAway, hnone, List.filterMap_nil, List.append_nil]
  obtain ⟨hids, hfresh⟩ := h.new_request hid hperm
  refine ⟨h.ordered, h.books, hids, hfresh, ?_, h.computed, h.outcomes, h.received, ?_⟩
  · rw [hindices]
    exact h.attributed
  · intro c hc
    rcases List.mem_append.mp hc with hc | hc
    · exact h.replied c hc
    · obtain rfl := List.mem_singleton.mp hc
      exact .inl ⟨e, rfl⟩

/-- A proposal that is accepted waits at the end of the books, without an index. -/
theorem ReplySys.Paired.accept (h : s.Paired log start) {ticket : Ticket} {pending : Pending} {queue : List Pending}
    (hid : ticket.id = s.proposals) (hnone : pending.index = none)
    (hqueue : queue = s.pipe.actor.book.pending ++ [pending]) :
    ReplySys.Paired log start { s with
      proposals := s.proposals + 1
      pipe.actor.book.pending := queue
      table := s.table ++ [(ticket, pending)] } := by
  have hperm : (s.table ++ [(ticket, pending)] ++ s.answered.map Answered.request).Perm
      ((ticket, pending) :: s.requests) := by
    rw [List.append_assoc]
    exact List.perm_middle
  have hindices : queue.filterMap Pending.index = s.pipe.actor.book.pending.filterMap Pending.index := by
    rw [hqueue, List.filterMap_append, List.filterMap_cons_none hnone, List.filterMap_nil, List.append_nil]
  obtain ⟨hids, hfresh⟩ := h.new_request hid hperm
  refine ⟨h.ordered.with_pending _, ?_, hids, hfresh, ⟨?_, ?_, ?_⟩, h.computed, h.outcomes, h.received, h.replied⟩
  · show queue = _
    rw [hqueue, h.books, List.map_append]
    rfl
  · rw [hindices]
    exact h.attributed.nodup
  · rw [hindices]
    exact h.attributed.spent
  · intro q hq i hi
    rw [hqueue] at hq
    rcases List.mem_append.mp hq with hq | hq
    · exact h.attributed.own q hq i hi
    · obtain rfl := List.mem_singleton.mp hq
      rw [hnone] at hi
      cases hi

theorem ReplySys.Paired.propose (h : s.Paired log start) (gate : Gate Addr) (p : Proposal) (shape : ReplyShape)
    (deadline : Nat) : (s.propose env gate p shape deadline).Paired log start := by
  simp only [ReplySys.propose]
  split
  · exact h.turnAway rfl rfl
  · next a haccepted => exact h.accept rfl rfl (pending_of_startProposal haccepted)

/-- What the task computes is computed for the next entry of the log. -/
theorem Sys.Ordered.of_computes {s : Sys} (h : s.Ordered log start) {a : Action} {c : UInt64 × Bytes × Applied}
    (hc : s.computes a = some c) : c.2.1 = payload (log c.1.toNat) := by
  unfold Sys.computes at hc
  split at hc
  · split at hc
    · next index data rest hworking =>
      split at hc
      · obtain rfl := Option.some.inj hc
        exact (h.next_entry hworking).2.2
      · cases hc
    · cases hc
  · cases hc

theorem ReplySys.Paired.pipe (h : s.Paired log start) {b : Action} {pipe : Sys} (hstep : s.pipe.Step env log b pipe)
    (hkeeps : s.pipe.keepsPending b) (hexec : s.exec env (.pipe b) = some s') : s'.Paired log start := by
  have hserve (pending : List Pending) (pendingConf : List PendingConf) (now : Option Nat)
      (hb : b = .serve pending pendingConf now) : pending = s.pipe.actor.book.pending := by
    subst hb
    exact of_decide_eq_true hkeeps
  obtain ⟨hattributed, hlength⟩ := h.attributed.step h.ordered hstep hserve
  have hexec' : s.exec env (.pipe b) = (s.pipe.exec env b).map _ := if_pos hkeeps
  rw [hexec', hstep.1] at hexec
  obtain rfl := Option.some.inj hexec
  -- The table keeps its tickets, and takes the other halves from the books.
  have hlength' : pipe.actor.book.pending.length = (s.table.map Prod.fst).length := by
    rw [hlength, h.books, List.length_map, List.length_map]
  have hfst := List.map_fst_zip (Nat.le_of_eq hlength'.symm)
  have hsnd := List.map_snd_zip (Nat.le_of_eq hlength')
  have htickets : ((s.table.map Prod.fst).zip pipe.actor.book.pending ++ s.answered.map Answered.request).map Prod.fst =
      s.tickets := by
    rw [ReplySys.tickets, ReplySys.requests, List.map_append, List.map_append, hfst]
  have hsub : s.computed ⊆ s.computed ++ (s.pipe.computes b).toList := List.subset_append_left _ _
  refine ⟨h.ordered.step hstep, hsnd.symm, ?_, ?_, hattributed, ?_, ?_, ?_, ?_⟩
  · rw [ReplySys.tickets, ReplySys.requests, htickets]
    exact h.ids
  · rw [ReplySys.tickets, ReplySys.requests, htickets]
    exact h.fresh
  · intro c hc
    rcases List.mem_append.mp hc with hc | hc
    · exact h.computed c hc
    · exact h.ordered.of_computes (Option.mem_toList.mp hc)
  · intro o ho
    rcases List.mem_append.mp ho with ho | ho
    · exact (h.outcomes o ho).mono hsub
    · obtain ⟨c, hc, rfl⟩ := List.mem_map.mp ho
      exact ⟨_, _, List.mem_append_right _ hc, rfl, rfl⟩
  · exact fun o ho => (h.received o ho).mono hsub
  · exact fun c hc => (h.replied c hc).mono hsub

theorem Sys.finish_frame {s s' : Sys} (h : s.Moves env .finish s') :
    s'.actor.book.pending = s.actor.book.pending ∧ s'.actor.committedQueue = s.actor.committedQueue ∧
      s'.history.delivered = s.history.delivered := by
  cases h with
  | finish hphase =>
      rcases s.maybeSnapshot_cases env with heq | heq | heq
      all_goals
        rw [heq]
        exact ⟨rfl, rfl, rfl⟩

theorem mem_insertOutcomes {outcomes received : List AppliedOutcome} {o : AppliedOutcome}
    (h : o ∈ outcomes.foldl insertOutcome received) : o ∈ outcomes ∨ o ∈ received := by
  induction outcomes generalizing received with
  | nil => exact .inr h
  | cons first outcomes ih =>
      rcases ih h with h | h
      · exact .inl (List.mem_cons_of_mem _ h)
      · rcases List.mem_cons.mp h with rfl | h
        · exact .inl List.mem_cons_self
        · exact .inr (List.mem_filter.mp h).1

theorem ReplySys.Paired.step (h : s.Paired log start) (hstep : s.Step env log a s') : s'.Paired log start := by
  obtain ⟨hexec, hdelivery⟩ := hstep
  cases a with
  | pipe b =>
      obtain ⟨hkeeps, hpipe⟩ := Option.ite_none_right_eq_some.mp hexec
      obtain ⟨pipe, hpipe, -⟩ := Option.map_eq_some_iff.mp hpipe
      refine h.pipe ⟨hpipe, ?_⟩ hkeeps hexec
      rintro snapshot entries rfl
      exact hdelivery snapshot entries rfl
  | propose gate p shape deadline =>
      obtain ⟨-, hexec⟩ := Option.ite_none_right_eq_some.mp hexec
      obtain rfl := Option.some.inj hexec
      exact h.propose gate p shape deadline
  | receive n =>
      obtain ⟨-, hexec⟩ := Option.ite_none_right_eq_some.mp hexec
      obtain rfl := Option.some.inj hexec
      refine ⟨h.ordered, h.books, h.ids, h.fresh, h.attributed, h.computed, ?_, ?_, h.replied⟩
      · exact fun o ho => h.outcomes o (List.mem_of_mem_drop ho)
      · intro o ho
        rcases mem_insertOutcomes ho with ho | ho
        · exact h.outcomes o (List.mem_of_mem_take ho)
        · exact h.received o ho
  | finish now =>
      obtain ⟨pipe, hpipe, rfl⟩ := Option.map_eq_some_iff.mp hexec
      have hreplied := h.replyPendings now
      have hstep : (s.replyPendings now).pipe.Step env log .finish pipe := ⟨hpipe, nofun⟩
      obtain ⟨hpending, hqueue, hdelivered⟩ := Sys.finish_frame (Sys.moves_of_exec hpipe)
      refine ⟨hreplied.ordered.step hstep, hpending.trans hreplied.books, hreplied.ids, hreplied.fresh, ?_,
        hreplied.computed, hreplied.outcomes, hreplied.received, hreplied.replied⟩
      rw [hpending, hqueue, hdelivered]
      exact hreplied.attributed
  | fail message =>
      obtain ⟨-, hexec⟩ := Option.ite_none_right_eq_some.mp hexec
      obtain rfl := Option.some.inj hexec
      exact h.failAllPending message

/-! ## The theorem -/

theorem paired_start (log : Nat → EntryType × Bytes) (sm : Store) (membership : Membership) (clock : Option Nat) :
    (ReplySys.start sm membership clock : ReplySys Addr).Paired log sm.applied.toNat :=
  ⟨ordered_start log sm membership clock, rfl, .nil, nofun, ⟨.nil, nofun, nofun⟩, nofun, nofun, nofun, nofun⟩

/-- After a reply pass the buffer has only indices somebody waits for. -/
theorem ReplySys.live_of_finish {now : Nat} (h : s.exec env (.finish now) = some s') :
    ∀ o ∈ s'.received, ∃ q ∈ s'.table, q.2.index = some o.index := by
  obtain ⟨pipe, -, rfl⟩ := Option.map_eq_some_iff.mp h
  intro o ho
  have hlive := List.contains_iff_mem.mp (List.mem_filter.mp ho).2
  exact List.mem_filterMap.mp hlive

/-- **Replies pair with the right entry.** In every run, whatever is proposed, committed, applied and timed out, and
whoever leads:

* no proposal is answered twice, nor waits on after it was answered;
* a proposal that is answered without an error is answered with the outcome, or the effective index, that the apply task
  computed for a committed entry of its own session;
* no two proposals are given the same log index;
* a reply pass leaves outcomes in the buffer only for proposals that still wait. -/
theorem replies_pair {sm : Store} {membership : Membership} {clock : Option Nat} {ops : List (ReplyAction Addr)}
    (h : ReplyRun env log (ReplySys.start sm membership clock) ops s) :
    (s.tickets.map Ticket.id).Nodup ∧ (∀ c ∈ s.answered, c.Right log s.computed) ∧ s.indices.Nodup ∧
      ∀ now s', s.exec env (.finish now) = some s' → ∀ o ∈ s'.received, ∃ q ∈ s'.table, q.2.index = some o.index := by
  have hpaired : s.Paired log sm.applied.toNat := by
    refine h.invariant (P := fun _ s => s.Paired log sm.applied.toNat) ?_ fun _ _ _ _ _ hs hstep => hs.step hstep
    rintro s rfl
    exact paired_start log sm membership clock
  exact ⟨hpaired.ids, hpaired.replied, hpaired.indices_nodup, fun _ _ => ReplySys.live_of_finish⟩

/-- A node that leads and takes every proposal. -/
def openGate : Gate Unit where
  raftId := 1
  leaderId := 1
  hint := none
  proposalQueueBytes := 1000
  maxSessions := 0
  raftAccepts := fun _ => true

/-- A log of one command of session 1, again and again. -/
def retriedLog : Nat → EntryType × Bytes := fun _ => (.entry, StateMachine.encodePut ⟨1, 1⟩ [7] [9])

def retriedEntry (index : UInt64) : CommittedEntry :=
  { index, kind := .entry, data := StateMachine.encodePut ⟨1, 1⟩ [7] [9] }

/-- The same command is proposed twice, once for the outcome and once for the index. Both entries are applied; the
second answer has the effective index of the first entry. A third proposal waits until it times out, and a fourth comes
when another node leads. -/
def retriedActions : List (ReplyAction Unit) :=
  let p : Proposal := { cmd := StateMachine.encodePut ⟨1, 1⟩ [7] [9], clientId := 1, seqNo := 1 }
  [ .propose openGate p .outcome 5, .propose openGate p .index 5, .propose openGate p .outcome 1,
    .pipe .absorb, .pipe (.poll none), .pipe (.deliver none [retriedEntry 1, retriedEntry 2]), .pipe .pump, .pipe .pump,
    .finish 0,
    .pipe .take, .pipe .work, .pipe .work, .pipe .work, .receive 2,
    .propose { openGate with leaderId := 2 } p .outcome 9,
    .pipe .absorb, .pipe (.poll none), .pipe (.deliver none []), .pipe .pump, .finish 2 ]

/-- The actions over `log` without snapshots, for runs that are evaluated. -/
def ReplySys.execPlain (env : Env) (log : Nat → EntryType × Bytes) (s : ReplySys Addr) (a : ReplyAction Addr) :
    Option (ReplySys Addr) :=
  match a with
  | .pipe (.deliver none entries) =>
    if Consecutive log s.pipe.history.delivered entries then s.exec env (.pipe (.deliver none entries)) else none
  | .pipe (.deliver (some _) _) => none
  | a => s.exec env a

theorem ReplySys.step_of_execPlain (h : s.execPlain env log a = some s') : s.Step env log a s' := by
  unfold ReplySys.execPlain at h
  split at h
  · next entries =>
    obtain ⟨hconsecutive, hexec⟩ := Option.ite_none_right_eq_some.mp h
    refine ⟨hexec, fun snapshot entries' heq => ?_⟩
    cases heq
    exact ⟨nofun, nofun, hconsecutive⟩
  · cases h
  · next hnone hsome =>
    refine ⟨h, fun snapshot entries heq => ?_⟩
    cases snapshot with
    | none => exact absurd heq (hnone entries)
    | some snapshot => exact absurd heq (hsome snapshot entries)

theorem replies_pair_retried :
    ∃ s, ReplyRun narrow retriedLog (ReplySys.start .new noMembers none) retriedActions s ∧
      s.answered.map (fun c => (c.ticket.id, c.pending.index, c.reply)) =
        [(3, none, .error (.notLeader none)), (0, some 1, .outcome (.value [9])), (1, some 2, .index 1), (2, none, .error .timeout)] ∧
      s.received = [] ∧ (s.tickets.map Ticket.id).Nodup ∧ s.indices.Nodup := by
  have heval : (retriedActions.foldlM (ReplySys.execPlain narrow retriedLog) (ReplySys.start .new noMembers none)).any
      (fun s => s.answered.map (fun c => (c.ticket.id, c.pending.index, c.reply)) =
          [(3, none, .error (.notLeader none)), (0, some 1, .outcome (.value [9])), (1, some 2, .index 1), (2, none, .error .timeout)] ∧
        s.received = []) := by
    decide +kernel
  obtain ⟨s, hs, hfacts⟩ := (Option.any_eq_true _ _).mp heval
  obtain ⟨hanswered, hreceived⟩ := of_decide_eq_true hfacts
  have hrun : ReplyRun narrow retriedLog (ReplySys.start .new noMembers none) retriedActions s :=
    .of_foldlM (fun _ _ _ => ReplySys.step_of_execPlain) rfl hs
  obtain ⟨hids, -, hindices, -⟩ := replies_pair hrun
  exact ⟨s, hrun, hanswered, hreceived, hids, hindices⟩

end Arachne.Runtime.Pipeline
