import Arachne.Client.Handle

/-! # Admission of proposals

`start_proposal` is the only gate between a client's bytes and the log. It turns proposals away for reasons
of state: the node does not lead, the backlog of the apply task is too long, the session has expired or the
session table is full. It does not look into the bytes, and takes the session to register the proposal under
from the request. A `Handle` only sends bytes it encoded itself, under its own session; a forwarded request
carries whatever the sender put there.

Once committed, an entry that the parsers reject stops every replica that applies it. -/

namespace Arachne.Runtime

open Codec (Bytes)
open Client (Handle Proposal)
open Forward (ArachneError ForwardRequest)
open StateMachine (Write SessionKey Store Command commandSession)

variable {Addr : Type}

/-- Where a proposal's session is in its life. -/
inductive SessionBand where
  | live
  | grace
  | fresh
  deriving DecidableEq, Repr

/-- What a pending proposal is answered with once its entry is applied. -/
inductive ReplyShape where
  | outcome
  | index
  deriving DecidableEq, Repr

/-- A proposal awaiting commit and apply. -/
structure Pending where
  clientId : UInt64
  seqNo : UInt64
  shape : ReplyShape
  index : Option UInt64
  deriving DecidableEq, Repr

/-- The part of the actor that `start_proposal` reads and changes. -/
structure Proposer (Addr : Type) where
  raftId : UInt64
  leaderId : UInt64
  hint : Option (String × Addr)
  sentBytesTotal : Nat
  appliedBytesTotal : Nat
  proposalQueueBytes : Nat
  /-- What the session clock shows, if there is one. -/
  sessionClock : Option Nat
  sessionTtlMs : Nat
  sessionGraceMs : Nat
  /-- When each session was last used. -/
  sessions : SessionKey → Option Nat
  liveSessions : Nat
  maxSessions : Nat
  /-- Whether raft takes a proposal, or drops it. -/
  raftAccepts : Bytes → Bool
  /-- What was handed to raft, in order. -/
  proposed : List Bytes
  pending : List Pending

def Proposer.applyBacklogBytes (a : Proposer Addr) : Nat := a.sentBytesTotal - a.appliedBytesTotal

def Proposer.sessionBand (a : Proposer Addr) (session : SessionKey) : SessionBand :=
  match a.sessionClock with
  | none => .live
  | some now =>
    if a.sessionTtlMs = 0 then .live
    else
      match a.sessions session with
      | none => .fresh
      | some last =>
        let elapsed := now - last
        if elapsed ≤ a.sessionTtlMs then .live
        else if elapsed ≤ a.sessionTtlMs + a.sessionGraceMs then .grace
        else .fresh

/-- `start_proposal`: the error the client is answered with at once, or the actor that waits for the
entry. -/
def Proposer.startProposal (a : Proposer Addr) (p : Proposal) (shape : ReplyShape) :
    Except (ArachneError Addr) (Proposer Addr) :=
  if a.leaderId ≠ a.raftId then .error (.notLeader a.hint)
  else if a.applyBacklogBytes ≥ a.proposalQueueBytes then .error .busy
  else
    let band := a.sessionBand ⟨p.clientId, p.seqNo⟩
    if band = .grace then .error .sessionExpired
    else if band = .fresh ∧ a.maxSessions > 0 ∧ a.liveSessions ≥ a.maxSessions then .error .sessionTableFull
    else if a.raftAccepts p.cmd then
      .ok { a with
        proposed := a.proposed ++ [p.cmd]
        pending := a.pending ++ [{ clientId := p.clientId, seqNo := p.seqNo, shape, index := none }] }
    else .error (.notLeader a.hint)

/-- The actor accepts the proposal. -/
def Proposer.Accepts (a : Proposer Addr) (p : Proposal) (shape : ReplyShape) : Prop :=
  (a.startProposal p shape).isOk

/-! ## The two ways in -/

/-- A write that reaches the actor of this node. -/
inductive Entry where
  /-- A write of a local handle. -/
  | call (h : Handle) (op : Write)
  /-- A request of another node, as its bytes were decoded. -/
  | forwarded (request : ForwardRequest)

/-- The proposal of a forwarded command, as the command sink passes it on. -/
def forwardedProposal : Forward.ForwardCommand → Option (Proposal × ReplyShape)
  | .propose cmd clientId seqNo => some ({ cmd, clientId, seqNo }, .outcome)
  | .proposeWithIndex cmd clientId seqNo => some ({ cmd, clientId, seqNo }, .index)
  | _ => none

/-- What the entry proposes, if it proposes anything: a handle may reject its arguments, and a request may
be for something else. -/
def Entry.Proposes : Entry → Proposal → ReplyShape → Prop
  | .call h op, p, _ => ∃ h', (h.issue op : Except (ArachneError Unit) (Proposal × Handle)) = .ok (p, h')
  | .forwarded request, p, shape => request.command.bind forwardedProposal = some (p, shape)

/-! ## When an accepted proposal is harmless -/

/-- Once committed, the entry is applied by every replica, and it belongs to the session the proposal waits
under. -/
structure Harmless (p : Proposal) : Prop where
  applies : ∀ replica : Store, ∃ applied, (replica.apply (replica.applied + 1) p.cmd).1 = .ok applied
  session : commandSession p.cmd = some ⟨p.clientId, p.seqNo⟩

/-- The bytes are a put, delete, `multi_put` or compare-and-swap of the session they are proposed under. -/
def Genuine (p : Proposal) : Prop := ∃ op, Command.decode p.cmd = .ok (.write ⟨p.clientId, p.seqNo⟩ op)

theorem harmless_iff (p : Proposal) : Harmless p ↔ Genuine p := by
  constructor
  · rintro ⟨happlies, hsession⟩
    obtain ⟨applied, happly⟩ := happlies Store.new
    rw [Store.apply_next] at happly
    cases hdecode : Command.decode p.cmd with
    | error e => rw [hdecode] at happly; cases happly
    | ok c =>
        obtain ⟨op, rfl⟩ := StateMachine.eq_write_of_commandSession hsession hdecode
        exact ⟨op, hdecode⟩
  · rintro ⟨op, hdecode⟩
    refine ⟨fun replica => ?_, StateMachine.commandSession_of_decode hdecode⟩
    rw [Store.apply_next, hdecode]
    exact ⟨_, rfl⟩

/-- What a handle sends is harmless, if the limits of its profile fit the length fields of a command. Those of
both presets do: 4 KiB and 1 MiB. -/
theorem harmless_of_call {h : Handle} (hb : h.Bounded) {op : Write} {p : Proposal} {shape : ReplyShape}
    (hp : (Entry.call h op).Proposes p shape) : Harmless p := by
  obtain ⟨h', hissue⟩ := hp
  exact (harmless_iff p).mpr ⟨op, hb.decode_issue hissue⟩

theorem harmless_of_call_put : Harmless ⟨StateMachine.encodePut ⟨7, 1⟩ [1] [2], 7, 1⟩ :=
  @harmless_of_call ⟨7, 1, 8, 8⟩ ⟨by decide, by decide⟩ (.put [1] [2]) _ .outcome ⟨_, rfl⟩

/-- **When an accepted proposal is harmless**: whatever state the gates read, exactly if its bytes are a write
of the session it is registered under. -/
theorem accepted_proposal_harmless_iff (a : Proposer Addr) (entry : Entry) :
    (∀ p shape, entry.Proposes p shape → a.Accepts p shape → Harmless p) ↔
      ∀ p shape, entry.Proposes p shape → a.Accepts p shape → Genuine p :=
  forall₂_congr fun p _ => imp_congr_right fun _ => imp_congr_right fun _ => harmless_iff p

/-- A leader with an empty backlog and the session bands switched off. -/
def idleLeader : Proposer Unit where
  raftId := 1
  leaderId := 1
  hint := none
  sentBytesTotal := 0
  appliedBytesTotal := 0
  proposalQueueBytes := 64 * 1024 * 1024
  sessionClock := none
  sessionTtlMs := 0
  sessionGraceMs := 0
  sessions _ := none
  liveSessions := 0
  maxSessions := 0
  raftAccepts _ := true
  proposed := []
  pending := []

/-- A forwarded `Propose` with one byte no parser knows. -/
def unknownOpcode : ForwardRequest :=
  { kind := 0, cmd := [255], key := [], clientId := 7, seqNo := 1, hello := none, keys := [], linearizable := false }

/-- A forwarded put of session `(7, 1)`, to be registered under `(8, 5)`. -/
def foreignSession : ForwardRequest :=
  { unknownOpcode with cmd := StateMachine.encodePut ⟨7, 1⟩ [1] [2], clientId := 8, seqNo := 5 }

/-- Both are accepted. The first is refused by every replica when it is applied, the second belongs to another
session than the one that waits for it. -/
theorem accepted_proposal_harmful :
    (Entry.forwarded unknownOpcode).Proposes ⟨[255], 7, 1⟩ .outcome ∧ idleLeader.Accepts ⟨[255], 7, 1⟩ .outcome ∧
      (∀ replica : Store, (replica.apply (replica.applied + 1) [255]).1 = .error .malformedCommand) ∧
      (Entry.forwarded foreignSession).Proposes ⟨foreignSession.cmd, 8, 5⟩ .outcome ∧
      idleLeader.Accepts ⟨foreignSession.cmd, 8, 5⟩ .outcome ∧ commandSession foreignSession.cmd = some ⟨7, 1⟩ ∧
      ¬ Harmless ⟨[255], 7, 1⟩ ∧ ¬ Harmless ⟨foreignSession.cmd, 8, 5⟩ := by
  have hrefused : ∀ replica : Store, (replica.apply (replica.applied + 1) [255]).1 = .error .malformedCommand := by
    intro replica
    rw [Store.apply_next, show Command.decode [255] = .error .malformedCommand by decide +kernel]
  have hsession : commandSession foreignSession.cmd = some ⟨7, 1⟩ := by decide +kernel
  refine ⟨rfl, rfl, hrefused, rfl, rfl, hsession, fun h => ?_, fun h => ?_⟩
  · obtain ⟨applied, happly⟩ := h.applies Store.new
    rw [hrefused] at happly
    cases happly
  · exact absurd (hsession.symm.trans h.session) (by decide)

end Arachne.Runtime
