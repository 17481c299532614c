import Arachne.Forward.Wire

/-! # Forwarded writes

The last layer of a forwarded write: `Handle::forward_request` turns the outcome the forwarder returns into
what the client is told. `forwardRequest_propose` and `forwardRequest_proposeWithIndex` follow each verdict of
the target's actor through all four layers. One of them arrives as a success that is none: a refusal without a leader to redirect to is an
outcome with no field set, which a plain write reads as "applied, with no value". -/

namespace Arachne.Forward

open Codec (Bytes)
open StateMachine (ApplyOutcome)

variable {Addr : Type}

/-- What a membership change asks for. -/
inductive ConfChangeType where
  | addNode
  | removeNode
  | addLearnerNode
  deriving DecidableEq, Repr

/-- A request the redirect loop carries. -/
inductive Request where
  | propose (cmd : Bytes) (clientId seqNo : UInt64)
  | proposeWithIndex (cmd : Bytes) (clientId seqNo : UInt64)
  | confChange (changeType : ConfChangeType) (nodeId : UInt64)
  | transferLeader (target : Option UInt64)
  deriving DecidableEq, Repr

/-- A successful answer to a write. -/
inductive WriteReply where
  | outcome (outcome : ApplyOutcome)
  | index (index : UInt64)
  deriving DecidableEq, Repr

/-- `code_to_error`. -/
def codeToError (code : String) : ArachneError Addr :=
  if code = "quorum_unavailable" then .quorumUnavailable
  else if code = "unavailable" ∨ code = "command channel closed" ∨ code = "ack channel closed" then
    .quorumUnavailable
  else if code = "timeout" then .timeout
  else if code = "busy" then .busy
  else if code = "session_expired" then .sessionExpired
  else if code = "session_table_full" then .sessionTableFull
  else if code = "shutting_down" then .shuttingDown
  else if code = "unknown_kind" then .unsupported "peer does not support the requested command kind"
  else if code = "invalid_argument" then
    .invalidArgument "the leader rejected the forwarded request as invalid"
  else if code = "unsupported" then .unsupported "peer does not support the requested capability"
  else .unrecoverable ("forwarded request failed: " ++ code)

/-- The command a request is forwarded as. Membership changes are not forwarded. -/
def Request.forwardCommand : Request → Option ForwardCommand
  | .propose cmd clientId seqNo => some (.propose cmd clientId seqNo)
  | .proposeWithIndex cmd clientId seqNo => some (.proposeWithIndex cmd clientId seqNo)
  | _ => none

def Request.wantsIndex : Request → Bool
  | .proposeWithIndex .. => true
  | _ => false

/-- What the client is told about an outcome. -/
def writeReply (wantsIndex : Bool) (outcome : ForwardOutcome Addr) : Except (ArachneError Addr) WriteReply :=
  match outcome.leaderHint with
  | some hint => .error (.notLeader (some hint))
  | none =>
    if wantsIndex then
      match outcome.index with
      | some index => .ok (.index index)
      | none => .error (.unsupported "leader does not support index-returning writes")
    else .ok (.outcome (outcome.result.getD .none))

/-- `forward_request`, over a forwarder that answers or outlasts the deadline (`none`). The outer error is
that the target was not reached, the inner one its verdict. -/
def forwardRequest (remote : ForwardCommand → Option (Except String (ForwardOutcome Addr))) (req : Request) :
    Except (ArachneError Addr) (Except (ArachneError Addr) WriteReply) :=
  match req.forwardCommand with
  | none => .error .quorumUnavailable
  | some c =>
    match remote c with
    | some (.ok outcome) => .ok (writeReply req.wantsIndex outcome)
    | some (.error code) => .ok (.error (codeToError code))
    | none => .error .quorumUnavailable

/-! ## The system -/

/-- What the network does with a forwarded request. -/
inductive Link where
  | delivers
  /-- The connection or the call fails, before or after the command ran. -/
  | fails (status : String)
  | timesOut
  deriving DecidableEq, Repr

/-- A client's node, its connection to another node, and that node's server. -/
structure Path (Addr : Type) where
  fmt : AddrFormat Addr
  hello : Hello
  link : Link
  server : Server Addr

/-- The forwarder of the client's node. -/
def Path.remote (path : Path Addr) (c : ForwardCommand) : Option (Except String (ForwardOutcome Addr)) :=
  match path.link with
  | .delivers => some (doForward path.fmt (fun request => .ok (path.server.forward path.fmt request)) path.hello c)
  | .fails status => some (doForward path.fmt (fun _ => .error status) path.hello c)
  | .timesOut => none

/-- What the client is told about a write forwarded along the path. -/
def Path.forwardRequest (path : Path Addr) (req : Request) :
    Except (ArachneError Addr) (Except (ArachneError Addr) WriteReply) :=
  Forward.forwardRequest path.remote req

/-- The client is told that the write succeeded. -/
def Path.Acknowledges (path : Path Addr) (req : Request) : Prop := ∃ reply, path.forwardRequest req = .ok (.ok reply)

/-- The actor of the target answered the proposal with `Ok`. -/
def Target.RepliedOk (target : Target Addr) : Request → Prop
  | .propose cmd clientId seqNo => ∃ outcome, target.propose cmd clientId seqNo = .replied (.ok outcome)
  | .proposeWithIndex cmd clientId seqNo =>
    ∃ index, target.proposeWithIndex cmd clientId seqNo = .replied (.ok index)
  | _ => False

/-- The actor of the target refused a plain proposal without naming a leader. -/
def Target.RefusesHintless (target : Target Addr) : Request → Prop
  | .propose cmd clientId seqNo => target.propose cmd clientId seqNo = .replied (.error (.notLeader none))
  | _ => False

/-- The path carries requests to the sink of `target`, and its replies back. -/
structure Path.Reaches (path : Path Addr) (target : Target Addr) : Prop where
  link : path.link = .delivers
  server : path.server.Admits path.hello target

/-! ## Every verdict, end to end -/

/-- A reply that is not `ok` never becomes a success. -/
theorem decodeReply_of_not_ok {fmt : AddrFormat Addr} {reply : ForwardReply} (h : reply.ok = false) {n : Nat}
    {outcome : ForwardOutcome Addr} (hdecode : decodeReply fmt n reply = .ok outcome) :
    outcome.leaderHint.isSome := by
  rw [decodeReply, if_neg (by rw [h]; exact Bool.false_ne_true)] at hdecode
  split at hdecode
  · split at hdecode
    · cases hdecode
    · cases hdecode
      rfl
  · cases hdecode

theorem writeReply_ne_ok {outcome : ForwardOutcome Addr} (h : outcome.leaderHint.isSome) (wantsIndex : Bool)
    (reply : WriteReply) : writeReply wantsIndex outcome ≠ .ok reply := by
  obtain ⟨hint, hhint⟩ := Option.isSome_iff_exists.mp h
  rw [writeReply, hhint]
  exact fun h => (nomatch h)

/-- What the forwarder makes of an answer of the target's sink. -/
theorem Path.Reaches.remote {path : Path Addr} {target : Target Addr} (h : path.Reaches target) (c : ForwardCommand) :
    path.remote c =
      some (decodeReply path.fmt (buildForwardRequest path.hello c).keys.length (encodeReply path.fmt (sink target c))) := by
  rw [Path.remote, h.link, ← h.server.forward]
  rfl

/-- What the client is told about a redirection. -/
def toldRedirect (fmt : AddrFormat Addr) (leaderId : String) (leaderAddr : Addr) : ArachneError Addr :=
  match fmt.parse (fmt.toString leaderAddr) with
  | none => codeToError "bad leader address"
  | some leaderAddr => .notLeader (some (leaderId, leaderAddr))

/-- What the client is told, for every verdict of the target's actor on a plain proposal. -/
def toldPropose (fmt : AddrFormat Addr) : Ack Addr ApplyOutcome → Except (ArachneError Addr) WriteReply
  | .closed => .error .quorumUnavailable
  | .dropped => .error .quorumUnavailable
  | .replied (.ok outcome) => .ok (.outcome outcome)
  | .replied (.error (.notLeader (some (leaderId, leaderAddr)))) => .error (toldRedirect fmt leaderId leaderAddr)
  | .replied (.error (.notLeader none)) => .ok (.outcome .none)
  | .replied (.error e) => .error (codeToError (stableCode e))

theorem forwardRequest_propose {path : Path Addr} {target : Target Addr} (h : path.Reaches target) (cmd : Bytes)
    (clientId seqNo : UInt64) :
    path.forwardRequest (.propose cmd clientId seqNo) = .ok (toldPropose path.fmt (target.propose cmd clientId seqNo)) := by
  rw [Path.forwardRequest, forwardRequest, Request.forwardCommand]
  dsimp only
  rw [h.remote, sink, decodeReply_sinkReply (fun _ => rfl) (fun _ => rfl)]
  generalize target.propose cmd clientId seqNo = ack
  cases ack with
  | closed => rfl
  | dropped => rfl
  | replied verdict =>
      cases verdict with
      | ok outcome =>
          rw [relayed]
          show Except.ok (Except.ok (WriteReply.outcome ((decodeForwardResult _).getD .none))) = _
          rw [getD_decodeForwardResult]
          rfl
      | error e =>
          cases e with
          | notLeader leaderHint =>
              cases leaderHint with
              | none => rfl
              | some hint =>
                  rw [relayed, toldPropose, toldRedirect]
                  cases path.fmt.parse (path.fmt.toString hint.2) <;> rfl
          | _ => rfl

/-- What the client is told, for every verdict on a proposal that asks for its index. Here the missing
index of a refusal without a hint is noticed. -/
def toldProposeWithIndex (fmt : AddrFormat Addr) : Ack Addr UInt64 → Except (ArachneError Addr) WriteReply
  | .closed => .error .quorumUnavailable
  | .dropped => .error .quorumUnavailable
  | .replied (.ok index) => .ok (.index index)
  | .replied (.error (.notLeader (some (leaderId, leaderAddr)))) => .error (toldRedirect fmt leaderId leaderAddr)
  | .replied (.error (.notLeader none)) => .error (.unsupported "leader does not support index-returning writes")
  | .replied (.error e) => .error (codeToError (stableCode e))

theorem forwardRequest_proposeWithIndex {path : Path Addr} {target : Target Addr} (h : path.Reaches target) (cmd : Bytes)
    (clientId seqNo : UInt64) :
    path.forwardRequest (.proposeWithIndex cmd clientId seqNo) =
      .ok (toldProposeWithIndex path.fmt (target.proposeWithIndex cmd clientId seqNo)) := by
  rw [Path.forwardRequest, forwardRequest, Request.forwardCommand]
  dsimp only
  rw [h.remote, sink, decodeReply_sinkReply (fun _ => rfl) (fun _ => rfl)]
  generalize target.proposeWithIndex cmd clientId seqNo = ack
  cases ack with
  | closed => rfl
  | dropped => rfl
  | replied verdict =>
      cases verdict with
      | ok index => rfl
      | error e =>
          cases e with
          | notLeader leaderHint =>
              cases leaderHint with
              | none => rfl
              | some hint =>
                  rw [relayed, toldProposeWithIndex, toldRedirect]
                  cases path.fmt.parse (path.fmt.toString hint.2) <;> rfl
          | _ => rfl

/-! ## False acknowledgements -/

/-- A forwarder that returns something other than a redirection has had its command handed to a sink. -/
theorem reaches_of_remote {path : Path Addr} {c : ForwardCommand} {outcome : ForwardOutcome Addr}
    (h : path.remote c = some (.ok outcome)) (hhint : ¬ outcome.leaderHint.isSome) : ∃ target, path.Reaches target := by
  rw [Path.remote] at h
  split at h
  · next hlink =>
      cases hok : (path.server.forward path.fmt (buildForwardRequest path.hello c)).ok with
      | true =>
          obtain ⟨target, hadmits⟩ := Server.admits_of_forward_ok hok
          exact ⟨target, hlink, hadmits⟩
      | false => exact absurd (decodeReply_of_not_ok hok (Option.some.inj h)) hhint
  · cases h
  · cases h

theorem Path.Reaches.target_unique {path : Path Addr} {target target' : Target Addr} (h : path.Reaches target)
    (h' : path.Reaches target') : target = target' :=
  Option.some.inj (h.server.commandSink.symm.trans h'.server.commandSink)

theorem Path.Acknowledges.reaches {path : Path Addr} {req : Request} (h : path.Acknowledges req) :
    ∃ target, path.Reaches target := by
  obtain ⟨reply, hreply⟩ := h
  rw [Path.forwardRequest, Forward.forwardRequest] at hreply
  split at hreply
  · cases hreply
  · split at hreply
    · next outcome hremote =>
        exact reaches_of_remote hremote fun hhint => writeReply_ne_ok hhint _ reply (Except.ok.inj hreply)
    · cases hreply
    · cases hreply

theorem not_acknowledges_of_unforwarded {path : Path Addr} {req : Request} (h : req.forwardCommand = none) :
    ¬ path.Acknowledges req := by
  rintro ⟨reply, hreply⟩
  rw [Path.forwardRequest, forwardRequest, h] at hreply
  cases hreply

theorem toldPropose_eq_ok_iff (fmt : AddrFormat Addr) (ack : Ack Addr ApplyOutcome) :
    (∃ reply, toldPropose fmt ack = .ok reply) ↔
      (∃ outcome, ack = .replied (.ok outcome)) ∨ ack = .replied (.error (.notLeader none)) := by
  rcases ack with _ | _ | verdict
  · simp [toldPropose]
  · simp [toldPropose]
  · rcases verdict with e | outcome
    · cases e with
      | notLeader leaderHint => cases leaderHint <;> simp [toldPropose]
      | _ => simp [toldPropose]
    · simp [toldPropose]

theorem toldProposeWithIndex_eq_ok_iff (fmt : AddrFormat Addr) (ack : Ack Addr UInt64) :
    (∃ reply, toldProposeWithIndex fmt ack = .ok reply) ↔ ∃ index, ack = .replied (.ok index) := by
  rcases ack with _ | _ | verdict
  · simp [toldProposeWithIndex]
  · simp [toldProposeWithIndex]
  · rcases verdict with e | index
    · cases e with
      | notLeader leaderHint => cases leaderHint <;> simp [toldProposeWithIndex]
      | _ => simp [toldProposeWithIndex]
    · simp [toldProposeWithIndex]

/-- A client along a path that reaches a target is told of a success in exactly two cases. -/
theorem Path.Reaches.acknowledges_iff {path : Path Addr} {target : Target Addr} (h : path.Reaches target) (req : Request) :
    path.Acknowledges req ↔ target.RepliedOk req ∨ target.RefusesHintless req := by
  cases req with
  | propose cmd clientId seqNo =>
      simp only [Path.Acknowledges, forwardRequest_propose h, Except.ok.injEq]
      exact toldPropose_eq_ok_iff path.fmt (target.propose cmd clientId seqNo)
  | proposeWithIndex cmd clientId seqNo =>
      simp only [Path.Acknowledges, forwardRequest_proposeWithIndex h, Except.ok.injEq]
      rw [toldProposeWithIndex_eq_ok_iff]
      exact (or_iff_left id).symm
  -- Membership changes never leave the node.
  | confChange changeType nodeId => exact iff_of_false (not_acknowledges_of_unforwarded rfl) (or_self_iff.not.mpr id)
  | transferLeader transferee => exact iff_of_false (not_acknowledges_of_unforwarded rfl) (or_self_iff.not.mpr id)

/-- **When a forwarded write can be trusted**: a success reported to the client is one of the target's
actor, exactly if that actor did not refuse a plain proposal without a hint. -/
theorem forwarded_write_acknowledged_iff (path : Path Addr) (req : Request) :
    (path.Acknowledges req → ∃ target, path.Reaches target ∧ target.RepliedOk req) ↔
      ¬ ∃ target, path.Reaches target ∧ target.RefusesHintless req := by
  constructor
  · rintro hfaithful ⟨target, hreaches, hrefuses⟩
    obtain ⟨target', hreaches', hok⟩ := hfaithful ((hreaches.acknowledges_iff req).mpr (.inr hrefuses))
    obtain rfl := hreaches.target_unique hreaches'
    cases req with
    | propose cmd clientId seqNo =>
        obtain ⟨outcome, hok⟩ := hok
        rw [show target.propose cmd clientId seqNo = _ from hrefuses] at hok
        cases hok
    | _ => exact hrefuses
  · intro hnone hack
    obtain ⟨target, hreaches⟩ := hack.reaches
    rcases (hreaches.acknowledges_iff req).mp hack with hok | hrefuses
    · exact ⟨target, hreaches, hok⟩
    · exact absurd ⟨target, hreaches, hrefuses⟩ hnone

/-! ### A write nobody accepted -/

/-- A node that is not the leader and does not know who is, as after an election it lost sight of. -/
def leaderless : Target String where
  propose _ _ _ := .replied (.error (.notLeader none))
  proposeWithIndex _ _ _ := .replied (.error (.notLeader none))
  read _ := .replied (.error (.notLeader none))
  getStale _ := .replied (.ok none)
  multiGet _ _ := .replied (.error (.notLeader none))
  tryReserve _ := true

def helloOne : Hello := { protocolMajor := 1, protocolMinor := 0, clusterId := "c" }

/-- A working connection to a node that runs `target`. -/
def pathTo (target : Target String) : Path String where
  fmt := { toString := id, parse := some }
  hello := helloOne
  link := .delivers
  server := { clusterId := "c", protocolMajor := 1, protocolMinor := 0, commandSink := some target }

/-- The put of a value to a leaderless node is reported to the client as applied. -/
theorem forwarded_write_falsely_acknowledged :
    (pathTo leaderless).forwardRequest (.propose [1, 2, 3] 7 1) = .ok (.ok (.outcome .none)) ∧
      ¬ ∃ target, (pathTo leaderless).Reaches target ∧ target.RepliedOk (.propose [1, 2, 3] 7 1) := by
  refine ⟨by decide, ?_⟩
  rintro ⟨target, hreaches, outcome, hok⟩
  obtain rfl : leaderless = target := Option.some.inj hreaches.server.commandSink
  cases hok

end Arachne.Forward
