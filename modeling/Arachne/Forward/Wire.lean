import Arachne.StateMachine.Kv

/-! # Forwarding a command to another node

A follower carries a client's command to the leader over one RPC. The leader's verdict passes through
four layers on its way back, each of which re-encodes it:

    actor ──sink──▶ ForwardOutcome ──server──▶ ForwardReply ──do_forward──▶ ForwardOutcome ──▶ Handle

This module is the first three. `sink` turns a reply of the runtime actor into an outcome or a stable code,
`Server.forward` puts it into a reply message, and `doForward` reads the message back on the other side.
The message itself is carried unchanged. -/

namespace Arachne.Forward

open Codec (Bytes)
open StateMachine (ApplyOutcome)

/-- How socket addresses are written into a reply, and read from it. -/
structure AddrFormat (Addr : Type) where
  toString : Addr → String
  parse : String → Option Addr

variable {Addr α : Type}

/-- The error model of the client operations. -/
inductive ArachneError (Addr : Type) where
  | notLeader (leaderHint : Option (String × Addr))
  | quorumUnavailable
  | timeout
  | busy
  | invalidArgument (message : String)
  | sessionExpired
  | sessionTableFull
  | confChangePending
  | leaderRemovalRequiresTransfer
  | learnerNotCaughtUp (behind threshold : UInt64)
  | clusterIdMismatch
  | shuttingDown
  | dataDirLocked
  | unrecoverable (message : String)
  | unsupported (message : String)
  | alreadyInitialized
  | notInitialized
  deriving DecidableEq, Repr

/-! ## The command sink -/

/-- A client command on its way to another node. -/
inductive ForwardCommand where
  | propose (cmd : Bytes) (clientId seqNo : UInt64)
  | proposeWithIndex (cmd : Bytes) (clientId seqNo : UInt64)
  | read (key : Bytes)
  | getStale (key : Bytes)
  | multiGet (keys : List Bytes) (linearizable : Bool)
  deriving DecidableEq, Repr

/-- What comes of a command put on the actor's channel. -/
inductive Ack (Addr α : Type) where
  /-- The channel is closed: the runtime is gone. -/
  | closed
  /-- The runtime went away without an answer. -/
  | dropped
  | replied (verdict : Except (ArachneError Addr) α)

/-- The runtime of the target node, as its command sink sees it: what the actor makes of each command,
and whether the budget for batched reads has room. -/
structure Target (Addr : Type) where
  propose : Bytes → UInt64 → UInt64 → Ack Addr ApplyOutcome
  proposeWithIndex : Bytes → UInt64 → UInt64 → Ack Addr UInt64
  read : Bytes → Ack Addr (Option Bytes)
  getStale : Bytes → Ack Addr (Option Bytes)
  multiGet : List Bytes → Bool → Ack Addr (List (Option Bytes) × UInt64)
  tryReserve : Nat → Bool

/-- The outcome of a forwarded command. Every field is optional, and its presence is what the next layer
goes by. -/
structure ForwardOutcome (Addr : Type) where
  value : Option Bytes := none
  leaderHint : Option (String × Addr) := none
  result : Option ApplyOutcome := none
  multi : Option (List (Option Bytes) × UInt64) := none
  index : Option UInt64 := none

def unavailableCode : String := "unavailable"

/-- `stable_code`: the wire code of an error. -/
def stableCode : ArachneError Addr → String
  | .quorumUnavailable => "quorum_unavailable"
  | .timeout => "timeout"
  | .busy => "busy"
  | .sessionExpired => "session_expired"
  | .sessionTableFull => "session_table_full"
  | .shuttingDown => "shutting_down"
  | .invalidArgument _ => "invalid_argument"
  | .unsupported _ => "unsupported"
  | _ => "unrecoverable"

/-- The answer of the sink to what came of its command, given where a success puts its result. -/
def sinkReply (success : α → ForwardOutcome Addr) : Ack Addr α → Except String (ForwardOutcome Addr)
  | .closed => .error unavailableCode
  | .dropped => .error unavailableCode
  | .replied (.ok x) => .ok (success x)
  -- No outcome, just the hint to redirect to. The hint is the actor's, and may be absent.
  | .replied (.error (.notLeader leaderHint)) => .ok { leaderHint }
  | .replied (.error e) => .error (stableCode e)

/-- `ForwardCommandSink::sink`. -/
def sink (target : Target Addr) : ForwardCommand → Except String (ForwardOutcome Addr)
  | .propose cmd clientId seqNo =>
    sinkReply (fun outcome => { result := some outcome }) (target.propose cmd clientId seqNo)
  | .proposeWithIndex cmd clientId seqNo =>
    sinkReply (fun index => { index := some index }) (target.proposeWithIndex cmd clientId seqNo)
  | .read key => sinkReply (fun value => { value }) (target.read key)
  | .getStale key => sinkReply (fun value => { value }) (target.getStale key)
  | .multiGet keys linearizable =>
    if target.tryReserve (keys.map List.length).sum then
      sinkReply (fun multi => { multi := some multi }) (target.multiGet keys linearizable)
    else .error "busy"

/-! ## Messages -/

/-- The sender's handshake. -/
structure Hello where
  protocolMajor : UInt32
  protocolMinor : UInt32
  clusterId : String
  deriving DecidableEq, Repr

structure ForwardRequest where
  kind : UInt32
  cmd : Bytes
  key : Bytes
  clientId : UInt64
  seqNo : UInt64
  hello : Option Hello
  keys : List Bytes
  linearizable : Bool
  deriving DecidableEq, Repr

/-- The branches of the result envelope. -/
inductive ForwardResult.Kind where
  | value (v : Bytes)
  | casFailed (currentIndex : UInt64) (currentValue : Option Bytes)
  deriving DecidableEq, Repr

/-- The envelope of a write's outcome. -/
structure ForwardResult where
  kind : Option ForwardResult.Kind
  deriving DecidableEq, Repr

structure MultiGetReply where
  values : List (Option Bytes)
  appliedIndex : UInt64
  deriving DecidableEq, Repr

structure ForwardReply where
  ok : Bool := false
  errorCode : String := ""
  value : Bytes := []
  leaderNodeId : String := ""
  leaderAddr : String := ""
  result : Option ForwardResult := none
  commitIndex : Option UInt64 := none
  multiGet : Option MultiGetReply := none
  deriving DecidableEq, Repr

/-! ## The server -/

def errHelloMissing : String := "missing_hello"
def errClusterIdMismatch : String := "cluster_id_mismatch"
def errProtocolMismatch : String := "protocol_mismatch"

/-- `validate_hello`: the code a handshake is rejected with. A peer of a newer minor version is rejected. -/
def validateHello (hello : Hello) (clusterId : String) (protocolMajor protocolMinor : UInt32) : Option String :=
  if hello.clusterId ≠ clusterId then some errClusterIdMismatch
  else if hello.protocolMajor ≠ protocolMajor then some errProtocolMismatch
  else if hello.protocolMinor > protocolMinor then some errProtocolMismatch
  else none

/-- A node's server. The sink is looked up when a request arrives, and may not be registered yet. -/
structure Server (Addr : Type) where
  clusterId : String
  protocolMajor : UInt32
  protocolMinor : UInt32
  commandSink : Option (Target Addr)

/-- The command of a request, unless its kind is unknown. -/
def ForwardRequest.command (request : ForwardRequest) : Option ForwardCommand :=
  match request.kind with
  | 0 => some (.propose request.cmd request.clientId request.seqNo)
  | 1 => some (.read request.key)
  | 2 => some (.getStale request.key)
  | 3 => some (.multiGet request.keys request.linearizable)
  | 4 => some (.proposeWithIndex request.cmd request.clientId request.seqNo)
  | _ => none

/-- `encode_forward_result`: an outcome of `None` is an absent envelope, like no outcome. -/
def encodeForwardResult : Option ApplyOutcome → Option ForwardResult
  | some (.value v) => some ⟨some (.value v)⟩
  | some (.casFailed currentIndex currentValue) => some ⟨some (.casFailed currentIndex currentValue)⟩
  | some .none => none
  | none => none

def encodeMultiGet (multi : Option (List (Option Bytes) × UInt64)) : Option MultiGetReply :=
  multi.map fun (values, appliedIndex) => { values, appliedIndex }

/-- The reply to what the sink answered. -/
def encodeReply (fmt : AddrFormat Addr) : Except String (ForwardOutcome Addr) → ForwardReply
  | .ok outcome =>
    match outcome.leaderHint with
    | some (leaderId, leaderAddr) =>
      { errorCode := "not_leader", leaderNodeId := leaderId, leaderAddr := fmt.toString leaderAddr }
    | none =>
      { ok := true
        value := outcome.value.getD []
        result := encodeForwardResult outcome.result
        commitIndex := outcome.index
        multiGet := encodeMultiGet outcome.multi }
  | .error code => { errorCode := code }

/-- `forward`, the handler of the RPC. -/
def Server.forward (fmt : AddrFormat Addr) (server : Server Addr) (request : ForwardRequest) : ForwardReply :=
  match request.hello with
  | none => { errorCode := errHelloMissing }
  | some hello =>
    match validateHello hello server.clusterId server.protocolMajor server.protocolMinor with
    | some code => { errorCode := code }
    | none =>
      match server.commandSink with
      | none => { errorCode := "unavailable" }
      | some target =>
        match request.command with
        | none => { errorCode := "unknown_kind" }
        | some command => encodeReply fmt (sink target command)

/-! ## The forwarder -/

/-- `build_forward_request`. -/
def buildForwardRequest (hello : Hello) (c : ForwardCommand) : ForwardRequest :=
  let request : ForwardRequest :=
    { kind := 0, cmd := [], key := [], clientId := 0, seqNo := 0, hello := some hello, keys := [],
      linearizable := false }
  match c with
  | .propose cmd clientId seqNo => { request with kind := 0, cmd, clientId, seqNo }
  | .read key => { request with kind := 1, key }
  | .getStale key => { request with kind := 2, key }
  | .multiGet keys linearizable => { request with kind := 3, keys, linearizable }
  | .proposeWithIndex cmd clientId seqNo => { request with kind := 4, cmd, clientId, seqNo }

/-- `decode_forward_result`. -/
def decodeForwardResult : Option ForwardResult → Option ApplyOutcome
  | some ⟨some (.value v)⟩ => some (.value v)
  | some ⟨some (.casFailed currentIndex currentValue)⟩ => some (.casFailed currentIndex currentValue)
  | some ⟨none⟩ => none
  | none => none

/-- `decode_multi_get`: one entry for each key asked for, or the reply is refused. -/
def decodeMultiGet (reply : Option MultiGetReply) (expectedLen : Nat) :
    Except String (Option (List (Option Bytes) × UInt64)) :=
  match reply with
  | none => .ok none
  | some m =>
    if m.values.length ≠ expectedLen then .error "malformed_multi_get_reply"
    else .ok (some (m.values, m.appliedIndex))

/-- The outcome a reply stands for. -/
def decodeReply (fmt : AddrFormat Addr) (expectedKeys : Nat) (reply : ForwardReply) :
    Except String (ForwardOutcome Addr) :=
  if reply.ok then do
    let multi ← decodeMultiGet reply.multiGet expectedKeys
    return {
      value := some reply.value
      result := decodeForwardResult reply.result
      multi
      index := reply.commitIndex }
  else if reply.errorCode = "not_leader" then
    match fmt.parse reply.leaderAddr with
    | none => .error "bad leader address"
    | some leaderAddr => .ok { leaderHint := some (reply.leaderNodeId, leaderAddr) }
  else .error reply.errorCode

/-- `do_forward`, over an RPC that answers or fails with the text of a status. -/
def doForward (fmt : AddrFormat Addr) (rpc : ForwardRequest → Except String ForwardReply) (hello : Hello)
    (c : ForwardCommand) : Except String (ForwardOutcome Addr) := do
  let request := buildForwardRequest hello c
  decodeReply fmt request.keys.length (← rpc request)

/-! ## The way of a verdict -/

/-- A forwarded command reaches the sink as it was. -/
@[simp] theorem command_buildForwardRequest (hello : Hello) (c : ForwardCommand) :
    (buildForwardRequest hello c).command = some c := by
  cases c <;> rfl

@[simp] theorem hello_buildForwardRequest (hello : Hello) (c : ForwardCommand) :
    (buildForwardRequest hello c).hello = some hello := by
  cases c <;> rfl

/-- A server that will hand a forwarded command to the sink of `target`. -/
structure Server.Admits (server : Server Addr) (hello : Hello) (target : Target Addr) : Prop where
  hello : validateHello hello server.clusterId server.protocolMajor server.protocolMinor = none
  commandSink : server.commandSink = some target

theorem Server.Admits.forward {server : Server Addr} {hello : Hello} {target : Target Addr}
    (h : server.Admits hello target) (fmt : AddrFormat Addr) (c : ForwardCommand) :
    server.forward fmt (buildForwardRequest hello c) = encodeReply fmt (sink target c) := by
  simp only [Server.forward, hello_buildForwardRequest, h.hello, h.commandSink, command_buildForwardRequest]

/-- Only a server that handed the command to its sink answers `ok`. -/
theorem Server.admits_of_forward_ok {server : Server Addr} {hello : Hello} {fmt : AddrFormat Addr} {c : ForwardCommand}
    (h : (server.forward fmt (buildForwardRequest hello c)).ok = true) : ∃ target, server.Admits hello target := by
  rw [Server.forward, hello_buildForwardRequest] at h
  dsimp only at h
  split at h
  · cases h
  · next hhello =>
      split at h
      · cases h
      · next target hsink => exact ⟨target, hhello, hsink⟩

/-! ### What survives the wire -/

/-- An absent outcome and `None` are one on the wire; nothing else is lost. -/
theorem getD_decodeForwardResult (result : Option ApplyOutcome) :
    (decodeForwardResult (encodeForwardResult result)).getD .none = result.getD .none := by
  cases result with
  | none => rfl
  | some outcome => cases outcome <;> rfl

/-- A code arrives, unless it is the one that announces a hint. -/
theorem decodeReply_code {code : String} (h : code ≠ "not_leader") (fmt : AddrFormat Addr) (n : Nat) :
    decodeReply fmt n (encodeReply fmt (.error code)) = .error code := by
  rw [encodeReply, decodeReply, if_neg Bool.false_ne_true, if_neg h]

/-- A hint arrives if its address can be read back. -/
theorem decodeReply_hint {outcome : ForwardOutcome Addr} {leaderId : String} {leaderAddr : Addr}
    (h : outcome.leaderHint = some (leaderId, leaderAddr)) (fmt : AddrFormat Addr) (n : Nat) :
    decodeReply fmt n (encodeReply fmt (.ok outcome)) =
      match fmt.parse (fmt.toString leaderAddr) with
      | none => .error "bad leader address"
      | some leaderAddr => .ok { leaderHint := some (leaderId, leaderAddr) } := by
  rw [encodeReply, h]
  rfl

/-- An outcome without a hint arrives as a success, whether it is one or not. -/
theorem decodeReply_success {outcome : ForwardOutcome Addr} (hhint : outcome.leaderHint = none)
    (hmulti : outcome.multi = none) (fmt : AddrFormat Addr) (n : Nat) :
    decodeReply fmt n (encodeReply fmt (.ok outcome)) =
      .ok {
        value := some (outcome.value.getD [])
        result := decodeForwardResult (encodeForwardResult outcome.result)
        index := outcome.index } := by
  rw [encodeReply, hhint]
  dsimp only
  rw [hmulti]
  rfl

theorem stableCode_ne_not_leader (e : ArachneError Addr) : stableCode e ≠ "not_leader" := by
  cases e <;> simp [stableCode]

/-- The outcome the forwarder returns, for every answer of the actor to a command that is not a batched
read. -/
def relayed (fmt : AddrFormat Addr) (success : α → ForwardOutcome Addr) : Ack Addr α → Except String (ForwardOutcome Addr)
  | .closed => .error unavailableCode
  | .dropped => .error unavailableCode
  | .replied (.ok x) =>
    .ok {
      value := some ((success x).value.getD [])
      result := decodeForwardResult (encodeForwardResult (success x).result)
      index := (success x).index }
  | .replied (.error (.notLeader none)) => .ok { value := some [] }
  | .replied (.error (.notLeader (some (leaderId, leaderAddr)))) =>
    match fmt.parse (fmt.toString leaderAddr) with
    | none => .error "bad leader address"
    | some leaderAddr => .ok { leaderHint := some (leaderId, leaderAddr) }
  | .replied (.error e) => .error (stableCode e)

theorem decodeReply_sinkReply {success : α → ForwardOutcome Addr} (hhint : ∀ x, (success x).leaderHint = none)
    (hmulti : ∀ x, (success x).multi = none) (fmt : AddrFormat Addr) (n : Nat) (ack : Ack Addr α) :
    decodeReply fmt n (encodeReply fmt (sinkReply success ack)) = relayed fmt success ack := by
  have hcode : unavailableCode ≠ "not_leader" := by decide
  cases ack with
  | closed => exact decodeReply_code hcode fmt n
  | dropped => exact decodeReply_code hcode fmt n
  | replied verdict =>
      cases verdict with
      | ok x => exact decodeReply_success (hhint x) (hmulti x) fmt n
      | error e =>
          cases e with
          | notLeader leaderHint =>
              cases leaderHint with
              | none => exact decodeReply_success rfl rfl fmt n
              | some hint => exact decodeReply_hint rfl fmt n
          | _ => exact decodeReply_code (stableCode_ne_not_leader _) fmt n

end Arachne.Forward
