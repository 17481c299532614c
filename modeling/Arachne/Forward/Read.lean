import Arachne.Forward.Write

/-! # Forwarded reads

A linearizable read takes the same way as a write, and `Handle::forward_get` is its last layer. On the wire
the value of a read is a plain byte string: the server writes an absent value as the empty one, and the
forwarder reads every value back as present. So an absent key arrives as a key with an empty value, and so
does a refusal without a leader to redirect to. Everything else arrives as it was sent
(`forwarded_get_faithful_iff`). -/

namespace Arachne.Forward

open Codec (Bytes)

variable {Addr : Type}

/-- What the client is told about the outcome of a read. -/
def getReply (outcome : ForwardOutcome Addr) : Except (ArachneError Addr) (Option Bytes) :=
  match outcome.leaderHint with
  | some hint => .error (.notLeader (some hint))
  | none => .ok outcome.value

/-- `forward_get`, over a forwarder that answers or outlasts the deadline (`none`). -/
def forwardGet (remote : ForwardCommand → Option (Except String (ForwardOutcome Addr))) (key : Bytes) :
    Except (ArachneError Addr) (Except (ArachneError Addr) (Option Bytes)) :=
  match remote (.read key) with
  | some (.ok outcome) => .ok (getReply outcome)
  | some (.error code) => .ok (.error (codeToError code))
  | none => .error .quorumUnavailable

def Path.forwardGet (path : Path Addr) (key : Bytes) :
    Except (ArachneError Addr) (Except (ArachneError Addr) (Option Bytes)) :=
  Forward.forwardGet path.remote key

/-- The client gets what the actor of the target answered, and gets a value from nowhere else. In particular
it gets none from an actor that refused. -/
structure Path.FaithfulGet (path : Path Addr) (key : Bytes) : Prop where
  answered : ∀ target, path.Reaches target → ∀ value, target.read key = .replied (.ok value) →
    path.forwardGet key = .ok (.ok value)
  only : ∀ value, path.forwardGet key = .ok (.ok value) →
    ∃ target, path.Reaches target ∧ target.read key = .replied (.ok value)

/-! ## Every answer, end to end -/

/-- What the client is told, for every answer of the target's actor to a read. -/
def toldGet (fmt : AddrFormat Addr) : Ack Addr (Option Bytes) → Except (ArachneError Addr) (Option Bytes)
  | .closed => .error .quorumUnavailable
  | .dropped => .error .quorumUnavailable
  | .replied (.ok value) => .ok (some (value.getD []))
  | .replied (.error (.notLeader (some (leaderId, leaderAddr)))) => .error (toldRedirect fmt leaderId leaderAddr)
  | .replied (.error (.notLeader none)) => .ok (some [])
  | .replied (.error e) => .error (codeToError (stableCode e))

theorem forwardGet_told {path : Path Addr} {target : Target Addr} (h : path.Reaches target) (key : Bytes) :
    path.forwardGet key = .ok (toldGet path.fmt (target.read key)) := by
  rw [Path.forwardGet, forwardGet, h.remote, sink, decodeReply_sinkReply (fun _ => rfl) (fun _ => rfl)]
  generalize target.read key = ack
  cases ack with
  | closed => rfl
  | dropped => rfl
  | replied verdict =>
      cases verdict with
      | ok value => rfl
      | error e =>
          cases e with
          | notLeader leaderHint =>
              cases leaderHint with
              | none => rfl
              | some hint =>
                  rw [relayed, toldGet, toldRedirect]
                  cases path.fmt.parse (path.fmt.toString hint.2) <;> rfl
          | _ => rfl

theorem getReply_ne_ok {outcome : ForwardOutcome Addr} (h : outcome.leaderHint.isSome) (value : Option Bytes) :
    getReply outcome ≠ .ok value := by
  obtain ⟨hint, hhint⟩ := Option.isSome_iff_exists.mp h
  rw [getReply, hhint]
  exact fun h => (nomatch h)

/-- A client that is given a value has had its read handed to a sink. -/
theorem reaches_of_forwardGet {path : Path Addr} {key : Bytes} {value : Option Bytes}
    (h : path.forwardGet key = .ok (.ok value)) : ∃ target, path.Reaches target := by
  rw [Path.forwardGet, forwardGet] at h
  split at h
  · next outcome hremote =>
      exact reaches_of_remote hremote fun hhint => getReply_ne_ok hhint value (Except.ok.inj h)
  · cases h
  · cases h

/-! ## What is lost -/

/-- The answers that the wire turns into an empty value: an absent key, and a refusal without a hint. -/
def Target.AnswersNothing (target : Target Addr) (key : Bytes) : Prop :=
  target.read key = .replied (.ok none) ∨ target.read key = .replied (.error (.notLeader none))

/-- **When a forwarded read is faithful**: exactly if the key is present, or the refusal names a leader. -/
theorem forwarded_get_faithful_iff (path : Path Addr) (key : Bytes) :
    path.FaithfulGet key ↔ ¬ ∃ target, path.Reaches target ∧ target.AnswersNothing key := by
  constructor
  · rintro hfaithful ⟨target, hreaches, habsent | hrefused⟩
    · have htold := hfaithful.answered target hreaches none habsent
      rw [forwardGet_told hreaches, habsent] at htold
      cases htold
    · have htold := forwardGet_told hreaches key
      rw [hrefused] at htold
      obtain ⟨target', hreaches', hread⟩ := hfaithful.only (some []) htold
      rw [← hreaches.target_unique hreaches', hrefused] at hread
      cases hread
  · intro hnone
    refine ⟨fun target hreaches value hread => ?_, fun value hvalue => ?_⟩
    · rw [forwardGet_told hreaches, hread]
      cases value with
      | none => exact absurd ⟨target, hreaches, .inl hread⟩ hnone
      | some v => rfl
    · obtain ⟨target, hreaches⟩ := reaches_of_forwardGet hvalue
      refine ⟨target, hreaches, ?_⟩
      rw [forwardGet_told hreaches] at hvalue
      have hanswer : ¬ target.AnswersNothing key := fun h => hnone ⟨target, hreaches, h⟩
      rw [Target.AnswersNothing] at hanswer
      revert hanswer hvalue
      generalize target.read key = ack
      intro hvalue hanswer
      rcases ack with _ | _ | verdict
      · cases hvalue
      · cases hvalue
      · rcases verdict with e | answer
        · cases e with
          | notLeader leaderHint =>
              cases leaderHint with
              | none => exact absurd (.inr rfl) hanswer
              | some hint => cases hvalue
          | _ => cases hvalue
        · cases answer with
          | none => exact absurd (.inl rfl) hanswer
          | some v => cases hvalue; rfl

/-- A leader that holds no key. -/
def emptyLeader : Target String where
  propose _ _ _ := .replied (.ok .none)
  proposeWithIndex _ _ _ := .replied (.ok 1)
  read _ := .replied (.ok none)
  getStale _ := .replied (.ok none)
  multiGet keys _ := .replied (.ok (keys.map fun _ => none, 0))
  tryReserve _ := true

/-- An absent key is read as a present key with an empty value, and so is any key of a node that is not the
leader and knows none. -/
theorem forwarded_get_unfaithful :
    (pathTo emptyLeader).forwardGet [1] = .ok (.ok (some [])) ∧ emptyLeader.read [1] = .replied (.ok none) ∧
      (pathTo leaderless).forwardGet [1] = .ok (.ok (some [])) ∧
      leaderless.read [1] = .replied (.error (.notLeader none)) ∧
      ¬ (pathTo emptyLeader).FaithfulGet [1] ∧ ¬ (pathTo leaderless).FaithfulGet [1] := by
  have htoEmpty : (pathTo emptyLeader).forwardGet [1] = .ok (.ok (some [])) := by decide
  have htoLeaderless : (pathTo leaderless).forwardGet [1] = .ok (.ok (some [])) := by decide
  refine ⟨htoEmpty, rfl, htoLeaderless, rfl, fun h => ?_, fun h => ?_⟩
  · have htold := h.answered emptyLeader ⟨rfl, by decide, rfl⟩ none rfl
    rw [htoEmpty] at htold
    cases htold
  · obtain ⟨target, hreaches, hread⟩ := h.only (some []) htoLeaderless
    obtain rfl : leaderless = target := Option.some.inj hreaches.server.commandSink
    cases hread

end Arachne.Forward
